import SystemProgramming.MemoryLab.Plain.Allocator
import SystemProgramming.MemoryLab.Primitives

/-!
# Known words and linked lists

In the middle of an operation some words of the heap are known, by their addresses, and the class
lists are linked through words of which nothing else is known. A `View` says so. A primitive of the
allocator takes a view to a view: a tag that is written becomes a known word, as long as no links are
there (`View.setBoundaryTag`), and links that are written change the lists and no known word
(`View.removeBlock`, `View.insertBlock`). All of them change bytes only.
-/

set_option autoImplicit false
set_option relaxedAutoImplicit false

namespace SystemProgramming.MemoryLab.Plain

open Library

/-- The words that are known at an address. -/
abbrev Words := Nat → Nat → Prop

/-- A root or an address on a list. -/
abbrev Variant.Node (v : Variant) (base : Nat) (L : Filing) : Nat → Prop :=
  RingMember (· < v.sizeClassNum) (classRoot base) L

/-- Two words of the arena that may hold links. -/
structure LinkPlace (h : Heap) (y : Nat) : Prop where
  mod : y % 8 = 0
  low : h.memStartBrk ≤ y
  high : y + 8 ≤ h.memMaxAddr

/-- Some words are known, and the class lists are in memory, linked through other words. -/
structure View (v : Variant) (h : Heap) (W : Words) (L : Filing) : Prop where
  arena : h.Arena
  sizeClassP_eq : h.sizeClassP = h.memStartBrk
  linked : RingFamily (fun x ↦ wordAt h.bytes x) (fun x ↦ wordAt h.bytes (x + 4))
    (· < v.sizeClassNum) (classRoot h.memStartBrk) L
  known : ∀ p w, W p w → p % 4 = 0 ∧ h.InArena p ∧ h.word p = w
  place : ∀ y, v.Node h.memStartBrk L y → LinkPlace h y
  apart : ∀ y, v.Node h.memStartBrk L y → ∀ p w, W p w → p ≠ y ∧ p ≠ y + 4

namespace LinkPlace

variable {h : Heap} {y : Nat}

theorem inArena (hy : LinkPlace h y) : h.InArena y ∧ h.InArena (y + 4) := by
  have hlow := hy.low
  have hhigh := hy.high
  exact ⟨⟨hlow, by omega⟩, by omega, hhigh⟩

theorem addWord_wsize (hy : LinkPlace h y) (ha : h.Arena) : addWord y wsize = y + 4 := by
  have hhigh := hy.high
  have hbelow := ha.below
  exact addWord_of_lt (by unfold wsize; omega)

theorem nextFree (hy : LinkPlace h y) (m : ByteMemory) (Q : Nat → Heap → Prop) :
    Returns (nextFree y) (h.store m) Q ↔ Q (wordAt m y) (h.store m) :=
  returns_getWord_store hy.inArena.1 m Q

theorem prevFree (hy : LinkPlace h y) (ha : h.Arena) (m : ByteMemory) (Q : Nat → Heap → Prop) :
    Returns (prevFree y) (h.store m) Q ↔ Q (wordAt m (y + 4)) (h.store m) := by
  rw [MemoryLab.prevFree, hy.addWord_wsize ha]
  exact returns_getWord_store hy.inArena.2 m Q

theorem setNextF (hy : LinkPlace h y) (w : Nat) (m : ByteMemory) (Q : Unit → Heap → Prop) :
    Returns (setNextF y w) (h.store m) Q ↔ Q () (h.store (putWord m y w)) :=
  returns_putWordAt_store hy.inArena.1 w m Q

theorem setPrevF (hy : LinkPlace h y) (ha : h.Arena) (w : Nat) (m : ByteMemory)
    (Q : Unit → Heap → Prop) :
    Returns (setPrevF y w) (h.store m) Q ↔ Q () (h.store (putWord m (y + 4) w)) := by
  rw [MemoryLab.setPrevF, hy.addWord_wsize ha]
  exact returns_putWordAt_store hy.inArena.2 w m Q

end LinkPlace

namespace View

variable {v : Variant} {h : Heap} {W W' : Words} {L : Filing}

/-- Fewer words. -/
theorem weaken (hv : View v h W L) (hW : ∀ p w, W' p w → W p w) : View v h W' L :=
  { hv with
    known := fun p w hw ↦ hv.known p w (hW p w hw)
    apart := fun y hy p w hw ↦ hv.apart y hy p w (hW p w hw) }

theorem nodup (hv : View v h W L) {c : Nat} (hc : c < v.sizeClassNum) : (L c).Nodup :=
  (List.nodup_cons.mp (hv.linked.nodup c hc)).2

theorem root (hv : View v h W L) {c : Nat} (hc : c < v.sizeClassNum) :
    LinkPlace h (classRoot h.memStartBrk c) :=
  hv.place _ ⟨c, hc, List.mem_cons_self⟩

theorem getClassRoot (hv : View v h W L) {c : Nat} (hc : c < v.sizeClassNum) (m : ByteMemory)
    (Q : Nat → Heap → Prop) :
    Returns (getClassRoot c) (h.store m) Q ↔ Q (classRoot h.memStartBrk c) (h.store m) := by
  have hhigh := (hv.root hc).high
  have hbelow := hv.arena.below
  unfold classRoot at hhigh
  have hroot : addWord (h.store m).sizeClassP (dsize * c) = classRoot h.memStartBrk c := by
    change addWord h.sizeClassP (dsize * c) = _
    rw [hv.sizeClassP_eq, addWord_of_lt (by unfold dsize; omega)]
    rfl
  simp only [MemoryLab.getClassRoot, returns_bind, returns_get, returns_pure, hroot]

/-- Other links, with the known words in place. -/
theorem relink (hv : View v h W L) {m : ByteMemory} {L' : Filing}
    (hword : ∀ p w, W p w → wordAt m p = wordAt h.bytes p)
    (hl : RingFamily (fun x ↦ wordAt m x) (fun x ↦ wordAt m (x + 4)) (· < v.sizeClassNum)
      (classRoot h.memStartBrk) L')
    (hnode : ∀ y, v.Node h.memStartBrk L' y →
      LinkPlace h y ∧ ∀ p w, W p w → p ≠ y ∧ p ≠ y + 4) : View v (h.store m) W L' where
  arena := hv.arena.store m
  sizeClassP_eq := hv.sizeClassP_eq
  linked := hl
  known := fun p w hw ↦ by
    obtain ⟨hmod, harena, hold⟩ := hv.known p w hw
    exact ⟨hmod, harena, (hword p w hw).trans hold⟩
  place := fun y hy ↦ ⟨(hnode y hy).1.mod, (hnode y hy).1.low, (hnode y hy).1.high⟩
  apart := fun y hy ↦ (hnode y hy).2

/-- A link that is written changes no known word. -/
theorem wordAt_putLink {m : ByteMemory} {p q w y u : Nat}
    (hapart : ∀ p w, W p w → p ≠ y ∧ p ≠ y + 4) (hy : y % 8 = 0) (hW : W p w) (hp : p % 4 = 0)
    (hq : q = y ∨ q = y + 4) (hu : u < 2 ^ 32) : wordAt (putWord m q u) p = wordAt m p := by
  have hne := hapart p w hW
  rw [wordAt_putWord m (by omega) hp hu, if_neg (by omega)]

/-! ### Lists -/

/-- The roots and the addresses on the lists that are left. -/
theorem node_of_node_unfile {base x y : Nat} (hy : v.Node base (unfile L x) y) :
    v.Node base L y := by
  obtain ⟨c, hc, hmem⟩ := hy
  exact ⟨c, hc, (List.mem_cons.mp hmem).elim (fun h ↦ h ▸ List.mem_cons_self)
    fun h ↦ List.mem_cons_of_mem _ (List.mem_of_mem_erase h)⟩

theorem node_of_node_fileUnder {base cls x y : Nat} (hy : v.Node base (fileUnder L cls x) y) :
    y = x ∨ v.Node base L y := by
  obtain ⟨c, hc, hmem⟩ := hy
  rcases List.mem_cons.mp hmem with rfl | hmem
  · exact Or.inr ⟨c, hc, List.mem_cons_self⟩
  · rcases mem_fileUnder.mp hmem with ⟨rfl, -⟩ | hmem
    · exact Or.inl rfl
    · exact Or.inr ⟨c, hc, List.mem_cons_of_mem _ hmem⟩

/-- `remove_block` of an address on a list. -/
theorem removeBlock (hv : View v h W L) {c x : Nat} (hc : c < v.sizeClassNum) (hxc : x ∈ L c)
    {Q : Unit → Heap → Prop}
    (hQ : ∀ m, View v (h.store m) W (unfile L x) → Q () (h.store m)) :
    Returns (Plain.removeBlock x) h Q := by
  obtain ⟨⟨hnextMem, -⟩, hprevMem, hprevNe⟩ := hv.linked.neighbours_mem hc hxc
  have hnodex : v.Node h.memStartBrk L x := ⟨c, hc, List.mem_cons_of_mem _ hxc⟩
  have hnoden : v.Node h.memStartBrk L (wordAt h.bytes x) := ⟨c, hc, hnextMem⟩
  have hnodep : v.Node h.memStartBrk L (wordAt h.bytes (x + 4)) := ⟨c, hc, hprevMem⟩
  have hx := hv.place _ hnodex
  have hn := hv.place _ hnoden
  have hp := hv.place _ hnodep
  have hmodx := hx.mod
  have hmodn := hn.mod
  have hmodp := hp.mod
  have hltn := wordAt_lt h.bytes x
  have hltp := wordAt_lt h.bytes (x + 4)
  -- the two links of `x` itself are not among the words written
  have hreadNext : wordAt (putWord h.bytes (wordAt h.bytes (x + 4)) (wordAt h.bytes x)) x =
      wordAt h.bytes x := by
    rw [wordAt_putWord _ (by omega) (by omega) hltn, if_neg (Ne.symm hprevNe)]
  have hreadPrev : wordAt (putWord h.bytes (wordAt h.bytes (x + 4)) (wordAt h.bytes x)) (x + 4) =
      wordAt h.bytes (x + 4) := by
    rw [wordAt_putWord _ (by omega) (by omega) hltn, if_neg (by omega)]
  change Returns (Plain.removeBlock x) (h.store h.bytes) Q
  simp only [Plain.removeBlock, returns_bind, hx.prevFree hv.arena, hx.nextFree, hp.setNextF,
    hreadNext, hreadPrev, hn.setPrevF hv.arena]
  refine hQ _ (hv.relink (fun q w hw ↦ ?_) ?_ fun y hy ↦ ?_)
  · have hmodq := (hv.known q w hw).1
    rw [wordAt_putLink (hv.apart _ hnoden) hmodn hw hmodq (Or.inr rfl) hltp,
      wordAt_putLink (hv.apart _ hnodep) hmodp hw hmodq (Or.inl rfl) hltn]
  · refine hv.linked.unlink hc hxc (fun y hy ↦ ?_) fun y hy ↦ ?_
    · have hmody := (hv.place y hy).mod
      rw [wordAt_putWord _ (by omega) (by omega) hltp, if_neg (by omega),
        wordAt_putWord _ (by omega) (by omega) hltn]
    · have hmody := (hv.place y hy).mod
      rw [wordAt_putWord _ (by omega) (by omega) hltp]
      by_cases hyn : y = wordAt h.bytes x
      · rw [if_pos (by omega), if_pos hyn]
      · rw [if_neg (by omega), if_neg hyn, wordAt_putWord _ (by omega) (by omega) hltn,
          if_neg (by omega)]
  · have hold := node_of_node_unfile hy
    exact ⟨hv.place y hold, hv.apart y hold⟩

/-- `insert_block` of an address that is on no list, where no word is known. -/
theorem insertBlock (hv : View v h W L) {x : Nat} (asize : Nat) (hx : LinkPlace h x)
    (hfresh : ¬ v.Node h.memStartBrk L x) (hclear : ∀ p w, W p w → p ≠ x ∧ p ≠ x + 4)
    {Q : Unit → Heap → Prop}
    (hQ : ∀ m, View v (h.store m) W (fileUnder L (v.getSizeClass asize) x) → Q () (h.store m)) :
    Returns (v.insertBlock x asize) h Q := by
  have hc := v.getSizeClass_lt asize
  generalize hcls : v.getSizeClass asize = c at hc hQ
  have hnoder : v.Node h.memStartBrk L (classRoot h.memStartBrk c) := ⟨c, hc, List.mem_cons_self⟩
  have hnodef : v.Node h.memStartBrk L (wordAt h.bytes (classRoot h.memStartBrk c)) :=
    (hv.linked.links_mem hnoder).1
  have hr := hv.place _ hnoder
  have hf := hv.place _ hnodef
  have hxroot : x ≠ classRoot h.memStartBrk c := fun heq ↦ hfresh (heq ▸ hnoder)
  have hapartr := hv.apart _ hnoder
  have hlinked := hv.linked
  have hroot := hv.getClassRoot hc h.bytes
  generalize hrootdef : classRoot h.memStartBrk c = root at *
  have hbelow := hv.arena.below
  have hmodx := hx.mod
  have hmodr := hr.mod
  have hmodf := hf.mod
  have hltx := hx.high
  have hltr := hr.high
  have hltf := wordAt_lt h.bytes root
  -- the first link of the root is read twice, and is not written in between
  have hread₁ : wordAt (putWord h.bytes (x + 4) root) root = wordAt h.bytes root := by
    rw [wordAt_putWord _ (by omega) (by omega) (by omega), if_neg (by omega)]
  have hread₂ : wordAt (putWord (putWord h.bytes (x + 4) root) x (wordAt h.bytes root)) root =
      wordAt h.bytes root := by
    rw [wordAt_putWord _ (by omega) (by omega) hltf, if_neg (Ne.symm hxroot), hread₁]
  change Returns (v.insertBlock x asize) (h.store h.bytes) Q
  simp only [Variant.insertBlock, returns_bind, hcls, hroot, hx.setPrevF hv.arena, hr.nextFree,
    hread₁, hx.setNextF, hread₂, hf.setPrevF hv.arena, hr.setNextF]
  refine hQ (linkFront h.bytes root x) (hv.relink (fun q w hw ↦ ?_) ?_ fun y hy ↦ ?_)
  · have hmodq := (hv.known q w hw).1
    rw [linkFront, wordAt_putLink hapartr hmodr hw hmodq (Or.inl rfl) (by omega),
      wordAt_putLink (hv.apart _ hnodef) hmodf hw hmodq (Or.inr rfl) (by omega),
      wordAt_putLink hclear hmodx hw hmodq (Or.inl rfl) hltf,
      wordAt_putLink hclear hmodx hw hmodq (Or.inr rfl) (by omega)]
  · subst hrootdef
    have hmod : ∀ y, y = x ∨ v.Node h.memStartBrk L y → y % 8 = 0 := by
      rintro y (rfl | hy)
      · exact hmodx
      · exact (hv.place y hy).mod
    refine hlinked.pushFront hc hfresh (fun y hy ↦ ?_) fun y hy ↦ ?_
    · exact next_linkFront ⟨hmodr, hmodx⟩ hmodf ⟨by omega, by omega⟩ (hmod y hy)
    · exact prev_linkFront ⟨hmodr, hmodx⟩ hmodf ⟨by omega, by omega⟩ (hmod y hy)
  · rcases node_of_node_fileUnder hy with rfl | hold
    · exact ⟨hx, hclear⟩
    · exact ⟨hv.place y hold, hv.apart y hold⟩

/-! ### Tags -/

/-- Write a word where there are no links. -/
theorem putWord (hv : View v h W L) {p w : Nat} (hmod : p % 4 = 0) (hp : h.InArena p)
    (hw : w < 2 ^ 32) (hnode : ∀ y, v.Node h.memStartBrk L y → p ≠ y ∧ p ≠ y + 4)
    (hW : ∀ q u, W' q u → (q = p ∧ u = w) ∨ (q ≠ p ∧ W q u)) :
    View v (h.store (putWord h.bytes p w)) W' L where
  arena := hv.arena.store _
  sizeClassP_eq := hv.sizeClassP_eq
  linked := by
    refine hv.linked.congr (fun y hy ↦ ?_) fun y hy ↦ ?_
    · have hmody := (hv.place y hy).mod
      have hne := hnode y hy
      dsimp only [Heap.store]
      rw [wordAt_putWord _ hmod (by omega) hw, if_neg (Ne.symm hne.1)]
    · have hmody := (hv.place y hy).mod
      have hne := hnode y hy
      dsimp only [Heap.store]
      rw [wordAt_putWord _ hmod (by omega) hw, if_neg (Ne.symm hne.2)]
  known := fun q u hq ↦ by
    rcases hW q u hq with ⟨rfl, rfl⟩ | ⟨hne, hold⟩
    · exact ⟨hmod, hp, wordAt_putWord_self _ _ hw⟩
    · obtain ⟨hmodq, harena, hword⟩ := hv.known q u hold
      exact ⟨hmodq, harena, (wordAt_putWord _ hmod hmodq hw).trans ((if_neg hne).trans hword)⟩
  place := fun y hy ↦ ⟨(hv.place y hy).mod, (hv.place y hy).low, (hv.place y hy).high⟩
  apart := fun y hy q u hq ↦ by
    rcases hW q u hq with ⟨rfl, -⟩ | ⟨-, hold⟩
    · exact hnode y hy
    · exact hv.apart y hy q u hold

/-- The two words with a block's tag, when they are written where there are no links. -/
theorem setBoundaryTag (hv : View v h W L) {b : Block} {tag : Nat} (htag : b.tag = tag)
    (hmod : b.addr % 8 = 0) (hsized : b.Sized) (hlow : h.memStartBrk + 8 ≤ b.addr)
    (hhigh : b.addr + b.size ≤ h.memMaxAddr)
    (hnode : ∀ y, v.Node h.memStartBrk L y → y + 16 ≤ b.addr ∨ b.addr + b.size ≤ y)
    (hW : ∀ q u, W' q u → ((q = b.addr - 4 ∨ q = b.addr + b.size - 8) ∧ u = b.word) ∨
      (q ≠ b.addr - 4 ∧ q ≠ b.addr + b.size - 8 ∧ W q u)) {Q : Unit → Heap → Prop}
    (hQ : ∀ m, View v (h.store m) W' L → Q () (h.store m)) :
    Returns (MemoryLab.setBoundaryTag b.addr b.size tag) h Q := by
  obtain ⟨hsizeMod, hsize⟩ := hsized
  have hbelow := hv.arena.below
  have hend : subWord (addWord b.addr b.size) dsize = b.addr + b.size - 8 := by
    rw [addWord_of_lt (by omega), subWord_of_le (by unfold dsize; omega) (by omega)]
    rfl
  have hword := Block.word_lt hsizeMod (by omega)
  change Returns (MemoryLab.setBoundaryTag b.addr b.size tag) (h.store h.bytes) Q
  rw [returns_setBoundaryTag_store htag (by omega) (by omega) ⟨by omega, by omega⟩ hend
    ⟨by omega, by omega⟩]
  have hheader : View v (h.store (Library.putWord h.bytes (b.addr - 4) b.word))
      (fun q u ↦ (q = b.addr - 4 ∧ u = b.word) ∨ (q ≠ b.addr - 4 ∧ W q u)) L := by
    refine hv.putWord (by omega) ⟨by omega, by omega⟩ hword (fun y hy ↦ ?_) fun q u hq ↦ hq
    have hplace := hnode y hy
    omega
  refine hQ _ (hheader.putWord (p := b.addr + b.size - 8) (w := b.word) (by omega)
    ⟨by change h.memStartBrk ≤ _; omega, by change _ ≤ h.memMaxAddr; omega⟩ hword
    (fun y hy ↦ by have hplace := hnode y hy; omega) fun q u hq ↦ ?_)
  rcases hW q u hq with ⟨rfl | rfl, rfl⟩ | ⟨hne, hne', hold⟩
  · exact Or.inr ⟨by omega, Or.inl ⟨rfl, rfl⟩⟩
  · exact Or.inl ⟨rfl, rfl⟩
  · exact Or.inr ⟨hne', Or.inr ⟨hne, hold⟩⟩

/-! ### Reading -/

/-- A block whose header is known. -/
theorem headed (hv : View v h W L) {b : Block} (hb : W (b.addr - 4) b.word)
    (hsize : b.size % 8 = 0) (hbounds : 4 ≤ b.addr ∧ b.addr + b.size < 2 ^ 32) : Headed h b := by
  obtain ⟨-, harena, hword⟩ := hv.known _ _ hb
  exact ⟨harena, hword, hsize, hbounds⟩

/-- `PREV_BLKP` of the address behind a block whose footer is known. -/
theorem prevBlkp (hv : View v h W L) {b : Block} (hb : W (b.addr + b.size - 8) b.word)
    (hsize : b.size % 8 = 0 ∧ 8 ≤ b.size) (hlt : b.addr + b.size < 2 ^ 32)
    (Q : Nat → Heap → Prop) : Returns (prevBlkp (b.addr + b.size)) h Q ↔ Q b.addr h := by
  obtain ⟨-, harena, hword⟩ := hv.known _ _ hb
  have hfooter : subWord (b.addr + b.size) dsize = b.addr + b.size - 8 :=
    subWord_of_le (by unfold dsize; omega) hlt
  have hstart : subWord (b.addr + b.size) b.size = b.addr := by
    rw [subWord_of_le (by omega) hlt]
    omega
  rw [MemoryLab.prevBlkp, returns_bind, hfooter, returns_getSize harena hword ⟨hsize.1, by omega⟩,
    returns_pure, hstart]

/-- The allocated bit in a footer that is known. -/
theorem getAlloc_footer (hv : View v h W L) {b : Block} (hb : W (b.addr + b.size - 8) b.word)
    (hsize : b.size % 8 = 0) (Q : Nat → Heap → Prop) :
    Returns (getAlloc (b.addr + b.size - 8)) h Q ↔ Q (if b.alloc then 1 else 0) h := by
  obtain ⟨-, harena, hword⟩ := hv.known _ _ hb
  exact returns_getAlloc harena hword hsize Q

end View

end SystemProgramming.MemoryLab.Plain
