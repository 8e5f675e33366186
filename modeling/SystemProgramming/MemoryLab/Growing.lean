import SystemProgramming.MemoryLab.Release

/-!
# `mm_realloc` when it grows

The difference of the two sizes is unsigned, so a block that is to grow takes the branch for blocks
that shrink. The code marks the block with its new size, writes the wrapped difference as the tag of
a block behind it, files that and coalesces. The block behind the wrapped one, found by adding the
wrapped size to its address, is the old next block. If that is free, and has room for the tags
without an overlap of its links, then the wrapped sizes add up and the outcome is the right one:
the block has grown over the start of its free neighbour (`Focus.grow`,
`HeapInvariant.mmRealloc_grow`).
-/

set_option autoImplicit false
set_option relaxedAutoImplicit false

namespace SystemProgramming.MemoryLab

open Library

/-! ### Growing on shapes -/

namespace Focus

/-- Growing the allocated block in focus to `asize` bytes, over the start of the free block `next`
behind it. -/
def grow (φ : Focus) (next : Block) (rest : List Block) (asize : Nat) : Focus where
  front := φ.front ++ [⟨φ.block.addr, asize, true, φ.block.bulk⟩]
  block := ⟨φ.block.addr + asize, φ.block.size + next.size - asize, false, false⟩
  back := rest
  lists := fileUnder (unfile φ.lists next.addr)
    (getSizeClass (φ.block.size + next.size - asize)) (φ.block.addr + asize)

variable {φ : Focus} {next : Block} {rest : List Block} {brk base asize : Nat}

/-- The block in focus and the one behind it lie end to end. -/
theorem next_addr (h : (φ.shape brk).Proper base) (hback : φ.back = next :: rest) :
    next.addr = φ.block.addr + φ.block.size := by
  have htiles : Tiles (firstBlock base) (φ.front ++ φ.block :: φ.back) brk := h.tiles
  rw [hback] at htiles
  obtain ⟨middle, -, -, hnext, -⟩ := tiles_append.mp htiles
  exact hnext

theorem proper_grow (h : (φ.shape brk).Proper base) (hback : φ.back = next :: rest)
    (halloc : φ.block.alloc = true) (hfree : next.alloc = false)
    (hasize : asize % 8 = 0 ∧ φ.block.size ≤ asize)
    (hroom : asize + 16 ≤ φ.block.size + next.size) :
    ((φ.grow next rest asize).shape brk).Proper base := by
  have hnext := next_addr h hback
  obtain ⟨front, b, back, L⟩ := φ
  dsimp only at hback halloc hasize hroom hnext
  subst hback
  have hb : b.Sized := h.sized b (by simp [Focus.shape])
  have hn : next.Sized := h.sized next (by simp [Focus.shape])
  unfold Block.Sized at hb hn
  have hL : L.Simple := h.simple
  have hmiddle : Shape.Proper ⟨front ++ [b, next] ++ rest, L, brk⟩ base := by
    simpa [Focus.shape] using h
  have hfresh : ¬ Filed (unfile L next.addr) (b.addr + asize) := by
    rw [filed_unfile hL]
    rintro ⟨hx, hne⟩
    exact h.not_filed (b := next) (by simp [Focus.shape]) (by omega) (by omega) (by omega) hx
  have hresult := hmiddle.exchange [⟨b.addr, asize, true, b.bulk⟩,
      ⟨b.addr + asize, b.size + next.size - asize, false, false⟩] (fun first last ht ↦ ?_)
    (fun c hc ↦ ?_)
    ((hL.unfile _).fileUnder (getSizeClass (b.size + next.size - asize)) hfresh) fun x ↦ ?_
  · simpa [Focus.shape, grow] using hresult
  · obtain ⟨hfirst, -, hlast⟩ := ht
    refine ⟨hfirst, rfl, ?_⟩
    change b.addr + asize + (b.size + next.size - asize) = last
    change next.addr + next.size = last at hlast
    omega
  · unfold Block.Sized
    rcases List.mem_pair.mp hc with rfl | rfl
    · dsimp only
      omega
    · dsimp only
      omega
  · rw [filed_fileUnder (getSizeClass_lt _), filed_unfile hL]
    simp only [freeAt_cons, freeAt_nil, halloc, hfree, or_false, Bool.true_eq_false, and_false,
      and_true, false_or, eq_comm (b := x)]

theorem coalesced_grow (h : Coalesced (φ.front ++ φ.block :: φ.back)) (hback : φ.back = next :: rest)
    (hfree : next.alloc = false) :
    Coalesced ((φ.grow next rest asize).front ++ (φ.grow next rest asize).block ::
      (φ.grow next rest asize).back) := by
  rw [hback] at h
  obtain ⟨hfront, hnext, -⟩ := coalesced_insert.mp h
  obtain ⟨-, hrest, hborder⟩ := (show Coalesced ([] ++ next :: rest) from hnext) |>
    coalesced_insert.mp
  have hhead := (hborder.resolve_left (by simp [hfree])).2
  refine coalesced_insert.mpr ⟨?_, hrest, Or.inr ⟨by simp [grow], hhead⟩⟩
  exact coalesced_insert.mpr ⟨hfront, List.IsChain.nil, Or.inl rfl⟩

theorem suited_grow (h : (φ.shape brk).Suited) (hproper : (φ.shape brk).Proper base)
    (hback : φ.back = next :: rest) (halloc : φ.block.alloc = true) (hfree : next.alloc = false)
    (hasize : asize % 8 = 0 ∧ φ.block.size ≤ asize)
    (hroom : asize + 16 ≤ φ.block.size + next.size) :
    ((φ.grow next rest asize).shape brk).Suited := by
  have hresult := proper_grow hproper hback halloc hfree hasize hroom
  have hnext := next_addr hproper hback
  obtain ⟨front, b, back, L⟩ := φ
  dsimp only at hback halloc hasize hroom hnext
  subst hback
  have hb : b.Sized := hproper.sized b (by simp [Focus.shape])
  have hn : next.Sized := hproper.sized next (by simp [Focus.shape])
  unfold Block.Sized at hb hn
  have hL : L.Simple := hproper.simple
  have hmiddle : Shape.Suited ⟨front ++ [b, next] ++ rest, L, brk⟩ := by
    simpa [Focus.shape] using h
  have hexchange := hmiddle.exchange [⟨b.addr, asize, true, b.bulk⟩,
      ⟨b.addr + asize, b.size + next.size - asize, false, false⟩] brk
    (by simpa [Focus.shape, grow] using hresult) (fun d hd hdfree c hc hmem ↦ ?_) fun c hc x hx ↦ ?_
  · simpa [Focus.shape, grow] using hexchange
  · rcases List.mem_pair.mp hd with rfl | rfl
    · exact absurd hdfree (by simp)
    · rcases mem_fileUnder.mp hmem with ⟨-, rfl⟩ | hold
      · rfl
      · obtain ⟨hold, hne⟩ := (mem_unfile hL hc).mp hold
        exact absurd ⟨c, hc, hold⟩ (hproper.not_filed (b := next) (by simp [Focus.shape])
          (by dsimp only; omega) (by dsimp only; omega) (by dsimp only at hne ⊢; omega))
  · rcases mem_fileUnder.mp hx with ⟨rfl, -⟩ | hold
    · exact Or.inr ⟨_, List.mem_cons_of_mem _ (List.mem_singleton_self _), rfl⟩
    · exact Or.inl ((mem_unfile hL hc).mp hold).1

theorem settled_grow (h : (φ.shape brk).Settled base) (hback : φ.back = next :: rest)
    (halloc : φ.block.alloc = true) (hfree : next.alloc = false)
    (hasize : asize % 8 = 0 ∧ φ.block.size ≤ asize)
    (hroom : asize + 16 ≤ φ.block.size + next.size) :
    ((φ.grow next rest asize).shape brk).Settled base where
  proper := proper_grow h.proper hback halloc hfree hasize hroom
  coalesced := coalesced_grow h.coalesced hback hfree
  suited := suited_grow h.suited h.proper hback halloc hfree hasize hroom

/-- Growing moves no other allocated block. -/
theorem mem_grow (h : (φ.shape brk).Proper base) (hback : φ.back = next :: rest)
    (hfree : next.alloc = false) {c : Block} (hc : c.alloc = true) :
    c ∈ ((φ.grow next rest asize).shape brk).blocks ↔
      (c ∈ (φ.shape brk).blocks ∧ c ≠ φ.block) ∨
        c = ⟨φ.block.addr, asize, true, φ.block.bulk⟩ := by
  have hother := ne_block h (c := c)
  have hne : ∀ d : Block, d.alloc = false → c ≠ d := by
    rintro d hd rfl
    rw [hc] at hd
    exact absurd hd (by simp)
  simp only [Focus.shape, grow, hback, List.mem_append, List.mem_cons, List.not_mem_nil, or_false,
    hne next hfree, hne ⟨_, _, false, false⟩ rfl, false_or] at hother ⊢
  tauto

end Focus

/-! ### The tags in the middle of growing -/

/-- The block behind the grown one, as its tag says: its size is the wrapped difference. -/
def wrappedBlock (b : Block) (asize : Nat) : Block :=
  ⟨b.addr + asize, 2 ^ 32 + b.size - asize, false, b.bulk⟩

/-- The words that matter until the blocks are coalesced: the tags of the grown block, the header of
the wrapped one, and that of the old next block. -/
structure Grown (m : ByteMemory) (b next : Block) (asize : Nat) : Prop where
  header : wordAt m (b.addr - 4) = Block.word ⟨b.addr, asize, true, b.bulk⟩
  footer : wordAt m (b.addr + asize - 8) = Block.word ⟨b.addr, asize, true, b.bulk⟩
  wrapped : wordAt m (b.addr + asize - 4) = (wrappedBlock b asize).word
  next : wordAt m (next.addr - 4) = next.word

/-- The bytes of these words. -/
def GrownByte (b next : Block) (asize a : Nat) : Prop :=
  (b.addr - 4 ≤ a ∧ a < b.addr) ∨ (b.addr + asize - 8 ≤ a ∧ a < b.addr + asize) ∨
    (next.addr - 4 ≤ a ∧ a < next.addr)

theorem Grown.congr {m m' : ByteMemory} {b next : Block} {asize : Nat} (hg : Grown m b next asize)
    (hb : 4 ≤ b.addr) (hnext : 4 ≤ next.addr) (hasize : 8 ≤ asize)
    (h : ∀ a, GrownByte b next asize a → m' a = m a) : Grown m' b next asize where
  header := (wordAt_congr fun a hlow hhigh ↦ h a (Or.inl ⟨hlow, by omega⟩)).trans hg.header
  footer := (wordAt_congr fun a hlow hhigh ↦ h a (Or.inr (Or.inl ⟨hlow, by omega⟩))).trans hg.footer
  wrapped :=
    (wordAt_congr fun a hlow hhigh ↦ h a (Or.inr (Or.inl ⟨by omega, by omega⟩))).trans hg.wrapped
  next := (wordAt_congr fun a hlow hhigh ↦ h a (Or.inr (Or.inr ⟨hlow, by omega⟩))).trans hg.next

/-- A block and the free one behind it, and a size that ends within the free one and leaves room for
tags and links on both sides. -/
structure Growable (b next : Block) (asize : Nat) : Prop where
  next_addr : next.addr = b.addr + b.size
  alloc : b.alloc = true
  free : next.alloc = false
  size_mod : asize % 8 = 0
  past : b.size + 16 ≤ asize
  room : asize + 16 ≤ b.size + next.size

/-- The blocks around two that follow one another. -/
theorem Geometry.around {base limit : Nat} {front rest : List Block} {b next : Block} {L : Filing}
    (hgeo : Geometry base limit (front ++ b :: next :: rest) L) {c : Block}
    (hc : c ∈ front ++ rest) :
    (c.addr + c.size ≤ b.addr ∨ next.addr + next.size ≤ c.addr) ∧ 16 ≤ c.size := by
  obtain ⟨-, hback, hcross⟩ := List.pairwise_append.mp hgeo.sorted
  have hsize : 16 ≤ c.size :=
    (hgeo.block c (by simp only [List.mem_append, List.mem_cons] at hc ⊢; tauto)).2.2.1
  rcases List.mem_append.mp hc with hc | hc
  · exact ⟨Or.inl (hcross c hc b List.mem_cons_self), hsize⟩
  · have hrest := (List.pairwise_cons.mp hback).2
    exact ⟨Or.inr ((List.pairwise_cons.mp hrest).1 c hc), hsize⟩

/-- The filed addresses lie outside the two blocks, but for the free one. -/
theorem Growable.place {base limit asize : Nat} {front rest : List Block} {b next : Block}
    {L : Filing} (hg : Growable b next asize)
    (hgeo : Geometry base limit (front ++ b :: next :: rest) L) (hb : ¬ Filed L b.addr) {x : Nat}
    (hx : Filed L x) : x = next.addr ∨ x + 16 ≤ b.addr ∨ next.addr + next.size ≤ x := by
  have hapart := hgeo.apart x hx
  have hfirst := hapart b (by simp)
  have hsecond := hapart next (by simp)
  have hne : x ≠ b.addr := fun heq ↦ hb (heq ▸ hx)
  have hnext := hg.next_addr
  have hblock := hgeo.block next (by simp)
  omega

/-- The words that matter are in memory when the four tags are written. -/
theorem Growable.grown {base limit asize : Nat} {front rest : List Block} {b next : Block}
    {L : Filing} (hg : Growable b next asize)
    (hgeo : Geometry base limit (front ++ b :: next :: rest) L) {m : ByteMemory}
    (hm : wordAt m (next.addr - 4) = next.word) :
    let grown : Block := ⟨b.addr, asize, true, b.bulk⟩
    Grown (putWord (putWord (putWord (putWord m (b.addr - 4) grown.word) (b.addr + asize - 8)
      grown.word) (b.addr + asize - 4) (wrappedBlock b asize).word) (b.addr + b.size - 8)
      (wrappedBlock b asize).word) b next asize := by
  intro grown
  obtain ⟨hnext, -, -, hmod, hpast, hroom⟩ := hg
  obtain ⟨-, hbmod, hbsize, hlow, -⟩ := hgeo.block b (by simp)
  have hend := (hgeo.block next (by simp)).2.2.2.2
  have hlt := hgeo.limit_lt
  have hbase := hgeo.base_pos
  have hbound : firstBlock base = base + 272 := rfl
  have hgrown : grown.word < 2 ^ 32 := Block.word_lt hmod (by change asize < _; omega)
  have hwrapped : (wrappedBlock b asize).word < 2 ^ 32 :=
    Block.word_lt (by change (2 ^ 32 + b.size - asize) % 8 = 0; omega)
      (by change 2 ^ 32 + b.size - asize < 2 ^ 32; omega)
  refine ⟨?_, ?_, ?_, ?_⟩
  · rw [wordAt_putWord_of_apart _ _ (by omega), wordAt_putWord_of_apart _ _ (by omega),
      wordAt_putWord_of_apart _ _ (by omega)]
    exact wordAt_putWord_self _ _ hgrown
  · rw [wordAt_putWord_of_apart _ _ (by omega), wordAt_putWord_of_apart _ _ (by omega)]
    exact wordAt_putWord_self _ _ hgrown
  · rw [wordAt_putWord_of_apart _ _ (by omega)]
    exact wordAt_putWord_self _ _ hwrapped
  · rw [wordAt_putWord_of_apart _ _ (by omega), wordAt_putWord_of_apart _ _ (by omega),
      wordAt_putWord_of_apart _ _ (by omega), wordAt_putWord_of_apart _ _ (by omega)]
    exact hm

namespace View

variable {h : Heap} {limit : Nat} {epi : Bool} {B : List Block} {L : Filing} {K : Nat → Prop}
  {f : ByteMemory} {front rest : List Block} {b next : Block} {asize : Nat}

/-- A filing matters only under the size classes. -/
theorem relist (hv : View h limit epi B L K f) {L' : Filing} (hL : ∀ c < sizeClassNum, L' c = L c) :
    View h limit epi B L' K f := by
  have hfiled : ∀ x, Filed L' x ↔ Filed L x := fun x ↦
    exists_congr fun c ↦ and_congr_right fun hc ↦ by rw [hL c hc]
  refine { hv with geometry := ?_, linked := ?_, spared := fun a ha x hx ↦ ?_ }
  · exact { hv.geometry with
      node := fun x hx ↦ hv.geometry.node x ((hfiled x).mp hx)
      apart := fun x hx ↦ hv.geometry.apart x ((hfiled x).mp hx) }
  · refine ⟨fun c hc ↦ ?_, fun c hc ↦ ?_, fun c d hc hd ↦ ?_⟩
    · rw [hL c hc]
      exact hv.linked.ring c hc
    · rw [hL c hc]
      exact hv.linked.nodup c hc
    · rw [hL c hc, hL d hd]
      exact hv.linked.disjoint c d hc hd
  · exact hv.spared a ha x ((hfiled x).mp hx)

/-- Filing an address and taking it out again. -/
theorem unfile_fileUnder {cls x : Nat} (hx : ¬ Filed L x) :
    ∀ c < sizeClassNum, unfile (fileUnder L cls x) x c = L c := fun c hc ↦ by
  have hout : x ∉ L c := fun hmem ↦ hx ⟨c, hc, hmem⟩
  unfold unfile fileUnder
  by_cases hcls : c = cls
  · subst hcls
    rw [Function.update_self, List.erase_cons_head]
  · rw [Function.update_of_ne hcls, List.erase_of_not_mem hout]

/-- The header of the grown block, in memory. -/
theorem growHeaded (hv : View h limit epi B L K f)
    (hgeo : Geometry h.memStartBrk limit (front ++ b :: next :: rest) L)
    (hg : Growable b next asize) {m : ByteMemory}
    (hm : wordAt m (b.addr - 4) = Block.word ⟨b.addr, asize, true, b.bulk⟩) :
    Headed (h.store m) ⟨b.addr, asize, true, b.bulk⟩ := by
  obtain ⟨hnext, -, -, hmod, hpast, hroom⟩ := hg
  have hblock := hgeo.block b (by simp)
  have hnblock := hgeo.block next (by simp)
  have hlt := hgeo.limit_lt
  have hbound : firstBlock h.memStartBrk = h.memStartBrk + 272 := rfl
  have harena : h.InArena (b.addr - 4) := hv.inArena (by omega) (by omega)
  exact ⟨harena, hm, hmod, by dsimp only; omega⟩

/-- A word within the two blocks is clear of everything else, when it avoids the bytes of the first
block that are kept, and the links of the second. -/
theorem putWithin (hgeo : Geometry h.memStartBrk limit (front ++ b :: next :: rest) L)
    (hg : Growable b next asize) (hb : ¬ Filed L b.addr)
    (hK : ∀ a, K a → a + 8 < b.addr ∨ (b.addr ≤ a ∧ a + 8 < b.addr + b.size) ∨
      next.addr + next.size ≤ a) {m : ByteMemory}
    (hm : View (h.store m) limit true (front ++ rest) L K f) {p : Nat} (v : Nat)
    (hlow : b.addr ≤ p + 4) (hhigh : p + 8 ≤ next.addr + next.size)
    (hfirst : p + 4 ≤ b.addr ∨ b.addr + b.size ≤ p + 8)
    (hsecond : p + 4 ≤ next.addr ∨ next.addr + 8 ≤ p) :
    View (h.store (putWord m p v)) limit true (front ++ rest) L K f := by
  have hbound : firstBlock h.memStartBrk = h.memStartBrk + 272 := rfl
  have hbase := (hgeo.block b (by simp)).2.2.2.1
  have hend := (hgeo.block next (by simp)).2.2.2.2
  refine hm.putClear v (show h.memStartBrk + 268 ≤ p by omega) (by omega) (fun c hc ↦ ?_)
    (fun x hx ↦ ?_) fun a ha ↦ ?_
  · have hc' := hgeo.around hc
    omega
  · have hx' := hg.place hgeo hb hx
    omega
  · have ha' := hK a ha
    omega

/-- The tags that `mm_realloc` writes: those of the grown block, and those of the wrapped one, whose
footer falls on the old footer. -/
theorem growTags (hv : View h limit true (front ++ b :: next :: rest) L K f)
    (hg : Growable b next asize) (hb : ¬ Filed L b.addr)
    (hK : ∀ a, K a → a + 8 < b.addr ∨ (b.addr ≤ a ∧ a + 8 < b.addr + b.size) ∨
      next.addr + next.size ≤ a) {Q : Unit → Heap → Prop}
    (hQ : ∀ m, View (h.store m) limit true (front ++ rest) L (fun a ↦ K a ∨ GrownByte b next asize a)
      m → Grown m b next asize → (∀ a, K a → m a = f a) → Q () (h.store m)) :
    Returns (getIsbulk (hdrp b.addr)) h fun isbulk s ↦
      Returns (MemoryLab.setBoundaryTag b.addr asize (isbulk ||| allocTag)) s fun _ s ↦
        Returns (nextBlkp b.addr) s fun behind s ↦
          Returns (getIsbulk (hdrp b.addr)) s fun isbulk s ↦
            Returns (MemoryLab.setBoundaryTag behind (2 ^ 32 + b.size - asize) isbulk) s Q := by
  have hplace := fun x hx ↦ hg.place hv.geometry hb (x := x) hx
  have hput := fun m (hm : View (h.store m) limit true (front ++ rest) L K f) p ↦
    putWithin hv.geometry hg hb hK hm (p := p)
  have hgrown := fun m hm ↦ hg.grown hv.geometry (m := m) hm
  have hheaded := fun m hm ↦ hv.growHeaded hv.geometry hg (m := m) hm
  obtain ⟨hnext, halloc, hfree, hmod, hpast, hroom⟩ := hg
  have hblock := hv.geometry.block b (by simp)
  have hnblock := hv.geometry.block next (by simp)
  have hlt := hv.geometry.limit_lt
  have hlimitMod := hv.geometry.limit_mod
  have hbound : firstBlock h.memStartBrk = h.memStartBrk + 272 := rfl
  have hinArena : ∀ p, h.memStartBrk ≤ p → p + 4 ≤ limit → h.InArena p := fun p ↦ hv.inArena
  let grown : Block := ⟨b.addr, asize, true, b.bulk⟩
  have hgrownWord : grown.word < 2 ^ 32 := Block.word_lt hmod (by change asize < _; omega)
  have hv₀ : View h limit true (front ++ rest) L K f :=
    forget [b, next] (by simpa using hv)
  let m₂ := putWord (putWord h.bytes (b.addr - 4) grown.word) (b.addr + asize - 8) grown.word
  have hv₂ : View (h.store m₂) limit true (front ++ rest) L K f := by
    refine hput _ (hput _ hv₀ _ _ ?_ ?_ ?_ ?_) _ _ ?_ ?_ ?_ ?_ <;> omega
  let m₄ := putWord (putWord m₂ (b.addr + asize - 4) (wrappedBlock b asize).word)
    (b.addr + b.size - 8) (wrappedBlock b asize).word
  have hv₄ : View (h.store m₄) limit true (front ++ rest) L K f := by
    refine hput _ (hput _ hv₂ _ _ ?_ ?_ ?_ ?_) _ _ ?_ ?_ ?_ ?_ <;> omega
  have hgrown₄ : Grown m₄ b next asize := hgrown _ (hv.tagged.header next (by simp))
  have hheaded₂ : Headed (h.store m₂) grown := by
    refine hheaded m₂ ?_
    exact (wordAt_putWord_of_apart _ _ (by omega)).trans (wordAt_putWord_self _ _ hgrownWord)
  have hend : subWord (addWord b.addr asize) dsize = b.addr + asize - 8 := by
    rw [addWord_of_lt (by omega), subWord_of_le (by unfold dsize; omega) (by omega)]
    rfl
  have hend' : subWord (addWord (b.addr + asize) (2 ^ 32 + b.size - asize)) dsize =
      b.addr + b.size - 8 := by
    rw [addWord_of_le (by omega) (by omega), subWord_of_le (by unfold dsize; omega) (by omega)]
    unfold dsize
    omega
  have htag : (wrappedBlock b asize).tag = if b.bulk then 2 else 0 := Nat.zero_add _
  rw [hv.getIsbulk_hdrp (by simp)]
  refine (returns_setBoundaryTag_store (b := grown) (tag_alloc _ _ _) (by dsimp only [grown]; omega)
    (by dsimp only [grown]; omega) (hinArena (b.addr - 4) (by omega) (by omega)) hend
    (hinArena _ (by omega) (by omega)) h.bytes _).mpr ?_
  change Returns (nextBlkp grown.addr) (h.store m₂) _
  rw [hheaded₂.nextBlkp]
  change Returns (getIsbulk (hdrp grown.addr)) (h.store m₂) _
  rw [hheaded₂.getIsbulk]
  refine (returns_setBoundaryTag_store (b := wrappedBlock b asize) htag
    (by dsimp only [wrappedBlock]; omega) (by dsimp only [wrappedBlock]; omega)
    (hinArena (b.addr + asize - 4) (by omega) (by omega)) hend'
    (hinArena _ (by omega) (by omega)) m₂ _).mpr ?_
  refine hQ m₄ (hv₄.rekeep (fun a ha ↦ ?_) fun a ha x hx ↦ ?_) hgrown₄ hv₄.tagged.kept
  · rcases ha with ha | ha
    · exact hv.tagged.low a ha
    · change h.memStartBrk + 268 ≤ a
      unfold GrownByte at ha
      omega
  · rcases ha with ha | ha
    · exact hv.spared a ha x hx
    · have hx' := hplace x hx
      unfold GrownByte at ha
      omega

/-- `coalesce` at the wrapped block: it leaves its list, and so does the next block, which the
wrapped size leads to; the sum of the two sizes is that of the rest. -/
theorem coalesceWrapped {m₀ : ByteMemory} {cls : Nat}
    (hgeo : Geometry h.memStartBrk limit (front ++ b :: next :: rest) L)
    (hg : Growable b next asize) (hb : ¬ Filed L b.addr) (hn : Filed L next.addr)
    (hv : View h limit true (front ++ rest) (fileUnder L cls (b.addr + asize))
      (fun a ↦ K a ∨ GrownByte b next asize a) m₀) (hcls : cls < sizeClassNum)
    (hgrown : Grown m₀ b next asize) {Q : Nat → Heap → Prop}
    (hQ : ∀ m, View (h.store m) limit true (front ++ rest) (unfile L next.addr)
      (fun a ↦ K a ∨ GrownByte b next asize a) m₀ →
      Returns (MemoryLab.setBoundaryTag (b.addr + asize) (b.size + next.size - asize) freeTag)
        (h.store m) fun _ s ↦
          Returns (MemoryLab.insertBlock (b.addr + asize) (b.size + next.size - asize)) s
            fun _ s ↦ Q (b.addr + asize) s) :
    Returns (MemoryLab.coalesce (b.addr + asize)) h Q := by
  have hplace := fun x hx ↦ hg.place hgeo hb (x := x) hx
  obtain ⟨hnext, halloc, hfree, hmod, hpast, hroom⟩ := hg
  have hblock := hgeo.block b (by simp)
  have hnblock := hgeo.block next (by simp)
  have hlt := hgeo.limit_lt
  have hbound : firstBlock h.memStartBrk = h.memStartBrk + 272 := rfl
  have hfresh : ¬ Filed L (b.addr + asize) := fun hx ↦ by
    have hx' := hplace _ hx
    omega
  have hinArena : ∀ p, h.memStartBrk ≤ p → p + 4 ≤ limit → h.InArena p := fun p ↦ hv.inArena
  -- what the macros read, in every memory with the words of `Grown`
  have hhdrp : hdrp (b.addr + asize) = b.addr + asize - 4 :=
    subWord_of_le (by unfold wsize; omega) (by omega)
  have hwrap : addWord (b.addr + asize) (2 ^ 32 + b.size - asize) = next.addr := by
    rw [addWord_of_le (by omega) (by omega)]
    omega
  have hreads : ∀ m, Grown m b next asize →
      Headed (h.store m) ⟨b.addr, asize, true, b.bulk⟩ ∧ Headed (h.store m) next ∧
      (∀ Q, Returns (getSize (hdrp (b.addr + asize))) (h.store m) Q ↔
        Q (2 ^ 32 + b.size - asize) (h.store m)) ∧
      ∀ Q, Returns (nextBlkp (b.addr + asize)) (h.store m) Q ↔ Q next.addr (h.store m) := by
    intro m hm
    have hsize : ∀ Q, Returns (getSize (hdrp (b.addr + asize))) (h.store m) Q ↔
        Q (2 ^ 32 + b.size - asize) (h.store m) := by
      rw [hhdrp]
      exact returns_getSize (b := wrappedBlock b asize) (hinArena _ (by omega) (by omega))
        hm.wrapped (by dsimp only [wrappedBlock]; omega)
    refine ⟨⟨hinArena (b.addr - 4) (by omega) (by omega), hm.header, hmod, by dsimp only; omega⟩,
      ⟨hinArena (next.addr - 4) (by omega) (by omega), hm.next, hnblock.2.1, by omega⟩, hsize,
      fun Q ↦ ?_⟩
    rw [nextBlkp, returns_bind]
    change Returns (getSize (hdrp (b.addr + asize))) _ _ ↔ _
    rw [hsize, returns_pure, hwrap]
  have hkept : ∀ m, (∀ a, K a ∨ GrownByte b next asize a → m a = m₀ a) → Grown m b next asize :=
    fun m hm ↦ hgrown.congr (by omega) (by omega) (by omega) fun a ha ↦ hm a (Or.inr ha)
  have hgrown₁ := hkept h.bytes hv.tagged.kept
  obtain ⟨hheaded, hnheaded, hsize, hnextBlkp⟩ := hreads h.bytes hgrown₁
  have hfooter : (h.store h.bytes).InArena (b.addr + asize - 8) :=
    hinArena _ (by omega) (by omega)
  have hprev : ∀ Q, Returns (prevBlkp (b.addr + asize)) (h.store h.bytes) Q ↔
      Q b.addr (h.store h.bytes) := fun Q ↦ by
    have haddr : subWord (b.addr + asize) dsize = b.addr + asize - 8 :=
      subWord_of_le (by unfold dsize; omega) (by omega)
    have hback : subWord (b.addr + asize) asize = b.addr := by
      rw [subWord_of_le (by omega) (by omega)]
      omega
    rw [prevBlkp, returns_bind, haddr, returns_getSize (b := ⟨b.addr, asize, true, b.bulk⟩)
      hfooter hgrown₁.footer ⟨hmod, by dsimp only; omega⟩, returns_pure, hback]
  change Returns (MemoryLab.coalesce (b.addr + asize)) (h.store h.bytes) Q
  simp only [MemoryLab.coalesce, returns_bind]
  rw [hprev]
  change Returns (ftrp (Block.addr ⟨b.addr, asize, true, b.bulk⟩)) _ _
  rw [hheaded.ftrp (by dsimp only; omega)]
  dsimp only
  rw [returns_getAlloc (b := ⟨b.addr, asize, true, b.bulk⟩) hfooter hgrown₁.footer hmod, hnextBlkp,
    hnheaded.getAlloc, hsize, hfree]
  simp only [if_true, Bool.false_eq_true, if_false, ne_eq, one_ne_zero, not_false_eq_true,
    not_true_eq_false, and_false, returns_bind, returns_pure]
  refine hv.removeFromList ((filed_fileUnder hcls).mpr (Or.inl rfl)) fun m₁ hm₁ ↦ ?_
  have hm₂ := hm₁.relist fun c hc ↦ (unfile_fileUnder hfresh c hc).symm
  obtain ⟨-, hnheaded', -, hnextBlkp'⟩ := hreads m₁ (hkept m₁ hm₂.tagged.kept)
  simp only [MemoryLab.absorbNext, returns_bind]
  rw [hnextBlkp', hnheaded'.getSize]
  refine hm₂.removeFromList hn fun m₃ hm₃ ↦ ?_
  have hsum : addWord (2 ^ 32 + b.size - asize) next.size = b.size + next.size - asize := by
    rw [addWord_of_le (by omega) (by omega)]
    omega
  rw [returns_pure, hsum]
  exact hQ m₃ hm₃

/-- The rest gets its tags and is filed; the grown block has its own already. -/
theorem fileGrown {m₀ : ByteMemory}
    (hgeo : Geometry h.memStartBrk limit (front ++ b :: next :: rest) L)
    (hg : Growable b next asize) (hb : ¬ Filed L b.addr) (hsimple : L.Simple)
    (hv : View h limit true (front ++ rest) (unfile L next.addr)
      (fun a ↦ K a ∨ GrownByte b next asize a) m₀) (hgrown : Grown m₀ b next asize)
    (hK : ∀ a, K a → a + 8 < b.addr ∨ (b.addr ≤ a ∧ a + 8 < b.addr + b.size) ∨
      next.addr + next.size ≤ a) (hf : ∀ a, K a → m₀ a = f a) {Q : Unit → Heap → Prop}
    (hQ : ∀ m, View (h.store m) limit true
      (front ++ [⟨b.addr, asize, true, b.bulk⟩] ++
        ⟨b.addr + asize, b.size + next.size - asize, false, false⟩ :: rest)
      (fileUnder (unfile L next.addr) (getSizeClass (b.size + next.size - asize))
        (b.addr + asize)) K f → Q () (h.store m)) :
    Returns (MemoryLab.setBoundaryTag (b.addr + asize) (b.size + next.size - asize) freeTag) h
      fun _ s ↦ Returns (MemoryLab.insertBlock (b.addr + asize) (b.size + next.size - asize)) s Q := by
  have hplace : ∀ x, Filed (unfile L next.addr) x →
      x + 16 ≤ b.addr ∨ next.addr + next.size ≤ x := fun x hx ↦ by
    obtain ⟨hold, hne⟩ := (filed_unfile hsimple).mp hx
    exact (hg.place hgeo hb hold).resolve_left hne
  obtain ⟨hnext, halloc, hfree, hmod, hpast, hroom⟩ := hg
  have hblock := hgeo.block b (by simp)
  have hnblock := hgeo.block next (by simp)
  obtain ⟨-, hback, hcross⟩ := List.pairwise_append.mp hgeo.sorted
  have hfront : ∀ c ∈ front, c.addr + c.size ≤ b.addr := fun c hc ↦
    hcross c hc b List.mem_cons_self
  have hrest : ∀ c ∈ rest, next.addr + next.size ≤ c.addr :=
    (List.pairwise_cons.mp (List.pairwise_cons.mp hback).2).1
  have hbound : firstBlock h.memStartBrk = h.memStartBrk + 272 := rfl
  have hgrown₁ := hgrown.congr (by omega) (by omega) (by omega) fun a ha ↦
    hv.tagged.kept a (Or.inr ha)
  have hfits : Fits h.memStartBrk limit front ⟨b.addr, asize, true, b.bulk⟩ rest
      (unfile L next.addr) K := by
    refine ⟨⟨hblock.1, hmod, by dsimp only; omega, hblock.2.2.2.1, by dsimp only; omega⟩, hfront,
      fun c hc ↦ ?_, fun x hx ↦ ?_, fun a ha ↦ ?_⟩
    · have hc' := hrest c hc
      dsimp only
      omega
    · have hx' := hplace x hx
      dsimp only
      omega
    · have ha' := hK a ha
      dsimp only
      omega
  have hfits' : Fits h.memStartBrk limit (front ++ [⟨b.addr, asize, true, b.bulk⟩])
      ⟨b.addr + asize, b.size + next.size - asize, false, false⟩ rest (unfile L next.addr) K := by
    refine ⟨by dsimp only; omega, fun c hc ↦ ?_, fun c hc ↦ ?_, fun x hx ↦ ?_, fun a ha ↦ ?_⟩
    · rcases List.mem_append.mp hc with hc | hc
      · have hc' := hfront c hc
        dsimp only
        omega
      · obtain rfl := List.mem_singleton.mp hc
        exact Nat.le_refl _
    · have hc' := hrest c hc
      dsimp only
      omega
    · have hx' := hplace x hx
      dsimp only
      omega
    · have ha' := hK a ha
      dsimp only
      omega
  have hadopted := (hv.keep_less (f := f) (K := K) fun a ha ↦ ⟨Or.inl ha, hf a ha⟩).adopt hfits
    hgrown₁.header hgrown₁.footer
  rw [← List.singleton_append, ← List.append_assoc] at hadopted
  refine hadopted.setBoundaryTag hfits' (by rfl) fun m₁ hm₁ ↦ ?_
  obtain ⟨hlow, hlinkable⟩ := hm₁.linkable_of_block
    (b := ⟨b.addr + asize, b.size + next.size - asize, false, false⟩) (by simp) fun a ha ↦ by
      have ha' := hK a ha
      dsimp only
      omega
  exact hm₁.insertBlock _ hlow hlinkable (fun hx ↦ by
    have hx' := hplace _ hx
    dsimp only at hx'
    omega) hQ

end View

namespace HeapInvariant

variable {h : Heap} {σ : Shape} {φ : Focus} {next : Block} {rest : List Block} {t asize : Nat}

/-- `mm_realloc` does what `Focus.grow` says, when the next block is free and large enough for the
tags of the grown block to lie behind its links and for a block to be left over. -/
theorem mmRealloc_grow (hi : HeapInvariant h σ) (hshape : φ.shape σ.brk = σ)
    (hback : φ.back = next :: rest) (hg : Growable φ.block next asize) (htpos : 0 < t)
    (hreq : align (addWord t dsize) = asize) :
    Returns (MemoryLab.mmRealloc φ.block.addr t) h fun q h' ↦ q = φ.block.addr ∧
      h'.glRanges = h.glRanges ∧ Serves h h' ((φ.grow next rest asize).shape σ.brk)
        (Owned σ.blocks) := by
  have hproper : (φ.shape σ.brk).Proper h.memStartBrk := hshape.symm ▸ hi.proper
  have hlists : φ.lists = σ.lists := congrArg Shape.lists hshape
  have hblocks : σ.blocks = φ.front ++ φ.block :: next :: rest :=
    (congrArg Shape.blocks hshape).symm.trans (by rw [Focus.shape, hback])
  have hv : View h σ.brk true (φ.front ++ φ.block :: next :: rest) φ.lists (Owned σ.blocks)
      h.bytes := hblocks ▸ hlists ▸ hi.view fun a ha ↦ ha
  have hb : φ.block ∈ (φ.shape σ.brk).blocks := by simp [Focus.shape]
  have hnextmem : next ∈ (φ.shape σ.brk).blocks := by simp [Focus.shape, hback]
  have hgeo := hv.geometry
  have hblock := hgeo.block φ.block (by simp)
  have hnblock := hgeo.block next (by simp)
  have hlt := hgeo.limit_lt
  have hbound : firstBlock h.memStartBrk = h.memStartBrk + 272 := rfl
  have hunfiled : ¬ Filed φ.lists φ.block.addr :=
    hproper.not_filed hb (Nat.le_refl _) (by omega) fun _ ↦ hg.alloc
  have hfiled : Filed φ.lists next.addr := (hproper.filed _).mpr ⟨next, hnextmem, rfl, hg.free⟩
  have hsimple : φ.lists.Simple := hproper.simple
  have hK : ∀ a, Owned σ.blocks a → a + 8 < φ.block.addr ∨
      (φ.block.addr ≤ a ∧ a + 8 < φ.block.addr + φ.block.size) ∨ next.addr + next.size ≤ a := by
    rintro a ⟨c, hc, hcalloc, hpayload⟩
    obtain ⟨hlow, hhigh⟩ := hpayload
    rw [hblocks] at hc
    have hcb := hgeo.trichotomy (b := c) (c := φ.block) hc (by simp)
    have hcn := hgeo.trichotomy (b := c) (c := next) hc (by simp)
    rcases hcb with rfl | hcb
    · omega
    · rcases hcn with rfl | hcn
      · exact absurd hg.free (by simp [hcalloc])
      · have hnext := hg.next_addr
        omega
  obtain ⟨hnext, halloc, hfree, hmod, hpast, hroom⟩ := id hg
  have hnonnull : φ.block.addr ≠ null := by
    have hbase := hgeo.base_pos
    unfold null
    omega
  have hrest : subWord φ.block.size asize = 2 ^ 32 + φ.block.size - asize := by
    rw [subWord_of_lt (by omega) (by omega)]
    omega
  have hfresh : ¬ Filed φ.lists (φ.block.addr + asize) := fun hx ↦ by
    have hx' := hg.place hgeo hunfiled hx
    omega
  have hheaded : ∀ m, Grown m φ.block next asize →
      Headed (h.store m) ⟨φ.block.addr, asize, true, φ.block.bulk⟩ := fun m hm ↦
    hv.growHeaded hgeo hg hm.header
  rw [MemoryLab.mmRealloc, show loopFuel = (2 ^ 32 - 1) + 1 from rfl, reallocLoop, returns_ite,
    if_neg hnonnull, returns_ite, if_neg (by omega), returns_bind, hv.getSize_hdrp (by simp)]
  simp only [hreq, hrest]
  rw [returns_ite, if_pos (show minBlockSize ≤ 2 ^ 32 + φ.block.size - asize by
    unfold minBlockSize dsize
    omega)]
  simp only [returns_bind]
  refine hv.growTags hg hunfiled hK fun m₁ hm₁ hgrown₁ hkept ↦ ?_
  change Returns (nextBlkp (Block.addr ⟨φ.block.addr, asize, true, φ.block.bulk⟩)) _ _
  rw [(hheaded m₁ hgrown₁).nextBlkp]
  dsimp only
  refine hm₁.insertBlock _ (show firstBlock h.memStartBrk ≤ _ by omega)
    ⟨by omega, Or.inr ⟨show firstBlock h.memStartBrk ≤ _ by omega, by omega, fun c hc ↦ ?_⟩,
      fun a ha ↦ ?_⟩ hfresh fun m₂ hm₂ ↦ ?_
  · have hc' := hgeo.around hc
    omega
  · rcases ha with ha | ha
    · have ha' := hK a ha
      omega
    · unfold GrownByte at ha
      omega
  · have hgrown₂ := hgrown₁.congr (by omega) (by omega) (by omega) fun a ha ↦
      hm₂.tagged.kept a (Or.inr ha)
    change Returns (nextBlkp (Block.addr ⟨φ.block.addr, asize, true, φ.block.bulk⟩)) (h.store m₂) _
    rw [(hheaded m₂ hgrown₂).nextBlkp]
    dsimp only
    refine View.coalesceWrapped (h := h.store m₂) hgeo hg hunfiled hfiled hm₂ (getSizeClass_lt _)
      hgrown₁ fun m₃ hm₃ ↦ ?_
    refine View.fileGrown (h := h.store m₃) hgeo hg hunfiled hsimple hm₃ hgrown₁ hK hkept
      fun m₄ hm₄ ↦ ?_
    rw [returns_pure]
    refine ⟨rfl, rfl, rfl, rfl, ?_, hm₄.tagged.kept⟩
    exact of_view (h := h.store m₄) hm₄ hi.brk_eq
      (Focus.proper_grow hproper hback halloc hfree ⟨hmod, by omega⟩ hroom)

end HeapInvariant

end SystemProgramming.MemoryLab
