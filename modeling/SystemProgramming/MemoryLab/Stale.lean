import SystemProgramming.MemoryLab.Primitives

/-!
# Lists that are no rings

`insert_block` and `remove_from_list` may be called on an address that is in a list already, or in
none. The class lists need not be rings then, but the links still lead from a set of places into it
(`Enclosed`), and all that the two functions write is links at these places: the other bytes, with
the tags among them, stay what they were (`Kept`). Tags that no block of the heap has any more are
bytes like others here, so that `mm_free` can be followed through whatever it finds
(`Places.mmFree`).

The rules start from a computation that returns, since a footer may be out of the arena.
-/

set_option autoImplicit false
set_option relaxedAutoImplicit false

namespace SystemProgramming.MemoryLab

open Library

/-! ### Places for links -/

section

variable {M : Nat → Prop} {f m : ByteMemory} {p v y : Nat}

/-- The links at the places lead to places. -/
def Enclosed (M : Nat → Prop) (m : ByteMemory) : Prop :=
  ∀ y, M y → M (wordAt m y) ∧ M (wordAt m (y + 4))

/-- The word at an address is no link. -/
def Clear (M : Nat → Prop) (p : Nat) : Prop := ∀ y, M y → p + 4 ≤ y ∨ y + 8 ≤ p

/-- The bytes that are no links are those of `f`. -/
def Kept (M : Nat → Prop) (f m : ByteMemory) : Prop :=
  ∀ a, (∀ y, M y → a < y ∨ y + 8 ≤ a) → m a = f a

theorem Kept.word (hk : Kept M f m) (hp : Clear M p) : wordAt m p = wordAt f p :=
  wordAt_congr fun a hlow hhigh ↦ hk a fun y hy ↦ by
    have hclear := hp y hy
    omega

theorem Kept.putLink (hk : Kept M f m) (hy : M y) (hp : p = y ∨ p = y + 4) :
    Kept M f (putWord m p v) := fun a ha ↦ by
  have hspare := ha y hy
  rw [putWord_apply_of_outside m v (by omega), hk a ha]

/-- A word written in both memories. -/
theorem Kept.putWord (hk : Kept M f m) (p v : Nat) :
    Kept M (Library.putWord f p v) (Library.putWord m p v) := fun a ha ↦ by
  simp only [Library.putWord, hk a ha]

theorem Kept.tagBlock (hk : Kept M f m) (b : Block) :
    Kept M (MemoryLab.tagBlock f b) (MemoryLab.tagBlock m b) :=
  (hk.putWord _ _).putWord _ _

theorem Enclosed.putClear (he : Enclosed M m) (hp : Clear M p) (v : Nat) :
    Enclosed M (putWord m p v) := fun y hy ↦ by
  have hclear := hp y hy
  rw [wordAt_putWord_of_apart _ _ (by omega), wordAt_putWord_of_apart _ _ (by omega)]
  exact he y hy

end

/-- A set of places in the heap for links, with the class roots among them. -/
structure Places (h : Heap) (M : Nat → Prop) : Prop where
  arena : h.Arena
  sizeClassP_eq : h.sizeClassP = h.memStartBrk
  aligned : ∀ y, M y → y % 8 = 0
  below : ∀ y, M y → y + 8 ≤ h.memMaxAddr
  root : ∀ c < sizeClassNum, M (classRoot h.memStartBrk c)

namespace Places

variable {h : Heap} {M : Nat → Prop} {f m : ByteMemory} {x : Nat}

theorem addWord_wsize (hM : Places h M) {y : Nat} (hy : M y) : addWord y wsize = y + 4 := by
  have hbelow := hM.below y hy
  have hlt := hM.arena.below
  exact addWord_of_lt (by unfold wsize; omega)

theorem enclosed_putLink (hM : Places h M) (he : Enclosed M m) {y p v : Nat} (hy : M y)
    (hp : p = y ∨ p = y + 4) (hv : M v) : Enclosed M (putWord m p v) := fun z hz ↦ by
  have hmody := hM.aligned y hy
  have hmodz := hM.aligned z hz
  have hbelow := hM.below v hv
  have hlt := hM.arena.below
  rw [wordAt_putWord _ (by omega) (by omega) (by omega),
    wordAt_putWord _ (by omega) (by omega) (by omega)]
  obtain ⟨hnext, hprev⟩ := he z hz
  constructor
  · split_ifs
    · exact hv
    · exact hnext
  · split_ifs
    · exact hv
    · exact hprev

/-! ### Lists -/

theorem of_returns_nextFree {Q : Nat → Heap → Prop}
    (hret : Returns (nextFree x) (h.store m) Q) : Q (wordAt m x) (h.store m) :=
  (of_returns_getWord hret).2

theorem of_returns_prevFree (hM : Places h M) (hx : M x) {Q : Nat → Heap → Prop}
    (hret : Returns (prevFree x) (h.store m) Q) : Q (wordAt m (x + 4)) (h.store m) := by
  rw [prevFree, hM.addWord_wsize hx] at hret
  exact (of_returns_getWord hret).2

theorem of_returns_setNextF {v : Nat} {Q : Unit → Heap → Prop}
    (hret : Returns (setNextF x v) (h.store m) Q) : Q () (h.store (putWord m x v)) :=
  (of_returns_putWordAt hret).2

theorem of_returns_setPrevF (hM : Places h M) (hx : M x) {v : Nat} {Q : Unit → Heap → Prop}
    (hret : Returns (setPrevF x v) (h.store m) Q) : Q () (h.store (putWord m (x + 4) v)) := by
  rw [setPrevF, hM.addWord_wsize hx] at hret
  exact (of_returns_putWordAt hret).2

/-- `remove_from_list` of any place. -/
theorem removeFromList (hM : Places h M) (he : Enclosed M m) (hk : Kept M f m) (hx : M x)
    {Q : Unit → Heap → Prop} (hret : Returns (MemoryLab.removeFromList x) (h.store m) Q) :
    ∃ m', Enclosed M m' ∧ Kept M f m' ∧ Q () (h.store m') := by
  simp only [MemoryLab.removeFromList, returns_bind] at hret
  have hret₁ := of_returns_setNextF (of_returns_nextFree (hM.of_returns_prevFree hx hret))
  obtain ⟨hnext, hprev⟩ := he x hx
  have he₁ := hM.enclosed_putLink he hprev (Or.inl rfl) hnext
  have hk₁ : Kept M f (putWord m (wordAt m (x + 4)) (wordAt m x)) := hk.putLink hprev (Or.inl rfl)
  have hret₂ := hM.of_returns_prevFree hx (of_returns_nextFree hret₁)
  obtain ⟨hnext', hprev'⟩ := he₁ x hx
  exact ⟨_, hM.enclosed_putLink he₁ hnext' (Or.inr rfl) hprev', hk₁.putLink hnext' (Or.inr rfl),
    hM.of_returns_setPrevF hnext' hret₂⟩

/-- `insert_block` of any place behind the roots. Where this place led is of no account. -/
theorem insertBlock (hM : Places h M) {cls asize : Nat} (hcls : getSizeClass asize = cls)
    (hx : M x) (hlow : firstBlock h.memStartBrk ≤ x)
    (hfirst : M (wordAt m (classRoot h.memStartBrk cls))) (hk : Kept M f m)
    {Q : Unit → Heap → Prop} (hret : Returns (MemoryLab.insertBlock x asize) (h.store m) Q) :
    ∃ m', ((∀ y, M y → y ≠ x → M (wordAt m y) ∧ M (wordAt m (y + 4))) → Enclosed M m') ∧
      Kept M f m' ∧ Q () (h.store m') := by
  subst hcls
  have hc := getSizeClass_lt asize
  have hroot := hM.root _ hc
  have hlt := hM.arena.below
  have hclass : addWord (h.store m).sizeClassP (dsize * getSizeClass asize) =
      classRoot h.memStartBrk (getSizeClass asize) := by
    have hbelow := hM.below _ hroot
    unfold classRoot at hbelow
    change addWord h.sizeClassP _ = _
    rw [hM.sizeClassP_eq, addWord_of_lt (by unfold dsize; omega)]
    rfl
  have hxroot : x ≠ classRoot h.memStartBrk (getSizeClass asize) := by
    unfold sizeClassNum at hc
    unfold firstBlock at hlow
    unfold classRoot
    omega
  generalize classRoot h.memStartBrk (getSizeClass asize) = root at *
  have hmodx := hM.aligned _ hx
  have hmodr := hM.aligned _ hroot
  have hmodf := hM.aligned _ hfirst
  have hbelowx := hM.below _ hx
  have hbelowr := hM.below _ hroot
  have hltf := wordAt_lt m root
  have hread₁ : wordAt (putWord m (x + 4) root) root = wordAt m root := by
    rw [wordAt_putWord _ (by omega) (by omega) (by omega), if_neg (by omega)]
  have hread₂ : wordAt (putWord (putWord m (x + 4) root) x (wordAt m root)) root =
      wordAt m root := by
    rw [wordAt_putWord _ (by omega) (by omega) hltf, if_neg (Ne.symm hxroot), hread₁]
  simp only [MemoryLab.insertBlock, returns_bind, getClassRoot, returns_get, returns_pure,
    hclass] at hret
  have hret₁ := of_returns_nextFree (hM.of_returns_setPrevF hx hret)
  rw [hread₁] at hret₁
  have hret₂ := of_returns_nextFree (of_returns_setNextF hret₁)
  rw [hread₂] at hret₂
  have hret₃ := of_returns_setNextF (hM.of_returns_setPrevF hfirst hret₂)
  refine ⟨linkFront m root x, fun he y hy ↦ ?_, ?_, hret₃⟩
  · have hmody := hM.aligned y hy
    rw [next_linkFront ⟨hmodr, hmodx⟩ hmodf ⟨by omega, by omega⟩ hmody,
      prev_linkFront ⟨hmodr, hmodx⟩ hmodf ⟨by omega, by omega⟩ hmody]
    constructor
    · split_ifs with hyroot hyx
      · exact hx
      · exact hfirst
      · exact (he y hy hyx).1
    · split_ifs with hyfirst hyx
      · exact hx
      · exact hroot
      · exact (he y hy hyx).2
  · exact (((hk.putLink hx (Or.inr rfl)).putLink hx (Or.inl rfl)).putLink hfirst
      (Or.inr rfl)).putLink hroot (Or.inl rfl)

end Places

/-! ### Merging and freeing -/

/-- The header of a block is in memory, at a word that is no link. -/
def Standing (h : Heap) (M : Nat → Prop) (f : ByteMemory) (b : Block) : Prop :=
  Headed (h.store f) b ∧ Clear M (b.addr - 4)

theorem Kept.headed {h : Heap} {M : Nat → Prop} {f m : ByteMemory} {b : Block}
    (hk : Kept M f m) (hb : Standing h M f b) : Headed (h.store m) b :=
  ⟨hb.1.inArena, (hk.word hb.2).trans hb.1.word, hb.1.size_mod, hb.1.bounds⟩

/-- The block behind another, if it is free. -/
def takeFree (n : Block) : Option Block := if n.alloc then none else some n

/-- What `coalesce` finds at a place: tags that make of it a block `p`, with a free block `q` before
it and a block `n` behind it. -/
structure Between (h : Heap) (M : Nat → Prop) (f : ByteMemory) (q p n : Block) : Prop where
  left : Standing h M f q
  middle : Standing h M f p
  right : Standing h M f n
  order : firstBlock h.memStartBrk ≤ q.addr ∧ 8 ≤ q.size ∧ q.addr + 8 ≤ p.addr ∧
    p.addr + p.size = n.addr
  back : h.InArena (p.addr - 8) ∧ Clear M (p.addr - 8) ∧
    wordAt f (p.addr - 8) &&& sizeMask = p.addr - q.addr
  footer : h.InArena (q.addr + q.size - 8) ∧ Clear M (q.addr + q.size - 8) ∧
    wordAt f (q.addr + q.size - 8) &&& 0x1 = 0
  places : M p.addr ∧ M q.addr ∧ (n.alloc = false → M n.addr)

namespace Places

variable {h : Heap} {M : Nat → Prop} {f m : ByteMemory} {q p n c : Block}

/-- `coalesce` makes one block of all three, or of the first two. -/
theorem coalesce (hM : Places h M) (hb : Between h M f q p n) (he : Enclosed M m)
    (hk : Kept M f m) (hc : joined (some q) p (takeFree n) = c)
    (hsum : c.addr + c.size < 2 ^ 32 + h.memStartBrk) {Q : Nat → Heap → Prop}
    (hret : Returns (MemoryLab.coalesce p.addr) (h.store m) Q) :
    h.InArena (c.addr + c.size - 8) ∧ ∃ m', (Clear M (c.addr + c.size - 8) → Enclosed M m') ∧
      Kept M (tagBlock f c) m' ∧ Q c.addr (h.store m') := by
  obtain ⟨hlow, hqsize, hqp, hpn⟩ := hb.order
  obtain ⟨hMp, hMq, hMn⟩ := hb.places
  have hq := fun {m'} (hk' : Kept M f m') ↦ hk'.headed hb.left
  have hp := fun {m'} (hk' : Kept M f m') ↦ hk'.headed hb.middle
  have hn := fun {m'} (hk' : Kept M f m') ↦ hk'.headed hb.right
  have hpbounds := hb.middle.1.bounds
  have hback : subWord p.addr dsize = p.addr - 8 :=
    subWord_of_le (by unfold dsize; omega) (by omega)
  have hstart : subWord p.addr (p.addr - q.addr) = q.addr := by
    rw [subWord_of_le (by omega) (by omega)]
    omega
  have hprev : ∀ m', Kept M f m' → ∀ R : Nat → Heap → Prop,
      Returns (prevBlkp p.addr) (h.store m') R ↔ R q.addr (h.store m') := fun m' hk' R ↦ by
    simp only [prevBlkp, getSize, returns_bind, hback, returns_getWord_store hb.back.1,
      hk'.word hb.back.2.1, hb.back.2.2, returns_pure, hstart]
  simp only [MemoryLab.coalesce, returns_bind] at hret
  rw [hprev m hk, (hq hk).ftrp hqsize, getAlloc, returns_bind, returns_getWord_store hb.footer.1,
    hk.word hb.footer.2.1, hb.footer.2.2, returns_pure, (hp hk).nextBlkp, hpn, (hn hk).getAlloc,
    (hp hk).getSize] at hret
  simp only [ne_eq, not_true_eq_false, false_and, if_false, if_true, returns_bind] at hret
  obtain ⟨m₁, he₁, hk₁, hret⟩ := hM.removeFromList he hk hMp hret
  have hcaddr : c.addr = q.addr := hc ▸ rfl
  have hcsize : c.size = q.size + p.size + (takeFree n).elim 0 Block.size := hc ▸ rfl
  have hctag : c.tag = freeTag := hc ▸ rfl
  obtain ⟨m₂, he₂, hk₂, hret⟩ : ∃ m₂, Enclosed M m₂ ∧ Kept M f m₂ ∧
      Returns (MemoryLab.absorbPrev p.addr (p.size + (takeFree n).elim 0 Block.size))
        (h.store m₂) fun merged s ↦
          Returns (setBoundaryTag merged.1 merged.2 freeTag) s fun _ s ↦
            Returns (MemoryLab.insertBlock merged.1 merged.2) s fun _ s ↦
              Returns (pure merged.1) s Q := by
    cases hnalloc : n.alloc
    · simp only [hnalloc, Bool.false_eq_true, if_false, if_true, MemoryLab.absorbNext, returns_bind]
        at hret
      rw [(hp hk₁).nextBlkp, hpn, (hn hk₁).getSize] at hret
      obtain ⟨m₂, he₂, hk₂, hret⟩ := hM.removeFromList he₁ hk₁ (hMn hnalloc) hret
      have htake : (takeFree n).elim 0 Block.size = n.size := by simp [takeFree, hnalloc]
      rw [returns_pure, addWord_of_lt (by unfold firstBlock at hlow; omega)] at hret
      exact ⟨m₂, he₂, hk₂, htake.symm ▸ hret⟩
    · simp only [hnalloc, if_true, one_ne_zero, if_false] at hret
      rw [returns_pure] at hret
      have htake : (takeFree n).elim 0 Block.size = 0 := by simp [takeFree, hnalloc]
      exact ⟨m₁, he₁, hk₁, htake.symm ▸ hret⟩
  simp only [MemoryLab.absorbPrev, returns_bind] at hret
  rw [hprev m₂ hk₂] at hret
  obtain ⟨m₃, he₃, hk₃, hret⟩ := hM.removeFromList he₂ hk₂ hMq hret
  rw [(hq hk₃).getSize, returns_pure, addWord_of_lt (by unfold firstBlock at hlow; omega),
    show p.size + (takeFree n).elim 0 Block.size + q.size = c.size by omega, ← hcaddr] at hret
  have hcmod : c.addr % 8 = 0 ∧ c.size % 8 = 0 ∧ c.size < 2 ^ 32 := by
    have hmodq := hM.aligned _ hMq
    have hmodp := hb.middle.1.size_mod
    have hmodq' := hb.left.1.size_mod
    have hmodn : (takeFree n).elim 0 Block.size % 8 = 0 := by
      unfold takeFree
      split_ifs
      · rfl
      · exact hb.right.1.size_mod
    unfold firstBlock at hlow
    omega
  have hclow : firstBlock h.memStartBrk ≤ c.addr := hcaddr ▸ hlow
  have hMc : M c.addr := hcaddr ▸ hMq
  have hcbelow := hM.below _ hMc
  have hlt := hM.arena.below
  obtain ⟨hfooter, hret⟩ := of_returns_setBoundaryTag hM.arena hctag hcmod
    (by unfold firstBlock at hclow; omega) hsum hret
  have hroot := hM.root _ (getSizeClass_lt c.size)
  have hread : wordAt (tagBlock m₃ c) (classRoot h.memStartBrk (getSizeClass c.size)) =
      wordAt m₃ (classRoot h.memStartBrk (getSizeClass c.size)) := by
    have hmodr := hM.aligned _ hroot
    have hcls := getSizeClass_lt c.size
    unfold firstBlock at hclow
    unfold sizeClassNum at hcls
    rw [wordAt_tagBlock hcmod (by omega) (by omega), if_neg]
    unfold classRoot
    omega
  obtain ⟨m₄, he₄, hk₄, hret⟩ := hM.insertBlock rfl hMc hclow (hread ▸ (he₃ _ hroot).1)
    (hk₃.tagBlock c) hret
  rw [returns_pure] at hret
  have hheader : Clear M (c.addr - 4) := hcaddr ▸ hb.left.2
  exact ⟨hfooter, m₄, fun hclear ↦ he₄ fun y hy _ ↦
    ((he₃.putClear hheader _).putClear hclear _) y hy, hk₄, hret⟩

/-- `mm_free` of a place where tags make out a block `p`, whatever its allocated bit. -/
theorem mmFree (hM : Places h M) {alloc : Bool} (hp : Standing h M f { p with alloc := alloc })
    (hpfree : p.alloc = false) (hfooter : Clear M (p.addr + p.size - 8))
    (hb : Between h M (tagBlock f p) q p n)
    (he : ∀ y, M y → y ≠ p.addr → M (wordAt m y) ∧ M (wordAt m (y + 4))) (hk : Kept M f m)
    (hc : joined (some q) p (takeFree n) = c) (hsum : c.addr + c.size < 2 ^ 32 + h.memStartBrk)
    {Q : Unit → Heap → Prop} (hret : Returns (MemoryLab.mmFree p.addr) (h.store m) Q) :
    h.InArena (c.addr + c.size - 8) ∧ ∃ m', (Clear M (c.addr + c.size - 8) → Enclosed M m') ∧
      Kept M (tagBlock (tagBlock f p) c) m' ∧
      Q () { h.store m' with
        glRanges := h.glRanges.map fun ranges ↦ removeRange ranges p.addr } := by
  have hplace := hb.places.1
  have horder := hb.order
  have hbounds := hb.middle.1.bounds
  have hpmod : p.addr % 8 = 0 ∧ p.size % 8 = 0 ∧ p.size < 2 ^ 32 :=
    ⟨hM.aligned _ hplace, hb.middle.1.size_mod, by omega⟩
  have hlow : firstBlock h.memStartBrk ≤ p.addr := by omega
  have hroot := hM.root _ (getSizeClass_lt p.size)
  have hrootlow : classRoot h.memStartBrk (getSizeClass p.size) + 8 ≤ p.addr - 4 := by
    have hcls := getSizeClass_lt p.size
    unfold sizeClassNum at hcls
    unfold firstBlock at hlow
    unfold classRoot
    omega
  simp only [MemoryLab.mmFree, returns_bind] at hret
  have hread := hk.headed hp
  have hsize := hread.getSize
  have hbulk := hread.getIsbulk
  dsimp only at hsize hbulk
  rw [hsize, hbulk] at hret
  have htag : p.tag = if p.bulk = true then 2 else 0 := by simp [Block.tag, hpfree]
  obtain ⟨-, hret⟩ := of_returns_setBoundaryTag hM.arena htag hpmod
    (by unfold firstBlock at hlow; omega) (by omega) hret
  have he₁ : ∀ y, M y → y ≠ p.addr →
      M (wordAt (tagBlock m p) y) ∧ M (wordAt (tagBlock m p) (y + 4)) := fun y hy hne ↦ by
    have hheader := hp.2 y hy
    have hend := hfooter y hy
    dsimp only at hheader
    rw [tagBlock, wordAt_putWord_of_apart _ _ (by omega), wordAt_putWord_of_apart _ _ (by omega),
      wordAt_putWord_of_apart _ _ (by omega), wordAt_putWord_of_apart _ _ (by omega)]
    exact he y hy hne
  obtain ⟨m₂, he₂, hk₂, hret⟩ := hM.insertBlock rfl hplace hlow
    (he₁ _ hroot (by omega)).1 (hk.tagBlock p) hret
  obtain ⟨hin, m₃, he₃, hk₃, hret⟩ := hM.coalesce hb (he₂ he₁) hk₂ hc hsum hret
  rw [returns_modify] at hret
  exact ⟨hin, m₃, he₃, hk₃, hret⟩

end Places

/-! ### Behind a free block -/

/-- A free block, a block and what is behind it lie end to end, with their tag words clear of a set
of places for links. -/
structure Trio (h : Heap) (M : Nat → Prop) (q p n : Block) : Prop where
  places : Places h M
  clear : ∀ b, b = q ∨ b = p ∨ b = n → Clear M (b.addr - 4)
  footer : Clear M (p.addr - 8) ∧ Clear M (n.addr - 8) ∧
    (n.alloc = false → Clear M (n.addr + n.size - 8))
  member : M p.addr ∧ M q.addr ∧ (n.alloc = false → M n.addr)
  order : firstBlock h.memStartBrk ≤ q.addr ∧ q.addr + q.size = p.addr ∧
    p.addr + p.size = n.addr ∧ n.addr + n.size ≤ h.memMaxAddr
  sized : 16 ≤ q.size ∧ 16 ≤ p.size ∧ q.size % 8 = 0 ∧ p.size % 8 = 0 ∧ n.size % 8 = 0

/-- The words that `coalesce` reads around the second of three blocks, but for the footer before. -/
structure Trio.Words (g : ByteMemory) (q p n : Block) (left back middle right : Nat) : Prop where
  left : wordAt g (q.addr - 4) = left
  back : wordAt g (p.addr - 8) = back
  middle : wordAt g (p.addr - 4) = middle
  right : wordAt g (n.addr - 4) = right

namespace Trio

variable {h : Heap} {M : Nat → Prop} {q p n r : Block} {g : ByteMemory}
  {left back middle right x : Nat}

theorem aligned (ht : Trio h M q p n) : q.addr % 8 = 0 ∧ p.addr % 8 = 0 ∧ n.addr % 8 = 0 := by
  have hmod := ht.places.aligned _ ht.member.2.1
  obtain ⟨-, hqp, hpn, -⟩ := ht.order
  obtain ⟨-, -, hqsize, hpsize, -⟩ := ht.sized
  omega

/-- The tags of the second block leave the words of the others and those before them alone. -/
theorem tag_middle (ht : Trio h M q p n) (hw : Words g q p n left back middle right) :
    Words (tagBlock g p) q p n left back p.word right ∧
      (x % 4 = 0 → x + 4 ≤ q.addr - 4 → wordAt (tagBlock g p) x = wordAt g x) := by
  obtain ⟨hlow, hqp, hpn, hhigh⟩ := ht.order
  obtain ⟨hqsize, hpsize, -, hpmod, -⟩ := ht.sized
  obtain ⟨hmodq, hmodp, hmodn⟩ := ht.aligned
  have hlt := ht.places.arena.below
  unfold firstBlock at hlow
  have hread := fun {x : Nat} (hx : x % 4 = 0) ↦
    wordAt_tagBlock (m := g) (b := p) ⟨hmodp, hpmod, by omega⟩ (by omega) hx
  clear hlt hhigh
  refine ⟨⟨?_, ?_, ?_, ?_⟩, fun hx hbelow ↦ ?_⟩
  · rw [hread (by omega), if_neg (by omega), hw.left]
  · rw [hread (by omega), if_neg (by omega), hw.back]
  · rw [hread (by omega), if_pos (Or.inl rfl)]
  · rw [hread (by omega), if_neg (by omega), hw.right]
  · rw [hread hx, if_neg (by omega)]

/-- The tags of a block from the first to the third, or over it. -/
theorem tag_left (ht : Trio h M q p n) (hr : r.addr = q.addr ∧ n.addr ≤ r.addr + r.size ∧
    r.size % 8 = 0 ∧ r.size < 2 ^ 32) (hw : Words g q p n left back middle right) :
    Words (tagBlock g r) q p n r.word back middle right ∧
      (x % 4 = 0 → x + 4 ≤ q.addr - 4 → wordAt (tagBlock g r) x = wordAt g x) := by
  obtain ⟨hlow, hqp, hpn, -⟩ := ht.order
  obtain ⟨hqsize, hpsize, -, -, -⟩ := ht.sized
  obtain ⟨hmodq, hmodp, hmodn⟩ := ht.aligned
  obtain ⟨haddr, hnr, hmod, hlt⟩ := hr
  unfold firstBlock at hlow
  have hread := fun {x : Nat} (hx : x % 4 = 0) ↦
    wordAt_tagBlock (m := g) (b := r) ⟨by omega, hmod, hlt⟩ (by omega) hx
  clear hlt
  refine ⟨⟨?_, ?_, ?_, ?_⟩, fun hx hbelow ↦ ?_⟩
  · rw [hread (by omega), if_pos (by omega)]
  · rw [hread (by omega), if_neg (by omega), hw.back]
  · rw [hread (by omega), if_neg (by omega), hw.middle]
  · rw [hread (by omega), if_neg (by omega), hw.right]
  · rw [hread hx, if_neg (by omega)]

/-- What `coalesce` finds behind a block `r` at the address of the first. -/
theorem between (ht : Trio h M q p n)
    (hr : r.addr = q.addr ∧ q.size ≤ r.size ∧ r.size % 8 = 0 ∧ r.addr + r.size ≤ h.memMaxAddr)
    (hw : Words g q p n r.word q.word p.word n.word) (hclear : Clear M (r.addr + r.size - 8))
    (hfooter : wordAt g (r.addr + r.size - 8) &&& 0x1 = 0) : Between h M g r p n := by
  obtain ⟨hlow, hqp, hpn, hhigh⟩ := ht.order
  obtain ⟨hqsize, hpsize, hqmod, hpmod, hnmod⟩ := ht.sized
  obtain ⟨hraddr, hrsize, hrmod, hrhigh⟩ := hr
  have hlt := ht.places.arena.below
  have hin : ∀ x, h.memStartBrk ≤ x → x + 4 ≤ h.memMaxAddr → h.InArena x := fun _ ↦ And.intro
  have hback : wordAt g (p.addr - 8) &&& sizeMask = p.addr - r.addr := by
    rw [hw.back, Block.word_and_sizeMask hqmod (by omega)]
    omega
  have hleft : Standing h M g r := by
    unfold firstBlock at hlow
    refine ⟨⟨hin _ (by omega) (by omega), ?_, hrmod, by omega, by omega⟩, ?_⟩
    · rw [hraddr]
      exact hw.left
    · exact hraddr.symm ▸ ht.clear q (by simp)
  unfold firstBlock at hlow
  refine ⟨hleft, ⟨⟨hin _ (by omega) (by omega), hw.middle, hpmod, by omega, by omega⟩,
      ht.clear p (by simp)⟩,
    ⟨⟨hin _ (by omega) (by omega), hw.right, hnmod, by omega, by omega⟩, ht.clear n (by simp)⟩,
    ⟨by unfold firstBlock; omega, by omega, by omega, hpn⟩,
    ⟨hin _ (by omega) (by omega), ht.footer.1, hback⟩,
    ⟨hin _ (by omega) (by omega), hclear, hfooter⟩, hraddr.symm ▸ ht.member⟩

theorem ranges (ht : Trio h M q p n) (ranges : Option (List Range)) :
    Trio { h with glRanges := ranges } M q p n :=
  { ht with
    places := { ht.places with
      arena := ⟨ht.places.arena.aligned, ht.places.arena.nonnull, ht.places.arena.size,
        ht.places.arena.below⟩ } }

/-- The block that the three make, or the first two. -/
theorem joined_bounds (ht : Trio h M q p n) {c : Block} (hc : joined (some q) p (takeFree n) = c) :
    c.addr = q.addr ∧ c.size % 8 = 0 ∧ n.addr ≤ c.addr + c.size ∧
      c.addr + c.size ≤ h.memMaxAddr ∧ Clear M (c.addr + c.size - 8) := by
  obtain ⟨hlow, hqp, hpn, hhigh⟩ := ht.order
  obtain ⟨hqsize, hpsize, hqmod, hpmod, hnmod⟩ := ht.sized
  subst hc
  unfold joined takeFree
  cases hn : n.alloc
  · simp only [Bool.false_eq_true, if_false, Option.getD_some, Option.elim_some]
    rw [show q.addr + (q.size + p.size + n.size) = n.addr + n.size by omega]
    exact ⟨trivial, by omega, by omega, hhigh, ht.footer.2.2 hn⟩
  · simp only [if_true, Option.getD_some, Option.elim_some, Option.elim_none, Nat.add_zero]
    rw [show q.addr + (q.size + p.size) = n.addr by omega]
    exact ⟨trivial, by omega, Nat.le_refl _, by omega, ht.footer.2.1⟩

/-- After two calls of `mm_free` the header of the first block has the size of everything up to the
end of the second or third, with the blocks added that the second call has found again. -/
theorem mmFree_twice (ht : Trio h M q p n) (hqfree : q.alloc = false) (hpfree : p.alloc = false)
    (hw : Words h.bytes q p n q.word q.word (Block.word { p with alloc := true }) n.word)
    (he : ∀ y, M y → y ≠ p.addr → M (h.word y) ∧ M (h.word (y + 4))) {c d : Block}
    (hc : joined (some q) p (takeFree n) = c) (hd : joined (some c) p (takeFree n) = d)
    {h₁ h₂ : Heap} (hret₁ : Returns (mmFree p.addr) h fun _ t ↦ t = h₁)
    (hret₂ : Returns (mmFree p.addr) h₁ fun _ t ↦ t = h₂) :
    h₂.memStartBrk = h.memStartBrk ∧ h₂.memBrk = h.memBrk ∧ h₂.word (q.addr - 4) = d.word ∧
      ∀ x, x % 4 = 0 → x + 4 ≤ q.addr - 4 → Clear M x → h₂.word x = h.word x := by
  obtain ⟨hlow, hqp, hpn, hhigh⟩ := ht.order
  obtain ⟨hqsize, hpsize, hqmod, hpmod, hnmod⟩ := ht.sized
  obtain ⟨hmodq, hmodp, hmodn⟩ := ht.aligned
  obtain ⟨hcaddr, hcmod, hnc, hchigh, hcclear⟩ := ht.joined_bounds hc
  have hlt := ht.places.arena.below
  have hsize := ht.places.arena.size
  unfold firstBlock at hlow
  have hcsize : c.size = q.size + p.size + (takeFree n).elim 0 Block.size := hc ▸ rfl
  have hdsize : d.size = c.size + p.size + (takeFree n).elim 0 Block.size := hd ▸ rfl
  have hdaddr : d.addr = q.addr := (show d.addr = c.addr from hd ▸ rfl).trans hcaddr
  have hcfree : c.alloc = false := hc ▸ rfl
  have hqc : q.size ≤ c.size := by omega
  have hclt : c.size < 2 ^ 32 := by omega
  have hdlt : d.addr + d.size < 2 ^ 32 + h.memStartBrk := by
    unfold maxHeap at hsize
    omega
  have hdbounds : n.addr ≤ d.addr + d.size ∧ d.size % 8 = 0 ∧ d.size < 2 ^ 32 := by omega
  -- the first call
  have hw₁ := (ht.tag_middle (x := 0) hw).1
  have hfoot₁ : wordAt (tagBlock h.bytes p) (q.addr + q.size - 8) &&& 0x1 = 0 := by
    rw [hqp, hw₁.back, Block.word_and_one hqmod, hqfree]
    rfl
  have hbetween₁ := ht.between ⟨rfl, Nat.le_refl _, hqmod, by omega⟩ hw₁
    (hqp.symm ▸ ht.footer.1) hfoot₁
  have hheader : h.InArena (p.addr - 4) := ⟨by omega, by omega⟩
  have hpbounds : 4 ≤ p.addr ∧ p.addr + p.size < 2 ^ 32 := by omega
  have hend : Clear M (p.addr + p.size - 8) := hpn.symm ▸ ht.footer.2.1
  have hstanding₁ : Standing h M h.bytes { p with alloc := true } :=
    ⟨⟨hheader, hw.middle, hpmod, hpbounds⟩, ht.clear p (by simp)⟩
  obtain ⟨-, m₁, he₁, hk₁, rfl⟩ := ht.places.mmFree hstanding₁ hpfree hend hbetween₁ he
    (fun _ _ ↦ rfl) hc (by omega) hret₁
  -- the second call
  have ht₁ := ht.ranges (h.glRanges.map fun ranges ↦ removeRange ranges p.addr)
  have hw₂ := (ht.tag_left (x := 0) ⟨hcaddr, hnc, hcmod, hclt⟩ hw₁).1
  have hw₃ := (ht.tag_middle (x := 0) hw₂).1
  have hfoot₂ : wordAt (tagBlock (tagBlock (tagBlock h.bytes p) c) p) (c.addr + c.size - 8) &&&
      0x1 = 0 := by
    rw [wordAt_tagBlock ⟨hmodp, hpmod, by omega⟩ (by omega) (by omega),
      wordAt_tagBlock ⟨by omega, hcmod, hclt⟩ (by omega) (by omega), if_pos (Or.inr rfl)]
    split_ifs
    · rw [Block.word_and_one hpmod, hpfree]
      rfl
    · rw [Block.word_and_one hcmod, hcfree]
      rfl
  have hbetween₂ := ht₁.between ⟨hcaddr, hqc, hcmod, hchigh⟩ hw₃ hcclear hfoot₂
  have hstanding₂ : Standing { h with
      glRanges := h.glRanges.map fun ranges ↦ removeRange ranges p.addr } M
      (tagBlock (tagBlock h.bytes p) c) { p with alloc := false } :=
    ⟨⟨hheader, by rw [← hpfree]; exact hw₂.middle, hpmod, hpbounds⟩, ht.clear p (by simp)⟩
  obtain ⟨-, m₂, -, hk₂, rfl⟩ := ht₁.places.mmFree hstanding₂ hpfree hend hbetween₂
    (fun y hy _ ↦ he₁ hcclear y hy) hk₁ hd hdlt hret₂
  refine ⟨rfl, rfl, ?_, fun x hx hbelow hclear ↦ ?_⟩
  · exact (hk₂.word (ht.clear q (by simp))).trans
      (ht.tag_left (x := 0) ⟨hdaddr, hdbounds⟩ hw₃).1.left
  · calc wordAt m₂ x
        = wordAt (tagBlock (tagBlock (tagBlock (tagBlock h.bytes p) c) p) d) x := hk₂.word hclear
      _ = wordAt (tagBlock (tagBlock (tagBlock h.bytes p) c) p) x :=
        (ht.tag_left ⟨hdaddr, hdbounds⟩ hw₃).2 hx hbelow
      _ = wordAt (tagBlock (tagBlock h.bytes p) c) x := (ht.tag_middle hw₂).2 hx hbelow
      _ = wordAt (tagBlock h.bytes p) x :=
        (ht.tag_left ⟨hcaddr, hnc, hcmod, hclt⟩ hw₁).2 hx hbelow
      _ = wordAt h.bytes x := (ht.tag_middle hw).2 hx hbelow

end Trio

end SystemProgramming.MemoryLab
