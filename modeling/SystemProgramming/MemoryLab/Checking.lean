import SystemProgramming.MemoryLab.Guarantees

/-!
# The consistency checker

`mm_check` marks the header of every block on a list, and then walks over the blocks and takes the
marks away. `MarkedBy` says what memory holds in between: the headers of the marked blocks have the
mark, and every other byte is as it was. So all reads but those of `GET_ISMARKED` are those of the
heap without marks, and memory is as it was once nothing is marked (`MarkedBy.restored`).
-/

set_option autoImplicit false
set_option relaxedAutoImplicit false

namespace SystemProgramming.MemoryLab

open Library

/-! ### The code -/

/-- `FREE_MARK`. -/
def freeMark (p : Nat) : HeapM Unit := do
  let w ← getWord (hdrp p)
  putWordAt (hdrp p) (w ||| 0x4)

/-- `FREE_MARK_ERASE`, with the mask `~0x4` on thirty-two bits. -/
def freeMarkErase (p : Nat) : HeapM Unit := do
  let w ← getWord (hdrp p)
  putWordAt (hdrp p) (w &&& (2 ^ 32 - 1 - 0x4))

/-- `GET_ISMARKED`. -/
def getIsmarked (p : Nat) : HeapM Nat := do
  let w ← getWord (hdrp p)
  pure (w &&& 0x4)

/-- The errors of `mm_check`, with `error_int1`, `error_int2` and `error_address`. -/
inductive CheckError
  | allocInFreeList (cls address : Nat)
  | wrongSizeClass (cls size address : Nat)
  | coalesceFailed (address : Nat)
  | isolatedFreeBlock (address : Nat)
  deriving DecidableEq, Repr

/-- An address as `%p` prints it. -/
def printAddress (p : Nat) : String := "0x" ++ String.ofList (Nat.toDigits 16 p)

/-- The lines that `mm_check` prints. -/
def CheckError.report : CheckError → List String
  | allocInFreeList cls address =>
    ["Allocated block is in free list.", "Size Class: " ++ toString cls,
      "Error Location: " ++ printAddress address]
  | wrongSizeClass cls size address =>
    ["Free block is not in valid size class.", "Size Class: " ++ toString cls,
      "Current Size: " ++ toString size, "Error Location: " ++ printAddress address]
  | coalesceFailed address => ["Coalesce Error", "Error Location: " ++ printAddress address]
  | isolatedFreeBlock address =>
    ["Not accessible free block exists", "Error Location: " ++ printAddress address]

/-- The inner loop of the first pass, from `probe` on. -/
def checkList (cls classroot classlb classub : Nat) : Nat → Nat → HeapM (Option CheckError)
  | 0, _ => failure
  | fuel + 1, probe =>
    if probe = classroot then pure none
    else do
      let alloc ← getAlloc (hdrp probe)
      if alloc ≠ 0 then pure (some (.allocInFreeList cls probe))
      else do
        let size ← getSize (hdrp probe)
        let isbulk ← getIsbulk (hdrp probe)
        if size ≤ classlb ∨ (isbulk = 0 ∧ classub < size) then
          pure (some (.wrongSizeClass cls size probe))
        else do
          freeMark probe
          let next ← nextFree probe
          checkList cls classroot classlb classub fuel next

/-- The first pass, over the last `n` classes. -/
def checkLists : Nat → HeapM (Option CheckError)
  | 0 => pure none
  | n + 1 => do
    let cls := sizeClassNum - (n + 1)
    let classroot ← getClassRoot cls
    let probe ← nextFree classroot
    let error ← checkList cls classroot (getLowerBound cls) (getLowerBound (cls + 1)) loopFuel probe
    if error ≠ none then pure error else checkLists n

/-- The second pass, from `probe` on. -/
def checkBlocks : Nat → Nat → HeapM (Option CheckError)
  | 0, _ => failure
  | fuel + 1, probe => do
    let size ← getSize (hdrp probe)
    if size ≠ 0 then do
      let prev ← prevBlkp probe
      let prevAlloc ← getAlloc (hdrp prev)
      let prevBulk ← getIsbulk (hdrp prev)
      let alloc ← getAlloc (hdrp probe)
      let isbulk ← getIsbulk (hdrp probe)
      if prevAlloc = 0 ∧ alloc = 0 ∧ ¬ (prevBulk ≠ 0 ∧ isbulk ≠ 0) then
        pure (some (.coalesceFailed probe))
      else if alloc = 0 then do
        let marked ← getIsmarked probe
        if marked ≠ 0 then do
          freeMarkErase probe
          let next ← nextBlkp probe
          checkBlocks fuel next
        else pure (some (.isolatedFreeBlock probe))
      else do
        let next ← nextBlkp probe
        checkBlocks fuel next
    else pure none

/-- The two passes of `mm_check`. -/
def findError : HeapM (Option CheckError) := do
  let error ← checkLists sizeClassNum
  if error ≠ none then pure error
  else do
    let h ← get
    let probe ← nextBlkp h.prologue
    checkBlocks loopFuel probe

/-- `mm_check`: the lines that it prints. -/
def mmCheck : HeapM (List String) := do
  let error ← findError
  pure (error.elim [] CheckError.report)

/-! ### Marked words -/

namespace Block

variable {b : Block} {w : Nat}

/-- The mark is no part of what the other macros read. -/
theorem marked_and (hmod : b.size % 8 = 0) (hlt : b.size < 2 ^ 32)
    (hw : w = b.word ∨ w = b.word + 4) :
    w &&& sizeMask = b.size ∧ (w &&& 0x1 = if b.alloc then 1 else 0) ∧
      (w &&& 0x2 = if b.bulk then 2 else 0) := by
  have htag := b.tag_le
  have hword : b.word = b.size + b.tag := rfl
  refine ⟨?_, ?_, ?_⟩
  · rw [sizeMask, and_mask (by omega) (by omega)]
    omega
  · rw [← word_and_one hmod, Nat.and_one_is_mod, Nat.and_one_is_mod]
    omega
  · rw [← word_and_two hmod, and_two, and_two]
    omega

theorem mark_word (hmod : b.size % 8 = 0) : b.word ||| 0x4 = b.word + 4 := by
  have htag := b.tag_le
  have hlow : b.tag ||| 0x4 = b.tag + 4 := by
    unfold tag
    split_ifs <;> rfl
  have hor := or_low (show b.tag < 2 ^ 3 by omega) hmod
  have hor' := or_low (show b.tag + 4 < 2 ^ 3 by omega) hmod
  rw [word, ← hor, Nat.or_assoc, hlow, hor', hor, Nat.add_assoc]

theorem erase_word (hmod : b.size % 8 = 0) (hlt : b.size < 2 ^ 32) :
    (b.word + 4) &&& (2 ^ 32 - 1 - 0x4) = b.word := by
  have htag := b.tag_le
  have hmask : 2 ^ 32 - 1 - 0x4 = sizeMask ||| (2 ^ 2 - 1) := by decide
  have hlow : (b.word + 4) % 2 ^ 2 = b.tag := by
    unfold word
    omega
  rw [hmask, Nat.and_or_distrib_left, (marked_and hmod hlt (Or.inr rfl)).1,
    Nat.and_two_pow_sub_one_eq_mod, hlow]
  exact or_low (show b.tag < 2 ^ 3 by omega) hmod

theorem and_four (w : Nat) : w &&& 0x4 = 4 * (w / 4 % 2) := by
  have hbit : w / 4 % 2 = (w.testBit 2).toNat := by
    rw [Nat.toNat_testBit]
  rw [hbit, Nat.mul_comm]
  exact Nat.and_two_pow w 2

end Block

/-! ### Marked memory -/

/-- The blocks with these addresses are marked, and every other byte is as it was. -/
structure MarkedBy (blocks : List Block) (X : Nat → Prop) (m₀ m : ByteMemory) : Prop where
  marked : ∀ b ∈ blocks, X b.addr → wordAt m (b.addr - 4) = b.word + 4
  kept : ∀ a, (∀ b ∈ blocks, X b.addr → a < b.addr - 4 ∨ b.addr ≤ a) → m a = m₀ a

theorem MarkedBy.congr {blocks : List Block} {X Y : Nat → Prop} {m₀ m : ByteMemory}
    (hm : MarkedBy blocks X m₀ m) (h : ∀ b ∈ blocks, X b.addr ↔ Y b.addr) :
    MarkedBy blocks Y m₀ m where
  marked := fun b hb hY ↦ hm.marked b hb ((h b hb).mpr hY)
  kept := fun a ha ↦ hm.kept a fun b hb hX ↦ ha b hb ((h b hb).mp hX)

/-- Nothing is marked at first. -/
theorem MarkedBy.unmarked (blocks : List Block) (m : ByteMemory) :
    MarkedBy blocks (fun _ ↦ False) m m where
  marked := fun _ _ h ↦ absurd h id
  kept := fun _ _ ↦ rfl

/-- Once nothing is marked, memory is as it was. -/
theorem MarkedBy.restored {blocks : List Block} {X : Nat → Prop} {m₀ m : ByteMemory}
    (hm : MarkedBy blocks X m₀ m) (hX : ∀ b ∈ blocks, ¬ X b.addr) : m = m₀ := by
  funext a
  exact hm.kept a fun b hb h ↦ absurd h (hX b hb)

namespace MarkedBy

variable {h : Heap} {σ : Shape} {X : Nat → Prop} {m : ByteMemory} {b : Block}

/-- A word that overlaps no header. -/
theorem word_eq (hm : MarkedBy σ.blocks X h.bytes m) {p : Nat}
    (hp : ∀ c ∈ σ.blocks, X c.addr → p + 4 ≤ c.addr - 4 ∨ c.addr ≤ p) :
    wordAt m p = wordAt h.bytes p := by
  refine wordAt_congr fun a hlow hhigh ↦ hm.kept a fun c hc hX ↦ ?_
  have hclear := hp c hc hX
  omega

/-- Two headers do not overlap. -/
theorem header_apart (hi : HeapInvariant h σ) (hb : b ∈ σ.blocks) {c : Block} (hc : c ∈ σ.blocks)
    (hne : c.addr ≠ b.addr) : b.addr - 4 + 4 ≤ c.addr - 4 ∨ c.addr ≤ b.addr - 4 := by
  have hblock := hi.geometry.block b hb
  have hcblock := hi.geometry.block c hc
  unfold firstBlock at hblock hcblock
  obtain rfl | hafter | hbefore := hi.geometry.trichotomy hb hc
  · exact absurd rfl hne
  · omega
  · omega

/-- The header of a block, marked or not. -/
theorem header (hm : MarkedBy σ.blocks X h.bytes m) (hi : HeapInvariant h σ) (hb : b ∈ σ.blocks) :
    wordAt m (b.addr - 4) = b.word ∨ wordAt m (b.addr - 4) = b.word + 4 := by
  by_cases hX : X b.addr
  · exact Or.inr (hm.marked b hb hX)
  · refine Or.inl ((hm.word_eq fun c hc hXc ↦ header_apart hi hb hc ?_).trans (hi.header b hb))
    intro heq
    exact hX (heq ▸ hXc)

/-- The footer of a block. -/
theorem footer (hm : MarkedBy σ.blocks X h.bytes m) (hi : HeapInvariant h σ) (hb : b ∈ σ.blocks) :
    wordAt m (b.addr + b.size - 8) = b.word := by
  have hblock := hi.geometry.block b hb
  unfold firstBlock at hblock
  refine (hm.word_eq fun c hc _ ↦ ?_).trans (hi.footer b hb)
  have hcblock := hi.geometry.block c hc
  unfold firstBlock at hcblock
  obtain rfl | hafter | hbefore := hi.geometry.trichotomy hb hc <;> omega

/-- The link to the next block of a root or of a filed address. -/
theorem link (hm : MarkedBy σ.blocks X h.bytes m) (hi : HeapInvariant h σ) {y : Nat}
    (hy : RingMember (· < sizeClassNum) (classRoot h.memStartBrk) σ.lists y) :
    wordAt m y = wordAt h.bytes y := by
  refine hm.word_eq fun c hc _ ↦ ?_
  have hcblock := hi.geometry.block c hc
  unfold firstBlock at hcblock
  obtain ⟨cls, hcls, hmem⟩ := hy
  obtain rfl | hmem := List.mem_cons.mp hmem
  · unfold classRoot
    unfold sizeClassNum at hcls
    omega
  · have happart := hi.geometry.apart y ⟨cls, hcls, hmem⟩ c hc
    omega

/-- Words before the first block. -/
theorem low (hm : MarkedBy σ.blocks X h.bytes m) (hi : HeapInvariant h σ) {p : Nat}
    (hp : p < h.memStartBrk + 265) : wordAt m p = wordAt h.bytes p := by
  refine hm.word_eq fun c hc _ ↦ ?_
  have hcblock := hi.geometry.block c hc
  unfold firstBlock at hcblock
  omega

/-- Mark a block. -/
theorem mark (hm : MarkedBy σ.blocks X h.bytes m) (hi : HeapInvariant h σ) (hb : b ∈ σ.blocks) :
    MarkedBy σ.blocks (fun x ↦ X x ∨ x = b.addr) h.bytes
      (putWord m (b.addr - 4) (b.word + 4)) where
  marked := fun c hc hX ↦ by
    by_cases heq : c.addr = b.addr
    · obtain rfl := eq_of_addr_eq hi.proper.tiles.sorted hi.proper.sized hc hb heq
      have hblock := hi.geometry.block c hc
      have hlt := hi.brk_lt
      have htag := c.tag_le
      exact wordAt_putWord_self _ _ (by unfold Block.word; omega)
    · have happart := header_apart hi hc hb (Ne.symm heq)
      have hblock := hi.geometry.block b hb
      unfold firstBlock at hblock
      rw [wordAt_putWord_of_apart _ _ (by omega)]
      exact hm.marked c hc (hX.resolve_right heq)
  kept := fun a ha ↦ by
    have hself := ha b hb (Or.inr rfl)
    have hblock := hi.geometry.block b hb
    unfold firstBlock at hblock
    rw [putWord_apply_of_outside _ _ (by omega)]
    exact hm.kept a fun c hc hX ↦ ha c hc (Or.inl hX)

/-- Take the mark of a block away. -/
theorem erase (hm : MarkedBy σ.blocks X h.bytes m) (hi : HeapInvariant h σ) (hb : b ∈ σ.blocks) :
    MarkedBy σ.blocks (fun x ↦ X x ∧ x ≠ b.addr) h.bytes (putWord m (b.addr - 4) b.word) where
  marked := fun c hc hXne ↦ by
    obtain ⟨hX, hne⟩ := hXne
    have happart := header_apart hi hc hb (Ne.symm hne)
    have hblock := hi.geometry.block b hb
    unfold firstBlock at hblock
    rw [wordAt_putWord_of_apart _ _ (by omega)]
    exact hm.marked c hc hX
  kept := fun a ha ↦ by
    have hblock := hi.geometry.block b hb
    unfold firstBlock at hblock
    by_cases hself : a < b.addr - 4 ∨ b.addr ≤ a
    · rw [putWord_apply_of_outside _ _ (by omega)]
      refine hm.kept a fun c hc hX ↦ ?_
      by_cases heq : c.addr = b.addr
      · rwa [heq]
      · exact ha c hc ⟨hX, heq⟩
    · -- the bytes of the header are those of its word
      have hlt := hi.brk_lt
      have htag := b.tag_le
      have hword : wordAt (putWord m (b.addr - 4) b.word) (b.addr - 4) =
          wordAt h.bytes (b.addr - 4) :=
        (wordAt_putWord_self _ _ (by unfold Block.word; omega)).trans (hi.header b hb).symm
      exact eq_of_wordAt_eq hword (by omega) (by omega)

end MarkedBy

/-! ### Reading marked memory -/

section Reading

variable {h : Heap} {σ : Shape} {X : Nat → Prop} {m : ByteMemory} {b : Block}

/-- What the macros read in the header of a block, marked or not. -/
theorem MarkedBy.returns_header (hm : MarkedBy σ.blocks X h.bytes m) (hi : HeapInvariant h σ)
    (hb : b ∈ σ.blocks) :
    (∀ Q, Returns (getSize (hdrp b.addr)) (h.store m) Q ↔ Q b.size (h.store m)) ∧
      (∀ Q, Returns (getAlloc (hdrp b.addr)) (h.store m) Q ↔
        Q (if b.alloc then 1 else 0) (h.store m)) ∧
      ∀ Q, Returns (getIsbulk (hdrp b.addr)) (h.store m) Q ↔
        Q (if b.bulk then 2 else 0) (h.store m) := by
  have hv := hi.view (K := fun _ ↦ False) fun _ ha ↦ absurd ha id
  have hlt := hi.brk_lt
  have hblock := hi.geometry.block b hb
  obtain ⟨hsize, halloc, hbulk⟩ :=
    Block.marked_and hblock.2.1 (by omega) (hm.header hi hb)
  have hread := fun Q ↦ returns_getWord_store (hv.header_inArena hb).1 m Q
  rw [hv.hdrp_block hb]
  refine ⟨fun Q ↦ ?_, fun Q ↦ ?_, fun Q ↦ ?_⟩
  · rw [getSize, returns_bind, hread, returns_pure, hsize]
  · rw [getAlloc, returns_bind, hread, returns_pure, halloc]
  · rw [getIsbulk, returns_bind, hread, returns_pure, hbulk]

theorem MarkedBy.returns_nextBlkp (hm : MarkedBy σ.blocks X h.bytes m) (hi : HeapInvariant h σ)
    (hb : b ∈ σ.blocks) (Q : Nat → Heap → Prop) :
    Returns (nextBlkp b.addr) (h.store m) Q ↔ Q (b.addr + b.size) (h.store m) := by
  have hlt := hi.brk_lt
  have hblock := hi.geometry.block b hb
  rw [nextBlkp, returns_bind]
  change Returns (getSize (hdrp b.addr)) (h.store m) _ ↔ _
  rw [(hm.returns_header hi hb).1, returns_pure, addWord_of_lt (by omega)]

/-- The words of the prologue. -/
theorem MarkedBy.returns_prologue (hm : MarkedBy σ.blocks X h.bytes m) (hi : HeapInvariant h σ)
    {p : Nat} (hp : p = h.memStartBrk + 260 ∨ p = h.memStartBrk + 264) (Q : Nat → Heap → Prop) :
    Returns (getWord p) (h.store m) Q ↔ Q 9 (h.store m) := by
  have hv := hi.view (K := fun _ ↦ False) fun _ ha ↦ absurd ha id
  have hfirst := hi.geometry.first_le
  unfold firstBlock at hfirst
  have hprologue : wordAt h.bytes p = 9 := by
    obtain rfl | rfl := hp
    · exact hi.prologueHeader
    · exact hi.prologueFooter
  rw [returns_getWord_store (hv.inArena (by omega) (by omega)), hm.low hi (by omega), hprologue]

/-- `FREE_MARK` of a block that has no mark. -/
theorem MarkedBy.returns_freeMark (hm : MarkedBy σ.blocks X h.bytes m) (hi : HeapInvariant h σ)
    (hb : b ∈ σ.blocks) (hX : ¬ X b.addr) {Q : Unit → Heap → Prop}
    (hQ : ∀ m', MarkedBy σ.blocks (fun x ↦ X x ∨ x = b.addr) h.bytes m' → Q () (h.store m')) :
    Returns (freeMark b.addr) (h.store m) Q := by
  have hv := hi.view (K := fun _ ↦ False) fun _ ha ↦ absurd ha id
  have hheader : wordAt m (b.addr - 4) = b.word := by
    refine (hm.word_eq fun c hc hXc ↦ header_apart hi hb hc ?_).trans (hi.header b hb)
    intro heq
    exact hX (heq ▸ hXc)
  rw [freeMark, hv.hdrp_block hb, returns_bind, returns_getWord_store (hv.header_inArena hb).1,
    returns_putWordAt_store (hv.header_inArena hb).1, hheader,
    Block.mark_word (hi.geometry.block b hb).2.1]
  exact hQ _ (hm.mark hi hb)

/-- `GET_ISMARKED` and `FREE_MARK_ERASE` of a block that has one. -/
theorem MarkedBy.returns_freeMarkErase (hm : MarkedBy σ.blocks X h.bytes m)
    (hi : HeapInvariant h σ) (hb : b ∈ σ.blocks) (hX : X b.addr) :
    (∀ Q, Returns (getIsmarked b.addr) (h.store m) Q ↔ Q 4 (h.store m)) ∧
      ∀ Q : Unit → Heap → Prop,
        (∀ m', MarkedBy σ.blocks (fun x ↦ X x ∧ x ≠ b.addr) h.bytes m' → Q () (h.store m')) →
        Returns (freeMarkErase b.addr) (h.store m) Q := by
  have hv := hi.view (K := fun _ ↦ False) fun _ ha ↦ absurd ha id
  have hlt := hi.brk_lt
  have hblock := hi.geometry.block b hb
  have hheader := hm.marked b hb hX
  refine ⟨fun Q ↦ ?_, fun Q hQ ↦ ?_⟩
  · have hmark : b.word + 4 &&& 0x4 = 4 := by
      have htag := b.tag_le
      rw [Block.and_four, Block.word]
      omega
    rw [getIsmarked, hv.hdrp_block hb, returns_bind,
      returns_getWord_store (hv.header_inArena hb).1, returns_pure, hheader, hmark]
  · rw [freeMarkErase, hv.hdrp_block hb, returns_bind,
      returns_getWord_store (hv.header_inArena hb).1,
      returns_putWordAt_store (hv.header_inArena hb).1, hheader,
      Block.erase_word hblock.2.1 (by omega)]
    exact hQ _ (hm.erase hi hb)

end Reading

/-! ### The first pass -/

section Passes

variable {h : Heap} {σ : Shape}

/-- A filed block passes the tests of its list. -/
theorem Shape.Settled.class_bounds (hs : σ.Settled h.memStartBrk) (hi : HeapInvariant h σ)
    {b : Block} (hb : b ∈ σ.blocks) (hfree : b.alloc = false) {c : Nat} (hc : c < sizeClassNum)
    (hmem : b.addr ∈ σ.lists c) :
    getLowerBound c < b.size ∧ (b.bulk = false → b.size ≤ getLowerBound (c + 1)) := by
  have hsuited := hs.suited b hb hfree c hc hmem
  have hsized := hs.proper.sized b hb
  unfold Block.SuitedTo at hsuited
  unfold Block.Sized at hsized
  split_ifs at hsuited with hbulk
  · exact ⟨hsuited, fun hplain ↦ absurd hbulk (by simp [hplain])⟩
  · subst hsuited
    refine ⟨getLowerBound_getSizeClass_lt (by omega), fun _ ↦ ?_⟩
    by_cases hlast : getSizeClass b.size < 31
    · exact le_getLowerBound_succ hlast
    · unfold sizeClassNum at hc
      have hclass : getSizeClass b.size = 31 := by omega
      have hblock := hi.geometry.block b hb
      have hmax := hi.brk_le
      have hextent := hi.arena.size
      unfold firstBlock at hblock
      unfold maxHeap at hextent
      rw [hclass, show getLowerBound 32 = 0x7fffffff from rfl]
      omega

/-- The inner loop marks what is left of its list. -/
theorem HeapInvariant.checkList (hi : HeapInvariant h σ) (hs : σ.Settled h.memStartBrk) {c : Nat}
    (hc : c < sizeClassNum) (back : List Nat) :
    ∀ (front : List Nat) (fuel : Nat) (X : Nat → Prop) (m : ByteMemory),
      σ.lists c = front ++ back → back.length < fuel → MarkedBy σ.blocks X h.bytes m →
      (∀ x ∈ back, ¬ X x) →
      Returns (MemoryLab.checkList c (classRoot h.memStartBrk c) (getLowerBound c)
        (getLowerBound (c + 1)) fuel (ringHead (classRoot h.memStartBrk c) back)) (h.store m)
        fun error h' ↦ error = none ∧ ∃ m', h' = h.store m' ∧
          MarkedBy σ.blocks (fun x ↦ X x ∨ x ∈ back) h.bytes m' := by
  have hv := hi.view (K := fun _ ↦ False) fun _ ha ↦ absurd ha id
  induction back with
  | nil =>
    intro front fuel X m hsplit hfuel hm hX
    obtain ⟨fuel, rfl⟩ := Nat.exists_eq_succ_of_ne_zero (Nat.ne_zero_of_lt hfuel)
    have hend : ringHead (classRoot h.memStartBrk c) [] = classRoot h.memStartBrk c := rfl
    rw [MemoryLab.checkList, returns_ite, if_pos hend, returns_pure]
    exact ⟨rfl, m, rfl, hm.congr fun b _ ↦ by simp⟩
  | cons x back ih =>
    intro front fuel X m hsplit hfuel hm hX
    obtain ⟨fuel, rfl⟩ := Nat.exists_eq_succ_of_ne_zero (Nat.ne_zero_of_lt hfuel)
    have hx : x ∈ σ.lists c := by simp [hsplit]
    obtain ⟨b, hb, rfl, hfree⟩ := (hs.proper.filed x).mp ⟨c, hc, hx⟩
    obtain ⟨hlower, hupper⟩ := hs.class_bounds hi hb hfree hc hx
    obtain ⟨hsize, halloc, hbulk⟩ := hm.returns_header hi hb
    have hne : b.addr ≠ classRoot h.memStartBrk c := by
      have hblock := hi.geometry.block b hb
      unfold firstBlock at hblock
      unfold classRoot sizeClassNum at *
      omega
    have hring := hi.linked.ring c hc
    rw [hsplit] at hring
    have hnext : wordAt h.bytes b.addr = ringHead (classRoot h.memStartBrk c) back :=
      hring.neighbours.1
    have hnodup : b.addr ∉ back := by
      have hlist := hs.proper.simple.nodup c hc
      rw [hsplit] at hlist
      exact (List.nodup_cons.mp (List.nodup_append.mp hlist).2.1).1
    have htests : ¬ (b.size ≤ getLowerBound c ∨
        ((if b.bulk then 2 else 0) = 0 ∧ getLowerBound (c + 1) < b.size)) := by
      rintro (hsmall | ⟨hplain, hlarge⟩)
      · omega
      · have hle := hupper (by simpa using hplain)
        omega
    rw [show ringHead (classRoot h.memStartBrk c) (b.addr :: back) = b.addr from rfl,
      MemoryLab.checkList, returns_ite, if_neg hne, returns_bind, halloc, hfree, returns_ite,
      if_neg (by simp), returns_bind, hsize, returns_bind, hbulk, returns_ite, if_neg htests,
      returns_bind]
    refine hm.returns_freeMark hi hb (hX _ List.mem_cons_self) fun m' hm' ↦ ?_
    have hmember : RingMember (· < sizeClassNum) (classRoot h.memStartBrk) σ.lists b.addr :=
      ⟨c, hc, List.mem_cons_of_mem _ hx⟩
    obtain ⟨-, hlow, hhigh⟩ := hv.linkable_bounds (hv.linkable hmember)
    rw [returns_bind, nextFree, returns_getWord_store (hv.inArena hlow (by omega)),
      hm'.link hi hmember, hnext]
    refine (ih (front ++ [b.addr]) fuel _ m' (by simp [hsplit]) (by simpa using hfuel) hm' ?_).mono ?_
    · rintro y hy (hXy | rfl)
      · exact hX y (List.mem_cons_of_mem _ hy) hXy
      · exact hnodup hy
    · rintro error h' ⟨rfl, m'', rfl, hm''⟩
      exact ⟨rfl, m'', rfl, hm''.congr fun d _ ↦ by rw [List.mem_cons, or_assoc]⟩

/-- The first pass marks what is on the lists. -/
theorem HeapInvariant.checkLists (hi : HeapInvariant h σ) (hs : σ.Settled h.memStartBrk) (n : Nat) :
    ∀ m, n ≤ sizeClassNum →
      MarkedBy σ.blocks (fun x ↦ ∃ c < sizeClassNum - n, x ∈ σ.lists c) h.bytes m →
      Returns (MemoryLab.checkLists n) (h.store m) fun error h' ↦ error = none ∧
        ∃ m', h' = h.store m' ∧ MarkedBy σ.blocks (Filed σ.lists) h.bytes m' := by
  have hv := hi.view (K := fun _ ↦ False) fun _ ha ↦ absurd ha id
  induction n with
  | zero =>
    intro m _ hm
    rw [MemoryLab.checkLists, returns_pure]
    exact ⟨rfl, m, rfl, hm⟩
  | succ n ih =>
    intro m hn hm
    have hc : sizeClassNum - (n + 1) < sizeClassNum := by omega
    have hroot : RingMember (· < sizeClassNum) (classRoot h.memStartBrk) σ.lists
        (classRoot h.memStartBrk (sizeClassNum - (n + 1))) := ⟨_, hc, List.mem_cons_self⟩
    obtain ⟨-, hlow, hhigh⟩ := hv.linkable_bounds (hv.linkable hroot)
    have hfirst := (hi.linked.ring _ hc).next_root
    have hbounds : ∀ x ∈ σ.lists (sizeClassNum - (n + 1)), 0 < x ∧ x < 2 ^ 32 := by
      intro x hx
      have hnode := hi.geometry.node x ⟨_, hc, hx⟩
      have hlt := hi.brk_lt
      unfold firstBlock at hnode
      omega
    have hlength := length_lt_of_nodup (hs.proper.simple.nodup _ hc) hbounds (by norm_num)
    have hlist := hi.checkList hs hc (σ.lists (sizeClassNum - (n + 1))) [] loopFuel _ m rfl hlength
      hm ?_
    · simp only [MemoryLab.checkLists, returns_bind]
      rw [hv.getClassRoot_store hc, nextFree, returns_getWord_store (hv.inArena hlow (by omega)),
        hm.link hi hroot, hfirst]
      refine hlist.mono ?_
      rintro error h' ⟨rfl, m', rfl, hm'⟩
      rw [returns_ite, if_neg (by simp)]
      refine ih m' (by omega) (hm'.congr fun b _ ↦ ?_)
      constructor
      · rintro (⟨c, hlt, hmem⟩ | hmem)
        · exact ⟨c, by omega, hmem⟩
        · exact ⟨_, by omega, hmem⟩
      · rintro ⟨c, hlt, hmem⟩
        by_cases heq : c = sizeClassNum - (n + 1)
        · exact Or.inr (heq ▸ hmem)
        · exact Or.inl ⟨c, by omega, hmem⟩
    · rintro x hx ⟨c, hlt, hmem⟩
      have heq := hs.proper.simple.disjoint c (by omega) _ hc x hmem hx
      omega

/-! ### The second pass -/

/-- What the second pass reads before a block: the tags of the block before it, or of the
prologue. -/
theorem HeapInvariant.returns_prevTags (hi : HeapInvariant h σ) {X : Nat → Prop} {m : ByteMemory}
    (hm : MarkedBy σ.blocks X h.bytes m) {front rest : List Block} {bp : Nat}
    (hsplit : σ.blocks = front ++ rest) (htiles : Tiles (firstBlock h.memStartBrk) front bp)
    {Q : Nat → Nat → Heap → Prop} (hQ : ∀ alloc isbulk,
      ((∀ q ∈ front.getLast?, q.alloc = true) → alloc ≠ 0) → Q alloc isbulk (h.store m)) :
    Returns (prevBlkp bp) (h.store m) fun p s ↦ Returns (getAlloc (hdrp p)) s fun alloc s ↦
      Returns (getIsbulk (hdrp p)) s (Q alloc) := by
  have hv := hi.view (K := fun _ ↦ False) fun _ ha ↦ absurd ha id
  have hlt := hi.brk_lt
  obtain rfl | ⟨front, q, rfl⟩ := List.eq_nil_or_concat front
  · obtain rfl : firstBlock h.memStartBrk = bp := htiles
    have hfirst := hi.geometry.first_le
    unfold firstBlock at hfirst ⊢
    have hfooter : subWord (h.memStartBrk + 272) dsize = h.memStartBrk + 264 :=
      subWord_of_le (by unfold dsize; omega) (by omega)
    have hbp : subWord (h.memStartBrk + 272) 8 = h.memStartBrk + 264 :=
      subWord_of_le (by omega) (by omega)
    simp only [returns_bind, prevBlkp, getSize, getAlloc, getIsbulk, returns_pure, hfooter]
    rw [hm.returns_prologue hi (Or.inr rfl), show 9 &&& sizeMask = 8 from rfl, hbp,
      hv.hdrp_prologue, hm.returns_prologue hi (Or.inl rfl), hm.returns_prologue hi (Or.inl rfl)]
    exact hQ 1 0 fun _ ↦ one_ne_zero
  · rw [List.concat_eq_append, tiles_append] at htiles
    obtain ⟨start, -, hq⟩ := htiles
    have hmem : q ∈ σ.blocks := by simp [hsplit]
    obtain ⟨-, halloc, hbulk⟩ := hm.returns_header hi hmem
    have hblock := hi.geometry.block q hmem
    have hfooter : subWord (q.addr + q.size) dsize = q.addr + q.size - 8 :=
      subWord_of_le (by unfold dsize; omega) (by omega)
    have hstart : subWord (q.addr + q.size) q.size = q.addr := by
      rw [subWord_of_le (by omega) (by omega)]
      omega
    rw [← hq.2, prevBlkp, returns_bind, hfooter,
      returns_getSize (h := h.store m) (b := q) (hv.header_inArena hmem).2
        (hm.footer hi hmem) ⟨hblock.2.1, by omega⟩, returns_pure, hstart, halloc, hbulk]
    refine hQ _ _ fun hlast ↦ ?_
    rw [if_pos (hlast q (by simp))]
    exact one_ne_zero

/-- The second pass finds no error and takes the marks away. -/
theorem HeapInvariant.checkBlocks (hi : HeapInvariant h σ) (hs : σ.Settled h.memStartBrk)
    (rest : List Block) :
    ∀ (front : List Block) (bp fuel : Nat) (m : ByteMemory), σ.blocks = front ++ rest →
      Tiles (firstBlock h.memStartBrk) front bp → Tiles bp rest σ.brk → rest.length < fuel →
      MarkedBy σ.blocks (fun x ↦ ∃ b ∈ rest, b.addr = x ∧ b.alloc = false) h.bytes m →
      Returns (MemoryLab.checkBlocks fuel bp) (h.store m) fun error h' ↦ error = none ∧ h' = h := by
  have hv := hi.view (K := fun _ ↦ False) fun _ ha ↦ absurd ha id
  induction rest with
  | nil =>
    intro front bp fuel m hsplit _ htiles hfuel hm
    obtain ⟨fuel, rfl⟩ := Nat.exists_eq_succ_of_ne_zero (Nat.ne_zero_of_lt hfuel)
    obtain rfl : bp = σ.brk := htiles
    obtain rfl : m = h.bytes := hm.restored fun b _ hb ↦ by simp at hb
    change Returns _ h _
    rw [MemoryLab.checkBlocks, returns_bind, hv.getSize_epilogue, returns_ite, if_neg (by simp),
      returns_pure]
    exact ⟨rfl, rfl⟩
  | cons b rest ih =>
    intro front bp fuel m hsplit hfront htiles hfuel hm
    obtain ⟨fuel, rfl⟩ := Nat.exists_eq_succ_of_ne_zero (Nat.ne_zero_of_lt hfuel)
    obtain ⟨rfl, hrest⟩ := htiles
    have hb : b ∈ σ.blocks := by simp [hsplit]
    have hsized := hs.proper.sized b hb
    have hne : b.size ≠ 0 := by
      unfold Block.Sized at hsized
      omega
    obtain ⟨hsize, halloc, hbulk⟩ := hm.returns_header hi hb
    have hfront' : Tiles (firstBlock h.memStartBrk) (front ++ [b]) (b.addr + b.size) :=
      tiles_append.mpr ⟨b.addr, hfront, rfl, rfl⟩
    -- a free block has no free block before it
    have hcoalesced : b.alloc = false → ∀ q ∈ front.getLast?, q.alloc = true := by
      intro hfree q hq
      have hchain := hs.coalesced
      rw [hsplit] at hchain
      have hborder := (coalesced_insert.mp hchain).2.2
      exact (hborder.resolve_left (by simp [hfree])).1 q hq
    have hnext := fun m' hm' ↦ ih (front ++ [b]) (b.addr + b.size) fuel m' (by simp [hsplit])
      hfront' hrest (by simpa using hfuel) hm'
    rw [MemoryLab.checkBlocks]
    simp only [returns_bind]
    rw [hsize, returns_ite, if_pos hne]
    simp only [returns_bind]
    refine hi.returns_prevTags hm hsplit hfront fun prevAlloc prevBulk hprev ↦ ?_
    rw [halloc, hbulk]
    cases hfree : b.alloc with
    | true =>
      simp only [if_true, one_ne_zero, false_and, and_false, if_false, returns_bind]
      rw [hm.returns_nextBlkp hi hb]
      refine hnext m (hm.congr fun c _ ↦ ?_)
      simp [hfree]
    | false =>
      have hborder : prevAlloc ≠ 0 := hprev (hcoalesced hfree)
      have hX : ∃ c ∈ b :: rest, c.addr = b.addr ∧ c.alloc = false :=
        ⟨b, List.mem_cons_self, rfl, hfree⟩
      obtain ⟨hmarked, herase⟩ := hm.returns_freeMarkErase hi hb hX
      simp only [hborder, false_and, Bool.false_eq_true, if_false, if_true, returns_bind]
      rw [hmarked]
      simp only [ne_eq, OfNat.ofNat_ne_zero, not_false_eq_true, if_true, returns_bind]
      refine herase _ fun m' hm' ↦ ?_
      rw [hm'.returns_nextBlkp hi hb]
      refine hnext m' (hm'.congr fun c _ ↦ ?_)
      have hbehind := hrest.bounds
      constructor
      · rintro ⟨⟨d, hd, haddr, hdfree⟩, hne'⟩
        obtain rfl | hd := List.mem_cons.mp hd
        · exact absurd haddr.symm hne'
        · exact ⟨d, hd, haddr, hdfree⟩
      · rintro ⟨d, hd, haddr, hdfree⟩
        have hlow := (hbehind d hd).1
        exact ⟨⟨d, List.mem_cons_of_mem _ hd, haddr, hdfree⟩, by omega⟩

/-- The two passes find nothing and leave the heap as it was. -/
theorem HeapInvariant.findError (hi : HeapInvariant h σ) (hs : σ.Settled h.memStartBrk) :
    MemoryLab.findError h = some (none, h) := by
  have hv := hi.view (K := fun _ ↦ False) fun _ ha ↦ absurd ha id
  have hlength := hs.proper.tiles.length_le hs.proper.sized
  have hlt := hi.brk_lt
  have hfuel : σ.blocks.length < loopFuel := by
    unfold loopFuel
    omega
  have hfirst := hi.checkLists hs sizeClassNum h.bytes le_rfl
    ((MarkedBy.unmarked σ.blocks h.bytes).congr fun b _ ↦ by simp)
  have hret : Returns MemoryLab.findError (h.store h.bytes) fun error h' ↦
      error = none ∧ h' = h := by
    rw [MemoryLab.findError, returns_bind]
    refine hfirst.mono ?_
    rintro error h' ⟨rfl, m, rfl, hm⟩
    have hstart : (h.store m).prologue = h.memStartBrk + 264 := hi.prologue_eq
    have hfirst := hi.geometry.first_le
    unfold firstBlock at hfirst
    have hend : addWord (h.memStartBrk + 264) 8 = h.memStartBrk + 272 := addWord_of_lt (by omega)
    rw [returns_ite, if_neg (by simp), returns_bind, returns_get, hstart, returns_bind, nextBlkp,
      returns_bind]
    change Returns (getSize (hdrp (h.memStartBrk + 264))) (h.store m) _
    rw [hv.hdrp_prologue, getSize, returns_bind, hm.returns_prologue hi (Or.inl rfl), returns_pure,
      show 9 &&& sizeMask = 8 from rfl, returns_pure, hend]
    exact hi.checkBlocks hs σ.blocks [] _ loopFuel m rfl rfl hs.proper.tiles hfuel
      (hm.congr fun b _ ↦ hs.proper.filed b.addr)
  obtain ⟨error, h', heq, rfl, rfl⟩ := hret
  exact heq

end Passes

/-! ### The result -/

variable {base : Nat} {events : List Event} {s : Session}

/-- In every session `mm_check` ends, finds no error and prints nothing, and leaves the heap as it
was. -/
theorem session_check (h : Session.Reached base events s) :
    findError s.heap = some (none, s.heap) ∧ mmCheck s.heap = some ([], s.heap) := by
  obtain ⟨-, σ, hc⟩ := h.consistent
  have hfind := hc.heap.findError hc.settled
  refine ⟨hfind, eq_of_returns_iff fun Q ↦ ?_⟩
  rw [mmCheck, returns_bind, returns_iff_of_eq hfind, returns_pure]
  rfl

theorem session_check_short : ∃ s,
    Session.Reached 4096 (shortTrace.map fun x ↦ .request x.1 x.2) s ∧
      mmCheck s.heap = some ([], s.heap) := by
  obtain ⟨s, h⟩ := exists_reached_shortTrace
  exact ⟨s, h, (session_check h).2⟩

end SystemProgramming.MemoryLab
