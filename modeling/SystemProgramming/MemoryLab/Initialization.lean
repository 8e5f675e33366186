import SystemProgramming.MemoryLab.HeapInvariant

/-!
# `mm_init`

On an empty heap `mm_init` links every class root to itself and writes the prologue and the
epilogue. It leaves a heap without blocks, whatever bytes were there before.
-/

set_option autoImplicit false
set_option relaxedAutoImplicit false

namespace SystemProgramming.MemoryLab

open Library

/-- A heap without blocks. -/
def emptyShape (base : Nat) : Shape := ⟨[], fun _ ↦ [], firstBlock base⟩

theorem settled_emptyShape (base : Nat) : (emptyShape base).Settled base where
  proper := {
    tiles := rfl
    sized := by simp [emptyShape]
    simple := ⟨fun _ _ ↦ List.nodup_nil, by simp [emptyShape]⟩
    filed := fun x ↦ by simp [emptyShape, Filed] }
  coalesced := List.IsChain.nil
  suited := fun b hb ↦ absurd hb (by simp [emptyShape])

/-- The root of a class points to itself. -/
def RootEmpty (m : ByteMemory) (base c : Nat) : Prop :=
  wordAt m (classRoot base c) = classRoot base c ∧ wordAt m (classRoot base c + 4) = classRoot base c

theorem linked_empty {base : Nat} {m : ByteMemory} (h : ∀ c < sizeClassNum, RootEmpty m base c) :
    Linked base m fun _ ↦ [] where
  ring := fun c hc ↦ ⟨(h c hc).1, (h c hc).2, trivial⟩
  nodup := fun _ _ ↦ List.nodup_singleton _
  disjoint := fun c d _ _ hne x hxc hxd ↦ by
    rw [List.mem_singleton] at hxc hxd
    unfold classRoot at hxc hxd
    omega

/-- A word written elsewhere leaves a root alone. -/
theorem RootEmpty.put {base c p v : Nat} {m : ByteMemory} (h : RootEmpty m base c)
    (hp : p + 4 ≤ classRoot base c ∨ classRoot base c + 8 ≤ p) :
    RootEmpty (putWord m p v) base c := by
  unfold RootEmpty at h ⊢
  rw [wordAt_putWord_of_apart m v (by omega), wordAt_putWord_of_apart m v (by omega)]
  exact h

variable {h : Heap}

/-- The loop of `mm_init`. -/
theorem returns_initRoots (ha : h.Arena) (hclass : h.sizeClassP = h.memStartBrk) {n : Nat}
    (hn : n ≤ sizeClassNum) :
    Returns (initRoots n) h fun _ h' ↦ ∃ m, h' = h.store m ∧
      ∀ c < n, RootEmpty m h.memStartBrk c := by
  have hsize := ha.size
  have hbelow := ha.below
  have haligned := ha.aligned
  unfold maxHeap at hsize
  induction n with
  | zero => exact (returns_pure _ _ _).mpr ⟨h.bytes, rfl, by omega⟩
  | succ n ih =>
    refine (ih (by omega)).bind fun _ h' hround ↦ ?_
    obtain ⟨m, rfl, hroots⟩ := hround
    have hcount : n < 32 := hn
    have hroot : addWord h.memStartBrk (n * dsize) = classRoot h.memStartBrk n := by
      rw [addWord_of_lt (by unfold dsize; omega)]
      unfold classRoot dsize
      omega
    have hclassRoot : classRoot h.memStartBrk n = h.memStartBrk + 8 * n := rfl
    generalize classRoot h.memStartBrk n = root at *
    have hprev : addWord root wsize = root + 4 := addWord_of_lt (by unfold wsize; omega)
    simp only [returns_bind, returns_get, setNextF, setPrevF]
    rw [show (h.store m).sizeClassP = h.memStartBrk from hclass, hroot, hprev,
      returns_putWordAt_store ⟨by omega, by omega⟩, returns_putWordAt_store ⟨by omega, by omega⟩]
    refine ⟨_, rfl, fun c hc ↦ ?_⟩
    by_cases hcn : c = n
    · subst hcn
      unfold RootEmpty
      rw [show classRoot h.memStartBrk c = root from hclassRoot.symm,
        wordAt_putWord_of_apart _ _ (by omega), wordAt_putWord_self _ _ (by omega),
        wordAt_putWord_self _ _ (by omega)]
      exact ⟨rfl, rfl⟩
    · have hother := hroots c (by omega)
      have hapart : root + 8 ≤ classRoot h.memStartBrk c ∨
          classRoot h.memStartBrk c + 8 ≤ root := by
        unfold classRoot
        omega
      exact (hother.put (by omega)).put (by omega)

/-- `mm_init` on an empty heap. -/
theorem returns_mmInit (ha : h.Arena) (hbrk : h.memBrk = h.memStartBrk)
    (hgranted : h.sbrkRefused = false) (ranges : Option (List Range)) :
    Returns (mmInit ranges) h fun r h' ↦ r = 0 ∧ h'.memStartBrk = h.memStartBrk ∧
      h'.memMaxAddr = h.memMaxAddr ∧ h'.glRanges = ranges ∧
      HeapInvariant h' (emptyShape h.memStartBrk) := by
  have hsize := ha.size
  have hbelow := ha.below
  have haligned := ha.aligned
  have hnonnull := ha.nonnull
  unfold maxHeap at hsize
  have hincr : (sizeClassNum + 2) * dsize = 272 := rfl
  have hend : addWord h.memBrk 272 = h.memStartBrk + 272 := by
    rw [hbrk]
    exact addWord_of_lt (by omega)
  have hgrow : ¬ (h.sbrkRefused = true ∨ 2 ^ 31 ≤ 272 ∨ h.memMaxAddr < addWord h.memBrk 272) := by
    rw [hend, hgranted]
    rintro (hrefused | hlarge | hfull)
    · exact absurd hrefused (by simp)
    · omega
    · omega
  simp only [mmInit, returns_bind, hincr]
  rw [returns_memSbrk_grow hgrow, returns_modify, hend, returns_ite,
    if_neg (by rw [hbrk]; unfold sbrkFailed; omega), returns_bind, hbrk]
  have harena : Heap.Arena { h with
      memBrk := h.memStartBrk + 272, sizeClassP := h.memStartBrk } :=
    ⟨ha.aligned, ha.nonnull, ha.size, ha.below⟩
  refine (returns_initRoots harena rfl (Nat.le_refl _)).mono fun _ h' hroots ↦ ?_
  obtain ⟨m, rfl, hroots⟩ := hroots
  simp only [returns_bind, returns_modify, returns_get, returns_pure]
  have hprologue : addWord h.memStartBrk ((sizeClassNum + 1) * dsize) = h.memStartBrk + 264 :=
    addWord_of_lt (by unfold sizeClassNum dsize; omega)
  have hepilogue : addWord (h.memStartBrk + 264) wsize = h.memStartBrk + 268 :=
    addWord_of_lt (by unfold wsize; omega)
  let h₂ : Heap := ⟨h.bytes, h.memStartBrk, h.memStartBrk + 272, h.memMaxAddr, h.sbrkRefused,
    h.memStartBrk, addWord h.memStartBrk ((sizeClassNum + 1) * dsize), h.glRanges⟩
  change Returns (setBoundaryTag (addWord h.memStartBrk ((sizeClassNum + 1) * dsize)) dsize allocTag)
    (h₂.store m) fun _ t ↦ Returns (putWordAt
      (addWord (addWord h.memStartBrk ((sizeClassNum + 1) * dsize)) wsize) (pack 0 allocTag)) t
      fun _ t ↦ _
  have hfooter : subWord (addWord (h.memStartBrk + 264) 8) dsize = h.memStartBrk + 264 := by
    rw [addWord_of_lt (by omega), subWord_of_le (by unfold dsize; omega) (by omega)]
    exact Nat.add_sub_cancel _ 8
  have hinArena : ∀ p, h.memStartBrk ≤ p → p + 4 ≤ h.memStartBrk + 272 → h₂.InArena p :=
    fun p hlow hhigh ↦ ⟨hlow, by change _ ≤ h.memMaxAddr; omega⟩
  rw [hprologue, hepilogue]
  refine (returns_setBoundaryTag_store (b := ⟨h.memStartBrk + 264, 8, true, false⟩)
    (show _ = allocTag from rfl) (by dsimp only; omega) (by dsimp only; omega)
    (hinArena _ (by dsimp only; omega) (by dsimp only; omega)) hfooter
    (hinArena _ (by omega) (by omega)) m _).mpr ?_
  rw [returns_putWordAt_store (hinArena _ (by omega) (by omega))]
  refine ⟨trivial, rfl, rfl, trivial, ?_⟩
  dsimp only
  rw [show h.memStartBrk + 264 - 4 = h.memStartBrk + 260 by omega,
    show Block.word ⟨h.memStartBrk + 264, 8, true, false⟩ = 9 from rfl]
  have hpack : pack 0 allocTag = 1 := by decide
  refine ⟨⟨ha.aligned, ha.nonnull, ha.size, ha.below⟩, rfl, hprologue, rfl, ?_,
    (settled_emptyShape _).proper, ?_, ?_, ?_, ?_, ?_, linked_empty fun c hc ↦ ?_⟩
  · change h.memStartBrk + 272 ≤ h.memMaxAddr
    omega
  · exact fun b hb ↦ absurd hb (by simp [emptyShape])
  · exact fun b hb ↦ absurd hb (by simp [emptyShape])
  · change wordAt (putWord (putWord (putWord m (h.memStartBrk + 260) 9) (h.memStartBrk + 264) 9)
      (h.memStartBrk + 268) (pack 0 allocTag)) (h.memStartBrk + 260) = 9
    rw [wordAt_putWord_of_apart _ _ (by omega), wordAt_putWord_of_apart _ _ (by omega),
      wordAt_putWord_self _ _ (by decide)]
  · change wordAt (putWord (putWord (putWord m (h.memStartBrk + 260) 9) (h.memStartBrk + 264) 9)
      (h.memStartBrk + 268) (pack 0 allocTag)) (h.memStartBrk + 264) = 9
    rw [wordAt_putWord_of_apart _ _ (by omega), wordAt_putWord_self _ _ (by decide)]
  · change wordAt (putWord _ (h.memStartBrk + 268) (pack 0 allocTag)) (h.memStartBrk + 268) = 1
    rw [hpack, wordAt_putWord_self _ _ (by decide)]
  · have hbound : classRoot h.memStartBrk c + 8 ≤ h.memStartBrk + 260 := by
      have hc' : c < 32 := hc
      unfold classRoot
      omega
    exact (((hroots c hc).put (by change _ ∨ classRoot h.memStartBrk c + 8 ≤ _; omega)).put
      (by change _ ∨ classRoot h.memStartBrk c + 8 ≤ _; omega)).put
      (by change _ ∨ classRoot h.memStartBrk c + 8 ≤ _; omega)

end SystemProgramming.MemoryLab
