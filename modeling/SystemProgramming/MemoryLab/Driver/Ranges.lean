import Mathlib.Data.List.Pairwise
import SystemProgramming.Library.Runs
import SystemProgramming.MemoryLab.Allocator

/-!
# The range list of `mdriver.c`

The driver records the payload of every block that the package under test hands out, and looks
whether an end of a new payload lies in a recorded one. A new payload that begins before a recorded
one and ends behind it has neither end in it, so it is accepted (`overlapping_eq_none_iff`). Whatever
package the driver tests, the recorded payloads are aligned and in the heap, and any two of them are
apart or the newer one encloses the older one (`recorded_laminar`).
-/

set_option autoImplicit false
set_option relaxedAutoImplicit false

namespace SystemProgramming.MemoryLab.Driver

open Library

/-! ### Complaints -/

/-- `ALIGNMENT` of `config.h`. -/
def alignment : Nat := 8

/-- What the driver reports with `malloc_error`. -/
inductive Complaint
  | initFailed
  | mallocFailed
  | reallocFailed
  | misaligned (lo : Nat)
  | outside (lo hi heapLo heapHi : Nat)
  | overlaps (lo hi : Nat) (p : Range)
  | notPreserved
  | leak
  deriving DecidableEq, Repr

/-- `%p`. -/
def pointerText (p : Nat) : String :=
  if p = 0 then "(nil)" else "0x" ++ String.ofList (Nat.toDigits 16 p)

/-- The message. -/
def Complaint.msg : Complaint → String
  | initFailed => "mm_init failed."
  | mallocFailed => "mm_malloc failed."
  | reallocFailed => "mm_realloc failed."
  | misaligned lo =>
    "Payload address (" ++ pointerText lo ++ ") not aligned to " ++ toString alignment ++ " bytes"
  | outside lo hi heapLo heapHi =>
    "Payload (" ++ pointerText lo ++ ":" ++ pointerText hi ++ ") lies outside heap (" ++
      pointerText heapLo ++ ":" ++ pointerText heapHi ++ ")"
  | overlaps lo hi p =>
    "Payload (" ++ pointerText lo ++ ":" ++ pointerText hi ++ ") overlaps another payload (" ++
      pointerText p.lo ++ ":" ++ pointerText p.hi ++ ")\n"
  | notPreserved => "mm_realloc did not preserve the data from old block"
  | leak => "mm_exit did not treat the memory leak"

/-- `LINENUM`. -/
def lineNum (i : Nat) : Nat := i + 5

/-- `malloc_error`: what it prints. -/
def mallocError (tracenum opnum : Nat) (c : Complaint) : String :=
  "ERROR [trace " ++ toString tracenum ++ ", line " ++ toString (lineNum opnum) ++ "]: " ++
    c.msg ++ "\n"

/-! ### The list -/

/-- `mem_heap_lo`. -/
def memHeapLo (h : Heap) : Nat := h.memStartBrk

/-- `mem_heap_hi`. -/
def memHeapHi (h : Heap) : Nat := subWord h.memBrk 1

/-- The loop of `add_range`: the first recorded payload in which an end of the new one lies. -/
def overlapping (lo hi : Nat) (ranges : List Range) : Option Range :=
  ranges.find? fun p ↦ (p.lo ≤ lo ∧ lo ≤ p.hi) ∨ (p.lo ≤ hi ∧ hi ≤ p.hi)

/-- `add_range` for a size that is positive, with the list that it leaves. -/
def addRange (heapLo heapHi : Nat) (ranges : List Range) (lo size : Nat) :
    Except Complaint (List Range) :=
  let hi := subWord (addWord lo size) 1
  if lo % alignment ≠ 0 then .error (.misaligned lo)
  else if lo < heapLo ∨ heapHi < lo ∨ hi < heapLo ∨ heapHi < hi then
    .error (.outside lo hi heapLo heapHi)
  else match overlapping lo hi ranges with
    | some p => .error (.overlaps lo hi p)
    | none => .ok (⟨lo, hi⟩ :: ranges)

/-! ### What is accepted -/

/-- Two payloads have no byte in common. -/
def Apart (r p : Range) : Prop := r.hi < p.lo ∨ p.hi < r.lo

/-- The first payload begins before the second and ends behind it. -/
def Encloses (r p : Range) : Prop := r.lo < p.lo ∧ p.hi < r.hi

instance (r p : Range) : Decidable (Apart r p) := inferInstanceAs (Decidable (_ ∨ _))

instance (r p : Range) : Decidable (Encloses r p) := inferInstanceAs (Decidable (_ ∧ _))

/-- A payload that is aligned and lies in a heap from `base` to the break. -/
def InHeap (base brk : Nat) (r : Range) : Prop :=
  r.lo % alignment = 0 ∧ base ≤ r.lo ∧ r.lo ≤ r.hi ∧ r.hi < brk

variable {base brk lo size : Nat} {ranges ranges' : List Range}

/-- No end of a payload lies in a recorded one just if it is apart from each or encloses it. -/
theorem overlapping_eq_none_iff {r : Range} (hr : r.lo ≤ r.hi)
    (hranges : ∀ p ∈ ranges, p.lo ≤ p.hi) :
    overlapping r.lo r.hi ranges = none ↔ ∀ p ∈ ranges, Apart r p ∨ Encloses r p := by
  rw [overlapping, List.find?_eq_none]
  refine forall₂_congr fun p hp ↦ ?_
  have hle := hranges p hp
  rw [decide_eq_true_eq]
  unfold Apart Encloses
  omega

/-- The last byte of a payload in a heap of at most `maxHeap` bytes. It may wrap, but then it is not
accepted. -/
theorem inHeap_of_bounds (hpos : 0 < size) (hsize : size < 2 ^ 31) (hlo : lo < 2 ^ 32)
    (hbrk : base < brk) (hheap : brk ≤ base + maxHeap) (hbelow : base + maxHeap < 2 ^ 32)
    (hin : ¬ (lo < base ∨ subWord brk 1 < lo ∨ subWord (addWord lo size) 1 < base ∨
      subWord brk 1 < subWord (addWord lo size) 1)) :
    subWord (addWord lo size) 1 = lo + size - 1 ∧ lo + size ≤ brk := by
  have hlast : subWord brk 1 = brk - 1 := subWord_of_le (by omega) (by omega)
  rw [hlast] at hin
  unfold maxHeap at hheap hbelow
  unfold addWord subWord at hin ⊢
  omega

/-- `add_range` accepts a payload just if it is aligned, lies in the heap, and is apart from each
recorded payload or encloses it. -/
theorem addRange_eq_ok_iff (hpos : 0 < size) (hsize : size < 2 ^ 31) (hlo : lo < 2 ^ 32)
    (hbrk : base < brk) (hheap : brk ≤ base + maxHeap) (hbelow : base + maxHeap < 2 ^ 32)
    (hranges : ∀ p ∈ ranges, p.lo ≤ p.hi) :
    addRange base (subWord brk 1) ranges lo size = .ok ranges' ↔
      InHeap base brk ⟨lo, lo + size - 1⟩ ∧
        (∀ p ∈ ranges, Apart ⟨lo, lo + size - 1⟩ p ∨ Encloses ⟨lo, lo + size - 1⟩ p) ∧
        ranges' = ⟨lo, lo + size - 1⟩ :: ranges := by
  have hlast : subWord brk 1 = brk - 1 := subWord_of_le (by omega) (by omega)
  unfold addRange InHeap
  dsimp only
  by_cases haligned : lo % alignment = 0
  · rw [if_neg (not_not.mpr haligned)]
    by_cases hout : lo < base ∨ subWord brk 1 < lo ∨ subWord (addWord lo size) 1 < base ∨
        subWord brk 1 < subWord (addWord lo size) 1
    · rw [if_pos hout]
      refine iff_of_false (by simp) ?_
      rintro ⟨⟨-, hlow, -, hhigh⟩, -⟩
      have hhi : subWord (addWord lo size) 1 = lo + size - 1 := by
        rw [addWord_of_lt (by omega), subWord_of_le (by omega) (by omega)]
      rw [hhi, hlast] at hout
      omega
    · rw [if_neg hout]
      obtain ⟨hhi, hend⟩ := inHeap_of_bounds hpos hsize hlo hbrk hheap hbelow hout
      rw [hhi]
      have hnone := overlapping_eq_none_iff (r := ⟨lo, lo + size - 1⟩)
        (by dsimp only; omega) hranges
      dsimp only at hnone
      cases hfind : overlapping lo (lo + size - 1) ranges with
      | none =>
        have hclear := hnone.mp hfind
        have hin : lo % alignment = 0 ∧ base ≤ lo ∧ lo ≤ lo + size - 1 ∧ lo + size - 1 < brk :=
          ⟨haligned, by omega, by omega, by omega⟩
        simp only [Except.ok.injEq]
        exact ⟨fun heq ↦ ⟨hin, hclear, heq.symm⟩, fun h ↦ h.2.2.symm⟩
      | some p =>
        refine iff_of_false (by simp) fun h ↦ ?_
        rw [hnone.mpr h.2.1] at hfind
        cases hfind
  · rw [if_pos haligned]
    exact iff_of_false (by simp) fun h ↦ haligned h.1.1

/-! ### Whatever the package does -/

/-- What happens to the list: a payload is accepted, `mm_free` or the driver removes one, the heap
grows, or the next trace begins. -/
inductive RangeEvent
  | add (lo size : Nat)
  | remove (lo : Nat)
  | sbrk (incr : Nat)
  | reset
  deriving DecidableEq, Repr

/-- The break and the list, in a heap that begins at `base`. -/
inductive RangeStep (base : Nat) : Nat × List Range → RangeEvent → Nat × List Range → Prop
  | add {brk lo size : Nat} {ranges ranges' : List Range} (hpos : 0 < size) (hsize : size < 2 ^ 31)
      (hlo : lo < 2 ^ 32)
      (hadd : addRange base (subWord brk 1) ranges lo size = .ok ranges') :
      RangeStep base (brk, ranges) (.add lo size) (brk, ranges')
  | remove {brk : Nat} {ranges : List Range} (lo : Nat) :
      RangeStep base (brk, ranges) (.remove lo) (brk, removeRange ranges lo)
  | sbrk {brk : Nat} {ranges : List Range} (incr : Nat) (hroom : brk + incr ≤ base + maxHeap) :
      RangeStep base (brk, ranges) (.sbrk incr) (brk + incr, ranges)
  | reset {brk : Nat} {ranges : List Range} : RangeStep base (brk, ranges) .reset (base, [])

/-- Any two payloads of a list are apart, or the newer one encloses the older one. -/
def Laminar (ranges : List Range) : Prop :=
  ranges.Pairwise fun newer older ↦ Apart newer older ∨ Encloses newer older

/-- What holds of the break and the list. -/
structure Recorded (base : Nat) (s : Nat × List Range) : Prop where
  brk_le : base ≤ s.1 ∧ s.1 ≤ base + maxHeap
  inHeap : ∀ r ∈ s.2, InHeap base s.1 r
  laminar : Laminar s.2

/-- With an empty heap nothing is accepted. -/
theorem addRange_empty (hbase : 0 < base) (hbelow : base < 2 ^ 32) :
    ∃ c, addRange base (subWord base 1) ranges lo size = .error c := by
  have hlast : subWord base 1 = base - 1 := subWord_of_le (by omega) hbelow
  unfold addRange
  dsimp only
  split_ifs with haligned hout
  · exact ⟨_, rfl⟩
  · exact ⟨_, rfl⟩
  · rw [hlast] at hout
    omega

theorem Recorded.step {s s' : Nat × List Range} {e : RangeEvent} (hbase : 0 < base)
    (hbelow : base + maxHeap < 2 ^ 32) (h : Recorded base s) (hstep : RangeStep base s e s') :
    Recorded base s' := by
  cases hstep with
  | @add brk lo size ranges ranges' hpos hsize hlo hadd =>
    have hbrk : base < brk := by
      rcases Nat.lt_or_eq_of_le h.brk_le.1 with hlt | heq
      · exact hlt
      · dsimp only at heq
        subst heq
        obtain ⟨c, herror⟩ : ∃ c, addRange base (subWord base 1) ranges lo size = .error c :=
          addRange_empty hbase (by unfold maxHeap at hbelow; omega)
        rw [herror] at hadd
        cases hadd
    have hranges : ∀ p ∈ ranges, p.lo ≤ p.hi := fun p hp ↦ (h.inHeap p hp).2.2.1
    obtain ⟨hin, hclear, rfl⟩ :=
      (addRange_eq_ok_iff hpos hsize hlo hbrk h.brk_le.2 hbelow hranges).mp hadd
    exact ⟨h.brk_le, List.forall_mem_cons.mpr ⟨hin, h.inHeap⟩,
      List.pairwise_cons.mpr ⟨hclear, h.laminar⟩⟩
  | @remove brk ranges lo =>
    have hsub : (removeRange ranges lo).Sublist ranges := List.eraseP_sublist
    exact ⟨h.brk_le, fun r hr ↦ h.inHeap r (hsub.subset hr), h.laminar.sublist hsub⟩
  | sbrk incr hroom =>
    obtain ⟨hlow, -⟩ := h.brk_le
    refine ⟨⟨by dsimp only at hlow ⊢; omega, hroom⟩, fun r hr ↦ ?_, h.laminar⟩
    obtain ⟨haligned, hfirst, hle, hlast⟩ := h.inHeap r hr
    exact ⟨haligned, hfirst, hle, by dsimp only at hlast ⊢; omega⟩
  | reset => exact ⟨⟨Nat.le_refl _, by simp⟩, by simp, List.Pairwise.nil⟩

/-- Whatever the package under test does, the recorded payloads are aligned, lie in the heap, and any
two of them are apart or the newer one encloses the older one. The next payload is accepted just if
this stays so. -/
theorem recorded_laminar {events : List RangeEvent} {s : Nat × List Range} (hbase : 0 < base)
    (hbelow : base + maxHeap < 2 ^ 32)
    (h : Run (fun s ↦ s = (base, [])) (RangeStep base) events s) :
    (∀ r ∈ s.2, InHeap base s.1 r) ∧ Laminar s.2 ∧
      ∀ lo size, 0 < size → size < 2 ^ 31 → lo < 2 ^ 32 → base < s.1 →
        ((∃ ranges', addRange base (subWord s.1 1) s.2 lo size = .ok ranges') ↔
          InHeap base s.1 ⟨lo, lo + size - 1⟩ ∧ Laminar (⟨lo, lo + size - 1⟩ :: s.2)) := by
  have hinitial : Recorded base (base, []) :=
    ⟨⟨Nat.le_refl _, by simp⟩, by simp, List.Pairwise.nil⟩
  have hrecorded : Recorded base s := h.invariant (fun t ht ↦ ht ▸ hinitial)
    fun t e t' ht hstep ↦ ht.step hbase hbelow hstep
  refine ⟨hrecorded.inHeap, hrecorded.laminar, fun lo size hpos hsize hlo hbrk ↦ ?_⟩
  have hranges : ∀ p ∈ s.2, p.lo ≤ p.hi := fun p hp ↦ (hrecorded.inHeap p hp).2.2.1
  simp only [addRange_eq_ok_iff hpos hsize hlo hbrk hrecorded.brk_le.2 hbelow hranges]
  unfold Laminar
  rw [List.pairwise_cons]
  constructor
  · rintro ⟨ranges', hin, hclear, -⟩
    exact ⟨hin, hclear, hrecorded.laminar⟩
  · rintro ⟨hin, hclear, -⟩
    exact ⟨_, hin, hclear, rfl⟩

/-- A payload of twenty-four bytes around one of eight is recorded. -/
theorem recorded_laminar_enclosing :
    Laminar [⟨4096, 4119⟩, ⟨4104, 4111⟩] ∧ ¬ Apart ⟨4096, 4119⟩ ⟨4104, 4111⟩ := by
  have hstart : Run (fun s ↦ s = (4096, [])) (RangeStep 4096) [] (4096, []) := .start rfl
  have hgrown := hstart.step (.sbrk 64 (by decide))
  have hadd : RangeStep 4096 (4096 + 64, []) (.add 4104 8) (4160, [⟨4104, 4111⟩]) :=
    .add (by decide) (by decide) (by decide) rfl
  have hadd' : RangeStep 4096 (4160, [⟨4104, 4111⟩]) (.add 4096 24)
      (4160, [⟨4096, 4119⟩, ⟨4104, 4111⟩]) := .add (by decide) (by decide) (by decide) rfl
  exact ⟨(recorded_laminar (by decide) (by decide) ((hgrown.step hadd).step hadd')).2.1, by decide⟩

end SystemProgramming.MemoryLab.Driver
