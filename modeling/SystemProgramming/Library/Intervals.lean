import Mathlib.Algebra.Order.Ring.Int
import Mathlib.Data.List.Nodup
import Mathlib.Order.Interval.Finset.Nat

/-!
# Intervals without an overlap

An interval of natural numbers is given by its start and its length. Intervals of which no two
overlap, all between two bounds, are together no longer than the bounds are apart (`total_le`).
-/

set_option autoImplicit false
set_option relaxedAutoImplicit false

namespace SystemProgramming.Library

/-- The intervals have different starts, and no two overlap. -/
structure Separated (intervals : List (Nat × Nat)) : Prop where
  nodup : (intervals.map Prod.fst).Nodup
  disjoint : ∀ p n q k, (p, n) ∈ intervals → (q, k) ∈ intervals → p ≠ q → p + n ≤ q ∨ q + k ≤ p

/-- The length of the intervals together. -/
def totalLength (intervals : List (Nat × Nat)) : Nat := (intervals.map Prod.snd).sum

@[simp] theorem totalLength_nil : totalLength [] = 0 := rfl

@[simp] theorem totalLength_cons (p n : Nat) (intervals : List (Nat × Nat)) :
    totalLength ((p, n) :: intervals) = n + totalLength intervals := by
  simp [totalLength]

/-- The numbers in the intervals. -/
def covered : List (Nat × Nat) → Finset Nat
  | [] => ∅
  | (p, n) :: rest => Finset.Ico p (p + n) ∪ covered rest

variable {intervals : List (Nat × Nat)}

theorem mem_covered {a : Nat} :
    a ∈ covered intervals ↔ ∃ p n, (p, n) ∈ intervals ∧ p ≤ a ∧ a < p + n := by
  induction intervals with
  | nil => simp [covered]
  | cons e rest ih =>
    obtain ⟨p, n⟩ := e
    rw [covered, Finset.mem_union, Finset.mem_Ico, ih]
    simp only [List.mem_cons, Prod.mk.injEq]
    constructor
    · rintro (hin | ⟨q, k, hq, hin⟩)
      · exact ⟨p, n, Or.inl ⟨rfl, rfl⟩, hin⟩
      · exact ⟨q, k, Or.inr hq, hin⟩
    · rintro ⟨q, k, ⟨rfl, rfl⟩ | hq, hin⟩
      · exact Or.inl hin
      · exact Or.inr ⟨q, k, hq, hin⟩

theorem Separated.tail {e : Nat × Nat} (h : Separated (e :: intervals)) : Separated intervals where
  nodup := (List.nodup_cons.mp h.nodup).2
  disjoint := fun p n q k hp hq ↦
    h.disjoint p n q k (List.mem_cons_of_mem _ hp) (List.mem_cons_of_mem _ hq)

/-- Intervals without an overlap cover as many numbers as they are long. -/
theorem Separated.card_covered (h : Separated intervals) :
    (covered intervals).card = totalLength intervals := by
  induction intervals with
  | nil => rfl
  | cons e rest ih =>
    obtain ⟨p, n⟩ := e
    have hapart : Disjoint (Finset.Ico p (p + n)) (covered rest) := by
      rw [Finset.disjoint_left]
      intro a ha hrest
      obtain ⟨q, k, hq, hlow, hhigh⟩ := mem_covered.mp hrest
      have hne : p ≠ q := fun heq ↦
        (List.nodup_cons.mp h.nodup).1 (List.mem_map.mpr ⟨(q, k), hq, heq.symm⟩)
      have hclear := h.disjoint p n q k List.mem_cons_self (List.mem_cons_of_mem _ hq) hne
      rw [Finset.mem_Ico] at ha
      omega
    rw [covered, Finset.card_union_of_disjoint hapart, Nat.card_Ico, ih h.tail, totalLength_cons]
    omega

/-- Intervals without an overlap between two bounds. -/
theorem Separated.total_le (h : Separated intervals) {first last : Nat}
    (hbounds : ∀ p n, (p, n) ∈ intervals → first ≤ p ∧ p + n ≤ last) :
    totalLength intervals ≤ last - first := by
  rw [← h.card_covered, ← Nat.card_Ico]
  refine Finset.card_le_card fun a ha ↦ ?_
  obtain ⟨p, n, hp, hlow, hhigh⟩ := mem_covered.mp ha
  have hbound := hbounds p n hp
  rw [Finset.mem_Ico]
  omega

end SystemProgramming.Library
