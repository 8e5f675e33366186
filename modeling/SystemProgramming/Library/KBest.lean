import Mathlib.Data.List.Sort
import Mathlib.Order.Bounds.Basic

/-!
# The smallest of the samples so far

Samples arrive one after the other, and only the `k` smallest are kept, in ascending order
(`smallest`). One more sample is put in its place among these, and the last is dropped if there is one
too many (`smallest_cons`): while there is room the list grows by the sample, a sample below the last
one takes its place, and any other changes nothing. The first of the list is the least of all samples
(`isLeast_smallest`).
-/

set_option autoImplicit false
set_option relaxedAutoImplicit false

namespace SystemProgramming.Library

variable {T : Type} [LinearOrder T]

/-- The list with a value put in its place. -/
abbrev inOrder (x : T) (l : List T) : List T := l.orderedInsert (· ≤ ·) x

/-- The `k` smallest of the samples, in ascending order. -/
def smallest (k : Nat) (samples : List T) : List T := (samples.insertionSort (· ≤ ·)).take k

/-- What is in ascending order and holds the same values is the list with the value in its place. -/
theorem eq_inOrder {x : T} {l l' : List T} (hl : l.Pairwise (· ≤ ·)) (hl' : l'.Pairwise (· ≤ ·))
    (hperm : l'.Perm (x :: l)) : l' = inOrder x l :=
  (hperm.trans (List.perm_orderedInsert _ x l).symm).eq_of_pairwise' hl' (hl.orderedInsert x l)

/-- A value that is at least as large as all goes to the end. -/
theorem inOrder_of_le {x : T} {l : List T} (hl : l.Pairwise (· ≤ ·)) (hx : ∀ y ∈ l, y ≤ x) :
    inOrder x l = l ++ [x] := by
  refine (eq_inOrder hl ?_ (List.perm_append_singleton x l)).symm
  rw [List.pairwise_append]
  exact ⟨hl, List.pairwise_singleton _ _, fun y hy z hz ↦ List.mem_singleton.mp hz ▸ hx y hy⟩

/-- A value that is at most as large as the last one goes before it. -/
theorem inOrder_concat {x y : T} {l : List T} (hl : (l ++ [y]).Pairwise (· ≤ ·)) (hx : x ≤ y) :
    inOrder x (l ++ [y]) = inOrder x l ++ [y] := by
  obtain ⟨hfront, -, hlast⟩ := List.pairwise_append.mp hl
  refine (eq_inOrder hl ?_ ((List.perm_orderedInsert _ x l).append_right [y])).symm
  rw [List.pairwise_append]
  refine ⟨hfront.orderedInsert x l, List.pairwise_singleton _ _, fun z hz w hw ↦ ?_⟩
  obtain rfl := List.mem_singleton.mp hw
  rcases (List.mem_orderedInsert _).mp hz with rfl | hz
  · exact hx
  · exact hlast z hz w List.mem_cons_self

/-- What lies behind the first `k` values does not come back among them. -/
theorem take_inOrder (k : Nat) (x : T) (l : List T) :
    (inOrder x (l.take k)).take k = (inOrder x l).take k := by
  induction l generalizing k with
  | nil => simp
  | cons y l ih =>
    cases k with
    | zero => simp
    | succ k =>
      rw [List.take_succ_cons, inOrder, inOrder, List.orderedInsert_cons, List.orderedInsert_cons]
      split_ifs with hxy
      · cases k with
        | zero => simp
        | succ k => simp [List.take_take]
      · rw [List.take_succ_cons, List.take_succ_cons, ih]

theorem pairwise_smallest (k : Nat) (samples : List T) :
    (smallest k samples).Pairwise (· ≤ ·) :=
  (List.pairwise_insertionSort _ samples).sublist (List.take_sublist _ _)

theorem length_smallest (k : Nat) (samples : List T) :
    (smallest k samples).length = min k samples.length := by
  rw [smallest, List.length_take, List.length_insertionSort]

/-- One more sample. -/
theorem smallest_cons (k : Nat) (x : T) (samples : List T) :
    smallest k (x :: samples) = (inOrder x (smallest k samples)).take k := by
  rw [smallest, smallest, take_inOrder]
  rfl

/-- There is room for the sample. -/
theorem smallest_cons_of_lt {k : Nat} {samples : List T} (x : T) (hk : samples.length < k) :
    smallest k (x :: samples) = inOrder x (smallest k samples) := by
  rw [smallest_cons, List.take_of_length_le]
  rw [List.orderedInsert_length, length_smallest]
  omega

/-- A sample below the last one takes its place. -/
theorem smallest_cons_of_last {k : Nat} {x y : T} {samples front : List T}
    (hsmallest : smallest k samples = front ++ [y]) (hk : k ≤ samples.length) (hx : x ≤ y) :
    smallest k (x :: samples) = inOrder x front := by
  have hlength := congrArg List.length hsmallest
  rw [length_smallest, List.length_append, List.length_singleton] at hlength
  rw [smallest_cons, hsmallest, inOrder_concat (hsmallest ▸ pairwise_smallest k samples) hx,
    List.take_append_of_le_length, List.take_of_length_le]
  · rw [List.orderedInsert_length]
    omega
  · rw [List.orderedInsert_length]
    omega

/-- Any other sample changes nothing. -/
theorem smallest_cons_of_not_lt {k : Nat} {x y : T} {samples front : List T}
    (hsmallest : smallest k samples = front ++ [y]) (hk : k ≤ samples.length) (hx : y ≤ x) :
    smallest k (x :: samples) = smallest k samples := by
  have hsorted := pairwise_smallest k samples
  have hall : ∀ z ∈ smallest k samples, z ≤ x := by
    intro z hz
    rw [hsmallest] at hz hsorted
    rcases List.mem_append.mp hz with hz | hz
    · exact ((List.pairwise_append.mp hsorted).2.2 z hz y List.mem_cons_self).trans hx
    · exact List.mem_singleton.mp hz ▸ hx
  rw [smallest_cons, inOrder_of_le hsorted hall, List.take_append_of_le_length, List.take_of_length_le]
  · rw [length_smallest]
    omega
  · rw [length_smallest]
    omega

/-- The first of the list is the least of all samples. -/
theorem isLeast_smallest {k : Nat} {x : T} {samples : List T}
    (h : (smallest k samples)[0]? = some x) : IsLeast {y | y ∈ samples} x := by
  have hsorted := List.pairwise_insertionSort (· ≤ ·) samples
  have hmem : ∀ y, y ∈ samples ↔ y ∈ samples.insertionSort (· ≤ ·) :=
    fun y ↦ (List.mem_insertionSort _).symm
  unfold smallest at h
  cases hlist : samples.insertionSort (· ≤ ·) with
  | nil => simp [hlist] at h
  | cons y rest =>
    rw [hlist] at h hsorted
    have hx : y = x := by
      cases k with
      | zero => simp at h
      | succ k => simpa using h
    subst hx
    refine ⟨(hmem y).mpr (by simp [hlist]), fun z hz ↦ ?_⟩
    have hz' := (hmem z).mp hz
    rw [hlist] at hz'
    rcases List.mem_cons.mp hz' with rfl | hrest
    · exact le_rfl
    · exact List.rel_of_pairwise_cons hsorted hrest

end SystemProgramming.Library
