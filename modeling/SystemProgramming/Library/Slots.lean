import Mathlib.Data.Fin.Tuple.Basic
import Mathlib.Logic.Function.Basic
import Mathlib.Tactic.Common

/-!
# Tables of slots

A table gives each slot an entry. Some entries are in use, and those have keys; `DistinctKeys` says
that no two slots in use have the same one. A slot that is filled keeps the keys distinct exactly
when its own is new (`DistinctKeys.fill`, `DistinctKeys.new_of_fill`), one that is cleared always
does (`DistinctKeys.clear`), and a search in order for a key that is in use finds its slot
(`DistinctKeys.find?_eq`).
-/

set_option autoImplicit false
set_option relaxedAutoImplicit false

namespace SystemProgramming.Library

variable {ι α κ : Type} {used : α → Prop} {key : α → κ} {table : ι → α} {i j : ι} {v : α}

/-- Different slots in use have different keys. -/
def DistinctKeys (used : α → Prop) (key : α → κ) (table : ι → α) : Prop :=
  ∀ i j, used (table i) → used (table j) → key (table i) = key (table j) → i = j

namespace DistinctKeys

theorem of_unused (h : ∀ i, ¬ used (table i)) : DistinctKeys used key table :=
  fun i _ hi ↦ absurd hi (h i)

section Update

variable [DecidableEq ι]

/-- A slot is filled with a new key. -/
theorem fill (h : DistinctKeys used key table)
    (hnew : ∀ j, j ≠ i → used (table j) → key (table j) ≠ key v) :
    DistinctKeys used key (Function.update table i v) := by
  intro j k hj hk hjk
  by_cases hji : j = i
  · by_cases hki : k = i
    · exact hji.trans hki.symm
    · subst hji
      rw [Function.update_of_ne hki] at hk hjk
      rw [Function.update_self] at hjk
      exact absurd hjk.symm (hnew k hki hk)
  · rw [Function.update_of_ne hji] at hj hjk
    by_cases hki : k = i
    · subst hki
      rw [Function.update_self] at hjk
      exact absurd hjk (hnew j hji hj)
    · rw [Function.update_of_ne hki] at hk hjk
      exact h j k hj hk hjk

/-- Where the keys are distinct after a slot has been filled, its key was new. -/
theorem new_of_fill (h : DistinctKeys used key (Function.update table i v)) (hv : used v)
    (hji : j ≠ i) (hj : used (table j)) : key (table j) ≠ key v := by
  intro heq
  refine hji (h j i ?_ ?_ ?_)
  · rwa [Function.update_of_ne hji]
  · rwa [Function.update_self]
  · rwa [Function.update_of_ne hji, Function.update_self]

/-- A slot is cleared. -/
theorem clear (h : DistinctKeys used key table) (hv : ¬ used v) :
    DistinctKeys used key (Function.update table i v) := by
  intro j k hj hk hjk
  by_cases hji : j = i
  · subst hji
    rw [Function.update_self] at hj
    exact absurd hj hv
  · by_cases hki : k = i
    · subst hki
      rw [Function.update_self] at hk
      exact absurd hk hv
    · rw [Function.update_of_ne hji] at hj hjk
      rw [Function.update_of_ne hki] at hk hjk
      exact h j k hj hk hjk

end Update

/-- A search in order finds the slot of a key that no unused slot has. -/
theorem find?_eq {n : Nat} {table : Fin n → α} {i : Fin n} [DecidableEq κ]
    (h : DistinctKeys used key table) (hi : used (table i))
    (hunused : ∀ j, ¬ used (table j) → key (table j) ≠ key (table i)) :
    Fin.find? (fun j ↦ decide (key (table j) = key (table i))) = some i := by
  refine Fin.find?_eq_some_iff.mpr ⟨by simp, fun j hji ↦ ?_⟩
  rw [decide_eq_false_iff_not]
  intro heq
  by_cases hj : used (table j)
  · exact absurd (h j i hj hi heq) (Fin.ne_of_lt hji)
  · exact hunused j hj heq

end DistinctKeys

end SystemProgramming.Library
