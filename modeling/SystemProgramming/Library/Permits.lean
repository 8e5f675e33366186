import Mathlib.Algebra.BigOperators.Group.Finset.Basic
import Mathlib.Algebra.Order.BigOperators.Group.Finset
import Mathlib.Data.Fintype.Basic
import Mathlib.Tactic.Common

/-!
# What threads hold together

Each thread is at a position, and a position holds an amount of something: permits of a semaphore,
shares of a counter. `held amount threads` is what the threads hold together. A step of one thread
changes it by what the thread gains or loses (`held_update`), so that a counter and what is held add
up to the same number throughout a run when each step gives to one what it takes from the other.
-/

set_option autoImplicit false
set_option relaxedAutoImplicit false

namespace SystemProgramming.Library

variable {ι P : Type} [Fintype ι] {amount more : P → Nat} {threads : ι → P}

/-- What the threads hold together. -/
def held (amount : P → Nat) (threads : ι → P) : Nat := ∑ i, amount (threads i)

/-- One thread moves to another position. -/
theorem held_update [DecidableEq ι] (amount : P → Nat) (threads : ι → P) (i : ι) (v : P) :
    held amount (Function.update threads i v) + amount (threads i) =
      held amount threads + amount v := by
  have hafter := Finset.add_sum_erase Finset.univ
    (fun j ↦ amount (Function.update threads i v j)) (Finset.mem_univ i)
  have hbefore := Finset.add_sum_erase Finset.univ (fun j ↦ amount (threads j)) (Finset.mem_univ i)
  have hothers : ∑ j ∈ Finset.univ.erase i, amount (Function.update threads i v j) =
      ∑ j ∈ Finset.univ.erase i, amount (threads j) :=
    Finset.sum_congr rfl fun j hj ↦ by rw [Function.update_of_ne (Finset.ne_of_mem_erase hj)]
  simp only [Function.update_self] at hafter
  unfold held
  omega

theorem held_eq_zero (h : ∀ i, amount (threads i) = 0) : held amount threads = 0 :=
  Finset.sum_eq_zero fun i _ ↦ h i

/-- What one thread holds is part of what all hold. -/
theorem le_held (i : ι) : amount (threads i) ≤ held amount threads :=
  Finset.single_le_sum (f := fun j ↦ amount (threads j)) (fun _ _ ↦ Nat.zero_le _)
    (Finset.mem_univ i)

/-- What two threads hold is part of what all hold. -/
theorem add_le_held [DecidableEq ι] {i j : ι} (hij : i ≠ j) :
    amount (threads i) + amount (threads j) ≤ held amount threads := by
  rw [← Finset.sum_pair (f := fun k ↦ amount (threads k)) hij]
  exact Finset.sum_le_sum_of_subset (Finset.subset_univ _)

theorem held_le_held (h : ∀ p, amount p ≤ more p) : held amount threads ≤ held more threads :=
  Finset.sum_le_sum fun i _ ↦ h (threads i)

end SystemProgramming.Library
