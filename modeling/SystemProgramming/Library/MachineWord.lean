import Mathlib.Data.Nat.Bitwise
import Mathlib.Tactic.NormNum

/-!
# Machine words of thirty-two bits

Unsigned words are natural numbers below `2 ^ 32`. `addWord` and `subWord` are the wrap-around
sum and difference, and `intAdd` is the sum of signed words; `addWord_of_lt` and `subWord_of_le`
say when they are the ordinary ones, and `subWord_of_lt` what the difference is once it wraps.
`and_mask` clears the low bits of a word and `or_low` joins a multiple of a power of two with a
number that fits into the freed bits, which is how a size and its flags share one word.
-/

set_option autoImplicit false
set_option relaxedAutoImplicit false

namespace SystemProgramming.Library

/-- Wrap-around sum. -/
def addWord (a b : Nat) : Nat := (a + b) % 2 ^ 32

/-- Wrap-around difference. -/
def subWord (a b : Nat) : Nat := (a + (2 ^ 32 - b % 2 ^ 32)) % 2 ^ 32

/-- The sum of two `int`s of thirty-two bits, which wraps to the negative numbers. -/
def intAdd (a b : Int) : Int := (a + b).bmod (2 ^ 32)

theorem intAdd_of_lt {a b : Int} (hlow : -2 ^ 31 ≤ a + b) (hhigh : a + b < 2 ^ 31) :
    intAdd a b = a + b := by
  unfold intAdd
  rw [Int.bmod_eq_of_le (by omega) (by omega)]

theorem addWord_of_lt {a b : Nat} (h : a + b < 2 ^ 32) : addWord a b = a + b :=
  Nat.mod_eq_of_lt h

theorem addWord_of_le {a b : Nat} (h : 2 ^ 32 ≤ a + b) (hab : a + b < 2 * 2 ^ 32) :
    addWord a b = a + b - 2 ^ 32 := by
  unfold addWord
  omega

theorem subWord_of_le {a b : Nat} (h : b ≤ a) (ha : a < 2 ^ 32) : subWord a b = a - b := by
  unfold subWord
  omega

theorem subWord_of_lt {a b : Nat} (h : a < b) (hb : b < 2 ^ 32) :
    subWord a b = 2 ^ 32 - (b - a) := by
  unfold subWord
  omega

/-- Clearing the low `k` bits of a word of `n` bits. -/
theorem and_mask {w n k : Nat} (hw : w < 2 ^ n) (hk : k ≤ n) :
    w &&& (2 ^ n - 2 ^ k) = 2 ^ k * (w / 2 ^ k) := by
  have hmask : 2 ^ n - 2 ^ k = 2 ^ k * (2 ^ (n - k) - 1) := by
    rw [Nat.mul_sub, ← pow_add, Nat.add_sub_cancel' hk, mul_one]
  refine Nat.eq_of_testBit_eq fun i ↦ ?_
  rw [hmask, Nat.testBit_and, Nat.testBit_two_pow_mul, Nat.testBit_two_pow_mul,
    Nat.testBit_two_pow_sub_one, Nat.testBit_div_two_pow]
  by_cases hi : k ≤ i
  · rw [Nat.sub_add_cancel hi]
    by_cases hn : i < n
    · have hlt : i - k < n - k := by omega
      simp [hi, hlt]
    · have hbit : w.testBit i = false :=
        Nat.testBit_lt_two_pow (lt_of_lt_of_le hw (Nat.pow_le_pow_right (by norm_num) (by omega)))
      simp [hbit]
  · simp [hi]

/-- Joining a multiple of `2 ^ k` with a number of `k` bits is adding them. -/
theorem or_low {a b k : Nat} (hb : b < 2 ^ k) (ha : a % 2 ^ k = 0) : a ||| b = a + b := by
  obtain ⟨q, rfl⟩ := Nat.dvd_of_mod_eq_zero ha
  exact (Nat.two_pow_add_eq_or_of_lt hb q).symm

/-- The bit of weight two. -/
theorem and_two (w : Nat) : w &&& 2 = 2 * (w / 2 % 2) := by
  have hbit : w / 2 % 2 = (w.testBit 1).toNat := by
    rw [Nat.toNat_testBit, pow_one]
  rw [hbit, Nat.mul_comm]
  exact Nat.and_two_pow w 1

end SystemProgramming.Library
