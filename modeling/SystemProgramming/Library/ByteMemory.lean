import SystemProgramming.Library.MachineWord

/-!
# Byte memory read and written in little-endian words

A memory maps addresses to bytes. `wordAt` reads the four bytes at an address as one number and
`putWord` writes a number there. A write is read back (`wordAt_putWord_self`), leaves every word
that does not overlap it alone (`wordAt_putWord_of_apart`), and changes no byte outside its four
(`putWord_apply_of_outside`). Words at distinct multiples of four never overlap, so on such
addresses a memory behaves as a map from addresses to numbers (`wordAt_putWord`).
-/

set_option autoImplicit false
set_option relaxedAutoImplicit false

namespace SystemProgramming.Library

/-- A byte for every address. -/
abbrev ByteMemory := Nat → UInt8

/-- The little-endian number in the four bytes at an address. -/
def wordAt (m : ByteMemory) (p : Nat) : Nat :=
  (m p).toNat + 256 * (m (p + 1)).toNat + 65536 * (m (p + 2)).toNat +
    16777216 * (m (p + 3)).toNat

/-- Write a number into the four bytes at an address, low byte first. -/
def putWord (m : ByteMemory) (p v : Nat) : ByteMemory := fun a ↦
  if a = p then UInt8.ofNat v
  else if a = p + 1 then UInt8.ofNat (v / 256)
  else if a = p + 2 then UInt8.ofNat (v / 65536)
  else if a = p + 3 then UInt8.ofNat (v / 16777216)
  else m a

theorem wordAt_lt (m : ByteMemory) (p : Nat) : wordAt m p < 2 ^ 32 := by
  have h₀ := (m p).toNat_lt
  have h₁ := (m (p + 1)).toNat_lt
  have h₂ := (m (p + 2)).toNat_lt
  have h₃ := (m (p + 3)).toNat_lt
  unfold wordAt
  omega

theorem putWord_apply_of_outside (m : ByteMemory) {p a : Nat} (v : Nat)
    (h : a < p ∨ p + 4 ≤ a) : putWord m p v a = m a := by
  unfold putWord
  rw [if_neg (by omega), if_neg (by omega), if_neg (by omega), if_neg (by omega)]

/-- Two memories with the same four bytes at an address hold the same word there. -/
theorem wordAt_congr {m m' : ByteMemory} {q : Nat}
    (h : ∀ a, q ≤ a → a < q + 4 → m' a = m a) : wordAt m' q = wordAt m q := by
  unfold wordAt
  rw [h q (by omega) (by omega), h (q + 1) (by omega) (by omega), h (q + 2) (by omega) (by omega),
    h (q + 3) (by omega) (by omega)]

/-- The bytes of a word are determined by it. -/
theorem eq_of_wordAt_eq {m m' : ByteMemory} {p a : Nat} (h : wordAt m p = wordAt m' p)
    (hlow : p ≤ a) (hhigh : a < p + 4) : m a = m' a := by
  have hbyte := fun i ↦ (m (p + i)).toNat_lt
  have hbyte' := fun i ↦ (m' (p + i)).toNat_lt
  have h₀ := hbyte 0
  have h₀' := hbyte' 0
  have h₁ := hbyte 1
  have h₁' := hbyte' 1
  have h₂ := hbyte 2
  have h₂' := hbyte' 2
  unfold wordAt at h
  rw [Nat.add_zero] at h₀ h₀'
  rw [← UInt8.toNat_inj]
  obtain rfl | rfl | rfl | rfl : a = p ∨ a = p + 1 ∨ a = p + 2 ∨ a = p + 3 := by omega
  all_goals omega

theorem wordAt_putWord_self (m : ByteMemory) (p : Nat) {v : Nat} (hv : v < 2 ^ 32) :
    wordAt (putWord m p v) p = v := by
  have h₁ : ¬ p + 1 = p := by omega
  have h₂ : ¬ p + 2 = p := by omega
  have h₃ : ¬ p + 3 = p := by omega
  simp only [wordAt, putWord, if_true, h₁, h₂, h₃, if_false, Nat.add_left_cancel_iff,
    show ¬ (2 : Nat) = 1 by omega, show ¬ (3 : Nat) = 1 by omega, show ¬ (3 : Nat) = 2 by omega,
    UInt8.toNat_ofNat']
  omega

theorem wordAt_putWord_of_apart (m : ByteMemory) {p q : Nat} (v : Nat)
    (h : q + 4 ≤ p ∨ p + 4 ≤ q) : wordAt (putWord m p v) q = wordAt m q :=
  wordAt_congr fun _ _ _ ↦ putWord_apply_of_outside m v (by omega)

/-- On multiples of four a memory is a map from addresses to words. -/
theorem wordAt_putWord (m : ByteMemory) {p q v : Nat} (hp : p % 4 = 0) (hq : q % 4 = 0)
    (hv : v < 2 ^ 32) : wordAt (putWord m p v) q = if q = p then v else wordAt m q := by
  split_ifs with h
  · rw [h, wordAt_putWord_self m p hv]
  · exact wordAt_putWord_of_apart m v (by omega)

end SystemProgramming.Library
