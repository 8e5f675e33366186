import Mathlib.Data.Int.Notation
import Mathlib.Data.List.Basic

/-!
# Numbers and words at the beginning of a text

The texts are lists of bytes. `scanNumber` reads a number as `sscanf` does: white space, a sign, in
base sixteen perhaps `0x`, and as many digits as there are. A numeral that no further digit follows
is read as its value (`scanNumber_eq`), and the decimal numeral of a number has that value
(`numeral_decimal`). `startsWith` compares as `strncasecmp` does.
-/

set_option autoImplicit false
set_option relaxedAutoImplicit false

namespace SystemProgramming.Library

/-- The bytes of an ASCII text. -/
def ascii (s : String) : List UInt8 := s.toList.map fun c ↦ UInt8.ofNat c.toNat

/-- The lower-case letter for an upper-case one. -/
def toLower (c : UInt8) : UInt8 := if 65 ≤ c ∧ c ≤ 90 then c + 32 else c

/-- The text begins with the word, in upper or lower case. -/
def startsWith (word s : List UInt8) : Prop := (s.take word.length).map toLower = word.map toLower

instance (word s : List UInt8) : Decidable (startsWith word s) :=
  inferInstanceAs (Decidable (_ = _))

theorem startsWith.head {c : UInt8} {word s : List UInt8} (h : startsWith (c :: word) s) :
    s.head?.map toLower = some (toLower c) := by
  simpa [List.head?_take] using congrArg List.head? h

/-- `isspace`. -/
def isSpace (c : UInt8) : Bool := c == 32 || (9 ≤ c && c ≤ 13)

/-- The value of a digit in a base up to sixteen. -/
def digitValue (c : UInt8) : Option Nat :=
  if 48 ≤ c ∧ c ≤ 57 then some (c.toNat - 48)
  else if 65 ≤ c ∧ c ≤ 70 then some (c.toNat - 55)
  else if 97 ≤ c ∧ c ≤ 102 then some (c.toNat - 87)
  else none

def isDigit (base : Nat) (c : UInt8) : Bool := (digitValue c).any (· < base)

/-- The value of a numeral. -/
def numeral (base : Nat) (digits : List UInt8) : Nat :=
  digits.foldl (fun n c ↦ n * base + (digitValue c).getD 0) 0

/-- The digits at the beginning. -/
def scanDigits (base : Nat) (s : List UInt8) : Option Nat :=
  let digits := s.takeWhile (isDigit base)
  if digits = [] then none else some (numeral base digits)

/-- `x` or `X`. -/
def isHexMark (c : UInt8) : Prop := c = 120 ∨ c = 88

instance (c : UInt8) : Decidable (isHexMark c) := inferInstanceAs (Decidable (_ ∨ _))

/-- The digits at the beginning, in base sixteen perhaps after `0x`. -/
def scanUnsigned (base : Nat) (s : List UInt8) : Option Nat :=
  if base = 16 ∧ s.head? = some 48 ∧ ∃ c ∈ s.tail.head?, isHexMark c then scanDigits base (s.drop 2)
  else scanDigits base s

/-- The number that `sscanf` reads. -/
def scanNumber (base : Nat) (s : List UInt8) : Option Int :=
  let s := s.dropWhile isSpace
  if s.head? = some 45 then (scanUnsigned base s.tail).map fun n ↦ -(n : Int)
  else if s.head? = some 43 then (scanUnsigned base s.tail).map Int.ofNat
  else (scanUnsigned base s).map Int.ofNat

/-- A digit is neither white space nor a sign nor `x`. -/
theorem isDigit.ne {base : Nat} {c : UInt8} (h : isDigit base c) :
    isSpace c = false ∧ c ≠ 45 ∧ c ≠ 43 ∧ ¬ isHexMark c := by
  have hrange : (48 ≤ c.toNat ∧ c.toNat ≤ 57) ∨ (65 ≤ c.toNat ∧ c.toNat ≤ 70) ∨
      (97 ≤ c.toNat ∧ c.toNat ≤ 102) := by
    by_contra hnot
    simp only [isDigit, digitValue, UInt8.le_iff_toNat_le, UInt8.reduceToNat] at h
    rw [if_neg (by omega), if_neg (by omega), if_neg (by omega)] at h
    exact absurd h (by simp)
  simp only [isSpace, isHexMark, Bool.or_eq_false_iff, beq_eq_false_iff_ne, Bool.and_eq_false_iff,
    decide_eq_false_iff_not, UInt8.le_iff_toNat_le, ne_eq, ← UInt8.toNat_inj, UInt8.reduceToNat]
  omega

/-- What may stand behind a numeral. -/
def EndsNumeral (base : Nat) (rest : List UInt8) : Prop :=
  ∀ c ∈ rest.head?, isDigit base c = false ∧ ¬ isHexMark c

variable {base : Nat} {blanks digits rest : List UInt8}

theorem scanDigits_eq (hne : digits ≠ []) (hdigits : ∀ c ∈ digits, isDigit base c)
    (hrest : EndsNumeral base rest) :
    scanDigits base (digits ++ rest) = some (numeral base digits) := by
  have htake : (digits ++ rest).takeWhile (isDigit base) = digits := by
    rw [List.takeWhile_append_of_pos hdigits]
    cases rest with
    | nil => simp
    | cons c rest => simp [(hrest c rfl).1]
  rw [scanDigits, htake]
  exact if_neg hne

/-- A numeral does not begin with `0x`. -/
theorem scanUnsigned_eq (hne : digits ≠ []) (hdigits : ∀ c ∈ digits, isDigit base c)
    (hrest : EndsNumeral base rest) :
    scanUnsigned base (digits ++ rest) = some (numeral base digits) := by
  have hmark : ¬ ∃ c ∈ (digits ++ rest).tail.head?, isHexMark c := by
    rintro ⟨c, hc, hx⟩
    match digits, hne with
    | [d], _ => exact (hrest c hc).2 hx
    | d :: e :: more, _ =>
      obtain rfl : e = c := Option.some.inj hc
      exact (isDigit.ne (hdigits e (by simp))).2.2.2 hx
  rw [scanUnsigned, if_neg fun h ↦ hmark h.2.2]
  exact scanDigits_eq hne hdigits hrest

theorem scanNumber_eq (hblanks : ∀ c ∈ blanks, isSpace c) (hne : digits ≠ [])
    (hdigits : ∀ c ∈ digits, isDigit base c) (hrest : EndsNumeral base rest) :
    scanNumber base (blanks ++ (digits ++ rest)) = some (numeral base digits : Int) := by
  obtain ⟨d, more, rfl⟩ := List.exists_cons_of_ne_nil hne
  obtain ⟨hspace, hminus, hplus, -⟩ := isDigit.ne (hdigits d List.mem_cons_self)
  have hdrop : (blanks ++ (d :: more ++ rest)).dropWhile isSpace = d :: more ++ rest := by
    rw [List.dropWhile_append_of_pos hblanks]
    simp [hspace]
  have hhead : (d :: more ++ rest).head? = some d := rfl
  rw [scanNumber, hdrop, hhead, if_neg (by simpa using hminus), if_neg (by simpa using hplus),
    scanUnsigned_eq hne hdigits hrest]
  rfl

/-! ### Decimal numerals -/

theorem isDigit_ten {c : UInt8} (h : isDigit 10 c) : 48 ≤ c ∧ c ≤ 57 := by
  by_contra hnot
  simp only [isDigit, digitValue, UInt8.le_iff_toNat_le, UInt8.reduceToNat] at h hnot
  rw [if_neg hnot] at h
  split_ifs at h with hupper hlower
  · simp only [Option.any_some, decide_eq_true_eq] at h
    omega
  · simp only [Option.any_some, decide_eq_true_eq] at h
    omega
  · exact absurd h (by simp)

/-- A number in decimal digits. -/
def decimal (n : Nat) : List UInt8 := (Nat.toDigits 10 n).map fun c ↦ UInt8.ofNat c.toNat

/-- An integer as `printf` writes it for `%d`. -/
def decimalInt (n : Int) : List UInt8 := if n < 0 then 45 :: decimal n.natAbs else decimal n.natAbs

theorem digitValue_ofNat : ∀ d < 10, digitValue (UInt8.ofNat (48 + d)) = some d := by
  decide

/-- The last digit of a numeral, and the digits before it. -/
theorem decimal_eq (n : Nat) : decimal n =
    if n < 10 then [UInt8.ofNat (48 + n)]
    else decimal (n / 10) ++ [UInt8.ofNat (48 + n % 10)] := by
  unfold decimal
  rw [Nat.toDigits_eq_if (by decide)]
  split_ifs with hn
  · rw [List.map_singleton, Nat.toNat_digitChar_of_lt_ten hn]
  · rw [List.map_append, List.map_singleton, Nat.toNat_digitChar_of_lt_ten (Nat.mod_lt n (by decide))]

theorem decimal_ne_nil (n : Nat) : decimal n ≠ [] := by
  simp [decimal]

theorem isDigit_decimal (n : Nat) : ∀ c ∈ decimal n, isDigit 10 c := by
  induction n using Nat.strongRecOn with
  | _ n ih =>
    have hdigit : ∀ d < 10, isDigit 10 (UInt8.ofNat (48 + d)) := fun d hd ↦ by
      rw [isDigit, digitValue_ofNat d hd]
      simpa using hd
    intro c hc
    rw [decimal_eq] at hc
    split_ifs at hc with hn
    · exact List.mem_singleton.mp hc ▸ hdigit n hn
    · rcases List.mem_append.mp hc with hc | hc
      · exact ih (n / 10) (by omega) c hc
      · exact List.mem_singleton.mp hc ▸ hdigit (n % 10) (Nat.mod_lt n (by decide))

theorem numeral_append (front : List UInt8) (c : UInt8) :
    numeral base (front ++ [c]) = numeral base front * base + (digitValue c).getD 0 := by
  simp [numeral]

theorem numeral_decimal (n : Nat) : numeral 10 (decimal n) = n := by
  induction n using Nat.strongRecOn with
  | _ n ih =>
    rw [decimal_eq]
    split_ifs with hn
    · rw [← List.nil_append [_], numeral_append, digitValue_ofNat n hn]
      exact Nat.zero_add n
    · rw [numeral_append, ih (n / 10) (by omega), digitValue_ofNat _ (Nat.mod_lt n (by decide)),
        Option.getD_some]
      omega

end SystemProgramming.Library
