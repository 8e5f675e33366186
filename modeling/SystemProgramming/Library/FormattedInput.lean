import Mathlib.Algebra.Order.Ring.Int
import Mathlib.Data.List.TakeWhile
import SystemProgramming.Library.Scanning

/-!
# Formatted input from a stream

The conversions of `fscanf`, each with what it leaves of the stream: `%d` (`readInt`), `%u`
(`readUnsigned`) and `%s` (`readWord`). They pass over white space and then take as many bytes as
match. A number that is too large for thirty-two bits becomes the largest one, and `%u` takes a
negative number modulo `2 ^ 32`.

`Spells tokens text` says that a text is made of these tokens, with white space of any length between
them. From such a text a conversion reads the first token and leaves a text of the other tokens.
-/

set_option autoImplicit false
set_option relaxedAutoImplicit false

namespace SystemProgramming.Library

/-! ### Conversions -/

/-- A sign, a numeral in base ten, and the rest of the stream. -/
def readNumeral (s : List UInt8) : Option (Bool × Nat × List UInt8) :=
  let s := s.dropWhile isSpace
  let negative := s.head? = some 45
  let s := if s.head? = some 45 ∨ s.head? = some 43 then s.tail else s
  let digits := s.takeWhile (isDigit 10)
  if digits = [] then none
  else some (negative, numeral 10 digits, s.dropWhile (isDigit 10))

/-- `%d`. -/
def readInt (s : List UInt8) : Option (Int × List UInt8) :=
  (readNumeral s).map fun (negative, n, rest) ↦
    (if negative then max (-(n : Int)) (-2 ^ 31) else min (n : Int) (2 ^ 31 - 1), rest)

/-- `%u`. -/
def readUnsigned (s : List UInt8) : Option (Nat × List UInt8) :=
  (readNumeral s).map fun (negative, n, rest) ↦
    (if 2 ^ 32 ≤ n then 2 ^ 32 - 1 else if negative then (2 ^ 32 - n) % 2 ^ 32 else n, rest)

/-- `%s`. There is none at the end of the stream. -/
def readWord (s : List UInt8) : Option (List UInt8 × List UInt8) :=
  let s := s.dropWhile isSpace
  let word := s.takeWhile fun c ↦ ¬ isSpace c
  if word = [] then none else some (word, s.dropWhile fun c ↦ ¬ isSpace c)

/-! ### Tokens -/

/-- A token is not empty and has no white space. -/
def IsToken (token : List UInt8) : Prop := token ≠ [] ∧ ∀ c ∈ token, isSpace c = false

/-- A text that is empty or begins with white space. -/
def Breaks (s : List UInt8) : Prop := ∀ c ∈ s.head?, isSpace c = true

/-- A text is made of these tokens, with white space around them. -/
inductive Spells : List (List UInt8) → List UInt8 → Prop
  | nil {blanks : List UInt8} (hblanks : ∀ c ∈ blanks, isSpace c) : Spells [] blanks
  | cons {blanks token rest : List UInt8} {tokens : List (List UInt8)}
      (hblanks : ∀ c ∈ blanks, isSpace c) (htoken : IsToken token) (hbreaks : Breaks rest)
      (hrest : Spells tokens rest) : Spells (token :: tokens) (blanks ++ (token ++ rest))

/-- What is left of a text when a token has been read. -/
structure Left (tokens : List (List UInt8)) (s rest : List UInt8) : Prop where
  spells : Spells tokens rest
  breaks : Breaks rest
  shorter : rest.length < s.length

theorem IsToken.dropWhile {blanks token rest : List UInt8} (h : IsToken token)
    (hblanks : ∀ c ∈ blanks, isSpace c) :
    (blanks ++ (token ++ rest)).dropWhile isSpace = token ++ rest := by
  obtain ⟨c, more, rfl⟩ := List.exists_cons_of_ne_nil h.1
  rw [List.dropWhile_append_of_pos hblanks]
  simp [h.2 c List.mem_cons_self]

theorem IsToken.length_lt {token : List UInt8} (h : IsToken token) (blanks rest : List UInt8) :
    rest.length < (blanks ++ (token ++ rest)).length := by
  have hpos := List.length_pos_of_ne_nil h.1
  rw [List.length_append, List.length_append]
  omega

theorem takeWhile_break {p : UInt8 → Bool} {token rest : List UInt8} (htoken : ∀ c ∈ token, p c)
    (hrest : ∀ c ∈ rest.head?, p c = false) :
    (token ++ rest).takeWhile p = token ∧ (token ++ rest).dropWhile p = rest := by
  rw [List.takeWhile_append_of_pos htoken, List.dropWhile_append_of_pos htoken]
  cases rest with
  | nil => simp
  | cons c rest => simp [hrest c rfl]

/-- The tokens on lines of their own. -/
theorem Spells.lines {tokens : List (List UInt8)} (h : ∀ token ∈ tokens, IsToken token) :
    Spells tokens (tokens.flatMap fun token ↦ 10 :: token) := by
  induction tokens with
  | nil => exact .nil (by simp)
  | cons token tokens ih =>
    rw [List.flatMap_cons]
    have hbreaks : Breaks (tokens.flatMap fun token ↦ 10 :: token) := by
      cases tokens with
      | nil => simp [Breaks]
      | cons next tokens =>
        intro c hc
        obtain rfl : 10 = c := Option.some.inj hc
        rfl
    have hblank : ∀ c ∈ [(10 : UInt8)], isSpace c = true := by
      intro c hc
      rw [List.mem_singleton.mp hc]
      rfl
    exact Spells.cons hblank (h token List.mem_cons_self) hbreaks
      (ih fun t ht ↦ h t (List.mem_cons_of_mem _ ht))

/-- At the end of the tokens no word is read. -/
theorem readWord_nil {s : List UInt8} (h : Spells [] s) : readWord s = none := by
  cases h with
  | nil hblanks =>
    have hdrop : s.dropWhile isSpace = [] := List.dropWhile_eq_nil_iff.mpr hblanks
    rw [readWord, hdrop]
    rfl

theorem readWord_cons {token s : List UInt8} {tokens : List (List UInt8)}
    (h : Spells (token :: tokens) s) :
    ∃ rest, readWord s = some (token, rest) ∧ Left tokens s rest := by
  cases h with
  | @cons blanks _ rest _ hblanks htoken hbreaks hrest =>
    have hword : ∀ c ∈ token, decide (¬ isSpace c) = true := fun c hc ↦ by simp [htoken.2 c hc]
    have hstop : ∀ c ∈ rest.head?, decide (¬ isSpace c) = false := fun c hc ↦ by simp [hbreaks c hc]
    obtain ⟨htake, hdrop⟩ := takeWhile_break hword hstop
    refine ⟨rest, ?_, hrest, hbreaks, htoken.length_lt blanks rest⟩
    unfold readWord
    dsimp only
    rw [htoken.dropWhile hblanks, htake, hdrop, if_neg htoken.1]

/-! ### Numbers as tokens -/

/-- An integer in decimal digits. -/
def intToken (n : Int) : List UInt8 := if n < 0 then 45 :: decimal n.natAbs else decimal n.natAbs

theorem isDigit_of_isSpace {c : UInt8} (h : isSpace c = true) : isDigit 10 c = false := by
  by_contra hdigit
  rw [Bool.not_eq_false] at hdigit
  have hspace := (isDigit.ne hdigit).1
  rw [h] at hspace
  cases hspace

theorem readNumeral_cons {n : Int} {s : List UInt8} {tokens : List (List UInt8)}
    (h : Spells (intToken n :: tokens) s) :
    ∃ rest, readNumeral s = some (decide (n < 0), n.natAbs, rest) ∧ Left tokens s rest := by
  cases h with
  | @cons blanks _ rest _ hblanks htoken hbreaks hrest =>
    obtain ⟨htake, hdrop⟩ := takeWhile_break (isDigit_decimal n.natAbs)
      fun c hc ↦ isDigit_of_isSpace (hbreaks c hc)
    refine ⟨rest, ?_, hrest, hbreaks, htoken.length_lt blanks rest⟩
    unfold readNumeral
    dsimp only
    rw [htoken.dropWhile hblanks]
    unfold intToken
    by_cases hn : n < 0
    · simp [hn, htake, hdrop, decimal_ne_nil, numeral_decimal]
    · obtain ⟨d, more, hdigits⟩ := List.exists_cons_of_ne_nil (decimal_ne_nil n.natAbs)
      have hd : isDigit 10 d := isDigit_decimal n.natAbs d (hdigits ▸ List.mem_cons_self)
      obtain ⟨-, hminus, hplus, -⟩ := isDigit.ne hd
      have hhead : (decimal n.natAbs ++ rest).head? = some d := by
        rw [hdigits]
        rfl
      have hsign : ¬ (some d = some 45 ∨ some d = some (43 : UInt8)) := by simp [hminus, hplus]
      have hpositive : ¬ some d = some (45 : UInt8) := by simp [hminus]
      simp only [if_neg hn, hhead, if_neg hsign, htake, hdrop, if_neg (decimal_ne_nil _),
        numeral_decimal, decide_eq_false hpositive, decide_eq_false hn]

/-- `%d` reads an `int`. -/
theorem readInt_cons {n : Int} {s : List UInt8} {tokens : List (List UInt8)}
    (hlow : -2 ^ 31 ≤ n) (hhigh : n < 2 ^ 31) (h : Spells (intToken n :: tokens) s) :
    ∃ rest, readInt s = some (n, rest) ∧ Left tokens s rest := by
  obtain ⟨rest, hread, hrest⟩ := readNumeral_cons h
  refine ⟨rest, ?_, hrest⟩
  rw [readInt, hread]
  simp only [Option.map_some, decide_eq_true_eq, Option.some.injEq, Prod.mk.injEq, and_true]
  split_ifs <;> omega

/-- `%u` reads an `unsigned int`. -/
theorem readUnsigned_cons {n : Nat} {s : List UInt8} {tokens : List (List UInt8)}
    (hn : n < 2 ^ 32) (h : Spells (intToken n :: tokens) s) :
    ∃ rest, readUnsigned s = some (n, rest) ∧ Left tokens s rest := by
  obtain ⟨rest, hread, hrest⟩ := readNumeral_cons h
  refine ⟨rest, ?_, hrest⟩
  rw [readUnsigned, hread, Option.map_some, Int.natAbs_natCast]
  dsimp only
  rw [if_neg (by omega), if_neg (by simp)]

end SystemProgramming.Library
