import Mathlib.Data.List.TakeWhile
import SystemProgramming.Library.ByteMemory

/-!
# C strings in a byte memory

`StringAt m p s` says that the bytes from address `p` on are those of `s`, none of them zero, and
then a zero byte. A string that is written is there (`stringAt_putString`), a suffix of a string is
a string (`StringAt.drop`), and so is a prefix once a zero byte is written behind it
(`StringAt.cut`). What is written elsewhere leaves a string alone (`StringAt.congr`).

`bytesAt` and `putBytes` read and write bytes whatever they are. Of bytes that a zero byte follows the
string functions see those before the first zero byte, which are `cstr` of them (`stringAt_cstr`).

`strlen`, `strchr` and `skip` go from an address upwards, and so does `readString`. They are given
the number of bytes that they may read, and there is no result if they would read on.
-/

set_option autoImplicit false
set_option relaxedAutoImplicit false

namespace SystemProgramming.Library

/-- The bytes of a string at an address, and a zero byte after them. -/
def StringAt (m : ByteMemory) : Nat → List UInt8 → Prop
  | p, [] => m p = 0
  | p, c :: s => m p = c ∧ c ≠ 0 ∧ StringAt m (p + 1) s

/-- Write a string and a zero byte. -/
def putString (m : ByteMemory) (p : Nat) (s : List UInt8) : ByteMemory := fun a ↦
  if a < p then m a
  else if h : a - p < s.length then s[a - p]
  else if a = p + s.length then 0
  else m a

/-- The bytes from an address on. -/
def bytesAt (m : ByteMemory) : Nat → Nat → List UInt8
  | _, 0 => []
  | p, n + 1 => m p :: bytesAt m (p + 1) n

/-- Write bytes. -/
def putBytes (m : ByteMemory) : Nat → List UInt8 → ByteMemory
  | _, [] => m
  | p, c :: s => Function.update (putBytes m (p + 1) s) p c

/-- The bytes before the first zero byte. -/
def cstr (s : List UInt8) : List UInt8 := s.takeWhile (· ≠ 0)

theorem cstr_eq_self {s : List UInt8} (h : 0 ∉ s) : cstr s = s := by
  rw [cstr, List.takeWhile_eq_self_iff]
  intro c hc
  exact decide_eq_true fun hzero ↦ h (hzero ▸ hc)

theorem cstr_append_zero {s t : List UInt8} (h : 0 ∉ s) : cstr (s ++ 0 :: t) = s := by
  rw [cstr, List.takeWhile_append_of_pos]
  · simp
  · intro c hc
    exact decide_eq_true fun hzero ↦ h (hzero ▸ hc)

theorem zero_not_mem_cstr (s : List UInt8) : 0 ∉ cstr s := fun h ↦ by
  simpa using List.mem_takeWhile_imp h

theorem length_cstr_le (s : List UInt8) : (cstr s).length ≤ s.length :=
  (List.takeWhile_prefix _).length_le

section StringAt

variable {m m' : ByteMemory} {p : Nat} {c : UInt8} {s t : List UInt8}

/-- Only the bytes of the string and the zero byte matter. -/
theorem StringAt.congr (h : StringAt m p s) (heq : ∀ a, p ≤ a → a ≤ p + s.length → m' a = m a) :
    StringAt m' p s := by
  induction s generalizing p with
  | nil => exact (heq p le_rfl (by simp)).trans h
  | cons c s ih =>
    obtain ⟨hc, hne, hrest⟩ := h
    refine ⟨(heq p le_rfl (by omega)).trans hc, hne, ih hrest fun a hlow hhigh ↦ heq a (by omega) ?_⟩
    rw [List.length_cons]
    omega

theorem StringAt.drop (h : StringAt m p (s ++ t)) : StringAt m (p + s.length) t := by
  induction s generalizing p with
  | nil => exact h
  | cons c s ih =>
    have hrest := ih h.2.2
    rwa [show p + (c :: s).length = p + 1 + s.length by rw [List.length_cons]; omega]

/-- A zero byte behind the first bytes of a string ends it there. -/
theorem StringAt.cut (h : StringAt m p (s ++ c :: t)) :
    StringAt (Function.update m (p + s.length) 0) p s := by
  induction s generalizing p with
  | nil => exact Function.update_self p 0 m
  | cons d s ih =>
    obtain ⟨hd, hne, hrest⟩ := h
    refine ⟨?_, hne, ?_⟩
    · rw [Function.update_of_ne (by rw [List.length_cons]; omega)]
      exact hd
    · rw [show p + (d :: s).length = p + 1 + s.length by rw [List.length_cons]; omega]
      exact ih hrest

/-- Change a byte of a string. -/
theorem StringAt.set (h : StringAt m p (s ++ c :: t)) {d : UInt8} (hd : d ≠ 0) :
    StringAt (Function.update m (p + s.length) d) p (s ++ d :: t) := by
  induction s generalizing p with
  | nil =>
    refine ⟨Function.update_self p d m, hd, h.2.2.congr fun a hlow hhigh ↦ ?_⟩
    exact Function.update_of_ne (by rw [List.length_nil]; omega) _ _
  | cons e s ih =>
    obtain ⟨he, hne, hrest⟩ := h
    refine ⟨?_, hne, ?_⟩
    · rw [Function.update_of_ne (by rw [List.length_cons]; omega)]
      exact he
    · rw [show p + (e :: s).length = p + 1 + s.length by rw [List.length_cons]; omega]
      exact ih hrest

theorem StringAt.head (h : StringAt m p s) : m p = s.head?.getD 0 := by
  cases s with
  | nil => exact h
  | cons c s => exact h.1

theorem stringAt_putString (m : ByteMemory) (p : Nat) (hs : (0 : UInt8) ∉ s) :
    StringAt (putString m p s) p s := by
  suffices hsuffix : ∀ front back : List UInt8, front ++ back = s →
      StringAt (putString m p s) (p + front.length) back from hsuffix [] s rfl
  intro front back heq
  induction back generalizing front with
  | nil =>
    have hlength : front.length = s.length := by rw [← heq, List.append_nil]
    simp [StringAt, putString, hlength]
  | cons c back ih =>
    subst heq
    refine ⟨?_, fun hc ↦ hs (by simp [hc]), ?_⟩
    · simp [putString]
    · have hrest := ih (front ++ [c]) (by simp)
      rwa [List.length_append, List.length_singleton, ← Nat.add_assoc] at hrest

/-- A string put behind a string. -/
theorem StringAt.append (h : StringAt m p s) (ht : (0 : UInt8) ∉ t) :
    StringAt (putString m (p + s.length) t) p (s ++ t) := by
  induction s generalizing p with
  | nil => exact stringAt_putString m p ht
  | cons c s ih =>
    obtain ⟨hc, hne, hrest⟩ := h
    have hlength : p + (c :: s).length = p + 1 + s.length := by
      rw [List.length_cons]
      omega
    refine ⟨?_, hne, ?_⟩
    · rw [putString, if_pos (by rw [hlength]; omega)]
      exact hc
    · rw [hlength]
      exact ih hrest

end StringAt

/-! ### Bytes -/

section Bytes

variable {m m' : ByteMemory} {p n : Nat} {s : List UInt8}

@[simp] theorem length_bytesAt (m : ByteMemory) (p n : Nat) : (bytesAt m p n).length = n := by
  induction n generalizing p with
  | zero => rfl
  | succ n ih => rw [bytesAt, List.length_cons, ih]

theorem bytesAt_congr (h : ∀ a, p ≤ a → a < p + n → m' a = m a) :
    bytesAt m' p n = bytesAt m p n := by
  induction n generalizing p with
  | zero => rfl
  | succ n ih =>
    rw [bytesAt, bytesAt, h p le_rfl (by omega), ih fun a hlow hhigh ↦ h a (by omega) (by omega)]

theorem take_bytesAt (m : ByteMemory) (p n k : Nat) :
    (bytesAt m p n).take k = bytesAt m p (min k n) := by
  induction n generalizing p k with
  | zero => simp [bytesAt]
  | succ n ih =>
    cases k with
    | zero => simp [bytesAt]
    | succ k => rw [bytesAt, List.take_succ_cons, ih, Nat.add_min_add_right, bytesAt]

theorem drop_bytesAt (m : ByteMemory) (p n k : Nat) :
    (bytesAt m p n).drop k = bytesAt m (p + k) (n - k) := by
  induction n generalizing p k with
  | zero => simp [bytesAt]
  | succ n ih =>
    cases k with
    | zero => rfl
    | succ k =>
      rw [bytesAt, List.drop_succ_cons, ih, Nat.add_sub_add_right, Nat.add_right_comm,
        Nat.add_assoc]

theorem bytesAt_putBytes (m : ByteMemory) (p : Nat) (s : List UInt8) :
    bytesAt (putBytes m p s) p s.length = s := by
  induction s generalizing p with
  | nil => rfl
  | cons c s ih =>
    rw [List.length_cons, bytesAt, putBytes, Function.update_self]
    refine congrArg (c :: ·) ((bytesAt_congr fun a hlow _ ↦ ?_).trans (ih (p + 1)))
    exact Function.update_of_ne (by omega) _ _

theorem putBytes_update (m : ByteMemory) {p q : Nat} (hpq : p < q) (c : UInt8) (s : List UInt8) :
    putBytes (Function.update m p c) q s = Function.update (putBytes m q s) p c := by
  induction s generalizing q with
  | nil => rfl
  | cons d s ih =>
    have hne : q ≠ p := by omega
    rw [putBytes, putBytes, ih (by omega), Function.update_comm hne.symm]

theorem putBytes_append (m : ByteMemory) (p : Nat) (s t : List UInt8) :
    putBytes m p (s ++ t) = putBytes (putBytes m p s) (p + s.length) t := by
  induction s generalizing p with
  | nil => rfl
  | cons c s ih =>
    rw [List.cons_append, putBytes, putBytes, ih, putBytes_update _ (by rw [List.length_cons]; omega),
      List.length_cons, Nat.add_assoc, Nat.add_comm 1]

/-- The bytes of a string are there. -/
theorem StringAt.prefix_bytesAt (h : StringAt m p s) (hlength : s.length ≤ n) :
    s <+: bytesAt m p n := by
  induction s generalizing p n with
  | nil => exact List.nil_prefix
  | cons c s ih =>
    rw [List.length_cons] at hlength
    obtain ⟨n, rfl⟩ := Nat.exists_eq_add_of_le' (Nat.one_le_of_lt hlength)
    obtain ⟨hc, -, hrest⟩ := h
    rw [bytesAt, hc, List.prefix_cons_inj]
    exact ih hrest (by omega)

/-- Of bytes that a zero byte follows, those before the first zero byte are a string. -/
theorem stringAt_cstr (h : bytesAt m p s.length = s) (hzero : m (p + s.length) = 0) :
    StringAt m p (cstr s) := by
  induction s generalizing p with
  | nil => exact hzero
  | cons c s ih =>
    rw [List.length_cons, bytesAt, List.cons.injEq] at h
    by_cases hc : c = 0
    · have hcstr : cstr (c :: s) = [] := by simp [cstr, hc]
      rw [hcstr]
      exact h.1.trans hc
    · have hcstr : cstr (c :: s) = c :: cstr s := by simp [cstr, hc]
      rw [hcstr]
      refine ⟨h.1, hc, ih h.2 ?_⟩
      rwa [List.length_cons, ← Nat.add_assoc, Nat.add_right_comm] at hzero

end Bytes

/-! ### Going along a string -/

/-- The number of bytes before the zero byte. -/
def strlen (m : ByteMemory) : Nat → Nat → Option Nat
  | 0, _ => none
  | room + 1, p => if m p = 0 then some 0 else (strlen m room (p + 1)).map (· + 1)

/-- The string at an address. -/
def readString (m : ByteMemory) (room p : Nat) : Option (List UInt8) :=
  (strlen m room p).map (bytesAt m p)

/-- The address of the first `c` before the zero byte, or the null pointer. -/
def strchr (m : ByteMemory) (c : UInt8) : Nat → Nat → Option (Option Nat)
  | 0, _ => none
  | room + 1, p => if m p = c then some (some p)
    else if m p = 0 then some none
    else strchr m c room (p + 1)

/-- The first address with another byte than `c`, or with the zero byte. -/
def skip (m : ByteMemory) (c : UInt8) : Nat → Nat → Option Nat
  | 0, _ => none
  | room + 1, p => if m p ≠ 0 ∧ m p = c then skip m c room (p + 1) else some p

variable {m : ByteMemory} {p : Nat} {c : UInt8} {s t : List UInt8}

theorem strlen_eq (room : Nat) (h : StringAt m p s) (hroom : s.length < room) :
    strlen m room p = some s.length := by
  induction s generalizing room p with
  | nil =>
    obtain ⟨room, rfl⟩ := Nat.exists_eq_add_of_lt hroom
    exact if_pos h
  | cons c s ih =>
    obtain ⟨room, rfl⟩ := Nat.exists_eq_succ_of_ne_zero (Nat.ne_zero_of_lt hroom)
    rw [List.length_cons, Nat.succ_lt_succ_iff] at hroom
    rw [Nat.succ_eq_add_one, strlen, if_neg (by rw [h.1]; exact h.2.1), ih room h.2.2 hroom]
    rfl

theorem readString_eq (room : Nat) (h : StringAt m p s) (hroom : s.length < room) :
    readString m room p = some s := by
  have hfirst := h.prefix_bytesAt le_rfl
  rw [readString, strlen_eq room h hroom, Option.map_some,
    (hfirst.eq_of_length (length_bytesAt m p s.length).symm).symm]

/-- The first `c` behind bytes of which none is `c`. -/
theorem strchr_eq_some (room : Nat) (h : StringAt m p (s ++ c :: t)) (hc : c ∉ s)
    (hroom : s.length < room) :
    strchr m c room p = some (some (p + s.length)) := by
  induction s generalizing room p with
  | nil =>
    obtain ⟨room, rfl⟩ := Nat.exists_eq_add_of_lt hroom
    exact if_pos h.1
  | cons d s ih =>
    obtain ⟨room, rfl⟩ := Nat.exists_eq_succ_of_ne_zero (Nat.ne_zero_of_lt hroom)
    rw [List.length_cons, Nat.succ_lt_succ_iff] at hroom
    rw [List.mem_cons, not_or] at hc
    rw [Nat.succ_eq_add_one, strchr, if_neg (by rw [h.1]; exact Ne.symm hc.1),
      if_neg (by rw [h.1]; exact h.2.1), ih room h.2.2 hc.2 hroom, List.length_cons]
    congr 2
    omega

/-- There is no `c` in the string. -/
theorem strchr_eq_none (room : Nat) (h : StringAt m p s) (hc : c ∉ s) (hne : c ≠ 0)
    (hroom : s.length < room) : strchr m c room p = some none := by
  induction s generalizing room p with
  | nil =>
    obtain ⟨room, rfl⟩ := Nat.exists_eq_add_of_lt hroom
    have hzero : m p = 0 := h
    refine (if_neg ?_).trans (if_pos hzero)
    rw [hzero]
    exact Ne.symm hne
  | cons d s ih =>
    obtain ⟨room, rfl⟩ := Nat.exists_eq_succ_of_ne_zero (Nat.ne_zero_of_lt hroom)
    rw [List.length_cons, Nat.succ_lt_succ_iff] at hroom
    rw [List.mem_cons, not_or] at hc
    rw [Nat.succ_eq_add_one, strchr, if_neg (by rw [h.1]; exact Ne.symm hc.1),
      if_neg (by rw [h.1]; exact h.2.1), ih room h.2.2 hc.2 hroom]

/-- Where `c` is found. -/
theorem strchr_range {room q : Nat} (h : strchr m c room p = some (some q)) :
    p ≤ q ∧ q < p + room := by
  induction room generalizing p with
  | zero => cases h
  | succ room ih =>
    rw [strchr] at h
    split_ifs at h with hc hzero
    · cases h
      omega
    · cases h
    · have hrange := ih h
      omega

/-- Over some `c`, to a string that does not begin with one. -/
theorem skip_eq (room : Nat) {n : Nat} (h : StringAt m p (List.replicate n c ++ s))
    (hs : s.head? ≠ some c)
    (hroom : n < room) : skip m c room p = some (p + n) := by
  induction n generalizing room p with
  | zero =>
    obtain ⟨room, rfl⟩ := Nat.exists_eq_add_of_lt hroom
    refine if_neg ?_
    rintro ⟨hne, heq⟩
    cases s with
    | nil => exact hne h
    | cons d s =>
      refine hs ?_
      rw [List.head?_cons, ← heq, ← h.1]
  | succ n ih =>
    obtain ⟨room, rfl⟩ := Nat.exists_eq_succ_of_ne_zero (Nat.ne_zero_of_lt hroom)
    rw [List.replicate_succ, List.cons_append] at h
    rw [Nat.succ_eq_add_one, skip, if_pos ⟨by rw [h.1]; exact h.2.1, h.1⟩, ih room h.2.2 (by omega)]
    congr 1
    omega

/-- The repetitions of `c` at the beginning. -/
theorem exists_replicate_append (c : UInt8) (s : List UInt8) :
    ∃ n t, s = List.replicate n c ++ t ∧ t.head? ≠ some c := by
  induction s with
  | nil => exact ⟨0, [], rfl, by simp⟩
  | cons d s ih =>
    by_cases hd : d = c
    · obtain ⟨n, t, hs, ht⟩ := ih
      exact ⟨n + 1, t, by rw [hd, hs, List.replicate_succ, List.cons_append], ht⟩
    · exact ⟨0, d :: s, rfl, by simpa using hd⟩

end SystemProgramming.Library
