import Mathlib.Tactic.SplitIfs
import Mathlib.Tactic.Common

/-!
# The size classes of `mm.c`

`getSizeClass` and `getLowerBound` are the source's functions at thirty-two classes. Class `c` holds
the sizes above `getLowerBound c` up to the lower bound of the next class
(`getLowerBound_getSizeClass_lt`, `le_getLowerBound_succ`), so a size exceeds the lower bound of
exactly the classes up to its own (`getLowerBound_lt_iff`), and the class grows with the size
(`getSizeClass_mono`).
-/

set_option autoImplicit false
set_option relaxedAutoImplicit false

namespace SystemProgramming.MemoryLab

/-- `SIZE_CLASS_NUM`. -/
def sizeClassNum : Nat := 32

/-- `get_size_class`. -/
def getSizeClass (asize : Nat) : Nat :=
  if asize ≤ 0x10 then 0
  else if asize ≤ 0x20 then 1
  else if asize ≤ 0x30 then 2
  else if asize ≤ 0x40 then 3
  else if asize ≤ 0x50 then 4
  else if asize ≤ 0x60 then 5
  else if asize ≤ 0x70 then 6
  else if asize ≤ 0x80 then 7
  else if asize ≤ 0xa0 then 8
  else if asize ≤ 0xc0 then 9
  else if asize ≤ 0xe0 then 10
  else if asize ≤ 0x100 then 11
  else if asize ≤ 0x140 then 12
  else if asize ≤ 0x180 then 13
  else if asize ≤ 0x1c0 then 14
  else if asize ≤ 0x200 then 15
  else if asize ≤ 0x280 then 16
  else if asize ≤ 0x300 then 17
  else if asize ≤ 0x380 then 18
  else if asize ≤ 0x400 then 19
  else if asize ≤ 0x500 then 20
  else if asize ≤ 0x600 then 21
  else if asize ≤ 0x700 then 22
  else if asize ≤ 0x800 then 23
  else if asize ≤ 0xc00 then 24
  else if asize ≤ 0x1000 then 25
  else if asize ≤ 0x1800 then 26
  else if asize ≤ 0x2000 then 27
  else if asize ≤ 0x3000 then 28
  else if asize ≤ 0x4000 then 29
  else if asize ≤ 0x5000 then 30
  else 31

/-- `get_lower_bound`. -/
def getLowerBound (cls : Nat) : Nat :=
  match cls with
  | 0 => 0
  | 1 => 0x10
  | 2 => 0x20
  | 3 => 0x30
  | 4 => 0x40
  | 5 => 0x50
  | 6 => 0x60
  | 7 => 0x70
  | 8 => 0x80
  | 9 => 0xa0
  | 10 => 0xc0
  | 11 => 0xe0
  | 12 => 0x100
  | 13 => 0x140
  | 14 => 0x180
  | 15 => 0x1c0
  | 16 => 0x200
  | 17 => 0x280
  | 18 => 0x300
  | 19 => 0x380
  | 20 => 0x400
  | 21 => 0x500
  | 22 => 0x600
  | 23 => 0x700
  | 24 => 0x800
  | 25 => 0xc00
  | 26 => 0x1000
  | 27 => 0x1800
  | 28 => 0x2000
  | 29 => 0x3000
  | 30 => 0x4000
  | 31 => 0x5000
  | _ => 0x7fffffff

/-- `SIZE_CLASS_1` to `SIZE_CLASS_31`, the bounds the two functions compare with. -/
def sizeClassBounds : List Nat :=
  [0x10, 0x20, 0x30, 0x40, 0x50, 0x60, 0x70, 0x80, 0xa0, 0xc0, 0xe0, 0x100, 0x140, 0x180, 0x1c0,
    0x200, 0x280, 0x300, 0x380, 0x400, 0x500, 0x600, 0x700, 0x800, 0xc00, 0x1000, 0x1800, 0x2000,
    0x3000, 0x4000, 0x5000]

/-- The position of the first bound that is not below the size, counted from `first`. -/
def firstBound : List Nat → Nat → Nat → Nat
  | [], first, _ => first
  | bound :: bounds, first, asize => if asize ≤ bound then first else firstBound bounds (first + 1) asize

theorem getSizeClass_eq (asize : Nat) :
    getSizeClass asize = firstBound sizeClassBounds 0 asize := rfl

theorem getLowerBound_eq : ∀ c < 32, (0 :: sizeClassBounds)[c]? = some (getLowerBound c) := by
  decide

/-- The bounds passed over are below the size, and the one stopped at is not. -/
theorem firstBound_split (bounds : List Nat) (first asize : Nat) :
    ∃ below rest, bounds = below ++ rest ∧
      firstBound bounds first asize = first + below.length ∧ (∀ b ∈ below, b < asize) ∧
        ∀ b ∈ rest.head?, asize ≤ b := by
  induction bounds generalizing first with
  | nil => exact ⟨[], [], rfl, rfl, by simp, by simp⟩
  | cons bound bounds ih =>
    by_cases hle : asize ≤ bound
    · exact ⟨[], bound :: bounds, rfl, if_pos hle, by simp, by simpa using hle⟩
    · obtain ⟨below, rest, hsplit, hvalue, hbelow, hrest⟩ := ih (first + 1)
      refine ⟨bound :: below, rest, by rw [hsplit, List.cons_append], ?_, ?_, hrest⟩
      · rw [firstBound, if_neg hle, hvalue, List.length_cons]
        omega
      · intro b hb
        rcases List.mem_cons.mp hb with rfl | hb
        · omega
        · exact hbelow b hb

/-- The bounds on either side of the class of a size. -/
theorem getSizeClass_split (asize : Nat) :
    ∃ below rest, sizeClassBounds = below ++ rest ∧ getSizeClass asize = below.length ∧
      (∀ b ∈ below, b < asize) ∧ ∀ b ∈ rest.head?, asize ≤ b := by
  obtain ⟨below, rest, hsplit, hvalue, hbelow, hrest⟩ := firstBound_split sizeClassBounds 0 asize
  exact ⟨below, rest, hsplit, by rw [getSizeClass_eq, hvalue, Nat.zero_add], hbelow, hrest⟩

theorem getSizeClass_lt (asize : Nat) : getSizeClass asize < sizeClassNum := by
  obtain ⟨below, rest, hsplit, hvalue, -⟩ := getSizeClass_split asize
  have hlength := congrArg List.length hsplit
  rw [List.length_append] at hlength
  have htotal : sizeClassBounds.length = 31 := rfl
  unfold sizeClassNum
  omega

/-- A positive size exceeds the lower bound of its class. -/
theorem getLowerBound_getSizeClass_lt {asize : Nat} (h : 0 < asize) :
    getLowerBound (getSizeClass asize) < asize := by
  have hlower := getLowerBound_eq _ (getSizeClass_lt asize)
  obtain ⟨below, rest, hsplit, hvalue, hbelow, -⟩ := getSizeClass_split asize
  rw [hvalue] at hlower ⊢
  rcases List.eq_nil_or_concat below with rfl | ⟨below, b, rfl⟩
  · simpa [getLowerBound] using h
  · rw [hsplit] at hlower
    have hb : b = getLowerBound (below.concat b).length := by simpa using hlower
    rw [← hb]
    exact hbelow b (by simp)

/-- A size does not exceed the lower bound of the class above its own. -/
theorem le_getLowerBound_succ {asize : Nat} (h : getSizeClass asize < 31) :
    asize ≤ getLowerBound (getSizeClass asize + 1) := by
  have hlower := getLowerBound_eq (getSizeClass asize + 1) (by omega)
  obtain ⟨below, rest, hsplit, hvalue, -, hrest⟩ := getSizeClass_split asize
  rw [hvalue, hsplit, List.getElem?_cons_succ, List.getElem?_append_right (Nat.le_refl _), Nat.sub_self,
    ← List.head?_eq_getElem?] at hlower
  rw [hvalue]
  exact hrest _ hlower

theorem getLowerBound_mono : ∀ d < 32, ∀ c ≤ d, getLowerBound c ≤ getLowerBound d := by
  decide

/-- A size exceeds the lower bounds of the classes up to its own, and of no others. -/
theorem getLowerBound_lt_iff {asize c : Nat} (hsize : 0 < asize) (hc : c < 32) :
    getLowerBound c < asize ↔ c ≤ getSizeClass asize := by
  have hclass := getSizeClass_lt asize
  unfold sizeClassNum at hclass
  constructor
  · intro hlower
    by_contra hlt
    have hnext := le_getLowerBound_succ (show getSizeClass asize < 31 by omega)
    have hmono := getLowerBound_mono c hc (getSizeClass asize + 1) (by omega)
    omega
  · intro hle
    have hmono := getLowerBound_mono (getSizeClass asize) hclass c hle
    have hown := getLowerBound_getSizeClass_lt hsize
    omega

theorem getSizeClass_mono {a b : Nat} (ha : 0 < a) (hab : a ≤ b) :
    getSizeClass a ≤ getSizeClass b := by
  have hclass := getSizeClass_lt a
  have hown := getLowerBound_getSizeClass_lt ha
  exact (getLowerBound_lt_iff (by omega) hclass).mp (by omega)

end SystemProgramming.MemoryLab
