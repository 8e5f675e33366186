import Mathlib.Data.List.Infix
import Mathlib.Tactic.Common

/-!
# Paths resolved by their components

A path is followed component by component: a name goes one directory down, `..` one up, and an empty
component or `.` nowhere. `resolve` says where it leads, as so many directories above the one it
starts from and then down by names. A path that is above its start once does not come back
(`Place.above_le_foldl`), so it stays below exactly when no beginning of it has more `..` than names
(`resolve_above_eq_zero_iff`).
-/

set_option autoImplicit false
set_option relaxedAutoImplicit false

namespace SystemProgramming.Library

/-- A component of a path. -/
inductive Part (α : Type)
  | here
  | up
  | name (a : α)
  deriving DecidableEq

namespace Part

variable {α : Type}

def isUp : Part α → Bool
  | up => true
  | _ => false

def isName : Part α → Bool
  | name _ => true
  | _ => false

@[simp] theorem isUp_here : (here : Part α).isUp = false := rfl

@[simp] theorem isUp_up : (up : Part α).isUp = true := rfl

@[simp] theorem isUp_name (a : α) : (name a).isUp = false := rfl

@[simp] theorem isName_here : (here : Part α).isName = false := rfl

@[simp] theorem isName_up : (up : Part α).isName = false := rfl

@[simp] theorem isName_name (a : α) : (name a).isName = true := rfl

end Part

/-- A directory: so many above the start, and the names down from there, the last first. -/
structure Place (α : Type) where
  above : Nat
  below : List α
  deriving DecidableEq

variable {α : Type}

/-- Follow a component. -/
def Place.step (p : Place α) : Part α → Place α
  | .here => p
  | .name a => ⟨p.above, a :: p.below⟩
  | .up =>
    match p.below with
    | [] => ⟨p.above + 1, []⟩
    | _ :: below => ⟨p.above, below⟩

/-- Where a path leads. -/
def resolve (parts : List (Part α)) : Place α := parts.foldl Place.step ⟨0, []⟩

/-- No beginning of the path has more `..` than names. -/
def NeverClimbs (parts : List (Part α)) : Prop :=
  ∀ front, front <+: parts → front.countP Part.isUp ≤ front.countP Part.isName

theorem Place.above_le_step (p : Place α) (part : Part α) : p.above ≤ (p.step part).above := by
  obtain ⟨above, below⟩ := p
  cases part with
  | here => exact le_rfl
  | name a => exact le_rfl
  | up =>
    cases below with
    | nil => exact Nat.le_succ above
    | cons a below => exact le_rfl

theorem Place.above_le_foldl (p : Place α) (parts : List (Part α)) :
    p.above ≤ (parts.foldl Place.step p).above := by
  induction parts generalizing p with
  | nil => exact le_rfl
  | cons part parts ih => exact (p.above_le_step part).trans (ih _)

/-- The beginnings of a path with a first component. -/
theorem forall_prefix_cons {P : List (Part α) → Prop} {part : Part α} {parts : List (Part α)} :
    (∀ front, front <+: part :: parts → P front) ↔
      P [] ∧ ∀ front, front <+: parts → P (part :: front) := by
  constructor
  · exact fun h ↦ ⟨h [] List.nil_prefix, fun front hfront ↦
      h (part :: front) ((List.prefix_cons_inj part).mpr hfront)⟩
  · rintro ⟨hnil, hcons⟩ front hfront
    rcases List.prefix_cons_iff.mp hfront with rfl | ⟨rest, rfl, hrest⟩
    · exact hnil
    · exact hcons rest hrest

/-- From below the start, a path does not lead above it when it never goes up more often than there
are directories to leave. -/
theorem foldl_above_eq_zero_iff (below : List α) (parts : List (Part α)) :
    (parts.foldl Place.step ⟨0, below⟩).above = 0 ↔
      ∀ front, front <+: parts →
        front.countP Part.isUp ≤ below.length + front.countP Part.isName := by
  induction parts generalizing below with
  | nil => simp
  | cons part parts ih =>
    rw [List.foldl_cons, forall_prefix_cons]
    cases part with
    | here =>
      rw [Place.step, ih]
      simp
    | name a =>
      have hcount : ∀ front : List (Part α),
          front.countP Part.isUp ≤ (a :: below).length + front.countP Part.isName ↔
            (Part.name a :: front).countP Part.isUp ≤
              below.length + (Part.name a :: front).countP Part.isName := by
        intro front
        rw [List.countP_cons_of_neg (by simp), List.countP_cons_of_pos (by simp),
          List.length_cons, Nat.add_right_comm, Nat.add_assoc]
      rw [Place.step, ih]
      simp only [hcount, List.countP_nil, Nat.zero_le, true_and]
    | up =>
      cases below with
      | nil =>
        have habove := Place.above_le_foldl (⟨1, []⟩ : Place α) parts
        constructor
        · intro hzero
          change (parts.foldl Place.step ⟨1, []⟩).above = 0 at hzero
          change 1 ≤ (parts.foldl Place.step ⟨1, []⟩).above at habove
          rw [hzero] at habove
          exact absurd habove (by decide)
        · intro h
          have hfirst := h.2 [] List.nil_prefix
          simp at hfirst
      | cons a below =>
        have hcount : ∀ front : List (Part α),
            front.countP Part.isUp ≤ below.length + front.countP Part.isName ↔
              (Part.up :: front).countP Part.isUp ≤
                (a :: below).length + (Part.up :: front).countP Part.isName := by
          intro front
          rw [List.countP_cons_of_pos (by simp), List.countP_cons_of_neg (by simp),
            List.length_cons]
          omega
        rw [Place.step, ih]
        simp only [hcount, List.countP_nil, Nat.zero_le, true_and]

theorem resolve_above_eq_zero_iff (parts : List (Part α)) :
    (resolve parts).above = 0 ↔ NeverClimbs parts := by
  rw [resolve, foldl_above_eq_zero_iff]
  simp [NeverClimbs]

/-! ### Texts -/

/-- A component as it is written. -/
def readPart (s : List UInt8) : Part (List UInt8) :=
  if s = [] ∨ s = [46] then .here else if s = [46, 46] then .up else .name s

/-- The components of a path, between the slashes. -/
def readPath (s : List UInt8) : List (Part (List UInt8)) := (s.splitOn 47).map readPart

/-- A path is relative, and leads to the directory where it starts or to one below. -/
def StaysBelow (s : List UInt8) : Prop := s.head? ≠ some 47 ∧ (resolve (readPath s)).above = 0

instance (s : List UInt8) : Decidable (StaysBelow s) := inferInstanceAs (Decidable (_ ∧ _))

theorem staysBelow_iff (s : List UInt8) :
    StaysBelow s ↔ s.head? ≠ some 47 ∧ NeverClimbs (readPath s) := by
  rw [StaysBelow, resolve_above_eq_zero_iff]

/-- A `.` in front of an absolute path leads nowhere. -/
theorem readPath_dot (s : List UInt8) : readPath (46 :: 47 :: s) = readPath (47 :: s) := by
  rw [readPath, readPath, List.splitOn_cons_eq_if_modifyHead, List.splitOn_cons_eq_if_modifyHead]
  simp [readPart]

end SystemProgramming.Library
