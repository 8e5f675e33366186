import Mathlib.Tactic.Common

/-!
# State programs that may fail, and what it is to return

A `Program σ α` reads and changes a state of type `σ` and returns a value of type `α`, or has no
result at all: an access the machine does not define, or a loop that has used up its fuel. `Returns
x s Q` says that `x` started in `s` does have a result and that the result satisfies `Q`; it is a
total-correctness judgement, so a program that fails satisfies no postcondition.

The rules below take a program apart along its binds (`returns_bind`), join specifications of
callees (`Returns.bind`, `Returns.mono`), and move between the judgement and the result it
describes (`returns_iff_of_eq`, `eq_of_returns_iff`). `not_returns_iff` identifies failure.

`Within R P x` is the partial judgement that goes with it: whenever `x` returns, it has changed the
state within `R` and its value satisfies `P`. With `R` reflexive and transitive it follows from the
same judgement of the parts.
-/

set_option autoImplicit false
set_option relaxedAutoImplicit false

namespace SystemProgramming.Library

variable {σ α β : Type}

/-- A program over a state that returns a value or has no result. -/
abbrev Program (σ α : Type) := StateT σ Option α

/-- The program returns from the state, with a value and a final state satisfying `Q`. -/
def Returns (x : Program σ α) (s : σ) (Q : α → σ → Prop) : Prop :=
  ∃ a t, x s = some (a, t) ∧ Q a t

theorem Returns.mono {x : Program σ α} {s : σ} {P Q : α → σ → Prop} (h : Returns x s P)
    (hPQ : ∀ a t, P a t → Q a t) : Returns x s Q := by
  obtain ⟨a, t, hx, hP⟩ := h
  exact ⟨a, t, hx, hPQ a t hP⟩

/-- The judgement read off a known result. -/
theorem returns_iff_of_eq {x : Program σ α} {s t : σ} {a : α} (hx : x s = some (a, t))
    (Q : α → σ → Prop) : Returns x s Q ↔ Q a t := by
  constructor
  · rintro ⟨b, u, hu, hQ⟩
    rw [hx, Option.some.injEq, Prod.mk.injEq] at hu
    obtain ⟨rfl, rfl⟩ := hu
    exact hQ
  · exact fun hQ ↦ ⟨a, t, hx, hQ⟩

/-- A result read off the judgement. -/
theorem eq_of_returns_iff {x : Program σ α} {s t : σ} {a : α}
    (hx : ∀ Q : α → σ → Prop, Returns x s Q ↔ Q a t) : x s = some (a, t) := by
  obtain ⟨b, u, hu, rfl, rfl⟩ := (hx fun b u ↦ b = a ∧ u = t).mpr ⟨rfl, rfl⟩
  exact hu

/-- The result of a program is unique, so two judgements about it hold of the same result. -/
theorem Returns.and {x : Program σ α} {s : σ} {P Q : α → σ → Prop} (hP : Returns x s P)
    (hQ : Returns x s Q) : Returns x s fun a t ↦ P a t ∧ Q a t := by
  obtain ⟨a, t, hx, ha⟩ := hP
  exact ⟨a, t, hx, ha, (returns_iff_of_eq hx Q).mp hQ⟩

/-- A program has no result exactly when it does not return. -/
theorem not_returns_iff {x : Program σ α} {s : σ} :
    (¬ Returns x s fun _ _ ↦ True) ↔ x s = none := by
  cases hx : x s with
  | none => simp [Returns, hx]
  | some r => simpa [Returns, hx] using ⟨r.1, r.2, rfl⟩

@[simp] theorem returns_pure (a : α) (s : σ) (Q : α → σ → Prop) :
    Returns (pure a : Program σ α) s Q ↔ Q a s :=
  returns_iff_of_eq rfl Q

theorem returns_bind (x : Program σ α) (f : α → Program σ β) (s : σ) (Q : β → σ → Prop) :
    Returns (x >>= f) s Q ↔ Returns x s fun a t ↦ Returns (f a) t Q := by
  cases hx : x s with
  | none =>
    have hbind : (x >>= f) s = none := by simp [bind, StateT.bind, hx]
    simp [Returns, hx, hbind]
  | some r =>
    have hbind : (x >>= f) s = f r.1 r.2 := by simp [bind, StateT.bind, hx]
    rw [returns_iff_of_eq (a := r.1) (t := r.2) hx]
    simp only [Returns, hbind]

/-- Sequencing: the callee's postcondition is the precondition of the rest. -/
theorem Returns.bind {x : Program σ α} {f : α → Program σ β} {s : σ} {P : α → σ → Prop}
    {Q : β → σ → Prop} (hx : Returns x s P) (hf : ∀ a t, P a t → Returns (f a) t Q) :
    Returns (x >>= f) s Q :=
  (returns_bind x f s Q).mpr (hx.mono hf)

@[simp] theorem returns_get (s : σ) (Q : σ → σ → Prop) :
    Returns (get : Program σ σ) s Q ↔ Q s s :=
  returns_iff_of_eq rfl Q

@[simp] theorem returns_set (s t : σ) (Q : PUnit → σ → Prop) :
    Returns (set t : Program σ PUnit) s Q ↔ Q ⟨⟩ t :=
  returns_iff_of_eq rfl Q

@[simp] theorem returns_modify (f : σ → σ) (s : σ) (Q : PUnit → σ → Prop) :
    Returns (modify f : Program σ PUnit) s Q ↔ Q ⟨⟩ (f s) :=
  returns_iff_of_eq rfl Q

theorem returns_ite {c : Prop} [Decidable c] (x y : Program σ α) (s : σ) (Q : α → σ → Prop) :
    Returns (if c then x else y) s Q ↔ if c then Returns x s Q else Returns y s Q := by
  split_ifs <;> rfl

/-! ### What a program changes -/

/-- Whenever the program returns, the change of state lies in `R` and the value satisfies `P`. -/
def Within (R : σ → σ → Prop) (P : α → Prop) (x : Program σ α) : Prop :=
  ∀ s a t, x s = some (a, t) → R s t ∧ P a

section Within

variable {R : σ → σ → Prop} {P : α → Prop} {T : β → Prop} {x y : Program σ α}

theorem Within.pure (hrefl : ∀ s, R s s) {a : α} (ha : P a) :
    Within R P (Pure.pure a : Program σ α) := by
  intro s b t hx
  obtain ⟨rfl, rfl⟩ := Prod.mk.inj (Option.some.inj hx)
  exact ⟨hrefl _, ha⟩

theorem Within.bind (htrans : ∀ s t u, R s t → R t u → R s u) {f : α → Program σ β}
    (hx : Within R P x) (hf : ∀ a, P a → Within R T (f a)) : Within R T (x >>= f) := by
  intro s b u hbind
  obtain ⟨a, t, hxa, hfb⟩ := (returns_bind x f s fun c v ↦ c = b ∧ v = u).mp
    ⟨b, u, hbind, rfl, rfl⟩
  obtain ⟨hst, ha⟩ := hx s a t hxa
  obtain ⟨c, v, hfc, rfl, rfl⟩ := hfb
  obtain ⟨htv, hc⟩ := hf a ha t _ _ hfc
  exact ⟨htrans _ _ _ hst htv, hc⟩

theorem Within.ite {c : Prop} [Decidable c] (hx : Within R P x) (hy : Within R P y) :
    Within R P (if c then x else y) := by
  split_ifs
  · exact hx
  · exact hy

/-- What a program changes, added to what it returns. -/
theorem Returns.within {s : σ} {Q : α → σ → Prop} (h : Returns x s Q) (hx : Within R P x) :
    Returns x s fun a t ↦ Q a t ∧ R s t ∧ P a := by
  obtain ⟨a, t, hxa, hQ⟩ := h
  exact ⟨a, t, hxa, hQ, hx s a t hxa⟩

end Within

end SystemProgramming.Library
