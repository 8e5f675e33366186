import Mathlib.Data.List.Basic

/-!
# Runs of a labelled transition system

A system is a predicate for its initial states and a labelled step relation. A `Run` is the list of
labels from an initial state to a state. What holds initially and is preserved by every step holds
at the end of every run (`Run.invariant`), and may be used at every step of it
(`Run.mono_of_invariant`).

`Run.follows` is about a system whose states represent those of a deterministic one: a label shows
either nothing, and the represented state stays, or an input with an output, and the represented
state follows the deterministic system. Two runs that show the same inputs then show the same
outputs and end in states that represent the same (`Run.agree`). `Run.along` is the converse: a
system that can make every move of the deterministic one has a run for each of its traces.
-/

set_option autoImplicit false
set_option relaxedAutoImplicit false

namespace SystemProgramming.Library

variable {S E : Type} {Init : S → Prop} {Step : S → E → S → Prop}

/-- The labels of the steps from an initial state to a state, in order. -/
inductive Run (Init : S → Prop) (Step : S → E → S → Prop) : List E → S → Prop
  | start {s : S} (hinit : Init s) : Run Init Step [] s
  | step {events : List E} {s s' : S} {e : E} (hrun : Run Init Step events s)
      (hstep : Step s e s') : Run Init Step (events ++ [e]) s'

/-- What holds initially and is preserved holds at the end of every run. -/
theorem Run.invariant {P : S → Prop} (hinit : ∀ s, Init s → P s)
    (hstep : ∀ s e s', P s → Step s e s' → P s') {events : List E} {s : S}
    (hrun : Run Init Step events s) : P s := by
  induction hrun with
  | start h => exact hinit _ h
  | step _ h ih => exact hstep _ _ _ ih h

/-- Under an invariant, the steps of one system are steps of another. -/
theorem Run.mono_of_invariant {P : S → Prop} {Step' : S → E → S → Prop}
    (hinit : ∀ s, Init s → P s)
    (hstep : ∀ s e s', P s → Step s e s' → Step' s e s' ∧ P s') {events : List E} {s : S}
    (hrun : Run Init Step events s) : Run Init Step' events s := by
  induction hrun with
  | start h => exact .start h
  | step hrun h ih =>
    have hinv := hrun.invariant hinit fun s e s' hs hstep' ↦ (hstep s e s' hs hstep').2
    exact .step ih (hstep _ _ _ hinv h).1

/-- A run of fewer steps is a run of more. -/
theorem Run.mono {Step' : S → E → S → Prop} (h : ∀ s e s', Step s e s' → Step' s e s')
    {events : List E} {s : S} (hrun : Run Init Step events s) : Run Init Step' events s :=
  hrun.mono_of_invariant (P := fun _ ↦ True) (fun _ _ ↦ trivial)
    fun s e s' _ hstep ↦ ⟨h s e s' hstep, trivial⟩

/-- A label among those of a run and one more step is the last one or is among the others. -/
theorem snoc_eq_append_cons {events before after : List E} {e x : E}
    (h : events ++ [e] = before ++ x :: after) :
    (events = before ∧ e = x ∧ after = []) ∨
      ∃ rest, after = rest ++ [e] ∧ events = before ++ x :: rest := by
  rcases List.eq_nil_or_concat after with rfl | ⟨rest, y, rfl⟩
  · obtain ⟨rfl, hlast⟩ := List.append_inj' h rfl
    exact Or.inl ⟨rfl, List.singleton_inj.mp hlast, rfl⟩
  · rw [List.concat_eq_append, ← List.cons_append, ← List.append_assoc] at h
    obtain ⟨rfl, hlast⟩ := List.append_inj' h rfl
    obtain rfl := List.singleton_inj.mp hlast
    exact Or.inr ⟨rest, List.concat_eq_append, rfl⟩

/-- A label of a run is that of a step from the end of the run before it. -/
theorem Run.before {before after : List E} {e : E} {s : S}
    (hrun : Run Init Step (before ++ e :: after) s) :
    ∃ t u, Run Init Step before t ∧ Step t e u := by
  obtain ⟨events, hevents⟩ : ∃ events, events = before ++ e :: after := ⟨_, rfl⟩
  rw [← hevents] at hrun
  induction hrun generalizing after with
  | start hinit => simp at hevents
  | step hrun hstep ih =>
    rcases snoc_eq_append_cons hevents with ⟨rfl, rfl, rfl⟩ | ⟨rest, rfl, rfl⟩
    · exact ⟨_, _, hrun, hstep⟩
    · exact ih rfl

/-- The labels of the steps from one state to another, in order. -/
inductive Steps (Step : S → E → S → Prop) : S → List E → S → Prop
  | nil {s : S} : Steps Step s [] s
  | cons {s t u : S} {e : E} {labels : List E} (hstep : Step s e t)
      (hrest : Steps Step t labels u) : Steps Step s (e :: labels) u

/-- Steps after steps. -/
theorem Steps.append {labels more : List E} {s t u : S} (h : Steps Step s labels t)
    (hmore : Steps Step t more u) : Steps Step s (labels ++ more) u := by
  induction h with
  | nil => exact hmore
  | cons hstep _ ih => exact .cons hstep (ih hmore)

/-- Steps with more labels after the first ones. -/
theorem Steps.split {labels more : List E} {s u : S} (h : Steps Step s (labels ++ more) u) :
    ∃ t, Steps Step s labels t ∧ Steps Step t more u := by
  induction labels generalizing s with
  | nil => exact ⟨s, .nil, h⟩
  | cons e labels ih =>
    cases h with
    | cons hstep hrest =>
      obtain ⟨t, hlabels, hmore⟩ := ih hrest
      exact ⟨t, .cons hstep hlabels, hmore⟩

/-- A run goes on. -/
theorem Run.append {events labels : List E} {s t : S} (hrun : Run Init Step events s)
    (hsteps : Steps Step s labels t) : Run Init Step (events ++ labels) t := by
  induction hsteps generalizing events with
  | nil => simpa using hrun
  | cons hstep _ ih => simpa using ih (hrun.step hstep)

/-- Steps from an initial state are a run. -/
theorem Steps.run {labels : List E} {s t : S} (hsteps : Steps Step s labels t) (hinit : Init s) :
    Run Init Step labels t := by
  simpa using (Run.start hinit).append hsteps

/-- The labels that a partial step function carries out. -/
theorem Steps.of_foldlM {next : S → E → Option S}
    (hnext : ∀ s e t, next s e = some t → Step s e t) {labels : List E} {s t : S}
    (h : labels.foldlM next s = some t) : Steps Step s labels t := by
  induction labels generalizing s with
  | nil =>
    obtain rfl : s = t := by simpa using h
    exact .nil
  | cons e labels ih =>
    rw [List.foldlM_cons, Option.bind_eq_bind, Option.bind_eq_some_iff] at h
    obtain ⟨u, hu, hrest⟩ := h
    exact .cons (hnext s e u hu) (ih hrest)

section Determined

variable {A I O : Type} {represents : S → A → Prop} {next : A → I → Option (O × A)}
  {shown : E → Option (I × O)} {first : A}

/-- The deterministic system follows a list of inputs and outputs. -/
def Follows (next : A → I → Option (O × A)) : A → List (I × O) → A → Prop
  | a, [], b => a = b
  | a, (i, o) :: rest, b => ∃ c, next a i = some (o, c) ∧ Follows next c rest b

theorem follows_append {a c : A} {front back : List (I × O)} :
    Follows next a (front ++ back) c ↔ ∃ b, Follows next a front b ∧ Follows next b back c := by
  induction front generalizing a with
  | nil => simp [Follows]
  | cons x front ih =>
    simp only [List.cons_append, Follows, ih]
    constructor
    · rintro ⟨d, hd, b, hfront, hback⟩
      exact ⟨b, ⟨d, hd, hfront⟩, hback⟩
    · rintro ⟨b, ⟨d, hd, hfront⟩, hback⟩
      exact ⟨d, hd, b, hfront, hback⟩

/-- Following the same inputs gives the same outputs and the same state. -/
theorem Follows.deterministic {a b c : A} {left right : List (I × O)}
    (hleft : Follows next a left b) (hright : Follows next a right c)
    (hinputs : left.map Prod.fst = right.map Prod.fst) : left = right ∧ b = c := by
  induction left generalizing a right with
  | nil =>
    obtain rfl : right = [] := List.map_eq_nil_iff.mp hinputs.symm
    exact ⟨rfl, hleft.symm.trans hright⟩
  | cons x left ih =>
    cases right with
    | nil => simp at hinputs
    | cons y right =>
      obtain ⟨i, o⟩ := x
      obtain ⟨j, p⟩ := y
      simp only [List.map_cons, List.cons.injEq] at hinputs
      obtain ⟨rfl, hrest⟩ := hinputs
      obtain ⟨d, hd, hleft⟩ := hleft
      obtain ⟨e, he, hright⟩ := hright
      rw [hd, Option.some.injEq, Prod.mk.injEq] at he
      obtain ⟨rfl, rfl⟩ := he
      obtain ⟨rfl, rfl⟩ := ih hleft hright hrest
      exact ⟨rfl, rfl⟩

/-- A state that represents `a` has stepped to `s`, and has shown this: nothing, and `s` represents
`a` too, or an input and an output with which the deterministic system steps from `a`. -/
def Responds (represents : S → A → Prop) (next : A → I → Option (O × A)) (a : A) (s : S) :
    Option (I × O) → Prop
  | none => represents s a
  | some (i, o) => ∃ b, next a i = some (o, b) ∧ represents s b

/-- The state at the end of a run represents one that the deterministic system reaches over what the
run has shown. -/
theorem Run.follows (hinit : ∀ s, Init s → represents s first)
    (hstep : ∀ s a e s', represents s a → Step s e s' →
      Responds represents next a s' (shown e))
    {events : List E} {s : S} (hrun : Run Init Step events s) :
    ∃ a, Follows next first (events.filterMap shown) a ∧ represents s a := by
  induction hrun with
  | start h => exact ⟨first, rfl, hinit _ h⟩
  | @step events s s' e _ h ih =>
    obtain ⟨a, hfollows, hrep⟩ := ih
    have hnext := hstep _ a e _ hrep h
    rw [List.filterMap_append]
    cases hshown : shown e with
    | none =>
      rw [hshown] at hnext
      exact ⟨a, by simpa [hshown] using hfollows, hnext⟩
    | some x =>
      obtain ⟨i, o⟩ := x
      rw [hshown] at hnext
      obtain ⟨b, hb, hrep'⟩ := hnext
      refine ⟨b, follows_append.mpr ⟨a, hfollows, ?_⟩, hrep'⟩
      simpa [hshown, Follows] using hb

/-- A system that can make every move of the deterministic one can follow it from a state that
represents where it starts. -/
theorem Run.along {move : I × O → E}
    (hstep : ∀ s a i o b, represents s a → next a i = some (o, b) →
      ∃ s', Step s (move (i, o)) s' ∧ represents s' b)
    {trace : List (I × O)} {events : List E} {s : S} {a b : A} (hrun : Run Init Step events s)
    (hrep : represents s a) (hfollows : Follows next a trace b) :
    ∃ s', Run Init Step (events ++ trace.map move) s' ∧ represents s' b := by
  induction trace generalizing events s a with
  | nil =>
    obtain rfl : a = b := hfollows
    exact ⟨s, by simpa using hrun, hrep⟩
  | cons x trace ih =>
    obtain ⟨c, hnext, hrest⟩ := hfollows
    obtain ⟨s', hmove, hrep'⟩ := hstep s a _ _ c hrep hnext
    obtain ⟨t, hrun', ht⟩ := ih (hrun.step hmove) hrep' hrest
    exact ⟨t, by simpa using hrun', ht⟩

/-- Two runs that show the same inputs show the same outputs and end in states that represent the
same. -/
theorem Run.agree {S' E' : Type} {Init' : S' → Prop} {Step' : S' → E' → S' → Prop}
    {represents' : S' → A → Prop} {shown' : E' → Option (I × O)}
    (hinit : ∀ s, Init s → represents s first) (hinit' : ∀ s, Init' s → represents' s first)
    (hstep : ∀ s a e s', represents s a → Step s e s' →
      Responds represents next a s' (shown e))
    (hstep' : ∀ s a e s', represents' s a → Step' s e s' →
      Responds represents' next a s' (shown' e))
    {events : List E} {events' : List E'} {s : S} {s' : S'} (hrun : Run Init Step events s)
    (hrun' : Run Init' Step' events' s')
    (hinputs : (events.filterMap shown).map Prod.fst = (events'.filterMap shown').map Prod.fst) :
    events.filterMap shown = events'.filterMap shown' ∧ ∃ a, represents s a ∧ represents' s' a := by
  obtain ⟨a, hfollows, hrep⟩ := hrun.follows hinit hstep
  obtain ⟨b, hfollows', hrep'⟩ := hrun'.follows hinit' hstep'
  obtain ⟨hshown, rfl⟩ := hfollows.deterministic hfollows' hinputs
  exact ⟨hshown, a, hrep, hrep'⟩

end Determined

end SystemProgramming.Library
