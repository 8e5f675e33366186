import Mathlib.Algebra.Order.BigOperators.Group.List
import SystemProgramming.MemoryLab.Driver.Fcyc
import SystemProgramming.MemoryLab.Driver.Mm

/-!
# The runs that `mdriver.c` measures

`eval_mm_speed` runs a trace without any check, and `fsecs` runs it again and again: with `fcyc` until
the readings are close together, and with the other timers ten times. Every run resets the break and
initializes the package in the heap that the run before has left, with the pointers that it has left in
`blocks`.

A run that comes to an end leaves an arena, whatever else it leaves there. So all runs on a balanced
trace for which the arena has room come to an end (`mm_speed`).
-/

set_option autoImplicit false
set_option relaxedAutoImplicit false

namespace SystemProgramming.MemoryLab.Driver

open Library

/-! ### `eval_mm_speed` -/

/-- A request. -/
def speedOp (pkg : Package) (blocks : List (Option Nat)) (op : TraceOp) :
    HeapM (Except Complaint (List (Option Nat))) :=
  match op.type with
  | .alloc => do
    let p ← pkg.mmMalloc (toSizeT op.size)
    if p = null then pure (.error .mallocFailed)
    else do
      let blocks ← setEntry blocks op.index p
      pure (.ok blocks)
  | .realloc => do
    let oldp ← entry blocks op.index
    let newp ← pkg.mmRealloc oldp (toSizeT op.size)
    if newp = null then pure (.error .reallocFailed)
    else do
      let blocks ← setEntry blocks op.index newp
      pure (.ok blocks)
  | .free => do
    let block ← entry blocks op.index
    pkg.mmFree block
    pure (.ok blocks)

/-- `eval_mm_speed`: a complaint, which ends the program, or the array `blocks` that the run leaves. -/
def evalMmSpeed (pkg : Package) (ops : List TraceOp) (blocks : List (Option Nat)) :
    HeapM (Except (Nat × Complaint) (List (Option Nat))) := do
  modify memResetBrk
  let r ← pkg.mmInit none
  if r < 0 then pure (.error (0, .initFailed))
  else evalOps (speedOp pkg) 0 ops blocks

/-- The heap and the array `blocks` of the trace, which the runs pass on. -/
structure Bench where
  heap : Heap
  blocks : List (Option Nat)

/-- `f(argp)` in the timers, with `eval_mm_speed` for `f`. -/
def speedRun (pkg : Package) (ops : List TraceOp) : Program Bench (Except (Nat × Complaint) Unit) :=
  fun b ↦ (evalMmSpeed pkg ops b.blocks b.heap).map fun (result, h) ↦
    match result with
    | .error e => (.error e, ⟨h, b.blocks⟩)
    | .ok blocks => (.ok (), ⟨h, blocks⟩)

/-! ### The timers -/

/-- The loop of `ftimer_itimer` and `ftimer_gettod`. What they read before and after it is left
out. -/
def ftimer {σ E : Type} (f : Program σ (Except E Unit)) : Nat → Program σ (Except E Unit)
  | 0 => pure (.ok ())
  | n + 1 => do
    let result ← f
    match result with
    | .error e => pure (.error e)
    | .ok () => ftimer f n

/-- Which of the timers `config.h` chooses; for `fcyc` with the comparison of readings and with what
the counter reads. -/
inductive TimingMethod (T : Type)
  | fcyc (close : T → T → Bool) (cyc : Nat → T)
  | itimer
  | gettod

variable {T σ E : Type} [LinearOrder T] [Zero T]

/-- `fsecs`, with the parameters that `init_fsecs` sets. -/
def fsecs (method : TimingMethod T) (f : Program σ (Except E Unit)) :
    Program σ (Except E (Option T)) :=
  match method with
  | .fcyc close cyc => do
    let result ← fcyc ⟨3, 20, close⟩ f cyc
    pure (result.map some)
  | .itimer | .gettod => do
    let result ← ftimer f 10
    pure (result.map fun _ ↦ none)

/-- What a run does from any state in which it may begin: it returns, to a state in which the next may
begin. -/
structure Repeats (f : Program σ (Except E Unit)) (I J : σ → Prop) : Prop where
  run : ∀ t, I t → Returns f t fun r t' ↦ J t' ∧ ∃ b, r = .ok b
  next : ∀ t, J t → I t

namespace Repeats

variable {f : Program σ (Except E Unit)} {I J : σ → Prop} {t t' : σ} {n : Nat}

theorem keeps (h : Repeats f I J) (t : σ) (ht : I t) :
    Returns f t fun r t' ↦ I t' ∧ ∃ b, r = .ok b :=
  (h.run t ht).mono fun _ t' ⟨ht', hr⟩ ↦ ⟨h.next t' ht', hr⟩

/-- After at least one run. -/
theorem of_runs (h : Repeats f I J) (ht : I t) (hruns : Runs f n t t') (hn : 1 ≤ n) : J t' := by
  induction hruns with
  | zero s => omega
  | @succ n s t u b hrun hrest ih =>
    have hfirst : J t := ((returns_iff_of_eq hrun _).mp (h.run s ht)).1
    cases n with
    | zero =>
      cases hrest
      exact hfirst
    | succ n => exact ih (h.next t hfirst) (Nat.le_add_left 1 n)

theorem returns_ftimer (h : Repeats f I J) (ht : I t) :
    Returns (ftimer f n) t fun r t' ↦ r = .ok () ∧ Runs f n t t' := by
  induction n generalizing t with
  | zero =>
    rw [ftimer, returns_pure]
    exact ⟨rfl, .zero t⟩
  | succ n ih =>
    obtain ⟨r, t₁, hrun, ht₁, b, rfl⟩ := h.run t ht
    rw [ftimer, returns_bind, returns_iff_of_eq hrun]
    exact (ih (h.next t₁ ht₁)).mono fun r t₂ ⟨hr, hrest⟩ ↦ ⟨hr, .succ hrun hrest⟩

/-- Every timer comes to an end over such runs. -/
theorem returns_fsecs (h : Repeats f I J) (method : TimingMethod T) (ht : I t) :
    Returns (fsecs method f) t fun r t' ↦ (∃ secs, r = .ok secs) ∧ J t' := by
  cases method with
  | fcyc close cyc =>
    have hk : 1 ≤ (FcycParams.mk 3 20 close).kbest := Nat.le_add_left 1 2
    obtain ⟨r, t', hloop, ht', s, n, rfl, hs, hruns, hstops⟩ :=
      returns_fcycLoop_init cyc hk h.keeps ht
    obtain ⟨best, hfcyc, -⟩ := fcyc_eq hk hloop hs hstops.positive
    rw [fsecs, returns_bind, returns_iff_of_eq hfcyc, returns_pure]
    exact ⟨⟨_, rfl⟩, h.of_runs ht hruns hstops.positive⟩
  | itimer | gettod =>
    rw [fsecs, returns_bind]
    refine (h.returns_ftimer ht).mono ?_
    rintro r t' ⟨rfl, hruns⟩
    rw [returns_pure]
    exact ⟨⟨_, rfl⟩, h.of_runs ht hruns (by decide)⟩

end Repeats

/-! ### A run -/

/-- The contract holds, and the array has the pointers that are held. -/
def Speeds (c : Contract) (numIds : Nat) (h : Heap) (blocks : List (Option Nat))
    (held : Nat → Option Nat) : Prop :=
  ∃ tables live, tables.blocks = blocks ∧ c.Holds h live ∧ Remembers numIds tables held live

namespace Speeds

variable {pkg : Package} {c : Contract} {numIds : Nat} {h : Heap} {blocks : List (Option Nat)}
  {held held' : Nat → Option Nat} {op : TraceOp}

theorem speedOp_alloc (hspeeds : Speeds c numIds h blocks held) (hk : pkg.Keeps c) {i size : Nat}
    (hi : i < numIds) (hpos : 0 < size) (hlt : size < 2 ^ 31)
    (hfit : h.memBrk + TraceOp.need c ⟨.alloc, i, size⟩ < 2 ^ 32) :
    Returns (speedOp pkg blocks ⟨.alloc, i, size⟩) h (Proceeds c h ⟨.alloc, i, size⟩
      fun blocks' h' ↦ Speeds c numIds h' blocks' (Function.update held i (some size))) := by
  obtain ⟨tables, live, rfl, hholds, hr⟩ := hspeeds
  have hneed : TraceOp.need c ⟨.alloc, i, size⟩ = c.need size := by simp [TraceOp.need]
  rw [speedOp]
  dsimp only
  rw [returns_bind, toSizeT_natCast hlt]
  refine (hk.mmMalloc hholds hpos hlt (hneed ▸ hfit)).mono ?_
  rintro p h₁ ⟨hkept, -, -, hbrk, hanswer⟩
  unfold Proceeds
  rw [returns_ite, hneed]
  by_cases hp : p = null
  · rw [if_pos hp] at hanswer
    rw [if_pos hp, returns_pure]
    exact ⟨hkept.memStartBrk_eq, hkept.memMaxAddr_eq, hbrk, Or.inl ⟨rfl, rfl, hneed ▸ hanswer⟩⟩
  · rw [if_neg hp] at hanswer
    have hnew := (hr.forget i).grant (t := size) hi (not_mem_of_separated (hk.separated hanswer))
    rw [Function.update_idem] at hnew
    rw [if_neg hp, returns_bind, returns_setEntry rfl (by rw [hr.sized.1]; exact hi), returns_pure]
    exact ⟨hkept.memStartBrk_eq, hkept.memMaxAddr_eq, hbrk, _, _, rfl, hanswer, hnew⟩

theorem speedOp_realloc (hspeeds : Speeds c numIds h blocks held) (hk : pkg.Keeps c)
    {i n size : Nat} (hi : i < numIds) (hheld : held i = some n) (hpos : 0 < size) (hle : size ≤ n) :
    Returns (speedOp pkg blocks ⟨.realloc, i, size⟩) h (Proceeds c h ⟨.realloc, i, size⟩
      fun blocks' h' ↦ Speeds c numIds h' blocks' (Function.update held i (some size))) := by
  obtain ⟨tables, live, rfl, hholds, hr⟩ := hspeeds
  obtain ⟨p, hp, -, hlive⟩ := hr.entry i n hheld
  have hbound := hk.total_le hholds
  have hpart := totalLength_without (hk.separated hholds).nodup hlive
  obtain ⟨harena, -, hmax⟩ := hk.arena hholds
  have hsize := harena.size
  unfold maxHeap at hsize
  rw [speedOp]
  dsimp only
  rw [returns_bind, returns_entry rfl hp, returns_bind, toSizeT_natCast (by omega)]
  refine (hk.mmRealloc hholds hlive hpos hle).mono ?_
  rintro q h₁ ⟨hkept, hbrk, -, hanswer⟩
  have hgrown : h₁.memBrk ≤ h.memBrk + TraceOp.need c ⟨.realloc, i, size⟩ :=
    hbrk.le.trans (Nat.le_add_right _ _)
  unfold Proceeds
  rw [returns_ite]
  by_cases hq : q = null
  · rw [if_pos hq] at hanswer
    rw [if_pos hq, returns_pure]
    exact ⟨hkept.memStartBrk_eq, hkept.memMaxAddr_eq, hgrown, Or.inr ⟨rfl, rfl, hanswer⟩⟩
  · rw [if_neg hq] at hanswer
    obtain ⟨hholds', -⟩ := hanswer
    have hnew := (hr.release hheld hp).grant (t := size) hi
      (not_mem_of_separated (hk.separated hholds'))
    rw [Function.update_idem] at hnew
    rw [if_neg hq, returns_bind, returns_setEntry rfl (by rw [hr.sized.1]; exact hi), returns_pure]
    exact ⟨hkept.memStartBrk_eq, hkept.memMaxAddr_eq, hgrown, _, _, rfl, hholds', hnew⟩

theorem speedOp_free (hspeeds : Speeds c numIds h blocks held) (hk : pkg.Keeps c) {i n : Nat}
    {size : Int} (hheld : held i = some n) :
    Returns (speedOp pkg blocks ⟨.free, i, size⟩) h (Proceeds c h ⟨.free, i, size⟩
      fun blocks' h' ↦ Speeds c numIds h' blocks' (Function.update held i none)) := by
  obtain ⟨tables, live, rfl, hholds, hr⟩ := hspeeds
  obtain ⟨p, hp, -, hlive⟩ := hr.entry i n hheld
  rw [speedOp]
  dsimp only
  rw [returns_bind, returns_entry rfl hp, returns_bind]
  refine (hk.mmFree hholds hlive).mono ?_
  rintro _ h₁ ⟨hkept, hbrk, -, hholds'⟩
  rw [returns_pure]
  exact ⟨hkept.memStartBrk_eq, hkept.memMaxAddr_eq, hbrk.le.trans (Nat.le_add_right _ _), _, _, rfl,
    hholds', hr.release hheld hp⟩

/-- A request of the client. -/
theorem speedOp (hspeeds : Speeds c numIds h blocks held) (hk : pkg.Keeps c)
    (hnext : op.next numIds held = some held') (hfit : h.memBrk + op.need c < 2 ^ 32) :
    Returns (speedOp pkg blocks op) h
      (Proceeds c h op fun blocks' h' ↦ Speeds c numIds h' blocks' held') := by
  cases TraceOp.may_of_next hnext with
  | alloc hi hpos hlt => exact hspeeds.speedOp_alloc hk hi hpos hlt hfit
  | realloc hi hheld hpos hle hbyte => exact hspeeds.speedOp_realloc hk hi hheld hpos hle
  | free hi hheld => exact hspeeds.speedOp_free hk hheld

end Speeds

/-- On a balanced trace `eval_mm_speed` comes to an end, and leaves a heap that keeps the contract in
the same arena, or ends where it is excused. -/
theorem Package.Keeps.evalMmSpeed {pkg : Package} {c : Contract} {numIds : Nat} {h : Heap}
    {blocks : List (Option Nat)} (hk : pkg.Keeps c) {ops : List TraceOp} (ha : h.Arena)
    (hs : blocks.length = numIds) (hops : Balanced numIds ops)
    (hfit : NoWrap c h.memMaxAddr (h.memStartBrk + c.first) ops) :
    Returns (evalMmSpeed pkg ops blocks) h fun result h' ↦
      h'.memStartBrk = h.memStartBrk ∧ h'.memMaxAddr = h.memMaxAddr ∧ match result with
        | .ok blocks' => blocks'.length = numIds ∧ (∃ live, c.Holds h' live) ∧
            h'.memBrk ≤ h.memStartBrk + c.first + needs c ops
        | .error (i, e) => ExcusedAt c (maxHeap - c.first) ops i e := by
  obtain ⟨held', hfold⟩ := Option.isSome_iff_exists.mp hops
  have hreset : (memResetBrk h).Arena := ⟨ha.aligned, ha.nonnull, ha.size, ha.below⟩
  have hstart : (memResetBrk h).memStartBrk = h.memStartBrk := rfl
  rw [Driver.evalMmSpeed, returns_bind, returns_modify]
  refine (hk.mmInit none hreset rfl).bind ?_
  rintro r h₁ ⟨rfl, hkept, hfirst, -, hh₁⟩
  have hstart₁ : h₁.memStartBrk = h.memStartBrk := hkept.memStartBrk_eq
  have hmax₁ : h₁.memMaxAddr = h.memMaxAddr := hkept.memMaxAddr_eq
  have hspeeds : Speeds c numIds h₁ blocks fun _ ↦ none :=
    ⟨⟨blocks, List.replicate numIds none⟩, [], rfl, hh₁, ⟨hs, List.length_replicate⟩, by simp, by simp⟩
  rw [if_neg (by decide)]
  refine (returns_evalOps (I := fun _ h blocks held ↦ Speeds c numIds h blocks held)
    (fun _ _ _ _ ⟨_, _, _, hholds, _⟩ ↦ (hk.arena hholds).2.2)
    (fun hspeeds hnext hfit ↦ hspeeds.speedOp hk hnext hfit)
    [] 0 hspeeds hfold (hmax₁ ▸ hfit.mono (by omega))).mono ?_
  rintro result h₂ ⟨hstart₂, hmax₂, hresult⟩
  refine ⟨hstart₂.trans hstart₁, hmax₂.trans hmax₁, ?_⟩
  cases result with
  | error x =>
    obtain ⟨j, hj, before, op, after, rfl, rfl, hexcused⟩ := hresult
    refine ⟨before, op, after, rfl, hj.trans (Nat.zero_add _), hexcused.imp_left ?_⟩
    rintro ⟨htype, he, hfull⟩
    have hsize := ha.size
    exact ⟨htype, he, by omega⟩
  | ok blocks' =>
    obtain ⟨⟨tables, live, rfl, hholds, hr⟩, hgrown⟩ := hresult
    exact ⟨hr.sized.1, ⟨live, hholds⟩, by omega⟩

/-- Whichever timer is chosen, and whatever the clock reads, the measurement of `mm.c` on a balanced
trace for which the arena has room comes to an end with every run complete, from every heap and every
array of pointers, and leaves a heap no larger than the trace may take. -/
theorem mm_speed {numIds : Nat} {ops : List TraceOp} {b : Bench} (method : TimingMethod T)
    (ha : b.heap.Arena) (hs : b.blocks.length = numIds) (hops : Balanced numIds ops)
    (hroom : 272 + traceNeed ops ≤ maxHeap) :
    ∃ secs b', fsecs method (speedRun mm ops) b = some (.ok secs, b') ∧
      b'.heap.memStartBrk = b.heap.memStartBrk ∧ b'.heap.memMaxAddr = b.heap.memMaxAddr ∧
      b'.heap.memBrk ≤ b.heap.memStartBrk + 272 + traceNeed ops ∧ b'.blocks.length = numIds := by
  have hneed : needs mmContract ops = traceNeed ops := rfl
  have hfirst : mmContract.first = 272 := rfl
  have hruns : Repeats (speedRun mm ops)
      (fun b' ↦ b'.heap.memStartBrk = b.heap.memStartBrk ∧ b'.heap.memMaxAddr = b.heap.memMaxAddr ∧
        b'.blocks.length = numIds)
      fun b' ↦ b'.heap.memStartBrk = b.heap.memStartBrk ∧ b'.heap.memMaxAddr = b.heap.memMaxAddr ∧
        b'.heap.memBrk ≤ b.heap.memStartBrk + 272 + traceNeed ops ∧ b'.blocks.length = numIds := by
    refine ⟨?_, fun b' ⟨hstart, hmax, _, hlength⟩ ↦ ⟨hstart, hmax, hlength⟩⟩
    rintro ⟨h, blocks⟩ ⟨hstart, hmax, hlength⟩
    dsimp only at hstart hmax hlength
    have harena : h.Arena := ⟨hstart ▸ ha.aligned, hstart ▸ ha.nonnull,
      by rw [hstart, hmax, ha.size], hmax ▸ ha.below⟩
    obtain ⟨result, h', hrun, hstart', hmax', hresult⟩ :=
      keeps_mm.evalMmSpeed harena hlength hops (noWrap_of_room harena hroom)
    cases result with
    | error x => exact absurd hresult (not_excusedAt_of_room hroom x.1 x.2)
    | ok blocks' =>
      obtain ⟨hlength', -, hbrk⟩ := hresult
      have hspeed : speedRun mm ops ⟨h, blocks⟩ = some (.ok (), ⟨h', blocks'⟩) := by
        rw [speedRun, hrun]
        rfl
      refine ⟨.ok (), ⟨h', blocks'⟩, hspeed, ⟨hstart'.trans hstart, hmax'.trans hmax, ?_, hlength'⟩, (), rfl⟩
      dsimp only
      omega
  obtain ⟨r, b', hrun, ⟨secs, rfl⟩, hb'⟩ := hruns.returns_fsecs method ⟨rfl, rfl, hs⟩
  exact ⟨secs, b', hrun, hb'⟩

theorem mm_speed_sampleOps : ∃ (secs : Option Int) (b' : Bench),
    fsecs (.fcyc (fun first last ↦ 100 * last ≤ 101 * first) fun _ ↦ 5000) (speedRun mm sampleOps)
      ⟨⟨fun _ ↦ 0, 4096, 4096, 4096 + maxHeap, false, 0, 0, none⟩, [none, none]⟩ =
        some (.ok secs, b') ∧ b'.blocks.length = 2 := by
  have harena : Heap.Arena ⟨fun _ ↦ 0, 4096, 4096, 4096 + maxHeap, false, 0, 0, none⟩ :=
    ⟨by decide, by decide, rfl, by decide⟩
  obtain ⟨secs, b', hrun, -, -, -, hlength⟩ := mm_speed
    (b := ⟨⟨fun _ ↦ 0, 4096, 4096, 4096 + maxHeap, false, 0, 0, none⟩, [none, none]⟩)
    (.fcyc (fun first last : Int ↦ 100 * last ≤ 101 * first) fun _ ↦ 5000)
    harena rfl (show Balanced 2 sampleOps by decide) (by decide)
  exact ⟨secs, b', hrun, hlength⟩

end SystemProgramming.MemoryLab.Driver
