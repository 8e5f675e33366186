import Mathlib.Algebra.Order.Ring.Int
import Mathlib.Data.List.Induction
import SystemProgramming.Library.KBest
import SystemProgramming.Library.StateProgram

/-!
# The K-best scheme of `fcyc.c`

`fcyc` runs a function again and again and reads the cycle counter around each run. It keeps the
`kbest` smallest readings in an array that it sorts by insertion, and stops when the first and the last
of these are close together or after `maxsamples` runs. It returns the first.

The array holds the smallest readings so far after every run, whatever the counter reads
(`Sampler.Holds.addSample`), so `fcyc` returns the least of all its readings, and stops at the first run
after which the smallest ones are close together, or at the limit (`fcyc_best`).

Readings are of any linearly ordered type, and `close` is the comparison of the first value with the
last, in which `fcyc.c` multiplies by one and `epsilon`. What `compensate` and `clear_cache` choose is
which counter is read and what is done before it is: the readings are arbitrary here.
-/

set_option autoImplicit false
set_option relaxedAutoImplicit false

namespace SystemProgramming.MemoryLab.Driver

open Library

variable {T σ E β : Type}

/-- The parameters of the measurement. -/
structure FcycParams (T : Type) where
  kbest : Nat
  maxsamples : Int
  close : T → T → Bool

/-- The array `values` and `samplecount`. -/
structure Sampler (T : Type) where
  values : List T
  samplecount : Nat

/-- `init_sampler`. -/
def initSampler [Zero T] (kbest : Nat) : Sampler T := ⟨List.replicate kbest 0, 0⟩

/-- `values[pos] = val`. -/
def assign (values : List T) (pos : Nat) (val : T) : Option (List T) :=
  if pos < values.length then some (values.set pos val) else none

variable [LinearOrder T]

/-- The insertion sort at the end of `add_sample`, from this position downwards. -/
def sortLoop (values : List T) : Nat → Option (List T)
  | 0 => some values
  | pos + 1 => do
    let before ← values[pos]?
    let here ← values[pos + 1]?
    if here < before then sortLoop ((values.set pos here).set (pos + 1) before) pos
    else some values

/-- `add_sample`. -/
def addSample (kbest : Nat) (s : Sampler T) (val : T) : Option (Sampler T) :=
  Option.map (fun values ↦ ⟨values, s.samplecount + 1⟩) <|
    if s.samplecount < kbest then do
      let values ← assign s.values s.samplecount val
      sortLoop values s.samplecount
    else do
      let last ← s.values[kbest - 1]?
      if val < last then do
        let values ← assign s.values (kbest - 1) val
        sortLoop values (kbest - 1)
      else some s.values

/-- `has_converged`. -/
def hasConverged (p : FcycParams T) (s : Sampler T) : Option Bool :=
  if p.kbest ≤ s.samplecount then do
    let first ← s.values[0]?
    let last ← s.values[p.kbest - 1]?
    some (p.close first last)
  else some false

/-- The loop of `fcyc`: a run, its reading, and the test. A run that ends the program ends it here. -/
def fcycLoop (p : FcycParams T) (f : Program σ (Except E β)) (cyc : Nat → T) :
    Nat → Sampler T → Program σ (Except E (Sampler T))
  | 0, _ => failure
  | fuel + 1, s => do
    let result ← f
    match result with
    | .error e => pure (.error e)
    | .ok _ =>
      match addSample p.kbest s (cyc s.samplecount) with
      | none => failure
      | some s' =>
        match hasConverged p s' with
        | none => failure
        | some converged =>
          if converged = false ∧ s'.samplecount < p.maxsamples then fcycLoop p f cyc fuel s'
          else pure (.ok s')

/-- `fcyc`, with the readings of the counter. -/
def fcyc [Zero T] (p : FcycParams T) (f : Program σ (Except E β)) (cyc : Nat → T) :
    Program σ (Except E T) := do
  let result ← fcycLoop p f cyc (p.maxsamples.toNat + 1) (initSampler p.kbest)
  match result with
  | .error e => pure (.error e)
  | .ok s =>
    match s.values[0]? with
    | none => failure
    | some result => pure (.ok result)

/-! ### The array -/

/-- The insertion sort puts the value behind a sorted front in its place. -/
theorem sortLoop_eq (x : T) {front : List T} (hfront : front.Pairwise (· ≤ ·)) (back : List T) :
    sortLoop (front ++ x :: back) front.length = some (inOrder x front ++ back) := by
  induction front using List.reverseRecOn generalizing back with
  | nil => rfl
  | append_singleton front y ih =>
    obtain ⟨hsorted, -, hlast⟩ := List.pairwise_append.mp hfront
    have hbefore : (front ++ [y] ++ x :: back)[front.length]? = some y := by simp
    have hhere : (front ++ [y] ++ x :: back)[front.length + 1]? = some x := by simp
    rw [List.length_append, List.length_singleton, sortLoop, hbefore, hhere]
    dsimp only [Option.bind_eq_bind, Option.bind_some]
    split_ifs with hxy
    · have hswap : ((front ++ [y] ++ x :: back).set front.length x).set (front.length + 1) y =
          front ++ x :: y :: back := by
        simp
      rw [hswap, ih hsorted, inOrder_concat hfront hxy.le, List.append_assoc, List.singleton_append]
    · have hall : ∀ z ∈ front ++ [y], z ≤ x := by
        intro z hz
        rcases List.mem_append.mp hz with hz | hz
        · exact (hlast z hz y List.mem_cons_self).trans (not_lt.mp hxy)
        · exact List.mem_singleton.mp hz ▸ not_lt.mp hxy
      rw [inOrder_of_le hfront hall, List.append_assoc _ [x], List.singleton_append]

/-- A value that is written behind a sorted front, and put in its place. -/
theorem assign_sortLoop (x val : T) {front : List T} (hfront : front.Pairwise (· ≤ ·))
    (back : List T) : (do
      let values ← assign (front ++ x :: back) front.length val
      sortLoop values front.length) = some (inOrder val front ++ back) := by
  have hroom : front.length < (front ++ x :: back).length := by
    rw [List.length_append, List.length_cons]
    omega
  have hset : (front ++ x :: back).set front.length val = front ++ val :: back := by simp
  rw [assign, if_pos hroom, hset]
  exact sortLoop_eq val hfront back

/-- The array holds the smallest of the samples, the newest of which is the first. -/
structure Sampler.Holds (s : Sampler T) (kbest : Nat) (samples : List T) : Prop where
  length : s.values.length = kbest
  count : s.samplecount = samples.length
  values : s.values.take samples.length = smallest kbest samples

namespace Sampler.Holds

variable {s : Sampler T} {kbest : Nat} {samples : List T}

theorem init [Zero T] (kbest : Nat) : (initSampler kbest : Sampler T).Holds kbest [] :=
  ⟨List.length_replicate, rfl, by simp [smallest]⟩

/-- As long as there is room, the samples are a front of the array. -/
theorem front (h : s.Holds kbest samples) (hroom : samples.length < kbest) :
    ∃ x back, s.values = smallest kbest samples ++ x :: back ∧
      (smallest kbest samples).length = samples.length := by
  have hlength : (smallest kbest samples).length = samples.length := by
    rw [length_smallest]
    omega
  have hsplit := (List.take_append_drop samples.length s.values).symm
  rw [h.values] at hsplit
  cases hdrop : s.values.drop samples.length with
  | nil =>
    have hzero := congrArg List.length hdrop
    rw [List.length_drop, h.length, List.length_nil] at hzero
    omega
  | cons x back =>
    rw [hdrop] at hsplit
    exact ⟨x, back, hsplit, hlength⟩

/-- When there is no more room, the array is what is kept. -/
theorem values_eq (h : s.Holds kbest samples) (hfull : kbest ≤ samples.length) :
    s.values = smallest kbest samples := by
  rw [← h.values, List.take_of_length_le (h.length.trans_le hfull)]

/-- `add_sample` keeps the smallest of the samples. -/
theorem addSample (h : s.Holds kbest samples) (hk : 1 ≤ kbest) (val : T) :
    ∃ s', Driver.addSample kbest s val = some s' ∧ s'.Holds kbest (val :: samples) := by
  have hlength := length_smallest kbest samples
  have hlength' := length_smallest kbest (val :: samples)
  have hsorted := pairwise_smallest kbest samples
  -- what is in the array afterwards makes the sampler
  have hnew : ∀ {values : List T}, values.length = kbest →
      values.take (samples.length + 1) = smallest kbest (val :: samples) →
      (⟨values, samples.length + 1⟩ : Sampler T).Holds kbest (val :: samples) :=
    fun hvalues htake ↦ ⟨hvalues, rfl, htake⟩
  unfold Driver.addSample
  rw [h.count]
  by_cases hroom : samples.length < kbest
  · obtain ⟨x, back, hvalues, hfront⟩ := h.front hroom
    have hloop := assign_sortLoop x val hsorted back
    have hsize := h.length
    rw [← hvalues, hfront] at hloop
    rw [if_pos hroom, hloop]
    refine ⟨_, rfl, hnew ?_ ?_⟩
    · rw [hvalues, List.length_append, List.length_cons] at hsize
      rw [List.length_append, List.orderedInsert_length]
      omega
    · rw [smallest_cons_of_lt val hroom, List.take_append_of_le_length, List.take_of_length_le]
      · rw [List.orderedInsert_length, hfront]
      · rw [List.orderedInsert_length, hfront]
  · have hfull : kbest ≤ samples.length := not_lt.mp hroom
    have hvalues := h.values_eq hfull
    rcases List.eq_nil_or_concat (smallest kbest samples) with hnil | ⟨front, y, hconcat⟩
    · rw [hnil, List.length_nil] at hlength
      omega
    · rw [List.concat_eq_append] at hconcat
      have hfront : kbest - 1 = front.length := by
        rw [hconcat, List.length_append, List.length_singleton] at hlength
        omega
      have hlast : s.values[kbest - 1]? = some y := by
        rw [hvalues, hconcat, hfront]
        simp
      rw [if_neg hroom, hlast, Option.bind_eq_bind, Option.bind_some]
      by_cases hless : val < y
      · have hloop := assign_sortLoop y val (List.pairwise_append.mp (hconcat ▸ hsorted)).1 []
        rw [← hconcat, ← hvalues, ← hfront, List.append_nil] at hloop
        have hkept := smallest_cons_of_last hconcat hfull hless.le
        rw [if_pos hless]
        rw [hloop]
        refine ⟨_, rfl, hnew ?_ ?_⟩
        · rw [List.orderedInsert_length]
          omega
        · rw [hkept, List.take_of_length_le]
          rw [List.orderedInsert_length]
          omega
      · rw [if_neg hless]
        refine ⟨_, rfl, hnew h.length ?_⟩
        rw [smallest_cons_of_not_lt hconcat hfull (not_lt.mp hless), hvalues, List.take_of_length_le]
        omega

end Sampler.Holds

/-! ### The loop -/

/-- The readings of so many runs, the newest first. -/
def readings (cyc : Nat → T) : Nat → List T
  | 0 => []
  | n + 1 => cyc n :: readings cyc n

omit [LinearOrder T] in
theorem length_readings (cyc : Nat → T) (n : Nat) : (readings cyc n).length = n := by
  induction n with
  | zero => rfl
  | succ n ih => rw [readings, List.length_cons, ih]

omit [LinearOrder T] in
theorem mem_readings {cyc : Nat → T} {n : Nat} {x : T} :
    x ∈ readings cyc n ↔ x ∈ cyc '' {i | i < n} := by
  induction n with
  | zero => simp [readings]
  | succ n ih =>
    rw [readings, List.mem_cons, ih]
    simp only [Set.mem_image, Set.mem_ofPred_eq, Nat.lt_succ_iff_lt_or_eq, or_and_right, exists_or,
      exists_eq_left]
    rw [or_comm, eq_comm]

/-- There are `kbest` samples, and the first and the last of the smallest are close together. -/
def Converged (p : FcycParams T) (samples : List T) : Prop :=
  ∃ first last, (smallest p.kbest samples)[0]? = some first ∧
    (smallest p.kbest samples)[p.kbest - 1]? = some last ∧ p.close first last = true

/-- `has_converged` tests the samples. -/
theorem Sampler.Holds.hasConverged {p : FcycParams T} {s : Sampler T} {samples : List T}
    (h : s.Holds p.kbest samples) (hk : 1 ≤ p.kbest) :
    ∃ converged, Driver.hasConverged p s = some converged ∧
      (converged = true ↔ Converged p samples) := by
  have hlength := length_smallest p.kbest samples
  unfold Driver.hasConverged
  rw [h.count]
  by_cases hfull : p.kbest ≤ samples.length
  · have hfirst : (smallest p.kbest samples)[0]? = some _ := List.getElem?_eq_getElem (by omega)
    have hlast : (smallest p.kbest samples)[p.kbest - 1]? = some _ :=
      List.getElem?_eq_getElem (by omega)
    rw [if_pos hfull, h.values_eq hfull, hfirst, hlast]
    refine ⟨_, rfl, fun hclose ↦ ⟨_, _, hfirst, hlast, hclose⟩, ?_⟩
    rintro ⟨first, last, hfirst', hlast', hclose⟩
    obtain rfl := Option.some.inj (hfirst.symm.trans hfirst')
    obtain rfl := Option.some.inj (hlast.symm.trans hlast')
    exact hclose
  · rw [if_neg hfull]
    refine ⟨false, rfl, nofun, ?_⟩
    rintro ⟨first, last, -, hlast, -⟩
    rw [List.getElem?_eq_none (by omega)] at hlast
    cases hlast

/-- A run that returns with its invariant, and so many of these. -/
inductive Runs (f : Program σ (Except E β)) : Nat → σ → σ → Prop
  | zero (s : σ) : Runs f 0 s s
  | succ {n : Nat} {s t u : σ} {b : β} (hrun : f s = some (.ok b, t)) (hrest : Runs f n t u) :
      Runs f (n + 1) s u

/-- When the loop may stop after so many runs, and not before. -/
structure Stops (p : FcycParams T) (cyc : Nat → T) (n : Nat) : Prop where
  positive : 1 ≤ n
  enough : Converged p (readings cyc n) ∨ p.maxsamples ≤ n
  first : ∀ m, 1 ≤ m → m < n → ¬ Converged p (readings cyc m) ∧ m < p.maxsamples

/-- The loop, after so many runs with which it could not stop. -/
theorem returns_fcycLoop {p : FcycParams T} {f : Program σ (Except E β)} (cyc : Nat → T)
    {I : σ → Prop} (hk : 1 ≤ p.kbest)
    (hf : ∀ t, I t → Returns f t fun r t' ↦ I t' ∧ ∃ b, r = .ok b) (fuel done : Nat)
    {s : Sampler T} {t : σ} (ht : I t) (hs : s.Holds p.kbest (readings cyc done))
    (hbefore : ∀ m, 1 ≤ m → m ≤ done → ¬ Converged p (readings cyc m) ∧ m < p.maxsamples)
    (hfuel : p.maxsamples.toNat < fuel + done ∧ 1 ≤ fuel) :
    Returns (fcycLoop p f cyc fuel s) t fun r t' ↦ I t' ∧ ∃ s' n, r = .ok s' ∧
      s'.Holds p.kbest (readings cyc (done + n)) ∧ Runs f n t t' ∧ Stops p cyc (done + n) := by
  induction fuel generalizing done s t with
  | zero => omega
  | succ fuel ih =>
    rw [fcycLoop, returns_bind]
    obtain ⟨r, t₁, hrun, ht₁, b, rfl⟩ := hf t ht
    obtain ⟨s₁, hadd, hs₁⟩ := hs.addSample hk (cyc s.samplecount)
    have hdone : s.samplecount = done := hs.count.trans (length_readings cyc done)
    have hreadings : cyc s.samplecount :: readings cyc done = readings cyc (done + 1) := by
      rw [hdone, readings]
    rw [hreadings] at hs₁
    obtain ⟨converged, hconverged, hiff⟩ := hs₁.hasConverged hk
    have hcount : s₁.samplecount = done + 1 := hs₁.count.trans (length_readings cyc (done + 1))
    rw [returns_iff_of_eq hrun, hadd]
    dsimp only
    rw [hconverged]
    dsimp only
    rw [returns_ite, hcount]
    split_ifs with hmore
    · -- the loop goes on
      have hnot : ¬ Converged p (readings cyc (done + 1)) := by
        rw [← hiff, hmore.1]
        exact Bool.false_ne_true
      have hbefore' : ∀ m, 1 ≤ m → m ≤ done + 1 →
          ¬ Converged p (readings cyc m) ∧ m < p.maxsamples := by
        intro m hm hle
        rcases Nat.le_succ_iff.mp hle with hle | rfl
        · exact hbefore m hm hle
        · exact ⟨hnot, hmore.2⟩
      have hlimit := hmore.2
      refine (ih (done + 1) ht₁ hs₁ hbefore' (by omega)).mono ?_
      rintro r t₂ ⟨ht₂, s₂, n, rfl, hs₂, hruns, hstops⟩
      rw [Nat.add_assoc, Nat.add_comm 1 n] at hs₂ hstops
      exact ⟨ht₂, s₂, n + 1, rfl, hs₂, .succ hrun hruns, hstops⟩
    · rw [returns_pure]
      refine ⟨ht₁, s₁, 1, rfl, hs₁, .succ hrun (.zero t₁), Nat.le_add_left 1 done, ?_,
        fun m hm hlt ↦ hbefore m hm (Nat.le_of_lt_succ hlt)⟩
      by_cases hclose : converged = true
      · exact Or.inl (hiff.mp hclose)
      · exact Or.inr (not_lt.mp fun hlt ↦ hmore ⟨Bool.eq_false_iff.mpr hclose, hlt⟩)

/-- The first value of the array is the least sample. -/
theorem Sampler.Holds.isLeast {s : Sampler T} {kbest : Nat} {samples : List T}
    (h : s.Holds kbest samples) (hk : 1 ≤ kbest) (hsome : 1 ≤ samples.length) :
    ∃ best, s.values[0]? = some best ∧ IsLeast {x | x ∈ samples} best := by
  have hlength := length_smallest kbest samples
  have hfirst : (smallest kbest samples)[0]? = some _ := List.getElem?_eq_getElem (by omega)
  refine ⟨_, ?_, isLeast_smallest hfirst⟩
  rw [← hfirst, ← h.values, List.getElem?_take_of_lt hsome]

/-- What `fcyc` returns when its loop has come to an end. -/
theorem fcyc_eq [Zero T] {p : FcycParams T} {f : Program σ (Except E β)} {cyc : Nat → T}
    {s : Sampler T} {n : Nat} {t t' : σ} (hk : 1 ≤ p.kbest)
    (hloop : fcycLoop p f cyc (p.maxsamples.toNat + 1) (initSampler p.kbest) t = some (.ok s, t'))
    (hs : s.Holds p.kbest (readings cyc n)) (hn : 1 ≤ n) :
    ∃ best, fcyc p f cyc t = some (.ok best, t') ∧ IsLeast (cyc '' {i | i < n}) best := by
  obtain ⟨best, hvalue, hleast⟩ := hs.isLeast hk (by rwa [length_readings])
  have hset : {x | x ∈ readings cyc n} = cyc '' {i | i < n} := Set.ext fun _ ↦ mem_readings
  refine ⟨best, eq_of_returns_iff fun Q ↦ ?_, hset ▸ hleast⟩
  rw [fcyc, returns_bind, returns_iff_of_eq hloop]
  dsimp only
  rw [hvalue]
  exact returns_pure _ _ _

/-- The loop from its beginning. -/
theorem returns_fcycLoop_init [Zero T] {p : FcycParams T} {f : Program σ (Except E β)}
    (cyc : Nat → T) {I : σ → Prop} (hk : 1 ≤ p.kbest)
    (hf : ∀ t, I t → Returns f t fun r t' ↦ I t' ∧ ∃ b, r = .ok b) {t : σ} (ht : I t) :
    Returns (fcycLoop p f cyc (p.maxsamples.toNat + 1) (initSampler p.kbest)) t fun r t' ↦
      I t' ∧ ∃ s n, r = .ok s ∧ s.Holds p.kbest (readings cyc n) ∧ Runs f n t t' ∧ Stops p cyc n := by
  refine (returns_fcycLoop cyc hk hf (p.maxsamples.toNat + 1) 0 ht (Sampler.Holds.init p.kbest)
    (by omega) (by omega)).mono ?_
  rintro r t' ⟨ht', s, n, rfl, hs, hruns, hstops⟩
  rw [Nat.zero_add] at hs hstops
  exact ⟨ht', s, n, rfl, hs, hruns, hstops⟩

/-- `fcyc` runs the function until the smallest readings are close together or the limit is reached,
and no longer, and returns the least of all readings. -/
theorem fcyc_best [Zero T] {p : FcycParams T} {f : Program σ (Except E β)} (cyc : Nat → T)
    {I : σ → Prop} (hk : 1 ≤ p.kbest)
    (hf : ∀ t, I t → Returns f t fun r t' ↦ I t' ∧ ∃ b, r = .ok b) {t : σ} (ht : I t) :
    ∃ best t' n, fcyc p f cyc t = some (.ok best, t') ∧ I t' ∧ Runs f n t t' ∧
      n ≤ max 1 p.maxsamples ∧ Stops p cyc n ∧ IsLeast (cyc '' {i | i < n}) best := by
  obtain ⟨r, t', hloop, ht', s, n, rfl, hs, hruns, hstops⟩ := returns_fcycLoop_init cyc hk hf ht
  obtain ⟨best, hfcyc, hleast⟩ := fcyc_eq hk hloop hs hstops.positive
  have hpositive := hstops.positive
  have hlast := hstops.first (n - 1)
  exact ⟨best, t', n, hfcyc, ht', hruns, by omega, hstops, hleast⟩

/-- A function that counts its own runs. -/
def countRun : Program Nat (Except Empty Unit) := do
  modify (· + 1)
  pure (.ok ())

/-- The default parameters, with readings in whole cycles. -/
def defaultParams : FcycParams Int := ⟨3, 20, fun first last ↦ 100 * last ≤ 101 * first⟩

example : fcyc defaultParams countRun (fun i ↦ [1000, 5000, 1003, 1005, 900].getD i 0) 0 =
    some (.ok 1000, 4) := by decide

theorem fcyc_best_defaultParams : ∃ best runs,
    fcyc defaultParams countRun (fun i ↦ [1000, 5000, 1003, 1005, 900].getD i 0) 0 =
      some (.ok best, runs) ∧ best ≤ 1000 := by
  have hrun : ∀ t, True → Returns countRun t fun r _ ↦ True ∧ ∃ b, r = .ok b :=
    fun t _ ↦ ⟨.ok (), t + 1, rfl, trivial, (), rfl⟩
  obtain ⟨best, runs, n, hfcyc, -, -, -, hstops, hleast⟩ := fcyc_best (p := defaultParams)
    (fun i ↦ [1000, 5000, 1003, 1005, 900].getD i 0) (by decide) hrun (t := 0) trivial
  exact ⟨best, runs, hfcyc, hleast.2 ⟨0, hstops.positive, rfl⟩⟩

end SystemProgramming.MemoryLab.Driver
