import SystemProgramming.ShellLab.Shell

/-!
# The table and the children

Between a fork and `addjob` the handler cannot run, so a child is in the table before it is reaped;
and every change of a child leaves the signal pending until the handler has begun, which reaps until
there is nothing left to report. `Shell.Tracked` is the invariant that says so. Outside the handler
the table then holds different pids of children that have been forked and not reaped, and once all
children have terminated and no signal is pending it is empty (`shell_reaps`).
-/

set_option autoImplicit false
set_option relaxedAutoImplicit false

namespace SystemProgramming.ShellLab

open Library

/-- The places of the main program at which the signal is blocked. -/
def Main.Masked : Main → Prop
  | fork _ _ => True
  | add _ _ _ => True
  | unblock _ _ => True
  | _ => False

theorem Command.begin_not_masked (c : Command) : ¬ c.begin.Masked := by
  cases c with
  | bgfg bg job =>
    simp only [Command.begin]
    split_ifs <;> exact id
  | _ => exact id

theorem waitfg_not_masked (pid : Int) : ¬ (waitfg pid).Masked := by
  unfold waitfg
  split_ifs <;> exact id

theorem Main.read_not_masked {t : JobTable} {main main' : Main} (h : main.read t = some main') :
    ¬ main'.Masked := by
  have htest : ∀ pid fgpid, ¬ (waitfgTest pid fgpid).Masked := fun pid fgpid ↦ by
    unfold waitfgTest
    split_ifs <;> exact id
  unfold Main.read at h
  split at h
  · obtain rfl := Option.some.inj h
    split_ifs <;> exact id
  · obtain rfl := Option.some.inj h
    exact id
  · obtain rfl := Option.some.inj h
    exact waitfg_not_masked _
  · obtain rfl := Option.some.inj h
    split_ifs
    · exact id
    · exact id
    · exact htest _ _
  · obtain rfl := Option.some.inj h
    exact htest _ _
  · exact absurd h (by simp)

/-- The table keeps track of the children. -/
structure Shell.Tracked (s : Shell) : Prop where
  tidy : s.table.Tidy
  unreaped : ∀ i, (s.table.jobs i).InUse → s.children (s.table.jobs i).pid ≠ none ∨
    s.handler = .deleting (s.table.jobs i).pid
  signalled : ∀ pid c, s.children pid = some c → c.status.Waitable →
    s.pending = true ∨ s.handler ≠ .off
  masked : s.main.Masked → s.blocked = true ∧ s.handler = .off
  newborn : ∀ bg cmdline pid, s.main = .add bg cmdline pid → 1 ≤ pid ∧ s.children pid ≠ none ∧
    ∀ i, (s.table.jobs i).pid ≠ pid

namespace Shell.Tracked

variable {s : Shell}

theorem start : Shell.start.Tracked := by
  refine ⟨JobTable.Tidy.start, fun i hi ↦ absurd hi (not_inUse_clearjob), ?_, fun h ↦ absurd h id,
    fun bg cmdline pid h ↦ absurd h (by simp [Shell.start])⟩
  intro pid c hc
  exact absurd hc (by simp [Shell.start])

/-- The main program goes on, to where the signal is not blocked. -/
theorem goto (h : s.Tracked) {main : Main} {blocked : Bool} (hmain : ¬ main.Masked) :
    Shell.Tracked { s with blocked := blocked, main := main } where
  tidy := h.tidy
  unreaped := h.unreaped
  signalled := h.signalled
  masked := fun hmasked ↦ absurd hmasked hmain
  newborn := by
    rintro bg cmdline pid rfl
    exact absurd trivial hmain

/-- A child changes. -/
theorem update (h : s.Tracked) {pid : Int} {c c' : Child} {pending : Bool}
    (hchild : s.children pid = some c) (hpending : s.pending = true → pending = true)
    (hwaitable : c'.status.Waitable → pending = true ∨ s.handler ≠ .off) :
    Shell.Tracked { s with
      children := Function.update s.children pid (some c')
      pending := pending } := by
  have hkept : ∀ q, s.children q ≠ none → Function.update s.children pid (some c') q ≠ none := by
    intro q hq
    by_cases hqpid : q = pid
    · subst hqpid
      simp
    · rwa [Function.update_of_ne hqpid]
  refine ⟨h.tidy, fun i hi ↦ (h.unreaped i hi).imp_left (hkept _), fun q d hd hdw ↦ ?_, h.masked,
    fun bg cmdline q hq ↦ ?_⟩
  · by_cases hqpid : q = pid
    · subst hqpid
      simp only [Function.update_self, Option.some.injEq] at hd
      subst hd
      exact hwaitable hdw
    · simp only [Function.update_of_ne hqpid] at hd
      exact (h.signalled q d hd hdw).imp_left hpending
  · obtain ⟨hpos, hsome, hnew⟩ := h.newborn bg cmdline q hq
    exact ⟨hpos, hkept q hsome, hnew⟩

/-- The handler is at work: the signal is not blocked, and nothing has to be pending. -/
theorem handle (h : s.Tracked) {handler : Handler} {pending : Bool} (hon : handler ≠ .off)
    (hunmasked : ¬ s.main.Masked)
    (hunreaped : ∀ i, (s.table.jobs i).InUse → s.children (s.table.jobs i).pid ≠ none ∨
      handler = .deleting (s.table.jobs i).pid) :
    Shell.Tracked { s with pending := pending, handler := handler } where
  tidy := h.tidy
  unreaped := hunreaped
  signalled := fun _ _ _ _ ↦ Or.inr hon
  masked := fun hmasked ↦ absurd hmasked hunmasked
  newborn := h.newborn

/-- The state of a job is of no account. -/
theorem setState (h : s.Tracked) (i : Fin maxJobs) (state : JobState) :
    Shell.Tracked { s with table := s.table.setState i state } where
  tidy := h.tidy.setState
  unreaped := fun j hj ↦ by
    rw [JobTable.setState_pid]
    exact h.unreaped j (by simpa [Job.InUse] using hj)
  signalled := h.signalled
  masked := h.masked
  newborn := fun bg cmdline pid hmain ↦ by
    obtain ⟨hpos, hsome, hnew⟩ := h.newborn bg cmdline pid hmain
    exact ⟨hpos, hsome, fun j ↦ by rw [JobTable.setState_pid]; exact hnew j⟩

/-- While the handler runs, the signal is not blocked. -/
theorem unmasked (h : s.Tracked) (hon : s.handler ≠ .off) : ¬ s.main.Masked :=
  fun hmasked ↦ hon (h.masked hmasked).2

/-- A child is reaped. Its job is about to be deleted. -/
theorem reap (h : s.Tracked) {pid : Int} (hhandler : s.handler = .reaping) :
    Shell.Tracked { s with
      children := Function.update s.children pid none
      handler := .deleting pid } where
  tidy := h.tidy
  unreaped := fun i hi ↦ by
    by_cases heq : (s.table.jobs i).pid = pid
    · exact Or.inr (by rw [heq])
    · dsimp only
      rw [Function.update_of_ne heq]
      refine Or.inl ((h.unreaped i hi).resolve_right ?_)
      rw [hhandler]
      simp
  signalled := fun _ _ _ _ ↦ Or.inr (by simp)
  masked := fun hmasked ↦ absurd hmasked (h.unmasked (by simp [hhandler]))
  newborn := fun bg cmdline q hmain ↦ by
    refine absurd ?_ (h.unmasked (by simp [hhandler]))
    rw [show s.main = .add bg cmdline q from hmain]
    trivial

/-- The job of the child that has been reaped is deleted. -/
theorem delete (h : s.Tracked) {pid : Int} (hhandler : s.handler = .deleting pid) :
    Shell.Tracked { s with
      table := (s.table.deletejob pid).2
      handler := .reaping } := by
  have hunmasked := h.unmasked (by simp [hhandler])
  refine ⟨h.tidy.deletejob, fun i hi ↦ Or.inl ?_, fun _ _ _ _ ↦ Or.inr (by simp),
    fun hmasked ↦ absurd hmasked hunmasked, fun bg cmdline q hmain ↦ ?_⟩
  · have hother : (s.table.jobs i).InUse → (s.table.jobs i).pid ≠ pid →
        s.children (s.table.jobs i).pid ≠ none := by
      intro hused hne
      refine (h.unreaped i hused).resolve_right ?_
      rw [hhandler]
      simpa using fun heq : pid = _ ↦ hne heq.symm
    rcases JobTable.deletejob_cases s.table pid with ⟨j, -, hj, hdelete⟩ | ⟨hnone, hdelete⟩
    · simp only [hdelete] at hi ⊢
      by_cases hij : i = j
      · subst hij
        rw [Function.update_self] at hi
        exact absurd hi not_inUse_clearjob
      · rw [Function.update_of_ne hij] at hi ⊢
        refine hother hi fun heq ↦ hij ?_
        exact h.tidy.pids i j hi (show (s.table.jobs j).pid ≠ 0 by rwa [hj, ← heq])
          (heq.trans hj.symm)
    · simp only [hdelete] at hi ⊢
      refine hother hi fun heq ↦ ?_
      rcases hnone with hlow | hnone
      · have hpos := h.tidy.pos i hi
        omega
      · exact hnone i heq
  · refine absurd ?_ hunmasked
    rw [show s.main = .add bg cmdline q from hmain]
    trivial

/-- The handler returns when there is nothing left to report. -/
theorem done (h : s.Tracked) (hhandler : s.handler = .reaping)
    (hnone : ∀ pid c, s.children pid = some c → ¬ c.status.Waitable) :
    Shell.Tracked { s with handler := .off } where
  tidy := h.tidy
  unreaped := fun i hi ↦ Or.inl ((h.unreaped i hi).resolve_right (by simp [hhandler]))
  signalled := fun pid c hc hwaitable ↦ absurd hwaitable (hnone pid c hc)
  masked := fun hmasked ↦ ⟨(h.masked hmasked).1, rfl⟩
  newborn := h.newborn

/-- A child is forked, with the signal blocked. -/
theorem fork (h : s.Tracked) {bg : Bool} {cmdline : String} {pid : Int}
    (hmain : s.main = .fork bg cmdline) (hpid : 1 ≤ pid) (hnew : s.children pid = none) :
    Shell.Tracked { s with
      children := Function.update s.children pid (some ⟨.running, false⟩)
      main := .add bg cmdline pid } := by
  have hmasked := h.masked (by rw [hmain]; trivial)
  have hne : ∀ i, (s.table.jobs i).InUse → (s.table.jobs i).pid ≠ pid := fun i hi heq ↦ by
    rcases h.unreaped i hi with hsome | hdeleting
    · exact hsome (heq ▸ hnew)
    · rw [hmasked.2] at hdeleting
      exact absurd hdeleting (by simp)
  refine ⟨h.tidy, fun i hi ↦ ?_, fun q c hc hwaitable ↦ ?_, fun _ ↦ hmasked, ?_⟩
  · dsimp only
    rw [Function.update_of_ne (hne i hi)]
    exact h.unreaped i hi
  · by_cases hq : q = pid
    · subst hq
      simp only [Function.update_self, Option.some.injEq] at hc
      subst hc
      exact absurd hwaitable id
    · simp only [Function.update_of_ne hq] at hc
      exact h.signalled q c hc hwaitable
  · intro bg' cmdline' q hq
    obtain ⟨-, -, rfl⟩ := Main.add.inj hq
    refine ⟨hpid, by simp, fun i heq ↦ hne i ?_ heq⟩
    rw [Job.InUse, heq]
    omega

/-- The child gets its slot before the signal is unblocked. -/
theorem add (h : s.Tracked) {bg : Bool} {cmdline : String} {pid : Int} {state : JobState}
    (hmain : s.main = .add bg cmdline pid) :
    Shell.Tracked { s with
      table := (s.table.addjob pid state cmdline).2
      main := .unblock bg pid } := by
  obtain ⟨hpid, hsome, hnew⟩ := h.newborn bg cmdline pid hmain
  have hmasked := h.masked (by rw [hmain]; trivial)
  refine ⟨h.tidy.addjob hpid hnew, fun i hi ↦ ?_, h.signalled, fun _ ↦ hmasked,
    fun bg' cmdline' q hq ↦ absurd hq (by simp)⟩
  rcases JobTable.addjob_cases s.table state cmdline hpid with ⟨j, -, hadd⟩ | ⟨-, hadd⟩
  · simp only [hadd] at hi ⊢
    by_cases hij : i = j
    · subst hij
      rw [Function.update_self]
      exact Or.inl hsome
    · rw [Function.update_of_ne hij] at hi ⊢
      exact h.unreaped i hi
  · simp only [hadd] at hi ⊢
    exact h.unreaped i hi

/-- A stopped child goes on. -/
theorem kill (h : s.Tracked) {pid : Int} : Shell.Tracked { s with
    children := Function.update s.children pid ((s.children pid).map Child.continued)
    pending := s.pending || ((s.children pid).map Child.continued != s.children pid) } := by
  cases hchild : s.children pid with
  | none =>
    rw [Option.map_none, ← hchild, Function.update_eq_self, hchild]
    simpa using h
  | some c =>
    rw [Option.map_some]
    refine h.update hchild (fun hpending ↦ by simp [hpending]) fun hwaitable ↦ ?_
    obtain ⟨status, grouped⟩ := c
    unfold Child.continued at hwaitable
    split at hwaitable
    · exact absurd hwaitable id
    · exact (h.signalled pid _ hchild hwaitable).imp_left fun hpending ↦ by simp [hpending]

end Shell.Tracked

/-- Every step keeps track of the children. -/
theorem Shell.Step.tracked {s s' : Shell} {e : Event} (h : s.Tracked) (hstep : s.Step e s') :
    s'.Tracked := by
  cases hstep with
  | change hchild hbecomes => exact h.update hchild (fun _ ↦ rfl) fun _ ↦ Or.inl rfl
  | setpgid hchild hrunning =>
    refine h.update hchild id fun hwaitable ↦ ?_
    rw [show _ = ChildStatus.running from hrunning] at hwaitable
    exact absurd hwaitable id
  | raise => exact ⟨h.tidy, h.unreaped, fun _ _ _ _ ↦ Or.inl rfl, h.masked, h.newborn⟩
  | deliver hpending hblocked hoff halive =>
    refine h.handle (by simp) (fun hmasked ↦ ?_) fun i hi ↦
      Or.inl ((h.unreaped i hi).resolve_right (by simp [hoff]))
    exact absurd (h.masked hmasked).1 (by simp [hblocked])
  | reap hhandler hchild hterminated => exact h.reap hhandler
  | delete hhandler => exact h.delete hhandler
  | @report pid c hhandler hchild hstopped =>
    have hupdate : Shell.Tracked { s with
        children := Function.update s.children pid (some { c with status := .stopped true }) } :=
      h.update hchild id fun _ ↦ Or.inr (by simp [hhandler])
    exact hupdate.handle (by simp) (hupdate.unmasked (by simp [hhandler])) fun i hi ↦
      Or.inl ((hupdate.unreaped i hi).resolve_right (by simp [hhandler]))
  | stop hhandler hjob =>
    exact (h.setState _ _).handle (by simp) (h.unmasked (by simp [hhandler])) fun i hi ↦
      Or.inl (((h.setState _ _).unreaped i hi).resolve_right (by simp [hhandler]))
  | crash hhandler hjob =>
    exact h.handle (by simp) (h.unmasked (by simp [hhandler])) fun i hi ↦
      Or.inl ((h.unreaped i hi).resolve_right (by simp [hhandler]))
  | done hhandler hnone => exact h.done hhandler hnone
  | command c hoff hmain => exact h.goto c.begin_not_masked
  | block hoff hmain =>
    exact ⟨h.tidy, h.unreaped, h.signalled, fun _ ↦ ⟨rfl, hoff⟩,
      fun bg' cmdline' q hq ↦ absurd hq (by simp)⟩
  | fork hoff hmain hpid hnew => exact h.fork hmain hpid hnew
  | add hoff hmain => exact h.add hmain
  | @unblock bg pid hoff hmain =>
    refine h.goto ?_
    cases bg
    · exact waitfg_not_masked pid
    · exact id
  | read hoff hmain => exact h.goto (Main.read_not_masked hmain)
  | kill hoff hmain hreaches => exact h.kill.goto id
  | @mark bg job hoff hmain =>
    refine (h.setState _ _).goto ?_
    cases bg <;> exact id
  | fail hoff hmain => exact h.goto id

/-- The runs of the shell. -/
abbrev Shell.Reached : List Event → Shell → Prop := Run (· = Shell.start) Shell.Step

theorem Shell.Reached.tracked {events : List Event} {s : Shell} (h : Shell.Reached events s) :
    s.Tracked :=
  Run.invariant (by rintro _ rfl; exact Shell.Tracked.start)
    (fun _ _ _ htracked hstep ↦ hstep.tracked htracked) h

/-- A child has been forked and not reaped since. -/
def Unreaped (events : List Event) (pid : Int) : Prop :=
  ∃ before after, events = before ++ .fork pid :: after ∧ .reap pid ∉ after

theorem Unreaped.snoc {events : List Event} {pid : Int} {e : Event} (h : Unreaped events pid)
    (he : e ≠ .reap pid) : Unreaped (events ++ [e]) pid := by
  obtain ⟨before, after, rfl, hafter⟩ := h
  refine ⟨before, after ++ [e], by simp, fun hmem ↦ ?_⟩
  rcases List.mem_append.mp hmem with hmem | hmem
  · exact hafter hmem
  · exact he (List.mem_singleton.mp hmem).symm

/-- A step makes no child but by a fork, and ends none that goes on. -/
theorem Shell.Step.children {s s' : Shell} {e : Event} (hstep : s.Step e s') {pid : Int}
    (hchild : s'.children pid ≠ none) :
    e = .fork pid ∨ (s.children pid ≠ none ∧ e ≠ .reap pid) := by
  have hupdate : ∀ {q : Int} {c : Option Child},
      Function.update s.children q c pid ≠ none → (q = pid → s.children pid ≠ none) →
        s.children pid ≠ none := by
    intro q c hne hq
    by_cases hqp : pid = q
    · exact hq hqp.symm
    · rwa [Function.update_of_ne hqp] at hne
  cases hstep with
  | change hc hbecomes =>
    exact Or.inr ⟨hupdate hchild (by rintro rfl; simp [hc]), by simp⟩
  | setpgid hc hrunning =>
    exact Or.inr ⟨hupdate hchild (by rintro rfl; simp [hc]), by simp⟩
  | report hhandler hc hstopped =>
    exact Or.inr ⟨hupdate hchild (by rintro rfl; simp [hc]), by simp⟩
  | kill hoff hmain hreaches =>
    refine Or.inr ⟨hupdate hchild ?_, by simp⟩
    rintro rfl hnone
    simp [hnone] at hchild
  | @reap q c hhandler hc hterminated =>
    by_cases hq : pid = q
    · subst hq
      simp at hchild
    · exact Or.inr ⟨hupdate hchild fun heq ↦ absurd heq.symm hq, by simpa using Ne.symm hq⟩
  | @fork bg cmdline q hoff hmain hpid hnew =>
    by_cases hq : pid = q
    · exact Or.inl (by rw [hq])
    · exact Or.inr ⟨hupdate hchild fun heq ↦ absurd heq.symm hq, by simp⟩
  | _ => exact Or.inr ⟨hchild, by simp⟩

theorem Shell.Reached.unreaped {events : List Event} {s : Shell} (h : Shell.Reached events s)
    {pid : Int} (hchild : s.children pid ≠ none) : Unreaped events pid := by
  induction h with
  | start hinit =>
    rw [hinit] at hchild
    exact absurd rfl hchild
  | step hrun hstep ih =>
    rcases hstep.children hchild with rfl | ⟨hchild, hne⟩
    · exact ⟨_, [], rfl, by simp⟩
    · exact (ih hchild).snoc hne

/-- Outside the handler, the pids in the table are different and each is that of a child that has
been forked and not reaped; and once all children have terminated and no signal is pending, there
are none. -/
theorem shell_reaps {events : List Event} {s : Shell} (h : Shell.Reached events s)
    (hoff : s.handler = .off) :
    (∀ i j, (s.table.jobs i).pid ≠ 0 → (s.table.jobs i).pid = (s.table.jobs j).pid → i = j) ∧
    (∀ i, (s.table.jobs i).pid ≠ 0 →
      s.children (s.table.jobs i).pid ≠ none ∧ Unreaped events (s.table.jobs i).pid) ∧
    ((∀ pid c, s.children pid = some c → c.status.Terminated) → s.pending = false →
      ∀ i, (s.table.jobs i).pid = 0) := by
  have htracked := h.tracked
  have hunreaped : ∀ i, (s.table.jobs i).pid ≠ 0 → s.children (s.table.jobs i).pid ≠ none :=
    fun i hi ↦ (htracked.unreaped i hi).resolve_right (by simp [hoff])
  refine ⟨fun i j hi hij ↦ htracked.tidy.pids i j hi (ne_of_eq_of_ne hij.symm hi) hij,
    fun i hi ↦ ⟨hunreaped i hi, h.unreaped (hunreaped i hi)⟩, fun hterminated hpending i ↦ ?_⟩
  by_contra hi
  obtain ⟨c, hc⟩ := Option.ne_none_iff_exists'.mp (hunreaped i hi)
  rcases htracked.signalled _ c hc (hterminated _ c hc).waitable with hpending' | hon
  · rw [hpending] at hpending'
    exact absurd hpending' (by simp)
  · exact hon hoff

theorem shell_reaps_early : ∃ s, Shell.Reached [.command (.run true "a &"), .block, .fork 100,
    .change 100, .add, .unblock, .deliver, .reap 100, .delete 100, .done] s ∧
    ∀ i, (s.table.jobs i).pid = 0 := by
  have hsteps : ∃ s, Steps Shell.Step Shell.start [.command (.run true "a &"), .block, .fork 100,
      .change 100, .add, .unblock, .deliver, .reap 100, .delete 100, .done] s ∧
      s.handler = .off ∧ s.pending = false ∧ ∀ pid, s.children pid = none := by
    refine ⟨_, .cons (.command _ rfl rfl) <| .cons (.block rfl rfl) <|
      .cons (.fork rfl rfl (by decide) rfl) <| .cons (.change rfl .exit) <| .cons (.add rfl rfl) <|
      .cons (.unblock rfl rfl) <| .cons (.deliver rfl rfl rfl (by decide)) <|
      .cons (.reap rfl rfl trivial) <| .cons (.delete rfl) <| .cons (.done rfl ?_) .nil, rfl, rfl, ?_⟩
    · intro pid c hc
      by_cases hpid : pid = 100 <;> simp [hpid, Shell.start] at hc
    · intro pid
      by_cases hpid : pid = 100 <;> simp [hpid, Shell.start]
  obtain ⟨s, hsteps, hoff, hpending, hnone⟩ := hsteps
  have hreached : Shell.Reached _ s := hsteps.run rfl
  refine ⟨s, hreached, (shell_reaps hreached hoff).2.2 (fun pid c hc ↦ ?_) hpending⟩
  rw [hnone] at hc
  exact absurd hc (by simp)

end SystemProgramming.ShellLab
