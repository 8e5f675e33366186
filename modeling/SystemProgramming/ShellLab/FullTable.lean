import SystemProgramming.ShellLab.Reaping

/-!
# Children without a slot

`eval` does not look at what `addjob` returns: when the table is full the child goes on without a
slot, and if it stops, `sigchld_handler` looks for its job and finds a null pointer. As long as each
`addjob` has found a free slot, every child that has not been reaped has one (`Shell.Housed`), and
the handler finds it.
-/

set_option autoImplicit false
set_option relaxedAutoImplicit false

namespace SystemProgramming.ShellLab

open Library

/-- A slot is free. -/
def JobTable.HasRoom (t : JobTable) : Prop := ∃ i, ¬ (t.jobs i).InUse

/-- If the step adds a job, a slot is free. -/
def Shell.FindsRoom (s : Shell) (e : Event) : Prop := e = .add → s.table.HasRoom

theorem JobTable.getjobpid_eq_none {t : JobTable} {pid : Int} (h : ∀ i, (t.jobs i).pid ≠ pid) :
    t.getjobpid pid = none := by
  unfold getjobpid
  split_ifs
  · rfl
  · cases hslot : t.slotOf pid with
    | none => rfl
    | some i => exact absurd (slotOf_eq_some hslot) (h i)

theorem JobTable.getjobpid_ne_none {t : JobTable} {pid : Int} {i : Fin maxJobs} (hpid : 1 ≤ pid)
    (h : (t.jobs i).pid = pid) : t.getjobpid pid ≠ none := by
  intro hnone
  rw [getjobpid, if_neg (by omega)] at hnone
  exact slotOf_eq_none hnone i h

theorem JobTable.addjob_jobs {t : JobTable} {pid : Int} {state : JobState} {cmdline : String}
    {i : Fin maxJobs} (hused : (t.jobs i).InUse) :
    (t.addjob pid state cmdline).2.jobs i = t.jobs i := by
  unfold addjob
  split_ifs
  · rfl
  · cases hfree : t.freeSlot with
    | none => rfl
    | some j =>
      refine Function.update_of_ne ?_ _ _
      rintro rfl
      exact hused (freeSlot_eq_some hfree)

/-- A child has terminated and has not been reaped. -/
def Shell.Ended (s : Shell) (pid : Int) : Prop :=
  ∃ c, s.children pid = some c ∧ c.status.Terminated

/-- A job stays in the table until it is deleted. -/
theorem Shell.Step.slot {s s' : Shell} {e : Event} (hstep : s.Step e s') {i : Fin maxJobs}
    (hused : (s.table.jobs i).InUse) (he : e ≠ .delete (s.table.jobs i).pid) :
    (s'.table.jobs i).pid = (s.table.jobs i).pid := by
  cases hstep with
  | @delete pid hhandler =>
    rcases JobTable.deletejob_cases s.table pid with ⟨j, -, hj, hdelete⟩ | ⟨-, hdelete⟩
    · simp only [hdelete]
      rw [Function.update_of_ne]
      rintro rfl
      exact he (by rw [hj])
    · simp only [hdelete]
  | stop hhandler hjob => exact JobTable.setState_pid _ _ _ _
  | mark hoff hmain => exact JobTable.setState_pid _ _ _ _
  | add hoff hmain => exact congrArg Job.pid (JobTable.addjob_jobs hused)
  | _ => rfl

/-- A child goes on until it is reaped. -/
theorem Shell.Step.child {s s' : Shell} {e : Event} (hstep : s.Step e s') {pid : Int}
    (hchild : s.children pid ≠ none) (he : e ≠ .reap pid) : s'.children pid ≠ none := by
  have hupdate : ∀ {q : Int} {c : Option Child}, (q = pid → c ≠ none) →
      Function.update s.children q c pid ≠ none := by
    intro q c hc
    by_cases hq : pid = q
    · subst hq
      rw [Function.update_self]
      exact hc rfl
    · rwa [Function.update_of_ne hq]
  cases hstep with
  | change hc hbecomes => exact hupdate fun _ ↦ by simp
  | setpgid hc hrunning => exact hupdate fun _ ↦ by simp
  | report hhandler hc hstopped => exact hupdate fun _ ↦ by simp
  | fork hoff hmain hpid hnew => exact hupdate fun _ ↦ by simp
  | kill hoff hmain hreaches =>
    refine hupdate ?_
    rintro rfl
    simpa using hchild
  | reap hhandler hc hterminated => exact hupdate fun heq ↦ absurd (by rw [heq]) he
  | _ => exact hchild

/-- What the handler is about to delete it has just reaped. -/
theorem Shell.Step.deleting {s s' : Shell} {e : Event} (hstep : s.Step e s') {pid : Int}
    (h : s'.handler = .deleting pid) : e = .reap pid ∨ s.handler = .deleting pid := by
  cases hstep with
  | reap hhandler hc hterminated =>
    obtain rfl := Handler.deleting.inj h
    exact Or.inl rfl
  | deliver hpending hblocked hoff halive => exact absurd h (by simp)
  | delete hhandler => exact absurd h (by simp)
  | report hhandler hc hstopped => exact absurd h (by simp)
  | stop hhandler hjob => exact absurd h (by simp)
  | crash hhandler hjob => exact absurd h (by simp)
  | done hhandler hnone => exact absurd h (by simp)
  | _ => exact Or.inr h

/-- What the handler is about to mark as stopped has just been reported. -/
theorem Shell.Step.stopping {s s' : Shell} {e : Event} (hstep : s.Step e s') {pid : Int}
    (h : s'.handler = .stopping pid) : e = .report pid ∨ s.handler = .stopping pid := by
  cases hstep with
  | report hhandler hc hstopped =>
    obtain rfl := Handler.stopping.inj h
    exact Or.inl rfl
  | deliver hpending hblocked hoff halive => exact absurd h (by simp)
  | reap hhandler hc hterminated => exact absurd h (by simp)
  | delete hhandler => exact absurd h (by simp)
  | stop hhandler hjob => exact absurd h (by simp)
  | crash hhandler hjob => exact absurd h (by simp)
  | done hhandler hnone => exact absurd h (by simp)
  | _ => exact Or.inr h

/-- What the handler is about to delete is no child any more. -/
def Shell.Deleted (s : Shell) : Prop := ∀ pid, s.handler = .deleting pid → s.children pid = none

/-- Nothing is forked while the handler runs. -/
theorem Shell.Step.deleted {s s' : Shell} {e : Event} (h : s.Deleted) (hstep : s.Step e s') :
    s'.Deleted := by
  intro pid hhandler
  by_contra hc
  rcases hstep.deleting hhandler with rfl | hhandler
  · rcases hstep.children hc with he | ⟨-, he⟩
    · exact absurd he (by simp)
    · exact he rfl
  · rcases hstep.children hc with rfl | ⟨hc, -⟩
    · cases hstep with
      | fork hoff hmain hpid hnew => simp [hoff] at hhandler
    · exact hc (h pid hhandler)

/-- Every child that has not been reaped has a slot, or is about to get one. -/
structure Shell.Housed (s : Shell) : Prop where
  pos : ∀ pid, s.children pid ≠ none → 1 ≤ pid
  slot : ∀ pid, s.children pid ≠ none →
    (∃ i, (s.table.jobs i).pid = pid) ∨ ∃ bg cmdline, s.main = .add bg cmdline pid
  deleting : s.Deleted
  stopping : ∀ pid, s.handler = .stopping pid → s.children pid ≠ none

theorem Shell.Housed.start : Shell.start.Housed :=
  ⟨fun _ h ↦ absurd rfl h, fun _ h ↦ absurd rfl h, nofun, nofun⟩

/-- A job that is added has a slot, where one is free. -/
theorem JobTable.HasRoom.addjob {t : JobTable} (h : t.HasRoom) {pid : Int} (hpid : 1 ≤ pid)
    (state : JobState) (cmdline : String) :
    ∃ i, ((t.addjob pid state cmdline).2.jobs i).pid = pid := by
  rcases JobTable.addjob_cases t state cmdline hpid with ⟨i, -, hadd⟩ | ⟨hfull, -⟩
  · exact ⟨i, by simp [hadd]⟩
  · obtain ⟨i, hfree⟩ := h
    exact absurd (hfull i) hfree

/-- Every step keeps the children housed, if what is added finds room. -/
theorem Shell.Step.housed {s s' : Shell} {e : Event} (htracked : s.Tracked) (h : s.Housed)
    (hstep : s.Step e s') (hroom : s.FindsRoom e) : s'.Housed := by
  have hkept : ∀ pid, s'.children pid ≠ none → e = .fork pid ∨ s.children pid ≠ none := fun pid hc ↦
    (hstep.children hc).imp_right And.left
  refine ⟨fun pid hc ↦ ?_, fun pid hc ↦ ?_, fun pid hhandler ↦ ?_, fun pid hhandler ↦ ?_⟩
  · rcases hkept pid hc with rfl | hc
    · cases hstep with
      | fork hoff hmain hpid hnew => exact hpid
    · exact h.pos pid hc
  · rcases hstep.children hc with rfl | ⟨hc, hne⟩
    · cases hstep with
      | fork hoff hmain hpid hnew => exact Or.inr ⟨_, _, rfl⟩
    · have hpos := h.pos pid hc
      rcases h.slot pid hc with ⟨i, hi⟩ | ⟨bg, cmdline, hmain⟩
      · have hused : (s.table.jobs i).InUse := by
          rw [Job.InUse, hi]
          omega
        refine Or.inl ⟨i, (hstep.slot hused ?_).trans hi⟩
        rw [hi]
        rintro rfl
        cases hstep with
        | delete hhandler => exact hc (h.deleting pid hhandler)
      · have hoff := (htracked.masked (by rw [hmain]; trivial)).2
        cases hstep with
        | add hoff' hmain' =>
          obtain ⟨rfl, rfl, rfl⟩ := Main.add.inj (hmain.symm.trans hmain')
          exact Or.inl ((hroom rfl).addjob hpos _ _)
        | read hoff' hmain' => simp [hmain, Main.read] at hmain'
        | fail hoff' hmain' => simp [hmain] at hmain'
        | _ => simp_all
  · exact hstep.deleted h.deleting pid hhandler
  · rcases hstep.stopping hhandler with rfl | hbefore
    · cases hstep with
      | report hhandler' hc hstopped => simp
    · refine hstep.child (h.stopping pid hbefore) ?_
      rintro rfl
      cases hstep with
      | reap hreaping hc hterminated => exact absurd (hreaping.symm.trans hbefore) (by simp)

/-- In a run in which each job finds room, the handler finds each job that is reported stopped. -/
theorem Shell.Housed.getjobpid {s : Shell} (h : s.Housed) (htracked : s.Tracked) {pid : Int}
    (hhandler : s.handler = .stopping pid) : s.table.getjobpid pid ≠ none := by
  have hchild := h.stopping pid hhandler
  rcases h.slot pid hchild with ⟨i, hi⟩ | ⟨bg, cmdline, hmain⟩
  · exact JobTable.getjobpid_ne_none (h.pos pid hchild) hi
  · refine absurd ?_ (htracked.unmasked (by simp [hhandler]))
    rw [hmain]
    trivial

/-- A child that has not terminated may stop, with nobody told so far. -/
theorem Shell.stops {s : Shell} {pid : Int} {c : Child} (hchild : s.children pid = some c)
    (hgoing : ¬ c.status.Terminated) : ∃ labels, Steps Shell.Step s labels { s with
      children := Function.update s.children pid (some { c with status := .stopped false })
      pending := true } := by
  have hstop : ∀ {s : Shell} {grouped : Bool}, s.children pid = some ⟨.running, grouped⟩ →
      s.Step (.change pid) { s with
        children := Function.update s.children pid (some ⟨.stopped false, grouped⟩)
        pending := true } := fun h ↦ .change h .stop
  obtain ⟨status, grouped⟩ := c
  cases status with
  | running => exact ⟨_, .cons (hstop hchild) .nil⟩
  | stopped reported =>
    have hagain := hstop (s := { s with
      children := Function.update s.children pid (some ⟨.running, grouped⟩)
      pending := true }) (Function.update_self _ _ _)
    rw [Function.update_idem] at hagain
    exact ⟨_, .cons (.change hchild (.resume reported)) <| .cons hagain .nil⟩
  | exited => exact absurd trivial hgoing
  | signaled => exact absurd trivial hgoing

/-- Without room the child goes on without a slot, and may stop: the handler then finds no job. -/
theorem Shell.Tracked.misses {s : Shell} (h : s.Tracked) {bg : Bool} {cmdline : String} {pid : Int}
    (hmain : s.main = .add bg cmdline pid) (hfull : ¬ s.table.HasRoom) (hgoing : ¬ s.Ended pid) :
    ∃ labels s', Steps Shell.Step s labels s' ∧ s'.handler = .stopping pid ∧
      s'.table.getjobpid pid = none := by
  obtain ⟨hpid, hsome, hnew⟩ := h.newborn bg cmdline pid hmain
  have hoff := (h.masked (by rw [hmain]; trivial)).2
  obtain ⟨c, hc⟩ := Option.ne_none_iff_exists'.mp hsome
  have hrefused : (s.table.addjob pid (if bg then .bg else .fg) cmdline).2 = s.table := by
    rcases JobTable.addjob_cases s.table (if bg then .bg else .fg) cmdline hpid with
      ⟨i, hfree, -⟩ | ⟨-, hadd⟩
    · exact absurd ⟨i, fun hused ↦ hused hfree⟩ hfull
    · rw [hadd]
  have hadd := Shell.Step.add hoff hmain
  rw [hrefused] at hadd
  let t : Shell := { s with blocked := false, main := if bg then .prompt else waitfg pid }
  have hunblock : Shell.Step { s with main := .unblock bg pid } .unblock t := .unblock hoff rfl
  obtain ⟨labels, hstops⟩ := Shell.stops (s := t) hc fun hended ↦ hgoing ⟨c, hc, hended⟩
  have halive : t.main ≠ .exited := by
    cases bg
    · simp only [t, Bool.false_eq_true, if_false, waitfg]
      split_ifs <;> simp
    · simp [t]
  refine ⟨_, _, .cons hadd <| .cons hunblock <| hstops.append <| .cons
    (.deliver rfl rfl hoff halive) <| .cons (.report rfl (Function.update_self _ _ _) rfl) .nil,
    rfl, JobTable.getjobpid_eq_none hnew⟩

/-- In every run in which each `addjob` finds a free slot, the handler finds each job that is
reported stopped. An `addjob` that does not, for a child that has not terminated, may lead to one
that it does not find. -/
theorem shell_stops {events : List Event} {s : Shell} :
    (Run (· = Shell.start) (fun s e s' ↦ s.Step e s' ∧ s.FindsRoom e) events s →
      ∀ pid, s.handler = .stopping pid → s.table.getjobpid pid ≠ none) ∧
    (Shell.Reached events s → ∀ bg cmdline pid, s.main = .add bg cmdline pid →
      ¬ s.table.HasRoom → ¬ s.Ended pid →
        ∃ labels s', Steps Shell.Step s labels s' ∧ s'.handler = .stopping pid ∧
          s'.table.getjobpid pid = none) := by
  refine ⟨fun hrun pid hhandler ↦ ?_, fun h bg cmdline pid hmain hfull hgoing ↦
    h.tracked.misses hmain hfull hgoing⟩
  have hinv := Run.invariant (P := fun s ↦ s.Tracked ∧ s.Housed)
    (by rintro _ rfl; exact ⟨Shell.Tracked.start, Shell.Housed.start⟩)
    (fun s e s' hinv hstep ↦ ⟨hstep.1.tracked hinv.1, hstep.1.housed hinv.1 hinv.2 hstep.2⟩) hrun
  exact hinv.2.getjobpid hinv.1 hhandler

theorem shell_stops_found : ∃ s,
    Run (· = Shell.start) (fun s e s' ↦ s.Step e s' ∧ s.FindsRoom e)
      [.command (.run true "a &"), .block, .fork 100, .add, .unblock, .change 100, .deliver,
        .report 100] s ∧
      s.table.getjobpid 100 ≠ none := by
  have hother : ∀ {s s' : Shell} {e : Event}, s.Step e s' → e ≠ .add →
      s.Step e s' ∧ s.FindsRoom e := fun hstep he ↦ ⟨hstep, fun heq ↦ absurd heq he⟩
  obtain ⟨s, hsteps, hhandler⟩ : ∃ s,
      Steps (fun s e s' ↦ s.Step e s' ∧ s.FindsRoom e) Shell.start
        [.command (.run true "a &"), .block, .fork 100, .add, .unblock, .change 100, .deliver,
          .report 100] s ∧ s.handler = .stopping 100 :=
    ⟨_, .cons (hother (.command _ rfl rfl) (by decide)) <|
      .cons (hother (.block rfl rfl) (by decide)) <|
      .cons (hother (.fork rfl rfl (by decide) rfl) (by decide)) <|
      .cons ⟨.add rfl rfl, fun _ ↦ ⟨0, not_inUse_clearjob⟩⟩ <|
      .cons (hother (.unblock rfl rfl) (by decide)) <|
      .cons (hother (.change rfl .stop) (by decide)) <|
      .cons (hother (.deliver rfl rfl rfl (by decide)) (by decide)) <|
      .cons (hother (.report rfl rfl rfl) (by decide)) .nil, rfl⟩
  have hrun : Run (· = Shell.start) _ _ s := hsteps.run rfl
  exact ⟨s, hrun, shell_stops.1 hrun 100 hhandler⟩

/-! ### A full table -/

/-- A command in the background, with this pid. -/
def launch (pid : Int) : List Event :=
  [.command (.run true ""), .block, .fork pid, .add, .unblock]

/-- The shell at the prompt with jobs in the first `k` slots. -/
structure Shell.Filled (s : Shell) (k : Nat) : Prop where
  main : s.main = .prompt
  handler : s.handler = .off
  pending : s.pending = false
  pids : ∀ i, (s.table.jobs i).pid = if (i : Nat) < k then (i : Int) + 1 else 0
  children : ∀ pid : Int, k < pid → s.children pid = none

theorem Shell.Filled.launch {s : Shell} {k : Nat} (h : s.Filled k) (hk : k < maxJobs) :
    ∃ s', Steps Shell.Step s (launch (k + 1)) s' ∧ s'.Filled (k + 1) := by
  have hpid : 1 ≤ (k : Int) + 1 := by omega
  have hadd := JobTable.addjob_first (t := s.table) (i := ⟨k, hk⟩) .bg "" hpid
    (by rw [h.pids, if_neg (by simp)]) fun j hj ↦ by
      rw [h.pids, if_pos (show (j : Nat) < k from hj)]
      omega
  refine ⟨_, .cons (.command _ h.handler h.main) <| .cons (.block h.handler rfl) <|
    .cons (.fork h.handler rfl (by omega) (h.children _ (by omega))) <| .cons (.add h.handler rfl) <|
    .cons (.unblock h.handler rfl) .nil, ⟨rfl, h.handler, h.pending, fun i ↦ ?_, fun pid hpid ↦ ?_⟩⟩
  · simp only [if_true, hadd]
    by_cases hi : i = ⟨k, hk⟩
    · subst hi
      simp
    · rw [Function.update_of_ne hi, h.pids]
      have hne : (i : Nat) ≠ k := fun heq ↦ hi (Fin.ext heq)
      by_cases hlt : (i : Nat) < k
      · rw [if_pos hlt, if_pos (by omega)]
      · rw [if_neg hlt, if_neg (by omega)]
  · dsimp only
    rw [Function.update_of_ne (by omega)]
    exact h.children pid (by omega)

theorem Shell.exists_filled (k : Nat) (hk : k ≤ maxJobs) : ∃ s,
    Shell.Reached ((List.range k).flatMap fun n : Nat ↦ launch (n + 1)) s ∧ s.Filled k := by
  induction k with
  | zero => exact ⟨.start, .start rfl, rfl, rfl, rfl, fun i ↦ rfl, fun pid _ ↦ rfl⟩
  | succ k ih =>
    obtain ⟨s, hreached, hfilled⟩ := ih (by omega)
    obtain ⟨s', hsteps, hfilled'⟩ := hfilled.launch hk
    refine ⟨s', ?_, hfilled'⟩
    rw [List.range_succ, List.flatMap_append, List.flatMap_singleton]
    exact hreached.append hsteps

theorem Shell.Filled.full {s : Shell} (h : s.Filled maxJobs) : ¬ s.table.HasRoom := by
  rintro ⟨i, hi⟩
  refine hi ?_
  rw [Job.InUse, h.pids, if_pos i.isLt]
  omega

/-- The child of a command that is given with a full table. -/
theorem Shell.exists_full (bg : Bool) : ∃ s,
    Shell.Reached (((List.range maxJobs).flatMap fun n : Nat ↦ launch (n + 1)) ++
      [.command (.run bg ""), .block, .fork 17]) s ∧
      s.main = .add bg "" 17 ∧ ¬ s.table.HasRoom ∧ s.children 17 = some ⟨.running, false⟩ := by
  obtain ⟨s, hreached, hfilled⟩ := Shell.exists_filled maxJobs (Nat.le_refl _)
  have hchild : s.children 17 = none := hfilled.children 17 (by decide)
  exact ⟨_, hreached.append <| .cons (.command _ hfilled.handler hfilled.main) <|
    .cons (.block hfilled.handler rfl) <|
    .cons (.fork hfilled.handler rfl (by decide) hchild) .nil,
    rfl, hfilled.full, by simp⟩

/-- With sixteen jobs in the table, a seventeenth child stops, and its job is missing. -/
theorem shell_stops_missing : ∃ events s,
    Shell.Reached (((List.range maxJobs).flatMap fun n : Nat ↦ launch (n + 1)) ++
      [.command (.run true ""), .block, .fork 17] ++ events) s ∧
      s.handler = .stopping 17 ∧ s.table.getjobpid 17 = none := by
  obtain ⟨s, hreached, hmain, hfull, hchild⟩ := Shell.exists_full true
  obtain ⟨events, s', hsteps, hhandler, hmissing⟩ := hreached.tracked.misses hmain hfull (by
    rintro ⟨c, hc, hterminated⟩
    obtain rfl := Option.some.inj (hchild.symm.trans hc)
    exact hterminated)
  exact ⟨events, s', hreached.append hsteps, hhandler, hmissing⟩

end SystemProgramming.ShellLab
