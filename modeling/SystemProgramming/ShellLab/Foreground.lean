import SystemProgramming.ShellLab.Reaping

/-!
# The foreground job

No job is in the foreground at the prompt, and while a command is waited for only its own slot can
be (`Main.Awaits`); the handler takes jobs out of the foreground and puts none there. What can go
wrong is one assignment: `do_bgfg` holds a pointer to the slot of a job while `SIGCHLD` is not
blocked, and when the job has been deleted in the meantime, `fg` marks a free slot as the foreground
job. The foreground job is unique, and has a pid, as long as that does not happen, and no longer
(`shell_foreground`).
-/

set_option autoImplicit false
set_option relaxedAutoImplicit false

namespace SystemProgramming.ShellLab

open Library

/-- At most one slot is in the foreground, and it has a pid. -/
structure JobTable.OneForeground (t : JobTable) : Prop where
  unique : ∀ i j, (t.jobs i).state = .fg → (t.jobs j).state = .fg → i = j
  inUse : ∀ i, (t.jobs i).state = .fg → (t.jobs i).InUse

/-- `fgpid` then returns the pid of the foreground job. -/
theorem JobTable.OneForeground.fgpid {t : JobTable} (h : t.OneForeground) {i : Fin maxJobs}
    (hi : (t.jobs i).state = .fg) : t.fgpid = (t.jobs i).pid := by
  rcases t.fgpid_cases with ⟨j, hj, -, heq⟩ | ⟨hnone, -⟩
  · rw [heq, h.unique j i hj hi]
  · exact absurd hi (hnone i)

/-- The slot that may be in the foreground when the main program is here: that of the command it
waits for, or is about to wait for. -/
def Main.Awaits (i : Fin maxJobs) (pid : Int) : Main → Prop
  | unblock bg p => bg = false ∧ pid = p
  | await job => i = job
  | scan p slot => pid = p ∧ slot ≤ i
  | compare p slot => pid = p ∧ i = slot
  | _ => False

/-- The invariant of the foreground job. -/
structure Shell.Attends (s : Shell) : Prop where
  one : s.table.OneForeground
  awaited : ∀ i, (s.table.jobs i).state = .fg → s.main.Awaits i (s.table.jobs i).pid

namespace Shell.Attends

variable {s s' : Shell}

theorem start : Shell.start.Attends := by
  have hnone : ∀ i, (Shell.start.table.jobs i).state ≠ .fg := fun _ ↦ by
    simp [Shell.start, JobTable.start, JobTable.initjobs, clearjob]
  exact ⟨⟨fun i _ hi ↦ absurd hi (hnone i), fun i hi ↦ absurd hi (hnone i)⟩,
    fun i hi ↦ absurd hi (hnone i)⟩

/-- Jobs leave the foreground. -/
theorem shrink (h : s.Attends) (hmain : s'.main = s.main)
    (hjobs : ∀ i, (s'.table.jobs i).state = .fg →
      (s.table.jobs i).state = .fg ∧ (s'.table.jobs i).pid = (s.table.jobs i).pid) :
    s'.Attends := by
  refine ⟨⟨fun i j hi hj ↦ h.one.unique i j (hjobs i hi).1 (hjobs j hj).1, fun i hi ↦ ?_⟩,
    fun i hi ↦ ?_⟩
  · obtain ⟨hfg, hpid⟩ := hjobs i hi
    rw [Job.InUse, hpid]
    exact h.one.inUse i hfg
  · obtain ⟨hfg, hpid⟩ := hjobs i hi
    rw [hmain, hpid]
    exact h.awaited i hfg

/-- The main program goes on, and leaves the table. -/
theorem goto (h : s.Attends) (htable : s'.table = s.table)
    (hmain : ∀ i, (s.table.jobs i).state = .fg → s'.main.Awaits i (s.table.jobs i).pid) :
    s'.Attends := by
  refine ⟨htable ▸ h.one, ?_⟩
  rw [htable]
  exact hmain

/-- Where nothing is awaited, no job is in the foreground. -/
theorem not_fg (h : s.Attends) (hmain : ∀ i pid, ¬ s.main.Awaits i pid) (i : Fin maxJobs) :
    (s.table.jobs i).state ≠ .fg :=
  fun hi ↦ hmain i _ (h.awaited i hi)

/-- A step that reads the table: the scan of `waitfg` ends when the job it waits for has left the
foreground. -/
theorem read (h : s.Attends) {main : Main} (hmain : s.main.read s.table = some main) :
    Shell.Attends { s with main := main } := by
  refine h.goto rfl fun i hi ↦ ?_
  have hawaits := h.awaited i hi
  have hused := h.one.inUse i hi
  revert hmain hawaits
  cases s.main with
  | scan pid slot =>
    rintro hmain ⟨hpid, hslot⟩
    rw [Main.read, Option.some.injEq] at hmain
    subst hmain
    have hlt : slot < maxJobs := Nat.lt_of_le_of_lt hslot i.isLt
    rw [dif_pos hlt]
    split_ifs with hfg
    · exact ⟨hpid, h.one.unique i _ hi hfg⟩
    · refine ⟨hpid, Nat.lt_of_le_of_ne hslot fun heq ↦ hfg ?_⟩
      subst heq
      exact hi
  | compare pid slot =>
    rintro hmain ⟨hpid, rfl⟩
    rw [Main.read, Option.some.injEq] at hmain
    subst hmain
    rw [waitfgTest, if_pos hpid.symm]
    exact ⟨hpid, Nat.zero_le _⟩
  | await job =>
    rintro hmain rfl
    rw [Main.read, Option.some.injEq] at hmain
    subst hmain
    rw [waitfg, if_neg hused]
    exact ⟨rfl, Nat.zero_le _⟩
  | unblock bg pid => exact fun hmain _ ↦ absurd hmain (by simp [Main.read])
  | _ => exact fun _ hawaits ↦ absurd hawaits id

/-- A job is deleted. -/
theorem delete (h : s.Attends) (pid : Int) (handler : Handler) :
    Shell.Attends { s with table := (s.table.deletejob pid).2, handler := handler } := by
  refine h.shrink rfl fun i hi ↦ ?_
  rcases JobTable.deletejob_cases s.table pid with ⟨j, -, -, hdelete⟩ | ⟨-, hdelete⟩
  · simp only [hdelete] at hi ⊢
    by_cases hij : i = j
    · subst hij
      rw [Function.update_self] at hi
      exact absurd hi (by decide)
    · rw [Function.update_of_ne hij] at hi ⊢
      exact ⟨hi, rfl⟩
  · simp only [hdelete] at hi ⊢
    exact ⟨hi, trivial⟩

/-- A job is put into the table. -/
theorem add (h : s.Attends) {bg : Bool} {cmdline : String} {pid : Int} (hpid : 1 ≤ pid)
    (hmain : s.main = .add bg cmdline pid) : Shell.Attends { s with
      table := (s.table.addjob pid (if bg then .bg else .fg) cmdline).2
      main := .unblock bg pid } := by
  have hnone := h.not_fg fun i p hawaits ↦ by
    rw [hmain] at hawaits
    exact hawaits
  rcases JobTable.addjob_cases s.table (if bg then .bg else .fg) cmdline hpid with
    ⟨j, -, hadd⟩ | ⟨-, hadd⟩
  · have hself : ∀ i, (Function.update s.table.jobs j
        ⟨pid, s.table.nextjid, if bg then .bg else .fg, cmdline⟩ i).state = .fg →
          i = j ∧ bg = false := by
      intro i hi
      by_cases hij : i = j
      · subst hij
        rw [Function.update_self] at hi
        cases bg
        · exact ⟨rfl, rfl⟩
        · exact absurd hi (by simp)
      · rw [Function.update_of_ne hij] at hi
        exact absurd hi (hnone i)
    simp only [hadd]
    refine ⟨⟨fun i k hi hk ↦ (hself i hi).1.trans (hself k hk).1.symm, fun i hi ↦ ?_⟩,
      fun i hi ↦ ?_⟩
    · obtain ⟨rfl, -⟩ := hself i hi
      simp only [Function.update_self, Job.InUse]
      omega
    · obtain ⟨rfl, hbg⟩ := hself i hi
      simp [Main.Awaits, hbg]
  · simp only [hadd]
    exact ⟨⟨fun i _ hi ↦ absurd hi (hnone i), fun i hi ↦ absurd hi (hnone i)⟩,
      fun i hi ↦ absurd hi (hnone i)⟩

/-- A job is marked as running, in the background or in the foreground. -/
theorem mark (h : s.Attends) {bg : Bool} {job : Fin maxJobs} (hmain : s.main = .mark bg job)
    (hused : bg = false → (s.table.jobs job).InUse) : Shell.Attends { s with
      table := s.table.setState job (if bg then .bg else .fg)
      main := if bg then .prompt else .await job } := by
  have hnone := h.not_fg fun i p hawaits ↦ by
    rw [hmain] at hawaits
    exact hawaits
  have hself : ∀ i, ((s.table.setState job (if bg then .bg else .fg)).jobs i).state = .fg →
      i = job ∧ bg = false := by
    intro i hi
    rw [JobTable.setState_state] at hi
    split_ifs at hi with hij hbg
    · exact ⟨hij, by simpa using hbg⟩
    · exact absurd hi (hnone i)
  refine ⟨⟨fun i k hi hk ↦ (hself i hi).1.trans (hself k hk).1.symm, fun i hi ↦ ?_⟩, fun i hi ↦ ?_⟩
  · obtain ⟨rfl, hbg⟩ := hself i hi
    simpa [Job.InUse] using hused hbg
  · obtain ⟨rfl, rfl⟩ := hself i hi
    rfl

end Shell.Attends

/-- If the step marks a slot as the foreground job, the slot is still in use. -/
def Shell.MarksInUse (s : Shell) (e : Event) : Prop :=
  e = .mark → ∀ job, s.main = .mark false job → (s.table.jobs job).InUse

/-- Every step keeps the invariant, if a mark is of a slot in use. -/
theorem Shell.Step.attends {s s' : Shell} {e : Event} (htracked : s.Tracked) (h : s.Attends)
    (hstep : s.Step e s') (hmarks : s.MarksInUse e) : s'.Attends := by
  have hfree : (∀ i pid, ¬ s.main.Awaits i pid) → ∀ {t : Shell}, t.table = s.table → t.Attends :=
    fun hmain t htable ↦ h.goto htable fun i hi ↦ absurd hi (h.not_fg hmain i)
  cases hstep with
  | change hchild hbecomes => exact h.goto rfl h.awaited
  | setpgid hchild hrunning => exact h.goto rfl h.awaited
  | raise => exact h.goto rfl h.awaited
  | deliver hpending hblocked hoff halive => exact h.goto rfl h.awaited
  | reap hhandler hchild hterminated => exact h.goto rfl h.awaited
  | delete hhandler => exact h.delete _ _
  | report hhandler hchild hstopped => exact h.goto rfl h.awaited
  | @stop pid job hhandler hjob =>
    refine h.shrink rfl fun i hi ↦ ⟨?_, JobTable.setState_pid _ _ _ _⟩
    rw [JobTable.setState_state] at hi
    split_ifs at hi
    exact hi
  | crash hhandler hjob => exact h.goto rfl h.awaited
  | done hhandler hnone => exact h.goto rfl h.awaited
  | command c hoff hmain => exact hfree (fun i pid ↦ by rw [hmain]; exact id) rfl
  | block hoff hmain => exact hfree (fun i pid ↦ by rw [hmain]; exact id) rfl
  | fork hoff hmain hpid hnew => exact hfree (fun i pid ↦ by rw [hmain]; exact id) rfl
  | add hoff hmain => exact h.add (htracked.newborn _ _ _ hmain).1 hmain
  | @unblock bg pid hoff hmain =>
    refine h.goto rfl fun i hi ↦ ?_
    have hawaits := h.awaited i hi
    rw [hmain] at hawaits
    obtain ⟨rfl, hpid⟩ := hawaits
    have hused := h.one.inUse i hi
    rw [Job.InUse, hpid] at hused
    simp only [Bool.false_eq_true, if_false, waitfg, if_neg hused]
    exact ⟨hpid, Nat.zero_le _⟩
  | read hoff hmain => exact h.read hmain
  | kill hoff hmain hreaches => exact hfree (fun i pid ↦ by rw [hmain]; exact id) rfl
  | mark hoff hmain =>
    refine h.mark hmain ?_
    rintro rfl
    exact hmarks rfl _ hmain
  | fail hoff hmain =>
    refine hfree (fun i pid ↦ ?_) rfl
    rcases hmain with ⟨bg, cmdline, hmain⟩ | ⟨bg, job, p, hmain, -⟩ <;> rw [hmain] <;> exact id

/-- A bad mark breaks what the invariant is for. -/
theorem Shell.Step.marksInUse {s s' : Shell} {e : Event} (hstep : s.Step e s')
    (hone : s'.table.OneForeground) : s.MarksInUse e := by
  rintro rfl job hmain
  cases hstep with
  | mark hoff hmain' =>
    obtain ⟨rfl, heq⟩ := Main.mark.inj (hmain'.symm.trans hmain)
    rw [heq] at hone
    have hused := hone.inUse job (by simp [JobTable.setState_state])
    simpa [Job.InUse] using hused

/-- At most one job is in the foreground, and `fgpid` returns its pid, in every run in which `fg`
marks only slots that are still in use; and these are the only runs in which it is so all along. -/
theorem shell_foreground (events : List Event) (s : Shell) :
    (Run (· = Shell.start) (fun s e s' ↦ s.Step e s' ∧ s.MarksInUse e) events s →
      s.table.OneForeground ∧
        ∀ i, (s.table.jobs i).state = .fg → s.table.fgpid = (s.table.jobs i).pid) ∧
    (Run (· = Shell.start) (fun s e s' ↦ s.Step e s' ∧ s'.table.OneForeground) events s ↔
      Run (· = Shell.start) (fun s e s' ↦ s.Step e s' ∧ s.MarksInUse e) events s) := by
  have hstart : ∀ s, s = Shell.start → s.Tracked ∧ s.Attends := by
    rintro _ rfl
    exact ⟨Shell.Tracked.start, Shell.Attends.start⟩
  have hkept : ∀ (s : Shell) (e : Event) (s' : Shell), s.Tracked ∧ s.Attends → s.Step e s' →
      s.MarksInUse e → s'.Tracked ∧ s'.Attends := fun s e s' hinv hstep hmarks ↦
    ⟨hstep.tracked hinv.1, hstep.attends hinv.1 hinv.2 hmarks⟩
  refine ⟨fun hrun ↦ ?_, fun hrun ↦ ?_, fun hrun ↦ ?_⟩
  · have hinv := Run.invariant (P := fun s ↦ s.Tracked ∧ s.Attends) hstart
      (fun s e s' hinv hstep ↦ hkept s e s' hinv hstep.1 hstep.2) hrun
    exact ⟨hinv.2.one, fun i hi ↦ hinv.2.one.fgpid hi⟩
  · exact Run.mono (fun s e s' hstep ↦ ⟨hstep.1, hstep.1.marksInUse hstep.2⟩) hrun
  · refine hrun.mono_of_invariant (P := fun s ↦ s.Tracked ∧ s.Attends) hstart ?_
    intro s e s' hinv hstep
    have hinv' := hkept s e s' hinv hstep.1 hstep.2
    exact ⟨⟨hstep.1, hinv'.2.one⟩, hinv'⟩

theorem shell_foreground_resumed : ∃ s,
    Run (· = Shell.start) (fun s e s' ↦ s.Step e s' ∧ s.MarksInUse e)
      [.command (.run true "a &"), .block, .fork 100, .setpgid 100, .add, .unblock,
        .command (.bgfg false (.jid 1)), .read, .read, .kill false, .mark] s ∧
      s.table.fgpid = 100 := by
  have hother : ∀ {s s' : Shell} {e : Event}, s.Step e s' → e ≠ .mark →
      s.Step e s' ∧ s.MarksInUse e := fun hstep he ↦ ⟨hstep, fun heq ↦ absurd heq he⟩
  obtain ⟨s, hsteps, hoff, hmain, hpid⟩ : ∃ s,
      Steps (fun s e s' ↦ s.Step e s' ∧ s.MarksInUse e) Shell.start
        [.command (.run true "a &"), .block, .fork 100, .setpgid 100, .add, .unblock,
          .command (.bgfg false (.jid 1)), .read, .read, .kill false] s ∧
      s.handler = .off ∧ s.main = .mark false 0 ∧ (s.table.jobs 0).pid = 100 :=
    ⟨_, .cons (hother (.command _ rfl rfl) (by decide)) <|
      .cons (hother (.block rfl rfl) (by decide)) <|
      .cons (hother (.fork rfl rfl (by decide) rfl) (by decide)) <|
      .cons (hother (.setpgid rfl rfl) (by decide)) <|
      .cons (hother (.add rfl rfl) (by decide)) <|
      .cons (hother (.unblock rfl rfl) (by decide)) <|
      .cons (hother (.command _ rfl rfl) (by decide)) <|
      .cons (hother (.read rfl rfl) (by decide)) <|
      .cons (hother (.read rfl rfl) (by decide)) <|
      .cons (hother (.kill rfl rfl (Or.inr (Or.inr ⟨_, rfl, rfl⟩))) (by decide)) .nil,
      rfl, rfl, rfl⟩
  have hmarks : s.MarksInUse .mark := by
    rintro - job hjob
    obtain ⟨-, rfl⟩ := Main.mark.inj (hmain.symm.trans hjob)
    rw [Job.InUse, hpid]
    decide
  have hbefore : Run (· = Shell.start) _ _ s := hsteps.run rfl
  have hrun := hbefore.step ⟨.mark hoff hmain, hmarks⟩
  have hfg := ((shell_foreground _ _).1 hrun).2 0 (by simp [JobTable.setState_state])
  exact ⟨_, hrun, hfg.trans (by simp [hpid])⟩

/-- The job that `fg` has found exits before `job->pid` is read, and its slot is marked. -/
theorem shell_foreground_vanished : ∃ s,
    Shell.Reached [.command (.run true "a &"), .block, .fork 100, .setpgid 100, .add, .unblock,
      .command (.bgfg false (.jid 1)), .read, .change 100, .deliver, .reap 100, .delete 100, .done,
      .read, .kill false, .mark] s ∧
      (s.table.jobs 0).state = .fg ∧ (s.table.jobs 0).pid = 0 ∧ ¬ s.table.OneForeground := by
  have hsteps : ∃ s, Steps Shell.Step Shell.start [.command (.run true "a &"), .block, .fork 100,
      .setpgid 100, .add, .unblock, .command (.bgfg false (.jid 1)), .read, .change 100, .deliver,
      .reap 100, .delete 100, .done, .read, .kill false, .mark] s ∧
      (s.table.jobs 0).state = .fg ∧ (s.table.jobs 0).pid = 0 := by
    refine ⟨_, .cons (.command _ rfl rfl) <| .cons (.block rfl rfl) <|
      .cons (.fork rfl rfl (by decide) rfl) <| .cons (.setpgid rfl rfl) <| .cons (.add rfl rfl) <|
      .cons (.unblock rfl rfl) <| .cons (.command _ rfl rfl) <| .cons (.read rfl rfl) <|
      .cons (.change rfl .exit) <| .cons (.deliver rfl rfl rfl nofun) <|
      .cons (.reap rfl rfl trivial) <| .cons (.delete rfl) <| .cons (.done rfl ?_) <|
      .cons (.read rfl rfl) <| .cons (.kill rfl rfl (Or.inl rfl)) <| .cons (.mark rfl rfl) .nil,
      rfl, rfl⟩
    intro pid c hc
    by_cases hpid : pid = 100 <;> simp [hpid, Shell.start] at hc
  obtain ⟨s, hsteps, hfg, hpid⟩ := hsteps
  exact ⟨s, hsteps.run rfl, hfg, hpid, fun hone ↦ hone.inUse 0 hfg hpid⟩

end SystemProgramming.ShellLab
