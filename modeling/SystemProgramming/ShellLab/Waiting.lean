import SystemProgramming.ShellLab.FullTable

/-!
# Waiting for a foreground command

`waitfg` learns only from the table whether its job is still in the foreground. If `addjob` has put
the job behind another foreground slot, or has found no room for it, `fgpid` does not return its pid
and `eval` returns at once. Otherwise the loop goes on (`Shell.Waiting`) until the handler has reaped
the child or has been told that it has stopped.
-/

set_option autoImplicit false
set_option relaxedAutoImplicit false

namespace SystemProgramming.ShellLab

open Library

/-- A slot is free, and none before the first free one is in the foreground. -/
def JobTable.Unshadowed (t : JobTable) : Prop :=
  ∃ i, ¬ (t.jobs i).InUse ∧ ∀ j < i, (t.jobs j).InUse ∧ (t.jobs j).state ≠ .fg

/-- The job in slot `i` is the first in the foreground and the main program waits for it. -/
structure Shell.Waiting (s : Shell) (i : Fin maxJobs) (pid : Int) : Prop where
  pos : 1 ≤ pid
  pid_eq : (s.table.jobs i).pid = pid
  fg : (s.table.jobs i).state = .fg
  first : ∀ j < i, (s.table.jobs j).state ≠ .fg
  main : s.main = .unblock false pid ∨ (∃ slot : Nat, slot ≤ i ∧ s.main = .scan pid slot) ∨
    s.main = .compare pid i
  deleting : s.handler ≠ .deleting pid
  stopping : s.handler ≠ .stopping pid

namespace Shell.Waiting

variable {s s' : Shell} {i : Fin maxJobs} {pid : Int}

/-- What happens elsewhere. -/
theorem keep (h : s.Waiting i pid) (htable : s'.table = s.table) (hmain : s'.main = s.main)
    (hdeleting : s'.handler ≠ .deleting pid) (hstopping : s'.handler ≠ .stopping pid) :
    s'.Waiting i pid := by
  obtain ⟨hpos, hpid, hfg, hfirst, hmain', -, -⟩ := h
  exact ⟨hpos, by rw [htable]; exact hpid, by rw [htable]; exact hfg, by rw [htable]; exact hfirst,
    by rw [hmain]; exact hmain', hdeleting, hstopping⟩

/-- Another slot leaves the foreground. -/
theorem leave (h : s.Waiting i pid) {jobs : Fin maxJobs → Job} {nextjid : Int} {handler : Handler}
    (hself : jobs i = s.table.jobs i)
    (hothers : ∀ j, (jobs j).state = .fg → (s.table.jobs j).state = .fg)
    (hdeleting : handler ≠ .deleting pid) (hstopping : handler ≠ .stopping pid) :
    Shell.Waiting { s with table := ⟨jobs, nextjid⟩, handler := handler } i pid where
  pos := h.pos
  pid_eq := (congrArg Job.pid hself).trans h.pid_eq
  fg := (congrArg Job.state hself).trans h.fg
  first := fun j hj hfg ↦ h.first j hj (hothers j hfg)
  main := h.main
  deleting := hdeleting
  stopping := hstopping

/-- A step of the main program: the loop of `waitfg` finds its job in the foreground. -/
theorem read (h : s.Waiting i pid) {main : Main} (hmain : s.main.read s.table = some main) :
    Shell.Waiting { s with main := main } i pid := by
  refine { h with main := Or.inr ?_ }
  rcases h.main with heq | ⟨slot, hslot, heq⟩ | heq
  · simp [heq, Main.read] at hmain
  · rw [heq, Main.read, dif_pos (Nat.lt_of_le_of_lt hslot i.isLt), Option.some.injEq] at hmain
    subst hmain
    by_cases hlt : slot < i
    · rw [if_neg (h.first ⟨slot, _⟩ hlt)]
      exact Or.inl ⟨slot + 1, hlt, rfl⟩
    · obtain rfl : slot = i := by omega
      rw [if_pos h.fg]
      exact Or.inr rfl
  · rw [heq, Main.read, Option.some.injEq, waitfgTest, if_pos h.pid_eq.symm] at hmain
    exact Or.inl ⟨0, Nat.zero_le _, hmain.symm⟩

/-- The signal is unblocked and `waitfg` begins. -/
theorem unblock (h : s.Waiting i pid) {blocked : Bool} :
    Shell.Waiting { s with blocked := blocked, main := waitfg pid } i pid := by
  have hpos := h.pos
  refine { h with main := Or.inr (Or.inl ⟨0, Nat.zero_le _, ?_⟩) }
  rw [waitfg, if_neg (by omega)]

/-- The wait goes on unless the child is reaped or is reported stopped. -/
theorem step (h : s.Waiting i pid) {e : Event} (hstep : s.Step e s') (hreap : e ≠ .reap pid)
    (hreport : e ≠ .report pid) : s'.Waiting i pid := by
  have hmain := h.main
  have hdeleting := h.deleting
  have hstopping := h.stopping
  cases hstep with
  | change hchild hbecomes => exact h.keep rfl rfl hdeleting hstopping
  | setpgid hchild hrunning => exact h.keep rfl rfl hdeleting hstopping
  | raise => exact h.keep rfl rfl hdeleting hstopping
  | deliver hpending hblocked hoff halive => exact h.keep rfl rfl (by simp) (by simp)
  | reap hhandler hchild hterminated =>
    exact h.keep rfl rfl (fun heq ↦ hreap (by rw [Handler.deleting.inj heq])) (by simp)
  | report hhandler hchild hstopped =>
    exact h.keep rfl rfl (by simp) (fun heq ↦ hreport (by rw [Handler.stopping.inj heq]))
  | crash hhandler hjob => exact h.keep rfl rfl (by simp) (by simp)
  | done hhandler hnone => exact h.keep rfl rfl (by simp) (by simp)
  | @delete q hhandler =>
    rcases JobTable.deletejob_cases s.table q with ⟨j, -, hj, hdelete⟩ | ⟨-, hdelete⟩
    · rw [hdelete]
      refine h.leave (Function.update_of_ne ?_ _ _) (fun k hk ↦ ?_) (by simp) (by simp)
      · rintro rfl
        exact hdeleting (by rw [hhandler, ← hj, h.pid_eq])
      · by_cases hkj : k = j
        · subst hkj
          rw [Function.update_self] at hk
          exact absurd hk (by decide)
        · rwa [Function.update_of_ne hkj] at hk
    · rw [hdelete]
      exact h.keep rfl rfl (by simp) (by simp)
  | @stop q j hhandler hjob =>
    have hne : i ≠ j := by
      rintro rfl
      unfold JobTable.getjobpid at hjob
      split_ifs at hjob
      exact hstopping (by rw [hhandler, ← JobTable.slotOf_eq_some hjob, h.pid_eq])
    refine h.leave (Function.update_of_ne hne _ _) (fun k hk ↦ ?_) (by simp) (by simp)
    by_cases hkj : k = j
    · subst hkj
      simp at hk
    · rwa [Function.update_of_ne hkj] at hk
  | @unblock bg q hoff hmain' =>
    rw [hmain'] at hmain
    obtain ⟨rfl, rfl⟩ : bg = false ∧ q = pid := by simpa using hmain
    exact h.unblock
  | read hoff hmain' => exact h.read hmain'
  | command c hoff hmain' => simp [hmain'] at hmain
  | block hoff hmain' => simp [hmain'] at hmain
  | fork hoff hmain' hpid hnew => simp [hmain'] at hmain
  | add hoff hmain' => simp [hmain'] at hmain
  | kill hoff hmain' hreaches => simp [hmain'] at hmain
  | mark hoff hmain' => simp [hmain'] at hmain
  | fail hoff hmain' =>
    rcases hmain' with ⟨bg, cmdline, hmain'⟩ | ⟨bg, job, p, hmain', -⟩ <;> simp [hmain'] at hmain

/-- The wait goes on all along. -/
theorem steps (h : s.Waiting i pid) {labels : List Event} (hsteps : Steps Shell.Step s labels s')
    (hreap : .reap pid ∉ labels) (hreport : .report pid ∉ labels) : s'.Waiting i pid := by
  induction hsteps with
  | nil => exact h
  | cons hstep hrest ih =>
    rw [List.mem_cons, not_or] at hreap hreport
    exact ih (h.step hstep (Ne.symm hreap.1) (Ne.symm hreport.1)) hreap.2 hreport.2

theorem not_prompt (h : s.Waiting i pid) : s.main ≠ .prompt := by
  rcases h.main with heq | ⟨slot, -, heq⟩ | heq <;> simp [heq]

end Shell.Waiting

/-! ### From `addjob` on -/

/-- While a job is about to be added the handler does not run. -/
theorem Shell.Step.of_add {s s' : Shell} {e : Event} (hstep : s.Step e s') {bg : Bool}
    {cmdline : String} {pid : Int} (hmain : s.main = .add bg cmdline pid) (hoff : s.handler = .off)
    (hblocked : s.blocked = true) :
    (s'.table = s.table ∧ s'.main = s.main ∧ s'.handler = .off ∧ s'.blocked = true) ∨
    (e = .add ∧ s' = { s with
      table := (s.table.addjob pid (if bg then .bg else .fg) cmdline).2
      main := .unblock bg pid }) := by
  cases hstep with
  | change hchild hbecomes => exact Or.inl ⟨rfl, rfl, hoff, hblocked⟩
  | setpgid hchild hrunning => exact Or.inl ⟨rfl, rfl, hoff, hblocked⟩
  | raise => exact Or.inl ⟨rfl, rfl, hoff, hblocked⟩
  | add hoff' hmain' =>
    obtain ⟨rfl, rfl, rfl⟩ := Main.add.inj (hmain.symm.trans hmain')
    exact Or.inr ⟨rfl, rfl⟩
  | deliver hpending hblocked' hoff' halive => simp [hblocked] at hblocked'
  | reap hhandler hchild hterminated => simp [hoff] at hhandler
  | delete hhandler => simp [hoff] at hhandler
  | report hhandler hchild hstopped => simp [hoff] at hhandler
  | stop hhandler hjob => simp [hoff] at hhandler
  | crash hhandler hjob => simp [hoff] at hhandler
  | done hhandler hnone => simp [hoff] at hhandler
  | command c hoff' hmain' => simp [hmain] at hmain'
  | block hoff' hmain' => simp [hmain] at hmain'
  | fork hoff' hmain' hpid hnew => simp [hmain] at hmain'
  | unblock hoff' hmain' => simp [hmain] at hmain'
  | read hoff' hmain' => simp [hmain, Main.read] at hmain'
  | kill hoff' hmain' hreaches => simp [hmain] at hmain'
  | mark hoff' hmain' => simp [hmain] at hmain'
  | fail hoff' hmain' => simp [hmain] at hmain'

/-- A job that is added to a table without a foreground slot before its own is waited for. -/
theorem Shell.Waiting.add {s : Shell} (cmdline : String) {pid : Int} (hpid : 1 ≤ pid)
    (hoff : s.handler = .off) (h : s.table.Unshadowed) : ∃ i, Shell.Waiting { s with
      table := (s.table.addjob pid .fg cmdline).2
      main := .unblock false pid } i pid := by
  obtain ⟨i, hfree, hbefore⟩ := h
  have hadd := JobTable.addjob_first (t := s.table) (i := i) .fg cmdline hpid
    (not_not.mp hfree) fun j hj ↦ (hbefore j hj).1
  rw [hadd]
  refine ⟨i, hpid, ?_, ?_, fun j hj ↦ ?_, Or.inl rfl, by simp [hoff], by simp [hoff]⟩
  · simp
  · simp
  · dsimp only
    rw [Function.update_of_ne (ne_of_lt hj)]
    exact (hbefore j hj).2

/-- The main program gets to the prompt only after the child has been reaped or has been reported
stopped. -/
theorem Shell.Tracked.waits {s s' : Shell} (h : s.Tracked) {cmdline : String} {pid : Int}
    (hmain : s.main = .add false cmdline pid) (hfirst : s.table.Unshadowed) {labels : List Event}
    (hsteps : Steps Shell.Step s labels s') (hprompt : s'.main = .prompt) :
    .reap pid ∈ labels ∨ .report pid ∈ labels := by
  have hpid := (h.newborn _ _ _ hmain).1
  obtain ⟨hblocked, hoff⟩ := h.masked (by rw [hmain]; trivial)
  clear h
  by_contra hnever
  rw [not_or] at hnever
  induction hsteps with
  | nil => simp [hmain] at hprompt
  | @cons s t u e labels hstep hrest ih =>
    simp only [List.mem_cons, not_or] at hnever
    rcases hstep.of_add hmain hoff hblocked with
      ⟨htable, hmain', hoff', hblocked'⟩ | ⟨-, rfl⟩
    · exact ih (hmain'.trans hmain) (htable ▸ hfirst) hprompt hblocked' hoff'
        ⟨hnever.1.2, hnever.2.2⟩
    · obtain ⟨i, hwaiting⟩ := Shell.Waiting.add cmdline hpid hoff hfirst
      exact (hwaiting.steps hrest hnever.1.2 hnever.2.2).not_prompt hprompt

/-- A child that has terminated stays so until it is reaped. -/
theorem Shell.Ended.step {s s' : Shell} {e : Event} {pid : Int} (h : s.Ended pid)
    (hstep : s.Step e s') (hreap : e ≠ .reap pid) : s'.Ended pid := by
  obtain ⟨c, hc, hterminated⟩ := h
  have hupdate : ∀ {q : Int} {c' : Option Child}, q ≠ pid →
      ∃ c, Function.update s.children q c' pid = some c ∧ c.status.Terminated := fun hq ↦
    ⟨c, by rw [Function.update_of_ne (Ne.symm hq)]; exact hc, hterminated⟩
  cases hstep with
  | @change q c' status hchild hbecomes =>
    refine hupdate ?_
    rintro rfl
    obtain rfl := Option.some.inj (hc.symm.trans hchild)
    obtain ⟨status', grouped⟩ := c
    cases hbecomes <;> exact absurd hterminated id
  | @setpgid q c' hchild hrunning =>
    refine hupdate ?_
    rintro rfl
    obtain rfl := Option.some.inj (hc.symm.trans hchild)
    simp [hrunning, ChildStatus.Terminated] at hterminated
  | @report q c' hhandler hchild hstopped =>
    refine hupdate ?_
    rintro rfl
    obtain rfl := Option.some.inj (hc.symm.trans hchild)
    simp [hstopped, ChildStatus.Terminated] at hterminated
  | @reap q c' hhandler hchild hterminated' =>
    refine hupdate ?_
    rintro rfl
    exact hreap rfl
  | @fork bg cmdline q hoff hmain hpid hnew =>
    refine hupdate ?_
    rintro rfl
    simp [hnew] at hc
  | @kill bg job q others hoff hmain hreaches =>
    by_cases hq : q = pid
    · subst hq
      refine ⟨c, ?_, hterminated⟩
      simp only [Function.update_self, hc, Option.map_some, Option.some.injEq]
      obtain ⟨status, grouped⟩ := c
      cases status with
      | stopped reported => exact absurd hterminated id
      | _ => rfl
    · exact hupdate hq
  | _ => exact ⟨c, hc, hterminated⟩

theorem Shell.Ended.steps {s s' : Shell} {pid : Int} (h : s.Ended pid) {labels : List Event}
    (hsteps : Steps Shell.Step s labels s') (hreap : .reap pid ∉ labels) : s'.Ended pid := by
  induction hsteps with
  | nil => exact h
  | cons hstep hrest ih =>
    rw [List.mem_cons, not_or] at hreap
    exact ih (h.step hstep (Ne.symm hreap.1)) hreap.2

/-! ### Returning early -/

/-- Behind a foreground slot, or without a slot, `fgpid` does not return the pid of the job. -/
theorem JobTable.fgpid_addjob_ne {t : JobTable} {pid : Int} (hpid : 1 ≤ pid)
    (hnew : ∀ i, (t.jobs i).pid ≠ pid) (h : ¬ t.Unshadowed) (cmdline : String) :
    (t.addjob pid .fg cmdline).2.fgpid ≠ pid := by
  cases hslot : t.freeSlot with
  | none =>
    have hadd : (t.addjob pid .fg cmdline).2 = t := by rw [addjob, if_neg (by omega), hslot]
    rw [hadd]
    rcases t.fgpid_cases with ⟨i, -, -, heq⟩ | ⟨-, heq⟩
    · rw [heq]
      exact hnew i
    · omega
  | some i =>
    have hfree := freeSlot_eq_some hslot
    have hbefore : ∀ j < i, (t.jobs j).pid ≠ 0 := fun j hj ↦ by
      simpa using (Fin.find?_eq_some_iff.mp hslot).2 j hj
    have hshadow : ∃ j < i, (t.jobs j).state = .fg := by
      by_contra hnone
      exact h ⟨i, not_not.mpr hfree, fun j hj ↦ ⟨hbefore j hj, fun hfg ↦ hnone ⟨j, hj, hfg⟩⟩⟩
    obtain ⟨j, hj, hfg⟩ := hshadow
    rw [addjob_first .fg cmdline hpid hfree hbefore]
    rcases fgpid_cases ⟨Function.update t.jobs i ⟨pid, t.nextjid, .fg, cmdline⟩, advance t.nextjid⟩
      with ⟨k, -, hleast, heq⟩ | ⟨-, heq⟩
    · have hki : k ≠ i := by
        rintro rfl
        refine hleast j hj ?_
        dsimp only
        rw [Function.update_of_ne (ne_of_lt hj)]
        exact hfg
      dsimp only at heq ⊢
      rw [heq, Function.update_of_ne hki]
      exact hnew k
    · dsimp only
      omega

/-- The scan of `fgpid` for a pid that it does not return ends the loop of `waitfg`. -/
theorem Shell.scan_returns {s : Shell} {pid : Int} (hoff : s.handler = .off)
    (hne : s.table.fgpid ≠ pid) (left slot : Nat) (hleft : slot + left = maxJobs)
    (hbefore : ∀ j : Fin maxJobs, j < slot → (s.table.jobs j).state ≠ .fg) :
    ∃ n, Steps Shell.Step { s with main := .scan pid slot } (List.replicate n .read)
      { s with main := .prompt } := by
  induction left generalizing slot with
  | zero =>
    have hend : ¬ slot < maxJobs := by omega
    have hnone : s.table.fgpid = 0 := by
      rcases s.table.fgpid_cases with ⟨i, hfg, -, -⟩ | ⟨-, heq⟩
      · exact absurd hfg (hbefore i (by omega))
      · exact heq
    refine ⟨1, .cons (.read hoff ?_) .nil⟩
    rw [Main.read, dif_neg hend, waitfgTest, if_neg fun heq ↦ hne (hnone.trans heq.symm)]
  | succ left ih =>
    have hlt : slot < maxJobs := by omega
    by_cases hfg : (s.table.jobs ⟨slot, hlt⟩).state = .fg
    · have hfound : s.table.fgpid = (s.table.jobs ⟨slot, hlt⟩).pid := by
        rcases s.table.fgpid_cases with ⟨i, hi, hfirst, heq⟩ | ⟨hnone, -⟩
        · rw [heq]
          rcases lt_trichotomy i ⟨slot, hlt⟩ with hlower | rfl | hupper
          · exact absurd hi (hbefore i hlower)
          · rfl
          · exact absurd hfg (hfirst _ hupper)
        · exact absurd hfg (hnone _)
      have hcompare : ({ s with main := .scan pid slot } : Shell).main.read s.table =
          some (.compare pid ⟨slot, hlt⟩) := by
        rw [Main.read, dif_pos hlt, if_pos hfg]
      refine ⟨2, .cons (.read hoff hcompare) <| .cons (.read hoff ?_) .nil⟩
      rw [Main.read, waitfgTest, if_neg fun heq ↦ hne (hfound.trans heq.symm)]
    · have hnext : ({ s with main := .scan pid slot } : Shell).main.read s.table =
          some (.scan pid (slot + 1)) := by
        rw [Main.read, dif_pos hlt, if_neg hfg]
      obtain ⟨n, hsteps⟩ := ih (slot + 1) (by omega) fun j hj ↦ by
        by_cases heq : (j : Nat) = slot
        · obtain rfl : j = ⟨slot, hlt⟩ := Fin.ext heq
          exact hfg
        · exact hbefore j (by omega)
      exact ⟨n + 1, .cons (.read hoff hnext) hsteps⟩

/-- Behind a foreground slot, or without a slot, nothing is waited for. -/
theorem Shell.Tracked.returns {s : Shell} (h : s.Tracked) {cmdline : String} {pid : Int}
    (hmain : s.main = .add false cmdline pid) (hshadowed : ¬ s.table.Unshadowed) :
    ∃ n s', Steps Shell.Step s (.add :: .unblock :: List.replicate n .read) s' ∧
      s'.main = .prompt ∧ s'.children = s.children := by
  obtain ⟨hpid, -, hnew⟩ := h.newborn _ _ _ hmain
  have hoff := (h.masked (by rw [hmain]; trivial)).2
  have hne := JobTable.fgpid_addjob_ne hpid hnew hshadowed cmdline
  obtain ⟨n, hscan⟩ := Shell.scan_returns (s := { s with
    table := (s.table.addjob pid .fg cmdline).2
    blocked := false }) hoff hne maxJobs 0 rfl fun j hj ↦ absurd hj (Nat.not_lt_zero _)
  have hunblock := Shell.Step.unblock (s := { s with
    table := (s.table.addjob pid .fg cmdline).2
    main := .unblock false pid }) hoff rfl
  rw [if_neg (by simp), waitfg, if_neg (by omega)] at hunblock
  exact ⟨n, _, .cons (.add hoff hmain) <| .cons hunblock hscan, rfl, rfl⟩

/-- `eval` returns from a foreground command only after the child has terminated or has been
reported stopped, exactly when `addjob` finds a free slot with no foreground slot before it; unless
the child has terminated by then. -/
theorem shell_waits {events : List Event} {s : Shell} (h : Shell.Reached events s) {cmdline : String}
    {pid : Int} (hmain : s.main = .add false cmdline pid) :
    (∀ labels s', Steps Shell.Step s labels s' → s'.main = .prompt →
      .reap pid ∈ labels ∨ s'.Ended pid ∨ .report pid ∈ labels) ↔
    s.table.Unshadowed ∨ s.Ended pid := by
  constructor
  · intro hwaits
    by_contra hnot
    rw [not_or] at hnot
    obtain ⟨n, s', hsteps, hprompt, hchildren⟩ := h.tracked.returns hmain hnot.1
    rcases hwaits _ s' hsteps hprompt with hreap | ⟨c, hc, hterminated⟩ | hreport
    · simp at hreap
    · exact hnot.2 ⟨c, hchildren ▸ hc, hterminated⟩
    · simp at hreport
  · rintro hcond labels s' hsteps hprompt
    rcases hcond with hfirst | hended
    · exact (h.tracked.waits hmain hfirst hsteps hprompt).imp_right Or.inr
    · by_cases hreap : .reap pid ∈ labels
      · exact Or.inl hreap
      · exact Or.inr (Or.inl (hended.steps hsteps hreap))

theorem shell_waits_alone : ∃ s,
    Shell.Reached [.command (.run false "a"), .block, .fork 100] s ∧
      ∀ labels s', Steps Shell.Step s labels s' → s'.main = .prompt →
        .reap 100 ∈ labels ∨ s'.Ended 100 ∨ .report 100 ∈ labels := by
  obtain ⟨s, hsteps, hmain, hfirst⟩ : ∃ s, Steps Shell.Step Shell.start
      [.command (.run false "a"), .block, .fork 100] s ∧ s.main = .add false "a" 100 ∧
      s.table = .start :=
    ⟨_, .cons (.command _ rfl rfl) <| .cons (.block rfl rfl) <|
      .cons (.fork rfl rfl (by decide) rfl) .nil, rfl, rfl⟩
  have hreached : Shell.Reached _ s := hsteps.run rfl
  refine ⟨s, hreached, (shell_waits hreached hmain).mpr (Or.inl ⟨0, ?_, fun j hj ↦ ?_⟩)⟩
  · rw [hfirst]
    exact not_inUse_clearjob
  · exact absurd hj (Fin.not_lt_zero j)

/-- With sixteen jobs in the table, a command in the foreground is not waited for. -/
theorem shell_waits_full : ∃ n s,
    Shell.Reached (((List.range maxJobs).flatMap fun n : Nat ↦ launch (n + 1)) ++
      [.command (.run false ""), .block, .fork 17] ++
      .add :: .unblock :: List.replicate n .read) s ∧
      s.main = .prompt ∧ s.children 17 = some ⟨.running, false⟩ := by
  obtain ⟨s, hreached, hmain, hfull, hchild⟩ := Shell.exists_full false
  obtain ⟨n, s', hsteps, hprompt, hchildren⟩ := hreached.tracked.returns hmain (by
    rintro ⟨i, hfree, -⟩
    exact hfull ⟨i, hfree⟩)
  exact ⟨n, s', hreached.append hsteps, hprompt, hchildren ▸ hchild⟩

end SystemProgramming.ShellLab
