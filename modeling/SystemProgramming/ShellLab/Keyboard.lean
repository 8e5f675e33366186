import SystemProgramming.ShellLab.FullTable

/-!
# Signals from the keyboard

`sigint_handler` and `sigtstp_handler` look the foreground job up with `fgpid` and send the signal
on to its process group. They may begin before any step of the shell, also inside `sigchld_handler`,
and what they have interrupted stands still until they return; `SIGCHLD` may in turn interrupt them.
A signal is blocked only while its own handler runs.

`Kill` fails in two windows. The job is in the table from `addjob` on, but its process group is
there only after the child's own `Setpgid`; and `sigchld_handler` reaps the child before it deletes
the job. `unix_error` then ends the shell. Outside of these windows every signal gets through
(`keyboard_forwards`).
-/

set_option autoImplicit false
set_option relaxedAutoImplicit false

namespace SystemProgramming.ShellLab

open Library

/-! ### The handlers -/

/-- The signals that the keyboard sends to the shell. -/
inductive Keyboard
  | sigint
  | sigtstp
  deriving DecidableEq, Repr

/-- Where a handler is: in `fgpid`, at the state of a slot and at the pid of the slot found; before
`Kill`; at its return. -/
inductive Forward
  | scan (slot : Nat)
  | compare (slot : Fin maxJobs)
  | kill (pid : Int)
  | done
  deriving DecidableEq, Repr

/-- The test of the handlers, on what `fgpid` has returned. -/
def forwardTest (fpid : Int) : Forward := if fpid = 0 then .done else .kill fpid

/-- The steps of `fgpid`. -/
def Forward.read (t : JobTable) : Forward → Option Forward
  | scan slot => some (if h : slot < maxJobs then
      if (t.jobs ⟨slot, h⟩).state = .fg then .compare ⟨slot, h⟩ else .scan (slot + 1)
    else forwardTest 0)
  | compare slot => some (forwardTest (t.jobs slot).pid)
  | _ => none

/-- A handler that runs, and whether it has interrupted `sigchld_handler`. -/
structure Frame where
  signal : Keyboard
  inside : Bool
  next : Forward
  deriving DecidableEq, Repr

/-- `sigint_handler`. -/
def sigintHandler (inside : Bool) : Frame := ⟨.sigint, inside, .scan 0⟩

/-- `sigtstp_handler`. -/
def sigtstpHandler (inside : Bool) : Frame := ⟨.sigtstp, inside, .scan 0⟩

/-- What `main` has installed. -/
def Keyboard.handler : Keyboard → Bool → Frame
  | sigint => sigintHandler
  | sigtstp => sigtstpHandler

/-! ### Steps -/

/-- The shell with the handlers of keyboard signals that run, the last to begin first. -/
structure Console where
  shell : Shell
  frames : List Frame
  alive : Bool

/-- The shell as it starts. -/
def Console.start : Console := ⟨.start, [], true⟩

/-- What happens in a step. -/
inductive ConsoleEvent
  | shell (e : Event)
  | arrive (signal : Keyboard)
  | read
  | kill (others : Bool)
  | done
  | fail
  deriving DecidableEq, Repr

/-- The children and the kernel step at any moment, `sigchld_handler` when nothing has interrupted
it, and the main program when no handler runs. -/
def Console.Turn (k : Console) : Event → Prop
  | .change _ | .setpgid _ | .raise | .deliver => True
  | .reap _ | .delete _ | .report _ | .stop _ | .crash _ | .done => ∀ f ∈ k.frames, f.inside = false
  | _ => k.frames = []

/-- The last handler to begin steps, unless `sigchld_handler` has interrupted it. -/
def Frame.Runs (s : Shell) (f : Frame) : Prop := f.inside = true ∨ s.handler = .off

/-- The steps of the shell, and of the handlers of keyboard signals. What a signal does to a child
is a change of that child. -/
inductive Console.Step : Console → ConsoleEvent → Console → Prop
  | shell {k : Console} {e : Event} {s : Shell} (halive : k.alive = true) (hturn : k.Turn e)
      (hstep : k.shell.Step e s) : Step k (.shell e) { k with shell := s }
  | arrive {k : Console} (signal : Keyboard) (halive : k.alive = true)
      (hmain : k.shell.main ≠ .exited) (hhandler : k.shell.handler ≠ .crashed)
      (hunblocked : ∀ f ∈ k.frames, f.signal ≠ signal) : Step k (.arrive signal) { k with
        frames := signal.handler (k.shell.handler ≠ .off) :: k.frames }
  | read {k : Console} {f : Frame} {frames : List Frame} {next : Forward} (halive : k.alive = true)
      (htop : k.frames = f :: frames) (hruns : f.Runs k.shell)
      (hnext : f.next.read k.shell.table = some next) :
      Step k .read { k with frames := { f with next := next } :: frames }
  | kill {k : Console} {f : Frame} {frames : List Frame} {pid : Int} {others : Bool}
      (halive : k.alive = true) (htop : k.frames = f :: frames) (hruns : f.Runs k.shell)
      (hkill : f.next = .kill pid) (hreaches : k.shell.Reaches pid others) :
      Step k (.kill others) { k with frames := { f with next := .done } :: frames }
  | done {k : Console} {f : Frame} {frames : List Frame} (halive : k.alive = true)
      (htop : k.frames = f :: frames) (hruns : f.Runs k.shell) (hdone : f.next = .done) :
      Step k .done { k with frames := frames }
  -- `unix_error` after a failed `Kill`
  | fail {k : Console} {f : Frame} {frames : List Frame} {pid : Int} (halive : k.alive = true)
      (htop : k.frames = f :: frames) (hruns : f.Runs k.shell) (hkill : f.next = .kill pid)
      (hreaches : ¬ k.shell.Reaches pid false) : Step k .fail { k with alive := false }

/-! ### Where a signal gets through -/

/-- A child that has not been reaped leads its process group. -/
def Shell.Leads (s : Shell) (pid : Int) : Prop :=
  ∃ c, s.children pid = some c ∧ c.grouped = true

/-- A child leads its group until it is reaped. -/
theorem Shell.Step.leads {s s' : Shell} {e : Event} (hstep : s.Step e s') {pid : Int}
    (h : s.Leads pid) (hreap : e ≠ .reap pid) : s'.Leads pid := by
  obtain ⟨c, hc, hgrouped⟩ := h
  have hupdate : ∀ {q : Int} {c' : Child}, (q = pid → c'.grouped = true) →
      ∃ c, Function.update s.children q (some c') pid = some c ∧ c.grouped = true := by
    intro q c' hq
    by_cases hpid : pid = q
    · subst hpid
      exact ⟨c', Function.update_self _ _ _, hq rfl⟩
    · exact ⟨c, (Function.update_of_ne hpid _ _).trans hc, hgrouped⟩
  cases hstep with
  | change hchild hbecomes =>
    refine hupdate ?_
    rintro rfl
    rw [← Option.some.inj (hc.symm.trans hchild)]
    exact hgrouped
  | setpgid hchild hrunning => exact hupdate fun _ ↦ rfl
  | @reap q c' hhandler hchild hterminated =>
    have hne : pid ≠ q := fun heq ↦ hreap (by rw [heq])
    exact ⟨c, (Function.update_of_ne hne _ _).trans hc, hgrouped⟩
  | report hhandler hchild hstopped =>
    refine hupdate ?_
    rintro rfl
    rw [← Option.some.inj (hc.symm.trans hchild)]
    exact hgrouped
  | fork hoff hmain hpid hnew =>
    refine hupdate ?_
    rintro rfl
    rw [hnew] at hc
    exact absurd hc (by simp)
  | @kill bg job q others hoff hmain hreaches =>
    by_cases hpid : pid = q
    · subst hpid
      refine ⟨c.continued, by simp [hc], ?_⟩
      unfold Child.continued
      split
      · rfl
      · exact hgrouped
    · exact ⟨c, (Function.update_of_ne hpid _ _).trans hc, hgrouped⟩
  | _ => exact ⟨c, hc, hgrouped⟩

theorem forwardTest_eq_kill {fpid pid : Int} (h : forwardTest fpid = .kill pid) :
    fpid = pid ∧ pid ≠ 0 := by
  unfold forwardTest at h
  split_ifs at h with hzero
  obtain rfl := Forward.kill.inj h
  exact ⟨rfl, hzero⟩

/-- A handler is before `Kill` once it has read the pid of a slot. -/
theorem Forward.read_eq_kill {t : JobTable} {next : Forward} {pid : Int}
    (h : next.read t = some (.kill pid)) :
    pid ≠ 0 ∧ ∃ i, next = .compare i ∧ (t.jobs i).pid = pid := by
  cases next with
  | scan slot =>
    simp only [Forward.read, Option.some.injEq] at h
    split_ifs at h with hlt hfg
    obtain ⟨rfl, hne⟩ := forwardTest_eq_kill h
    exact absurd rfl hne
  | compare i =>
    obtain ⟨hpid, hne⟩ := forwardTest_eq_kill (Option.some.inj h)
    exact ⟨hne, i, rfl, hpid⟩
  | kill pid => simp [Forward.read] at h
  | done => simp [Forward.read] at h

namespace Console

/-- Every `Kill` that a handler of a keyboard signal is about to make succeeds. -/
def Delivers (k : Console) : Prop :=
  ∀ f ∈ k.frames, ∀ pid, f.next = .kill pid → k.shell.Reaches pid false

/-- The step is outside of the two windows. `fgpid` reads the pid of a job after the child's
`Setpgid`, and not between `Waitpid` and `deletejob`; and a child is not reaped between that and
`Kill`. -/
def Forwards (k : Console) : ConsoleEvent → Prop
  | .read => ∀ f frames i, k.frames = f :: frames → f.next = .compare i →
      (k.shell.table.jobs i).InUse → k.shell.handler ≠ .deleting (k.shell.table.jobs i).pid ∧
        ∀ c, k.shell.children (k.shell.table.jobs i).pid = some c → c.grouped = true
  | .shell (.reap pid) => ∀ f ∈ k.frames, f.next ≠ .kill pid
  | _ => True

/-- The table keeps track of the children, and only the handlers' own pids are killed. -/
structure Tracked (k : Console) : Prop where
  shell : k.shell.Tracked
  deleted : k.shell.Deleted
  nonzero : ∀ f ∈ k.frames, f.next ≠ .kill 0

variable {k k' : Console} {e : ConsoleEvent}

theorem Tracked.start : Console.start.Tracked :=
  ⟨Shell.Tracked.start, nofun, fun _ hf ↦ absurd hf List.not_mem_nil⟩

/-- The handlers that are before `Kill` after a step were so before it, or the last has just read
the pid. -/
theorem Step.frames (hstep : k.Step e k') {f' : Frame} (hf' : f' ∈ k'.frames) {pid : Int}
    (hkill : f'.next = .kill pid) : (∃ f ∈ k.frames, f.next = .kill pid) ∨
      e = .read ∧ pid ≠ 0 ∧ ∃ f frames i, k.frames = f :: frames ∧ f.next = .compare i ∧
        (k.shell.table.jobs i).pid = pid := by
  cases hstep with
  | shell halive hturn hstep => exact Or.inl ⟨f', hf', hkill⟩
  | arrive signal halive hmain hhandler hunblocked =>
    rcases List.mem_cons.mp hf' with rfl | hf'
    · cases signal <;> exact absurd hkill (by simp [Keyboard.handler, sigintHandler, sigtstpHandler])
    · exact Or.inl ⟨f', hf', hkill⟩
  | @read f frames next halive htop hruns hnext =>
    rcases List.mem_cons.mp hf' with rfl | hf'
    · obtain ⟨hne, i, hcompare, hpid⟩ := Forward.read_eq_kill (hnext.trans (congrArg some hkill))
      exact Or.inr ⟨rfl, hne, f, frames, i, htop, hcompare, hpid⟩
    · exact Or.inl ⟨f', htop ▸ List.mem_cons_of_mem f hf', hkill⟩
  | @kill f frames q others halive htop hruns hkill' hreaches =>
    rcases List.mem_cons.mp hf' with rfl | hf'
    · exact absurd hkill (by simp)
    · exact Or.inl ⟨f', htop ▸ List.mem_cons_of_mem f hf', hkill⟩
  | @done f frames halive htop hruns hdone =>
    exact Or.inl ⟨f', htop ▸ List.mem_cons_of_mem f hf', hkill⟩
  | fail halive htop hruns hkill' hreaches => exact Or.inl ⟨f', hf', hkill⟩

/-- A step of the shell, or none. -/
theorem Step.shell_or (hstep : k.Step e k') :
    (∃ a, e = .shell a ∧ k.shell.Step a k'.shell) ∨ (∀ a, e ≠ .shell a) ∧ k'.shell = k.shell := by
  cases hstep with
  | shell halive hturn hstep => exact Or.inl ⟨_, rfl, hstep⟩
  | _ => exact Or.inr ⟨by simp, rfl⟩

theorem Step.tracked (h : k.Tracked) (hstep : k.Step e k') : k'.Tracked := by
  have hnonzero : ∀ f ∈ k'.frames, f.next ≠ .kill 0 := by
    intro f' hf' hkill
    rcases hstep.frames hf' hkill with ⟨f, hf, hzero⟩ | ⟨-, hne, -⟩
    · exact h.nonzero f hf hzero
    · exact hne rfl
  rcases hstep.shell_or with ⟨a, rfl, hshell⟩ | ⟨-, hshell⟩
  · exact ⟨hshell.tracked h.shell, hshell.deleted h.deleted, hnonzero⟩
  · exact ⟨hshell ▸ h.shell, hshell ▸ h.deleted, hnonzero⟩

/-- Outside of the windows, what a handler is about to send gets through. -/
theorem Step.delivers (h : k.Tracked) (hdelivers : k.Delivers) (hstep : k.Step e k')
    (hforwards : k.Forwards e) : k'.Delivers := by
  intro f' hf' pid hkill
  rcases hstep.frames hf' hkill with ⟨f, hf, hbefore⟩ | ⟨rfl, hne, f, frames, i, htop, hcompare, rfl⟩
  · rcases hdelivers f hf pid hbefore with rfl | hothers | hleads
    · exact absurd hbefore (h.nonzero f hf)
    · exact absurd hothers (by simp)
    · refine Or.inr (Or.inr ?_)
      rcases hstep.shell_or with ⟨a, rfl, hshell⟩ | ⟨-, hshell⟩
      · refine hshell.leads hleads ?_
        rintro rfl
        exact hforwards f hf hbefore
      · rw [hshell]
        exact hleads
  · obtain ⟨hdeleting, hgrouped⟩ := hforwards f frames i htop hcompare hne
    have hchild := (h.shell.unreaped i hne).resolve_right hdeleting
    obtain ⟨c, hc⟩ := Option.ne_none_iff_exists'.mp hchild
    rcases hstep.shell_or with ⟨a, ha, -⟩ | ⟨-, hshell⟩
    · exact absurd ha (by simp)
    · rw [hshell]
      exact Or.inr (Or.inr ⟨c, hc, hgrouped c hc⟩)

/-- Inside one of the windows, it does not. -/
theorem Step.forwards (h : k.Tracked) (hstep : k.Step e k') (hdelivers : k'.Delivers) :
    k.Forwards e := by
  cases hstep with
  | @shell a s halive hturn hstep =>
    cases hstep with
    | @reap pid c hhandler hchild hterminated =>
      intro f hf hkill
      rcases hdelivers f hf pid hkill with rfl | hothers | ⟨c', hc', -⟩
      · exact h.nonzero f hf hkill
      · exact absurd hothers (by simp)
      · simp at hc'
    | _ => trivial
  | @read f frames next halive htop hruns hnext =>
    rintro f' frames' i htop' hcompare hused
    obtain ⟨rfl, rfl⟩ := List.cons.inj (htop.symm.trans htop')
    rw [hcompare, Forward.read, Option.some.injEq, forwardTest, if_neg hused] at hnext
    rcases hdelivers _ List.mem_cons_self _ hnext.symm with hzero | hothers | ⟨c, hc, hgrouped⟩
    · exact absurd hzero hused
    · exact absurd hothers (by simp)
    · refine ⟨fun hdeleting ↦ ?_, fun c' hc' ↦ ?_⟩
      · exact absurd (hc.symm.trans (h.deleted _ hdeleting)) (by simp)
      · rwa [← Option.some.inj (hc.symm.trans hc')]
  | _ => trivial

/-- Only a `Kill` that fails ends the shell from a handler. -/
theorem Step.alive (hdelivers : k.Delivers) (halive : k.alive = true) (hstep : k.Step e k') :
    k'.alive = true := by
  cases hstep with
  | fail halive' htop hruns hkill hreaches =>
    refine absurd (hdelivers _ ?_ _ hkill) hreaches
    rw [htop]
    exact List.mem_cons_self
  | _ => exact halive

end Console

/-- Every `Kill` of `sigint_handler` and `sigtstp_handler` succeeds, and the shell lives on, in every
run outside of the two windows; and these are the only runs in which each would succeed all along. -/
theorem keyboard_forwards (events : List ConsoleEvent) (k : Console) :
    (Run (· = Console.start) (fun k e k' ↦ k.Step e k' ∧ k.Forwards e) events k →
      k.alive = true ∧ k.Delivers) ∧
    (Run (· = Console.start) (fun k e k' ↦ k.Step e k' ∧ k'.Delivers) events k ↔
      Run (· = Console.start) (fun k e k' ↦ k.Step e k' ∧ k.Forwards e) events k) := by
  have hstart : ∀ k, k = Console.start → k.Tracked ∧ k.Delivers := by
    rintro _ rfl
    exact ⟨Console.Tracked.start, fun _ hf ↦ absurd hf List.not_mem_nil⟩
  refine ⟨fun hrun ↦ ?_, fun hrun ↦ ?_, fun hrun ↦ ?_⟩
  · have hinv := Run.invariant (P := fun k ↦ (k.Tracked ∧ k.Delivers) ∧ k.alive = true)
      (fun k hk ↦ ⟨hstart k hk, by rw [hk]; rfl⟩)
      (fun k e k' hinv hstep ↦ ⟨⟨hstep.1.tracked hinv.1.1,
        hstep.1.delivers hinv.1.1 hinv.1.2 hstep.2⟩, hstep.1.alive hinv.1.2 hinv.2⟩) hrun
    exact ⟨hinv.2, hinv.1.2⟩
  · refine hrun.mono_of_invariant (P := fun k ↦ k.Tracked ∧ k.Delivers) hstart ?_
    intro k e k' hinv hstep
    exact ⟨⟨hstep.1, hstep.1.forwards hinv.1 hstep.2⟩, hstep.1.tracked hinv.1, hstep.2⟩
  · refine hrun.mono_of_invariant (P := fun k ↦ k.Tracked ∧ k.Delivers) hstart ?_
    intro k e k' hinv hstep
    have hdelivers := hstep.1.delivers hinv.1 hinv.2 hstep.2
    exact ⟨⟨hstep.1, hdelivers⟩, hstep.1.tracked hinv.1, hdelivers⟩

theorem keyboard_forwards_grouped : ∃ k,
    Run (· = Console.start) (fun k e k' ↦ k.Step e k' ∧ k.Forwards e)
      [.shell (.command (.run false "a")), .shell .block, .shell (.fork 100), .shell (.setpgid 100),
        .shell .add, .shell .unblock, .arrive .sigint, .read, .read] k ∧
      k.frames = [⟨.sigint, false, .kill 100⟩] ∧ k.alive = true ∧ k.shell.Reaches 100 false := by
  obtain ⟨k, hsteps, halive, hframes, hoff, hfg, hpid, hchild⟩ : ∃ k,
      Steps (fun k e k' ↦ k.Step e k' ∧ k.Forwards e) Console.start
        [.shell (.command (.run false "a")), .shell .block, .shell (.fork 100),
          .shell (.setpgid 100), .shell .add, .shell .unblock, .arrive .sigint] k ∧
      k.alive = true ∧ k.frames = [⟨.sigint, false, .scan 0⟩] ∧ k.shell.handler = .off ∧
      (k.shell.table.jobs 0).state = .fg ∧ (k.shell.table.jobs 0).pid = 100 ∧
      k.shell.children 100 = some ⟨.running, true⟩ :=
    ⟨_, .cons ⟨.shell rfl rfl (.command _ rfl rfl), trivial⟩ <|
      .cons ⟨.shell rfl rfl (.block rfl rfl), trivial⟩ <|
      .cons ⟨.shell rfl rfl (.fork rfl rfl (by decide) rfl), trivial⟩ <|
      .cons ⟨.shell rfl trivial (.setpgid rfl rfl), trivial⟩ <|
      .cons ⟨.shell rfl rfl (.add rfl rfl), trivial⟩ <|
      .cons ⟨.shell rfl rfl (.unblock rfl rfl), trivial⟩ <|
      .cons ⟨.arrive .sigint rfl nofun nofun nofun, trivial⟩ .nil, rfl, rfl, rfl, rfl, rfl, rfl⟩
  have hscan : Forward.read k.shell.table (.scan 0) = some (.compare 0) :=
    congrArg some (if_pos hfg)
  have hcompare : Forward.read k.shell.table (.compare 0) = some (.kill 100) := by
    rw [Forward.read, hpid]
    rfl
  have hreads := hsteps.append <| .cons ⟨.read halive hframes (Or.inr hoff) hscan, ?_⟩ <|
    .cons ⟨.read halive rfl (Or.inr hoff) hcompare, ?_⟩ .nil
  · have hrun : Run (· = Console.start) _ _ _ := hreads.run rfl
    obtain ⟨hlives, hdelivers⟩ := (keyboard_forwards _ _).1 hrun
    exact ⟨_, hrun, rfl, hlives, hdelivers _ List.mem_cons_self 100 rfl⟩
  · rintro f frames i htop hcompare' -
    obtain ⟨rfl, -⟩ := List.cons.inj (hframes.symm.trans htop)
    exact absurd hcompare' (by simp)
  · rintro f frames i htop hcompare' -
    obtain ⟨rfl, -⟩ := List.cons.inj htop
    obtain rfl : 0 = i := Forward.compare.inj hcompare'
    refine ⟨by simp [hoff], fun c hc ↦ ?_⟩
    dsimp only at hc
    rw [hpid, hchild] at hc
    rw [← Option.some.inj hc]

/-- The signal arrives after `addjob` and before the child's `Setpgid`, and `exit` is called. -/
theorem keyboard_forwards_newborn : ∃ k,
    Run (· = Console.start) Console.Step
      [.shell (.command (.run false "a")), .shell .block, .shell (.fork 100), .shell .add,
        .arrive .sigint, .read, .read, .fail] k ∧ k.alive = false := by
  have hsteps : ∃ k, Steps Console.Step Console.start
      [.shell (.command (.run false "a")), .shell .block, .shell (.fork 100), .shell .add,
        .arrive .sigint, .read, .read, .fail] k ∧ k.alive = false := by
    refine ⟨_, .cons (.shell rfl rfl (.command _ rfl rfl)) <|
      .cons (.shell rfl rfl (.block rfl rfl)) <|
      .cons (.shell rfl rfl (.fork rfl rfl (by decide) rfl)) <|
      .cons (.shell rfl rfl (.add rfl rfl)) <|
      .cons (.arrive .sigint rfl nofun nofun nofun) <|
      .cons (.read rfl rfl (Or.inr rfl) rfl) <| .cons (.read rfl rfl (Or.inr rfl) rfl) <|
      .cons (.fail rfl rfl (Or.inr rfl) rfl ?_) .nil, rfl⟩
    rintro (hzero | hothers | ⟨c, hc, hgrouped⟩)
    · exact absurd hzero (by decide)
    · exact absurd hothers (by decide)
    · rw [← Option.some.inj hc] at hgrouped
      exact absurd hgrouped (by decide)
  obtain ⟨k, hsteps, hdead⟩ := hsteps
  exact ⟨k, hsteps.run rfl, hdead⟩

end SystemProgramming.ShellLab
