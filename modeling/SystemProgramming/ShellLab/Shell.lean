import SystemProgramming.ShellLab.JobTable

/-!
# The shell of `tsh.c`, step by step

A state of the shell is its job table, what the kernel knows of its children, whether `SIGCHLD` is
pending and whether it is blocked, and where the main program and `sigchld_handler` are. The main
program is at a read or a write of the table or at a system call; the handler may begin before any
of its steps at which `SIGCHLD` is not blocked, and the main program stands still until the handler
has returned. Children change at any moment, also while the handler runs, and every change sets the
one pending bit.

A line that only prints (a blank line, `jobs`, `&`, a `bg` or `fg` without a proper argument) is the
command `other`. What is printed is left out. So are `sigint_handler` and `sigtstp_handler`, which
write nothing: what they do to a child is a change of that child, and a shell that ends early has a
run that ends early.
-/

set_option autoImplicit false
set_option relaxedAutoImplicit false

namespace SystemProgramming.ShellLab

open Library

/-! ### Children -/

/-- What has become of a child that has not been reaped. A stop is reported once. -/
inductive ChildStatus
  | running
  | stopped (reported : Bool)
  | exited
  | signaled
  deriving DecidableEq, Repr

/-- A child, and whether it has put itself into its own process group. -/
structure Child where
  status : ChildStatus
  grouped : Bool
  deriving DecidableEq, Repr

namespace ChildStatus

/-- The child has terminated. -/
def Terminated : ChildStatus → Prop
  | exited => True
  | signaled => True
  | _ => False

/-- `waitpid` with `WNOHANG | WUNTRACED` has something to report. -/
def Waitable : ChildStatus → Prop
  | stopped reported => reported = false
  | status => status.Terminated

/-- What may happen to a child at any moment. -/
inductive Becomes : ChildStatus → ChildStatus → Prop
  | exit : Becomes running exited
  | kill : Becomes running signaled
  | stop : Becomes running (stopped false)
  | killStopped (reported : Bool) : Becomes (stopped reported) signaled
  | resume (reported : Bool) : Becomes (stopped reported) running

theorem Terminated.waitable {status : ChildStatus} (h : status.Terminated) : status.Waitable := by
  cases status with
  | stopped reported => exact absurd h id
  | running => exact h
  | exited => exact h
  | signaled => exact h

end ChildStatus

/-! ### The main program -/

/-- The argument of `bg` and `fg`. -/
inductive JobRef
  | jid (id : Int)
  | pid (id : Int)
  deriving DecidableEq, Repr

/-- The test of the loops of `getjobjid` and `getjobpid`. -/
def JobRef.Matches (job : Job) : JobRef → Prop
  | jid id => job.jid = id
  | pid id => job.pid = id

instance (job : Job) : (r : JobRef) → Decidable (r.Matches job)
  | .jid _ => inferInstanceAs (Decidable (_ = _))
  | .pid _ => inferInstanceAs (Decidable (_ = _))

/-- The number of the argument, which both functions compare with one. -/
def JobRef.id : JobRef → Int
  | jid id => id
  | pid id => id

/-- What a command line asks for. -/
inductive Command
  | run (bg : Bool) (cmdline : String)
  | bgfg (bg : Bool) (job : JobRef)
  | quit
  | other
  deriving DecidableEq, Repr

/-- Where the main program is: the prompt; in `eval`, before the signal is blocked, before the
fork, before `addjob` and before the signal is unblocked; in `do_bgfg`, at a slot of the lookup,
before `job->pid` is read for `Kill`, before `Kill`, before the state is assigned, and before
`job->pid` is read for `waitfg`; in `waitfg`, at the state of a slot in `fgpid` and at the pid of
the slot found. -/
inductive Main
  | prompt
  | block (bg : Bool) (cmdline : String)
  | fork (bg : Bool) (cmdline : String)
  | add (bg : Bool) (cmdline : String) (pid : Int)
  | unblock (bg : Bool) (pid : Int)
  | lookup (bg : Bool) (job : JobRef) (slot : Nat)
  | cont (bg : Bool) (job : Fin maxJobs)
  | kill (bg : Bool) (job : Fin maxJobs) (pid : Int)
  | mark (bg : Bool) (job : Fin maxJobs)
  | await (job : Fin maxJobs)
  | scan (pid : Int) (slot : Nat)
  | compare (pid : Int) (slot : Fin maxJobs)
  | exited
  deriving DecidableEq, Repr

/-- `eval` and `builtin_cmd`: where a command line leads. -/
def Command.begin : Command → Main
  | run bg cmdline => .block bg cmdline
  | bgfg bg job => if job.id < 1 then .prompt else .lookup bg job 0
  | quit => .exited
  | other => .prompt

/-- `waitfg`. -/
def waitfg (pid : Int) : Main := if pid = 0 then .prompt else .scan pid 0

/-- The test of the loop of `waitfg`, on what `fgpid` has returned. -/
def waitfgTest (pid fgpid : Int) : Main := if pid = fgpid then .scan pid 0 else .prompt

/-- The steps that read the table. -/
def Main.read (t : JobTable) : Main → Option Main
  | lookup bg job slot => some (if h : slot < maxJobs then
      if job.Matches (t.jobs ⟨slot, h⟩) then .cont bg ⟨slot, h⟩ else .lookup bg job (slot + 1)
    else .prompt)
  | cont bg job => some (.kill bg job (t.jobs job).pid)
  | await job => some (waitfg (t.jobs job).pid)
  | scan pid slot => some (if h : slot < maxJobs then
      if (t.jobs ⟨slot, h⟩).state = .fg then .compare pid ⟨slot, h⟩ else .scan pid (slot + 1)
    else waitfgTest pid 0)
  | compare pid slot => some (waitfgTest pid (t.jobs slot).pid)
  | _ => none

/-! ### The handler -/

/-- Where `sigchld_handler` is: not running; before `Waitpid`; before `deletejob`; before a job is
marked as stopped; at a null pointer. -/
inductive Handler
  | off
  | reaping
  | deleting (pid : Int)
  | stopping (pid : Int)
  | crashed
  deriving DecidableEq, Repr

/-! ### Steps -/

/-- The shell with its children. -/
structure Shell where
  table : JobTable
  children : Int → Option Child
  pending : Bool
  blocked : Bool
  handler : Handler
  main : Main

/-- The shell as it starts. -/
def Shell.start : Shell := ⟨.start, fun _ ↦ none, false, false, .off, .prompt⟩

/-- What happens in a step. -/
inductive Event
  | change (pid : Int)
  | setpgid (pid : Int)
  | raise
  | deliver
  | reap (pid : Int)
  | delete (pid : Int)
  | report (pid : Int)
  | stop (pid : Int)
  | crash (pid : Int)
  | done
  | command (c : Command)
  | block
  | fork (pid : Int)
  | add
  | unblock
  | read
  | kill (others : Bool)
  | mark
  | fail
  deriving DecidableEq, Repr

/-- `kill` of a process group reaches a process: the shell's own group, for zero; a child that leads
the group and has not been reaped; or other processes in the group. A stopped child that is still in
the shell's own group may go on after the first, which is a change of that child. -/
def Shell.Reaches (s : Shell) (pid : Int) (others : Bool) : Prop :=
  pid = 0 ∨ others = true ∨ ∃ c, s.children pid = some c ∧ c.grouped = true

/-- A child that is stopped in its own group goes on at `SIGCONT`. -/
def Child.continued (c : Child) : Child :=
  match c with
  | ⟨.stopped _, true⟩ => ⟨.running, true⟩
  | c => c

/-- The steps of the shell, its children and its handler. -/
inductive Shell.Step : Shell → Event → Shell → Prop
  -- the children and the kernel
  | change {s : Shell} {pid : Int} {c : Child} {status : ChildStatus}
      (hchild : s.children pid = some c) (hbecomes : c.status.Becomes status) :
      Step s (.change pid) { s with
        children := Function.update s.children pid (some { c with status := status })
        pending := true }
  | setpgid {s : Shell} {pid : Int} {c : Child} (hchild : s.children pid = some c)
      (hrunning : c.status = .running) :
      Step s (.setpgid pid) { s with
        children := Function.update s.children pid (some { c with grouped := true }) }
  | raise {s : Shell} : Step s .raise { s with pending := true }
  | deliver {s : Shell} (hpending : s.pending = true) (hblocked : s.blocked = false)
      (hoff : s.handler = .off) (halive : s.main ≠ .exited) :
      Step s .deliver { s with pending := false, handler := .reaping }
  -- `sigchld_handler`
  | reap {s : Shell} {pid : Int} {c : Child} (hhandler : s.handler = .reaping)
      (hchild : s.children pid = some c) (hterminated : c.status.Terminated) :
      Step s (.reap pid) { s with
        children := Function.update s.children pid none
        handler := .deleting pid }
  | delete {s : Shell} {pid : Int} (hhandler : s.handler = .deleting pid) :
      Step s (.delete pid) { s with table := (s.table.deletejob pid).2, handler := .reaping }
  | report {s : Shell} {pid : Int} {c : Child} (hhandler : s.handler = .reaping)
      (hchild : s.children pid = some c) (hstopped : c.status = .stopped false) :
      Step s (.report pid) { s with
        children := Function.update s.children pid (some { c with status := .stopped true })
        handler := .stopping pid }
  | stop {s : Shell} {pid : Int} {i : Fin maxJobs} (hhandler : s.handler = .stopping pid)
      (hjob : s.table.getjobpid pid = some i) :
      Step s (.stop pid) { s with table := s.table.setState i .st, handler := .reaping }
  | crash {s : Shell} {pid : Int} (hhandler : s.handler = .stopping pid)
      (hjob : s.table.getjobpid pid = none) :
      Step s (.crash pid) { s with handler := .crashed }
  | done {s : Shell} (hhandler : s.handler = .reaping)
      (hnone : ∀ pid c, s.children pid = some c → ¬ c.status.Waitable) :
      Step s .done { s with handler := .off }
  -- the main program
  | command {s : Shell} (c : Command) (hoff : s.handler = .off) (hmain : s.main = .prompt) :
      Step s (.command c) { s with main := c.begin }
  | block {s : Shell} {bg : Bool} {cmdline : String} (hoff : s.handler = .off)
      (hmain : s.main = .block bg cmdline) :
      Step s .block { s with blocked := true, main := .fork bg cmdline }
  | fork {s : Shell} {bg : Bool} {cmdline : String} {pid : Int} (hoff : s.handler = .off)
      (hmain : s.main = .fork bg cmdline) (hpid : 1 ≤ pid) (hnew : s.children pid = none) :
      Step s (.fork pid) { s with
        children := Function.update s.children pid (some ⟨.running, false⟩)
        main := .add bg cmdline pid }
  | add {s : Shell} {bg : Bool} {cmdline : String} {pid : Int} (hoff : s.handler = .off)
      (hmain : s.main = .add bg cmdline pid) :
      Step s .add { s with
        table := (s.table.addjob pid (if bg then .bg else .fg) cmdline).2
        main := .unblock bg pid }
  | unblock {s : Shell} {bg : Bool} {pid : Int} (hoff : s.handler = .off)
      (hmain : s.main = .unblock bg pid) :
      Step s .unblock { s with blocked := false, main := if bg then .prompt else waitfg pid }
  | read {s : Shell} {main : Main} (hoff : s.handler = .off) (hmain : s.main.read s.table = some main) :
      Step s .read { s with main := main }
  | kill {s : Shell} {bg : Bool} {job : Fin maxJobs} {pid : Int} {others : Bool}
      (hoff : s.handler = .off) (hmain : s.main = .kill bg job pid) (hreaches : s.Reaches pid others) :
      Step s (.kill others) { s with
        children := Function.update s.children pid ((s.children pid).map Child.continued)
        pending := s.pending || ((s.children pid).map Child.continued != s.children pid)
        main := .mark bg job }
  | mark {s : Shell} {bg : Bool} {job : Fin maxJobs} (hoff : s.handler = .off)
      (hmain : s.main = .mark bg job) :
      Step s .mark { s with
        table := s.table.setState job (if bg then .bg else .fg)
        main := if bg then .prompt else .await job }
  -- `unix_error` after a failed `Fork` or `Kill`
  | fail {s : Shell} (hoff : s.handler = .off)
      (hmain : (∃ bg cmdline, s.main = .fork bg cmdline) ∨
        ∃ bg job pid, s.main = .kill bg job pid ∧ ¬ s.Reaches pid false) :
      Step s .fail { s with main := .exited }

end SystemProgramming.ShellLab
