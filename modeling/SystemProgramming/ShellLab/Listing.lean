import SystemProgramming.Library.Scanning
import SystemProgramming.ShellLab.Continuing

/-!
# `jobs` among the runs of the handler

`listjobs` goes through the slots, and `sigchld_handler` may run before each of its reads of the
table: it may delete a job or mark it as stopped between the test of its slot and the reads of its
number and its pid, of its state and of its command line. `Listing.Reads` is a step of `listjobs`,
and `Lister.Step` is one of the shell while `jobs` is carried out.

Whatever the handler does in the meantime, there is one text for each slot, in order. A free slot has
none, and a job that is not deleted has its line, with the state that it had at the beginning or as
one that has stopped (`jobs_lists`). The message of the default branch of the `switch` is printed for
exactly those jobs that the handler deletes between the test and the read of the state
(`jobs_internal_error`).

The number and the pid are arguments of one call and may be read in either order. A command line is
read in one step.
-/

set_option autoImplicit false
set_option relaxedAutoImplicit false

namespace SystemProgramming.ShellLab

open Library

/-! ### The code -/

/-- `[%d] (%d) `. -/
def numbersText (jid pid : Int) : List UInt8 :=
  ascii "[" ++ decimalInt jid ++ ascii "] (" ++ decimalInt pid ++ ascii ") "

/-- The number that the source has for a state. -/
def JobState.number : JobState → Int
  | undef => 0
  | fg => 1
  | bg => 2
  | st => 3

/-- What the branches of the `switch` print. The default branch reads the state once more. -/
def JobState.word : JobState → List UInt8
  | bg => ascii "Running "
  | fg => ascii "Foreground "
  | st => ascii "Stopped "
  | undef => []

/-- The message of the default branch. -/
def internalError (slot : Nat) (state : JobState) : List UInt8 :=
  ascii "listjobs: Internal error: job[" ++ decimal slot ++ ascii "].state=" ++
    decimalInt state.number ++ ascii " "

/-- Where `listjobs` is: at the test of a slot; before the number and the pid of a job are read, or
before one of them is; before the state is read, for the `switch` or for the message; before the
command line is read; behind the loop. -/
inductive Listing
  | test (slot : Nat)
  | numbers (slot : Fin maxJobs)
  | numbered (slot : Fin maxJobs) (jid : Int)
  | named (slot : Fin maxJobs) (pid : Int)
  | state (slot : Fin maxJobs)
  | default (slot : Fin maxJobs)
  | cmdline (slot : Fin maxJobs)
  | returned
  deriving DecidableEq, Repr

/-- What happens in a step: something in the shell, a slot that is found in use, the `switch` over a
state, and any other read with what is printed then. -/
inductive ListEvent
  | shell (e : Event)
  | enter (slot : Fin maxJobs)
  | switch (slot : Fin maxJobs) (state : JobState)
  | print (text : List UInt8)
  deriving DecidableEq, Repr

/-- The steps of `listjobs`. -/
inductive Listing.Reads (t : JobTable) : Listing → ListEvent → Listing → Prop
  | pass {slot : Fin maxJobs} (hfree : ¬ (t.jobs slot).InUse) :
      Reads t (.test slot) (.print []) (.test (slot + 1))
  | enter {slot : Fin maxJobs} (hused : (t.jobs slot).InUse) :
      Reads t (.test slot) (.enter slot) (.numbers slot)
  | jid {slot : Fin maxJobs} :
      Reads t (.numbers slot) (.print []) (.numbered slot (t.jobs slot).jid)
  | pid {slot : Fin maxJobs} :
      Reads t (.numbers slot) (.print []) (.named slot (t.jobs slot).pid)
  | pidLast {slot : Fin maxJobs} {jid : Int} : Reads t (.numbered slot jid)
      (.print (numbersText jid (t.jobs slot).pid)) (.state slot)
  | jidLast {slot : Fin maxJobs} {pid : Int} : Reads t (.named slot pid)
      (.print (numbersText (t.jobs slot).jid pid)) (.state slot)
  | switch {slot : Fin maxJobs} : Reads t (.state slot) (.switch slot (t.jobs slot).state)
      (if (t.jobs slot).state = .undef then .default slot else .cmdline slot)
  | default {slot : Fin maxJobs} : Reads t (.default slot)
      (.print (internalError slot (t.jobs slot).state)) (.cmdline slot)
  | cmdline {slot : Fin maxJobs} : Reads t (.cmdline slot)
      (.print (ascii (t.jobs slot).cmdline)) (.test (slot + 1))
  | finish : Reads t (.test maxJobs) (.print []) .returned

/-- The shell and where `listjobs` is. -/
structure Lister where
  shell : Shell
  listing : Listing

/-- The steps while `jobs` is carried out: the main program is in `listjobs` and stands still while
the handler runs. -/
inductive Lister.Step : Lister → ListEvent → Lister → Prop
  | shell {k : Lister} {e : Event} {s : Shell} (hstep : k.shell.Step e s)
      (hcommand : ∀ c, e ≠ .command c) : Step k (.shell e) { k with shell := s }
  | read {k : Lister} {e : ListEvent} {listing : Listing} (hoff : k.shell.handler = .off)
      (hread : k.listing.Reads k.shell.table e listing) : Step k e { k with listing := listing }

/-- `jobs` begins at the prompt. -/
abbrev Listed (s : Shell) : List ListEvent → Lister → Prop := Run (· = ⟨s, .test 0⟩) Lister.Step

/-- What is printed in a step. -/
def ListEvent.text : ListEvent → List UInt8
  | print text => text
  | switch _ state => state.word
  | _ => []

/-- What `listjobs` prints. -/
def printed (labels : List ListEvent) : List UInt8 := labels.flatMap ListEvent.text

/-- What happens in the shell in the meantime. -/
def ListEvent.toEvent : ListEvent → Option Event
  | shell e => some e
  | _ => none

/-- What the handler does to the table in the meantime. -/
def handled (labels : List ListEvent) : List Report := reports (labels.filterMap ListEvent.toEvent)

/-- The line of a job. -/
def jobLine (job : Job) : List UInt8 :=
  numbersText job.jid job.pid ++ job.state.word ++ ascii job.cmdline

/-! ### What is printed for a slot -/

namespace JobTable

/-- The handler has not deleted the job since. -/
def Kept (t : JobTable) (rs : List Report) (i : Fin maxJobs) : Prop :=
  .gone (t.jobs i).pid ∉ rs

/-- A state in which the job has been since: the first one, or stopped, once that has been
reported. -/
def HasBeen (t : JobTable) (rs : List Report) (i : Fin maxJobs) (state : JobState) : Prop :=
  state = (t.jobs i).state ∨ (state = .st ∧ .stopped (t.jobs i).pid ∈ rs)

/-- The text of a slot: none if it is free; the line of the job, if that is not deleted. -/
structure Shows (t : JobTable) (rs : List Report) (i : Fin maxJobs) (text : List UInt8) : Prop where
  free : ¬ (t.jobs i).InUse → text = []
  kept : (t.jobs i).InUse → t.Kept rs i →
    ∃ state, t.HasBeen rs i state ∧ text = jobLine { t.jobs i with state := state }

/-- Every job is in one of the three states. -/
def Stated (t : JobTable) : Prop := ∀ i, (t.jobs i).InUse → (t.jobs i).state ≠ .undef

variable {t : JobTable} {rs : List Report} {i : Fin maxJobs} {state : JobState}

theorem Kept.of_append {more : List Report} (h : t.Kept (rs ++ more) i) : t.Kept rs i :=
  fun hgone ↦ h (List.mem_append_left more hgone)

theorem HasBeen.append (more : List Report) (h : t.HasBeen rs i state) :
    t.HasBeen (rs ++ more) i state :=
  h.imp_right fun hstopped ↦ ⟨hstopped.1, List.mem_append_left more hstopped.2⟩

theorem Shows.append (more : List Report) {text : List UInt8} (h : t.Shows rs i text) :
    t.Shows (rs ++ more) i text where
  free := h.free
  kept := fun hused hkept ↦ by
    obtain ⟨state, hbeen, htext⟩ := h.kept hused hkept.of_append
    exact ⟨state, hbeen.append more, htext⟩

/-- A job that is not deleted keeps its number, its pid and its command line. -/
theorem receiveAll_kept (h : t.Tidy) (hused : (t.jobs i).InUse) (hkept : t.Kept rs i) :
    ∃ state, t.HasBeen rs i state ∧ (t.receiveAll rs).jobs i = { t.jobs i with state := state } := by
  rw [receiveAll_jobs h hused, if_neg hkept]
  by_cases hstopped : Report.stopped (t.jobs i).pid ∈ rs
  · exact ⟨.st, Or.inr ⟨rfl, hstopped⟩, if_pos hstopped⟩
  · exact ⟨(t.jobs i).state, Or.inl rfl, if_neg hstopped⟩

theorem HasBeen.ne_undef (h : t.HasBeen rs i state) (hstated : t.Stated)
    (hused : (t.jobs i).InUse) : state ≠ .undef := by
  rcases h with rfl | ⟨rfl, -⟩
  · exact hstated i hused
  · simp

/-- The state is undefined once the job has been deleted, and only then. -/
theorem receiveAll_undef_iff (h : t.Tidy) (hstated : t.Stated) (hused : (t.jobs i).InUse) :
    ((t.receiveAll rs).jobs i).state = .undef ↔ ¬ t.Kept rs i := by
  constructor
  · rintro hundef hkept
    obtain ⟨state, hbeen, hjob⟩ := receiveAll_kept h hused hkept
    rw [hjob] at hundef
    exact hbeen.ne_undef hstated hused hundef
  · intro hgone
    rw [receiveAll_jobs h hused, if_pos (not_not.mp hgone)]
    rfl

end JobTable

/-- The slot at which `listjobs` is. -/
def Listing.slot : Listing → Nat
  | test slot => slot
  | numbers slot => slot
  | numbered slot _ => slot
  | named slot _ => slot
  | state slot => slot
  | default slot => slot
  | cmdline slot => slot
  | returned => maxJobs

/-- What has been read and printed of the job in the slot, if that is not deleted. -/
def Listing.Partial (t : JobTable) (rs : List Report) : Listing → List UInt8 → Prop
  | test _, text => text = []
  | returned, text => text = []
  | numbers i, text => (t.jobs i).InUse ∧ (t.Kept rs i → text = [])
  | numbered i jid, text => (t.jobs i).InUse ∧ (t.Kept rs i → jid = (t.jobs i).jid ∧ text = [])
  | named i pid, text => (t.jobs i).InUse ∧ (t.Kept rs i → pid = (t.jobs i).pid ∧ text = [])
  | state i, text => (t.jobs i).InUse ∧
      (t.Kept rs i → text = numbersText (t.jobs i).jid (t.jobs i).pid)
  | default i, _ => (t.jobs i).InUse ∧ ¬ t.Kept rs i
  | cmdline i, text => (t.jobs i).InUse ∧ (t.Kept rs i → ∃ state, t.HasBeen rs i state ∧
      text = numbersText (t.jobs i).jid (t.jobs i).pid ++ state.word)

theorem Listing.Partial.append {t : JobTable} {rs : List Report} (more : List Report)
    {listing : Listing} {text : List UInt8} (h : listing.Partial t rs text) :
    listing.Partial t (rs ++ more) text := by
  cases listing with
  | test slot => exact h
  | returned => exact h
  | default i => exact ⟨h.1, fun hkept ↦ h.2 hkept.of_append⟩
  | cmdline i =>
    refine ⟨h.1, fun hkept ↦ ?_⟩
    obtain ⟨state, hbeen, htext⟩ := h.2 hkept.of_append
    exact ⟨state, hbeen.append more, htext⟩
  | _ => exact ⟨h.1, fun hkept ↦ h.2 hkept.of_append⟩

/-- A step of `listjobs` stays at a slot, or goes on to the next with the text of this one. -/
theorem Listing.Reads.slot {t : JobTable} (htidy : t.Tidy) (hstated : t.Stated) {rs : List Report}
    {listing listing' : Listing} {e : ListEvent} {text : List UInt8}
    (h : listing.Partial t rs text) (hread : listing.Reads (t.receiveAll rs) e listing') :
    (listing'.slot = listing.slot ∧ listing'.Partial t rs (text ++ e.text)) ∨
    ∃ i : Fin maxJobs, listing.slot = i ∧ listing'.slot = i + 1 ∧
      t.Shows rs i (text ++ e.text) ∧ listing'.Partial t rs [] := by
  cases hread with
  | @pass i hfree =>
    obtain rfl : text = [] := h
    refine Or.inr ⟨i, rfl, rfl, ⟨fun _ ↦ rfl, fun hused hkept ↦ ?_⟩, rfl⟩
    obtain ⟨state, -, hjob⟩ := JobTable.receiveAll_kept htidy hused hkept
    rw [hjob] at hfree
    exact absurd hused hfree
  | @enter i hused =>
    obtain rfl : text = [] := h
    refine Or.inl ⟨rfl, ?_, fun _ ↦ rfl⟩
    by_contra hfree
    rw [JobTable.receiveAll_jobs_free htidy hfree] at hused
    exact hfree hused
  | @jid i =>
    refine Or.inl ⟨rfl, h.1, fun hkept ↦ ?_⟩
    obtain ⟨state, -, hjob⟩ := JobTable.receiveAll_kept htidy h.1 hkept
    rw [hjob, h.2 hkept]
    exact ⟨rfl, rfl⟩
  | @pid i =>
    refine Or.inl ⟨rfl, h.1, fun hkept ↦ ?_⟩
    obtain ⟨state, -, hjob⟩ := JobTable.receiveAll_kept htidy h.1 hkept
    rw [hjob, h.2 hkept]
    exact ⟨rfl, rfl⟩
  | @pidLast i jid =>
    refine Or.inl ⟨rfl, h.1, fun hkept ↦ ?_⟩
    obtain ⟨state, -, hjob⟩ := JobTable.receiveAll_kept htidy h.1 hkept
    obtain ⟨rfl, rfl⟩ := h.2 hkept
    rw [hjob]
    rfl
  | @jidLast i pid =>
    refine Or.inl ⟨rfl, h.1, fun hkept ↦ ?_⟩
    obtain ⟨state, -, hjob⟩ := JobTable.receiveAll_kept htidy h.1 hkept
    obtain ⟨rfl, rfl⟩ := h.2 hkept
    rw [hjob]
    rfl
  | @switch i =>
    left
    split_ifs with hundef
    · exact ⟨rfl, h.1, (JobTable.receiveAll_undef_iff htidy hstated h.1).mp hundef⟩
    · refine ⟨rfl, h.1, fun hkept ↦ ?_⟩
      obtain ⟨state, hbeen, hjob⟩ := JobTable.receiveAll_kept htidy h.1 hkept
      refine ⟨state, hbeen, ?_⟩
      rw [hjob, h.2 hkept]
      rfl
  | @default i => exact Or.inl ⟨rfl, h.1, fun hkept ↦ absurd hkept h.2⟩
  | @cmdline i =>
    refine Or.inr ⟨i, rfl, rfl, ⟨fun hfree ↦ absurd h.1 hfree, fun hused hkept ↦ ?_⟩, rfl⟩
    obtain ⟨state, -, hjob⟩ := JobTable.receiveAll_kept htidy hused hkept
    obtain ⟨seen, hbeen, htext⟩ := h.2 hkept
    refine ⟨seen, hbeen, ?_⟩
    rw [htext, hjob]
    rfl
  | finish =>
    obtain rfl : text = [] := h
    exact Or.inl ⟨rfl, rfl⟩

/-! ### The whole listing -/

/-- While `jobs` is carried out the main program is at the prompt, and the handler does to the table
what it reports. -/
theorem Shell.Step.of_prompt {s s' : Shell} {e : Event} (hstep : s.Step e s')
    (hmain : s.main = .prompt) (hcommand : ∀ c, e ≠ .command c) :
    s'.main = .prompt ∧ s'.table = s.table.receiveAll (reports [e]) := by
  have hpast : s.main.Past := by
    rw [hmain]
    trivial
  obtain ⟨-, hmark, hadd⟩ := hstep.past hpast hcommand
  refine ⟨?_, hstep.table hmark hadd⟩
  cases hstep with
  | command c hoff hmain' => exact absurd rfl (hcommand c)
  | block hoff hmain' => simp [hmain] at hmain'
  | fork hoff hmain' hpid hnew => simp [hmain] at hmain'
  | add hoff hmain' => exact absurd rfl hadd
  | unblock hoff hmain' => simp [hmain] at hmain'
  | read hoff hmain' => simp [hmain, Main.read] at hmain'
  | kill hoff hmain' hreaches => simp [hmain] at hmain'
  | mark hoff hmain' => exact absurd rfl hmark
  | fail hoff hmain' => simp [hmain] at hmain'
  | _ => exact hmain

theorem printed_snoc (labels : List ListEvent) (e : ListEvent) :
    printed (labels ++ [e]) = printed labels ++ e.text := by
  simp [printed]

theorem handled_append (labels more : List ListEvent) :
    handled (labels ++ more) = handled labels ++ handled more := by
  simp [handled, reports]

theorem gone_mem_handled {labels : List ListEvent} {pid : Int} :
    .gone pid ∈ handled labels ↔ .shell (.delete pid) ∈ labels := by
  simp only [handled, reports, List.mem_filterMap]
  constructor
  · rintro ⟨e, ⟨label, hlabel, he⟩, hgone⟩
    cases label with
    | shell e' =>
      obtain rfl : e' = e := Option.some.inj he
      cases e' with
      | delete q =>
        obtain rfl : q = pid := by simpa [Event.toReport] using hgone
        exact hlabel
      | _ => simp [Event.toReport] at hgone
    | _ => simp [ListEvent.toEvent] at he
  · intro hdelete
    exact ⟨.delete pid, ⟨_, hdelete, rfl⟩, rfl⟩

/-- No read reports anything. -/
theorem Listing.Reads.handled {t : JobTable} {listing listing' : Listing} {e : ListEvent}
    (hread : listing.Reads t e listing') : handled [e] = [] := by
  cases hread <;> rfl

theorem Listing.Reads.inUse {t : JobTable} {listing listing' : Listing} {i : Fin maxJobs}
    (hread : listing.Reads t (.enter i) listing') : (t.jobs i).InUse := by
  cases hread with
  | enter hused => exact hused

theorem Listing.Reads.state_eq {t : JobTable} {listing listing' : Listing} {i : Fin maxJobs}
    {state : JobState} (hread : listing.Reads t (.switch i state) listing') :
    state = (t.jobs i).state := by
  cases hread with
  | switch => rfl

/-- The texts of the slots so far. -/
structure Lister.Inv (t : JobTable) (labels : List ListEvent) (k : Lister) : Prop where
  main : k.shell.main = .prompt
  table : k.shell.table = t.receiveAll (handled labels)
  texts : ∃ texts text, printed labels = texts.flatten ++ text ∧
    List.Forall₂ (t.Shows (handled labels)) ((List.finRange maxJobs).take k.listing.slot) texts ∧
    k.listing.Partial t (handled labels) text

theorem take_finRange_succ {n : Nat} (i : Fin n) :
    (List.finRange n).take (i + 1) = (List.finRange n).take i ++ [i] := by
  have hlt : (i : Nat) < (List.finRange n).length := by simp
  rw [List.take_succ_eq_append_getElem hlt]
  simp

theorem Listed.inv {s : Shell} (htidy : s.table.Tidy) (hstated : s.table.Stated)
    (hmain : s.main = .prompt) {labels : List ListEvent} {k : Lister} (hlisted : Listed s labels k) :
    k.Inv s.table labels := by
  induction hlisted with
  | start hinit =>
    subst hinit
    exact ⟨hmain, rfl, [], [], rfl, .nil, rfl⟩
  | @step labels k k' e hrun hstep ih =>
    obtain ⟨hprompt, htable, texts, text, hprinted, hshows, hpartial⟩ := ih
    cases hstep with
    | @shell e s' hstep hcommand =>
      obtain ⟨hprompt', htable'⟩ := hstep.of_prompt hprompt hcommand
      refine ⟨hprompt', ?_, texts, text, ?_, ?_, ?_⟩
      · rw [htable', htable, handled_append, JobTable.receiveAll, JobTable.receiveAll,
          JobTable.receiveAll, List.foldl_append]
        rfl
      · rw [printed_snoc, hprinted]
        exact List.append_nil _
      · rw [handled_append]
        exact hshows.imp fun i text hshows ↦ hshows.append _
      · rw [handled_append]
        exact hpartial.append _
    | @read e listing hoff hread =>
      have hhandled : handled (labels ++ [e]) = handled labels := by
        rw [handled_append, hread.handled, List.append_nil]
      rw [htable] at hread
      refine ⟨hprompt, by rw [hhandled]; exact htable, ?_⟩
      rw [hhandled, printed_snoc, hprinted]
      rcases hread.slot htidy hstated hpartial with
        ⟨hslot, hpartial'⟩ | ⟨i, hslot, hslot', hnext, hpartial'⟩
      · exact ⟨texts, text ++ e.text, List.append_assoc _ _ _, by rw [hslot]; exact hshows, hpartial'⟩
      · refine ⟨texts ++ [text ++ e.text], [], by simp, ?_, hpartial'⟩
        rw [hslot', take_finRange_succ]
        rw [hslot] at hshows
        exact List.rel_append hshows (.cons hnext .nil)

/-! ### The states of the jobs -/

namespace JobTable.Stated

variable {t : JobTable}

theorem start : JobTable.start.Stated := by
  intro i hused
  exact absurd hused not_inUse_clearjob

/-- A slot gets a job with a state, or a free slot stays without one. -/
theorem update (h : t.Stated) {i : Fin maxJobs} {job : Job} {nextjid : Int}
    (hjob : job.InUse → job.state ≠ .undef) :
    JobTable.Stated ⟨Function.update t.jobs i job, nextjid⟩ := by
  unfold Stated
  rw [Function.forall_update_iff t.jobs fun _ job ↦ job.InUse → job.state ≠ .undef]
  exact ⟨hjob, fun j _ ↦ h j⟩

theorem setState (h : t.Stated) (i : Fin maxJobs) {state : JobState} (hstate : state ≠ .undef) :
    (t.setState i state).Stated := h.update fun _ ↦ hstate

theorem addjob (h : t.Stated) {pid : Int} (hpid : 1 ≤ pid) {state : JobState}
    (hstate : state ≠ .undef) (cmdline : String) : (t.addjob pid state cmdline).2.Stated := by
  rcases addjob_cases t state cmdline hpid with ⟨i, -, hadd⟩ | ⟨-, hadd⟩
  · rw [hadd]
    exact h.update fun _ ↦ hstate
  · rwa [hadd]

theorem deletejob (h : t.Stated) (pid : Int) : (t.deletejob pid).2.Stated := by
  rcases deletejob_cases t pid with ⟨i, -, -, hdelete⟩ | ⟨-, hdelete⟩
  · rw [hdelete]
    exact h.update fun hused ↦ absurd hused not_inUse_clearjob
  · rwa [hdelete]

end JobTable.Stated

theorem Shell.Step.stated {s s' : Shell} {e : Event} (hstep : s.Step e s') (htracked : s.Tracked)
    (h : s.table.Stated) : s'.table.Stated := by
  have hstate : ∀ bg : Bool, (if bg then JobState.bg else .fg) ≠ .undef := by decide
  cases hstep with
  | delete hhandler => exact h.deletejob _
  | stop hhandler hjob => exact h.setState _ (by simp)
  | add hoff hmain => exact h.addjob (htracked.newborn _ _ _ hmain).1 (hstate _) _
  | mark hoff hmain => exact h.setState _ (hstate _)
  | _ => exact h

theorem Shell.Reached.stated {events : List Event} {s : Shell} (h : Shell.Reached events s) :
    s.table.Stated := by
  have hinv := Run.invariant (P := fun s : Shell ↦ s.Tracked ∧ s.table.Stated)
    (by rintro _ rfl; exact ⟨Shell.Tracked.start, JobTable.Stated.start⟩)
    (fun s e s' hinv hstep ↦ ⟨hstep.tracked hinv.1, hstep.stated hinv.1 hinv.2⟩) h
  exact hinv.2

/-! ### What `jobs` prints -/

/-- Whatever the handler does in the meantime, `jobs` prints one text for each slot, in order: nothing
for a free slot, and the line of each job that is not deleted meanwhile. -/
theorem jobs_lists {events : List Event} {s : Shell} (h : Shell.Reached events s)
    (hmain : s.main = .prompt) {labels : List ListEvent} {k : Lister} (hlisted : Listed s labels k)
    (hreturned : k.listing = .returned) :
    ∃ texts, printed labels = texts.flatten ∧
      List.Forall₂ (s.table.Shows (handled labels)) (List.finRange maxJobs) texts := by
  obtain ⟨-, -, texts, text, hprinted, hshows, hpartial⟩ :=
    hlisted.inv h.tracked.tidy h.stated hmain
  rw [hreturned] at hshows hpartial
  obtain rfl : text = [] := hpartial
  refine ⟨texts, by rw [hprinted, List.append_nil], ?_⟩
  rwa [Listing.slot, List.take_of_length_le (by simp)] at hshows

/-- From every slot on, `listjobs` gets through when the handler does not run. -/
theorem Lister.finishes {s : Shell} (hoff : s.handler = .off) (hstated : s.table.Stated)
    (left slot : Nat) (hleft : slot + left = maxJobs) :
    ∃ labels, Steps Lister.Step ⟨s, .test slot⟩ labels ⟨s, .returned⟩ ∧ handled labels = [] := by
  induction left generalizing slot with
  | zero =>
    obtain rfl : slot = maxJobs := hleft
    exact ⟨_, .cons (.read hoff .finish) .nil, rfl⟩
  | succ left ih =>
    obtain ⟨labels, hsteps, hhandled⟩ := ih (slot + 1) (by omega)
    obtain ⟨i, rfl⟩ : ∃ i : Fin maxJobs, slot = i := ⟨⟨slot, by omega⟩, rfl⟩
    by_cases hused : (s.table.jobs i).InUse
    · have hswitch : Listing.Reads s.table (.state i) (.switch i (s.table.jobs i).state)
          (.cmdline i) := by
        have hread := @Listing.Reads.switch s.table i
        rwa [if_neg (hstated i hused)] at hread
      refine ⟨_, .cons (.read hoff (.enter hused)) <| .cons (.read hoff .jid) <|
        .cons (.read hoff .pidLast) <| .cons (.read hoff hswitch) <|
        .cons (.read hoff .cmdline) hsteps, ?_⟩
      exact hhandled
    · exact ⟨_, .cons (.read hoff (.pass hused)) hsteps, hhandled⟩

/-- Nothing has been reported, and the table is printed as it is. -/
theorem JobTable.Shows.eq {t : JobTable} {i : Fin maxJobs} {text : List UInt8}
    (h : t.Shows [] i text) : text = if (t.jobs i).InUse then jobLine (t.jobs i) else [] := by
  split_ifs with hused
  · obtain ⟨state, hbeen, htext⟩ := h.kept hused List.not_mem_nil
    rcases hbeen with rfl | ⟨-, hstopped⟩
    · exact htext
    · exact absurd hstopped List.not_mem_nil
  · exact h.free hused

theorem jobs_lists_one : ∃ s labels, Shell.Reached [.command (.run true "a &\n"), .block, .fork 100,
      .add, .unblock] s ∧ Listed s labels ⟨s, .returned⟩ ∧
    printed labels = ascii "[1] (100) Running a &\n" := by
  have hsteps : ∃ s, Steps Shell.Step Shell.start [.command (.run true "a &\n"), .block, .fork 100,
      .add, .unblock] s ∧ s.handler = .off ∧ s.main = .prompt ∧
      s.table.jobs = Function.update JobTable.start.jobs 0 ⟨100, 1, .bg, "a &\n"⟩ := by
    refine ⟨_, .cons (.command _ rfl rfl) <| .cons (.block rfl rfl) <|
      .cons (.fork rfl rfl (by decide) rfl) <| .cons (.add rfl rfl) <|
      .cons (.unblock rfl rfl) .nil, rfl, rfl, rfl⟩
  obtain ⟨s, hsteps, hoff, hmain, hjobs⟩ := hsteps
  have hreached : Shell.Reached _ s := hsteps.run rfl
  obtain ⟨labels, hlist, hhandled⟩ := Lister.finishes hoff hreached.stated maxJobs 0 rfl
  have hlisted : Listed s labels ⟨s, .returned⟩ := hlist.run rfl
  obtain ⟨texts, hprinted, hshows⟩ := jobs_lists hreached hmain hlisted rfl
  refine ⟨s, labels, hreached, hlisted, ?_⟩
  rw [hhandled] at hshows
  have htexts : texts = (List.finRange maxJobs).map fun i ↦
      if (s.table.jobs i).InUse then jobLine (s.table.jobs i) else [] := by
    have hmap := List.forall₂_map_left_iff.mpr (hshows.imp fun i text h ↦ h.eq.symm)
    exact (List.forall₂_eq_eq_eq ▸ hmap).symm
  rw [hprinted, htexts, hjobs]
  decide

/-- The `switch` takes its default branch for a job that the handler deletes after the test of its
slot, and for no other. -/
theorem jobs_internal_error {events : List Event} {s : Shell} (h : Shell.Reached events s)
    (hmain : s.main = .prompt) {before between : List ListEvent} {i : Fin maxJobs}
    {state : JobState} {k : Lister}
    (hlisted : Listed s (before ++ .enter i :: (between ++ [.switch i state])) k) :
    state = .undef ↔ .shell (.delete (s.table.jobs i).pid) ∈ between := by
  have htidy := h.tracked.tidy
  obtain ⟨l, l', hlist, henter⟩ := Run.before hlisted
  have hlisted' : Listed s ((before ++ .enter i :: between) ++ .switch i state :: []) k := by
    simpa using hlisted
  obtain ⟨m, m', hlist', hswitch⟩ := Run.before hlisted'
  have htable := (Listed.inv htidy h.stated hmain hlist).table
  have htable' := (Listed.inv htidy h.stated hmain hlist').table
  -- the job has not been deleted before the test
  obtain ⟨hused, hkept⟩ : (s.table.jobs i).InUse ∧ s.table.Kept (handled before) i := by
    cases henter with
    | read hoff hread =>
      have hused := hread.inUse
      rw [htable] at hused
      have hused' : (s.table.jobs i).InUse := by
        by_contra hfree
        rw [JobTable.receiveAll_jobs_free htidy hfree] at hused
        exact hfree hused
      refine ⟨hused', fun hgone ↦ ?_⟩
      rw [JobTable.receiveAll_jobs htidy hused', if_pos hgone] at hused
      exact hused rfl
  have hstate : state =
      ((s.table.receiveAll (handled (before ++ .enter i :: between))).jobs i).state := by
    cases hswitch with
    | read hoff hread => rw [hread.state_eq, htable']
  rw [hstate, JobTable.receiveAll_undef_iff htidy h.stated hused, JobTable.Kept, not_not,
    handled_append, List.mem_append, or_iff_right hkept, gone_mem_handled, List.mem_cons]
  simp

theorem jobs_internal_error_deleted : ∃ s k,
    Shell.Reached [.command (.run true "a &\n"), .block, .fork 100, .add, .unblock] s ∧
    Listed s [.enter 0, .shell (.change 100), .shell .deliver, .shell (.reap 100),
      .shell (.delete 100), .shell .done, .print [], .print (numbersText 0 0),
      .switch 0 .undef] k ∧
    .shell (.delete (s.table.jobs 0).pid) ∈ [ListEvent.shell (.change 100), .shell .deliver,
      .shell (.reap 100), .shell (.delete 100), .shell .done, .print [],
      .print (numbersText 0 0)] := by
  have hsteps : ∃ s k, Steps Shell.Step Shell.start [.command (.run true "a &\n"), .block, .fork 100,
      .add, .unblock] s ∧ s.main = .prompt ∧
      Steps Lister.Step ⟨s, .test 0⟩ [.enter 0, .shell (.change 100), .shell .deliver,
        .shell (.reap 100), .shell (.delete 100), .shell .done, .print [], .print (numbersText 0 0),
        .switch 0 .undef] k := by
    refine ⟨_, _, .cons (.command _ rfl rfl) <| .cons (.block rfl rfl) <|
      .cons (.fork rfl rfl (by decide) rfl) <| .cons (.add rfl rfl) <|
      .cons (.unblock rfl rfl) .nil, rfl,
      .cons (.read rfl (@Listing.Reads.enter _ 0 (by decide))) <|
      .cons (.shell (.change rfl .exit) (by simp)) <|
      .cons (.shell (.deliver rfl rfl rfl (by simp)) (by simp)) <|
      .cons (.shell (.reap rfl rfl trivial) (by simp)) <| .cons (.shell (.delete rfl) (by simp)) <|
      .cons (.shell (.done rfl ?_) (by simp)) <| .cons (.read rfl .jid) <|
      .cons (.read rfl .pidLast) <| .cons (.read rfl .switch) .nil⟩
    intro pid c hc
    by_cases hpid : pid = 100 <;> simp [hpid, Shell.start] at hc
  obtain ⟨s, k, hsteps, hmain, hlist⟩ := hsteps
  have hreached : Shell.Reached _ s := hsteps.run rfl
  have hlisted : Listed s ([] ++ .enter 0 :: ([.shell (.change 100), .shell .deliver,
      .shell (.reap 100), .shell (.delete 100), .shell .done, .print [],
      .print (numbersText 0 0)] ++ [.switch 0 .undef])) k := hlist.run rfl
  exact ⟨s, k, hreached, hlisted, (jobs_internal_error hreached hmain hlisted).mp rfl⟩

end SystemProgramming.ShellLab
