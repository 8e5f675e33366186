import Mathlib.Data.List.FinRange
import SystemProgramming.Library.MachineWord
import SystemProgramming.Library.Runs
import SystemProgramming.Library.Slots

/-!
# The job table of `tsh.c`

The table has sixteen slots. A slot whose `pid` is zero is free, and `clearjob` also clears its job
number, its state and its command line. The functions scan the slots in order. Numbers of jobs come
from `nextjid`, an `int` that `addjob` carries back to one when it passes `MAXJOBS`, and that
`deletejob` sets to one more than the largest number in the table.

Numbers are not always unique: `addjob` does not look whether the table holds the number that it is
about to give. Right after `deletejob` it does not (`JobTable.deletejob_fresh`), but after `addjob`
it may. The numbers are unique as long as every call that fills a slot gives a fresh one, and no
longer (`jids_unique`).

An `int` that overflows wraps. What the functions print is left out.
-/

set_option autoImplicit false
set_option relaxedAutoImplicit false

namespace SystemProgramming.ShellLab

open Library

/-! ### The table and its functions -/

/-- The states of a job. -/
inductive JobState
  | undef
  | fg
  | bg
  | st
  deriving DecidableEq, Repr

/-- `struct job_t`. -/
structure Job where
  pid : Int
  jid : Int
  state : JobState
  cmdline : String
  deriving DecidableEq, Repr

/-- A slot is in use when its pid is not zero. -/
def Job.InUse (job : Job) : Prop := job.pid ≠ 0

instance (job : Job) : Decidable job.InUse := inferInstanceAs (Decidable (_ ≠ _))

/-- `MAXJOBS`. -/
def maxJobs : Nat := 16

instance : NeZero maxJobs := ⟨by decide⟩

/-- The global variables `jobs` and `nextjid`. -/
structure JobTable where
  jobs : Fin maxJobs → Job
  nextjid : Int

/-- `clearjob`: what it leaves in the slot. -/
def clearjob : Job := ⟨0, 0, .undef, ""⟩

theorem not_inUse_clearjob : ¬ clearjob.InUse := by decide

namespace JobTable

/-- `initjobs`. -/
def initjobs (t : JobTable) : JobTable := { t with jobs := fun _ ↦ clearjob }

/-- The table that the shell starts with. -/
def start : JobTable := initjobs ⟨fun _ ↦ ⟨0, 0, .undef, ""⟩, 1⟩

/-- `maxjid`. -/
def maxjid (t : JobTable) : Int :=
  (List.finRange maxJobs).foldl (fun max i ↦ if max < (t.jobs i).jid then (t.jobs i).jid else max) 0

/-- The first free slot. -/
def freeSlot (t : JobTable) : Option (Fin maxJobs) := Fin.find? fun i ↦ (t.jobs i).pid = 0

/-- The first slot with this pid. -/
def slotOf (t : JobTable) (pid : Int) : Option (Fin maxJobs) :=
  Fin.find? fun i ↦ (t.jobs i).pid = pid

/-- `nextjid++` and the test that follows. -/
def advance (nextjid : Int) : Int :=
  if (maxJobs : Int) < intAdd nextjid 1 then 1 else intAdd nextjid 1

/-- `addjob`: what it returns, and the table. -/
def addjob (t : JobTable) (pid : Int) (state : JobState) (cmdline : String) : Int × JobTable :=
  if pid < 1 then (0, t)
  else match t.freeSlot with
    | some i => (1, ⟨Function.update t.jobs i ⟨pid, t.nextjid, state, cmdline⟩, advance t.nextjid⟩)
    | none => (0, t)

/-- `deletejob`: what it returns, and the table. -/
def deletejob (t : JobTable) (pid : Int) : Int × JobTable :=
  if pid < 1 then (0, t)
  else match t.slotOf pid with
    | some i =>
      let jobs := Function.update t.jobs i clearjob
      (1, ⟨jobs, intAdd (maxjid ⟨jobs, t.nextjid⟩) 1⟩)
    | none => (0, t)

/-- `fgpid`. -/
def fgpid (t : JobTable) : Int :=
  match Fin.find? fun i ↦ (t.jobs i).state = .fg with
  | some i => (t.jobs i).pid
  | none => 0

/-- `getjobpid`. -/
def getjobpid (t : JobTable) (pid : Int) : Option (Fin maxJobs) :=
  if pid < 1 then none else t.slotOf pid

/-- `getjobjid`. -/
def getjobjid (t : JobTable) (jid : Int) : Option (Fin maxJobs) :=
  if jid < 1 then none else Fin.find? fun i ↦ (t.jobs i).jid = jid

/-- `pid2jid`. -/
def pid2jid (t : JobTable) (pid : Int) : Int :=
  if pid < 1 then 0
  else match t.slotOf pid with
    | some i => (t.jobs i).jid
    | none => 0

/-- `job->state = state`. -/
def setState (t : JobTable) (i : Fin maxJobs) (state : JobState) : JobTable :=
  { t with jobs := Function.update t.jobs i { t.jobs i with state := state } }

/-! ### What the functions do -/

variable {t : JobTable} {pid jid : Int} {state : JobState} {cmdline : String} {i j : Fin maxJobs}

theorem freeSlot_eq_some (h : t.freeSlot = some i) : (t.jobs i).pid = 0 := by
  simpa using Fin.eq_true_of_find?_eq_some h

theorem freeSlot_eq_none (h : t.freeSlot = none) (i : Fin maxJobs) : (t.jobs i).pid ≠ 0 := by
  simpa using Fin.eq_false_of_find?_eq_none h i

theorem slotOf_eq_some (h : t.slotOf pid = some i) : (t.jobs i).pid = pid := by
  simpa using Fin.eq_true_of_find?_eq_some h

theorem slotOf_eq_none (h : t.slotOf pid = none) (i : Fin maxJobs) : (t.jobs i).pid ≠ pid := by
  simpa using Fin.eq_false_of_find?_eq_none h i

/-- `addjob` fills a free slot, or the table is full and stays. -/
theorem addjob_cases (t : JobTable) (state : JobState) (cmdline : String) (hpid : 1 ≤ pid) :
    (∃ i, (t.jobs i).pid = 0 ∧ t.addjob pid state cmdline =
      (1, ⟨Function.update t.jobs i ⟨pid, t.nextjid, state, cmdline⟩, advance t.nextjid⟩)) ∨
    ((∀ i, (t.jobs i).pid ≠ 0) ∧ t.addjob pid state cmdline = (0, t)) := by
  have hlow : ¬ pid < 1 := by omega
  cases hfree : t.freeSlot with
  | some i => exact Or.inl ⟨i, freeSlot_eq_some hfree, by rw [addjob, if_neg hlow, hfree]⟩
  | none => exact Or.inr ⟨freeSlot_eq_none hfree, by rw [addjob, if_neg hlow, hfree]⟩

/-- `addjob` fills the first free slot. -/
theorem addjob_first (state : JobState) (cmdline : String) (hpid : 1 ≤ pid)
    (hfree : (t.jobs i).pid = 0) (hbefore : ∀ j < i, (t.jobs j).pid ≠ 0) :
    t.addjob pid state cmdline =
      (1, ⟨Function.update t.jobs i ⟨pid, t.nextjid, state, cmdline⟩, advance t.nextjid⟩) := by
  have hslot : t.freeSlot = some i :=
    Fin.find?_eq_some_iff.mpr ⟨by simpa using hfree, fun j hj ↦ by simpa using hbefore j hj⟩
  rw [addjob, if_neg (by omega), hslot]

/-- `deletejob` clears the first slot with the pid, or there is none and the table stays. -/
theorem deletejob_cases (t : JobTable) (pid : Int) :
    (∃ i, 1 ≤ pid ∧ (t.jobs i).pid = pid ∧ t.deletejob pid =
      (1, ⟨Function.update t.jobs i clearjob,
        intAdd (maxjid ⟨Function.update t.jobs i clearjob, t.nextjid⟩) 1⟩)) ∨
    ((pid < 1 ∨ ∀ i, (t.jobs i).pid ≠ pid) ∧ t.deletejob pid = (0, t)) := by
  by_cases hlow : pid < 1
  · exact Or.inr ⟨Or.inl hlow, by rw [deletejob, if_pos hlow]⟩
  · cases hslot : t.slotOf pid with
    | some i =>
      exact Or.inl ⟨i, by omega, slotOf_eq_some hslot, by rw [deletejob, if_neg hlow, hslot]⟩
    | none => exact Or.inr ⟨Or.inr (slotOf_eq_none hslot), by rw [deletejob, if_neg hlow, hslot]⟩

/-- `fgpid` returns the pid in the first foreground slot, or zero where there is none. -/
theorem fgpid_cases (t : JobTable) :
    (∃ i, (t.jobs i).state = .fg ∧ (∀ j < i, (t.jobs j).state ≠ .fg) ∧ t.fgpid = (t.jobs i).pid) ∨
    ((∀ i, (t.jobs i).state ≠ .fg) ∧ t.fgpid = 0) := by
  unfold fgpid
  split
  · next i hi =>
    obtain ⟨hfg, hfirst⟩ := Fin.find?_eq_some_iff.mp hi
    exact Or.inl ⟨i, by simpa using hfg, fun j hj ↦ by simpa using hfirst j hj, rfl⟩
  · next hnone =>
    exact Or.inr ⟨fun i ↦ by simpa using Fin.eq_false_of_find?_eq_none hnone i, rfl⟩

@[simp] theorem setState_pid (t : JobTable) (i j : Fin maxJobs) (state : JobState) :
    ((t.setState i state).jobs j).pid = (t.jobs j).pid := by
  by_cases hji : j = i
  · subst hji
    simp [setState]
  · simp [setState, hji]

@[simp] theorem setState_jid (t : JobTable) (i j : Fin maxJobs) (state : JobState) :
    ((t.setState i state).jobs j).jid = (t.jobs j).jid := by
  by_cases hji : j = i
  · subst hji
    simp [setState]
  · simp [setState, hji]

theorem setState_state (t : JobTable) (i j : Fin maxJobs) (state : JobState) :
    ((t.setState i state).jobs j).state = if j = i then state else (t.jobs j).state := by
  by_cases hji : j = i
  · subst hji
    simp [setState]
  · simp [setState, hji]

/-- The loop of `maxjid` ends at a bound of what it has met, which is one of these or its start. -/
theorem foldl_maxjid (t : JobTable) (slots : List (Fin maxJobs)) (max : Int) :
    let result := slots.foldl (fun max i ↦ if max < (t.jobs i).jid then (t.jobs i).jid else max) max
    max ≤ result ∧ (∀ i ∈ slots, (t.jobs i).jid ≤ result) ∧
      (result = max ∨ ∃ i ∈ slots, result = (t.jobs i).jid) := by
  induction slots generalizing max with
  | nil => simp
  | cons i slots ih =>
    obtain ⟨hmax, hslots, hresult⟩ := ih (if max < (t.jobs i).jid then (t.jobs i).jid else max)
    simp only [List.foldl_cons, List.forall_mem_cons, List.exists_mem_cons_iff]
    refine ⟨?_, ⟨?_, hslots⟩, ?_⟩
    · split_ifs at hmax ⊢ <;> omega
    · split_ifs at hmax ⊢ <;> omega
    · rcases hresult with hresult | hresult
      · split_ifs at hresult ⊢
        · exact Or.inr (Or.inl hresult)
        · exact Or.inl hresult
      · exact Or.inr (Or.inr hresult)

theorem maxjid_spec (t : JobTable) : 0 ≤ t.maxjid ∧ (∀ i, (t.jobs i).jid ≤ t.maxjid) ∧
    (t.maxjid = 0 ∨ ∃ i, t.maxjid = (t.jobs i).jid) := by
  obtain ⟨hzero, hslots, hresult⟩ := t.foldl_maxjid (List.finRange maxJobs) 0
  refine ⟨hzero, fun i ↦ hslots i (List.mem_finRange i), hresult.imp_right ?_⟩
  rintro ⟨i, -, hi⟩
  exact ⟨i, hi⟩

/-! ### Numbers of jobs -/

/-- What holds of the table whatever the numbers are: the pids in it are different and positive, and
the free slots have no number. -/
structure Tidy (t : JobTable) : Prop where
  pos : ∀ i, (t.jobs i).InUse → 1 ≤ (t.jobs i).pid
  pids : DistinctKeys Job.InUse Job.pid t.jobs
  cleared : ∀ i, ¬ (t.jobs i).InUse → (t.jobs i).jid = 0

/-- The numbers of the jobs in the table are at least one and pairwise different, and each leads
back to its job. -/
structure UniqueJids (t : JobTable) : Prop where
  pos : ∀ i, (t.jobs i).InUse → 1 ≤ (t.jobs i).jid
  jids : DistinctKeys Job.InUse Job.jid t.jobs
  found : ∀ i, (t.jobs i).InUse → t.getjobjid (t.pid2jid (t.jobs i).pid) = some i

/-- The number that `addjob` would give is positive and not that of a job in the table. -/
def Fresh (t : JobTable) : Prop :=
  1 ≤ t.nextjid ∧ ∀ i, (t.jobs i).InUse → (t.jobs i).jid ≠ t.nextjid

namespace Tidy

theorem start : start.Tidy := ⟨by decide, .of_unused (by decide), by decide⟩

theorem addjob (h : t.Tidy) (hpid : 1 ≤ pid) (hnew : ∀ i, (t.jobs i).pid ≠ pid) :
    (t.addjob pid state cmdline).2.Tidy := by
  rcases addjob_cases t state cmdline hpid with
    ⟨i, hfree, hadd⟩ | ⟨-, hadd⟩
  · rw [hadd]
    refine ⟨?_, h.pids.fill fun j _ _ ↦ hnew j, ?_⟩
    · rw [Function.forall_update_iff t.jobs fun _ job ↦ job.InUse → 1 ≤ job.pid]
      exact ⟨fun _ ↦ hpid, fun j _ ↦ h.pos j⟩
    · rw [Function.forall_update_iff t.jobs fun _ job ↦ ¬ job.InUse → job.jid = 0]
      exact ⟨fun hunused ↦ absurd (show pid ≠ 0 by omega) hunused, fun j _ ↦ h.cleared j⟩
  · rwa [hadd]

theorem deletejob (h : t.Tidy) : (t.deletejob pid).2.Tidy := by
  rcases deletejob_cases t pid with ⟨i, -, -, hdelete⟩ | ⟨-, hdelete⟩
  · rw [hdelete]
    refine ⟨?_, h.pids.clear not_inUse_clearjob, ?_⟩
    · rw [Function.forall_update_iff t.jobs fun _ job ↦ job.InUse → 1 ≤ job.pid]
      exact ⟨fun hused ↦ absurd hused not_inUse_clearjob, fun j _ ↦ h.pos j⟩
    · rw [Function.forall_update_iff t.jobs fun _ job ↦ ¬ job.InUse → job.jid = 0]
      exact ⟨fun _ ↦ rfl, fun j _ ↦ h.cleared j⟩
  · rwa [hdelete]

theorem setState (h : t.Tidy) : (t.setState i state).Tidy := by
  refine ⟨fun j hj ↦ ?_, fun j k hj hk hjk ↦ ?_, fun j hj ↦ ?_⟩
  · rw [setState_pid]
    exact h.pos j (by simpa [Job.InUse] using hj)
  · rw [setState_pid, setState_pid] at hjk
    exact h.pids j k (by simpa [Job.InUse] using hj) (by simpa [Job.InUse] using hk) hjk
  · rw [setState_jid]
    exact h.cleared j (by simpa [Job.InUse] using hj)

/-- In a tidy table, different positive numbers lead back to their jobs. -/
theorem uniqueJids (h : t.Tidy) (hpos : ∀ i, (t.jobs i).InUse → 1 ≤ (t.jobs i).jid)
    (hjids : DistinctKeys Job.InUse Job.jid t.jobs) : t.UniqueJids := by
  refine ⟨hpos, hjids, fun i hi ↦ ?_⟩
  have hpid := h.pos i hi
  have hjid := hpos i hi
  have hslot : t.slotOf (t.jobs i).pid = some i :=
    h.pids.find?_eq hi fun j hj heq ↦ hj (ne_of_eq_of_ne heq hi)
  rw [pid2jid, if_neg (by omega), hslot]
  dsimp only
  rw [getjobjid, if_neg (by omega)]
  refine hjids.find?_eq hi fun j hj heq ↦ ?_
  have hzero := h.cleared j hj
  omega

end Tidy

theorem UniqueJids.start : start.UniqueJids :=
  Tidy.start.uniqueJids (by decide) (.of_unused (by decide))

/-- A job is added: the numbers stay unique exactly when its own is fresh, if there is room. -/
theorem uniqueJids_addjob (ht : t.Tidy) (hu : t.UniqueJids) (hpid : 1 ≤ pid)
    (hnew : ∀ i, (t.jobs i).pid ≠ pid) :
    (t.addjob pid state cmdline).2.UniqueJids ↔ ((∃ i, ¬ (t.jobs i).InUse) → t.Fresh) := by
  have htidy : (t.addjob pid state cmdline).2.Tidy := ht.addjob hpid hnew
  rcases addjob_cases t state cmdline hpid with
    ⟨i, hfree, hadd⟩ | ⟨hfull, hadd⟩
  · rw [hadd] at htidy ⊢
    constructor
    · intro hunique _
      have hused : Job.InUse ⟨pid, t.nextjid, state, cmdline⟩ := show pid ≠ 0 by omega
      have hjid := hunique.pos i (by simpa using hused)
      refine ⟨by simpa using hjid, fun j hj ↦ ?_⟩
      exact hunique.jids.new_of_fill hused (fun hji ↦ absurd hfree (hji ▸ hj)) hj
    · intro hfresh
      obtain ⟨hpos, hjids⟩ := hfresh ⟨i, fun hused ↦ hused hfree⟩
      refine htidy.uniqueJids ?_ (hu.jids.fill fun j _ hj ↦ hjids j hj)
      rw [Function.forall_update_iff t.jobs fun _ job ↦ job.InUse → 1 ≤ job.jid]
      exact ⟨fun _ ↦ hpos, fun j _ ↦ hu.pos j⟩
  · rw [hadd]
    refine ⟨fun _ ↦ ?_, fun _ ↦ hu⟩
    rintro ⟨i, hfree⟩
    exact absurd (hfull i) hfree

theorem uniqueJids_deletejob (ht : t.Tidy) (hu : t.UniqueJids) :
    (t.deletejob pid).2.UniqueJids := by
  have htidy : (t.deletejob pid).2.Tidy := ht.deletejob
  rcases deletejob_cases t pid with ⟨i, -, -, hdelete⟩ | ⟨-, hdelete⟩
  · rw [hdelete] at htidy ⊢
    refine htidy.uniqueJids ?_ (hu.jids.clear not_inUse_clearjob)
    rw [Function.forall_update_iff t.jobs fun _ job ↦ job.InUse → 1 ≤ job.jid]
    exact ⟨fun hused ↦ absurd hused not_inUse_clearjob, fun j _ ↦ hu.pos j⟩
  · rwa [hdelete]

/-- After a job has been deleted the next number is fresh, as long as it does not overflow. -/
theorem deletejob_fresh (hdelete : (t.deletejob pid).1 = 1)
    (hbound : ∀ i, (t.jobs i).jid < 2 ^ 31 - 1) : (t.deletejob pid).2.Fresh := by
  rcases deletejob_cases t pid with ⟨i, -, -, hcase⟩ | ⟨-, hcase⟩
  · rw [hcase]
    obtain ⟨hzero, hle, hresult⟩ := maxjid_spec ⟨Function.update t.jobs i clearjob, t.nextjid⟩
    have hall : ∀ j, (Function.update t.jobs i clearjob j).jid < 2 ^ 31 - 1 := by
      rw [Function.forall_update_iff t.jobs fun _ job ↦ job.jid < 2 ^ 31 - 1]
      exact ⟨by decide, fun j _ ↦ hbound j⟩
    have hlt : maxjid ⟨Function.update t.jobs i clearjob, t.nextjid⟩ < 2 ^ 31 - 1 := by
      rcases hresult with hresult | ⟨j, hj⟩
      · omega
      · exact hj ▸ hall j
    rw [intAdd_of_lt (by omega) (by omega)]
    refine ⟨by dsimp only; omega, fun j _ ↦ ?_⟩
    have hj := hle j
    dsimp only at hj ⊢
    omega
  · rw [hcase] at hdelete
    exact absurd hdelete (by simp)

end JobTable

/-! ### Sequences of calls -/

/-- A call that changes the table. -/
inductive TableCall
  | addjob (pid : Int) (state : JobState) (cmdline : String)
  | deletejob (pid : Int)
  deriving DecidableEq, Repr

namespace TableCall

/-- The table after a call. -/
def apply (t : JobTable) : TableCall → JobTable
  | addjob pid state cmdline => (t.addjob pid state cmdline).2
  | deletejob pid => (t.deletejob pid).2

/-- A job is added with a positive pid that is not in the table. -/
def Admitted (t : JobTable) : TableCall → Prop
  | addjob pid _ _ => 1 ≤ pid ∧ ∀ i, (t.jobs i).pid ≠ pid
  | deletejob _ => True

instance (t : JobTable) : (c : TableCall) → Decidable (c.Admitted t)
  | addjob _ _ _ => inferInstanceAs (Decidable (_ ∧ _))
  | deletejob _ => inferInstanceAs (Decidable True)

/-- If the call is to fill a slot, the number it gives is fresh. -/
def GivesFresh (t : JobTable) : TableCall → Prop
  | addjob _ _ _ => (∃ i, ¬ (t.jobs i).InUse) → t.Fresh
  | deletejob _ => True

instance (t : JobTable) : (c : TableCall) → Decidable (c.GivesFresh t)
  | addjob _ _ _ => inferInstanceAs (Decidable (_ → _ ∧ _))
  | deletejob _ => inferInstanceAs (Decidable True)

end TableCall

/-- The step of a call. -/
def JobTable.Call (t : JobTable) (c : TableCall) (t' : JobTable) : Prop :=
  c.Admitted t ∧ c.apply t = t'

/-- The table after a call that satisfies a condition. -/
def TableCall.next (P : JobTable → TableCall → Prop) [∀ t c, Decidable (P t c)] (t : JobTable)
    (c : TableCall) : Option JobTable :=
  if c.Admitted t ∧ P t c then some (c.apply t) else none

theorem TableCall.run_of_next {P : JobTable → TableCall → Prop} [∀ t c, Decidable (P t c)]
    {calls : List TableCall} {t : JobTable}
    (h : calls.foldlM (TableCall.next P) JobTable.start = some t) :
    Run (· = JobTable.start) (fun t c t' ↦ t.Call c t' ∧ P t c) calls t := by
  refine (Steps.of_foldlM (fun t c t' hnext ↦ ?_) h).run rfl
  rw [TableCall.next] at hnext
  split_ifs at hnext with hcall
  exact ⟨⟨hcall.1, Option.some.inj hnext⟩, hcall.2⟩

theorem JobTable.Call.tidy {t t' : JobTable} {c : TableCall} (h : t.Tidy) (hcall : t.Call c t') :
    t'.Tidy := by
  obtain ⟨hadmitted, rfl⟩ := hcall
  cases c with
  | addjob pid state cmdline => exact h.addjob hadmitted.1 hadmitted.2
  | deletejob pid => exact h.deletejob

/-- A call keeps the numbers unique exactly when it gives a fresh one, if it gives one. -/
theorem JobTable.Call.uniqueJids_iff {t t' : JobTable} {c : TableCall} (h : t.Tidy)
    (hu : t.UniqueJids) (hcall : t.Call c t') : t'.UniqueJids ↔ c.GivesFresh t := by
  obtain ⟨hadmitted, rfl⟩ := hcall
  cases c with
  | addjob pid state cmdline =>
    exact JobTable.uniqueJids_addjob h hu hadmitted.1 hadmitted.2
  | deletejob pid => exact iff_of_true (JobTable.uniqueJids_deletejob h hu) trivial

/-- The numbers of the jobs are unique all along a sequence of calls exactly when each call that
fills a slot gives a fresh one. -/
theorem jids_unique (calls : List TableCall) (t : JobTable) :
    (Run (· = JobTable.start) (fun t c t' ↦ t.Call c t' ∧ c.GivesFresh t) calls t →
      t.UniqueJids) ∧
    (Run (· = JobTable.start) (fun t c t' ↦ t.Call c t' ∧ t'.UniqueJids) calls t ↔
      Run (· = JobTable.start) (fun t c t' ↦ t.Call c t' ∧ c.GivesFresh t) calls t) := by
  have hstart : ∀ s, s = JobTable.start → s.Tidy ∧ s.UniqueJids := by
    rintro _ rfl
    exact ⟨JobTable.Tidy.start, JobTable.UniqueJids.start⟩
  refine ⟨fun hrun ↦ ?_, fun hrun ↦ ?_, fun hrun ↦ ?_⟩
  · refine (Run.invariant (P := fun t ↦ t.Tidy ∧ t.UniqueJids) hstart ?_ hrun).2
    rintro t c t' ⟨htidy, hu⟩ ⟨hcall, hfresh⟩
    exact ⟨hcall.tidy htidy, (hcall.uniqueJids_iff htidy hu).mpr hfresh⟩
  · refine hrun.mono_of_invariant (P := fun t ↦ t.Tidy ∧ t.UniqueJids) hstart ?_
    rintro t c t' ⟨htidy, hu⟩ ⟨hcall, hu'⟩
    exact ⟨⟨hcall, (hcall.uniqueJids_iff htidy hu).mp hu'⟩, hcall.tidy htidy, hu'⟩
  · refine hrun.mono_of_invariant (P := fun t ↦ t.Tidy ∧ t.UniqueJids) hstart ?_
    rintro t c t' ⟨htidy, hu⟩ ⟨hcall, hfresh⟩
    have hu' := (hcall.uniqueJids_iff htidy hu).mpr hfresh
    exact ⟨⟨hcall, hu'⟩, hcall.tidy htidy, hu'⟩

theorem jids_unique_deleted :
    ∃ t, Run (· = JobTable.start) (fun t c t' ↦ t.Call c t' ∧ c.GivesFresh t)
      [.addjob 100 .bg "a", .addjob 101 .bg "b", .deletejob 100, .addjob 102 .fg "c"] t ∧
      t.UniqueJids := by
  obtain ⟨t, hreplay⟩ : ∃ t, [TableCall.addjob 100 .bg "a", .addjob 101 .bg "b", .deletejob 100,
      .addjob 102 .fg "c"].foldlM (TableCall.next fun t c ↦ c.GivesFresh t) JobTable.start =
        some t := ⟨_, rfl⟩
  exact ⟨t, TableCall.run_of_next hreplay, (jids_unique _ t).1 (TableCall.run_of_next hreplay)⟩

set_option maxRecDepth 4000 in
/-- Fifteen jobs, the last but one of which is deleted, and two more: the first job and the last
have the number one. -/
theorem jids_unique_wrapped : ∃ t, Run (· = JobTable.start) JobTable.Call
    ((List.range 15).map (fun n ↦ .addjob (n + 1) .bg "") ++
      [.deletejob 14, .addjob 16 .bg "", .addjob 17 .bg ""]) t ∧
    (t.jobs 0).InUse ∧ (t.jobs 15).InUse ∧ (t.jobs 0).jid = 1 ∧ (t.jobs 15).jid = 1 ∧
      ¬ t.UniqueJids := by
  obtain ⟨t, hreplay, hfirst, hlast, hone, hone'⟩ : ∃ t,
      ((List.range 15).map (fun n ↦ TableCall.addjob (n + 1) .bg "") ++
        [TableCall.deletejob 14, .addjob 16 .bg "", .addjob 17 .bg ""]).foldlM
        (TableCall.next fun _ _ ↦ True) JobTable.start = some t ∧
      (t.jobs 0).InUse ∧ (t.jobs 15).InUse ∧ (t.jobs 0).jid = 1 ∧ (t.jobs 15).jid = 1 :=
    ⟨_, rfl, by decide, by decide, by decide, by decide⟩
  refine ⟨t, Run.mono (fun _ _ _ h ↦ h.1) (TableCall.run_of_next hreplay), hfirst, hlast, hone,
    hone', fun hunique ↦ ?_⟩
  exact absurd (hunique.jids 0 15 hfirst hlast (hone.trans hone'.symm)) (by decide)

end SystemProgramming.ShellLab
