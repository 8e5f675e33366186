import SystemProgramming.ShellLab.Reaping

/-!
# `bg` and `fg` among the runs of the handler

`do_bgfg` looks its job up, sends `SIGCONT` and assigns the state, and `sigchld_handler` may run
before each of these steps. What the handler does to the table is a list of reports
(`JobTable.receive`), of jobs that are gone and of jobs that have stopped. Run as one indivisible
step, `do_bgfg` would come before or after each report (`JobTable.Serial`). It does as if it were
indivisible when no report of its job is lost: the job is not deleted before the assignment, and a
stop that is reported between `SIGCONT` and the assignment is followed by another report
(`bgfg_serial`).
-/

set_option autoImplicit false
set_option relaxedAutoImplicit false

namespace SystemProgramming.ShellLab

open Library

/-! ### Reports -/

/-- What the handler does to the table: it deletes a job or marks it as stopped. -/
inductive Report
  | gone (pid : Int)
  | stopped (pid : Int)
  deriving DecidableEq, Repr

/-- The child that a report is about. -/
def Report.pid : Report → Int
  | gone pid => pid
  | stopped pid => pid

/-- What a report makes of the slot of its job. -/
def Report.on (job : Job) : Report → Job
  | gone _ => clearjob
  | stopped _ => { job with state := .st }

namespace JobTable

/-- The table after a report. -/
def receive (t : JobTable) : Report → JobTable
  | .gone pid => (t.deletejob pid).2
  | .stopped pid =>
    match t.getjobpid pid with
    | some i => t.setState i .st
    | none => t

/-- The table after a list of reports. -/
def receiveAll (t : JobTable) (reports : List Report) : JobTable := reports.foldl receive t

/-- The lookup of `do_bgfg`. -/
def lookup (t : JobTable) : JobRef → Option (Fin maxJobs)
  | .jid id => t.getjobjid id
  | .pid id => t.getjobpid id

/-- `do_bgfg` as one indivisible step. -/
def bgfg (t : JobTable) (bg : Bool) (ref : JobRef) : JobTable :=
  match t.lookup ref with
  | some i => t.setState i (if bg then .bg else .fg)
  | none => t

/-- The table that `do_bgfg` leaves as one indivisible step, with every report before it or after
it; the late ones, which are of what has happened after `SIGCONT`, come after it. -/
def Serial (t t' : JobTable) (bg : Bool) (ref : JobRef) (early late : List Report) : Prop :=
  ∃ before after, before ++ after = early ++ late ∧ before <+: early ∧
    t' = ((t.receiveAll before).bgfg bg ref).receiveAll after

variable {t : JobTable} {i : Fin maxJobs} {ref : JobRef}

/-- A table is determined by its slots and its next number. -/
theorem eq_of_jobs {u : JobTable} (hjobs : ∀ i, t.jobs i = u.jobs i)
    (hnext : t.nextjid = u.nextjid) : t = u := by
  obtain ⟨jobs, nextjid⟩ := t
  obtain ⟨jobs', nextjid'⟩ := u
  obtain rfl : jobs = jobs' := funext hjobs
  obtain rfl : nextjid = nextjid' := hnext
  rfl

theorem slotOf_eq (h : t.Tidy) (hused : (t.jobs i).InUse) : t.slotOf (t.jobs i).pid = some i :=
  h.pids.find?_eq hused fun _ hj heq ↦ hj (ne_of_eq_of_ne heq hused)

theorem getjobpid_eq (h : t.Tidy) (hused : (t.jobs i).InUse) :
    t.getjobpid (t.jobs i).pid = some i := by
  have hpos := h.pos i hused
  rw [getjobpid, if_neg (by omega), slotOf_eq h hused]

theorem setState_jobs (t : JobTable) (i j : Fin maxJobs) (state : JobState) :
    (t.setState i state).jobs j = if j = i then { t.jobs i with state := state } else t.jobs j := by
  split_ifs with hji
  · subst hji
    exact Function.update_self _ _ _
  · exact Function.update_of_ne hji _ _

/-- A report changes the slot of its job and no other. -/
theorem receive_jobs (h : t.Tidy) (r : Report) (i : Fin maxJobs) :
    (t.receive r).jobs i =
      if (t.jobs i).InUse ∧ (t.jobs i).pid = r.pid then r.on (t.jobs i) else t.jobs i := by
  cases r with
  | gone pid =>
    change (t.deletejob pid).2.jobs i =
      if (t.jobs i).InUse ∧ (t.jobs i).pid = pid then clearjob else t.jobs i
    rcases deletejob_cases t pid with ⟨j, hpos, hj, hdelete⟩ | ⟨hnone, hdelete⟩
    · rw [hdelete]
      dsimp only
      by_cases hij : i = j
      · subst hij
        rw [Function.update_self, if_pos]
        refine ⟨?_, hj⟩
        rw [Job.InUse, hj]
        omega
      · rw [Function.update_of_ne hij, if_neg]
        rintro ⟨hused, hpid⟩
        refine hij (h.pids i j hused ?_ (hpid.trans hj.symm))
        rw [Job.InUse, hj]
        omega
    · rw [hdelete, if_neg]
      rintro ⟨hused, hpid⟩
      have hpos := h.pos i hused
      rcases hnone with hlow | hnone
      · omega
      · exact hnone i hpid
  | stopped pid =>
    change (t.receive (.stopped pid)).jobs i =
      if (t.jobs i).InUse ∧ (t.jobs i).pid = pid then { t.jobs i with state := .st } else t.jobs i
    rw [receive]
    by_cases hmatch : (t.jobs i).InUse ∧ (t.jobs i).pid = pid
    · obtain ⟨hused, rfl⟩ := hmatch
      rw [getjobpid_eq h hused, if_pos ⟨hused, rfl⟩]
      dsimp only
      rw [setState_jobs, if_pos rfl]
    · rw [if_neg hmatch]
      cases hslot : t.getjobpid pid with
      | none => rfl
      | some j =>
        dsimp only
        rw [setState_jobs, if_neg]
        rintro rfl
        unfold getjobpid at hslot
        split_ifs at hslot
        have hpid := slotOf_eq_some hslot
        refine hmatch ⟨?_, hpid⟩
        rw [Job.InUse, hpid]
        omega

theorem Tidy.receive (h : t.Tidy) (r : Report) : (t.receive r).Tidy := by
  cases r with
  | gone pid => exact h.deletejob
  | stopped pid =>
    rw [JobTable.receive]
    cases t.getjobpid pid with
    | none => exact h
    | some j => exact h.setState

theorem Tidy.receiveAll (h : t.Tidy) (reports : List Report) : (t.receiveAll reports).Tidy := by
  induction reports generalizing t with
  | nil => exact h
  | cons r reports ih => exact ih (h.receive r)

/-- A free slot stays as it is. -/
theorem receiveAll_jobs_free (h : t.Tidy) (hfree : ¬ (t.jobs i).InUse) (reports : List Report) :
    (t.receiveAll reports).jobs i = t.jobs i := by
  induction reports generalizing t with
  | nil => rfl
  | cons r reports ih =>
    have hstep : (t.receive r).jobs i = t.jobs i := by
      rw [receive_jobs h, if_neg fun hmatch ↦ hfree hmatch.1]
    exact (ih (h.receive r) (by rwa [hstep])).trans hstep

/-- What a list of reports makes of a slot in use. -/
theorem receiveAll_jobs (h : t.Tidy) (hused : (t.jobs i).InUse) (reports : List Report) :
    (t.receiveAll reports).jobs i =
      if .gone (t.jobs i).pid ∈ reports then clearjob
      else if .stopped (t.jobs i).pid ∈ reports then { t.jobs i with state := .st }
      else t.jobs i := by
  induction reports generalizing t with
  | nil => simp [receiveAll]
  | cons r reports ih =>
    change ((t.receive r).receiveAll reports).jobs i = _
    have hstep := receive_jobs h r i
    by_cases hpid : (t.jobs i).pid = r.pid
    · rw [if_pos ⟨hused, hpid⟩] at hstep
      cases r with
      | gone pid =>
        obtain rfl : (t.jobs i).pid = pid := hpid
        rw [receiveAll_jobs_free (h.receive _) (by rw [hstep]; exact not_inUse_clearjob), hstep,
          if_pos List.mem_cons_self]
        rfl
      | stopped pid =>
        obtain rfl : (t.jobs i).pid = pid := hpid
        have hpid' : ((t.receive (.stopped (t.jobs i).pid)).jobs i).pid = (t.jobs i).pid := by
          rw [hstep]
          rfl
        rw [ih (h.receive _) (by rw [Job.InUse, hpid']; exact hused), hpid', hstep]
        simp [Report.on]
    · rw [if_neg fun hmatch ↦ hpid hmatch.2] at hstep
      rw [ih (h.receive r) (by rwa [hstep]), hstep]
      have hgone : Report.gone (t.jobs i).pid ≠ r := by
        rintro rfl
        exact hpid rfl
      have hstopped : Report.stopped (t.jobs i).pid ≠ r := by
        rintro rfl
        exact hpid rfl
      simp [hgone, hstopped]

/-! ### An assignment among reports -/

section Assignment

variable {state : JobState}

theorem slotOf_setState (t : JobTable) (i : Fin maxJobs) (state : JobState) (pid : Int) :
    (t.setState i state).slotOf pid = t.slotOf pid := by
  simp only [slotOf, setState_pid]

theorem getjobpid_setState (t : JobTable) (i : Fin maxJobs) (state : JobState) (pid : Int) :
    (t.setState i state).getjobpid pid = t.getjobpid pid := by
  rw [getjobpid, getjobpid, slotOf_setState]

/-- The next number after a deletion has nothing to do with the states. -/
theorem deletejob_setState_nextjid (t : JobTable) (i : Fin maxJobs) (state : JobState) (pid : Int) :
    ((t.setState i state).deletejob pid).2.nextjid = (t.deletejob pid).2.nextjid := by
  unfold deletejob
  split_ifs
  · rfl
  · rw [slotOf_setState]
    cases t.slotOf pid with
    | none => rfl
    | some j =>
      have hjid : ∀ k, (Function.update (t.setState i state).jobs j clearjob k).jid =
          (Function.update t.jobs j clearjob k).jid := fun k ↦ by
        by_cases hkj : k = j
        · subst hkj
          rw [Function.update_self, Function.update_self]
        · rw [Function.update_of_ne hkj, Function.update_of_ne hkj, setState_jid]
      dsimp only
      simp only [maxjid, hjid]

theorem receive_setState_nextjid (t : JobTable) (i : Fin maxJobs) (state : JobState) (r : Report) :
    ((t.setState i state).receive r).nextjid = (t.receive r).nextjid := by
  cases r with
  | gone pid => exact deletejob_setState_nextjid t i state pid
  | stopped pid =>
    rw [receive, receive, getjobpid_setState]
    cases t.getjobpid pid <;> rfl

/-- A report of another job and an assignment commute. -/
theorem receive_setState_of_ne (h : t.Tidy) {r : Report} (hne : (t.jobs i).pid ≠ r.pid) :
    (t.setState i state).receive r = (t.receive r).setState i state := by
  refine eq_of_jobs (fun j ↦ ?_) (receive_setState_nextjid t i state r)
  rw [receive_jobs h.setState, setState_jobs (t.receive r), receive_jobs h, receive_jobs h]
  simp only [setState_jobs t]
  by_cases hji : j = i
  · subst hji
    simp [hne]
  · simp [hji]

/-- A report of the job undoes an assignment before it. -/
theorem receive_setState_of_eq (h : t.Tidy) {r : Report} (hused : (t.jobs i).InUse)
    (hpid : (t.jobs i).pid = r.pid) : (t.setState i state).receive r = t.receive r := by
  refine eq_of_jobs (fun j ↦ ?_) (receive_setState_nextjid t i state r)
  have hon : r.on { t.jobs i with state := state } = r.on (t.jobs i) := by cases r <;> rfl
  rw [receive_jobs h.setState, receive_jobs h]
  simp only [setState_jobs t]
  by_cases hji : j = i
  · subst hji
    rw [if_pos rfl, if_pos ⟨hused, hpid⟩, if_pos ⟨hused, hpid⟩, hon]
  · simp [hji]

/-- The reports say something of the job. -/
def Concern (pid : Int) (reports : List Report) : Prop :=
  .gone pid ∈ reports ∨ .stopped pid ∈ reports

theorem concern_cons {pid : Int} {r : Report} {reports : List Report} :
    Concern pid (r :: reports) ↔ pid = r.pid ∨ Concern pid reports := by
  cases r with
  | gone q =>
    simp only [Concern, List.mem_cons, Report.gone.injEq, reduceCtorEq, false_or, Report.pid]
    rw [or_assoc]
  | stopped q =>
    simp only [Concern, List.mem_cons, Report.stopped.injEq, reduceCtorEq, false_or, Report.pid]
    rw [or_left_comm]

/-- Reports of other jobs, and the slot of a job. -/
theorem receive_keeps (h : t.Tidy) {r : Report}
    (hne : (t.jobs i).pid ≠ r.pid) : (t.receive r).jobs i = t.jobs i := by
  rw [receive_jobs h, if_neg fun hmatch ↦ hne hmatch.2]

/-- An assignment to a job that the reports do not concern may as well come after them. -/
theorem receiveAll_setState_of_not_concern (h : t.Tidy) {reports : List Report}
    (hnone : ¬ Concern (t.jobs i).pid reports) :
    (t.setState i state).receiveAll reports = (t.receiveAll reports).setState i state := by
  induction reports generalizing t with
  | nil => rfl
  | cons r reports ih =>
    rw [concern_cons, not_or] at hnone
    change ((t.setState i state).receive r).receiveAll reports = _
    have hkeeps := receive_keeps h hnone.1
    rw [receive_setState_of_ne h hnone.1]
    exact ih (h.receive r) (by rw [hkeeps]; exact hnone.2)

/-- An assignment to a job that the reports concern has no effect. -/
theorem receiveAll_setState_of_concern (h : t.Tidy) (hused : (t.jobs i).InUse)
    {reports : List Report} (hsome : Concern (t.jobs i).pid reports) :
    (t.setState i state).receiveAll reports = t.receiveAll reports := by
  induction reports generalizing t with
  | nil => exact absurd hsome (by simp [Concern])
  | cons r reports ih =>
    change ((t.setState i state).receive r).receiveAll reports = (t.receive r).receiveAll reports
    by_cases hpid : (t.jobs i).pid = r.pid
    · rw [receive_setState_of_eq h hused hpid]
    · have hkeeps := receive_keeps h hpid
      rw [receive_setState_of_ne h hpid]
      exact ih (h.receive r) (by rwa [hkeeps]) (by
        rw [hkeeps]
        exact (concern_cons.mp hsome).resolve_left hpid)

end Assignment

/-! ### The lookup among reports -/

section Lookup

variable {bg : Bool}

theorem inUse_of_matches (h : t.Tidy) (hid : 1 ≤ ref.id) (hmatch : ref.Matches (t.jobs i)) :
    (t.jobs i).InUse := by
  intro hfree
  cases ref with
  | jid id =>
    have hjid : (t.jobs i).jid = id := hmatch
    have hzero := h.cleared i (not_not.mpr hfree)
    have hpos : 1 ≤ id := hid
    omega
  | pid id =>
    have hpid : (t.jobs i).pid = id := hmatch
    have hpos : 1 ≤ id := hid
    omega

theorem lookup_eq_some (hid : 1 ≤ ref.id) (hmatch : ref.Matches (t.jobs i))
    (hfirst : ∀ j < i, ¬ ref.Matches (t.jobs j)) : t.lookup ref = some i := by
  cases ref with
  | jid id =>
    have hlow : ¬ id < 1 := not_lt.mpr hid
    rw [lookup, getjobjid, if_neg hlow]
    exact Fin.find?_eq_some_iff.mpr ⟨decide_eq_true hmatch, fun j hj ↦ decide_eq_false (hfirst j hj)⟩
  | pid id =>
    have hlow : ¬ id < 1 := not_lt.mpr hid
    rw [lookup, getjobpid, if_neg hlow]
    exact Fin.find?_eq_some_iff.mpr ⟨decide_eq_true hmatch, fun j hj ↦ decide_eq_false (hfirst j hj)⟩

theorem matches_of_lookup (h : t.lookup ref = some i) : 1 ≤ ref.id ∧ ref.Matches (t.jobs i) := by
  cases ref with
  | jid id =>
    rw [lookup, getjobjid] at h
    split_ifs at h with hlow
    exact ⟨not_lt.mp hlow, of_decide_eq_true (Fin.eq_true_of_find?_eq_some h)⟩
  | pid id =>
    rw [lookup, getjobpid] at h
    split_ifs at h with hlow
    exact ⟨not_lt.mp hlow, slotOf_eq_some h⟩

/-- What matches after a report has matched before it. -/
theorem matches_of_receive (h : t.Tidy) (hid : 1 ≤ ref.id) {r : Report}
    (hmatch : ref.Matches ((t.receive r).jobs i)) : ref.Matches (t.jobs i) := by
  have hused := inUse_of_matches (h.receive r) hid hmatch
  rw [receive_jobs h] at hmatch hused
  split_ifs at hmatch hused
  · cases r with
    | gone pid => exact absurd hused not_inUse_clearjob
    | stopped pid => cases ref <;> exact hmatch
  · exact hmatch

theorem matches_of_receiveAll (h : t.Tidy) (hid : 1 ≤ ref.id) {reports : List Report}
    (hmatch : ref.Matches ((t.receiveAll reports).jobs i)) : ref.Matches (t.jobs i) := by
  induction reports generalizing t with
  | nil => exact hmatch
  | cons r reports ih => exact matches_of_receive h hid (ih (h.receive r) hmatch)

theorem bgfg_pid (t : JobTable) (bg : Bool) (ref : JobRef) (i : Fin maxJobs) :
    ((t.bgfg bg ref).jobs i).pid = (t.jobs i).pid := by
  unfold bgfg
  cases t.lookup ref with
  | none => rfl
  | some j => exact setState_pid _ _ _ _

theorem Tidy.bgfg (h : t.Tidy) : (t.bgfg bg ref).Tidy := by
  unfold JobTable.bgfg
  cases t.lookup ref with
  | none => exact h
  | some j => exact h.setState

/-- The lookup finds no free slot. -/
theorem bgfg_jobs_free (h : t.Tidy) (hfree : ¬ (t.jobs i).InUse) :
    (t.bgfg bg ref).jobs i = t.jobs i := by
  unfold bgfg
  cases hlookup : t.lookup ref with
  | none => rfl
  | some j =>
    obtain ⟨hid, hmatch⟩ := matches_of_lookup hlookup
    dsimp only
    rw [setState_jobs, if_neg]
    rintro rfl
    exact hfree (inUse_of_matches h hid hmatch)

/-- Run as one step, `do_bgfg` leaves the slot of a job that is gone cleared, and that of one that
has been reported stopped after `SIGCONT` marked as stopped. -/
theorem Serial.jobs {t' : JobTable} {early late : List Report}
    (hserial : t.Serial t' bg ref early late) (h : t.Tidy) (hused : (t.jobs i).InUse) :
    (.gone (t.jobs i).pid ∈ early ++ late → t'.jobs i = clearjob) ∧
    (.gone (t.jobs i).pid ∉ early ++ late → .stopped (t.jobs i).pid ∈ late →
      (t'.jobs i).state = .st) := by
  obtain ⟨before, after, hall, ⟨rest, rfl⟩, rfl⟩ := hserial
  obtain rfl : after = rest ++ late := by
    rw [List.append_assoc] at hall
    exact List.append_cancel_left hall
  have htidy := h.receiveAll before
  have hslot := receiveAll_jobs h hused before
  by_cases hgone : .gone (t.jobs i).pid ∈ before
  · rw [if_pos hgone] at hslot
    have hfree : ¬ ((t.receiveAll before).jobs i).InUse := by
      rw [hslot]
      exact not_inUse_clearjob
    have hcleared : (((t.receiveAll before).bgfg bg ref).jobs i) = (t.receiveAll before).jobs i :=
      bgfg_jobs_free htidy hfree
    refine ⟨fun _ ↦ ?_, fun hnot ↦ absurd ?_ hnot⟩
    · rw [receiveAll_jobs_free htidy.bgfg (by rwa [hcleared]), hcleared, hslot]
    · simp [hgone]
  · have hpid : ((t.receiveAll before).jobs i).pid = (t.jobs i).pid := by
      rw [hslot, if_neg hgone]
      split_ifs <;> rfl
    have htidy' : ((t.receiveAll before).bgfg bg ref).Tidy := htidy.bgfg
    have hfinal := receiveAll_jobs htidy' (i := i) (by
      rw [Job.InUse, bgfg_pid, hpid]
      exact hused) (rest ++ late)
    rw [bgfg_pid, hpid] at hfinal
    refine ⟨fun hin ↦ ?_, fun hnot hstopped ↦ ?_⟩
    · rw [hfinal, if_pos]
      simpa [hgone] using hin
    · rw [hfinal, if_neg, if_pos]
      · exact List.mem_append_right rest hstopped
      · intro hin
        refine hnot ?_
        rw [List.append_assoc]
        exact List.mem_append_right before hin

/-- The assignment after the lookup, with reports between the two: it leaves a table that the
indivisible step leaves exactly when no report of the job is lost. -/
theorem serial_iff {early between after : List Report} (h : t.Tidy) (hid : 1 ≤ ref.id)
    (hmatch : ref.Matches (t.jobs i))
    (hfirst : ∀ j < i, ¬ ref.Matches ((t.receiveAll early).jobs j)) :
    t.Serial (((t.receiveAll (early ++ between)).setState i (if bg then .bg else .fg)).receiveAll
      after) bg ref early (between ++ after) ↔
    .gone (t.jobs i).pid ∉ early ++ between ∧
      (.stopped (t.jobs i).pid ∈ between → Concern (t.jobs i).pid after) := by
  have hused := inUse_of_matches h hid hmatch
  have htidy := h.receiveAll (early ++ between)
  have hslot := receiveAll_jobs h hused (early ++ between)
  constructor
  · intro hserial
    obtain ⟨hcleared, hstopped⟩ := hserial.jobs h hused
    have hstate : (if bg then JobState.bg else .fg) ≠ .undef ∧
        (if bg then JobState.bg else .fg) ≠ .st := by
      cases bg <;> decide
    have hnot : .gone (t.jobs i).pid ∉ early ++ between := by
      intro hgone
      rw [if_pos hgone] at hslot
      have hself := setState_jobs (t.receiveAll (early ++ between)) i i (if bg then .bg else .fg)
      rw [if_pos rfl, hslot] at hself
      have hghost := hcleared (by
        rw [← List.append_assoc]
        exact List.mem_append_left after hgone)
      rw [receiveAll_jobs_free htidy.setState (by rw [hself]; exact not_inUse_clearjob), hself]
        at hghost
      exact hstate.1 (congrArg Job.state hghost)
    refine ⟨hnot, fun hin ↦ ?_⟩
    by_contra hnone
    rw [Concern, not_or] at hnone
    have hpid : ((t.receiveAll (early ++ between)).jobs i).pid = (t.jobs i).pid := by
      rw [hslot, if_neg hnot]
      split_ifs <;> rfl
    have htidy' : ((t.receiveAll (early ++ between)).setState i (if bg then .bg else .fg)).Tidy :=
      htidy.setState
    have hmarked := receiveAll_jobs htidy' (i := i)
      (by rw [Job.InUse, setState_pid, hpid]; exact hused) after
    rw [setState_pid, hpid, if_neg hnone.1, if_neg hnone.2, setState_jobs, if_pos rfl] at hmarked
    have hst := hstopped (by
      rw [← List.append_assoc, List.mem_append, not_or]
      exact ⟨hnot, hnone.1⟩) (List.mem_append_left after hin)
    rw [hmarked] at hst
    exact hstate.2 hst
  · rintro ⟨hnot, hlost⟩
    rw [List.mem_append, not_or] at hnot
    have hearly := receiveAll_jobs h hused early
    rw [if_neg hnot.1] at hearly
    have hpid : ((t.receiveAll early).jobs i).pid = (t.jobs i).pid := by
      rw [hearly]
      split_ifs <;> rfl
    have hlookup : (t.receiveAll early).lookup ref = some i := by
      refine lookup_eq_some hid ?_ hfirst
      rw [hearly]
      split_ifs
      · cases ref <;> exact hmatch
      · exact hmatch
    refine ⟨early, between ++ after, rfl, List.prefix_refl early, ?_⟩
    rw [bgfg, hlookup]
    simp only [receiveAll, List.foldl_append]
    change (((t.receiveAll early).receiveAll between).setState i _).receiveAll after =
      (((t.receiveAll early).setState i _).receiveAll between).receiveAll after
    by_cases hin : Concern (t.jobs i).pid between
    · have hstopped := hlost (hin.resolve_left hnot.2)
      have hslot' := receiveAll_jobs (h.receiveAll early) (i := i)
        (by rw [Job.InUse, hpid]; exact hused) between
      rw [hpid, if_neg hnot.2] at hslot'
      have hpid' : (((t.receiveAll early).receiveAll between).jobs i).pid = (t.jobs i).pid := by
        rw [hslot']
        split_ifs
        · exact hpid
        · exact hpid
      rw [receiveAll_setState_of_concern (h.receiveAll early) (by rw [Job.InUse, hpid]; exact hused)
        (by rwa [hpid]), receiveAll_setState_of_concern ((h.receiveAll early).receiveAll between)
        (by rw [Job.InUse, hpid']; exact hused) (by rwa [hpid'])]
    · rw [receiveAll_setState_of_not_concern (h.receiveAll early) (by rwa [hpid])]

end Lookup

end JobTable

/-! ### The steps of `do_bgfg` -/

/-- What a step of the handler does to the table. -/
def Event.toReport : Event → Option Report
  | delete pid => some (.gone pid)
  | stop pid => some (.stopped pid)
  | _ => none

/-- What the handler does to the table in a list of steps. -/
def reports (labels : List Event) : List Report := labels.filterMap Event.toReport

theorem receiveAll_reports_cons (t : JobTable) (e : Event) (labels : List Event) :
    t.receiveAll (reports (e :: labels)) =
      (t.receiveAll (reports [e])).receiveAll (reports labels) := by
  have hsplit : reports (e :: labels) = reports [e] ++ reports labels :=
    List.filterMap_append (l := [e])
  rw [hsplit, JobTable.receiveAll, List.foldl_append]
  rfl

/-- The places of `do_bgfg` and `waitfg` after the assignment, and those after the command. -/
def Main.Past : Main → Prop
  | prompt => True
  | await _ => True
  | scan _ _ => True
  | compare _ _ => True
  | exited => True
  | _ => False

variable {s s' : Shell} {e : Event} {labels : List Event} {bg : Bool} {ref : JobRef}
  {job : Fin maxJobs}

/-- Only the handler, an assignment and `addjob` change the table. -/
theorem Shell.Step.table (hstep : s.Step e s') (hmark : e ≠ .mark) (hadd : e ≠ .add) :
    s'.table = s.table.receiveAll (reports [e]) := by
  cases hstep with
  | mark hoff hmain => exact absurd rfl hmark
  | add hoff hmain => exact absurd rfl hadd
  | delete hhandler => rfl
  | stop hhandler hjob =>
    change _ = s.table.receive (.stopped _)
    rw [JobTable.receive, hjob]
  | _ => rfl

/-- After the assignment no step is one of `do_bgfg` before it, until the next command. -/
theorem Shell.Step.past (hstep : s.Step e s') (hpast : s.main.Past) (hcommand : ∀ c, e ≠ .command c) :
    s'.main.Past ∧ e ≠ .mark ∧ e ≠ .add := by
  have hwaitfg : ∀ pid, (waitfg pid).Past := fun pid ↦ by
    unfold waitfg
    split_ifs <;> trivial
  have htest : ∀ pid fgpid, (waitfgTest pid fgpid).Past := fun pid fgpid ↦ by
    unfold waitfgTest
    split_ifs <;> trivial
  cases hstep with
  | command c hoff hmain => exact absurd rfl (hcommand c)
  | block hoff hmain => exact absurd hpast (by rw [hmain]; exact id)
  | fork hoff hmain hpid hnew => exact absurd hpast (by rw [hmain]; exact id)
  | add hoff hmain => exact absurd hpast (by rw [hmain]; exact id)
  | unblock hoff hmain => exact absurd hpast (by rw [hmain]; exact id)
  | kill hoff hmain hreaches => exact absurd hpast (by rw [hmain]; exact id)
  | mark hoff hmain => exact absurd hpast (by rw [hmain]; exact id)
  | fail hoff hmain => exact ⟨trivial, by simp, by simp⟩
  | @read main hoff hmain =>
    refine ⟨?_, by simp, by simp⟩
    revert hmain hpast
    cases s.main with
    | await i =>
      rintro - hmain
      obtain rfl := Option.some.inj hmain
      exact hwaitfg _
    | scan pid slot =>
      rintro - hmain
      obtain rfl := Option.some.inj hmain
      split_ifs
      · trivial
      · trivial
      · exact htest _ _
    | compare pid slot =>
      rintro - hmain
      obtain rfl := Option.some.inj hmain
      exact htest _ _
    | prompt => exact fun _ hmain ↦ absurd hmain (by simp [Main.read])
    | exited => exact fun _ hmain ↦ absurd hmain (by simp [Main.read])
    | _ => exact fun hpast ↦ absurd hpast id
  | _ => exact ⟨hpast, by simp, by simp⟩

theorem Shell.table_of_past (hsteps : Steps Shell.Step s labels s') (hpast : s.main.Past)
    (hcommand : ∀ c, .command c ∉ labels) :
    s'.table = s.table.receiveAll (reports labels) ∧ s'.main.Past := by
  induction hsteps with
  | nil => exact ⟨rfl, hpast⟩
  | @cons s t u e labels hstep hrest ih =>
    obtain ⟨hpast', hmark, hadd⟩ := hstep.past hpast fun c heq ↦ hcommand c (by simp [heq])
    obtain ⟨htable, hlast⟩ := ih hpast' fun c hin ↦ hcommand c (List.mem_cons_of_mem e hin)
    exact ⟨by rw [htable, hstep.table hmark hadd, receiveAll_reports_cons s.table e labels], hlast⟩

/-- Before the assignment only the handler runs. -/
theorem Shell.Step.of_mark (hstep : s.Step e s') (hmain : s.main = .mark bg job) :
    (e = .mark ∧ s'.main.Past) ∨ (s'.main = s.main ∧ e ≠ .mark ∧ e ≠ .add) := by
  cases hstep with
  | mark hoff hmain' =>
    refine Or.inl ⟨rfl, ?_⟩
    dsimp only
    split_ifs <;> trivial
  | command c hoff hmain' => simp [hmain] at hmain'
  | block hoff hmain' => simp [hmain] at hmain'
  | fork hoff hmain' hpid hnew => simp [hmain] at hmain'
  | add hoff hmain' => simp [hmain] at hmain'
  | unblock hoff hmain' => simp [hmain] at hmain'
  | read hoff hmain' => simp [hmain, Main.read] at hmain'
  | kill hoff hmain' hreaches => simp [hmain] at hmain'
  | fail hoff hmain' => simp [hmain] at hmain'
  | _ => exact Or.inr ⟨rfl, by simp, by simp⟩

theorem Shell.table_of_mark (hsteps : Steps Shell.Step s labels s') (hmain : s.main = .mark bg job)
    (hmain' : ¬ s'.main.Past) (hcommand : ∀ c, .command c ∉ labels) :
    s'.table = s.table.receiveAll (reports labels) ∧ s'.main = .mark bg job := by
  induction hsteps with
  | nil => exact ⟨rfl, hmain⟩
  | @cons s t u e labels hstep hrest ih =>
    have hcommand' : ∀ c, .command c ∉ labels := fun c hin ↦
      hcommand c (List.mem_cons_of_mem e hin)
    rcases hstep.of_mark hmain with ⟨-, hpast⟩ | ⟨hsame, hmark, hadd⟩
    · exact absurd (Shell.table_of_past hrest hpast hcommand').2 hmain'
    · obtain ⟨htable, hlast⟩ := ih (hsame.trans hmain) hmain' hcommand'
      exact ⟨by rw [htable, hstep.table hmark hadd, receiveAll_reports_cons s.table e labels], hlast⟩

/-- Where the lookup is, of a job that was in the table `t₀`: none of the slots before it matches, and
a slot that has been found matched in `t₀`. -/
def Main.Seeks (t₀ t : JobTable) (bg : Bool) (ref : JobRef) : Main → Prop
  | lookup b r slot => b = bg ∧ r = ref ∧
      ∀ j : Fin maxJobs, (j : Nat) < slot → ¬ ref.Matches (t.jobs j)
  | cont b i => b = bg ∧ ref.Matches (t₀.jobs i) ∧ ∀ j < i, ¬ ref.Matches (t.jobs j)
  | kill b i _ => b = bg ∧ ref.Matches (t₀.jobs i) ∧ ∀ j < i, ¬ ref.Matches (t.jobs j)
  | _ => False

/-- Reports only take matching slots away. -/
theorem Main.Seeks.shrink {t₀ t t' : JobTable} {main : Main} (h : main.Seeks t₀ t bg ref)
    (hmatches : ∀ j, ref.Matches (t'.jobs j) → ref.Matches (t.jobs j)) :
    main.Seeks t₀ t' bg ref := by
  cases main with
  | lookup b r slot => exact ⟨h.1, h.2.1, fun j hj hmatch ↦ h.2.2 j hj (hmatches j hmatch)⟩
  | cont b i => exact ⟨h.1, h.2.1, fun j hj hmatch ↦ h.2.2 j hj (hmatches j hmatch)⟩
  | kill b i q => exact ⟨h.1, h.2.1, fun j hj hmatch ↦ h.2.2 j hj (hmatches j hmatch)⟩
  | _ => exact h

/-- The scan finds a slot that matched in `t₀`, or comes to the end. -/
theorem Main.Seeks.read {t₀ t : JobTable} {main main' : Main} (h : main.Seeks t₀ t bg ref)
    (hmatches : ∀ j, ref.Matches (t.jobs j) → ref.Matches (t₀.jobs j))
    (hread : main.read t = some main') : main'.Seeks t₀ t bg ref ∨ main'.Past := by
  cases main with
  | lookup b r slot =>
    obtain ⟨rfl, rfl, hbefore⟩ := h
    obtain rfl := Option.some.inj hread
    split_ifs with hlt hmatch
    · exact Or.inl ⟨rfl, hmatches _ hmatch, fun j hj ↦ hbefore j hj⟩
    · refine Or.inl ⟨rfl, rfl, fun j hj ↦ ?_⟩
      by_cases heq : (j : Nat) = slot
      · obtain rfl : j = ⟨slot, hlt⟩ := Fin.ext heq
        exact hmatch
      · exact hbefore j (by omega)
    · exact Or.inr trivial
  | cont b i =>
    obtain rfl := Option.some.inj hread
    exact Or.inl h
  | kill b i q => exact absurd hread (by simp [Main.read])
  | _ => exact absurd h id

/-- The lookup goes on, the assignment is next, or the command is over. -/
theorem Shell.Step.seeks {t₀ : JobTable} (hstep : s.Step e s') (htidy : t₀.Tidy) (hid : 1 ≤ ref.id)
    {earlier : List Report} (htable : s.table = t₀.receiveAll earlier)
    (hseeks : s.main.Seeks t₀ s.table bg ref) :
    (s'.main.Seeks t₀ s'.table bg ref ∧ e ≠ .mark ∧ e ≠ .add) ∨
      (∃ job, s'.main = .mark bg job) ∨ s'.main.Past := by
  have htidy' : s.table.Tidy := htable ▸ htidy.receiveAll earlier
  have hmatches : ∀ j, ref.Matches (s.table.jobs j) → ref.Matches (t₀.jobs j) := fun j hmatch ↦
    JobTable.matches_of_receiveAll htidy hid (htable ▸ hmatch)
  cases hstep with
  | @delete pid hhandler =>
    exact Or.inl ⟨hseeks.shrink fun j hmatch ↦
      JobTable.matches_of_receive (r := .gone pid) htidy' hid hmatch, by simp, by simp⟩
  | @stop pid i hhandler hjob =>
    refine Or.inl ⟨hseeks.shrink fun j hmatch ↦
      JobTable.matches_of_receive (r := .stopped pid) htidy' hid ?_, by simp, by simp⟩
    rw [JobTable.receive, hjob]
    exact hmatch
  | read hoff hmain =>
    rcases hseeks.read hmatches hmain with hnext | hpast
    · exact Or.inl ⟨hnext, by simp, by simp⟩
    · exact Or.inr (Or.inr hpast)
  | kill hoff hmain hreaches =>
    rw [hmain] at hseeks
    obtain ⟨rfl, -⟩ := hseeks
    exact Or.inr (Or.inl ⟨_, rfl⟩)
  | fail hoff hmain => exact Or.inr (Or.inr trivial)
  | command c hoff hmain => exact absurd hseeks (by rw [hmain]; exact id)
  | block hoff hmain => exact absurd hseeks (by rw [hmain]; exact id)
  | fork hoff hmain hpid hnew => exact absurd hseeks (by rw [hmain]; exact id)
  | add hoff hmain => exact absurd hseeks (by rw [hmain]; exact id)
  | unblock hoff hmain => exact absurd hseeks (by rw [hmain]; exact id)
  | mark hoff hmain => exact absurd hseeks (by rw [hmain]; exact id)
  | _ => exact Or.inl ⟨hseeks, by simp, by simp⟩

/-- From the lookup to `SIGCONT`. -/
theorem Shell.table_of_seeks {t₀ : JobTable} (hsteps : Steps Shell.Step s labels s') (htidy : t₀.Tidy)
    (hid : 1 ≤ ref.id) {earlier : List Report} (htable : s.table = t₀.receiveAll earlier)
    (hseeks : s.main.Seeks t₀ s.table bg ref) {b : Bool} {pid : Int}
    (hkill : s'.main = .kill b job pid) (hcommand : ∀ c, .command c ∉ labels) :
    s'.table = t₀.receiveAll (earlier ++ reports labels) ∧ s'.main.Seeks t₀ s'.table bg ref := by
  induction hsteps generalizing earlier with
  | nil => exact ⟨by rw [htable]; simp [reports], hseeks⟩
  | @cons s t u e labels hstep hrest ih =>
    have hcommand' : ∀ c, .command c ∉ labels := fun c hin ↦
      hcommand c (List.mem_cons_of_mem e hin)
    have hnot : ¬ u.main.Past := by
      rw [hkill]
      exact id
    rcases hstep.seeks htidy hid htable hseeks with ⟨hseeks', hmark, hadd⟩ | ⟨i, hmark⟩ | hpast
    · have htable' : t.table = t₀.receiveAll (earlier ++ reports [e]) := by
        rw [hstep.table hmark hadd, htable, JobTable.receiveAll, JobTable.receiveAll,
          JobTable.receiveAll, List.foldl_append]
      have hsplit : reports (e :: labels) = reports [e] ++ reports labels :=
        List.filterMap_append (l := [e])
      rw [hsplit, ← List.append_assoc]
      exact ih htable' hseeks' hkill hcommand'
    · have hlast := (Shell.table_of_mark hrest hmark hnot hcommand').2
      rw [hkill] at hlast
      exact absurd hlast (by simp)
    · exact absurd (Shell.table_of_past hrest hpast hcommand').2 hnot

/-- `do_bgfg` leaves the table that it leaves as one indivisible step, with the handler before or
after it, exactly when the handler does not delete the job before the assignment, and if it marks it
as stopped between `SIGCONT` and the assignment it marks it again or deletes it later. -/
theorem bgfg_serial {s s₁ s₂ s₃ s₄ s' : Shell} {bg b : Bool} {ref : JobRef} {job : Fin maxJobs}
    {pid : Int} {others : Bool} {before between after : List Event} (htidy : s.table.Tidy)
    (hmain : s.main = .lookup bg ref 0) (hid : 1 ≤ ref.id) (hbefore : Steps Shell.Step s before s₁)
    (hjob : s₁.main = .kill b job pid) (hkill : s₁.Step (.kill others) s₂)
    (hbetween : Steps Shell.Step s₂ between s₃) (hmark : s₃.Step .mark s₄)
    (hafter : Steps Shell.Step s₄ after s')
    (hcommand : ∀ c, .command c ∉ before ++ between ++ after) :
    s.table.Serial s'.table bg ref (reports before) (reports between ++ reports after) ↔
      .gone (s.table.jobs job).pid ∉ reports before ++ reports between ∧
      (.stopped (s.table.jobs job).pid ∈ reports between →
        JobTable.Concern (s.table.jobs job).pid (reports after)) := by
  simp only [List.mem_append, not_or] at hcommand
  have hstart : s.main.Seeks s.table s.table bg ref := by
    rw [hmain]
    exact ⟨rfl, rfl, fun j hj ↦ absurd hj (Nat.not_lt_zero _)⟩
  have hnone : s.table = s.table.receiveAll [] := rfl
  obtain ⟨htable₁, hseeks⟩ := Shell.table_of_seeks hbefore htidy hid hnone hstart hjob
    fun c ↦ (hcommand c).1.1
  rw [hjob] at hseeks
  obtain ⟨rfl, hmatch, hfirst⟩ := hseeks
  rw [List.nil_append] at htable₁
  rw [htable₁] at hfirst
  have hmain₂ : s₂.table = s₁.table ∧ s₂.main = .mark b job := by
    cases hkill with
    | kill hoff hmain' hreaches =>
      obtain ⟨rfl, rfl, -⟩ := Main.kill.inj (hjob.symm.trans hmain')
      exact ⟨rfl, rfl⟩
  have hnot₃ : ¬ s₃.main.Past := by
    cases hmark with
    | mark hoff hmain' =>
      rw [hmain']
      exact id
  obtain ⟨htable₃, hmain₃⟩ := Shell.table_of_mark hbetween hmain₂.2 hnot₃ fun c ↦ (hcommand c).1.2
  have hmain₄ : s₄.table = s₃.table.setState job (if b then .bg else .fg) ∧ s₄.main.Past := by
    cases hmark with
    | mark hoff hmain' =>
      obtain ⟨rfl, rfl⟩ := Main.mark.inj (hmain₃.symm.trans hmain')
      refine ⟨rfl, ?_⟩
      dsimp only
      split_ifs <;> trivial
  have htable := (Shell.table_of_past hafter hmain₄.2 fun c ↦ (hcommand c).2).1
  have hthird : s₃.table = s.table.receiveAll (reports before ++ reports between) := by
    rw [htable₃, hmain₂.1, htable₁, JobTable.receiveAll, JobTable.receiveAll, JobTable.receiveAll,
      List.foldl_append]
  rw [htable, hmain₄.1, hthird]
  exact JobTable.serial_iff htidy hid hmatch hfirst

theorem bgfg_serial_stopped : ∃ s s' : Shell,
    Shell.Reached [.command (.run true "a &"), .block, .fork 100, .setpgid 100, .add, .unblock,
      .command (.bgfg false (.jid 1))] s ∧
    Steps Shell.Step s [.read, .read, .kill false, .mark, .change 100, .deliver, .report 100,
      .stop 100, .done] s' ∧
    s.table.Serial s'.table false (.jid 1) [] [.stopped 100] := by
  obtain ⟨s, s₁, s₂, s₄, s', hstart, hmain, hpid, hbefore, hjob, hkill, hmark, hafter⟩ :
      ∃ s s₁ s₂ s₄ s' : Shell, Steps Shell.Step Shell.start [.command (.run true "a &"), .block,
        .fork 100, .setpgid 100, .add, .unblock, .command (.bgfg false (.jid 1))] s ∧
      s.main = .lookup false (.jid 1) 0 ∧ (s.table.jobs 0).pid = 100 ∧
      Steps Shell.Step s [.read, .read] s₁ ∧ s₁.main = .kill false 0 100 ∧
      s₁.Step (.kill false) s₂ ∧ s₂.Step .mark s₄ ∧
      Steps Shell.Step s₄ [.change 100, .deliver, .report 100, .stop 100, .done] s' := by
    refine ⟨_, _, _, _, _, .cons (.command _ rfl rfl) <| .cons (.block rfl rfl) <|
      .cons (.fork rfl rfl (by decide) rfl) <| .cons (.setpgid rfl rfl) <| .cons (.add rfl rfl) <|
      .cons (.unblock rfl rfl) <| .cons (.command _ rfl rfl) .nil, rfl, rfl,
      .cons (.read rfl rfl) <| .cons (.read rfl rfl) .nil, rfl,
      .kill rfl rfl (Or.inr (Or.inr ⟨_, rfl, rfl⟩)), .mark rfl rfl,
      .cons (.change rfl .stop) <| .cons (.deliver rfl rfl rfl (by decide)) <|
      .cons (.report rfl rfl rfl) <| .cons (.stop rfl rfl) <| .cons (.done rfl ?_) .nil⟩
    intro pid c hc
    have hslot : ((JobTable.start.addjob 100 .bg "a &").2.jobs 0).pid = 100 := rfl
    by_cases hpid : pid = 100 <;> simp [hpid, hslot, Shell.start] at hc
    subst hc
    exact fun hwaitable ↦ absurd hwaitable (by simp [ChildStatus.Waitable])
  have hreached : Shell.Reached _ s := hstart.run rfl
  have hserial := (bgfg_serial hreached.tracked.tidy hmain (by decide) hbefore hjob hkill .nil hmark
    hafter (by simp)).mpr ⟨by simp [reports, Event.toReport], fun hin ↦ absurd hin (by simp [reports])⟩
  exact ⟨s, s', hreached, hbefore.append <| .cons hkill <| .cons hmark hafter, hserial⟩

/-- The job stops after `SIGCONT`, the handler marks it as stopped, and the assignment undoes it. -/
theorem bgfg_serial_lost : ∃ s s' : Shell,
    Shell.Reached [.command (.run true "a &"), .block, .fork 100, .setpgid 100, .add, .unblock,
      .command (.bgfg false (.jid 1))] s ∧
    Steps Shell.Step s [.read, .read, .kill false, .change 100, .deliver, .report 100, .stop 100,
      .done, .mark] s' ∧
    s'.handler = .off ∧ s'.pending = false ∧ s'.children 100 = some ⟨.stopped true, true⟩ ∧
    (s'.table.jobs 0).state = .fg ∧
    ¬ s.table.Serial s'.table false (.jid 1) [] [.stopped 100] := by
  obtain ⟨s, s', hstart, hpid, hsteps, hoff, hpending, hchild, hfg⟩ : ∃ s s' : Shell,
      Steps Shell.Step Shell.start [.command (.run true "a &"), .block, .fork 100, .setpgid 100,
        .add, .unblock, .command (.bgfg false (.jid 1))] s ∧ (s.table.jobs 0).pid = 100 ∧
      Steps Shell.Step s [.read, .read, .kill false, .change 100, .deliver, .report 100, .stop 100,
        .done, .mark] s' ∧
      s'.handler = .off ∧ s'.pending = false ∧ s'.children 100 = some ⟨.stopped true, true⟩ ∧
      (s'.table.jobs 0).state = .fg := by
    refine ⟨_, _, .cons (.command _ rfl rfl) <| .cons (.block rfl rfl) <|
      .cons (.fork rfl rfl (by decide) rfl) <| .cons (.setpgid rfl rfl) <| .cons (.add rfl rfl) <|
      .cons (.unblock rfl rfl) <| .cons (.command _ rfl rfl) .nil, rfl,
      .cons (.read rfl rfl) <| .cons (.read rfl rfl) <|
      .cons (.kill rfl rfl (Or.inr (Or.inr ⟨_, rfl, rfl⟩))) <| .cons (.change rfl .stop) <|
      .cons (.deliver rfl rfl rfl (by decide)) <| .cons (.report rfl rfl rfl) <|
      .cons (.stop rfl rfl) <| .cons (.done rfl ?_) <| .cons (.mark rfl rfl) .nil,
      rfl, rfl, rfl, rfl⟩
    intro pid c hc
    have hslot : ((JobTable.start.addjob 100 .bg "a &").2.jobs 0).pid = 100 := rfl
    by_cases hpid : pid = 100 <;> simp [hpid, hslot, Shell.start] at hc
    subst hc
    exact fun hwaitable ↦ absurd hwaitable (by simp [ChildStatus.Waitable])
  have hreached : Shell.Reached _ s := hstart.run rfl
  refine ⟨s, s', hreached, hsteps, hoff, hpending, hchild, hfg, fun hserial ↦ ?_⟩
  have hused : (s.table.jobs 0).InUse := by
    rw [Job.InUse, hpid]
    decide
  have hst := (hserial.jobs hreached.tracked.tidy hused).2
  rw [hpid, hfg] at hst
  exact absurd (hst (by simp) (by simp)) (by simp)

end SystemProgramming.ShellLab
