import SystemProgramming.MemoryLab.Driver.Mm
import SystemProgramming.MemoryLab.Driver.TraceFile

/-!
# The loop of `mdriver.c` over its trace files

For each file the driver reads the trace, checks the package on it, and if that is valid measures its
utilization, all in the arena that `mem_init` has taken once. The measurement of time is left out.

The results on one trace hold from every heap in its arena, so they hold for one trace after the
other: `mm.c` is found correct on every list of files that spell balanced traces for which the arena
has room (`mm_files`).
-/

set_option autoImplicit false
set_option relaxedAutoImplicit false

namespace SystemProgramming.MemoryLab.Driver

open Library

/-- The tables of a trace, as `malloc` leaves them. -/
def Trace.tables (t : Trace) : Tables :=
  ⟨List.replicate t.numIds.toNat none, List.replicate t.numIds.toNat none⟩

/-- What becomes of a file: the program ends because it cannot be read, the package is not valid on
it, the program ends in `eval_mm_util`, or the package is valid. -/
inductive Report
  | unreadable (e : ReadFailure)
  | invalid (i : Nat) (c : Complaint)
  | ended (i : Nat) (c : Complaint)
  | valid (maxTotalSize : Int) (heapsize : Nat)
  deriving DecidableEq, Repr

/-- One round of the loop of `main`. -/
def evalTrace (pkg : Package) (grants : Nat → Nat → Bool) (s : List UInt8) : HeapM Report :=
  match readTrace grants s with
  | none => failure
  | some (.error e) => pure (.unreadable e)
  | some (.ok t) => do
    let result ← evalMmValid pkg t.ops t.tables
    match result with
    | .error (i, c) => pure (.invalid i c)
    | .ok tables => do
      let result ← evalMmUtil pkg t.ops tables
      match result with
      | .error (i, c) => pure (.ended i c)
      | .ok (maxTotalSize, heapsize) => pure (.valid maxTotalSize heapsize)

/-- The loop. -/
def evalTraces (pkg : Package) (grants : Nat → Nat → Bool) : List (List UInt8) → HeapM (List Report)
  | [] => pure []
  | s :: files => do
    let report ← evalTrace pkg grants s
    match report with
    | .unreadable _ => pure [report]
    | .ended _ _ => pure [report]
    | _ => do
      let reports ← evalTraces pkg grants files
      pure (report :: reports)

/-- `errors`. -/
def errors (reports : List Report) : Nat :=
  reports.countP fun r ↦ match r with
    | .invalid _ _ => true
    | _ => false

/-- `numcorrect`. -/
def numcorrect (reports : List Report) : Nat :=
  reports.countP fun r ↦ match r with
    | .valid _ _ => true
    | _ => false

/-- The complaints that are printed about a file, without what `strerror` adds. -/
def Report.complaints (path : String) (tracenum : Nat) : Report → List String
  | unreadable e => [e.msg path]
  | invalid i c => [mallocError tracenum i c]
  | ended _ c => [appErrorMsg c]
  | valid _ _ => []

/-- The complaints that are printed about all files. -/
def complaints (path : Nat → String) (reports : List Report) : List String :=
  reports.zipIdx.flatMap fun (r, i) ↦ r.complaints (path i) i

/-- A file that spells a balanced trace for which the arena has room. -/
structure Suitable (t : Trace) (s : List UInt8) : Prop where
  writable : t.Writable
  spells : Spells t.tokens s
  balanced : Balanced t.numIds.toNat t.ops
  room : 272 + traceNeed t.ops ≤ maxHeap

/-- A report that the package is valid, with the peak of the trace within the heap. -/
def Report.Right (t : Trace) (r : Report) : Prop :=
  ∃ maxTotalSize heapsize, r = .valid maxTotalSize heapsize ∧ Peak t.ops maxTotalSize ∧
    maxTotalSize ≤ heapsize ∧ heapsize ≤ 272 + traceNeed t.ops

variable {h : Heap} {grants : Nat → Nat → Bool} {t : Trace} {s : List UInt8}

theorem evalTrace_right (ha : h.Arena) (hgrants : ∀ i n, grants i n = true) (hs : Suitable t s) :
    Returns (evalTrace mm grants s) h fun r h' ↦ h'.memStartBrk = h.memStartBrk ∧
      h'.memMaxAddr = h.memMaxAddr ∧ r.Right t := by
  have hsized : t.tables.Sized t.numIds.toNat := ⟨List.length_replicate, List.length_replicate⟩
  rw [evalTrace, readTrace_spelled hs.writable hgrants hs.spells]
  dsimp only
  refine (keeps_mm.evalMmValid ha hsized hs.balanced (noWrap_of_room ha hs.room)).bind ?_
  rintro result h₁ ⟨hstart₁, hmax₁, hresult⟩
  cases result with
  | error x => exact absurd hresult (not_excusedAt_of_room hs.room x.1 x.2)
  | ok tables =>
    have harena₁ : h₁.Arena := ⟨hstart₁ ▸ ha.aligned, hstart₁ ▸ ha.nonnull,
      by rw [hstart₁, hmax₁, ha.size], hmax₁ ▸ ha.below⟩
    dsimp only
    refine (keeps_mm.evalMmUtil harena₁ hresult.1 hs.balanced
      (noWrap_of_room harena₁ hs.room)).bind ?_
    rintro result h₂ ⟨hstart₂, hmax₂, hresult₂⟩
    cases result with
    | error x => exact absurd hresult₂ (not_excusedAt_of_room hs.room x.1 x.2)
    | ok x =>
      obtain ⟨hpeak, hle, hgrown, -⟩ := hresult₂
      dsimp only
      rw [returns_pure]
      exact ⟨hstart₂.trans hstart₁, hmax₂.trans hmax₁, x.1, x.2, rfl, hpeak, hle, hgrown⟩

/-- Nothing is printed about files whose reports are right. -/
theorem complaints_eq_nil (path : Nat → String) {files : List (Trace × List UInt8)}
    {reports : List Report} (h : List.Forall₂ (fun f r ↦ Report.Right f.1 r) files reports) :
    complaints path reports = [] := by
  have hright : ∀ r ∈ reports, ∃ t, r.Right t := by
    induction h with
    | nil => simp
    | cons hr _ ih => exact List.forall_mem_cons.mpr ⟨⟨_, hr⟩, ih⟩
  refine List.flatMap_eq_nil_iff.mpr ?_
  rintro ⟨r, i⟩ hmem
  obtain ⟨t, maxTotalSize, heapsize, rfl, -⟩ := hright r (List.fst_mem_of_mem_zipIdx hmem)
  rfl

/-- The loop gives a report that is right for each file. -/
theorem evalTraces_right {files : List (Trace × List UInt8)} (ha : h.Arena)
    (hgrants : ∀ i n, grants i n = true) (hfiles : ∀ f ∈ files, Suitable f.1 f.2) :
    ∃ reports h', evalTraces mm grants (files.map Prod.snd) h = some (reports, h') ∧
      errors reports = 0 ∧ numcorrect reports = files.length ∧
      List.Forall₂ (fun f r ↦ Report.Right f.1 r) files reports := by
  induction files generalizing h with
  | nil => exact ⟨[], h, rfl, rfl, rfl, .nil⟩
  | cons f files ih =>
    obtain ⟨r, h₁, hrun, hstart, hmax, hright⟩ :=
      evalTrace_right ha hgrants (hfiles f List.mem_cons_self)
    have harena : h₁.Arena := ⟨hstart ▸ ha.aligned, hstart ▸ ha.nonnull,
      by rw [hstart, hmax, ha.size], hmax ▸ ha.below⟩
    obtain ⟨reports, h₂, hrest, herrors, hcorrect, hall⟩ :=
      ih harena fun f' hf' ↦ hfiles f' (List.mem_cons_of_mem _ hf')
    obtain ⟨maxTotalSize, heapsize, rfl, -⟩ := id hright
    refine ⟨_ :: reports, h₂, ?_, ?_, ?_, .cons hright hall⟩
    · refine eq_of_returns_iff fun Q ↦ ?_
      rw [List.map_cons, evalTraces, returns_bind, returns_iff_of_eq hrun]
      dsimp only
      rw [returns_bind, returns_iff_of_eq hrest, returns_pure]
    · exact (List.countP_cons_of_neg (by simp)).trans herrors
    · rw [numcorrect, List.countP_cons_of_pos (by simp), List.length_cons]
      exact congrArg (· + 1) hcorrect

/-- With memory for the traces the driver finds `mm.c` correct on every list of files that spell
balanced traces for which the arena has room. It makes no error and prints no complaint, counts each
file as correct, and reports for each the peak of its trace and a heap that holds it. -/
theorem mm_files {files : List (Trace × List UInt8)} (ha : h.Arena)
    (hgrants : ∀ i n, grants i n = true) (hfiles : ∀ f ∈ files, Suitable f.1 f.2)
    (path : Nat → String) :
    ∃ reports h', evalTraces mm grants (files.map Prod.snd) h = some (reports, h') ∧
      errors reports = 0 ∧ numcorrect reports = files.length ∧ complaints path reports = [] ∧
      List.Forall₂ (fun f r ↦ Report.Right f.1 r) files reports := by
  obtain ⟨reports, h', hrun, herrors, hcorrect, hall⟩ := evalTraces_right ha hgrants hfiles
  exact ⟨reports, h', hrun, herrors, hcorrect, complaints_eq_nil path hall, hall⟩

set_option maxRecDepth 4000 in
theorem mm_files_sample : ∃ reports h', evalTraces mm (fun _ _ ↦ true) [sampleText]
    ⟨fun _ ↦ 0, 4096, 4096, 4096 + maxHeap, false, 0, 0, none⟩ = some (reports, h') ∧
      errors reports = 0 ∧ numcorrect reports = 1 := by
  have harena : Heap.Arena ⟨fun _ ↦ 0, 4096, 4096, 4096 + maxHeap, false, 0, 0, none⟩ :=
    ⟨by decide, by decide, rfl, by decide⟩
  have hsuitable : Suitable sampleTrace sampleText :=
    ⟨sampleTrace_writable, spells_sampleText, by decide, by decide⟩
  have hfiles : ∀ f ∈ [(sampleTrace, sampleText)], Suitable f.1 f.2 := by simpa using hsuitable
  obtain ⟨reports, h', hrun, herrors, hcorrect, -⟩ :=
    mm_files harena (fun _ _ ↦ rfl) hfiles fun _ ↦ "traces/sample.rep"
  exact ⟨reports, h', hrun, herrors, hcorrect⟩

end SystemProgramming.MemoryLab.Driver
