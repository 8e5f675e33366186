import Mathlib.Order.Bounds.Basic
import SystemProgramming.MemoryLab.Driver.Client

/-!
# The space utilization that `mdriver.c` reports

`eval_mm_util` runs a trace and keeps the total size of the blocks that are allocated, in an `int`,
with its maximum. It returns the ratio of that maximum and the size of the heap. Here it returns the
two numbers, and a sum that is no `int` has no result.

The total size is that of separated extents in the heap. So on a balanced trace with a package that
keeps its contract no sum overflows, the maximum is the peak of the volume of the trace, and the ratio
is at most one (`Package.Keeps.evalMmUtil`).
-/

set_option autoImplicit false
set_option relaxedAutoImplicit false

namespace SystemProgramming.MemoryLab.Driver

open Library

/-! ### `eval_mm_util` -/

/-- A sum of type `int`. -/
def intSum (a b : Int) : HeapM Int :=
  if -2 ^ 31 ≤ a + b ∧ a + b < 2 ^ 31 then pure (a + b) else failure

/-- The variables of `eval_mm_util`. -/
structure Totals where
  tables : Tables
  maxTotalSize : Int
  totalSize : Int

/-- The statistics with a new total size. -/
def Totals.update (tables : Tables) (maxTotalSize totalSize : Int) : Totals :=
  ⟨tables, if maxTotalSize < totalSize then totalSize else maxTotalSize, totalSize⟩

/-- A request. -/
def utilOp (pkg : Package) (s : Totals) (op : TraceOp) : HeapM (Except Complaint Totals) :=
  match op.type with
  | .alloc => do
    let p ← pkg.mmMalloc (toSizeT op.size)
    if p = null then pure (.error .mallocFailed)
    else do
      let tables ← remember s.tables op.index p op.size
      let totalSize ← intSum s.totalSize op.size
      pure (.ok (Totals.update tables s.maxTotalSize totalSize))
  | .realloc => do
    let oldsize ← entry s.tables.blockSizes op.index
    let oldp ← entry s.tables.blocks op.index
    let newp ← pkg.mmRealloc oldp (toSizeT op.size)
    if newp = null then pure (.error .reallocFailed)
    else do
      let tables ← remember s.tables op.index newp op.size
      let change ← intSum op.size (-ofSizeT oldsize)
      let totalSize ← intSum s.totalSize change
      pure (.ok (Totals.update tables s.maxTotalSize totalSize))
  | .free => do
    let size ← entry s.tables.blockSizes op.index
    let p ← entry s.tables.blocks op.index
    pkg.mmFree p
    let totalSize ← intSum s.totalSize (-ofSizeT size)
    pure (.ok { s with totalSize := totalSize })

/-- `mem_heapsize`. -/
def memHeapsize (h : Heap) : Nat := subWord h.memBrk h.memStartBrk

/-- `eval_mm_util`: the maximum of the total size, and the size of the heap. A complaint here ends the
program. -/
def evalMmUtil (pkg : Package) (ops : List TraceOp) (tables : Tables) :
    HeapM (Except (Nat × Complaint) (Int × Nat)) := do
  modify memResetBrk
  let r ← pkg.mmInit none
  if r < 0 then pure (.error (0, .initFailed))
  else do
    let result ← evalOps (utilOp pkg) 0 ops ⟨tables, 0, 0⟩
    match result with
    | .error e => pure (.error e)
    | .ok s => do
      let h ← get
      pure (.ok (s.maxTotalSize, memHeapsize h))

/-- What the program prints before it ends. -/
def appErrorMsg : Complaint → String
  | .initFailed => "mm_init failed in eval_mm_util"
  | .mallocFailed => "mm_malloc failed in eval_mm_util"
  | .reallocFailed => "mm_realloc failed in eval_mm_util"
  | c => c.msg

/-! ### The volume of a trace -/

/-- The sizes of the ids that are held, and the volume of all blocks that are allocated. -/
def volumeStep (s : (Nat → Option Nat) × Int) (op : TraceOp) : (Nat → Option Nat) × Int :=
  let i := op.index.toNat
  match op.type with
  | .alloc => (Function.update s.1 i (some op.size.toNat), s.2 + op.size)
  | .realloc => (Function.update s.1 i (some op.size.toNat), s.2 + (op.size - (s.1 i).getD 0))
  | .free => (Function.update s.1 i none, s.2 - (s.1 i).getD 0)

/-- The ids and the volume after a trace. -/
def volumeState (ops : List TraceOp) : (Nat → Option Nat) × Int :=
  ops.foldl volumeStep (fun _ ↦ none, 0)

/-- The volume after a trace. -/
def volume (ops : List TraceOp) : Int := (volumeState ops).2

/-- The largest volume on the way through a trace. -/
def Peak (ops : List TraceOp) (m : Int) : Prop :=
  IsGreatest (volume '' {front | front <+: ops}) m

theorem volumeState_concat (ops : List TraceOp) (op : TraceOp) :
    volumeState (ops ++ [op]) = volumeStep (volumeState ops) op := by
  rw [volumeState, List.foldl_append]
  rfl

theorem peak_nil : Peak [] 0 := by
  constructor
  · exact ⟨[], List.prefix_refl _, rfl⟩
  · rintro v ⟨front, hfront, rfl⟩
    rw [List.prefix_nil.mp hfront]
    exact le_rfl

theorem Peak.concat {ops : List TraceOp} {m : Int} (hm : Peak ops m) (op : TraceOp) :
    Peak (ops ++ [op]) (if m < volume (ops ++ [op]) then volume (ops ++ [op]) else m) := by
  obtain ⟨⟨front, hfront, hvolume⟩, hmax⟩ := hm
  constructor
  · split_ifs with hgrows
    · exact ⟨_, List.prefix_refl _, rfl⟩
    · exact ⟨front, hfront.trans (List.prefix_append _ _), hvolume⟩
  · rintro v ⟨front', hfront', rfl⟩
    rcases List.prefix_concat_iff.mp hfront' with rfl | hbefore
    · split_ifs <;> omega
    · have hle := hmax ⟨front', hbefore, rfl⟩
      split_ifs <;> omega

/-! ### One request -/

theorem totalLength_without {live : List (Nat × Nat)} {p n : Nat}
    (hnodup : (live.map Prod.fst).Nodup) (hp : (p, n) ∈ live) :
    totalLength live = n + totalLength (without live p) := by
  have hperm : live.Perm ((p, n) :: without live p) := by
    have hfresh : (p, n) ∉ without live p := fun h ↦ (mem_without.mp h).2 rfl
    refine (List.perm_ext_iff_of_nodup hnodup.of_map
      (List.nodup_cons.mpr ⟨hfresh, hnodup.of_map.filter _⟩)).mpr fun e ↦ ?_
    rw [List.mem_cons, mem_without]
    constructor
    · intro he
      by_cases hep : e.1 = p
      · exact Or.inl (List.inj_on_of_nodup_map hnodup he hp hep)
      · exact Or.inr ⟨he, hep⟩
    · rintro (rfl | ⟨he, -⟩)
      · exact hp
      · exact he
  rw [← totalLength_cons p]
  exact (hperm.map Prod.snd).sum_eq

theorem returns_intSum {a b : Int} {h : Heap} (hlow : 0 ≤ a + b) (hhigh : a + b < 2 ^ 31)
    (Q : Int → Heap → Prop) : Returns (intSum a b) h Q ↔ Q (a + b) h := by
  rw [intSum, if_pos ⟨by omega, hhigh⟩, returns_pure]

/-- The contract holds, the tables are right, and the statistics are those of the requests so far. -/
structure Counts (c : Contract) (numIds : Nat) (before : List TraceOp) (h : Heap) (s : Totals)
    (held : Nat → Option Nat) (live : List (Nat × Nat)) : Prop where
  holds : c.Holds h live
  remembers : Remembers numIds s.tables held live
  total : s.totalSize = totalLength live
  volume : volumeState before = (held, s.totalSize)
  peak : Peak before s.maxTotalSize
  fits : s.maxTotalSize ≤ (h.memBrk - h.memStartBrk : Nat)

namespace Counts

variable {pkg : Package} {c : Contract} {numIds : Nat} {before : List TraceOp} {h h' : Heap}
  {s : Totals} {held held' : Nat → Option Nat} {live live' : List (Nat × Nat)} {op : TraceOp}

/-- What follows for the statistics from the rest of the invariant. -/
theorem next (hcount : Counts c numIds before h s held live) (hk : pkg.Keeps c)
    (hholds : c.Holds h' live') {tables : Tables} (hr : Remembers numIds tables held' live')
    (hstart : h'.memStartBrk = h.memStartBrk) (hbrk : h.memBrk ≤ h'.memBrk)
    (hstep : volumeStep (held, s.totalSize) op = (held', ((totalLength live' : Nat) : Int))) :
    Counts c numIds (before ++ [op]) h'
      (Totals.update tables s.maxTotalSize (totalLength live' : Nat)) held' live' := by
  have hstate : volumeState (before ++ [op]) = (held', ((totalLength live' : Nat) : Int)) := by
    rw [volumeState_concat, hcount.volume, hstep]
  have hvolume : Driver.volume (before ++ [op]) = (totalLength live' : Nat) := by
    rw [Driver.volume, hstate]
  have hpeak := hcount.peak.concat op
  rw [hvolume] at hpeak
  refine ⟨hholds, hr, rfl, hstate, hpeak, ?_⟩
  have hold := hcount.fits
  have hnew := hk.total_le hholds
  rw [Totals.update]
  dsimp only
  split_ifs <;> omega

/-- The total size is no larger than its maximum. -/
theorem total_le (hcount : Counts c numIds before h s held live) : s.totalSize ≤ s.maxTotalSize := by
  have hle := hcount.peak.2 ⟨before, List.prefix_refl _, rfl⟩
  rwa [Driver.volume, hcount.volume] at hle

/-- The total size, and what it may grow to, is an `int`. -/
theorem lt (hholds : c.Holds h live) (hk : pkg.Keeps c) : totalLength live < 2 ^ 31 := by
  obtain ⟨harena, -, hmax⟩ := hk.arena hholds
  have hle := hk.total_le hholds
  have hsize := harena.size
  unfold maxHeap at hsize
  omega

theorem utilOp_alloc (hcount : Counts c numIds before h s held live) (hk : pkg.Keeps c)
    {i size : Nat} (hi : i < numIds) (hpos : 0 < size) (hlt : size < 2 ^ 31)
    (hfit : h.memBrk + c.need size < 2 ^ 32) :
    Returns (utilOp pkg s ⟨.alloc, i, size⟩) h (Proceeds c h ⟨.alloc, i, size⟩ fun s' h' ↦
      ∃ live', Counts c numIds (before ++ [⟨.alloc, i, size⟩]) h' s'
        (Function.update held i (some size)) live') := by
  rw [utilOp]
  dsimp only
  rw [returns_bind, toSizeT_natCast hlt]
  refine (hk.mmMalloc hcount.holds hpos hlt hfit).mono ?_
  rintro p h₁ ⟨hkept, -, hup, hbrk, hanswer⟩
  have hneed : TraceOp.need c ⟨.alloc, i, size⟩ = c.need size := by simp [TraceOp.need]
  unfold Proceeds
  rw [returns_ite, hneed]
  by_cases hp : p = null
  · rw [if_pos hp] at hanswer
    rw [if_pos hp, returns_pure]
    exact ⟨hkept.memStartBrk_eq, hkept.memMaxAddr_eq, hbrk, Or.inl ⟨rfl, rfl, hneed ▸ hanswer⟩⟩
  · rw [if_neg hp] at hanswer
    have hr := (hcount.remembers.forget i).grant (t := size) hi (not_mem_of_separated (hk.separated hanswer))
    rw [Function.update_idem] at hr
    have htotal : s.totalSize + (size : Int) = (totalLength ((p, size) :: live) : Nat) := by
      rw [hcount.total, totalLength_cons]
      omega
    have hlast := lt hanswer hk
    rw [if_neg hp, returns_bind, returns_remember hcount.remembers.sized hi hlt, returns_bind,
      returns_intSum (by omega) (by omega), returns_pure, htotal]
    refine ⟨hkept.memStartBrk_eq, hkept.memMaxAddr_eq, hbrk, _, hcount.next hk hanswer hr
      hkept.memStartBrk_eq hup ?_⟩
    rw [← htotal]
    rfl

theorem utilOp_realloc (hcount : Counts c numIds before h s held live) (hk : pkg.Keeps c)
    {i n size : Nat} (hi : i < numIds) (hheld : held i = some n) (hpos : 0 < size)
    (hle : size ≤ n) :
    Returns (utilOp pkg s ⟨.realloc, i, size⟩) h (Proceeds c h ⟨.realloc, i, size⟩ fun s' h' ↦
      ∃ live', Counts c numIds (before ++ [⟨.realloc, i, size⟩]) h' s'
        (Function.update held i (some size)) live') := by
  obtain ⟨p, hp, hn, hlive⟩ := hcount.remembers.entry i n hheld
  have hwithout := totalLength_without (hk.separated hcount.holds).nodup hlive
  have hbound := lt hcount.holds hk
  rw [utilOp]
  dsimp only
  rw [returns_bind, returns_entry rfl hn, returns_bind, returns_entry rfl hp, returns_bind,
    toSizeT_natCast (by omega), ofSizeT_of_lt (by omega)]
  refine (hk.mmRealloc hcount.holds hlive hpos hle).mono ?_
  rintro q h₁ ⟨hkept, hbrk, -, hanswer⟩
  unfold Proceeds
  rw [returns_ite]
  by_cases hq : q = null
  · rw [if_pos hq] at hanswer
    rw [if_pos hq, returns_pure]
    exact ⟨hkept.memStartBrk_eq, hkept.memMaxAddr_eq, hbrk.le.trans (Nat.le_add_right _ _),
      Or.inr ⟨rfl, rfl, hanswer⟩⟩
  · rw [if_neg hq] at hanswer
    obtain ⟨hholds, -⟩ := hanswer
    have hr := (hcount.remembers.release hheld hp).grant (t := size) hi
      (not_mem_of_separated (hk.separated hholds))
    rw [Function.update_idem] at hr
    have htotal : s.totalSize + ((size : Int) + -(n : Int)) =
        (totalLength ((q, size) :: without live p) : Nat) := by
      rw [hcount.total, totalLength_cons, hwithout]
      omega
    have hlast := lt hholds hk
    have hchange : intSum (size : Int) (-(n : Int)) h₁ = some ((size : Int) + -(n : Int), h₁) := by
      rw [intSum, if_pos (by omega)]
      rfl
    rw [if_neg hq, returns_bind, returns_remember hcount.remembers.sized hi (by omega), returns_bind,
      returns_iff_of_eq hchange, returns_bind, returns_intSum (by omega) (by omega), returns_pure,
      htotal]
    refine ⟨hkept.memStartBrk_eq, hkept.memMaxAddr_eq, hbrk.le.trans (Nat.le_add_right _ _), _,
      hcount.next hk hholds hr hkept.memStartBrk_eq hbrk.ge ?_⟩
    rw [← htotal, volumeStep]
    dsimp only
    rw [Int.toNat_natCast, Int.toNat_natCast, hheld]
    rfl

theorem utilOp_free (hcount : Counts c numIds before h s held live) (hk : pkg.Keeps c)
    {i n : Nat} {size : Int} (hheld : held i = some n) :
    Returns (utilOp pkg s ⟨.free, i, size⟩) h (Proceeds c h ⟨.free, i, size⟩ fun s' h' ↦
      ∃ live', Counts c numIds (before ++ [⟨.free, i, size⟩]) h' s'
        (Function.update held i none) live') := by
  obtain ⟨p, hp, hn, hlive⟩ := hcount.remembers.entry i n hheld
  have hwithout := totalLength_without (hk.separated hcount.holds).nodup hlive
  have hbound := lt hcount.holds hk
  have hpeak := hcount.total_le
  rw [utilOp]
  dsimp only
  rw [returns_bind, returns_entry rfl hn, returns_bind, returns_entry rfl hp, returns_bind,
    ofSizeT_of_lt (by omega)]
  refine (hk.mmFree hcount.holds hlive).mono ?_
  rintro _ h₁ ⟨hkept, hbrk, -, hholds⟩
  have htotal : s.totalSize + -(n : Int) = (totalLength (without live p) : Nat) := by
    rw [hcount.total, hwithout]
    omega
  rw [returns_bind, returns_intSum (by omega) (by omega), returns_pure, htotal]
  have hsame : { s with totalSize := ((totalLength (without live p) : Nat) : Int) } =
      Totals.update s.tables s.maxTotalSize (totalLength (without live p) : Nat) := by
    rw [Totals.update, if_neg (by omega)]
  rw [hsame]
  refine ⟨hkept.memStartBrk_eq, hkept.memMaxAddr_eq, hbrk.le.trans (Nat.le_add_right _ _), _,
    hcount.next hk hholds (hcount.remembers.release hheld hp) hkept.memStartBrk_eq hbrk.ge ?_⟩
  rw [← htotal, volumeStep]
  dsimp only
  rw [Int.toNat_natCast, hheld]
  rfl

/-- A request of the client. -/
theorem utilOp (hcount : Counts c numIds before h s held live) (hk : pkg.Keeps c)
    (hnext : op.next numIds held = some held') (hfit : h.memBrk + op.need c < 2 ^ 32) :
    Returns (utilOp pkg s op) h (Proceeds c h op fun s' h' ↦
      ∃ live', Counts c numIds (before ++ [op]) h' s' held' live') := by
  cases TraceOp.may_of_next hnext with
  | alloc hi hpos hlt => exact hcount.utilOp_alloc hk hi hpos hlt hfit
  | realloc hi hheld hpos hle hbyte => exact hcount.utilOp_realloc hk hi hheld hpos hle
  | free hi hheld => exact hcount.utilOp_free hk hheld

end Counts

/-! ### A trace -/

/-- On a balanced trace `eval_mm_util` returns, without an overflow, the peak of its volume and the
size of the heap, which is no smaller; or it ends where it is excused. -/
theorem Package.Keeps.evalMmUtil {pkg : Package} {c : Contract} {numIds : Nat} {h : Heap}
    {tables : Tables} (hk : pkg.Keeps c) {ops : List TraceOp} (ha : h.Arena)
    (hs : tables.Sized numIds) (hops : Balanced numIds ops)
    (hfit : NoWrap c h.memMaxAddr (h.memStartBrk + c.first) ops) :
    Returns (evalMmUtil pkg ops tables) h fun result h' ↦
      h'.memStartBrk = h.memStartBrk ∧ h'.memMaxAddr = h.memMaxAddr ∧ match result with
        | .ok (maxTotalSize, heapsize) => Peak ops maxTotalSize ∧ maxTotalSize ≤ heapsize ∧
            heapsize ≤ c.first + needs c ops ∧ h'.memBrk = h.memStartBrk + heapsize ∧
            ∃ live, c.Holds h' live
        | .error (i, e) => ExcusedAt c (maxHeap - c.first) ops i e := by
  obtain ⟨held', hfold⟩ := Option.isSome_iff_exists.mp hops
  have hreset : (memResetBrk h).Arena := ⟨ha.aligned, ha.nonnull, ha.size, ha.below⟩
  rw [Driver.evalMmUtil, returns_bind, returns_modify]
  refine (hk.mmInit none hreset rfl).bind ?_
  rintro r h₁ ⟨rfl, hkept, hfirst, -, hh₁⟩
  have hstart₁ : h₁.memStartBrk = h.memStartBrk := hkept.memStartBrk_eq
  have hmax₁ : h₁.memMaxAddr = h.memMaxAddr := hkept.memMaxAddr_eq
  have hcount : Counts c numIds [] h₁ ⟨tables, 0, 0⟩ (fun _ ↦ none) [] :=
    ⟨hh₁, ⟨hs, by simp, by simp⟩, rfl, rfl, peak_nil, Int.natCast_nonneg _⟩
  rw [if_neg (by decide)]
  refine (returns_evalOps (I := fun before h s held ↦ ∃ live, Counts c numIds before h s held live)
    (fun _ _ _ _ ⟨_, hcount⟩ ↦ (hk.arena hcount.holds).2.2)
    (fun ⟨_, hcount⟩ hnext hfit ↦ hcount.utilOp hk hnext hfit)
    [] 0 ⟨[], hcount⟩ hfold (hmax₁ ▸ hfit.mono hfirst)).bind ?_
  rintro result h₂ ⟨hstart₂, hmax₂, hresult⟩
  cases result with
  | error x =>
    obtain ⟨j, hj, before, op, after, rfl, rfl, hexcused⟩ := hresult
    dsimp only
    rw [returns_pure]
    refine ⟨hstart₂.trans hstart₁, hmax₂.trans hmax₁, before, op, after, rfl,
      hj.trans (Nat.zero_add _), hexcused.imp_left ?_⟩
    rintro ⟨htype, he, hfull⟩
    have hsize := ha.size
    have hstart : (memResetBrk h).memStartBrk = h.memStartBrk := rfl
    exact ⟨htype, he, by omega⟩
  | ok s =>
    obtain ⟨⟨live, hcount⟩, hgrown⟩ := hresult
    obtain ⟨harena, hlow, hhigh⟩ := hk.arena hcount.holds
    have hbelow := harena.below
    have hsize : memHeapsize h₂ = h₂.memBrk - h₂.memStartBrk := subWord_of_le hlow (by omega)
    dsimp only
    rw [returns_bind, returns_get, returns_pure, hsize]
    have hstart : (memResetBrk h).memStartBrk = h.memStartBrk := rfl
    exact ⟨hstart₂.trans hstart₁, hmax₂.trans hmax₁, hcount.peak, hcount.fits, by omega, by omega,
      live, hcount.holds⟩

end SystemProgramming.MemoryLab.Driver
