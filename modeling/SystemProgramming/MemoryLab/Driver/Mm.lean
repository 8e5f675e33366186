import SystemProgramming.MemoryLab.Driver.Util
import SystemProgramming.MemoryLab.Driver.Valid
import SystemProgramming.MemoryLab.Exit
import SystemProgramming.MemoryLab.Limits

/-!
# The driver on `mm.c`

`mm.c` keeps the contract of the driver's client (`keeps_mm`): its sessions are the heaps that hold a
settled shape, and a request takes from `mem_sbrk` at most one block of its aligned size, or eight of
them where bulk blocks are made. So the driver finds `mm.c` valid on every balanced trace for which
the arena has room, whatever earlier traces have left in the arena and in the tables
(`mm_valid`).
-/

set_option autoImplicit false
set_option relaxedAutoImplicit false

namespace SystemProgramming.MemoryLab.Driver

open Library

/-- The functions of `mm.c`, on a `mem_sbrk` that does not refuse what fits. -/
def mm : Package where
  mmInit := fun ranges ↦ do
    modify fun h ↦ { h with sbrkRefused := false }
    MemoryLab.mmInit ranges
  mmMalloc := fun size ↦ (Request.malloc size false).serve
  mmFree := MemoryLab.mmFree
  mmRealloc := MemoryLab.mmRealloc
  mmExit := do
    let _ ← MemoryLab.mmExit
    pure ()

/-- What a client may rely on. -/
def mmContract : Contract where
  Holds := fun h live ↦ ∃ σ, Session.Consistent ⟨h, live⟩ σ
  first := (sizeClassNum + 2) * dsize
  need := fun size ↦ sbrkAmount (align (addWord size dsize))
  Reallocates := True

variable {h : Heap} {live : List (Nat × Nat)} {σ σ' : Shape} {p n : Nat}

theorem place_brk (φ : Focus) (asize cls brk : Nat) : (φ.place asize cls brk).brk = brk := by
  unfold Focus.place
  dsimp only
  split_ifs <;> rfl

/-- The break moves up, by no more than what is asked of `mem_sbrk`. -/
theorem malloc_brk {limit size : Nat} {refused : Bool}
    (hm : σ.malloc limit refused size = some (p, σ')) :
    σ.brk ≤ σ'.brk ∧ σ'.brk ≤ σ.brk + sbrkAmount (align (addWord size dsize)) := by
  unfold Shape.malloc at hm
  generalize align (addWord size dsize) = asize at hm ⊢
  dsimp only at hm
  by_cases hzero : size = 0
  · rw [if_pos hzero, Option.some.injEq, Prod.mk.injEq] at hm
    rw [← hm.2]
    exact ⟨Nat.le_refl _, Nat.le_add_right _ _⟩
  rw [if_neg hzero] at hm
  cases hfit : σ.fit asize with
  | some found =>
    rw [hfit] at hm
    obtain ⟨φ, -, heq⟩ := Option.map_eq_some_iff.mp hm
    rw [← (Prod.mk.inj heq).2, place_brk]
    exact ⟨Nat.le_refl _, Nat.le_add_right _ _⟩
  | none =>
    rw [hfit] at hm
    dsimp only at hm
    split_ifs at hm
    · rw [← (Prod.mk.inj (Option.some.inj hm)).2]
      exact ⟨Nat.le_refl _, Nat.le_add_right _ _⟩
    · rw [← (Prod.mk.inj (Option.some.inj hm)).2, place_brk]
      exact ⟨Nat.le_add_right _ _, Nat.le_refl _⟩
    · rw [← (Prod.mk.inj (Option.some.inj hm)).2, place_brk]
      exact ⟨Nat.le_add_right _ _, Nat.le_refl _⟩

variable (hc : Session.Consistent ⟨h, live⟩ σ) (hp : (p, n) ∈ live)

include hc in
theorem arena_of_consistent : h.Arena ∧ h.memStartBrk + 272 ≤ h.memBrk ∧ h.memBrk ≤ h.memMaxAddr := by
  have hle := hc.heap.proper.tiles.le
  have hbrk := hc.heap.brk_eq
  have hmax := hc.heap.brk_le
  unfold firstBlock at hle
  dsimp only at hle hbrk hmax
  exact ⟨hc.heap.arena, by omega, by omega⟩

include hc hp in
/-- The payload of a block that is held lies in the block, and that in the heap. -/
theorem block_of_consistent : p % 8 = 0 ∧ h.memStartBrk + 272 ≤ p ∧ n + 8 ≤ Request.blockSize h p ∧
    p + Request.blockSize h p ≤ h.memBrk ∧ Request.blockSize h p % 8 = 0 := by
  obtain ⟨b, hb, -, rfl, hroom⟩ := hc.accounts.owner p n hp
  obtain ⟨haligned, hmod, -, hlow, hhigh⟩ := hc.heap.geometry.block b hb
  have hsize : Request.blockSize h b.addr = b.size := hc.blockSize_eq hb
  have hbrk := hc.heap.brk_eq
  unfold firstBlock at hlow
  dsimp only at hlow hbrk
  rw [hsize]
  exact ⟨haligned, hlow, hroom, by omega, hmod⟩

include hc in
/-- `mm_malloc`, for the driver. -/
theorem mmMalloc_of_consistent {size : Nat} (hpos : 0 < size) (hlt : size < 2 ^ 31)
    (hfit : h.memBrk + sbrkAmount (align (addWord size dsize)) < 2 ^ 32) :
    Returns (Request.malloc size false).serve h fun p h' ↦ Kept h live h' ∧
      h'.glRanges = h.glRanges ∧ h.memBrk ≤ h'.memBrk ∧
      h'.memBrk ≤ h.memBrk + sbrkAmount (align (addWord size dsize)) ∧
        if p = null then h.memMaxAddr < h.memBrk + sbrkAmount (align (addWord size dsize))
        else ∃ σ', Session.Consistent ⟨h', (p, size) :: live⟩ σ' := by
  obtain ⟨harena, hlow, hmax⟩ := arena_of_consistent hc
  have hbrk : h.memBrk = σ.brk := hc.heap.brk_eq
  have hsize := harena.size
  have hbelow := harena.below
  unfold maxHeap at hsize
  cases hm : σ.malloc h.memMaxAddr false size with
  | none =>
    have hwrap := ((Shape.malloc_eq_none hc.settled.proper hpos rfl).mp hm).2.2
    omega
  | some x =>
    obtain ⟨q, σ'⟩ := x
    refine (hc.serve_malloc hpos hlt hm).mono ?_
    rintro p h' ⟨rfl, hserving⟩
    have hbrk' : h'.memBrk = σ'.brk := hserving.consistent.heap.brk_eq
    obtain ⟨hup, hgrown⟩ := malloc_brk hm
    refine ⟨⟨hserving.memStartBrk_eq, hserving.memMaxAddr_eq, fun q k hq a hlow hhigh ↦
      hserving.kept a ⟨q, k, hq, hlow, hhigh⟩⟩, hserving.glRanges_eq.trans Option.map_id_apply,
      by omega, by omega, ?_⟩
    have hconsistent := hserving.consistent
    rw [Request.account] at hconsistent
    by_cases hp : p = null
    · rw [if_pos hp]
      subst hp
      obtain ⟨-, hrefused | hhalf | hlimit⟩ :=
        (Shape.malloc_null_iff hc.settled hpos hlt rfl).mp ⟨σ', hm⟩
      · simp at hrefused
      · omega
      · rw [addWord_of_lt (by omega)] at hlimit
        omega
    · rw [if_neg hp] at hconsistent ⊢
      exact ⟨σ', hconsistent⟩

include hc hp in
/-- `mm_free`, for the driver. -/
theorem mmFree_of_consistent : Returns (MemoryLab.mmFree p) h fun _ h' ↦
    Kept h (without live p) h' ∧ h'.memBrk = h.memBrk ∧
      h'.glRanges = h.glRanges.map (fun rs ↦ removeRange rs p) ∧
      ∃ σ', Session.Consistent ⟨h', without live p⟩ σ' := by
  obtain ⟨φ, hfocus, -⟩ := hc.focus hp
  have hm : σ.free p = some (φ.free.shape σ.brk) := by rw [Shape.free, hfocus, Option.map_some]
  have hserved := hc.serve_free hp hm
  rw [Request.serve, returns_bind] at hserved
  refine hserved.mono fun _ h' hafter ↦ ?_
  rw [returns_pure] at hafter
  obtain ⟨-, hserving⟩ := hafter
  refine ⟨⟨hserving.memStartBrk_eq, hserving.memMaxAddr_eq, fun q k hq a hlow hhigh ↦ ?_⟩, ?_,
    hserving.glRanges_eq, _, hserving.consistent⟩
  · obtain ⟨hq, hne⟩ := mem_without.mp hq
    exact hserving.kept a ⟨q, k, hq, hne, hlow, hhigh⟩
  · exact hserving.consistent.heap.brk_eq.trans hc.heap.brk_eq.symm

include hc hp in
/-- `mm_realloc`, for the driver: the block stays where it is. -/
theorem mmRealloc_of_consistent {t : Nat} (hpos : 0 < t) (hle : t ≤ n) :
    Returns (MemoryLab.mmRealloc p t) h fun q h' ↦ Kept h (without live p) h' ∧
      h'.memBrk = h.memBrk ∧ h'.glRanges = h.glRanges ∧ q = p ∧ q ≠ null ∧
      (∃ σ', Session.Consistent ⟨h', (q, t) :: without live p⟩ σ') ∧
      ∀ i < t, h'.bytes (p + i) = h.bytes (p + i) := by
  obtain ⟨φ, hfocus, -⟩ := hc.focus hp
  obtain ⟨harena, -, hmax⟩ := arena_of_consistent hc
  obtain ⟨-, hlow, hroom, hhigh, hmod⟩ := block_of_consistent hc hp
  have hsize := harena.size
  unfold maxHeap at hsize
  have htlt : t < 2 ^ 31 := by omega
  obtain ⟨⟨hasize, -⟩, hfirst, hlast⟩ := align_request hpos htlt
  have hm : σ.shrink p t = some ((φ.shrink (align (addWord t dsize))).shape σ.brk) := by
    rw [Shape.shrink, hfocus, Option.map_some]
  have hserved := hc.serve_realloc hp hpos htlt (by dsimp only; omega) hm
  rw [Request.serve] at hserved
  refine hserved.mono ?_
  rintro q h' ⟨rfl, hserving⟩
  have hnonnull : q ≠ null := by
    unfold null
    omega
  have hconsistent := hserving.consistent
  rw [Request.account, if_neg hnonnull] at hconsistent
  refine ⟨⟨hserving.memStartBrk_eq, hserving.memMaxAddr_eq, fun r k hr a hrlow hrhigh ↦ ?_⟩,
    hconsistent.heap.brk_eq.trans hc.heap.brk_eq.symm,
    hserving.glRanges_eq.trans Option.map_id_apply, rfl, hnonnull, ⟨_, hconsistent⟩, fun i hi ↦ ?_⟩
  · obtain ⟨hr, hne⟩ := mem_without.mp hr
    exact hserving.kept a (Or.inl ⟨r, k, hr, hne, hrlow, hrhigh⟩)
  · exact hserving.kept (q + i) (Or.inr ⟨by omega, by omega⟩)

include hc in
/-- `mm_exit`, for the driver: it leaves no range. -/
theorem mmExit_of_consistent {ranges : List Range} (hranges : h.glRanges = some ranges)
    (hperm : (ranges.map Range.lo).Perm (live.map Prod.fst)) :
    Returns MemoryLab.mmExit h fun _ h' ↦ h'.memStartBrk = h.memStartBrk ∧
      h'.memMaxAddr = h.memMaxAddr ∧ h'.glRanges = some [] := by
  have hlive := hc.live_perm
  have hlength := hc.settled.proper.tiles.length_le hc.settled.proper.sized
  have hlt := hc.heap.brk_lt
  have hsweep : Sweep h σ none none σ.blocks (firstBlock h.memStartBrk) :=
    ⟨hc.heap, hc.settled, rfl, by simp, by simp, hc.settled.proper.tiles⟩
  have hfuel : (Option.toList none ++ σ.blocks).length < loopFuel := by
    rw [Option.toList_none, List.nil_append]
    unfold loopFuel
    omega
  rw [MemoryLab.mmExit, returns_bind, returns_get, returns_bind,
    returns_iff_of_eq hc.heap.walk.1]
  refine (hsweep.exitLoop hfuel).mono ?_
  rintro freed h' ⟨rfl, hstart, -, hranges', σ', done, hi, -⟩
  refine ⟨hstart, ?_, ?_⟩
  · rw [hi.arena.size, hstart, ← hc.heap.arena.size]
  · rw [hranges', hranges, Option.map_some, foldl_removeRange (hperm.trans hlive.symm)]

/-- `mm.c` keeps the contract. -/
theorem keeps_mm : mm.Keeps mmContract where
  arena := fun ⟨σ, hc⟩ ↦ by
    obtain ⟨harena, hlow, hhigh⟩ := arena_of_consistent hc
    exact ⟨harena, by omega, hhigh⟩
  extent := fun ⟨σ, hc⟩ hp ↦ by
    obtain ⟨haligned, hlow, hroom, hhigh, -⟩ := block_of_consistent hc hp
    exact ⟨haligned, by omega, by omega⟩
  separated := fun ⟨σ, hc⟩ ↦ ⟨hc.accounts.nodup, fun p n q k hp hq hne ↦
    hc.extents_disjoint hp hq hne⟩
  write := fun {h live p n a} v ⟨σ, hc⟩ hp hlow hhigh ↦ by
    obtain ⟨-, -, hroom, -⟩ := block_of_consistent hc hp
    exact ⟨σ, hc.write v hp hlow (by dsimp only; omega)⟩
  ranges := fun rs ⟨σ, hc⟩ ↦ ⟨σ, hc.ranges rs⟩
  mmInit := fun {h} ranges ha hbrk ↦ by
    have harena : Heap.Arena { h with sbrkRefused := false } :=
      ⟨ha.aligned, ha.nonnull, ha.size, ha.below⟩
    change Returns (modify _ >>= fun _ ↦ MemoryLab.mmInit ranges) h _
    rw [returns_bind, returns_modify]
    refine (returns_mmInit harena hbrk rfl ranges).mono ?_
    rintro r h' ⟨rfl, hstart, hmax, hranges, hi⟩
    have hsettled := settled_emptyShape h.memStartBrk
    refine ⟨rfl, ⟨hstart, hmax, by simp⟩, hi.brk_eq.le, hranges, _, ⟨hi, ?_⟩, hstart.symm ▸ hsettled⟩
    exact ⟨List.nodup_nil, by simp, by simp [emptyShape]⟩
  mmMalloc := fun ⟨σ, hc⟩ hpos hlt hfit ↦ mmMalloc_of_consistent hc hpos hlt hfit
  mmFree := fun ⟨σ, hc⟩ hp ↦ mmFree_of_consistent hc hp
  mmRealloc := fun {h live p n t} ⟨σ, hc⟩ hp hpos hle ↦ by
    refine (mmRealloc_of_consistent hc hp hpos hle).mono ?_
    rintro q h' ⟨hkept, hbrk, hranges, rfl, hnonnull, hconsistent, hbytes⟩
    refine ⟨hkept, hbrk, hranges, ?_⟩
    rw [if_neg hnonnull]
    exact ⟨hconsistent, hbytes⟩
  mmExit := fun {h live rs} ⟨σ, hc⟩ hranges hperm ↦ by
    change Returns (MemoryLab.mmExit >>= fun _ ↦ pure ()) h _
    rw [returns_bind]
    exact (mmExit_of_consistent hc hranges hperm).mono fun _ _ h ↦ (returns_pure ..).mpr h

/-! ### The verdict on `mm.c` -/

/-- The memory that a trace may take: for each request its aligned size, eight times over where bulk
blocks are made. -/
def traceNeed (ops : List TraceOp) : Nat :=
  (ops.map fun op ↦
    if op.type = .alloc then sbrkAmount (align (addWord op.size.toNat dsize)) else 0).sum

/-- With room in the arena no request carries the break past the last address. -/
theorem noWrap_of_room {ops : List TraceOp} (ha : h.Arena) (hroom : 272 + traceNeed ops ≤ maxHeap) :
    NoWrap mmContract h.memMaxAddr (h.memStartBrk + mmContract.first) ops := by
  have hneed : needs mmContract ops = traceNeed ops := rfl
  have hfirst : mmContract.first = 272 := rfl
  have hsize := ha.size
  have hbelow := ha.below
  exact Or.inr (by omega)

/-- Nor does it in an arena that ends early enough for each request. -/
theorem noWrap_of_end {ops : List TraceOp} (ha : h.Arena) (hend : ∀ op ∈ ops, op.type = .alloc →
    h.memMaxAddr + sbrkAmount (align (addWord op.size.toNat dsize)) < 2 ^ 32) :
    NoWrap mmContract h.memMaxAddr (h.memStartBrk + mmContract.first) ops := by
  refine Or.inl fun op hop ↦ ?_
  unfold TraceOp.need
  split_ifs with halloc
  · exact hend op hop halloc
  · exact ha.below

/-- With room in the arena nothing is excused. -/
theorem not_excusedAt_of_room {ops : List TraceOp} (hroom : 272 + traceNeed ops ≤ maxHeap) (i : Nat)
    (e : Complaint) : ¬ ExcusedAt mmContract (maxHeap - mmContract.first) ops i e := by
  have hneed : needs mmContract ops = traceNeed ops := rfl
  have hfirst : mmContract.first = 272 := rfl
  exact not_excusedAt (by omega) trivial

/-- On a balanced trace, whatever is in the arena and in the tables, the driver comes to an end on
`mm.c`. With room for all that the trace may take it finds `mm.c` valid, with no range left. Without,
if no request can carry the break past the end of the address space, it may also complain that
`mm_malloc` has failed, at a request up to which the trace may take more than the arena has. -/
theorem mm_valid {numIds : Nat} {ops : List TraceOp} {tables : Tables} {h : Heap} (ha : h.Arena)
    (hs : tables.Sized numIds) (hops : Balanced numIds ops) :
    (272 + traceNeed ops ≤ maxHeap → ∃ tables' h', evalMmValid mm ops tables h =
      some (.ok tables', h') ∧ tables'.Sized numIds ∧ h'.glRanges = some []) ∧
    ((∀ op ∈ ops, op.type = .alloc →
        h.memMaxAddr + sbrkAmount (align (addWord op.size.toNat dsize)) < 2 ^ 32) →
      ∃ result h', evalMmValid mm ops tables h = some (result, h') ∧ match result with
        | .ok tables' => tables'.Sized numIds ∧ h'.glRanges = some []
        | .error (i, e) => e = .mallocFailed ∧ ∃ before op after, ops = before ++ op :: after ∧
            i = before.length ∧ op.type = .alloc ∧ maxHeap < 272 + traceNeed (before ++ [op])) := by
  constructor
  · intro hroom
    obtain ⟨result, h', hrun, -, -, hresult⟩ :=
      keeps_mm.evalMmValid ha hs hops (noWrap_of_room ha hroom)
    cases result with
    | ok tables' => exact ⟨tables', h', hrun, hresult⟩
    | error x => exact absurd hresult (not_excusedAt_of_room hroom x.1 x.2)
  · intro hend
    obtain ⟨result, h', hrun, -, -, hresult⟩ :=
      keeps_mm.evalMmValid ha hs hops (noWrap_of_end ha hend)
    refine ⟨result, h', hrun, ?_⟩
    cases result with
    | ok tables' => exact hresult
    | error x =>
      obtain ⟨before, op, after, hsplit, hi, ⟨halloc, he, hfull⟩ | ⟨-, -, hmissing⟩⟩ := hresult
      · refine ⟨he, before, op, after, hsplit, hi, halloc, ?_⟩
        have hneed : ∀ ops, needs mmContract ops = traceNeed ops := fun _ ↦ rfl
        have hlast : traceNeed (before ++ [op]) = traceNeed before + op.need mmContract := by
          rw [← hneed, ← hneed, needs, needs, List.map_append, List.sum_append]
          simp
        rw [hneed] at hfull
        rw [hlast]
        have hfirst : mmContract.first = 272 := rfl
        omega
      · exact absurd trivial hmissing

theorem mm_valid_sampleOps : ∃ tables' h', evalMmValid mm sampleOps
    ⟨[none, none], [none, none]⟩ ⟨fun _ ↦ 0, 4096, 4096, 4096 + maxHeap, false, 0, 0, none⟩ =
      some (.ok tables', h') ∧ h'.glRanges = some [] := by
  have harena : Heap.Arena ⟨fun _ ↦ 0, 4096, 4096, 4096 + maxHeap, false, 0, 0, none⟩ :=
    ⟨by decide, by decide, rfl, by decide⟩
  obtain ⟨tables', h', hrun, -, hranges⟩ :=
    (mm_valid harena (show Tables.Sized ⟨[none, none], [none, none]⟩ 2 from ⟨rfl, rfl⟩)
      (show Balanced 2 sampleOps by decide)).1 (by decide)
  exact ⟨tables', h', hrun, hranges⟩

/-- The utilization that the driver reports for `mm.c` on a balanced trace for which the arena has
room: the peak of the volume of the trace, without an overflow on the way, to a size of the heap that
is no smaller, at least the 272 bytes of the lists and tags, and at most what the trace may take. -/
theorem mm_util {numIds : Nat} {ops : List TraceOp} {tables : Tables} {h : Heap} (ha : h.Arena)
    (hs : tables.Sized numIds) (hops : Balanced numIds ops)
    (hroom : 272 + traceNeed ops ≤ maxHeap) :
    ∃ (maxTotalSize : Int) (heapsize : Nat) (h' : Heap),
      evalMmUtil mm ops tables h = some (.ok (maxTotalSize, heapsize), h') ∧
      Peak ops maxTotalSize ∧ maxTotalSize ≤ heapsize ∧ 272 ≤ heapsize ∧
      heapsize ≤ 272 + traceNeed ops := by
  obtain ⟨result, h', hrun, hstart, -, hresult⟩ :=
    keeps_mm.evalMmUtil ha hs hops (noWrap_of_room ha hroom)
  cases result with
  | ok x =>
    obtain ⟨hpeak, hle, hgrown, hbrk, live, σ, hc⟩ := hresult
    have hlow := (arena_of_consistent hc).2.1
    exact ⟨x.1, x.2, h', hrun, hpeak, hle, by omega, hgrown⟩
  | error x => exact absurd hresult (not_excusedAt_of_room hroom x.1 x.2)

set_option maxRecDepth 4000 in
/-- On the sample trace the driver reports a maximum of 700 bytes. -/
theorem mm_util_sampleOps : ∃ heapsize h', evalMmUtil mm sampleOps
    ⟨[none, none], [none, none]⟩ ⟨fun _ ↦ 0, 4096, 4096, 4096 + maxHeap, false, 0, 0, none⟩ =
      some (.ok (700, heapsize), h') ∧ 700 ≤ heapsize := by
  have harena : Heap.Arena ⟨fun _ ↦ 0, 4096, 4096, 4096 + maxHeap, false, 0, 0, none⟩ :=
    ⟨by decide, by decide, rfl, by decide⟩
  obtain ⟨maxTotalSize, heapsize, h', hrun, hpeak, hle, -⟩ :=
    mm_util harena (show Tables.Sized ⟨[none, none], [none, none]⟩ 2 from ⟨rfl, rfl⟩)
      (show Balanced 2 sampleOps by decide) (by decide)
  have hsample : Peak sampleOps 700 := ((((peak_nil.concat ⟨.alloc, 0, 600⟩).concat
    ⟨.alloc, 1, 100⟩).concat ⟨.realloc, 0, 300⟩).concat ⟨.alloc, 1, 8⟩).concat ⟨.free, 0, 0⟩
  obtain rfl := hpeak.unique hsample
  exact ⟨heapsize, h', hrun, by omega⟩

end SystemProgramming.MemoryLab.Driver
