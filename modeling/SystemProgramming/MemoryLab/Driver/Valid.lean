import SystemProgramming.MemoryLab.Driver.Client

/-!
# What `eval_mm_valid` says of a package that keeps its contract

On a balanced trace a package that keeps a contract is found valid, unless the arena is full or the
package does not implement `mm_realloc` (`Package.Keeps.evalMmValid`). What a trace leaks `mm_exit`
has to release. The invariant is `Tracks`: the contract holds, and the driver's `Books` are right.
-/

set_option autoImplicit false
set_option relaxedAutoImplicit false

namespace SystemProgramming.MemoryLab.Driver

open Library

/-! ### The driver's books -/

/-- The extent of a payload. -/
def payload (e : Nat × Nat) : Range := ⟨e.1, e.1 + e.2 - 1⟩

/-- What the driver knows of the blocks: a range for each of them, and for each id that is held its
pointer and size, with its byte in the payload. -/
structure Books (numIds : Nat) (h : Heap) (tables : Tables) (held : Nat → Option Nat)
    (live : List (Nat × Nat)) : Prop extends Remembers numIds tables held live where
  positive : ∀ p n, (p, n) ∈ live → 0 < n
  ranges : ∃ ranges, h.glRanges = some ranges ∧ ranges.Perm (live.map payload)
  filled : ∀ i n p, held i = some n → tables.blocks[i]? = some (some p) →
    ∀ a, p ≤ a → a < p + n → h.bytes a = UInt8.ofInt i

/-- Of different pointers only the first with an address is that address. -/
theorem eraseP_eq_without {live : List (Nat × Nat)} (hnodup : (live.map Prod.fst).Nodup) (p : Nat) :
    live.eraseP (fun e ↦ e.1 = p) = without live p := by
  induction live with
  | nil => rfl
  | cons e live ih =>
    obtain ⟨hfresh, hrest⟩ := List.nodup_cons.mp hnodup
    by_cases he : e.1 = p
    · have hall : without live p = live := List.filter_eq_self.mpr fun f hf ↦ by
        simpa using fun hfp ↦ hfresh (List.mem_map.mpr ⟨f, hf, hfp.trans he.symm⟩)
      rw [List.eraseP_cons_of_pos (by simpa using he), without,
        List.filter_cons_of_neg (by simpa using he)]
      exact hall.symm
    · rw [List.eraseP_cons_of_neg (by simpa using he), ih hrest, without, without,
        List.filter_cons_of_pos (by simpa using he)]

/-- The range of a pointer leaves the list. -/
theorem removeRange_perm {ranges : List Range} {live : List (Nat × Nat)}
    (hnodup : (live.map Prod.fst).Nodup) (hperm : ranges.Perm (live.map payload)) (p : Nat) :
    (removeRange ranges p).Perm ((without live p).map payload) := by
  have hpairwise : ranges.Pairwise fun r s ↦ r.lo = p → s.lo = p → False := by
    have hlos : (ranges.map Range.lo).Nodup := by
      refine (hperm.map Range.lo).nodup_iff.mpr ?_
      rwa [List.map_map]
    exact (List.pairwise_map.mp hlos).imp fun hne hr hs ↦ hne (hr.trans hs.symm)
  have herased := hperm.eraseP (fun r ↦ decide (r.lo = p)) (by simpa using hpairwise)
  rw [List.eraseP_map] at herased
  rw [← eraseP_eq_without hnodup]
  exact herased

namespace Books

variable {numIds : Nat} {h h' : Heap} {tables : Tables} {held : Nat → Option Nat}
  {live : List (Nat × Nat)} {i p n : Nat}

/-- The pointer of an id is that of its entry. -/
theorem mem_live (hb : Books numIds h tables held live) (hi : held i = some n)
    (hp : tables.blocks[i]? = some (some p)) : (p, n) ∈ live := by
  obtain ⟨q, hq, -, hlive⟩ := hb.entry i n hi
  obtain rfl := Option.some.inj (Option.some.inj (hq.symm.trans hp))
  exact hlive

theorem kept (hb : Books numIds h tables held live) (hkept : Kept h live h')
    (hranges : h'.glRanges = h.glRanges) : Books numIds h' tables held live where
  toRemembers := hb.toRemembers
  positive := hb.positive
  ranges := hranges ▸ hb.ranges
  filled := fun i n p hi hp a hlow hhigh ↦
    (hkept.bytes p n (hb.mem_live hi hp) a hlow hhigh).trans (hb.filled i n p hi hp a hlow hhigh)

/-- An id is no longer held, but its block stays. -/
theorem forget (hb : Books numIds h tables held live) (i : Nat) :
    Books numIds h tables (Function.update held i none) live where
  toRemembers := hb.toRemembers.forget i
  positive := hb.positive
  ranges := hb.ranges
  filled := fun j n p hj ↦ hb.filled j n p (held_of_update hj).2

/-- The block of an id is gone. -/
theorem release (hb : Books numIds h tables held live) (hsep : Separated live)
    (hi : held i = some n) (hp : tables.blocks[i]? = some (some p))
    (hkept : Kept h (without live p) h')
    (hranges : h'.glRanges = h.glRanges.map fun ranges ↦ removeRange ranges p) :
    Books numIds h' tables (Function.update held i none) (without live p) := by
  have hr := hb.toRemembers.release hi hp
  refine ⟨hr, fun q k hq ↦ hb.positive q k (mem_without.mp hq).1, ?_,
    fun j k q hj hq a hlow hhigh ↦ ?_⟩
  · obtain ⟨ranges, heq, hperm⟩ := hb.ranges
    exact ⟨removeRange ranges p, by rw [hranges, heq]; rfl, removeRange_perm hsep.nodup hperm p⟩
  · obtain ⟨q', hq', -, hlive⟩ := hr.entry j k hj
    obtain rfl := Option.some.inj (Option.some.inj (hq'.symm.trans hq))
    exact (hkept.bytes q' k hlive a hlow hhigh).trans
      (hb.filled j k q' (held_of_update hj).2 hq a hlow hhigh)

/-- A block is recorded, filled and remembered under an id that is not held. -/
theorem grant (hb : Books numIds h tables held live) {q t : Nat} (hi : i < numIds) (hpos : 0 < t)
    (hsep : Separated ((q, t) :: live)) {ranges : List Range}
    (hranges : h.glRanges = some ranges) :
    Books numIds
      { h with
        glRanges := some (payload (q, t) :: ranges)
        bytes := fill h.bytes q (UInt8.ofInt i) t }
      (tables.set i q t) (Function.update held i (some t)) ((q, t) :: live) where
  toRemembers := hb.toRemembers.grant hi (not_mem_of_separated hsep)
  positive := fun p n hp ↦ by
    rcases List.mem_cons.mp hp with heq | hp
    · obtain ⟨-, rfl⟩ := Prod.mk.inj heq
      exact hpos
    · exact hb.positive p n hp
  ranges := by
    obtain ⟨ranges', heq, hperm⟩ := hb.ranges
    obtain rfl := Option.some.inj (hranges.symm.trans heq)
    exact ⟨_, rfl, hperm.cons _⟩
  filled := fun j n p hj hp a hlow hhigh ↦ by
    by_cases hji : j = i
    · subst hji
      rw [Function.update_self, Option.some.injEq] at hj
      have hself : (tables.set j q t).blocks[j]? = some (some q) :=
        List.getElem?_set_self (hb.sized.1.symm ▸ hi)
      obtain rfl := Option.some.inj (Option.some.inj (hself.symm.trans hp))
      exact if_pos ⟨hlow, hj ▸ hhigh⟩
    · rw [Function.update_of_ne hji] at hj
      have hp' : tables.blocks[j]? = some (some p) :=
        (List.getElem?_set_ne (Ne.symm hji)).symm.trans hp
      have hlive := hb.mem_live hj hp'
      have hne : q ≠ p := by
        rintro rfl
        exact not_mem_of_separated hsep n hlive
      have hapart := hsep.disjoint q t p n List.mem_cons_self (List.mem_cons_of_mem _ hlive) hne
      exact (if_neg (by omega)).trans (hb.filled j n p hj hp' a hlow hhigh)

end Books

/-! ### One request -/

/-- The allocator keeps its contract and the driver's books are right. -/
def Tracks (c : Contract) (numIds : Nat) (h : Heap) (tables : Tables) (held : Nat → Option Nat) :
    Prop := ∃ live, c.Holds h live ∧ Books numIds h tables held live

namespace Package.Keeps

variable {pkg : Package} {c : Contract} {h : Heap} {live : List (Nat × Nat)} {numIds : Nat}
  {tables : Tables} {held held' : Nat → Option Nat} {i : Nat}

/-- A new payload is recorded. -/
theorem recordRange (hk : pkg.Keeps c) {q t : Nat} {ranges : List Range}
    (hh : c.Holds h ((q, t) :: live)) (hpos : 0 < t) (hpositive : ∀ p n, (p, n) ∈ live → 0 < n)
    (hranges : h.glRanges = some ranges) (hperm : ranges.Perm (live.map payload)) :
    Returns (Driver.recordRange q t) h fun complaint h' ↦
      complaint = none ∧ h' = { h with glRanges := some (payload (q, t) :: ranges) } := by
  obtain ⟨harena, hlow, hhigh⟩ := hk.arena hh
  obtain ⟨haligned, hfirst, hlast⟩ := hk.extent hh List.mem_cons_self
  have hsize := harena.size
  have hbelow := harena.below
  have hcases : ∀ r ∈ ranges, ∃ p n, (p, n) ∈ live ∧ r = payload (p, n) := by
    intro r hr
    obtain ⟨⟨p, n⟩, hp, rfl⟩ := List.mem_map.mp (hperm.mem_iff.mp hr)
    exact ⟨p, n, hp, rfl⟩
  have hle : ∀ r ∈ ranges, r.lo ≤ r.hi := by
    intro r hr
    obtain ⟨p, n, hp, rfl⟩ := hcases r hr
    have hn := hpositive p n hp
    unfold payload
    dsimp only
    omega
  have haccepted : addRange h.memStartBrk (subWord h.memBrk 1) ranges q t =
      .ok (payload (q, t) :: ranges) := by
    refine (addRange_eq_ok_iff hpos (by unfold maxHeap at hsize; omega) (by omega) (by omega)
      (by omega) (by omega) hle).mpr ⟨⟨haligned, hfirst, ?_, ?_⟩, fun r hr ↦ Or.inl ?_, rfl⟩
    · dsimp only
      omega
    · dsimp only
      omega
    · obtain ⟨p, n, hp, rfl⟩ := hcases r hr
      have hsep := hk.separated hh
      have hne : q ≠ p := fun heq ↦
        (List.nodup_cons.mp hsep.nodup).1 (List.mem_map.mpr ⟨(p, n), hp, heq.symm⟩)
      have hapart := hsep.disjoint q t p n List.mem_cons_self (List.mem_cons_of_mem _ hp) hne
      have hn := hpositive p n hp
      unfold Apart payload
      dsimp only
      omega
  rw [Driver.recordRange, if_neg (by omega), returns_bind, returns_get, hranges]
  dsimp only
  rw [memHeapLo, memHeapHi, Int.toNat_natCast, haccepted]
  dsimp only
  rw [returns_bind, returns_set, returns_pure]
  exact ⟨rfl, rfl⟩

/-- A new block is recorded, filled and remembered under an id. -/
theorem accept (hk : pkg.Keeps c) {q t : Nat} (hh : c.Holds h ((q, t) :: live))
    (hb : Books numIds h tables (Function.update held i none) live) (hi : i < numIds) (hpos : 0 < t)
    {ranges : List Range} (hranges : h.glRanges = some ranges) :
    Tracks c numIds
      { h with
        glRanges := some (payload (q, t) :: ranges)
        bytes := Driver.fill h.bytes q (UInt8.ofInt i) t }
      (tables.set i q t) (Function.update held i (some t)) := by
  have hrecorded := hk.ranges (payload (q, t) :: ranges) hh
  rw [hranges, Option.map_some] at hrecorded
  have hgranted := hb.grant hi hpos (hk.separated hh) hranges
  rw [Function.update_idem] at hgranted
  exact ⟨_, hk.fill hrecorded (UInt8.ofInt i) List.mem_cons_self t (Nat.le_refl _), hgranted⟩

theorem evalOp_alloc (hk : pkg.Keeps c) (ht : Tracks c numIds h tables held) {size : Nat}
    (hi : i < numIds) (hpos : 0 < size) (hlt : size < 2 ^ 31)
    (hfit : h.memBrk + c.need size < 2 ^ 32) :
    Returns (evalOp pkg tables ⟨.alloc, i, size⟩) h (Proceeds c h ⟨.alloc, i, size⟩
      fun tables' h' ↦ Tracks c numIds h' tables' (Function.update held i (some size))) := by
  obtain ⟨live, hh, hb⟩ := ht
  rw [evalOp]
  dsimp only
  rw [returns_bind, toSizeT_natCast hlt]
  refine (hk.mmMalloc hh hpos hlt hfit).mono ?_
  rintro p h₁ ⟨hkept, hranges, -, hbrk, hanswer⟩
  have hneed : TraceOp.need c ⟨.alloc, i, size⟩ = c.need size := by simp [TraceOp.need]
  unfold Proceeds
  rw [returns_ite, hneed]
  by_cases hp : p = null
  · rw [if_pos hp] at hanswer
    rw [if_pos hp, returns_pure]
    exact ⟨hkept.memStartBrk_eq, hkept.memMaxAddr_eq, hbrk, Or.inl ⟨rfl, rfl, hneed ▸ hanswer⟩⟩
  · rw [if_neg hp] at hanswer
    have hb₁ := (hb.kept hkept hranges).forget i
    obtain ⟨ranges, hranges₁, hperm⟩ := hb₁.ranges
    obtain ⟨harena, hlow, hhigh⟩ := hk.arena hanswer
    obtain ⟨-, hfirst, hlast⟩ := hk.extent hanswer List.mem_cons_self
    have haccepted := hk.accept hanswer hb₁ hi hpos hranges₁
    rw [if_neg hp]
    refine (hk.recordRange hanswer hpos hb₁.positive hranges₁ hperm).bind ?_
    rintro _ h₂ ⟨rfl, hh₂⟩
    have hfirst₂ : h₂.memStartBrk ≤ p := hh₂ ▸ hfirst
    have hlast₂ : p + size ≤ h₂.memMaxAddr := hh₂ ▸ hlast.trans hhigh
    dsimp only
    rw [returns_bind, returns_memset hfirst₂ hlast₂, returns_bind,
      returns_remember hb₁.sized hi hlt, returns_pure, hh₂]
    exact ⟨hkept.memStartBrk_eq, hkept.memMaxAddr_eq, hbrk, haccepted⟩

theorem evalOp_realloc (hk : pkg.Keeps c) (ht : Tracks c numIds h tables held) {n size : Nat}
    (hi : i < numIds) (hheld : held i = some n) (hpos : 0 < size) (hle : size ≤ n)
    (hbyte : (i : Int) % 256 < 128) :
    Returns (evalOp pkg tables ⟨.realloc, i, size⟩) h (Proceeds c h ⟨.realloc, i, size⟩
      fun tables' h' ↦ Tracks c numIds h' tables' (Function.update held i (some size))) := by
  obtain ⟨live, hh, hb⟩ := ht
  obtain ⟨p, hp, hn, hlive⟩ := hb.entry i n hheld
  obtain ⟨harena, -, hbrk⟩ := hk.arena hh
  obtain ⟨-, hlow, hhigh⟩ := hk.extent hh hlive
  have hlt : n < 2 ^ 31 := by
    have hsize := harena.size
    unfold maxHeap at hsize
    omega
  rw [evalOp]
  dsimp only
  rw [returns_bind, returns_entry rfl hp, returns_bind, toSizeT_natCast (by omega)]
  refine (hk.mmRealloc hh hlive hpos hle).mono ?_
  rintro q h₁ ⟨hkept, hbrk₁, hranges, hanswer⟩
  unfold Proceeds
  rw [returns_ite]
  by_cases hq : q = null
  · rw [if_pos hq] at hanswer
    rw [if_pos hq, returns_pure]
    exact ⟨hkept.memStartBrk_eq, hkept.memMaxAddr_eq, hbrk₁.le.trans (Nat.le_add_right _ _),
      Or.inr ⟨rfl, rfl, hanswer⟩⟩
  · rw [if_neg hq] at hanswer
    obtain ⟨hh₁, hsame⟩ := hanswer
    obtain ⟨-, hfirst, hlast⟩ := hk.extent hh₁ List.mem_cons_self
    obtain ⟨ranges, hold, -⟩ := hb.ranges
    have hdropped := hk.ranges (removeRange ranges p) hh₁
    have hafter : h₁.glRanges.map (fun ranges ↦ removeRange ranges p) =
        h₁.glRanges.map fun _ ↦ removeRange ranges p := by
      rw [hranges, hold]
      rfl
    rw [if_neg hq, returns_bind, dropRange, returns_modify, returns_bind, hafter]
    -- the heap without the old range
    generalize hh₂ : { h₁ with glRanges := h₁.glRanges.map fun _ ↦ removeRange ranges p } = h₂
      at hdropped ⊢
    have hbytes₂ : h₂.bytes = h₁.bytes := by rw [← hh₂]
    have hstart₂ : h₂.memStartBrk = h.memStartBrk := by rw [← hh₂, ← hkept.memStartBrk_eq]
    have hmax₂ : h₂.memMaxAddr = h.memMaxAddr := by rw [← hh₂, ← hkept.memMaxAddr_eq]
    have hbrk₂ : h₂.memBrk = h.memBrk := by rw [← hh₂, ← hbrk₁]
    have hkept₂ : Kept h (without live p) h₂ := ⟨hstart₂, hmax₂, hbytes₂ ▸ hkept.bytes⟩
    have hb₂ := hb.release (hk.separated hh) hheld hp hkept₂ (by rw [← hh₂, ← hranges, hafter])
    obtain ⟨ranges₂, hranges₂, hperm⟩ := hb₂.ranges
    have haccepted := hk.accept hdropped hb₂ hi hpos hranges₂
    refine (hk.recordRange hdropped hpos hb₂.positive hranges₂ hperm).mono ?_
    rintro _ h₃ ⟨rfl, hh₃⟩
    have hmax₃ : h₃.memMaxAddr = h.memMaxAddr := by rw [hh₃, ← hmax₂]
    have hfirst₃ : h₃.memStartBrk ≤ q := by
      rw [hh₃]
      dsimp only
      rwa [hstart₂, ← hkept.memStartBrk_eq]
    have hlast₃ : q + size ≤ h₃.memMaxAddr := by omega
    have hmoved : ∀ a, q + 0 ≤ a → a < q + 0 + size → h₃.bytes a = UInt8.ofInt i := by
      intro a hlow' hhigh'
      obtain ⟨k, rfl⟩ := Nat.exists_eq_add_of_le hlow'
      rw [hh₃]
      dsimp only
      rw [hbytes₂, Nat.add_zero, hsame k (by omega),
        hb.filled i n p hheld hp _ (by omega) (by omega)]
    have hmin : (if (size : Int) < n then (size : Int) else n).toNat = size := by
      split_ifs <;> omega
    dsimp only
    rw [returns_bind, returns_entry rfl hn, ofSizeT_of_lt hlt, returns_bind, hmin,
      returns_sameBytes hfirst₃ (hmax₃ ▸ harena.below) 0 hlast₃ hmoved,
      decide_eq_true (Or.inr hbyte), if_neg (by simp), returns_bind, returns_memset hfirst₃ hlast₃,
      returns_bind, returns_remember hb₂.sized hi (by omega), returns_pure, hh₃]
    exact ⟨hstart₂, hmax₂, hbrk₂.le.trans (Nat.le_add_right _ _), haccepted⟩

theorem evalOp_free (hk : pkg.Keeps c) (ht : Tracks c numIds h tables held) {n : Nat} {size : Int}
    (hheld : held i = some n) :
    Returns (evalOp pkg tables ⟨.free, i, size⟩) h (Proceeds c h ⟨.free, i, size⟩
      fun tables' h' ↦ Tracks c numIds h' tables' (Function.update held i none)) := by
  obtain ⟨live, hh, hb⟩ := ht
  obtain ⟨p, hp, -, hlive⟩ := hb.entry i n hheld
  rw [evalOp]
  dsimp only
  rw [returns_bind, returns_entry rfl hp, returns_bind]
  refine (hk.mmFree hh hlive).mono ?_
  rintro _ h₁ ⟨hkept, hbrk, hranges, hh₁⟩
  rw [returns_pure]
  exact ⟨hkept.memStartBrk_eq, hkept.memMaxAddr_eq, hbrk.le.trans (Nat.le_add_right _ _), _, hh₁,
    hb.release (hk.separated hh) hheld hp hkept hranges⟩

/-- A request of the client. -/
theorem evalOp (hk : pkg.Keeps c) (ht : Tracks c numIds h tables held) {op : TraceOp}
    (hnext : op.next numIds held = some held') (hfit : h.memBrk + op.need c < 2 ^ 32) :
    Returns (evalOp pkg tables op) h
      (Proceeds c h op fun tables' h' ↦ Tracks c numIds h' tables' held') := by
  cases TraceOp.may_of_next hnext with
  | alloc hi hpos hlt => exact hk.evalOp_alloc ht hi hpos hlt hfit
  | realloc hi hheld hpos hle hbyte => exact hk.evalOp_realloc ht hi hheld hpos hle hbyte
  | free hi hheld => exact hk.evalOp_free ht hheld

/-! ### A trace -/

/-- On a balanced trace, from any heap in its arena and any entries of the tables, `eval_mm_valid`
returns, and complains only where it is excused. -/
theorem evalMmValid (hk : pkg.Keeps c) {ops : List TraceOp} (ha : h.Arena)
    (hs : tables.Sized numIds) (hops : Balanced numIds ops)
    (hfit : NoWrap c h.memMaxAddr (h.memStartBrk + c.first) ops) :
    Returns (evalMmValid pkg ops tables) h fun result h' ↦
      h'.memStartBrk = h.memStartBrk ∧ h'.memMaxAddr = h.memMaxAddr ∧ match result with
        | .ok tables' => tables'.Sized numIds ∧ h'.glRanges = some []
        | .error (i, e) => ExcusedAt c (maxHeap - c.first) ops i e := by
  obtain ⟨held', hfold⟩ := Option.isSome_iff_exists.mp hops
  have hreset : (memResetBrk h).Arena := ⟨ha.aligned, ha.nonnull, ha.size, ha.below⟩
  rw [Driver.evalMmValid, returns_bind, returns_modify]
  refine (hk.mmInit (some []) hreset rfl).bind ?_
  rintro r h₁ ⟨rfl, hkept, hfirst, hranges, hh₁⟩
  have hstart₁ : h₁.memStartBrk = h.memStartBrk := hkept.memStartBrk_eq
  have hmax₁ : h₁.memMaxAddr = h.memMaxAddr := hkept.memMaxAddr_eq
  have ht : Tracks c numIds h₁ tables fun _ ↦ none :=
    ⟨[], hh₁, ⟨hs, by simp, by simp⟩, by simp, ⟨[], hranges, List.Perm.refl _⟩, by simp⟩
  rw [if_neg (by decide)]
  refine (returns_evalOps (I := fun _ h tables held ↦ Tracks c numIds h tables held)
    (fun _ _ _ _ ⟨_, hh, _⟩ ↦ (hk.arena hh).2.2) (fun ht hnext hfit ↦ hk.evalOp ht hnext hfit)
    [] 0 ht hfold (hmax₁ ▸ hfit.mono hfirst)).bind ?_
  rintro result h₂ ⟨hstart₂, hmax₂, hresult⟩
  cases result with
  | error x =>
    obtain ⟨j, hj, before, op, after, rfl, rfl, hexcused⟩ := hresult
    dsimp only
    rw [returns_pure]
    refine ⟨hstart₂.trans hstart₁, hmax₂.trans hmax₁, before, op, after, rfl,
      hj.trans (Nat.zero_add _), hexcused.imp_left ?_⟩
    rintro ⟨htype, he, hfull⟩
    have hsize := ha.size
    have hstart : (memResetBrk h).memStartBrk = h.memStartBrk := rfl
    exact ⟨htype, he, by omega⟩
  | ok tables₂ =>
    obtain ⟨⟨live, hh₂, hb⟩, -⟩ := hresult
    obtain ⟨ranges, hranges₂, hperm⟩ := hb.ranges
    have hlos : (ranges.map Range.lo).Perm (live.map Prod.fst) := by
      have hmap := hperm.map Range.lo
      rwa [List.map_map] at hmap
    dsimp only
    refine (hk.mmExit hh₂ hranges₂ hlos).bind ?_
    rintro _ h₃ ⟨hstart₃, hmax₃, hempty⟩
    rw [returns_bind, returns_get, hempty]
    dsimp only
    rw [returns_pure]
    exact ⟨(hstart₃.trans hstart₂).trans hstart₁, (hmax₃.trans hmax₂).trans hmax₁, hb.sized, hempty⟩

end Package.Keeps

end SystemProgramming.MemoryLab.Driver
