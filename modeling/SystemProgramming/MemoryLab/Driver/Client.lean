import SystemProgramming.MemoryLab.Driver.Trace

/-!
# The client that the driver plays

A balanced trace frees and reallocates only ids that are held, asks for sizes from one byte on, and
does not let a block grow. It may allocate an id that is held; what it held is then a leak. The ids
that are reallocated have a low byte below 128, since with any other no package is found valid
(`evalMmValid_rejects`).

`returns_evalOps` takes what one request of a balanced trace preserves to the whole loop, for each of
the driver's three evaluations. It says which complaints are excused by the contract.
-/

set_option autoImplicit false
set_option relaxedAutoImplicit false

namespace SystemProgramming.MemoryLab.Driver

open Library

/-! ### Balanced traces -/

/-- The ids that are held after a request, with their sizes, when the client may make it. -/
def TraceOp.next (numIds : Nat) (held : Nat → Option Nat) (op : TraceOp) :
    Option (Nat → Option Nat) :=
  if op.index < 0 ∨ numIds ≤ op.index then none
  else match op.type, held op.index.toNat with
    | .alloc, _ =>
      if 0 < op.size ∧ op.size < 2 ^ 31 then
        some (Function.update held op.index.toNat (some op.size.toNat))
      else none
    | .realloc, some n =>
      if 0 < op.size ∧ op.size ≤ n ∧ op.index % 256 < 128 then
        some (Function.update held op.index.toNat (some op.size.toNat))
      else none
    | .free, some _ => some (Function.update held op.index.toNat none)
    | _, none => none

/-- A client that holds nothing may make these requests in turn. -/
def Balanced (numIds : Nat) (ops : List TraceOp) : Prop :=
  (ops.foldlM (TraceOp.next numIds) fun _ ↦ none).isSome

instance (numIds : Nat) (ops : List TraceOp) : Decidable (Balanced numIds ops) :=
  inferInstanceAs (Decidable (_ = true))

/-- A trace with a block that is cut down and one that is lost. -/
def sampleOps : List TraceOp :=
  [⟨.alloc, 0, 600⟩, ⟨.alloc, 1, 100⟩, ⟨.realloc, 0, 300⟩, ⟨.alloc, 1, 8⟩, ⟨.free, 0, 0⟩]

example : Balanced 2 sampleOps := by decide

/-- The memory that a request may take. -/
def TraceOp.need (c : Contract) (op : TraceOp) : Nat :=
  if op.type = .alloc then c.need op.size.toNat else 0

/-- The requests a client may make. -/
inductive TraceOp.May (numIds : Nat) (held : Nat → Option Nat) :
    TraceOp → (Nat → Option Nat) → Prop
  | alloc {i size : Nat} (hi : i < numIds) (hpos : 0 < size) (hlt : size < 2 ^ 31) :
      May numIds held ⟨.alloc, i, size⟩ (Function.update held i (some size))
  | realloc {i n size : Nat} (hi : i < numIds) (hheld : held i = some n) (hpos : 0 < size)
      (hle : size ≤ n) (hbyte : (i : Int) % 256 < 128) :
      May numIds held ⟨.realloc, i, size⟩ (Function.update held i (some size))
  | free {i n : Nat} {size : Int} (hi : i < numIds) (hheld : held i = some n) :
      May numIds held ⟨.free, i, size⟩ (Function.update held i none)

theorem TraceOp.may_of_next {numIds : Nat} {held held' : Nat → Option Nat} {op : TraceOp}
    (h : op.next numIds held = some held') : op.May numIds held held' := by
  obtain ⟨type, index, size⟩ := op
  unfold TraceOp.next at h
  dsimp only at h
  by_cases hindex : index < 0 ∨ (numIds : Int) ≤ index
  · simp [hindex] at h
  obtain ⟨i, rfl⟩ := Int.eq_ofNat_of_zero_le (a := index) (by omega)
  have hi : i < numIds := by omega
  rw [if_neg hindex, Int.toNat_natCast] at h
  cases type with
  | alloc =>
    dsimp only at h
    split_ifs at h with hsize
    obtain ⟨k, rfl⟩ := Int.eq_ofNat_of_zero_le (a := size) (by omega)
    rw [← Option.some.inj h]
    exact .alloc hi (by omega) (by omega)
  | realloc =>
    cases hheld : held i with
    | none => simp [hheld] at h
    | some n =>
      rw [hheld] at h
      dsimp only at h
      split_ifs at h with hsize
      obtain ⟨k, rfl⟩ := Int.eq_ofNat_of_zero_le (a := size) (by omega)
      rw [← Option.some.inj h]
      exact .realloc hi hheld (by omega) (by omega) hsize.2.2
  | free =>
    cases hheld : held i with
    | none => simp [hheld] at h
    | some n =>
      rw [hheld] at h
      rw [← Option.some.inj h]
      exact .free hi hheld

/-! ### Complaints that are excused -/

/-- What the driver may complain of after a request, by its contract: the arena is full, or
`mm_realloc` is not there. -/
def Excused (c : Contract) (h : Heap) (op : TraceOp) (e : Complaint) : Prop :=
  (op.type = .alloc ∧ e = .mallocFailed ∧ h.memMaxAddr < h.memBrk + op.need c) ∨
    (op.type = .realloc ∧ e = .reallocFailed ∧ ¬ c.Reallocates)

/-- The memory that requests may take. -/
def needs (c : Contract) (ops : List TraceOp) : Nat := (ops.map (TraceOp.need c)).sum

@[simp] theorem needs_nil (c : Contract) : needs c [] = 0 := rfl

@[simp] theorem needs_cons (c : Contract) (op : TraceOp) (ops : List TraceOp) :
    needs c (op :: ops) = op.need c + needs c ops := by
  simp [needs]

/-- The complaints that are excused on a trace that begins with `room` bytes left: the request did not
fit into what the requests before it had left, or it was for `mm_realloc` and that is not there. -/
def ExcusedAt (c : Contract) (room : Nat) (ops : List TraceOp) (i : Nat) (e : Complaint) : Prop :=
  ∃ before op after, ops = before ++ op :: after ∧ i = before.length ∧
    ((op.type = .alloc ∧ e = .mallocFailed ∧ room < needs c before + op.need c) ∨
      (op.type = .realloc ∧ e = .reallocFailed ∧ ¬ c.Reallocates))

/-- Nothing is excused where everything fits and `mm_realloc` is there. -/
theorem not_excusedAt {c : Contract} {room i : Nat} {ops : List TraceOp} {e : Complaint}
    (hfits : needs c ops ≤ room) (hrealloc : c.Reallocates) : ¬ ExcusedAt c room ops i e := by
  rintro ⟨before, op, after, rfl, -, ⟨-, -, hfull⟩ | ⟨-, -, hmissing⟩⟩
  · simp only [needs, List.map_append, List.map_cons, List.sum_append, List.sum_cons] at hfits
    unfold needs at hfull
    omega
  · exact hmissing hrealloc

/-! ### The loop -/

/-- No sum of the break and what a request needs passes the end of the address space: the arena ends
early enough for each, or they need little enough together. -/
def NoWrap (c : Contract) (maxAddr brk : Nat) (ops : List TraceOp) : Prop :=
  (∀ op ∈ ops, maxAddr + op.need c < 2 ^ 32) ∨ brk + needs c ops < 2 ^ 32

theorem NoWrap.head {c : Contract} {maxAddr brk : Nat} {op : TraceOp} {ops : List TraceOp}
    (h : NoWrap c maxAddr brk (op :: ops)) (hbrk : brk ≤ maxAddr) : brk + op.need c < 2 ^ 32 := by
  rcases h with hall | htotal
  · have hop := hall op List.mem_cons_self
    omega
  · rw [needs_cons] at htotal
    omega

theorem NoWrap.tail {c : Contract} {maxAddr brk brk' : Nat} {op : TraceOp} {ops : List TraceOp}
    (h : NoWrap c maxAddr brk (op :: ops)) (hbrk : brk' ≤ brk + op.need c) :
    NoWrap c maxAddr brk' ops := by
  rcases h with hall | htotal
  · exact Or.inl fun op' hop' ↦ hall op' (List.mem_cons_of_mem op hop')
  · rw [needs_cons] at htotal
    exact Or.inr (by omega)

theorem NoWrap.mono {c : Contract} {maxAddr brk brk' : Nat} {ops : List TraceOp}
    (h : NoWrap c maxAddr brk ops) (hbrk : brk' ≤ brk) : NoWrap c maxAddr brk' ops :=
  h.imp_right fun htotal ↦ by omega

/-- What a request of the client does: it leaves the arena where it is, moves the break by no more
than it may, and does as `P` says or comes to a complaint that is excused. -/
def Proceeds {α : Type} (c : Contract) (h : Heap) (op : TraceOp) (P : α → Heap → Prop)
    (result : Except Complaint α) (h' : Heap) : Prop :=
  h'.memStartBrk = h.memStartBrk ∧ h'.memMaxAddr = h.memMaxAddr ∧
    h'.memBrk ≤ h.memBrk + op.need c ∧ match result with
      | .ok a => P a h'
      | .error e => Excused c h op e

/-- An invariant that each request of the client keeps is kept by the loop, unless a complaint is
excused. It may speak of the requests so far. -/
theorem returns_evalOps {α : Type} {eval : α → TraceOp → HeapM (Except Complaint α)} {c : Contract}
    {numIds : Nat} {I : List TraceOp → Heap → α → (Nat → Option Nat) → Prop}
    (hbrk : ∀ before h a held, I before h a held → h.memBrk ≤ h.memMaxAddr)
    (hstep : ∀ {before h a held op held'}, I before h a held → op.next numIds held = some held' →
      h.memBrk + op.need c < 2 ^ 32 →
      Returns (eval a op) h (Proceeds c h op fun a' h' ↦ I (before ++ [op]) h' a' held'))
    {ops : List TraceOp} {held' : Nat → Option Nat} :
    ∀ (before : List TraceOp) {h : Heap} {a : α} {held : Nat → Option Nat} (k : Nat),
      I before h a held → ops.foldlM (TraceOp.next numIds) held = some held' →
      NoWrap c h.memMaxAddr h.memBrk ops →
      Returns (evalOps eval k ops a) h fun result h' ↦
        h'.memStartBrk = h.memStartBrk ∧ h'.memMaxAddr = h.memMaxAddr ∧ match result with
          | .ok a' => I (before ++ ops) h' a' held' ∧ h'.memBrk ≤ h.memBrk + needs c ops
          | .error (i, e) =>
            ∃ j, i = k + j ∧ ExcusedAt c (h.memMaxAddr - h.memBrk) ops j e := by
  induction ops with
  | nil =>
    intro before h a held k hI hfold _
    rw [evalOps, returns_pure, List.append_nil]
    obtain rfl := Option.some.inj hfold
    exact ⟨rfl, rfl, hI, Nat.le_add_right _ _⟩
  | cons op ops ih =>
    intro before h a held k hI hfold hfit
    rw [List.foldlM_cons] at hfold
    obtain ⟨held₁, hnext, hrest⟩ := Option.bind_eq_some_iff.mp hfold
    have hle := hbrk _ _ _ _ hI
    rw [evalOps]
    refine (hstep hI hnext (hfit.head hle)).bind ?_
    rintro result h₁ ⟨hstart, hmax, hbrk₁, hresult⟩
    cases result with
    | error e =>
      dsimp only at hresult ⊢
      rw [returns_pure]
      refine ⟨hstart, hmax, 0, rfl, [], op, ops, rfl, rfl, ?_⟩
      rcases hresult with ⟨htype, he, hfull⟩ | hmissing
      · refine Or.inl ⟨htype, he, ?_⟩
        rw [needs_nil]
        omega
      · exact Or.inr hmissing
    | ok a₁ =>
      dsimp only at hresult ⊢
      refine (ih (before ++ [op]) (k + 1) hresult hrest ?_).mono ?_
      · rw [hmax]
        exact hfit.tail hbrk₁
      · rintro result h₂ ⟨hstart₂, hmax₂, hresult₂⟩
        refine ⟨hstart₂.trans hstart, hmax₂.trans hmax, ?_⟩
        cases result with
        | ok a₂ =>
          obtain ⟨hI₂, hbrk₂⟩ := hresult₂
          rw [List.append_assoc] at hI₂
          refine ⟨hI₂, ?_⟩
          rw [needs_cons]
          omega
        | error x =>
          obtain ⟨j, hj, before', op', after, rfl, rfl, hexcused⟩ := hresult₂
          refine ⟨before'.length + 1, by omega, op :: before', op', after, rfl, rfl,
            hexcused.imp_left ?_⟩
          rintro ⟨htype, he, hfull⟩
          refine ⟨htype, he, ?_⟩
          rw [needs_cons]
          omega

/-! ### What the tables remember -/

/-- The tables hold, for each id that is held, its pointer and size, and no two ids have the same
pointer. -/
structure Remembers (numIds : Nat) (tables : Tables) (held : Nat → Option Nat)
    (live : List (Nat × Nat)) : Prop where
  sized : tables.Sized numIds
  entry : ∀ i n, held i = some n → ∃ p, tables.blocks[i]? = some (some p) ∧
    tables.blockSizes[i]? = some (some n) ∧ (p, n) ∈ live
  injective : ∀ i j p, held i ≠ none → held j ≠ none → tables.blocks[i]? = some (some p) →
    tables.blocks[j]? = some (some p) → i = j

/-- What is held without an id was held. -/
theorem held_of_update {held : Nat → Option Nat} {i j n : Nat}
    (h : Function.update held i none j = some n) : j ≠ i ∧ held j = some n := by
  by_cases hji : j = i
  · subst hji
    simp at h
  · exact ⟨hji, by rwa [Function.update_of_ne hji] at h⟩

namespace Remembers

variable {numIds : Nat} {tables : Tables} {held : Nat → Option Nat} {live : List (Nat × Nat)}
  {i p n : Nat}

/-- An id is no longer held, but its block stays. -/
theorem forget (hr : Remembers numIds tables held live) (i : Nat) :
    Remembers numIds tables (Function.update held i none) live := by
  have hheld : ∀ j, Function.update held i none j ≠ none → held j ≠ none := by
    intro j hj
    obtain ⟨n, hn⟩ := Option.ne_none_iff_exists'.mp hj
    rw [(held_of_update hn).2]
    simp
  exact ⟨hr.sized, fun j n hj ↦ hr.entry j n (held_of_update hj).2,
    fun j k p hj hk ↦ hr.injective j k p (hheld j hj) (hheld k hk)⟩

/-- The block of an id is gone. -/
theorem release (hr : Remembers numIds tables held live) (hi : held i = some n)
    (hp : tables.blocks[i]? = some (some p)) :
    Remembers numIds tables (Function.update held i none) (without live p) := by
  refine ⟨hr.sized, fun j k hj ↦ ?_, (hr.forget i).injective⟩
  obtain ⟨hji, hj⟩ := held_of_update hj
  obtain ⟨q, hq, hk, hlive⟩ := hr.entry j k hj
  refine ⟨q, hq, hk, mem_without.mpr ⟨hlive, ?_⟩⟩
  rintro rfl
  exact hji (hr.injective j i q (by rw [hj]; simp) (by rw [hi]; simp) hq hp)

/-- A new block is remembered under an id that is not held. -/
theorem grant (hr : Remembers numIds tables held live) {q t : Nat} (hi : i < numIds)
    (hfresh : ∀ n, (q, n) ∉ live) :
    Remembers numIds (tables.set i q t) (Function.update held i (some t)) ((q, t) :: live) := by
  have hblocks : (tables.set i q t).blocks[i]? = some (some q) :=
    List.getElem?_set_self (hr.sized.1.symm ▸ hi)
  have hsizes : (tables.set i q t).blockSizes[i]? = some (some t) :=
    List.getElem?_set_self (hr.sized.2.symm ▸ hi)
  have hother : ∀ j, j ≠ i → (tables.set i q t).blocks[j]? = tables.blocks[j]? :=
    fun j hji ↦ List.getElem?_set_ne (Ne.symm hji)
  -- the new pointer is that of no other id that is held
  have hnew : ∀ j, held j ≠ none → tables.blocks[j]? ≠ some (some q) := by
    intro j hj hq
    obtain ⟨n, hn⟩ := Option.ne_none_iff_exists'.mp hj
    obtain ⟨p, hp, -, hlive⟩ := hr.entry j n hn
    obtain rfl := Option.some.inj (Option.some.inj (hp.symm.trans hq))
    exact hfresh n hlive
  refine ⟨hr.sized.set i q t, fun j n hj ↦ ?_, fun j k p hj hk hjp hkp ↦ ?_⟩
  · by_cases hji : j = i
    · subst hji
      rw [Function.update_self, Option.some.injEq] at hj
      subst hj
      exact ⟨q, hblocks, hsizes, List.mem_cons_self⟩
    · rw [Function.update_of_ne hji] at hj
      obtain ⟨p, hp, hn, hlive⟩ := hr.entry j n hj
      exact ⟨p, (hother j hji).trans hp, (List.getElem?_set_ne (Ne.symm hji)).trans hn,
        List.mem_cons_of_mem _ hlive⟩
  · by_cases hji : j = i
    · by_cases hki : k = i
      · rw [hji, hki]
      · rw [hji, hblocks] at hjp
        rw [Function.update_of_ne hki] at hk
        rw [hother k hki, ← hjp] at hkp
        exact absurd hkp (hnew k hk)
    · rw [Function.update_of_ne hji] at hj
      rw [hother j hji] at hjp
      by_cases hki : k = i
      · rw [hki, hblocks] at hkp
        rw [← hkp] at hjp
        exact absurd hjp (hnew j hj)
      · rw [Function.update_of_ne hki] at hk
        rw [hother k hki] at hkp
        exact hr.injective j k p hj hk hjp hkp

end Remembers

/-- A pointer of separated extents is held once. -/
theorem not_mem_of_separated {live : List (Nat × Nat)} {q t : Nat}
    (h : Separated ((q, t) :: live)) (n : Nat) : (q, n) ∉ live := fun hlive ↦
  (List.nodup_cons.mp h.nodup).1 (List.mem_map.mpr ⟨(q, n), hlive, rfl⟩)

end SystemProgramming.MemoryLab.Driver
