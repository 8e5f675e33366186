import SystemProgramming.MemoryLab.Driver.Package
import SystemProgramming.MemoryLab.Driver.Ranges

/-!
# How `mdriver.c` checks a package

`eval_mm_valid` runs the requests of a trace on a package. It records each payload that it is given,
fills it with the low byte of the id of the block, and after `mm_realloc` looks whether that byte is
still there. The elements of the payload are of type `char`, which is signed, and are compared with
a number from 0 to 255.

What C leaves undefined has no result: an id outside the tables, an entry that was never written, an
access outside the arena, and an assertion that fails. The list of ranges is the one that the package
was given in `mm_init` and has kept.

A byte from 128 on is negative as a `char` and equals no number from 0 to 255. No package passes a
trace that reallocates a block under an id with such a low byte (`evalMmValid_rejects`).
-/

set_option autoImplicit false
set_option relaxedAutoImplicit false

namespace SystemProgramming.MemoryLab.Driver

open Library

/-! ### Traces -/

/-- The type of a request. -/
inductive OpType
  | alloc
  | free
  | realloc
  deriving DecidableEq, Repr

/-- `traceop_t`. -/
structure TraceOp where
  type : OpType
  index : Int
  size : Int
  deriving DecidableEq, Repr

/-- The arrays `blocks` and `block_sizes` of a trace. An entry has no value before it is written. -/
structure Tables where
  blocks : List (Option Nat)
  blockSizes : List (Option Nat)
  deriving DecidableEq, Repr

/-- The arrays have an entry for each of so many ids. -/
def Tables.Sized (tables : Tables) (numIds : Nat) : Prop :=
  tables.blocks.length = numIds ∧ tables.blockSizes.length = numIds

/-- Read an entry. -/
def entry (table : List (Option Nat)) (index : Int) : HeapM Nat :=
  if index < 0 then failure
  else match table[index.toNat]?.join with
    | some v => pure v
    | none => failure

/-- Write an entry. -/
def setEntry (table : List (Option Nat)) (index : Int) (v : Nat) : HeapM (List (Option Nat)) :=
  if 0 ≤ index ∧ index.toNat < table.length then pure (table.set index.toNat (some v)) else failure

/-- An `int` as an argument of type `size_t`. -/
def toSizeT (n : Int) : Nat := (n % 2 ^ 32).toNat

/-- A `size_t` as an `int`. -/
def ofSizeT (n : Nat) : Int := (n : Int).bmod (2 ^ 32)

/-- Remember a region. -/
def remember (tables : Tables) (index : Int) (p : Nat) (size : Int) : HeapM Tables := do
  let blocks ← setEntry tables.blocks index p
  let blockSizes ← setEntry tables.blockSizes index (toSizeT size)
  pure ⟨blocks, blockSizes⟩

/-! ### The checks -/

/-- The byte at an address. -/
def getByte (a : Nat) : HeapM UInt8 := do
  let h ← get
  if h.memStartBrk ≤ a ∧ a < h.memMaxAddr then pure (h.bytes a) else failure

/-- `memset`. -/
def memset (p : Nat) (v : UInt8) (n : Nat) : HeapM Unit := do
  let h ← get
  if h.memStartBrk ≤ p ∧ p + n ≤ h.memMaxAddr then set { h with bytes := fill h.bytes p v n }
  else failure

/-- `add_range`, with its assertion. -/
def recordRange (lo : Nat) (size : Int) : HeapM (Option Complaint) :=
  if size ≤ 0 then failure
  else do
    let h ← get
    match h.glRanges with
    | none => failure
    | some ranges => match addRange (memHeapLo h) (memHeapHi h) ranges lo size.toNat with
      | .error c => pure (some c)
      | .ok ranges => do
        set { h with glRanges := some ranges }
        pure none

/-- `remove_range`. -/
def dropRange (lo : Nat) : HeapM Unit :=
  modify fun h ↦ { h with glRanges := h.glRanges.map fun ranges ↦ removeRange ranges lo }

/-- The value of a `char`. -/
def charValue (b : UInt8) : Int := (b.toNat : Int).bmod (2 ^ 8)

/-- The comparisons after `mm_realloc`, from the byte `j` on. -/
def sameBytes (newp : Nat) (index : Int) : Nat → Nat → HeapM Bool
  | 0, _ => pure true
  | n + 1, j => do
    let b ← getByte (addWord newp j)
    if charValue b ≠ index % 256 then pure false else sameBytes newp index n (j + 1)

/-! ### `eval_mm_valid` -/

/-- A request: what the driver complains of, or what it has remembered. -/
def evalOp (pkg : Package) (tables : Tables) (op : TraceOp) : HeapM (Except Complaint Tables) :=
  match op.type with
  | .alloc => do
    let p ← pkg.mmMalloc (toSizeT op.size)
    if p = null then pure (.error .mallocFailed)
    else do
      let complaint ← recordRange p op.size
      match complaint with
      | some c => pure (.error c)
      | none => do
        memset p (UInt8.ofInt op.index) (toSizeT op.size)
        let tables ← remember tables op.index p op.size
        pure (.ok tables)
  | .realloc => do
    let oldp ← entry tables.blocks op.index
    let newp ← pkg.mmRealloc oldp (toSizeT op.size)
    if newp = null then pure (.error .reallocFailed)
    else do
      dropRange oldp
      let complaint ← recordRange newp op.size
      match complaint with
      | some c => pure (.error c)
      | none => do
        let blockSize ← entry tables.blockSizes op.index
        let oldsize := if op.size < ofSizeT blockSize then op.size else ofSizeT blockSize
        let same ← sameBytes newp op.index oldsize.toNat 0
        if same = false then pure (.error .notPreserved)
        else do
          memset newp (UInt8.ofInt op.index) (toSizeT op.size)
          let tables ← remember tables op.index newp op.size
          pure (.ok tables)
  | .free => do
    let p ← entry tables.blocks op.index
    pkg.mmFree p
    pure (.ok tables)

/-- The loop over the requests, from the one with number `i` on. A complaint comes with the number of
its request. -/
def evalOps {α : Type} (eval : α → TraceOp → HeapM (Except Complaint α)) :
    Nat → List TraceOp → α → HeapM (Except (Nat × Complaint) α)
  | _, [], a => pure (.ok a)
  | i, op :: ops, a => do
    let result ← eval a op
    match result with
    | .error c => pure (.error (i, c))
    | .ok a => evalOps eval (i + 1) ops a

/-- `eval_mm_valid`: a complaint with the number that it is reported under, or the tables that the run
leaves. -/
def evalMmValid (pkg : Package) (ops : List TraceOp) (tables : Tables) :
    HeapM (Except (Nat × Complaint) Tables) := do
  modify memResetBrk
  let r ← pkg.mmInit (some [])
  if r < 0 then pure (.error (0, .initFailed))
  else do
    let result ← evalOps (evalOp pkg) 0 ops tables
    match result with
    | .error e => pure (.error e)
    | .ok tables => do
      pkg.mmExit
      let h ← get
      match h.glRanges with
      | none => failure
      | some [] => pure (.ok tables)
      | some (_ :: _) => pure (.error (ops.length, .leak))

/-! ### Entries -/

variable {table : List (Option Nat)} {index : Int} {v : Nat} {h : Heap}

theorem returns_entry {i : Nat} (hindex : index = i) (hentry : table[i]? = some (some v))
    (Q : Nat → Heap → Prop) : Returns (entry table index) h Q ↔ Q v h := by
  subst hindex
  rw [entry, if_neg (by omega), Int.toNat_natCast, hentry]
  exact returns_pure _ _ _

theorem returns_setEntry {i : Nat} (hindex : index = i) (hi : i < table.length)
    (Q : List (Option Nat) → Heap → Prop) :
    Returns (setEntry table index v) h Q ↔ Q (table.set i (some v)) h := by
  subst hindex
  rw [setEntry, if_pos ⟨by omega, by rwa [Int.toNat_natCast]⟩, Int.toNat_natCast, returns_pure]

/-- The tables with a region remembered. -/
def Tables.set (tables : Tables) (i p size : Nat) : Tables :=
  ⟨tables.blocks.set i (some p), tables.blockSizes.set i (some size)⟩

theorem Tables.Sized.set {tables : Tables} {numIds : Nat} (hs : tables.Sized numIds)
    (i p size : Nat) : (tables.set i p size).Sized numIds :=
  ⟨(List.length_set ..).trans hs.1, (List.length_set ..).trans hs.2⟩

theorem toSizeT_natCast {n : Nat} (hn : n < 2 ^ 31) : toSizeT n = n := by
  unfold toSizeT
  omega

theorem ofSizeT_of_lt {n : Nat} (hn : n < 2 ^ 31) : ofSizeT n = n := by
  unfold ofSizeT
  rw [Int.bmod_eq_of_le (by omega) (by omega)]

theorem returns_remember {tables : Tables} {numIds i p size : Nat} (hs : tables.Sized numIds)
    (hi : i < numIds) (hsize : size < 2 ^ 31) (Q : Tables → Heap → Prop) :
    Returns (remember tables i p size) h Q ↔ Q (tables.set i p size) h := by
  rw [remember, returns_bind, returns_setEntry rfl (by rw [hs.1]; exact hi), returns_bind,
    returns_setEntry rfl (by rw [hs.2]; exact hi), returns_pure, toSizeT_natCast hsize]
  rfl

/-! ### Bytes -/

theorem returns_getByte {a : Nat} (hlow : h.memStartBrk ≤ a) (hhigh : a < h.memMaxAddr)
    (Q : UInt8 → Heap → Prop) : Returns (getByte a) h Q ↔ Q (h.bytes a) h := by
  rw [getByte, returns_bind, returns_get, if_pos ⟨hlow, hhigh⟩, returns_pure]

theorem returns_memset {p n : Nat} {v : UInt8} (hlow : h.memStartBrk ≤ p)
    (hhigh : p + n ≤ h.memMaxAddr) (Q : Unit → Heap → Prop) :
    Returns (memset p v n) h Q ↔ Q () { h with bytes := fill h.bytes p v n } := by
  rw [memset, returns_bind, returns_get, if_pos ⟨hlow, hhigh⟩, returns_set]

theorem toNat_ofInt (index : Int) : ((UInt8.ofInt index).toNat : Int) = index % 256 := by
  rw [UInt8.ofInt, UInt8.toNat_ofNat']
  omega

theorem bmod_eq_self_iff {x : Int} (hlow : 0 ≤ x) (hhigh : x < 256) :
    x.bmod (2 ^ 8) = x ↔ x < 128 := by
  rw [Int.bmod_def]
  push_cast
  split_ifs <;> omega

/-- A byte from 128 on is negative as a `char`. -/
theorem charValue_ofInt_eq_iff (index : Int) :
    charValue (UInt8.ofInt index) = index % 256 ↔ index % 256 < 128 := by
  unfold charValue
  rw [toNat_ofInt]
  exact bmod_eq_self_iff (by omega) (by omega)

/-- The comparisons succeed on bytes that are the byte of the id, unless that is negative as a
`char`. -/
theorem returns_sameBytes {newp : Nat} {index : Int} {n : Nat} (hlow : h.memStartBrk ≤ newp)
    (hlt : h.memMaxAddr < 2 ^ 32) :
    ∀ j, newp + j + n ≤ h.memMaxAddr →
      (∀ a, newp + j ≤ a → a < newp + j + n → h.bytes a = UInt8.ofInt index) →
      ∀ Q : Bool → Heap → Prop,
        Returns (sameBytes newp index n j) h Q ↔ Q (decide (n = 0 ∨ index % 256 < 128)) h := by
  induction n with
  | zero => simp [sameBytes]
  | succ n ih =>
    intro j hhigh hbytes Q
    rw [sameBytes, returns_bind, addWord_of_lt (by omega),
      returns_getByte (by omega) (by omega), hbytes _ (Nat.le_refl _) (by omega), returns_ite]
    by_cases hsmall : index % 256 < 128
    · rw [if_neg (not_not.mpr ((charValue_ofInt_eq_iff index).mpr hsmall)),
        ih (j + 1) (by omega) (fun a ha hlast ↦ hbytes a (by omega) (by omega))]
      simp [hsmall]
    · rw [if_pos ((charValue_ofInt_eq_iff index).not.mpr hsmall), returns_pure]
      simp [hsmall]

/-! ### Ids whose byte is negative -/

theorem charValue_lt (b : UInt8) : charValue b < 128 := by
  have hlt := b.toNat_lt
  unfold charValue
  rw [Int.bmod_def]
  push_cast
  split_ifs <;> omega

/-- A value, whatever happens to the heap. -/
abbrev Answers {α : Type} (P : α → Prop) (x : HeapM α) : Prop := Within (fun _ _ ↦ True) P x

namespace Answers

variable {α β : Type} {P : α → Prop} {T : β → Prop} {x : HeapM α}

theorem pure {a : α} (ha : P a) : Answers P (Pure.pure a : HeapM α) := Within.pure (fun _ ↦ trivial) ha

theorem bind {f : α → HeapM β} (hx : Answers P x) (hf : ∀ a, P a → Answers T (f a)) :
    Answers T (x >>= f) :=
  Within.bind (fun _ _ _ _ _ ↦ trivial) hx hf

theorem any (x : HeapM α) : Answers (fun _ ↦ True) x := fun _ _ _ _ ↦ ⟨trivial, trivial⟩

theorem failure : Answers P (Alternative.failure : HeapM α) := by
  intro s a t h
  cases h

end Answers

/-- The sizes in a table are positive as an `int`. -/
def PositiveSizes (table : List (Option Nat)) : Prop := ∀ v, some v ∈ table → 0 < ofSizeT v

theorem answers_entry (table : List (Option Nat)) (index : Int) :
    Answers (fun v ↦ some v ∈ table) (entry table index) := by
  rw [entry]
  refine Within.ite Answers.failure ?_
  cases hv : table[index.toNat]?.join with
  | none => exact Answers.failure
  | some v => exact Answers.pure (List.mem_of_getElem? (Option.join_eq_some_iff.mp hv))

/-- With a number from 128 on no byte is equal. -/
theorem answers_sameBytes {index : Int} (hbyte : 128 ≤ index % 256) (newp n j : Nat) :
    Answers (fun same ↦ 0 < n → same = false) (sameBytes newp index n j) := by
  cases n with
  | zero => exact Answers.pure (by simp)
  | succ n =>
    refine Answers.bind (Answers.any (getByte _)) fun b _ ↦ ?_
    have hb := charValue_lt b
    rw [if_pos (by omega)]
    exact Answers.pure fun _ ↦ rfl

theorem answers_setEntry {table : List (Option Nat)} (index : Int) {v : Nat}
    (hs : PositiveSizes table) (hv : 0 < ofSizeT v) :
    Answers PositiveSizes (setEntry table index v) := by
  rw [setEntry]
  refine Within.ite (Answers.pure fun w hw ↦ ?_) Answers.failure
  rcases List.mem_or_eq_of_mem_set hw with hw | hw
  · exact hs w hw
  · rwa [Option.some.inj hw]

theorem answers_remember {tables : Tables} (index : Int) (p : Nat) {size : Int}
    (hs : PositiveSizes tables.blockSizes) (hpos : 0 < size) (hlt : size < 2 ^ 31) :
    Answers (fun tables' ↦ PositiveSizes tables'.blockSizes) (remember tables index p size) := by
  obtain ⟨n, rfl⟩ := Int.eq_ofNat_of_zero_le hpos.le
  have hn : 0 < ofSizeT (toSizeT n) := by
    rw [toSizeT_natCast (by omega), ofSizeT_of_lt (by omega)]
    exact hpos
  refine Answers.bind (Answers.any _) fun blocks _ ↦ ?_
  exact Answers.bind (answers_setEntry index hs hn) fun blockSizes hsizes ↦ Answers.pure hsizes

theorem answers_recordRange (lo : Nat) (size : Int) :
    Answers (fun _ ↦ 0 < size) (recordRange lo size) := by
  rw [recordRange]
  by_cases hsize : size ≤ 0
  · rw [if_pos hsize]
    exact Answers.failure
  · rw [if_neg hsize]
    exact fun s a t h ↦ ⟨trivial, by omega⟩

/-- The sizes stay positive, and a block whose byte is negative does not get past `mm_realloc`. -/
theorem answers_evalOp (pkg : Package) {tables : Tables} {op : TraceOp}
    (hs : PositiveSizes tables.blockSizes) (hlt : op.size < 2 ^ 31) :
    Answers (fun result ↦ ∀ tables', result = .ok tables' →
      PositiveSizes tables'.blockSizes ∧ ¬ (op.type = .realloc ∧ 128 ≤ op.index % 256))
      (evalOp pkg tables op) := by
  have herror : ∀ {P : Tables → Prop} (e : Complaint) (tables' : Tables),
      Except.error e = .ok tables' → P tables' := fun e tables' h ↦ by cases h
  rw [evalOp]
  cases htype : op.type with
  | alloc =>
    refine Answers.bind (Answers.any _) fun p _ ↦ Within.ite (Answers.pure (herror _)) ?_
    refine Answers.bind (answers_recordRange p op.size) fun complaint hpos ↦ ?_
    cases complaint with
    | some c => exact Answers.pure (herror c)
    | none =>
      refine Answers.bind (Answers.any _) fun _ _ ↦ ?_
      refine Answers.bind (answers_remember op.index p hs hpos hlt) fun tables₁ hs₁ ↦
        Answers.pure fun tables' h ↦ ?_
      rw [← Except.ok.inj h]
      exact ⟨hs₁, by simp⟩
  | realloc =>
    refine Answers.bind (Answers.any _) fun oldp _ ↦ Answers.bind (Answers.any _) fun newp _ ↦
      Within.ite (Answers.pure (herror _)) (Answers.bind (Answers.any _) fun _ _ ↦ ?_)
    refine Answers.bind (answers_recordRange newp op.size) fun complaint hpos ↦ ?_
    cases complaint with
    | some c => exact Answers.pure (herror c)
    | none =>
      refine Answers.bind (answers_entry tables.blockSizes op.index) fun blockSize hsize ↦ ?_
      have hblock := hs blockSize hsize
      by_cases hbyte : 128 ≤ op.index % 256
      · refine Answers.bind (answers_sameBytes hbyte newp _ 0) fun same hsame ↦ ?_
        rw [if_pos (hsame (by split_ifs <;> omega))]
        exact Answers.pure (herror _)
      · refine Answers.bind (Answers.any _) fun same _ ↦
          Within.ite (Answers.pure (herror _)) (Answers.bind (Answers.any _) fun _ _ ↦ ?_)
        refine Answers.bind (answers_remember op.index newp hs hpos hlt) fun tables₁ hs₁ ↦
          Answers.pure fun tables' h ↦ ?_
        rw [← Except.ok.inj h]
        exact ⟨hs₁, fun h ↦ hbyte h.2⟩
  | free =>
    refine Answers.bind (Answers.any _) fun p _ ↦ Answers.bind (Answers.any _) fun _ _ ↦
      Answers.pure fun tables' h ↦ ?_
    rw [← Except.ok.inj h]
    exact ⟨hs, by simp⟩

theorem answers_evalOps (pkg : Package) {ops : List TraceOp} (hlt : ∀ op ∈ ops, op.size < 2 ^ 31) :
    ∀ {tables : Tables} (i : Nat), PositiveSizes tables.blockSizes →
      Answers (fun result ↦ ∀ tables', result = .ok tables' →
        ∀ op ∈ ops, ¬ (op.type = .realloc ∧ 128 ≤ op.index % 256)) (evalOps (evalOp pkg) i ops tables) := by
  induction ops with
  | nil => exact fun i _ ↦ Answers.pure (by simp)
  | cons op ops ih =>
    intro tables i hs
    rw [evalOps]
    refine Answers.bind (answers_evalOp pkg hs (hlt op List.mem_cons_self)) fun result hresult ↦ ?_
    cases result with
    | error c => exact Answers.pure fun tables' h ↦ by cases h
    | ok tables₁ =>
      obtain ⟨hs₁, hop⟩ := hresult tables₁ rfl
      intro s a t h
      obtain ⟨-, hrest⟩ := ih (fun op' hop' ↦ hlt op' (List.mem_cons_of_mem _ hop')) (i + 1) hs₁ s a t h
      exact ⟨trivial, fun tables' ha ↦ List.forall_mem_cons.mpr ⟨hop, hrest tables' ha⟩⟩

/-- Whatever the package, `eval_mm_valid` rejects each trace in which a block is reallocated whose id
has a low byte from 128 on. -/
theorem evalMmValid_rejects {pkg : Package} {ops : List TraceOp} {tables : Tables} {h h' : Heap}
    {result : Except (Nat × Complaint) Tables} {op : TraceOp}
    (hlt : ∀ op ∈ ops, op.size < 2 ^ 31) (hs : PositiveSizes tables.blockSizes) (hop : op ∈ ops)
    (htype : op.type = .realloc) (hbyte : 128 ≤ op.index % 256)
    (hrun : evalMmValid pkg ops tables h = some (result, h')) :
    ∃ i e, result = .error (i, e) := by
  have hanswer : Answers (fun result ↦ ∀ tables', result = Except.ok tables' →
      ∀ op ∈ ops, ¬ (op.type = .realloc ∧ 128 ≤ op.index % 256)) (evalMmValid pkg ops tables) := by
    refine Answers.bind (Answers.any _) fun _ _ ↦ Answers.bind (Answers.any _) fun r _ ↦
      Within.ite (Answers.pure fun tables' h ↦ by cases h) ?_
    refine Answers.bind (answers_evalOps pkg hlt 0 hs) fun result hresult ↦ ?_
    cases result with
    | error x => exact Answers.pure fun tables' h ↦ by cases h
    | ok tables₁ =>
      exact fun s a t _ ↦ ⟨trivial, fun tables' _ ↦ hresult tables₁ rfl⟩
  cases result with
  | error x => exact ⟨x.1, x.2, rfl⟩
  | ok tables' => exact absurd ⟨htype, hbyte⟩ ((hanswer h _ h' hrun).2 tables' rfl op hop)

/-- A package with one payload, which stays where it is. -/
def onePayload : Package where
  mmInit := fun ranges ↦ do
    modify fun h ↦ { h with memBrk := h.memStartBrk + 64, glRanges := ranges }
    pure 0
  mmMalloc := fun _ ↦ do
    let h ← get
    pure h.memStartBrk
  mmFree := fun p ↦ dropRange p
  mmRealloc := fun p _ ↦ pure p
  mmExit := pure ()

set_option maxRecDepth 4000 in
/-- It is rejected for the id 128, though nothing has moved. -/
theorem evalMmValid_rejects_onePayload : ∃ result h',
    evalMmValid onePayload [⟨.alloc, 128, 8⟩, ⟨.realloc, 128, 8⟩]
      ⟨List.replicate 129 none, List.replicate 129 none⟩
      ⟨fun _ ↦ 0, 4096, 4096, 4096 + maxHeap, false, 0, 0, none⟩ = some (result, h') ∧
    ∃ i e, result = .error (i, e) := by
  have hrun : ∃ h', evalMmValid onePayload [⟨.alloc, 128, 8⟩, ⟨.realloc, 128, 8⟩]
      ⟨List.replicate 129 none, List.replicate 129 none⟩
      ⟨fun _ ↦ 0, 4096, 4096, 4096 + maxHeap, false, 0, 0, none⟩ =
      some (.error (1, .notPreserved), h') := ⟨_, rfl⟩
  obtain ⟨h', hrun⟩ := hrun
  exact ⟨_, h', hrun, evalMmValid_rejects (by decide) (by simp [PositiveSizes])
    (List.mem_cons_of_mem _ List.mem_cons_self) rfl (by decide) hrun⟩

end SystemProgramming.MemoryLab.Driver
