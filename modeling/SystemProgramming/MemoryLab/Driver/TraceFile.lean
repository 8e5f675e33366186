import SystemProgramming.Library.FormattedInput
import SystemProgramming.MemoryLab.Driver.Client

/-!
# The trace files of `mdriver.c`

`read_trace` reads four numbers and then one request after the other into an array for as many
requests as the third number says. It does not look at the length of the array while it reads, nor
at that of the buffer for a word: a request behind the end of the array, or a word of 1024 bytes, has
no result here. What `malloc` grants is a parameter.

What is written down as a trace is read back, whatever the white space (`readTrace_spelled`). What is
read has as many requests as it says, and as many ids as the greatest one that is allocated or
reallocated tells; the ids that are freed are not looked at (`readTrace_wellFormed`).
-/

set_option autoImplicit false
set_option relaxedAutoImplicit false

namespace SystemProgramming.MemoryLab.Driver

open Library

/-! ### `read_trace` -/

/-- `MAXLINE`. -/
def maxLine : Nat := 1024

/-- `trace_t`, without its tables. -/
structure Trace where
  suggHeapsize : Int
  numIds : Int
  numOps : Int
  weight : Int
  ops : List TraceOp
  deriving DecidableEq, Repr

/-- How `read_trace` ends the program. -/
inductive ReadFailure
  | malloc (i : Nat)
  | line
  | bogus (c : UInt8)
  | maxIndex
  | numOps
  deriving DecidableEq, Repr

/-- The message, without what `strerror` adds. -/
def ReadFailure.msg (path : String) : ReadFailure → String
  | malloc i => "malloc " ++ toString i ++ " failed in read_tra" ++ (if i = 1 then "n" else "") ++ "ce"
  | line => "failed to read line from trace"
  | bogus c => "Bogus type character (" ++ String.singleton (Char.ofNat c.toNat) ++
      ") in tracefile " ++ path ++ "\n"
  | maxIndex => "max_index == trace->num_ids - 1"
  | numOps => "trace->num_ops == op_index"

/-- The request of a line behind its first word, with the id that counts for `max_index`. -/
def readOp (type : List UInt8) (s : List UInt8) :
    Except ReadFailure (TraceOp × Option Nat × List UInt8) :=
  let two (opType : OpType) := match readUnsigned s with
    | none => .error .line
    | some (index, s) => match readUnsigned s with
      | none => .error .line
      | some (size, s) => .ok (⟨opType, ofSizeT index, ofSizeT size⟩, some index, s)
  match type.head? with
  | some 97 => two .alloc
  | some 114 => two .realloc
  | some 102 => match readUnsigned s with
    | none => .error .line
    | some (index, s) =>
      -- the format of this line is `%ud`, so that a `d` behind the number is passed over
      .ok (⟨.free, ofSizeT index, 0⟩, none, if s.head? = some 100 then s.tail else s)
  | c => .error (.bogus (c.getD 0))

/-- `max_index` after a line. -/
def raise (maxIndex : Nat) : Option Nat → Nat
  | some i => if maxIndex < i then i else maxIndex
  | none => maxIndex

/-- The loop over the lines. `ops` are the requests so far. -/
def readOps (capacity : Nat) : Nat → List UInt8 → List TraceOp → Nat →
    Option (Except ReadFailure (List TraceOp × Nat))
  | 0, _, _, _ => none
  | fuel + 1, s, ops, maxIndex => match readWord s with
    | none => some (.ok (ops, maxIndex))
    | some (type, s) =>
      if maxLine ≤ type.length then none
      else match readOp type s with
        | .error e => some (.error e)
        | .ok (op, index, s) =>
          if capacity ≤ ops.length then none
          else readOps capacity fuel s (ops ++ [op]) (raise maxIndex index)

/-- The size in bytes of an array. -/
def arrayBytes (n : Int) (size : Nat) : Nat := toSizeT n * size % 2 ^ 32

/-- The four numbers at the head of a file. -/
def readHeader (s : List UInt8) : Option (Int × Int × Int × Int × List UInt8) := do
  let (suggHeapsize, s) ← readInt s
  let (numIds, s) ← readInt s
  let (numOps, s) ← readInt s
  let (weight, s) ← readInt s
  pure (suggHeapsize, numIds, numOps, weight, s)

/-- The assertions at the end of `read_trace`. -/
def checkCounts (t : Trace) (maxIndex : Nat) : Option (Except ReadFailure Trace) :=
  if t.numIds = -2 ^ 31 then none
  else if maxIndex ≠ toSizeT (t.numIds - 1) then some (.error .maxIndex)
  else if toSizeT t.numOps ≠ t.ops.length then some (.error .numOps)
  else some (.ok t)

/-- `read_trace` of what is in the file. `grants i size` says whether the call of `malloc` with that
number succeeds. -/
def readTrace (grants : Nat → Nat → Bool) (s : List UInt8) : Option (Except ReadFailure Trace) :=
  if ¬ grants 1 28 then some (.error (.malloc 1))
  else match readHeader s with
    | none => some (.error .line)
    | some (suggHeapsize, numIds, numOps, weight, s) =>
      if ¬ grants 2 (arrayBytes numOps 12) then some (.error (.malloc 2))
      else if ¬ grants 3 (arrayBytes numIds 4) then some (.error (.malloc 3))
      else if ¬ grants 4 (arrayBytes numIds 4) then some (.error (.malloc 4))
      else match readOps (arrayBytes numOps 12 / 12) (s.length + 1) s [] 0 with
        | none => none
        | some (.error e) => some (.error e)
        | some (.ok (ops, maxIndex)) =>
          checkCounts ⟨suggHeapsize, numIds, numOps, weight, ops⟩ maxIndex

/-! ### Traces as they are written -/

/-- The words of a line. -/
def TraceOp.tokens (op : TraceOp) : List (List UInt8) :=
  match op.type with
  | .alloc => [ascii "a", intToken op.index, intToken op.size]
  | .realloc => [ascii "r", intToken op.index, intToken op.size]
  | .free => [ascii "f", intToken op.index]

/-- The words of a file. -/
def Trace.tokens (t : Trace) : List (List UInt8) :=
  intToken t.suggHeapsize :: intToken t.numIds :: intToken t.numOps :: intToken t.weight ::
    t.ops.flatMap TraceOp.tokens

/-- A request that can be written down. The size of one that frees is not written. -/
structure TraceOp.Writable (op : TraceOp) : Prop where
  index : 0 ≤ op.index ∧ op.index < 2 ^ 31
  size : 0 ≤ op.size ∧ op.size < 2 ^ 31
  free : op.type = .free → op.size = 0

/-- `max_index` after these requests. -/
def maxIndexOf (ops : List TraceOp) (maxIndex : Nat) : Nat :=
  ops.foldl (fun m op ↦ if op.type = .free then m else max m op.index.toNat) maxIndex

theorem toSizeT_of_nonneg {n : Int} (hlow : 0 ≤ n) (hhigh : n < 2 ^ 31) : toSizeT n = n.toNat := by
  unfold toSizeT
  omega

theorem ofSizeT_toNat {n : Int} (hlow : 0 ≤ n) (hhigh : n < 2 ^ 31) : ofSizeT n.toNat = n := by
  rw [ofSizeT_of_lt (by omega), Int.toNat_of_nonneg hlow]

variable {op : TraceOp} {ops : List TraceOp} {s : List UInt8} {tokens : List (List UInt8)}

/-- `%u` reads a nonnegative `int`. -/
theorem readUnsigned_int {n : Int} (hlow : 0 ≤ n) (hhigh : n < 2 ^ 31)
    (h : Spells (intToken n :: tokens) s) :
    ∃ rest, readUnsigned s = some (n.toNat, rest) ∧ Left tokens s rest := by
  refine readUnsigned_cons (by omega) ?_
  rwa [Int.toNat_of_nonneg hlow]

/-- A line is read back. -/
theorem readOp_spelled (hop : op.Writable) (h : Spells (op.tokens ++ tokens) s) :
    ∃ type s₁ index s₂, readWord s = some (type, s₁) ∧ type.length < maxLine ∧
      readOp type s₁ = .ok (op, index, s₂) ∧ Spells tokens s₂ ∧ s₂.length < s.length ∧
      ∀ m, raise m index = maxIndexOf [op] m := by
  obtain ⟨type, index, size⟩ := op
  obtain ⟨⟨hlow, hhigh⟩, ⟨hlow', hhigh'⟩, hfree⟩ := hop
  dsimp only at hlow hhigh hlow' hhigh' hfree
  have hraise : ∀ m, raise m (some index.toNat) = max m index.toNat := by
    intro m
    rw [raise]
    split_ifs <;> omega
  cases type with
  | alloc =>
    obtain ⟨s₁, hword, hleft₁⟩ := readWord_cons h
    obtain ⟨s₂, hindex, hleft₂⟩ := readUnsigned_int hlow hhigh hleft₁.spells
    obtain ⟨s₃, hsize, hleft₃⟩ := readUnsigned_int hlow' hhigh' hleft₂.spells
    have h₁ := hleft₁.shorter
    have h₂ := hleft₂.shorter
    have h₃ := hleft₃.shorter
    refine ⟨_, s₁, some index.toNat, s₃, hword, by decide, ?_, hleft₃.spells, by omega, hraise⟩
    simp only [readOp, hindex, hsize, ofSizeT_toNat hlow hhigh, ofSizeT_toNat hlow' hhigh']
    rfl
  | realloc =>
    obtain ⟨s₁, hword, hleft₁⟩ := readWord_cons h
    obtain ⟨s₂, hindex, hleft₂⟩ := readUnsigned_int hlow hhigh hleft₁.spells
    obtain ⟨s₃, hsize, hleft₃⟩ := readUnsigned_int hlow' hhigh' hleft₂.spells
    have h₁ := hleft₁.shorter
    have h₂ := hleft₂.shorter
    have h₃ := hleft₃.shorter
    refine ⟨_, s₁, some index.toNat, s₃, hword, by decide, ?_, hleft₃.spells, by omega, hraise⟩
    simp only [readOp, hindex, hsize, ofSizeT_toNat hlow hhigh, ofSizeT_toNat hlow' hhigh']
    rfl
  | free =>
    obtain rfl := hfree rfl
    obtain ⟨s₁, hword, hleft₁⟩ := readWord_cons h
    obtain ⟨s₂, hindex, hleft₂⟩ := readUnsigned_int hlow hhigh hleft₁.spells
    have h₁ := hleft₁.shorter
    have h₂ := hleft₂.shorter
    have hd : ¬ s₂.head? = some 100 := fun hd ↦ by
      have hspace := hleft₂.breaks 100 hd
      revert hspace
      decide
    refine ⟨_, s₁, none, s₂, hword, by decide, ?_, hleft₂.spells, by omega, fun m ↦ rfl⟩
    simp only [readOp, hindex, ofSizeT_toNat hlow hhigh, if_neg hd]
    rfl

/-- The lines are read back. -/
theorem readOps_spelled (capacity : Nat) :
    ∀ {ops : List TraceOp} {s : List UInt8} (fuel : Nat) (before : List TraceOp) (maxIndex : Nat),
      (∀ op ∈ ops, op.Writable) → Spells (ops.flatMap TraceOp.tokens) s → s.length < fuel →
      before.length + ops.length ≤ capacity →
      readOps capacity fuel s before maxIndex =
        some (.ok (before ++ ops, maxIndexOf ops maxIndex)) := by
  intro ops
  induction ops with
  | nil =>
    intro s fuel before maxIndex _ h hfuel _
    cases fuel with
    | zero => omega
    | succ fuel =>
      rw [readOps, readWord_nil h, List.append_nil]
      rfl
  | cons op ops ih =>
    intro s fuel before maxIndex hops h hfuel hcapacity
    rw [List.flatMap_cons] at h
    obtain ⟨type, s₁, index, s₂, hword, hlength, hop, hrest, hshorter, hmax⟩ :=
      readOp_spelled (hops op List.mem_cons_self) h
    rw [List.length_cons] at hcapacity
    cases fuel with
    | zero => omega
    | succ fuel =>
      have hlater := ih fuel (before ++ [op]) (raise maxIndex index)
        (fun op' hop' ↦ hops op' (List.mem_cons_of_mem _ hop')) hrest (by omega)
        (by rw [List.length_append, List.length_singleton]; omega)
      rw [readOps, hword]
      dsimp only
      rw [if_neg (by omega), hop]
      dsimp only
      rw [if_neg (by omega), hlater, List.append_assoc, hmax]
      rfl

/-- A trace that can be written down: the numbers are of type `int`, those of requests and ids are
right, and the arrays fit into the address space. -/
structure Trace.Writable (t : Trace) : Prop where
  suggHeapsize : -2 ^ 31 ≤ t.suggHeapsize ∧ t.suggHeapsize < 2 ^ 31
  weight : -2 ^ 31 ≤ t.weight ∧ t.weight < 2 ^ 31
  numIds : 0 < t.numIds ∧ t.numIds < 2 ^ 31 ∧ (maxIndexOf t.ops 0 : Int) = t.numIds - 1
  numOps : t.numOps = t.ops.length ∧ 12 * t.ops.length < 2 ^ 32
  ops : ∀ op ∈ t.ops, op.Writable

/-- What is written down as a trace, with white space of any kind and length between its words, is
read back, provided that memory is granted. -/
theorem readTrace_spelled {t : Trace} {grants : Nat → Nat → Bool} (ht : t.Writable)
    (hgrants : ∀ i n, grants i n = true) (h : Spells t.tokens s) :
    readTrace grants s = some (.ok t) := by
  obtain ⟨s₁, hsugg, hleft₁⟩ := readInt_cons ht.suggHeapsize.1 ht.suggHeapsize.2 h
  obtain ⟨hpos, hlt, hmax⟩ := ht.numIds
  obtain ⟨hnum, hfits⟩ := ht.numOps
  obtain ⟨s₂, hids, hleft₂⟩ := readInt_cons (by omega) hlt hleft₁.spells
  obtain ⟨s₃, hops, hleft₃⟩ := readInt_cons (by omega) (by omega) hleft₂.spells
  obtain ⟨s₄, hweight, hleft₄⟩ := readInt_cons ht.weight.1 ht.weight.2 hleft₃.spells
  have hcount : toSizeT t.numOps = t.ops.length := by
    rw [hnum]
    exact toSizeT_natCast (by omega)
  have hcapacity : arrayBytes t.numOps 12 / 12 = t.ops.length := by
    unfold arrayBytes
    rw [hcount]
    omega
  have hread := readOps_spelled t.ops.length (s₄.length + 1) [] 0 ht.ops hleft₄.spells
    (Nat.lt_succ_self _) (by simp)
  have hlast : toSizeT (t.numIds - 1) = maxIndexOf t.ops 0 := by
    rw [← hmax]
    exact toSizeT_natCast (by omega)
  have hheader : readHeader s = some (t.suggHeapsize, t.numIds, t.numOps, t.weight, s₄) := by
    simp [readHeader, hsugg, hids, hops, hweight]
  simp only [readTrace, hgrants, hheader, hcapacity, hread, not_true_eq_false, if_false,
    List.nil_append]
  have hmin : ¬ t.numIds = -2 ^ 31 := by omega
  rw [checkCounts, if_neg hmin, if_neg (not_not.mpr hlast.symm), if_neg (not_not.mpr hcount)]

/-- The sample trace, and a file that spells it. -/
def sampleTrace : Trace := ⟨20000, 2, 5, 1, sampleOps⟩

/-- Each word on a line of its own. -/
def sampleText : List UInt8 := sampleTrace.tokens.flatMap fun token ↦ 10 :: token

theorem sampleTrace_writable : sampleTrace.Writable where
  suggHeapsize := by decide
  weight := by decide
  numIds := by decide
  numOps := by decide
  ops := fun op hop ↦ by
    have hops : ∀ op ∈ sampleOps, (0 ≤ op.index ∧ op.index < 2 ^ 31) ∧
      (0 ≤ op.size ∧ op.size < 2 ^ 31) ∧ (op.type = .free → op.size = 0) := by decide
    obtain ⟨hindex, hsize, hfree⟩ := hops op hop
    exact ⟨hindex, hsize, hfree⟩

set_option maxRecDepth 4000 in
theorem spells_sampleText : Spells sampleTrace.tokens sampleText := by
  have hall : ∀ token ∈ sampleTrace.tokens, token ≠ [] ∧ token.all (fun c ↦ ! isSpace c) := by
    decide
  refine Spells.lines fun token htoken ↦ ?_
  obtain ⟨hne, hspace⟩ := hall token htoken
  exact ⟨hne, fun c hc ↦ by simpa using List.all_eq_true.mp hspace c hc⟩

theorem readTrace_spelled_sample :
    readTrace (fun _ _ ↦ true) sampleText = some (.ok sampleTrace) :=
  readTrace_spelled sampleTrace_writable (fun _ _ ↦ rfl) spells_sampleText

/-! ### Traces as they are read -/

/-- The id of a request that counts for `max_index`, as the `unsigned` that is read. -/
def TraceOp.countedId (op : TraceOp) : Option Nat :=
  if op.type = .free then none else some (toSizeT op.index)

/-- The fields are of type `int`. -/
structure TraceOp.InRange (op : TraceOp) : Prop where
  index : -2 ^ 31 ≤ op.index ∧ op.index < 2 ^ 31
  size : -2 ^ 31 ≤ op.size ∧ op.size < 2 ^ 31

/-- What `read_trace` makes sure of. `num_ids - 1` is compared as an `unsigned`. -/
structure Trace.WellFormed (t : Trace) : Prop where
  ints : ∀ n ∈ [t.suggHeapsize, t.numIds, t.numOps, t.weight], -2 ^ 31 ≤ n ∧ n < 2 ^ 31
  ops : ∀ op ∈ t.ops, op.InRange
  numOps : t.numOps = t.ops.length
  idsLe : ∀ op ∈ t.ops, ∀ i ∈ op.countedId, i ≤ toSizeT (t.numIds - 1)
  idsMeet : toSizeT (t.numIds - 1) = 0 ∨ ∃ op ∈ t.ops, op.countedId = some (toSizeT (t.numIds - 1))

theorem ofSizeT_range (n : Nat) : -2 ^ 31 ≤ ofSizeT n ∧ ofSizeT n < 2 ^ 31 := by
  unfold ofSizeT
  rw [Int.bmod_def]
  omega

theorem toSizeT_ofSizeT {n : Nat} (h : n < 2 ^ 32) : toSizeT (ofSizeT n) = n := by
  unfold toSizeT ofSizeT
  rw [Int.bmod_def]
  omega

theorem readUnsigned_lt {n : Nat} {rest : List UInt8} (h : readUnsigned s = some (n, rest)) :
    n < 2 ^ 32 := by
  obtain ⟨⟨negative, k, r⟩, -, heq⟩ := Option.map_eq_some_iff.mp h
  obtain ⟨rfl, -⟩ := Prod.mk.inj heq
  split_ifs <;> omega

theorem readInt_range {n : Int} {rest : List UInt8} (h : readInt s = some (n, rest)) :
    -2 ^ 31 ≤ n ∧ n < 2 ^ 31 := by
  obtain ⟨⟨negative, k, r⟩, -, heq⟩ := Option.map_eq_some_iff.mp h
  obtain ⟨rfl, -⟩ := Prod.mk.inj heq
  split_ifs <;> omega

theorem TraceOp.read_inRange (opType : OpType) (i size : Nat) :
    TraceOp.InRange ⟨opType, ofSizeT i, ofSizeT size⟩ := by
  constructor
  · dsimp only
    exact ofSizeT_range i
  · dsimp only
    exact ofSizeT_range size

theorem TraceOp.countedId_read {opType : OpType} (htype : opType ≠ .free) {i : Nat}
    (hi : i < 2 ^ 32) (size : Int) : TraceOp.countedId ⟨opType, ofSizeT i, size⟩ = some i := by
  rw [countedId, if_neg htype, toSizeT_ofSizeT hi]

/-- A line that is read is a request in range, with the id that counts. -/
theorem readOp_ok {type rest : List UInt8} {index : Option Nat}
    (h : readOp type s = .ok (op, index, rest)) : op.InRange ∧ index = op.countedId := by
  unfold readOp at h
  dsimp only at h
  split at h
  · split at h
    · cases h
    · next i s₁ hindex =>
      split at h
      · cases h
      · next size s₂ hsize =>
        obtain ⟨rfl, rfl, -⟩ := Prod.mk.inj (Except.ok.inj h)
        exact ⟨TraceOp.read_inRange .alloc i size,
          (TraceOp.countedId_read (by decide) (readUnsigned_lt hindex) _).symm⟩
  · split at h
    · cases h
    · next i s₁ hindex =>
      split at h
      · cases h
      · next size s₂ hsize =>
        obtain ⟨rfl, rfl, -⟩ := Prod.mk.inj (Except.ok.inj h)
        exact ⟨TraceOp.read_inRange .realloc i size,
          (TraceOp.countedId_read (by decide) (readUnsigned_lt hindex) _).symm⟩
  · split at h
    · cases h
    · next i s₁ hindex =>
      obtain ⟨rfl, rfl, -⟩ := Prod.mk.inj (Except.ok.inj h)
      exact ⟨TraceOp.read_inRange .free i 0, rfl⟩
  · cases h

/-- After a line `max_index` is the greater of the two. -/
theorem raise_spec (m : Nat) (index : Option Nat) :
    m ≤ raise m index ∧ (∀ i ∈ index, i ≤ raise m index) ∧
      (raise m index = m ∨ index = some (raise m index)) := by
  cases index with
  | none => simp [raise]
  | some i =>
    rw [raise]
    split_ifs with hless
    · exact ⟨Nat.le_of_lt hless, fun j hj ↦ (Option.some.inj hj).ge, Or.inr rfl⟩
    · refine ⟨Nat.le_refl m, fun j hj ↦ ?_, Or.inl rfl⟩
      obtain rfl := Option.some.inj hj
      exact Nat.not_lt.mp hless

/-- What the loop has read is in range and fits into the array, and `max_index` is the greatest of the
ids that count. -/
theorem readOps_ok {capacity maxIndex : Nat} :
    ∀ {fuel : Nat} {s : List UInt8} {before : List TraceOp} {m : Nat},
      readOps capacity fuel s before m = some (.ok (ops, maxIndex)) → before.length ≤ capacity →
      ops.length ≤ capacity ∧ m ≤ maxIndex ∧ ∃ more, ops = before ++ more ∧
        (∀ op ∈ more, op.InRange ∧ ∀ i ∈ op.countedId, i ≤ maxIndex) ∧
        (maxIndex = m ∨ ∃ op ∈ more, op.countedId = some maxIndex) := by
  intro fuel
  induction fuel with
  | zero =>
    intro s before m h _
    cases h
  | succ fuel ih =>
    intro s before m h hlength
    rw [readOps] at h
    split at h
    · obtain ⟨rfl, rfl⟩ := Prod.mk.inj (Except.ok.inj (Option.some.inj h))
      exact ⟨hlength, Nat.le_refl _, [], by simp, by simp, Or.inl rfl⟩
    · next type s₁ hword =>
      by_cases hlong : maxLine ≤ type.length
      · simp [hlong] at h
      rw [if_neg hlong] at h
      split at h
      · cases h
      · next op index s₂ hop =>
        by_cases hfull : capacity ≤ before.length
        · simp [hfull] at h
        rw [if_neg hfull] at h
        obtain ⟨hfits, hle, more, rfl, hmore, hmax⟩ :=
          ih h (by rw [List.length_append, List.length_singleton]; omega)
        obtain ⟨hrange, rfl⟩ := readOp_ok hop
        obtain ⟨hm, hindex, hraised⟩ := raise_spec m op.countedId
        refine ⟨hfits, hm.trans hle, op :: more, by simp, List.forall_mem_cons.mpr
          ⟨⟨hrange, fun i hi ↦ (hindex i hi).trans hle⟩, hmore⟩, ?_⟩
        rcases hmax with hsame | ⟨later, hlater, hid⟩
        · rw [← hsame] at hraised
          exact hraised.imp_right fun hid ↦ ⟨op, List.mem_cons_self, hid⟩
        · exact Or.inr ⟨later, List.mem_cons_of_mem op hlater, hid⟩

theorem readHeader_range {suggHeapsize numIds numOps weight : Int} {rest : List UInt8}
    (h : readHeader s = some (suggHeapsize, numIds, numOps, weight, rest)) :
    ∀ n ∈ [suggHeapsize, numIds, numOps, weight], -2 ^ 31 ≤ n ∧ n < 2 ^ 31 := by
  obtain ⟨⟨a, s₁⟩, hsugg, h⟩ := Option.bind_eq_some_iff.mp h
  obtain ⟨⟨b, s₂⟩, hids, h⟩ := Option.bind_eq_some_iff.mp h
  obtain ⟨⟨c, s₃⟩, hops, h⟩ := Option.bind_eq_some_iff.mp h
  obtain ⟨⟨d, s₄⟩, hweight, h⟩ := Option.bind_eq_some_iff.mp h
  simp only [Option.pure_def, Option.some.injEq, Prod.mk.injEq] at h
  obtain ⟨rfl, rfl, rfl, rfl, -⟩ := h
  simp only [List.forall_mem_cons]
  exact ⟨readInt_range hsugg, readInt_range hids, readInt_range hops, readInt_range hweight,
    List.forall_mem_nil _⟩

/-- `read_trace` comes to its end behind the four numbers and the lines. -/
theorem readTrace_eq_ok {t : Trace} {grants : Nat → Nat → Bool}
    (h : readTrace grants s = some (.ok t)) :
    ∃ suggHeapsize numIds numOps weight rest ops maxIndex,
      readHeader s = some (suggHeapsize, numIds, numOps, weight, rest) ∧
      readOps (arrayBytes numOps 12 / 12) (rest.length + 1) rest [] 0 =
        some (.ok (ops, maxIndex)) ∧
      checkCounts ⟨suggHeapsize, numIds, numOps, weight, ops⟩ maxIndex = some (.ok t) := by
  rw [readTrace] at h
  split at h
  · cases h
  split at h
  · cases h
  next suggHeapsize numIds numOps weight rest hheader =>
  split at h
  · cases h
  split at h
  · cases h
  split at h
  · cases h
  split at h
  · cases h
  · cases h
  next ops maxIndex hread =>
  exact ⟨suggHeapsize, numIds, numOps, weight, rest, ops, maxIndex, hheader, hread, h⟩

theorem checkCounts_eq_ok {t t' : Trace} {maxIndex : Nat}
    (h : checkCounts t maxIndex = some (.ok t')) :
    t' = t ∧ maxIndex = toSizeT (t.numIds - 1) ∧ toSizeT t.numOps = t.ops.length := by
  unfold checkCounts at h
  split at h
  · cases h
  split at h
  · cases h
  next _ hmax =>
  split at h
  · cases h
  next _ hcount =>
  exact ⟨(Except.ok.inj (Option.some.inj h)).symm, not_not.mp hmax, not_not.mp hcount⟩

/-- Where there are ids, they are counted from zero up to the greatest one. -/
theorem Trace.WellFormed.ids {t : Trace} (h : t.WellFormed) (hpos : 0 < t.numIds) :
    (∀ op ∈ t.ops, op.type ≠ .free → 0 ≤ op.index ∧ op.index < t.numIds) ∧
      (t.numIds = 1 ∨ ∃ op ∈ t.ops, op.type ≠ .free ∧ op.index = t.numIds - 1) := by
  obtain ⟨-, hhigh⟩ := h.ints t.numIds (by simp)
  have hlast : toSizeT (t.numIds - 1) = (t.numIds - 1).toNat :=
    toSizeT_of_nonneg (by omega) (by omega)
  have hlow : ∀ op ∈ t.ops, toSizeT op.index ≤ toSizeT (t.numIds - 1) →
      op.index = toSizeT op.index := by
    intro op hop hle
    obtain ⟨hmin, hmax⟩ := (h.ops op hop).index
    unfold toSizeT at *
    omega
  constructor
  · intro op hop htype
    have hle := h.idsLe op hop _ (if_neg htype)
    have heq := hlow op hop hle
    omega
  · rcases h.idsMeet with hzero | ⟨op, hop, hid⟩
    · exact Or.inl (by omega)
    · by_cases htype : op.type = .free
      · rw [TraceOp.countedId, if_pos htype] at hid
        cases hid
      · rw [TraceOp.countedId, if_neg htype] at hid
        have hsame := Option.some.inj hid
        have heq := hlow op hop hsame.le
        exact Or.inr ⟨op, hop, htype, by omega⟩

/-- What is read has as many requests as it says, numbers that an `int` holds, and `num_ids` is one
more than the greatest id that is allocated or reallocated, both taken as `unsigned`. So these ids lie
in the tables, where there are ids at all. -/
theorem readTrace_wellFormed {t : Trace} {grants : Nat → Nat → Bool}
    (h : readTrace grants s = some (.ok t)) :
    t.WellFormed ∧ (0 < t.numIds →
      (∀ op ∈ t.ops, op.type ≠ .free → 0 ≤ op.index ∧ op.index < t.numIds) ∧
      (t.numIds = 1 ∨ ∃ op ∈ t.ops, op.type ≠ .free ∧ op.index = t.numIds - 1)) := by
  obtain ⟨suggHeapsize, numIds, numOps, weight, rest, ops, maxIndex, hheader, hread, hcheck⟩ :=
    readTrace_eq_ok h
  obtain ⟨rfl, hmax, hcount⟩ := checkCounts_eq_ok hcheck
  have hints := readHeader_range hheader
  obtain ⟨hfits, -, more, hmore, hops, hmeet⟩ := readOps_ok hread (Nat.zero_le _)
  rw [List.nil_append] at hmore
  subst hmore
  dsimp only at hmax hcount
  rw [hmax] at hops hmeet
  have hwell : Trace.WellFormed ⟨suggHeapsize, numIds, numOps, weight, ops⟩ := by
    refine ⟨hints, fun op hop ↦ (hops op hop).1, ?_, fun op hop ↦ (hops op hop).2, hmeet⟩
    have hrange := hints numOps (by simp)
    unfold arrayBytes toSizeT at hfits
    unfold toSizeT at hcount
    dsimp only
    omega
  exact ⟨hwell, hwell.ids⟩

set_option maxRecDepth 4000 in
/-- A trace with one id, of which it frees another, is read. -/
theorem readTrace_wellFormed_free : ∃ t,
    readTrace (fun _ _ ↦ true) (ascii "0 1 2 1 a 0 8 f 7") = some (.ok t) ∧
      ⟨.free, 7, 0⟩ ∈ t.ops ∧ t.numIds = 1 ∧ t.WellFormed ∧
      ∀ op ∈ t.ops, op.type ≠ .free → 0 ≤ op.index ∧ op.index < t.numIds := by
  have hread : readTrace (fun _ _ ↦ true) (ascii "0 1 2 1 a 0 8 f 7") =
      some (.ok ⟨0, 1, 2, 1, [⟨.alloc, 0, 8⟩, ⟨.free, 7, 0⟩]⟩) := by
    decide +kernel
  obtain ⟨hwell, hindex⟩ := readTrace_wellFormed hread
  exact ⟨_, hread, by decide, rfl, hwell, (hindex (by decide)).1⟩

end SystemProgramming.MemoryLab.Driver
