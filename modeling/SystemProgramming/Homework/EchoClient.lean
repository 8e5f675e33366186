import SystemProgramming.Library.Buffered
import SystemProgramming.Library.CString

/-!
# The buffered reader of `echo_client.c`

`myread` hands out bytes of a buffer that `read` fills, and `readline` takes a line from it byte by
byte. The cursor and the count of the buffer are those of the source; between two calls they stand
for the bytes that have been fetched and not yet handed out (`Conn.Holds`), so `myread` is
`Buffered.read` of the library (`Conn.Holds.myread`). What `readline` stores and returns is therefore
a function of the stream, however it comes in pieces (`Conn.Holds.readline`).

The counter of `readline` is one ahead of the bytes that are stored. It stays so on a newline and is
set back at the end of the input, but when the buffer is full the loop ends with the counter as it
is: the value returned then is one too many. `readlines_iff` says for which calls on which streams
this, or the overflow of the counter, does not happen.
-/

set_option autoImplicit false
set_option relaxedAutoImplicit false

namespace SystemProgramming.Homework

open Library

/-! ### The source -/

/-- `MAXLINE`. -/
def maxLine : Nat := 256

/-- The counter and the cursor of `IO_STRUCT`, and its buffer. -/
structure IoStruct where
  cnt : Int
  ptr : Nat
  buffer : ByteMemory

/-- An `IO_STRUCT` and what the coming calls of `read` do; `none` is a failure other than `EINTR`. -/
structure Conn where
  ios : IoStruct
  arriving : List (Option (Arrival maxLine))

/-- `init_iostr`, over whatever is in the buffer. -/
def initIostr (buffer : ByteMemory) (arriving : List (Option (Arrival maxLine))) : Conn :=
  ⟨⟨0, 0, buffer⟩, arriving⟩

/-- The loop of `myread`, and the value it returns if it does not end with bytes in the buffer. -/
def fill : List (Option (Arrival maxLine)) → IoStruct → Option Int × Conn
  | [], ios => if 0 < ios.cnt then (none, ⟨ios, []⟩) else (some 0, ⟨{ ios with cnt := 0 }, []⟩)
  | call :: arriving, ios =>
    if 0 < ios.cnt then (none, ⟨ios, call :: arriving⟩)
    else
      match call with
      | none => (some (-1), ⟨{ ios with cnt := -1 }, arriving⟩)
      | some .interrupted => fill arriving { ios with cnt := -1 }
      | some (.piece bytes _ _) =>
        fill arriving ⟨bytes.length, 0, putBytes ios.buffer 0 bytes⟩

/-- `myread`, with the bytes that it copies. -/
def myread (conn : Conn) (n : Nat) : Int × List UInt8 × Conn :=
  match fill conn.arriving conn.ios with
  | (some value, conn) => (value, [], conn)
  | (none, conn) =>
    let cnt := min n conn.ios.cnt.toNat
    (cnt, bytesAt conn.ios.buffer conn.ios.ptr cnt,
      { conn with ios.cnt := conn.ios.cnt - cnt, ios.ptr := conn.ios.ptr + cnt })

def newline : UInt8 := 10

/-- What a call of `readline` returns, and the bytes that it stores. -/
structure Answer where
  value : Int
  stored : List UInt8
  deriving DecidableEq

/-- Put a byte before those that are stored. -/
def Answer.cons (c : UInt8) (a : Answer) : Answer := ⟨a.value, c :: a.stored⟩

/-- The loop of `readline` with so many turns left, from `i` on. The increment of the `int` is
undefined when it overflows. -/
def readlineLoop : Nat → Nat → Conn → Option (Answer × Conn)
  | 0, i, conn => some (⟨i, []⟩, conn)
  | room + 1, i, conn =>
    match myread conn 1 with
    | (1, c :: _, conn) =>
      if c = newline then some (⟨i, [c]⟩, conn)
      else if 2 ^ 31 ≤ i + 1 then none
      else (readlineLoop room (i + 1) conn).map fun r ↦ (r.1.cons c, r.2)
    | (0, _, conn) => if i = 1 then some (⟨0, []⟩, conn) else some (⟨i - 1, []⟩, conn)
    | (_, _, conn) => some (⟨-1, []⟩, conn)

/-- `readline`. -/
def readline (conn : Conn) (maxlen : Nat) : Option (Answer × Conn) :=
  readlineLoop (maxlen - 1) 1 conn

/-- One call of `readline` after the other. -/
def readlines : Conn → List Nat → Option (List Answer)
  | _, [] => some []
  | conn, maxlen :: calls => do
    let (answer, conn) ← readline conn maxlen
    let answers ← readlines conn calls
    pure (answer :: answers)

/-! ### The buffer -/

/-- The bytes of the buffer that are not yet handed out are those of `b`, and the calls to come fail
only by being interrupted. -/
structure Conn.Holds (conn : Conn) (b : Buffered maxLine) : Prop where
  unread : bytesAt conn.ios.buffer conn.ios.ptr conn.ios.cnt.toNat = b.unread
  arriving : conn.arriving = b.arriving.map some

theorem holds_initIostr (buffer : ByteMemory) (arriving : List (Arrival maxLine)) :
    (initIostr buffer (arriving.map some)).Holds ⟨[], arriving⟩ :=
  ⟨rfl, rfl⟩

/-- With bytes in the buffer there is nothing to do. -/
theorem fill_of_pos (arriving : List (Option (Arrival maxLine))) {ios : IoStruct}
    (hcnt : 0 < ios.cnt) : fill arriving ios = (none, ⟨ios, arriving⟩) := by
  cases arriving <;> simp [fill, hcnt]

/-- The loop ends with the bytes of the next piece, or with none at the end of the input. -/
theorem fill_of_empty (arriving : List (Arrival maxLine)) {ios : IoStruct} (hcnt : ios.cnt ≤ 0) :
    ∃ value conn, fill (arriving.map some) ios = (value, conn) ∧
      conn.Holds (Buffered.refill arriving) ∧
      value = if (Buffered.refill arriving).unread = [] then some 0 else none := by
  induction arriving generalizing ios with
  | nil =>
    refine ⟨some 0, _, by rw [List.map_nil, fill, if_neg (by omega)], ⟨rfl, rfl⟩, rfl⟩
  | cons arrival arriving ih =>
    cases arrival with
    | interrupted =>
      have hempty : IoStruct.cnt { ios with cnt := -1 } ≤ 0 := by simp
      obtain ⟨value, conn, hfill, hrest⟩ := ih hempty
      refine ⟨value, conn, ?_, hrest⟩
      rw [List.map_cons, fill, if_neg (by omega)]
      exact hfill
    | piece bytes hne hsize =>
      have hpos := List.length_pos_of_ne_nil hne
      refine ⟨none, ⟨⟨bytes.length, 0, putBytes ios.buffer 0 bytes⟩, arriving.map some⟩, ?_,
        ⟨bytesAt_putBytes ios.buffer 0 bytes, rfl⟩, (if_neg hne).symm⟩
      rw [List.map_cons, fill, if_neg (by omega)]
      exact fill_of_pos _ (by dsimp only; omega)

/-- What `myread` does with bytes in the buffer. -/
theorem Conn.Holds.take {conn : Conn} {b : Buffered maxLine} (h : conn.Holds b) (n : Nat) :
    bytesAt conn.ios.buffer conn.ios.ptr (min n conn.ios.cnt.toNat) = b.unread.take n ∧
      Conn.Holds { conn with
        ios.cnt := conn.ios.cnt - (min n conn.ios.cnt.toNat : Nat)
        ios.ptr := conn.ios.ptr + min n conn.ios.cnt.toNat } ⟨b.unread.drop n, b.arriving⟩ := by
  have hunread := h.unread
  refine ⟨by rw [← hunread, take_bytesAt], ?_, h.arriving⟩
  dsimp only
  rw [← hunread, drop_bytesAt]
  have hcnt : (conn.ios.cnt - (min n conn.ios.cnt.toNat : Nat)).toNat = conn.ios.cnt.toNat - n := by
    omega
  rcases Nat.le_total n conn.ios.cnt.toNat with hle | hle
  · rw [hcnt, Nat.min_eq_left hle]
  · rw [hcnt, Nat.sub_eq_zero_of_le hle, bytesAt, bytesAt]

/-- `myread` reads the buffer as `Buffered.read` does. -/
theorem Conn.Holds.myread {conn : Conn} {b : Buffered maxLine} (h : conn.Holds b) (n : Nat) :
    ∃ conn', myread conn n = (((b.read n).1.length : Int), (b.read n).1, conn') ∧
      conn'.Holds (b.read n).2 := by
  have hlength : b.unread.length = conn.ios.cnt.toNat := by rw [← h.unread, length_bytesAt]
  -- the state in which the loop of `myread` ends
  obtain ⟨value, filled, hfill, hholds, hvalue⟩ : ∃ value filled,
      fill conn.arriving conn.ios = (value, filled) ∧
        filled.Holds (if b.unread = [] then Buffered.refill b.arriving else b) ∧
        value = if (if b.unread = [] then Buffered.refill b.arriving else b).unread = [] then some 0
          else none := by
    by_cases hempty : b.unread = []
    · rw [if_pos hempty, h.arriving]
      refine fill_of_empty b.arriving ?_
      rw [hempty, List.length_nil] at hlength
      omega
    · have hpos := List.length_pos_of_ne_nil hempty
      rw [if_neg hempty]
      exact ⟨none, conn, fill_of_pos _ (by omega), h, (if_neg hempty).symm⟩
  have hread : b.read n =
      ((if b.unread = [] then Buffered.refill b.arriving else b).unread.take n,
        ⟨(if b.unread = [] then Buffered.refill b.arriving else b).unread.drop n,
          (if b.unread = [] then Buffered.refill b.arriving else b).arriving⟩) := rfl
  rw [hread]
  generalize (if b.unread = [] then Buffered.refill b.arriving else b) = r at *
  by_cases hend : r.unread = []
  · rw [if_pos hend] at hvalue
    subst hvalue
    refine ⟨filled, ?_, ?_⟩
    · simp [Homework.myread, hfill, hend]
    · rw [hend, List.drop_nil]
      exact ⟨hholds.unread.trans hend, hholds.arriving⟩
  · rw [if_neg hend] at hvalue
    subst hvalue
    obtain ⟨htake, hrest⟩ := hholds.take n
    refine ⟨_, ?_, hrest⟩
    simp only [Homework.myread, hfill, ← htake, length_bytesAt]

/-! ### Lines of a stream -/

/-- The bytes up to and including the first newline, or so many, or all that are left, whichever are
the fewest. -/
def takeLine (room : Nat) (s : List UInt8) : List UInt8 :=
  s.take (min (s.findIdx (· == newline) + 1) room)

theorem takeLine_cons (room : Nat) {c : UInt8} (s : List UInt8) (hc : c ≠ newline) :
    takeLine (room + 1) (c :: s) = c :: takeLine room s := by
  rw [takeLine, List.findIdx_cons, beq_false_of_ne hc, cond_false, Nat.add_min_add_right,
    List.take_succ_cons, takeLine]

theorem takeLine_newline (room : Nat) (s : List UInt8) :
    takeLine (room + 1) (newline :: s) = [newline] := by
  rw [takeLine, List.findIdx_cons, beq_self_eq_true, cond_true, Nat.add_min_add_right,
    List.take_succ_cons, Nat.zero_min, List.take_zero]

/-- The value of the counter when the loop is left, if it was `i` before the line. -/
def leftAt (i : Nat) (line : List UInt8) : Nat :=
  if line.getLast? = some newline then i + line.length - 1 else i + line.length

@[simp] theorem leftAt_nil (i : Nat) : leftAt i [] = i := rfl

@[simp] theorem leftAt_newline (i : Nat) : leftAt i [newline] = i := rfl

theorem leftAt_cons (i : Nat) {c : UInt8} (line : List UInt8) (hc : c ≠ newline) :
    leftAt i (c :: line) = leftAt (i + 1) line ∧ i < leftAt i (c :: line) := by
  cases line with
  | nil => simp [leftAt, hc]
  | cons d line =>
    simp only [leftAt, List.getLast?_cons_cons, List.length_cons]
    split_ifs <;> omega

/-- The counter is set back when the input has ended before the line. -/
def Ended (room : Nat) (line : List UInt8) : Prop :=
  line.getLast? ≠ some newline ∧ line.length < room

instance (room : Nat) (line : List UInt8) : Decidable (Ended room line) :=
  inferInstanceAs (Decidable (_ ∧ _))

theorem ended_cons {room : Nat} {c : UInt8} {line : List UInt8} (hc : c ≠ newline) :
    Ended (room + 1) (c :: line) ↔ Ended room line := by
  cases line <;> simp [Ended, hc]

/-- The loop of `readline` on a stream, from a counter that has not overflowed. -/
theorem Conn.Holds.readlineLoop {conn : Conn} {b : Buffered maxLine} (h : conn.Holds b)
    (room : Nat) {i : Nat} (hi : 1 ≤ i ∧ i < 2 ^ 31) :
    if leftAt i (takeLine room b.stream) < 2 ^ 31 then
      ∃ conn' b', conn'.Holds b' ∧
        b'.stream = b.stream.drop (takeLine room b.stream).length ∧
        readlineLoop room i conn = some (⟨leftAt i (takeLine room b.stream) -
          if Ended room (takeLine room b.stream) then 1 else 0, takeLine room b.stream⟩, conn')
    else readlineLoop room i conn = none := by
  induction room generalizing i conn b with
  | zero =>
    have hline : takeLine 0 b.stream = [] := by simp [takeLine]
    rw [hline, leftAt_nil, if_pos hi.2]
    exact ⟨conn, b, h, rfl, by simp [Homework.readlineLoop, Ended]⟩
  | succ room ih =>
    obtain ⟨conn', hread, hholds⟩ := h.myread 1
    cases hstream : b.stream with
    | nil =>
      obtain ⟨hbytes, hrest⟩ := Buffered.read_of_stream_nil 1 hstream
      rw [hbytes] at hread
      have hline : takeLine (room + 1) [] = [] := rfl
      rw [hline, leftAt_nil, if_pos hi.2]
      refine ⟨conn', _, hholds, hrest, ?_⟩
      rw [Homework.readlineLoop, hread]
      by_cases hone : i = 1
      · simp [hone, Ended]
      · simp [hone, Ended]
    | cons c s =>
      obtain ⟨hbytes, hrest⟩ := Buffered.read_one hstream
      rw [hbytes] at hread
      by_cases hc : c = newline
      · subst hc
        rw [takeLine_newline, leftAt_newline, if_pos hi.2]
        exact ⟨conn', _, hholds, hrest, by simp [Homework.readlineLoop, hread, Ended]⟩
      · obtain ⟨hleft, hlt⟩ := leftAt_cons i (takeLine room s) hc
        rw [takeLine_cons room s hc]
        by_cases hover : 2 ^ 31 ≤ i + 1
        · rw [if_neg (by omega), Homework.readlineLoop, hread]
          exact (if_neg hc).trans (if_pos hover)
        · have hturn : Homework.readlineLoop (room + 1) i conn =
              (Homework.readlineLoop room (i + 1) conn').map fun r ↦ (r.1.cons c, r.2) := by
            rw [Homework.readlineLoop, hread]
            exact (if_neg hc).trans (if_neg hover)
          have hnext := ih hholds (i := i + 1) (by omega)
          rw [hrest, ← hleft] at hnext
          by_cases hsmall : leftAt i (c :: takeLine room s) < 2 ^ 31
          · rw [if_pos hsmall] at hnext ⊢
            obtain ⟨last, b', hlast, hafter, hloop⟩ := hnext
            refine ⟨last, b', hlast, by rw [hafter, List.length_cons, List.drop_succ_cons], ?_⟩
            rw [hturn, hloop, if_congr (ended_cons hc) rfl rfl]
            rfl
          · rw [if_neg hsmall] at hnext ⊢
            rw [hturn, hnext]
            rfl

/-! ### Calls on a stream -/

/-- The line that `readline` stores of a stream. -/
def nextLine (maxlen : Nat) (s : List UInt8) : List UInt8 := takeLine (maxlen - 1) s

/-- What `readline` answers when this is the line. -/
def answer (maxlen : Nat) (line : List UInt8) : Option Answer :=
  if leftAt 1 line < 2 ^ 31 then
    some ⟨leftAt 1 line - if Ended (maxlen - 1) line then 1 else 0, line⟩
  else none

/-- The answers to one call after the other. -/
def answers : List Nat → List UInt8 → Option (List Answer)
  | [], _ => some []
  | maxlen :: calls, s => do
    let first ← answer maxlen (nextLine maxlen s)
    let rest ← answers calls (s.drop (nextLine maxlen s).length)
    pure (first :: rest)

/-- What is stored and returned depends on the stream alone. -/
theorem Conn.Holds.readlines {conn : Conn} {b : Buffered maxLine} (h : conn.Holds b)
    (calls : List Nat) : readlines conn calls = answers calls b.stream := by
  induction calls generalizing conn b with
  | nil => rfl
  | cons maxlen calls ih =>
    have hloop := h.readlineLoop (maxlen - 1) (i := 1) (by omega)
    rw [Homework.readlines, readline, answers, answer, nextLine]
    by_cases hsmall : leftAt 1 (takeLine (maxlen - 1) b.stream) < 2 ^ 31
    · rw [if_pos hsmall] at hloop ⊢
      obtain ⟨last, b', hlast, hafter, hline⟩ := hloop
      simp only [hline, bind, Option.bind_some, ih hlast, hafter]
    · rw [if_neg hsmall] at hloop ⊢
      rw [hloop]
      rfl

/-- Each call stores the next bytes of the stream, up to a newline or as many as there is room for,
and returns their number, which is zero only at the end of the stream. -/
def Exact : List Nat → List UInt8 → List Answer → Prop
  | [], _, [] => True
  | maxlen :: calls, s, a :: answers =>
    a.stored = nextLine maxlen s ∧ a.value = a.stored.length ∧ (a.value = 0 → s = []) ∧
      Exact calls (s.drop a.stored.length) answers
  | _, _, _ => False

/-- The line ends with a newline, or the stream has ended before there was no room; and the counter
does not overflow. -/
def Counted (maxlen : Nat) (line : List UInt8) : Prop :=
  (line.getLast? = some newline ∧ line.length < 2 ^ 31) ∨
    (line.length + 1 < maxlen ∧ line.length + 1 < 2 ^ 31)

instance (maxlen : Nat) (line : List UInt8) : Decidable (Counted maxlen line) :=
  inferInstanceAs (Decidable (_ ∨ _))

/-- Exactly then the answer is the number of bytes stored. -/
theorem answer_eq_iff (maxlen : Nat) (line : List UInt8) :
    answer maxlen line = some ⟨line.length, line⟩ ↔ Counted maxlen line := by
  unfold answer Counted leftAt Ended
  by_cases hnewline : line.getLast? = some newline
  · have hpos : 0 < line.length := List.length_pos_of_ne_nil (by rintro rfl; simp at hnewline)
    simp only [hnewline, if_true, ne_eq, not_true_eq_false, false_and, if_false, true_and,
      Option.ite_none_right_eq_some, Option.some.injEq, Answer.mk.injEq, and_true]
    omega
  · simp only [hnewline, if_false, ne_eq, not_false_eq_true, true_and, false_and, false_or,
      Option.ite_none_right_eq_some, Option.some.injEq, Answer.mk.injEq, and_true]
    split_ifs <;> omega

/-- Every call finds a line that it counts. -/
def AllCounted : List Nat → List UInt8 → Prop
  | [], _ => True
  | maxlen :: calls, s =>
    Counted maxlen (nextLine maxlen s) ∧ AllCounted calls (s.drop (nextLine maxlen s).length)

/-- With room for a byte, no byte is stored only at the end of the stream. -/
theorem nextLine_eq_nil {maxlen : Nat} {s : List UInt8} (hmaxlen : 2 ≤ maxlen)
    (h : nextLine maxlen s = []) : s = [] :=
  (List.take_eq_nil_iff.mp h).resolve_left (by omega)

theorem answers_iff {calls : List Nat} (hcalls : ∀ maxlen ∈ calls, 2 ≤ maxlen) (s : List UInt8) :
    (∃ as, answers calls s = some as ∧ Exact calls s as) ↔ AllCounted calls s := by
  induction calls generalizing s with
  | nil => exact ⟨fun _ ↦ trivial, fun _ ↦ ⟨[], rfl, trivial⟩⟩
  | cons maxlen calls ih =>
    rw [List.forall_mem_cons] at hcalls
    rw [AllCounted, ← answer_eq_iff, ← ih hcalls.2]
    constructor
    · rintro ⟨as, hanswers, hexact⟩
      obtain ⟨a, hfirst, rest, hrest, hpure⟩ :
          ∃ a, answer maxlen (nextLine maxlen s) = some a ∧ ∃ rest,
            answers calls (s.drop (nextLine maxlen s).length) = some rest ∧ a :: rest = as := by
        simpa [answers, Option.bind_eq_some_iff] using hanswers
      subst hpure
      obtain ⟨hstored, hvalue, -, hexact⟩ := hexact
      rw [hstored] at hvalue hexact
      have ha : a = ⟨(nextLine maxlen s).length, nextLine maxlen s⟩ := by
        cases a
        rw [← hvalue, ← hstored]
      exact ⟨ha ▸ hfirst, rest, hrest, hexact⟩
    · rintro ⟨hfirst, rest, hrest, hexact⟩
      refine ⟨⟨(nextLine maxlen s).length, nextLine maxlen s⟩ :: rest, ?_, rfl, rfl, fun hzero ↦ ?_,
        hexact⟩
      · rw [answers, hfirst, hrest]
        rfl
      · exact nextLine_eq_nil hcalls.1 (List.length_eq_zero_iff.mp (by simpa using hzero))

/-- However the stream comes in pieces, all calls of `readline` store the next line and return its
length exactly when every one of them finds a line that it counts. -/
theorem readlines_iff (buffer : ByteMemory) (arriving : List (Arrival maxLine)) {calls : List Nat}
    (hcalls : ∀ maxlen ∈ calls, 2 ≤ maxlen) :
    (∃ as, readlines (initIostr buffer (arriving.map some)) calls = some as ∧
      Exact calls (arriving.flatMap Arrival.bytes) as) ↔
        AllCounted calls (arriving.flatMap Arrival.bytes) := by
  rw [(holds_initIostr buffer arriving).readlines]
  exact answers_iff hcalls _

/-- Two lines, the second without a newline, in pieces that do not respect them. -/
theorem readlines_iff_pieces : ∃ as, readlines (initIostr (fun _ ↦ 0)
    [some (.piece [97] (by decide) (by decide)), some .interrupted,
      some (.piece [98, 10, 99] (by decide) (by decide))]) [256, 256, 2] = some as ∧
      Exact [256, 256, 2] [97, 98, 10, 99] as :=
  (readlines_iff (fun _ ↦ 0) [.piece [97] (by decide) (by decide), .interrupted,
    .piece [98, 10, 99] (by decide) (by decide)] (by decide)).mpr
      ⟨by decide, by decide, by decide, trivial⟩

/-- A buffer for one byte is filled and the value returned is two. -/
theorem readlines_filled : ¬ ∃ as, readlines (initIostr (fun _ ↦ 0)
    [some (.piece [97, 98] (by decide) (by decide))]) [2] = some as ∧ Exact [2] [97, 98] as := by
  rintro ⟨as, hanswers, hexact⟩
  obtain rfl : [⟨2, [97]⟩] = as := Option.some.inj hanswers
  exact absurd hexact.2.1 (by decide)

end SystemProgramming.Homework
