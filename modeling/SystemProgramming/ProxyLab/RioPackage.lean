import SystemProgramming.ProxyLab.Cutting

/-!
# The Rio package of `csapp.c`

`rio_read` fills the buffer of a `rio_t` when there is nothing left in it, and hands out bytes of it
from a cursor on; `rio_readnb` and `rio_readlineb` call it until they have enough. `write` may take
fewer bytes than it is given, and `rio_writen` calls it until it has taken them all.

What a sequence of calls returns and stores is a function of the bytes that the descriptor brings and
of whether a failure comes after them (`rio_calls`): it does not matter in which pieces they come,
which calls of `read` are interrupted and how reads of bytes and of lines alternate. On a descriptor
that does not fail this is what the functions of the model with a `Buffered` do (`call_readnb`,
`call_readlineb`). What a sequence of calls of `rio_writen` has brought to its descriptor is at any
time a beginning of what was to be written, and all of it just if the calls have returned
(`writes_prefix`).

The counter of `rio_readlineb` is one ahead of the bytes that are stored unless the line ends with a
newline, and is returned as it is.
-/

set_option autoImplicit false
set_option relaxedAutoImplicit false

namespace SystemProgramming.ProxyLab

open Library

namespace Csapp

/-! ### The source -/

/-- The counter and the cursor of `rio_t`, and its buffer. -/
structure RioT where
  rioCnt : Int
  rioBufptr : Nat
  rioBuf : ByteMemory

/-- A `rio_t` and what the coming calls of `read` on its descriptor do; `none` is a failure other
than `EINTR`. -/
structure Reader where
  rio : RioT
  arriving : List (Option (Arrival rioBufSize))

/-- `rio_readinitb`, over whatever is in the buffer. -/
def rioReadinitb (rioBuf : ByteMemory) (arriving : List (Option (Arrival rioBufSize))) : Reader :=
  ⟨⟨0, 0, rioBuf⟩, arriving⟩

/-- The loop of `rio_read`, and the value it returns if it does not end with bytes in the buffer. -/
def refill : List (Option (Arrival rioBufSize)) → RioT → Option Int × Reader
  | [], rio => if 0 < rio.rioCnt then (none, ⟨rio, []⟩) else (some 0, ⟨{ rio with rioCnt := 0 }, []⟩)
  | call :: arriving, rio =>
    if 0 < rio.rioCnt then (none, ⟨rio, call :: arriving⟩)
    else
      match call with
      | none => (some (-1), ⟨{ rio with rioCnt := -1 }, arriving⟩)
      | some .interrupted => refill arriving { rio with rioCnt := -1 }
      | some (.piece bytes _ _) => refill arriving ⟨bytes.length, 0, putBytes rio.rioBuf 0 bytes⟩

/-- `rio_read`, with the bytes that it copies. -/
def rioRead (rp : Reader) (n : Nat) : Int × Bytes × Reader :=
  match refill rp.arriving rp.rio with
  | (some value, rp) => (value, [], rp)
  | (none, rp) =>
    let cnt := if rp.rio.rioCnt < n then rp.rio.rioCnt.toNat else n
    (cnt, bytesAt rp.rio.rioBuf rp.rio.rioBufptr cnt,
      { rp with rio.rioCnt := rp.rio.rioCnt - cnt, rio.rioBufptr := rp.rio.rioBufptr + cnt })

/-- The loop of `rio_readnb`. A failure of `rio_read` is not `EINTR`. -/
def readnbLoop (n nleft bufp : Nat) (m : ByteMemory) (rp : Reader) : Int × ByteMemory × Reader :=
  if _hleft : nleft = 0 then ((n - nleft : Nat), m, rp)
  else if _hfailed : (rioRead rp nleft).1 < 0 then (-1, m, (rioRead rp nleft).2.2)
  else if _hend : (rioRead rp nleft).1 = 0 then ((n - nleft : Nat), m, (rioRead rp nleft).2.2)
  else
    let nread := (rioRead rp nleft).1.toNat
    readnbLoop n (nleft - nread) (bufp + nread) (putBytes m bufp (rioRead rp nleft).2.1)
      (rioRead rp nleft).2.2
  termination_by nleft
  decreasing_by omega

/-- `rio_readnb`. -/
def rioReadnb (rp : Reader) (usrbuf n : Nat) (m : ByteMemory) : Int × ByteMemory × Reader :=
  readnbLoop n n usrbuf m rp

/-- The loop of `rio_readlineb` with so many turns left, and the zero byte behind it. The increment of
the `int` is undefined when it overflows. -/
def readlinebLoop : Nat → Nat → Nat → ByteMemory → Reader → Option (Int × ByteMemory × Reader)
  | 0, n, bufp, m, rp => some (n, Function.update m bufp 0, rp)
  | room + 1, n, bufp, m, rp =>
    match rioRead rp 1 with
    | (1, c :: _, rp) =>
      let m := Function.update m bufp c
      if c = newline then some (n, Function.update m (bufp + 1) 0, rp)
      else if 2 ^ 31 ≤ n + 1 then none
      else readlinebLoop room (n + 1) (bufp + 1) m rp
    | (0, _, rp) => if n = 1 then some (0, m, rp) else some (n, Function.update m bufp 0, rp)
    | (_, _, rp) => some (-1, m, rp)

/-- `rio_readlineb`. -/
def rioReadlineb (rp : Reader) (usrbuf maxlen : Nat) (m : ByteMemory) :
    Option (Int × ByteMemory × Reader) :=
  readlinebLoop (maxlen - 1) 1 usrbuf m rp

/-- Why a call does not return: an `int` overflows, or the program ends in `unix_error`. -/
inductive Stop
  | undefined
  | unixError (msg : String)
  deriving DecidableEq

/-- `Rio_readnb`. -/
def wrapReadnb (rp : Reader) (usrbuf n : Nat) (m : ByteMemory) :
    Except Stop (Int × ByteMemory × Reader) :=
  let r := rioReadnb rp usrbuf n m
  if r.1 < 0 then .error (.unixError "Rio_readnb error") else .ok r

/-- `Rio_readlineb`. -/
def wrapReadlineb (rp : Reader) (usrbuf maxlen : Nat) (m : ByteMemory) :
    Except Stop (Int × ByteMemory × Reader) :=
  match rioReadlineb rp usrbuf maxlen m with
  | none => .error .undefined
  | some r => if r.1 < 0 then .error (.unixError "Rio_readlineb error") else .ok r

/-- A call that reads into an array. -/
inductive ReadCall
  | readnb (usrbuf n : Nat)
  | readlineb (usrbuf maxlen : Nat)

def Reader.call (rp : Reader) (m : ByteMemory) : ReadCall → Except Stop (Int × ByteMemory × Reader)
  | .readnb usrbuf n => wrapReadnb rp usrbuf n m
  | .readlineb usrbuf maxlen => wrapReadlineb rp usrbuf maxlen m

/-- One call after the other, with what they return. -/
def Reader.calls : List ReadCall → ByteMemory → Reader → Except Stop (List Int × ByteMemory × Reader)
  | [], m, rp => .ok ([], m, rp)
  | call :: calls, m, rp => do
    let (value, m, rp) ← rp.call m call
    let (values, m, rp) ← Reader.calls calls m rp
    return (value :: values, m, rp)

/-! ### The bytes of a descriptor -/

/-- What a descriptor still brings: bytes, and after them the end of the input or a failure. -/
structure Source where
  bytes : Bytes
  fails : Bool

/-- What calls of `read` bring together. -/
def source : List (Option (Arrival rioBufSize)) → Source
  | [] => ⟨[], false⟩
  | none :: _ => ⟨[], true⟩
  | some arrival :: arriving => ⟨arrival.bytes ++ (source arriving).bytes, (source arriving).fails⟩

/-- The line is not complete: neither does it end with a newline nor does it fill the array. -/
def Short (room : Nat) (line : Bytes) : Prop := line.getLast? ≠ some newline ∧ line.length < room

instance (room : Nat) (line : Bytes) : Decidable (Short room line) :=
  inferInstanceAs (Decidable (_ ∧ _))

/-- The counter behind a line, from `n` on. -/
def counted (n : Nat) (line : Bytes) : Nat :=
  if line.getLast? = some newline then n + line.length - 1 else n + line.length

/-- A call, as far as the bytes are concerned. -/
def Source.call (s : Source) (m : ByteMemory) : ReadCall → Except Stop (Int × ByteMemory × Source)
  | .readnb usrbuf n =>
    if s.fails ∧ s.bytes.length < n then .error (.unixError "Rio_readnb error")
    else .ok ((s.bytes.take n).length, putBytes m usrbuf (s.bytes.take n),
      { s with bytes := s.bytes.drop n })
  | .readlineb usrbuf maxlen =>
    let line := readable (maxlen - 1) s.bytes
    if s.fails ∧ Short (maxlen - 1) line then .error (.unixError "Rio_readlineb error")
    else if Short (maxlen - 1) line ∧ line = [] then .ok (0, m, s)
    else .ok (counted 1 line, putBytes m usrbuf (line ++ [0]),
      { s with bytes := s.bytes.drop line.length })

def Source.calls : List ReadCall → ByteMemory → Source → Except Stop (List Int × ByteMemory × Source)
  | [], m, s => .ok ([], m, s)
  | call :: calls, m, s => do
    let (value, m, s) ← s.call m call
    let (values, m, s) ← Source.calls calls m s
    return (value :: values, m, s)

/-- The bytes that are left in the buffer and those to come are the ones of `s`. -/
structure Reader.Brings (rp : Reader) (s : Source) : Prop where
  bytes : bytesAt rp.rio.rioBuf rp.rio.rioBufptr rp.rio.rioCnt.toNat ++ (source rp.arriving).bytes =
    s.bytes
  fails : (source rp.arriving).fails = s.fails
  inside : rp.rio.rioBufptr + rp.rio.rioCnt.toNat ≤ rioBufSize

theorem brings_rioReadinitb (rioBuf : ByteMemory) (arriving : List (Option (Arrival rioBufSize))) :
    (rioReadinitb rioBuf arriving).Brings (source arriving) :=
  ⟨rfl, rfl, Nat.zero_le _⟩

/-! ### `rio_read` -/

/-- With bytes in the buffer there is nothing to do. -/
theorem refill_of_pos (arriving : List (Option (Arrival rioBufSize))) {rio : RioT}
    (hcnt : 0 < rio.rioCnt) : refill arriving rio = (none, ⟨rio, arriving⟩) := by
  cases arriving with
  | nil => exact if_pos hcnt
  | cons call arriving => exact if_pos hcnt

/-- The loop ends with the bytes of the next piece, or at the end of what is brought. -/
theorem refill_of_empty (arriving : List (Option (Arrival rioBufSize))) {rio : RioT}
    (hcnt : rio.rioCnt ≤ 0) (hptr : rio.rioBufptr ≤ rioBufSize) :
    (∃ rp, refill arriving rio = (none, rp) ∧ rp.Brings (source arriving) ∧ 0 < rp.rio.rioCnt) ∨
    ((source arriving).bytes = [] ∧ ∃ rp,
      refill arriving rio = (some (if (source arriving).fails then -1 else 0), rp) ∧
      ((source arriving).fails = false → rp.Brings (source arriving))) := by
  induction arriving generalizing rio with
  | nil =>
    refine Or.inr ⟨rfl, ⟨{ rio with rioCnt := 0 }, []⟩, if_neg (by omega), fun _ ↦ ⟨rfl, rfl, hptr⟩⟩
  | cons call arriving ih =>
    have hempty : ¬ 0 < rio.rioCnt := by omega
    cases call with
    | none => exact Or.inr ⟨rfl, _, if_neg hempty, fun h ↦ by cases h⟩
    | some arrival =>
      cases arrival with
      | interrupted =>
        have hturn : refill (some .interrupted :: arriving) rio =
            refill arriving { rio with rioCnt := -1 } := if_neg hempty
        rw [hturn]
        exact ih (show (-1 : Int) ≤ 0 by decide) hptr
      | piece bytes hne hsize =>
        have hpos := List.length_pos_of_ne_nil hne
        have hcnt' : (0 : Int) < bytes.length := by omega
        have hturn : refill (some (.piece bytes hne hsize) :: arriving) rio =
            refill arriving ⟨bytes.length, 0, putBytes rio.rioBuf 0 bytes⟩ := if_neg hempty
        rw [hturn]
        refine Or.inl ⟨⟨⟨bytes.length, 0, putBytes rio.rioBuf 0 bytes⟩, arriving⟩,
          refill_of_pos arriving hcnt', ⟨?_, rfl, ?_⟩, hcnt'⟩
        · exact congrArg (· ++ (source arriving).bytes) (bytesAt_putBytes rio.rioBuf 0 bytes)
        · dsimp only
          omega

/-- What `rio_read` hands out of the buffer. -/
theorem Reader.Brings.take {rp : Reader} {s : Source} (h : rp.Brings s) (hcnt : 0 < rp.rio.rioCnt)
    {n cnt : Nat} (heq : cnt = if rp.rio.rioCnt < n then rp.rio.rioCnt.toNat else n) :
    bytesAt rp.rio.rioBuf rp.rio.rioBufptr cnt = s.bytes.take cnt ∧ cnt ≤ s.bytes.length ∧
      Reader.Brings { rp with
        rio.rioCnt := rp.rio.rioCnt - cnt
        rio.rioBufptr := rp.rio.rioBufptr + cnt } { s with bytes := s.bytes.drop cnt } := by
  have hle : cnt ≤ rp.rio.rioCnt.toNat := by
    split_ifs at heq <;> omega
  have hlength : cnt ≤ (bytesAt rp.rio.rioBuf rp.rio.rioBufptr rp.rio.rioCnt.toNat).length := by
    rw [length_bytesAt]
    exact hle
  have hleft : (rp.rio.rioCnt - cnt).toNat = rp.rio.rioCnt.toNat - cnt := by omega
  have hinside := h.inside
  rw [← h.bytes]
  refine ⟨?_, ?_, ⟨?_, h.fails, ?_⟩⟩
  · rw [List.take_append_of_le_length hlength, take_bytesAt, Nat.min_eq_left hle]
  · rw [List.length_append]
    omega
  · dsimp only
    rw [List.drop_append_of_le_length hlength, drop_bytesAt, hleft]
  · dsimp only
    omega

/-- `rio_read` brings some bytes as long as there are any, and then the end or the failure. -/
theorem Reader.Brings.read {rp : Reader} {s : Source} (h : rp.Brings s) {n : Nat} (hn : 0 < n) :
    (∃ (cnt : Nat) (rp' : Reader), 0 < cnt ∧ cnt ≤ n ∧ cnt ≤ s.bytes.length ∧
      rioRead rp n = ((cnt : Int), s.bytes.take cnt, rp') ∧ rp'.Brings { s with bytes := s.bytes.drop cnt }) ∨
    (s.bytes = [] ∧ ∃ rp', rioRead rp n = (if s.fails then -1 else 0, [], rp') ∧
      (s.fails = false → rp'.Brings s)) := by
  -- the state in which the loop of `rio_read` ends
  obtain ⟨rp', hrefill, hbrings, hpos⟩ | ⟨hend, rp', hrefill, hbrings⟩ :
      (∃ rp', refill rp.arriving rp.rio = (none, rp') ∧ rp'.Brings s ∧ 0 < rp'.rio.rioCnt) ∨
      (s.bytes = [] ∧ ∃ rp', refill rp.arriving rp.rio = (some (if s.fails then -1 else 0), rp') ∧
        (s.fails = false → rp'.Brings s)) := by
    by_cases hcnt : 0 < rp.rio.rioCnt
    · exact Or.inl ⟨rp, refill_of_pos rp.arriving hcnt, h, hcnt⟩
    · have hzero : rp.rio.rioCnt.toNat = 0 := by omega
      have hsource : source rp.arriving = s := by
        have hbytes := h.bytes
        rw [hzero] at hbytes
        exact (congrArg₂ Source.mk hbytes h.fails :)
      have hinside := h.inside
      rw [← hsource]
      exact refill_of_empty rp.arriving (by omega) (by omega)
  · obtain ⟨hbytes, hle, hafter⟩ := hbrings.take hpos (n := n) rfl
    refine Or.inl ⟨_, _, ?_, ?_, hle, ?_, hafter⟩
    · split_ifs <;> omega
    · split_ifs <;> omega
    · rw [rioRead, hrefill, ← hbytes]
  · refine Or.inr ⟨hend, rp', ?_, hbrings⟩
    rw [rioRead, hrefill]

/-! ### `rio_readnb` and `rio_readlineb` -/

/-- With `nleft` bytes to go the loop stores as many of the bytes as there are. -/
theorem Reader.Brings.readnb {rp : Reader} {s : Source} (h : rp.Brings s) {n nleft : Nat}
    (hle : nleft ≤ n) (bufp : Nat) (m : ByteMemory) :
    if s.fails ∧ s.bytes.length < nleft then (readnbLoop n nleft bufp m rp).1 = -1
    else ∃ rp' : Reader, rp'.Brings { s with bytes := s.bytes.drop nleft } ∧
      readnbLoop n nleft bufp m rp = (((n - nleft + (s.bytes.take nleft).length : Nat) : Int),
        putBytes m bufp (s.bytes.take nleft), rp') := by
  induction nleft using Nat.strongRecOn generalizing rp s bufp m with
  | _ nleft ih =>
    by_cases hzero : nleft = 0
    · subst hzero
      rw [if_neg fun hfails ↦ Nat.not_lt_zero _ hfails.2]
      refine ⟨rp, by simpa using h, ?_⟩
      unfold readnbLoop
      simp [putBytes]
    obtain ⟨cnt, rp', hpos, hcnt, hlength, hread, hafter⟩ | ⟨hend, rp', hread, hafter⟩ :=
      h.read (show 0 < nleft by omega)
    · have hturn : readnbLoop n nleft bufp m rp = readnbLoop n (nleft - cnt) (bufp + cnt)
          (putBytes m bufp (s.bytes.take cnt)) rp' := by
        have hvalue : (rioRead rp nleft).1 = (cnt : Int) := by rw [hread]
        rw [readnbLoop, dif_neg hzero, dif_neg (by omega), dif_neg (by omega)]
        simp only [hread, Int.toNat_natCast]
      have hsplit : s.bytes.take nleft = s.bytes.take cnt ++ (s.bytes.drop cnt).take (nleft - cnt) := by
        rw [← List.take_add, Nat.add_sub_cancel' hcnt]
      have hlater := ih (nleft - cnt) (by omega) hafter (by omega) (bufp + cnt)
        (putBytes m bufp (s.bytes.take cnt))
      rw [hturn]
      dsimp only at hlater
      rw [List.length_drop] at hlater
      by_cases hfails : s.fails ∧ s.bytes.length < nleft
      · rw [if_pos hfails]
        rwa [if_pos ⟨hfails.1, by omega⟩] at hlater
      · rw [if_neg fun hlater ↦ hfails ⟨hlater.1, by omega⟩] at hlater
        rw [if_neg hfails]
        obtain ⟨last, hlast, hloop⟩ := hlater
        have htaken : (s.bytes.take cnt).length = cnt := List.length_take_of_le hlength
        refine ⟨last, ?_, ?_⟩
        · rwa [List.drop_drop, Nat.add_sub_cancel' hcnt] at hlast
        · rw [hloop, hsplit, putBytes_append, List.length_append, htaken]
          congr 2
          omega
    · have hvalue : (rioRead rp nleft).1 = if s.fails then -1 else 0 := by rw [hread]
      by_cases hfails : s.fails
      · rw [if_pos hfails] at hvalue
        rw [if_pos ⟨hfails, by rw [hend, List.length_nil]; omega⟩, readnbLoop, dif_neg hzero,
          dif_pos (by omega)]
      · rw [if_neg hfails] at hvalue
        rw [if_neg fun h ↦ hfails h.1, hend, List.take_nil, List.drop_nil]
        have hbrings := hafter (Bool.eq_false_iff.mpr hfails)
        refine ⟨rp', by rwa [← hend], ?_⟩
        rw [readnbLoop, dif_neg hzero, dif_neg (by omega), dif_pos hvalue, hread]
        rfl

theorem short_cons {room : Nat} {c : UInt8} {line : Bytes} (hc : c ≠ newline) :
    Short (room + 1) (c :: line) ↔ Short room line := by
  cases line with
  | nil => simp [Short, hc]
  | cons d line => simp [Short]

theorem counted_cons (n : Nat) {c : UInt8} (line : Bytes) (hc : c ≠ newline) :
    counted n (c :: line) = counted (n + 1) line := by
  cases line with
  | nil => simp [counted, hc]
  | cons d line =>
    simp only [counted, List.getLast?_cons_cons, List.length_cons]
    split_ifs
    · omega
    · omega

/-- The loop from a counter that does not overflow stores the line. -/
theorem Reader.Brings.readlineb {rp : Reader} {s : Source} (h : rp.Brings s) {room n : Nat}
    (hn : 1 ≤ n) (hroom : n + room < 2 ^ 31) (bufp : Nat) (m : ByteMemory) :
    if s.fails ∧ Short room (readable room s.bytes) then
      ∃ m' rp', readlinebLoop room n bufp m rp = some (-1, m', rp')
    else ∃ rp' : Reader,
      rp'.Brings { s with bytes := s.bytes.drop (readable room s.bytes).length } ∧
      readlinebLoop room n bufp m rp = some
        (if Short room (readable room s.bytes) ∧ readable room s.bytes = [] ∧ n = 1 then (0, m, rp')
        else (((counted n (readable room s.bytes) : Nat) : Int),
          putBytes m bufp (readable room s.bytes ++ [0]), rp')) := by
  induction room generalizing rp s n bufp m with
  | zero =>
    have hlong : ¬ Short 0 (readable 0 s.bytes) := fun hshort ↦ Nat.not_lt_zero _ hshort.2
    rw [if_neg fun hfails ↦ hlong hfails.2]
    refine ⟨rp, h, ?_⟩
    rw [if_neg fun hshort ↦ hlong hshort.1]
    rfl
  | succ room ih =>
    obtain ⟨cnt, rp', hpos, hcnt, hlength, hread, hafter⟩ | ⟨hend, rp', hread, hafter⟩ :=
      h.read Nat.one_pos
    · obtain rfl : cnt = 1 := by omega
      obtain ⟨c, rest, hbytes⟩ := List.exists_cons_of_length_pos (show 0 < s.bytes.length by omega)
      rw [hbytes] at hread hafter ⊢
      rw [List.drop_one, List.tail_cons] at hafter
      have hread' : rioRead rp 1 = (1, [c], rp') := hread
      by_cases hc : c = newline
      · subst hc
        have hline : readable (room + 1) (newline :: rest) = [newline] := if_pos rfl
        have hlong : ¬ Short (room + 1) [newline] := fun hshort ↦ hshort.1 rfl
        rw [hline, if_neg fun hfails ↦ hlong hfails.2]
        refine ⟨rp', hafter, ?_⟩
        rw [if_neg fun hshort ↦ hlong hshort.1, readlinebLoop, hread']
        refine (if_pos rfl).trans ?_
        rw [Function.update_comm (by omega)]
        rfl
      · have hline : readable (room + 1) (c :: rest) = c :: readable room rest := if_neg hc
        have hturn : readlinebLoop (room + 1) n bufp m rp =
            readlinebLoop room (n + 1) (bufp + 1) (Function.update m bufp c) rp' := by
          rw [readlinebLoop, hread']
          exact (if_neg hc).trans (if_neg (by omega))
        have hlater := ih hafter (show 1 ≤ n + 1 by omega) (by omega) (bufp + 1)
          (Function.update m bufp c)
        dsimp only at hlater
        have hshort : Short (room + 1) (c :: readable room rest) ↔ Short room (readable room rest) :=
          short_cons hc
        rw [hturn, hline]
        by_cases hfails : s.fails ∧ Short room (readable room rest)
        · rw [if_pos hfails] at hlater
          rwa [if_pos ⟨hfails.1, hshort.mpr hfails.2⟩]
        · rw [if_neg hfails] at hlater
          rw [if_neg fun h ↦ hfails ⟨h.1, hshort.mp h.2⟩]
          obtain ⟨last, hlast, hloop⟩ := hlater
          refine ⟨last, hlast, ?_⟩
          rw [hloop, if_neg fun hone ↦ by omega, if_neg fun hnil ↦ List.cons_ne_nil _ _ hnil.2.1,
            counted_cons n _ hc, putBytes_update m (Nat.lt_succ_self bufp)]
          rfl
    · have hline : readable (room + 1) [] = [] := rfl
      have hshort : Short (room + 1) [] := ⟨by simp, Nat.succ_pos room⟩
      rw [hend, hline]
      by_cases hfails : s.fails
      · rw [if_pos ⟨hfails, hshort⟩]
        rw [if_pos hfails] at hread
        refine ⟨m, rp', ?_⟩
        rw [readlinebLoop, hread]
        rfl
      · rw [if_neg fun h ↦ hfails h.1]
        rw [if_neg hfails] at hread
        have hbrings := hafter (Bool.eq_false_iff.mpr hfails)
        refine ⟨rp', by rwa [List.drop_nil, ← hend], ?_⟩
        rw [readlinebLoop, hread]
        by_cases hone : n = 1
        · rw [if_pos ⟨hshort, rfl, hone⟩]
          exact if_pos hone
        · rw [if_neg fun h ↦ hone h.2.2]
          exact if_neg hone

/-! ### Sequences of calls -/

/-- The counter of `rio_readlineb` does not overflow. -/
def ReadCall.Sized : ReadCall → Prop
  | .readnb _ _ => True
  | .readlineb _ maxlen => maxlen < 2 ^ 31

/-- A call does with the buffer what it does with the bytes. -/
theorem Reader.Brings.call {rp : Reader} {s : Source} (h : rp.Brings s) {c : ReadCall} (hc : c.Sized)
    (m : ByteMemory) :
    match s.call m c with
    | .error stop => rp.call m c = .error stop
    | .ok (value, m', s') => ∃ rp', rp.call m c = .ok (value, m', rp') ∧ rp'.Brings s' := by
  cases c with
  | readnb usrbuf n =>
    have hloop := h.readnb (le_refl n) usrbuf m
    rw [Source.call]
    by_cases hfails : s.fails ∧ s.bytes.length < n
    · rw [if_pos hfails] at hloop ⊢
      exact if_pos (by rw [rioReadnb, hloop]; decide)
    · rw [if_neg hfails] at hloop ⊢
      obtain ⟨rp', hafter, hloop⟩ := hloop
      rw [Nat.sub_self, Nat.zero_add] at hloop
      refine ⟨rp', ?_, hafter⟩
      rw [Reader.call, wrapReadnb, rioReadnb, hloop]
      exact if_neg (by dsimp only; omega)
  | readlineb usrbuf maxlen =>
    have hsized : maxlen < 2 ^ 31 := hc
    have hloop := h.readlineb (le_refl 1) (show 1 + (maxlen - 1) < 2 ^ 31 by omega) usrbuf m
    rw [Source.call]
    by_cases hfails : s.fails ∧ Short (maxlen - 1) (readable (maxlen - 1) s.bytes)
    · rw [if_pos hfails] at hloop ⊢
      obtain ⟨m', rp', hloop⟩ := hloop
      rw [Reader.call, wrapReadlineb, rioReadlineb, hloop]
      exact if_pos (show (-1 : Int) < 0 by decide)
    · rw [if_neg hfails] at hloop ⊢
      obtain ⟨rp', hafter, hloop⟩ := hloop
      by_cases hnone : Short (maxlen - 1) (readable (maxlen - 1) s.bytes) ∧
          readable (maxlen - 1) s.bytes = []
      · rw [if_pos hnone]
        rw [if_pos ⟨hnone.1, hnone.2, rfl⟩] at hloop
        rw [hnone.2, List.length_nil, List.drop_zero] at hafter
        refine ⟨rp', ?_, hafter⟩
        rw [Reader.call, wrapReadlineb, rioReadlineb, hloop]
        exact if_neg (show ¬ (0 : Int) < 0 by decide)
      · rw [if_neg hnone]
        rw [if_neg fun h ↦ hnone ⟨h.1, h.2.1⟩] at hloop
        refine ⟨rp', ?_, hafter⟩
        rw [Reader.call, wrapReadlineb, rioReadlineb, hloop]
        exact if_neg (by dsimp only; omega)

theorem Reader.Brings.calls {rp : Reader} {s : Source} (h : rp.Brings s) {calls : List ReadCall}
    (hcalls : ∀ c ∈ calls, c.Sized) (m : ByteMemory) :
    match Source.calls calls m s with
    | .error stop => Reader.calls calls m rp = .error stop
    | .ok (values, m', s') =>
      ∃ rp', Reader.calls calls m rp = .ok (values, m', rp') ∧ rp'.Brings s' := by
  induction calls generalizing rp s m with
  | nil => exact ⟨rp, rfl, h⟩
  | cons c calls ih =>
    have hfirst := h.call (hcalls c List.mem_cons_self) m
    rw [Source.calls]
    cases hcall : s.call m c with
    | error stop =>
      rw [hcall] at hfirst
      rw [Reader.calls, hfirst]
      rfl
    | ok r =>
      obtain ⟨value, m', s'⟩ := r
      rw [hcall] at hfirst
      obtain ⟨rp', hcall', hafter⟩ := hfirst
      have hlater := ih hafter (fun c' hc' ↦ hcalls c' (List.mem_cons_of_mem c hc')) m'
      rw [Reader.calls, hcall']
      simp only [bind, Except.bind, pure, Except.pure]
      cases hrest : Source.calls calls m' s' with
      | error stop =>
        rw [hrest] at hlater
        rw [hlater]
      | ok r =>
        obtain ⟨values, m'', s''⟩ := r
        rw [hrest] at hlater
        obtain ⟨last, hcalls', hlast⟩ := hlater
        rw [hcalls']
        exact ⟨last, rfl, hlast⟩

/-- Whatever is in the buffer, in memory and to come on the descriptor: a sequence of calls of
`Rio_readnb` and `Rio_readlineb` returns and stores what the bytes of the descriptor tell, or ends the
program in the call that needs more of them than come before a failure. Cursor and counter stay
within the buffer. -/
theorem rio_calls {calls : List ReadCall} (rioBuf m : ByteMemory)
    (arriving : List (Option (Arrival rioBufSize))) (hcalls : ∀ c ∈ calls, c.Sized) :
    match Source.calls calls m (source arriving) with
    | .error stop => Reader.calls calls m (rioReadinitb rioBuf arriving) = .error stop
    | .ok (values, m', s') => ∃ rp',
      Reader.calls calls m (rioReadinitb rioBuf arriving) = .ok (values, m', rp') ∧ rp'.Brings s' :=
  (brings_rioReadinitb rioBuf arriving).calls hcalls m

/-- A line whose bytes come in two pieces with an interruption between them, some bytes of the next,
and a read that fails. -/
def brokenLine : List (Option (Arrival rioBufSize)) :=
  [some (.piece [65] (by decide) (by decide)), some .interrupted,
    some (.piece [10, 66, 67] (by decide) (by decide)), none]

theorem rio_calls_brokenLine : ∃ rp',
    Reader.calls [.readlineb 0 8, .readnb 8 1] (fun _ ↦ 0) (rioReadinitb (fun _ ↦ 7) brokenLine) =
      .ok ([2, 1], putBytes (putBytes (fun _ ↦ 0) 0 [65, 10, 0]) 8 [66], rp') ∧
      rp'.Brings ⟨[67], true⟩ := by
  have hcalls : ∀ c ∈ [ReadCall.readlineb 0 8, ReadCall.readnb 8 1], c.Sized := by
    intro c hc
    rcases List.mem_pair.mp hc with rfl | rfl
    · exact (show 8 < 2 ^ 31 by decide)
    · trivial
  exact rio_calls (fun _ ↦ 7) (fun _ ↦ 0) brokenLine hcalls

/-! ### Descriptors that do not fail -/

/-- `rio_readnb` of the model does the same. -/
theorem call_readnb (b : Rio) (m : ByteMemory) (usrbuf n : Nat) :
    Source.call ⟨b.stream, false⟩ m (.readnb usrbuf n) =
      .ok ((ProxyLab.rioReadnb b n).1.length, putBytes m usrbuf (ProxyLab.rioReadnb b n).1,
        ⟨(ProxyLab.rioReadnb b n).2.stream, false⟩) := by
  obtain ⟨hbytes, hrest⟩ := rioReadnb_eq b n
  rw [hbytes, hrest]
  rfl

/-- `rio_readlineb` of the model does the same, for a line that is put into an array of `MAXLINE`
bytes. -/
theorem call_readlineb (b : Rio) (m : ByteMemory) (usrbuf : Nat) (before : Bytes) :
    Source.call ⟨b.stream, false⟩ m (.readlineb usrbuf maxLine) =
      .ok ((ProxyLab.rioReadlineb b before maxLine).n,
        if b.stream = [] then m
        else putBytes m usrbuf ((ProxyLab.rioReadlineb b before maxLine).usrbuf ++ [0]),
        ⟨(ProxyLab.rioReadlineb b before maxLine).rp.stream, false⟩) := by
  obtain ⟨hline, hrest⟩ := rioReadlineb_stream b before
  have hread : (readLine (maxLine - 1) b).1 = firstLine b.stream := (readLine_stream _ b).1
  have heof : (readLine (maxLine - 1) b).2.1 ∧ (readLine (maxLine - 1) b).1 = [] ↔ b.stream = [] :=
    readLine_eof_iff (maxLine - 2) b
  have hcall : Source.call ⟨b.stream, false⟩ m (.readlineb usrbuf maxLine) =
      if Short (maxLine - 1) (firstLine b.stream) ∧ firstLine b.stream = [] then
        .ok (0, m, ⟨b.stream, false⟩)
      else .ok (counted 1 (firstLine b.stream), putBytes m usrbuf (firstLine b.stream ++ [0]),
        ⟨afterLine b.stream, false⟩) := by
    unfold Source.call
    have hfails : ¬ (false = true ∧ Short (maxLine - 1) (readable (maxLine - 1) b.stream)) :=
      fun h ↦ Bool.false_ne_true h.1
    exact if_neg hfails
  have hn : (ProxyLab.rioReadlineb b before maxLine).n =
      if b.stream = [] then 0 else counted 1 (firstLine b.stream) := by
    unfold ProxyLab.rioReadlineb counted
    rw [hread] at heof
    by_cases hstream : b.stream = []
    · have hend := heof.mpr hstream
      rw [if_pos hstream]
      simp only [hread, hend, and_self, if_true]
    · have hmore := mt heof.mp hstream
      rw [if_neg hstream]
      simp only [hread, hmore, if_false]
      split_ifs
      · exact (Nat.add_sub_cancel_left 1 _).symm
      · exact Nat.add_comm _ _
  rw [hcall, hline, hrest, hn, lineOr]
  by_cases hstream : b.stream = []
  · have hnone : Short (maxLine - 1) (firstLine []) ∧ firstLine [] = [] := by decide
    rw [hstream, if_pos hnone, if_pos rfl, if_pos rfl]
    rfl
  · rw [if_neg fun h ↦ firstLine_ne_nil hstream h.2, if_neg hstream, if_neg hstream, if_neg hstream]

/-! ### `rio_writen` -/

/-- What a call of `write` does with the bytes it is given. -/
inductive WriteCall
  | wrote (k : Nat)
  | interrupted
  | failed

/-- What is outside of the program: the calls of `write` to come, the bytes that have been taken, and
whether `errno` is `EINTR`. -/
structure Sink where
  calls : List WriteCall
  taken : Bytes
  eintr : Bool

/-- The loop of `rio_writen` for `n` bytes, with what it returns. It is `none` when it waits for a call
of `write` of which nothing is known. -/
def writenLoop (n : Nat) : List WriteCall → Bytes → Bool → Bytes → Option Int × Sink
  | calls, taken, eintr, [] => (some n, ⟨calls, taken, eintr⟩)
  | [], taken, eintr, _ :: _ => (none, ⟨[], taken, eintr⟩)
  | .interrupted :: calls, taken, _, c :: left => writenLoop n calls taken true (c :: left)
  | .failed :: calls, taken, _, _ :: _ => (some (-1), ⟨calls, taken, false⟩)
  | .wrote 0 :: calls, taken, eintr, c :: left =>
    if eintr then writenLoop n calls taken true (c :: left) else (some (-1), ⟨calls, taken, false⟩)
  | .wrote (k + 1) :: calls, taken, eintr, c :: left =>
    writenLoop n calls (taken ++ (c :: left).take (k + 1)) eintr ((c :: left).drop (k + 1))

/-- `rio_writen`. -/
def rioWriten (usrbuf : Bytes) (sink : Sink) : Option Int × Sink :=
  writenLoop usrbuf.length sink.calls sink.taken sink.eintr usrbuf

/-- How far a call of `Rio_writen` comes. -/
inductive Written
  | returned
  | waiting
  | unixError (msg : String)
  deriving DecidableEq

/-- `Rio_writen`. -/
def wrapWriten (usrbuf : Bytes) (sink : Sink) : Written × Sink :=
  match rioWriten usrbuf sink with
  | (none, sink) => (.waiting, sink)
  | (some value, sink) =>
    if value ≠ usrbuf.length then (.unixError "Rio_writen error", sink) else (.returned, sink)

/-- One call after the other. -/
def wrapWritens : List Bytes → Sink → Written × Sink
  | [], sink => (.returned, sink)
  | usrbuf :: usrbufs, sink =>
    match wrapWriten usrbuf sink with
    | (.returned, sink) => wrapWritens usrbufs sink
    | (written, sink) => (written, sink)

/-- The loop takes a beginning of what is left, and all of it just if it returns the number. -/
theorem writenLoop_prefix (n : Nat) (calls : List WriteCall) (taken : Bytes) (eintr : Bool)
    (left : Bytes) :
    ∃ sent, (writenLoop n calls taken eintr left).2.taken = taken ++ sent ∧ sent <+: left ∧
      ((writenLoop n calls taken eintr left).1 = some (n : Int) ↔ sent = left) := by
  induction calls generalizing taken eintr left with
  | nil =>
    refine ⟨[], ?_, List.nil_prefix, ?_⟩
    · cases left <;> simp [writenLoop]
    · cases left <;> simp [writenLoop]
  | cons call calls ih =>
    cases left with
    | nil => exact ⟨[], by simp [writenLoop], List.nil_prefix, by simp [writenLoop]⟩
    | cons c left =>
      have hfailed : ∀ sink : Sink, sink.taken = taken →
          ∃ sent, sink.taken = taken ++ sent ∧ sent <+: c :: left ∧
            (some (-1) = some (n : Int) ↔ sent = c :: left) := by
        intro sink hsink
        refine ⟨[], by rw [hsink, List.append_nil], List.nil_prefix, ?_⟩
        simp only [Option.some.injEq, reduceCtorEq]
      cases call with
      | interrupted => exact ih taken true (c :: left)
      | failed => exact hfailed _ rfl
      | wrote k =>
        cases k with
        | zero =>
          cases eintr with
          | true => exact ih taken true (c :: left)
          | false => exact hfailed _ rfl
        | succ k =>
          obtain ⟨sent, htaken, hsent, hall⟩ :=
            ih (taken ++ (c :: left).take (k + 1)) eintr ((c :: left).drop (k + 1))
          refine ⟨(c :: left).take (k + 1) ++ sent, ?_, ?_, ?_⟩
          · rw [← List.append_assoc]
            exact htaken
          · obtain ⟨rest, hrest⟩ := hsent
            exact ⟨rest, by rw [List.append_assoc, hrest, List.take_append_drop]⟩
          · refine hall.trans ⟨fun h ↦ by rw [h, List.take_append_drop], fun h ↦ ?_⟩
            refine List.append_cancel_left (h.trans ?_)
            rw [List.take_append_drop]

/-- Whatever `write` does with what it is given: what has been taken of a sequence of arrays is a
beginning of them together, and it is all of them just if the calls of `Rio_writen` have returned. -/
theorem writes_prefix (usrbufs : List Bytes) (sink : Sink) :
    ∃ sent, (wrapWritens usrbufs sink).2.taken = sink.taken ++ sent ∧ sent <+: usrbufs.flatten ∧
      ((wrapWritens usrbufs sink).1 = .returned ↔ sent = usrbufs.flatten) := by
  induction usrbufs generalizing sink with
  | nil => exact ⟨[], (List.append_nil _).symm, List.nil_prefix, by simp [wrapWritens]⟩
  | cons usrbuf usrbufs ih =>
    obtain ⟨sent, htaken, hsent, hall⟩ :=
      writenLoop_prefix usrbuf.length sink.calls sink.taken sink.eintr usrbuf
    have hfirst : ∀ written : Written, written ≠ .returned → sent ≠ usrbuf →
        ∃ sent', (rioWriten usrbuf sink).2.taken = sink.taken ++ sent' ∧
          sent' <+: (usrbuf :: usrbufs).flatten ∧
          (written = .returned ↔ sent' = (usrbuf :: usrbufs).flatten) := by
      intro written hwritten hless
      obtain ⟨rest, hrest⟩ := hsent
      refine ⟨sent, htaken, ⟨rest ++ usrbufs.flatten, ?_⟩, iff_of_false hwritten fun heq ↦ hless ?_⟩
      · rw [← List.append_assoc, hrest, List.flatten_cons]
      · rw [List.flatten_cons, ← hrest, List.append_assoc, List.self_eq_append_right] at heq
        rw [← hrest, (List.append_eq_nil_iff.mp heq).1, List.append_nil]
    rw [wrapWritens, wrapWriten]
    rcases hwrite : rioWriten usrbuf sink with ⟨value, sink'⟩
    have hwrite' : writenLoop usrbuf.length sink.calls sink.taken sink.eintr usrbuf =
      (value, sink') := hwrite
    rw [hwrite'] at htaken hall
    rw [hwrite] at hfirst
    cases value with
    | none => exact hfirst .waiting (by decide) fun h ↦ by cases hall.mpr h
    | some value =>
      dsimp only
      by_cases hvalue : value ≠ usrbuf.length
      · rw [if_pos hvalue]
        exact hfirst (.unixError "Rio_writen error") (by decide) fun h ↦
          hvalue (Option.some.inj (hall.mpr h))
      · rw [if_neg hvalue]
        rw [not_not] at hvalue
        obtain ⟨later, hlater, hprefix, hend⟩ := ih sink'
        have hsent' : sent = usrbuf := hall.mp (congrArg some hvalue)
        refine ⟨usrbuf ++ later, ?_, ?_, ?_⟩
        · rw [hlater, htaken, hsent', List.append_assoc]
        · rw [List.flatten_cons]
          exact (List.prefix_append_right_inj usrbuf).mpr hprefix
        · rw [List.flatten_cons, List.append_cancel_left_eq]
          exact hend

end Csapp

end SystemProgramming.ProxyLab
