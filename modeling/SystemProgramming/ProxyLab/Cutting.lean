import SystemProgramming.ProxyLab.Doit

/-!
# How the loops cut a stream

`rio_readlineb` takes a line from the stream, or as much of it as fits into the array; at the end of
the stream it takes nothing, and the array keeps the line before (`rioReadlineb_stream`). A loop that
waits for a blank line cuts the stream into lines up to one that is `"\r\n"` (`Heads`). The loop over
the chunks cuts it into data and size lines, each as long as the line before says, up to a line
whose size is zero (`Cuts`). What the loops of `doit` do in a turn is told by what is cut off
(`readHeader_succ`, `readChunks_turn`).
-/

set_option autoImplicit false
set_option relaxedAutoImplicit false

namespace SystemProgramming.ProxyLab

open Library

/-! ### Lines -/

/-- The bytes up to a newline, at most so many. -/
def readable : Nat → Bytes → Bytes
  | 0, _ => []
  | _ + 1, [] => []
  | room + 1, c :: s => if c = newline then [c] else c :: readable room s

/-- The line with which a stream begins. -/
def firstLine (s : Bytes) : Bytes := readable (maxLine - 1) s

/-- The stream after this line. -/
def afterLine (s : Bytes) : Bytes := s.drop (firstLine s).length

/-- What is in the array when a line has been read from the stream. -/
def lineOr (usrbuf s : Bytes) : Bytes := if s = [] then usrbuf else firstLine s

theorem readLine_stream (room : Nat) (rp : Rio) :
    (readLine room rp).1 = readable room rp.stream ∧
      (readLine room rp).2.2.stream = rp.stream.drop (readable room rp.stream).length := by
  induction room generalizing rp with
  | zero => exact ⟨rfl, rfl⟩
  | succ room ih =>
    cases hstream : rp.stream with
    | nil =>
      obtain ⟨hread, hrest⟩ := Buffered.read_of_stream_nil 1 hstream
      simp [readLine, readable, hread, hrest]
    | cons c s =>
      obtain ⟨hread, hrest⟩ := Buffered.read_one hstream
      obtain ⟨hline, hafter⟩ := ih (rp.read 1).2
      rw [hrest] at hline hafter
      by_cases hc : c = newline
      · simp [readLine, readable, hread, hrest, hc]
      · simp [readLine, readable, hread, hc, hline, hafter]

/-- The end of the input is met without a byte exactly at the end of the stream. -/
theorem readLine_eof_iff (room : Nat) (rp : Rio) :
    (readLine (room + 1) rp).2.1 ∧ (readLine (room + 1) rp).1 = [] ↔ rp.stream = [] := by
  cases hstream : rp.stream with
  | nil =>
    obtain ⟨hread, -⟩ := Buffered.read_of_stream_nil 1 hstream
    simp [readLine, hread]
  | cons c s =>
    obtain ⟨hread, -⟩ := Buffered.read_one hstream
    have hne : (readLine (room + 1) rp).1 ≠ [] := by
      simp only [readLine, hread]
      split_ifs
      · exact List.cons_ne_nil _ _
      · exact List.cons_ne_nil _ _
    simp [hne]

theorem firstLine_ne_nil {s : Bytes} (hs : s ≠ []) : firstLine s ≠ [] := by
  obtain ⟨c, s, rfl⟩ := List.exists_cons_of_ne_nil hs
  rw [firstLine, show maxLine - 1 = 8190 + 1 from rfl, readable]
  split_ifs
  · exact List.cons_ne_nil _ _
  · exact List.cons_ne_nil _ _

theorem firstLine_isPrefix (s : Bytes) : firstLine s <+: s := by
  unfold firstLine
  induction maxLine - 1 generalizing s with
  | zero => exact List.nil_prefix
  | succ room ih =>
    cases s with
    | nil => exact List.nil_prefix
    | cons c s =>
      rw [readable]
      split_ifs
      · exact ⟨s, rfl⟩
      · exact (List.prefix_cons_inj c).mpr (ih s)

theorem length_readable_le (room : Nat) (s : Bytes) : (readable room s).length ≤ room := by
  induction room generalizing s with
  | zero => exact le_rfl
  | succ room ih =>
    cases s with
    | nil => exact Nat.zero_le _
    | cons c s =>
      rw [readable]
      split_ifs
      · exact Nat.succ_le_succ (Nat.zero_le room)
      · exact Nat.succ_le_succ (ih s)

theorem length_firstLine_lt (s : Bytes) : (firstLine s).length < maxLine :=
  Nat.lt_of_le_of_lt (length_readable_le _ s) (by decide)

theorem firstLine_append_afterLine (s : Bytes) : firstLine s ++ afterLine s = s :=
  List.prefix_iff_eq_append.mp (firstLine_isPrefix s)

/-- A line leaves less of the stream. -/
theorem length_afterLine_lt {s : Bytes} (hs : s ≠ []) : (afterLine s).length < s.length := by
  have hpos := List.length_pos_of_ne_nil (firstLine_ne_nil hs)
  have hlength := congrArg List.length (firstLine_append_afterLine s)
  rw [List.length_append] at hlength
  omega

/-- What `rio_readlineb` reads. -/
theorem rioReadlineb_stream (rp : Rio) (usrbuf : Bytes) :
    (rioReadlineb rp usrbuf maxLine).usrbuf = lineOr usrbuf rp.stream ∧
      (rioReadlineb rp usrbuf maxLine).rp.stream = afterLine rp.stream := by
  obtain ⟨hline, hafter⟩ := readLine_stream (maxLine - 1) rp
  have heof := readLine_eof_iff (maxLine - 2) rp
  rw [show maxLine - 2 + 1 = maxLine - 1 from rfl] at heof
  unfold rioReadlineb lineOr afterLine
  by_cases hend : rp.stream = []
  · rw [if_pos (heof.mpr hend), if_pos hend]
    exact ⟨rfl, hafter⟩
  · rw [if_neg (mt heof.mp hend), if_neg hend]
    split_ifs
    · exact ⟨hline, hafter⟩
    · exact ⟨hline, hafter⟩

theorem readable_append {room : Nat} {text rest : Bytes} (htext : newline ∉ text) :
    readable room (text ++ newline :: rest) =
      if text.length < room then text ++ [newline] else text.take room := by
  induction text generalizing room with
  | nil =>
    cases room with
    | zero => rfl
    | succ room => simp [readable]
  | cons c text ih =>
    rw [List.mem_cons, not_or] at htext
    cases room with
    | zero => rfl
    | succ room =>
      simp only [List.cons_append, readable, if_neg (Ne.symm htext.1), ih htext.2, List.length_cons,
        Nat.succ_lt_succ_iff, List.take_succ_cons]
      split_ifs
      · rfl
      · rfl

/-- A line that `rio_readlineb` reads as a whole and that is a string. -/
structure IsLine (line : Bytes) : Prop where
  ends : ∃ text, line = text ++ [newline] ∧ newline ∉ text
  zero : 0 ∉ line
  length : line.length < maxLine

namespace IsLine

variable {line rest : Bytes}

theorem firstLine_eq (h : IsLine line) (rest : Bytes) :
    firstLine (line ++ rest) = line ∧ afterLine (line ++ rest) = rest := by
  obtain ⟨text, rfl, htext⟩ := h.ends
  have hlength := h.length
  rw [List.length_append, List.length_singleton] at hlength
  have hfirst : firstLine (text ++ [newline] ++ rest) = text ++ [newline] := by
    rw [List.append_assoc, List.singleton_append, firstLine, readable_append htext,
      if_pos (by omega)]
  refine ⟨hfirst, ?_⟩
  rw [afterLine, hfirst, List.drop_left]

theorem append_ne_nil (h : IsLine line) (rest : Bytes) : line ++ rest ≠ [] := by
  obtain ⟨text, rfl, -⟩ := h.ends
  simp

theorem lineOr_eq (h : IsLine line) (usrbuf rest : Bytes) : lineOr usrbuf (line ++ rest) = line := by
  rw [lineOr, if_neg (h.append_ne_nil rest), (h.firstLine_eq rest).1]

theorem read (h : IsLine line) (rp : Rio) (usrbuf : Bytes) (hstream : rp.stream = line ++ rest) :
    (rioReadlineb rp usrbuf maxLine).usrbuf = line ∧
      (rioReadlineb rp usrbuf maxLine).rp.stream = rest := by
  obtain ⟨husrbuf, hafter⟩ := rioReadlineb_stream rp usrbuf
  rw [hstream] at husrbuf hafter
  exact ⟨husrbuf.trans (h.lineOr_eq usrbuf rest), hafter.trans (h.firstLine_eq rest).2⟩

theorem cstr_eq (h : IsLine line) : cstr line = line := cstr_eq_self h.zero

/-- A text and the end of the line. -/
theorem crlf_end {text : Bytes} (hnul : 0 ∉ text) (hnewline : newline ∉ text)
    (hlength : (text ++ crlf).length < maxLine) : IsLine (text ++ crlf) := by
  have hcr : newline ≠ 13 := by decide
  refine ⟨⟨text ++ [13], ?_, ?_⟩, ?_, hlength⟩
  · rw [List.append_assoc]
    rfl
  · simp [hnewline, hcr]
  · rw [List.mem_append, not_or]
    exact ⟨hnul, by decide⟩

theorem crlf : IsLine crlf := by
  have hnone : ∀ c : UInt8, c ∉ ([] : Bytes) := fun c ↦ List.not_mem_nil
  exact crlf_end (hnone 0) (hnone newline) (by decide)

end IsLine

/-! ### Lines up to a blank one -/

/-- The stream begins with these lines, then with a blank one, and this is left of it. -/
inductive Heads : Bytes → List Bytes → Bytes → Prop
  | blank {s : Bytes} (hblank : cstr (firstLine s) = crlf) : Heads s [] (afterLine s)
  | line {s rest : Bytes} {lines : List Bytes} (hline : cstr (firstLine s) ≠ crlf)
      (hlater : Heads (afterLine s) lines rest) : Heads s (firstLine s :: lines) rest

/-- There is no blank line at the end of a stream. -/
theorem not_heads_nil (lines : List Bytes) (rest : Bytes) : ¬ Heads [] lines rest := by
  induction lines with
  | nil =>
    intro h
    cases h with
    | blank hblank => exact absurd hblank (by decide)
  | cons l lines ih =>
    intro h
    cases h with
    | line _ hlater => exact ih hlater

/-- A stream that ends behind a line that is not blank. -/
theorem not_heads_of_line {s rest : Bytes} {lines : List Bytes} (hline : cstr (firstLine s) ≠ crlf)
    (hend : afterLine s = []) : ¬ Heads s lines rest := by
  intro h
  cases h with
  | blank hblank => exact hline hblank
  | @line s rest lines _ hlater =>
    rw [hend] at hlater
    exact not_heads_nil lines rest hlater

/-! ### The loop over the header -/

section Header

variable {rp : Rio} {buf response : Bytes} {isChunked : Bool} {contentLength : Option Int}

/-- A line that is put behind the others. -/
theorem readHeader_succ (spill fuel : Nat) (rp : Rio) (isChunked : Bool)
    (contentLength : Option Int) (hline : cstr buf ≠ crlf)
    (hroom : response.length + (cstr buf).length < maxLine) :
    readHeader spill (fuel + 1) rp buf response isChunked contentLength =
      readHeader spill fuel (rioReadlineb rp buf maxLine).rp (lineOr buf rp.stream)
        (response ++ cstr buf) (isChunked || tellsChunked (cstr buf))
        (noteLength (cstr buf) contentLength) := by
  rw [readHeader, if_neg hline]
  simp only [strcatLine_eq hroom, ← (rioReadlineb_stream rp buf).1]
  rfl

/-- A line for which there is no room. -/
theorem readHeader_full (spill fuel : Nat) (rp : Rio) (isChunked : Bool)
    (contentLength : Option Int) (hline : cstr buf ≠ crlf)
    (hroom : ¬ response.length + (cstr buf).length < maxLine) :
    readHeader spill (fuel + 1) rp buf response isChunked contentLength = .error .undefined := by
  simp only [readHeader, if_neg hline, strcatLine_eq_error hroom]
  rfl

end Header

/-! ### Chunks -/

/-- What the loop over the chunks reads in a turn. -/
structure Cutting where
  data : Bytes
  line : Bytes

/-- `clen` after a line: a line that does not begin with a number leaves it. -/
def nextSize (line : Bytes) (clen : Int) : Int :=
  ((scanNumber 16 (cstr line)).map storeHex).getD (clen + 2)

/-- Where a size is known, the stream begins with data of this size and its end of line, then with a
size line, and so on, up to a size line that tells zero. -/
inductive Cuts : Bytes → Int → List Cutting → Prop
  | last (s : Bytes) : Cuts s 0 []
  | more {s : Bytes} {clen : Int} {cuts : List Cutting} (hne : clen ≠ 0) (hsize : 0 ≤ clen + 2)
      (hline : s.drop (clen + 2).toNat ≠ [])
      (hlater : Cuts (afterLine (s.drop (clen + 2).toNat))
        (nextSize (firstLine (s.drop (clen + 2).toNat)) clen) cuts) :
      Cuts s clen (⟨s.take (clen + 2).toNat, firstLine (s.drop (clen + 2).toNat)⟩ :: cuts)

/-- At the end of a stream there is no size line. -/
theorem not_cuts_nil {clen : Int} (hne : clen ≠ 0) (cuts : List Cutting) : ¬ Cuts [] clen cuts := by
  intro h
  cases h with
  | last => exact hne rfl
  | more _ _ hmore _ => exact hmore List.drop_nil

/-- The parts are determined. -/
theorem Cuts.unique {s : Bytes} {clen : Int} {cuts cuts' : List Cutting} (h : Cuts s clen cuts)
    (h' : Cuts s clen cuts') : cuts = cuts' := by
  induction h generalizing cuts' with
  | last s =>
    cases h' with
    | last => rfl
    | more hne => exact absurd rfl hne
  | more hne _ _ _ ih =>
    cases h' with
    | last => exact absurd rfl hne
    | more _ _ _ hlater => rw [ih hlater]

/-! ### The loop over the chunks -/

theorem StringAt.realloc {block : ByteMemory} {text : Bytes} {size : Nat} (h : StringAt block 0 text)
    (hsize : text.length < size) (fresh : ByteMemory) :
    StringAt (realloc block size fresh) 0 text :=
  h.congr fun a _ hhigh ↦ if_pos (by omega)

/-- The string in an array with a zero byte at its end. -/
theorem exists_readString (m : ByteMemory) {data : Bytes} (n : Nat) (hdata : data.length ≤ n) :
    ∃ text, readString (Function.update (putBytes m 0 data) n 0) (n + 1) 0 = some text ∧
      0 ∉ text ∧ text.length ≤ n ∧ (data.length = n → text = cstr data) := by
  set tbuf := Function.update (putBytes m 0 data) n 0 with htbuf
  have hlength : (bytesAt tbuf 0 n).length = n := length_bytesAt tbuf 0 n
  have hkept := length_cstr_le (bytesAt tbuf 0 n)
  have hstring : StringAt tbuf 0 (cstr (bytesAt tbuf 0 n)) := by
    apply stringAt_cstr
    · rw [hlength]
    · rw [hlength, Nat.zero_add, htbuf, Function.update_self]
  refine ⟨_, readString_eq (n + 1) hstring (by omega), zero_not_mem_cstr _, by omega, ?_⟩
  rintro rfl
  congr 1
  refine (bytesAt_congr fun a _ hhigh ↦ ?_).trans (bytesAt_putBytes m 0 data)
  exact Function.update_of_ne (by omega) _ _

section Chunks

variable {memory : Memory} {rp : Rio} {s line text : Bytes} {contentBuffer : ByteMemory}
  {contentLength clen : Int}

/-- The data are as long as the size line tells, because something comes after them. -/
theorem length_take_of_drop {n : Nat} (hmore : s.drop n ≠ []) : (s.take n).length = n := by
  rw [List.length_take]
  have hlength : 0 < (s.drop n).length := List.length_pos_of_ne_nil hmore
  rw [List.length_drop] at hlength
  omega

theorem cast_length_take (hsize : 0 ≤ clen + 2) (hmore : s.drop (clen + 2).toNat ≠ []) :
    ((s.take (clen + 2).toNat).length : Int) = clen + 2 := by
  rw [length_take_of_drop hmore, Int.toNat_of_nonneg hsize]

/-- How much a turn adds to `contentLength`. -/
def turnGrows (s line : Bytes) (clen : Int) : Int :=
  (cstr (lineOr line (s.drop (clen + 2).toNat))).length + (clen + 2)

/-- How much it adds if a line comes after the data. -/
theorem turnGrows_of_drop (hmore : s.drop (clen + 2).toNat ≠ []) :
    turnGrows s line clen =
      (cstr (firstLine (s.drop (clen + 2).toNat))).length + (clen + 2) := by
  rw [turnGrows, lineOr, if_neg hmore]

/-- A turn in which a number is out of range. -/
theorem readChunks_undefined (spill fuel blocks : Nat) (hne : clen ≠ 0)
    (hrange : ¬ (0 ≤ clen + 2 ∧ contentLength + turnGrows rp.stream line clen ≤ intMax)) :
    readChunks memory spill (fuel + 1) blocks rp line contentBuffer contentLength clen =
      .error .undefined := by
  rw [readChunks, if_neg hne]
  by_cases hsize : 0 ≤ clen + 2 ∧ clen + 2 ≤ intMax
  · have husrbuf := (rioReadlineb_stream (rioReadnb rp (clen + 2).toNat).2 line).1
    rw [(rioReadnb_eq rp (clen + 2).toNat).2] at husrbuf
    have hgrown : ¬ contentLength + turnGrows rp.stream line clen ≤ intMax :=
      fun hle ↦ hrange ⟨hsize.1, hle⟩
    unfold turnGrows at hgrown
    simp only [ensure_eq_ok hsize, husrbuf, ensure_eq_error hgrown]
    rfl
  · simp only [ensure_eq_error hsize]
    rfl

/-- A turn: the string grows by no more than the block does. -/
theorem readChunks_turn (memory : Memory) (spill blocks : Nat) (line : Bytes) (hne : clen ≠ 0)
    (htext : StringAt contentBuffer 0 text) (hroom : (text.length : Int) + 2 ≤ contentLength)
    (hsize : 0 ≤ clen + 2) (hgrown : contentLength + turnGrows rp.stream line clen ≤ intMax) :
    ∃ (rp' : Rio) (block : ByteMemory) (added : Bytes),
      rp'.stream = afterLine (rp.stream.drop (clen + 2).toNat) ∧
      added.length ≤ (clen + 2).toNat ∧
      (rp.stream.drop (clen + 2).toNat ≠ [] →
        added = cstr (rp.stream.take (clen + 2).toNat)) ∧
      StringAt block 0 (text ++ added ++ cstr (lineOr line (rp.stream.drop (clen + 2).toNat))) ∧
      ∀ fuel, readChunks memory spill (fuel + 1) blocks rp line contentBuffer contentLength clen =
        readChunks memory spill fuel (blocks + 2) rp' (lineOr line (rp.stream.drop (clen + 2).toNat))
          block (contentLength + turnGrows rp.stream line clen)
          (nextSize (lineOr line (rp.stream.drop (clen + 2).toNat)) clen) := by
  obtain ⟨hdata, hrest⟩ := rioReadnb_eq rp (clen + 2).toNat
  obtain ⟨husrbuf, hafter⟩ := rioReadlineb_stream (rioReadnb rp (clen + 2).toNat).2 line
  rw [hrest] at husrbuf hafter
  set line' := lineOr line (rp.stream.drop (clen + 2).toNat) with hline'
  have hgrows : turnGrows rp.stream line clen = (cstr line').length + (clen + 2) := rfl
  have hshort : (rioReadnb rp (clen + 2).toNat).1.length ≤ (clen + 2).toNat := by
    rw [hdata]
    exact List.length_take_le _ _
  obtain ⟨added, hread, hzero, hadded, hall⟩ := exists_readString (memory.malloc blocks)
    (clen + 2).toNat hshort
  rw [hgrows] at hgrown ⊢
  set grown := contentLength + ((cstr line').length + (clen + 2)) with hgrowndef
  have hlarge : text.length < contentLength.toNat := by omega
  obtain ⟨block, hstrcat, hblock⟩ := strcat_eq grown.toNat
    (StringAt.realloc htext hlarge (memory.malloc (blocks + 1))) hzero (by omega)
  obtain ⟨block', hstrcat', hblock'⟩ := strcat_eq grown.toNat hblock (zero_not_mem_cstr line')
    (by rw [List.length_append]; omega)
  refine ⟨_, block', added, hafter, hadded, fun hmore ↦ ?_, hblock', fun fuel ↦ ?_⟩
  · rw [hall (by rw [hdata, length_take_of_drop hmore]), hdata]
  · have hint : 0 ≤ clen + 2 ∧ clen + 2 ≤ intMax := ⟨hsize, by omega⟩
    rw [readChunks, if_neg hne]
    simp only [ensure_eq_ok hint, husrbuf, ← hgrowndef, ensure_eq_ok hgrown, hread]
    simp [bind, Except.bind, hstrcat, hstrcat', nextSize]

end Chunks

end SystemProgramming.ProxyLab
