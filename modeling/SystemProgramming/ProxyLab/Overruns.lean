import SystemProgramming.ProxyLab.Forwarding
import SystemProgramming.ProxyLab.Loops

/-!
# What `doit` writes behind its arrays

`response` has `MAXLINE` bytes, and the block for a chunked body as many as `contentLength` counts.
The header lines are put into `response` without a look at its size. Each chunk makes the block as
much larger as the string in it grows, unless there is a zero byte in the data, and the last `strcat`
adds two bytes and the zero byte where there is room for two bytes only: so it writes behind the
block exactly if no data had a zero byte (`doit_inside_iff`).
-/

set_option autoImplicit false
set_option relaxedAutoImplicit false

namespace SystemProgramming.ProxyLab

open Library

/-! ### Replies -/

/-- A complete response, with header lines of any length. -/
structure Reply where
  lines : List HeaderLine
  body : Body
  hbody : body.Announced lines

def Reply.bytes (r : Reply) : Bytes :=
  r.lines.flatMap HeaderLine.bytes ++ (crlf ++ r.body.bytes)

/-- Nothing is written outside of `response`, `tbuf` and the block. -/
def Inside (memory : Memory) (server : List (Arrival rioBufSize)) : Prop :=
  ∀ fuel, doitResponse memory 0 fuel server ≠ .error .undefined

/-- The header lines, the blank line and a zero byte fit into `response`. -/
def HeaderFits (lines : List HeaderLine) : Prop :=
  (lines.flatMap HeaderLine.bytes).length + 2 < maxLine

/-- The chunks are read, an `int` counts the bytes, and there is a zero byte in the data. -/
def ChunksFit (s : Bytes) : Prop :=
  ∃ clen cuts, (scanNumber 16 (cstr (firstLine s))).map storeHex = some clen ∧
    Cuts (afterLine s) clen cuts ∧
    ((cstr (firstLine s)).length + 2 + grows cuts : Int) ≤ intMax ∧ ∃ cut ∈ cuts, 0 ∈ cut.data

/-- There is room for the body. A block of the size that `Content-Length` tells has it. -/
def Body.Fits : Body → Prop
  | sized _ => True
  | chunked chunks last hlast => ChunksFit (chunked chunks last hlast).bytes

/-! ### The header -/

/-- Of a line that is too long as much is read as there is room for. -/
theorem HeaderLine.firstLine_eq {l : HeaderLine} (hlong : maxLine ≤ l.bytes.length) (rest : Bytes) :
    firstLine (l.bytes ++ rest) = l.bytes.take (maxLine - 1) := by
  have hcr : newline ≠ 13 := by decide
  have htext : newline ∉ l.text ++ [13] := by simp [l.hnewline, hcr]
  have hbytes : l.bytes = (l.text ++ [13]) ++ [newline] := by
    rw [bytes, List.append_assoc]
    rfl
  rw [hbytes, List.length_append, List.length_singleton] at hlong
  rw [hbytes, List.append_assoc _ [newline], List.singleton_append, firstLine,
    readable_append htext, if_neg (by omega)]
  exact (List.take_append_of_le_length (by omega)).symm

theorem HeaderLine.zero_notMem (l : HeaderLine) : 0 ∉ l.bytes := zero_not_mem_append_crlf l.hnul

theorem cstr_firstLine_ne_nil {c : UInt8} (hc : c ≠ 0) (s : Bytes) :
    cstr (firstLine (c :: s)) ≠ [] := by
  rw [firstLine, show maxLine - 1 = 8190 + 1 from rfl, readable]
  split_ifs
  · simp [cstr, hc]
  · simp [cstr, hc]

section Header

variable {rp : Rio} {buf response : Bytes} {isChunked : Bool} {contentLength : Option Int}

/-- A line for which there is no room. -/
theorem readHeader_overrun (fuel : Nat) (rp : Rio) (isChunked : Bool) (contentLength : Option Int)
    (hroom : maxLine ≤ response.length + (cstr buf).length) :
    readHeader 0 (fuel + 1) rp buf response isChunked contentLength = .error .undefined := by
  by_cases hblank : cstr buf = crlf
  · rw [hblank] at hroom
    rw [readHeader, if_pos hblank, strcatLine_eq_error (by omega)]
    rfl
  · exact readHeader_full 0 fuel rp isChunked contentLength hblank (Nat.not_lt.mpr hroom)

/-- Header lines that do not fit are put behind `response`. -/
theorem exists_readHeader_overrun (response : Bytes) (isChunked : Bool)
    (contentLength : Option Int) {lines : List HeaderLine} (body : Bytes)
    (hstream : rp.stream = afterLine (lines.flatMap HeaderLine.bytes ++ (crlf ++ body)))
    (hover : maxLine ≤ response.length + (lines.flatMap HeaderLine.bytes).length + 2) :
    ∃ fuel, readHeader 0 fuel rp (firstLine (lines.flatMap HeaderLine.bytes ++ (crlf ++ body)))
      response isChunked contentLength = .error .undefined := by
  induction lines generalizing rp response isChunked contentLength with
  | nil =>
    refine ⟨1, readHeader_overrun 0 rp isChunked contentLength ?_⟩
    rw [List.flatMap_nil, List.nil_append, (IsLine.crlf.firstLine_eq body).1, IsLine.crlf.cstr_eq]
    exact hover
  | cons l lines ih =>
    rw [List.flatMap_cons, List.append_assoc] at hstream ⊢
    rw [List.flatMap_cons, List.length_append] at hover
    set rest := lines.flatMap HeaderLine.bytes ++ (crlf ++ body) with hrest
    have hne : rest ≠ [] := by
      rw [hrest]
      simp [crlf, ascii]
    by_cases hlong : maxLine ≤ l.bytes.length
    · have hcstr : cstr (l.bytes.take (maxLine - 1)) = l.bytes.take (maxLine - 1) :=
        cstr_eq_self fun hzero ↦ l.zero_notMem (List.mem_of_mem_take hzero)
      have hlength : (l.bytes.take (maxLine - 1)).length = maxLine - 1 := by
        rw [List.length_take]
        omega
      rw [afterLine, HeaderLine.firstLine_eq hlong, hlength] at hstream
      rw [HeaderLine.firstLine_eq hlong]
      by_cases hroom : maxLine ≤ response.length + (l.bytes.take (maxLine - 1)).length
      · refine ⟨1, readHeader_overrun 0 rp isChunked contentLength ?_⟩
        rwa [hcstr]
      -- `response` is full with this piece, and something comes after it
      obtain ⟨c, more, hmore⟩ : ∃ c more, l.bytes.drop (maxLine - 1) = c :: more := by
        refine List.exists_cons_of_ne_nil fun hnil ↦ ?_
        rw [List.drop_eq_nil_iff] at hnil
        unfold maxLine at hnil hlong
        omega
      have hc : c ≠ 0 := by
        rintro rfl
        refine l.zero_notMem (List.mem_of_mem_drop (i := maxLine - 1) ?_)
        rw [hmore]
        exact List.mem_cons_self
      rw [List.drop_append_of_le_length (by omega), hmore, List.cons_append] at hstream
      refine ⟨2, ?_⟩
      rw [readHeader_succ 0 1 rp isChunked contentLength _ (by rw [hcstr]; omega), hstream, lineOr,
        if_neg (List.cons_ne_nil _ _)]
      · refine readHeader_overrun 0 _ _ _ ?_
        have hpos := List.length_pos_of_ne_nil (cstr_firstLine_ne_nil hc (more ++ rest))
        rw [hcstr, List.length_append, hlength]
        unfold maxLine at *
        omega
      · rw [hcstr]
        intro heq
        rw [heq] at hlength
        exact absurd hlength (by decide)
    · have hline : IsLine l.bytes := HeaderLine.isLine (by omega)
      obtain ⟨hfirst, hafter⟩ := hline.firstLine_eq rest
      rw [hafter] at hstream
      rw [hfirst]
      by_cases hroom : response.length + l.bytes.length < maxLine
      · have hstream' := (rioReadlineb_stream rp l.bytes).2
        rw [hstream] at hstream'
        obtain ⟨fuel, hundefined⟩ := ih (response ++ l.bytes)
          (isChunked || tellsChunked l.bytes) (noteLength l.bytes contentLength) hstream'
          (by rw [List.length_append]; omega)
        refine ⟨fuel + 1, ?_⟩
        rw [readHeader_succ 0 fuel rp isChunked contentLength, hstream, lineOr, if_neg hne,
          hline.cstr_eq]
        · exact hundefined
        · rw [hline.cstr_eq]
          exact l.bytes_ne_crlf
        · rwa [hline.cstr_eq]
      · refine ⟨1, readHeader_overrun 0 rp isChunked contentLength ?_⟩
        rw [hline.cstr_eq]
        omega

end Header

/-! ### The chunks -/

section Chunks

variable {memory : Memory} {rp : Rio} {line s text : Bytes} {contentBuffer : ByteMemory}
  {contentLength clen : Int}

/-- A zero byte in data of this size, and only that, makes the string shorter. -/
theorem length_cstr_lt_iff (data : Bytes) : (cstr data).length < data.length ↔ 0 ∈ data := by
  constructor
  · intro hlt
    by_contra hzero
    rw [cstr_eq_self hzero] at hlt
    exact lt_irrefl _ hlt
  · intro hzero
    refine lt_of_le_of_ne (length_cstr_le data) fun heq ↦ ?_
    rw [← (List.takeWhile_prefix _).eq_of_length heq] at hzero
    exact zero_not_mem_cstr data hzero

/-- The string leaves room in the block already, or a zero byte comes that makes it shorter. -/
def Slack (text : Bytes) (contentLength : Int) (cuts : List Cutting) : Prop :=
  (text.length : Int) + 2 < contentLength ∨ ∃ cut ∈ cuts, 0 ∈ cut.data

/-- The last `strcat`. -/
theorem readChunks_zero (fuel blocks : Nat) (htext : StringAt contentBuffer 0 text)
    (hroom : (text.length : Int) + 2 ≤ contentLength) :
    readChunks memory 0 (fuel + 1) blocks rp line contentBuffer contentLength 0 =
      .error .undefined ↔ ¬ Slack text contentLength [] := by
  have hcrlf : crlf.length = 2 := rfl
  rw [readChunks, if_pos rfl, Nat.add_zero]
  by_cases hslack : (text.length : Int) + 2 < contentLength
  · obtain ⟨block, hstrcat, -⟩ := strcat_eq contentLength.toNat htext IsLine.crlf.zero (by omega)
    simp [hstrcat, Slack, hslack, bind, Except.bind, pure, Except.pure]
  · have hstrcat := strcat_eq_error contentLength.toNat crlf htext (by omega) (by omega)
    simp [hstrcat, Slack, hslack, bind, Except.bind]

/-- What a turn leaves of the room in the block. -/
theorem slack_turn {data line' : Bytes} {cuts : List Cutting} (hdata : (data.length : Int) = clen + 2)
    (hroom : (text.length : Int) + 2 ≤ contentLength) :
    Slack (text ++ cstr data ++ cstr line') (contentLength + ((cstr line').length + (clen + 2)))
      cuts ↔ Slack text contentLength (⟨data, line'⟩ :: cuts) := by
  have hkept := length_cstr_le data
  have hlength : (text ++ cstr data ++ cstr line').length =
      text.length + (cstr data).length + (cstr line').length := by
    rw [List.length_append, List.length_append]
  unfold Slack
  rw [List.exists_mem_cons_iff, ← length_cstr_lt_iff data, hlength]
  by_cases hlater : ∃ cut ∈ cuts, 0 ∈ cut.data
  · simp only [hlater, or_true]
  · simp only [hlater, or_false]
    omega

/-- Where the chunks are read and there is room, nothing is written outside. -/
theorem readChunks_inside {cuts : List Cutting} (h : Cuts s clen cuts) (hstream : rp.stream = s)
    (blocks : Nat) (line : Bytes) (htext : StringAt contentBuffer 0 text)
    (hroom : (text.length : Int) + 2 ≤ contentLength)
    (hmax : contentLength + grows cuts ≤ intMax) (hslack : Slack text contentLength cuts)
    (fuel : Nat) :
    readChunks memory 0 fuel blocks rp line contentBuffer contentLength clen ≠
      .error .undefined := by
  induction h generalizing rp blocks line contentBuffer text contentLength fuel with
  | last s =>
    cases fuel with
    | zero => simp [readChunks]
    | succ fuel =>
      rw [Ne, readChunks_zero fuel blocks htext hroom, not_not]
      exact hslack
  | @more s clen cuts hne hsize hmore hlater ih =>
    cases fuel with
    | zero => simp [readChunks]
    | succ fuel =>
      subst hstream
      have hdata := cast_length_take hsize hmore
      have hgrows : turnGrows rp.stream line clen = _ := turnGrows_of_drop hmore
      rw [grows] at hmax
      push_cast at hmax
      obtain ⟨rp', block, added, hafter, -, hadded, hblock, hturn⟩ := readChunks_turn memory 0 blocks
        line hne htext hroom hsize (by rw [hgrows]; omega)
      rw [hadded hmore, lineOr, if_neg hmore] at hblock
      rw [hturn, hgrows, lineOr, if_neg hmore]
      have hkept := length_cstr_le (rp.stream.take (clen + 2).toNat)
      refine ih hafter (blocks + 2) _ hblock ?_ ?_ ((slack_turn hdata hroom).mpr hslack) fuel
      · rw [List.length_append, List.length_append]
        push_cast
        omega
      · omega

/-- Otherwise something is: in the last `strcat`, or when a number gets out of range, which it does
in the end if the stream ends before the chunks do. -/
theorem readChunks_outside (memory : Memory) {bound fuel : Nat} (blocks : Nat)
    (hfollows : Follows line clen) (htext : StringAt contentBuffer 0 text)
    (hroom : (text.length : Int) + 2 ≤ contentLength) (hint : contentLength ≤ intMax)
    (hbound : rp.stream.length + (intMax - contentLength).toNat < bound) (hfuel : bound ≤ fuel)
    (hnone : ∀ cuts, Cuts rp.stream clen cuts → contentLength + grows cuts ≤ intMax →
      ¬ Slack text contentLength cuts) :
    readChunks memory 0 fuel blocks rp line contentBuffer contentLength clen =
      .error .undefined := by
  induction bound generalizing rp line clen contentBuffer text contentLength blocks fuel with
  | zero => exact absurd hbound (Nat.not_lt_zero _)
  | succ bound ih =>
    obtain ⟨fuel, rfl⟩ := Nat.exists_eq_add_of_le' (Nat.le_of_add_left_le hfuel)
    by_cases hne : clen = 0
    · subst hne
      refine (readChunks_zero fuel blocks htext hroom).mpr (hnone [] (.last _) ?_)
      rw [grows]
      omega
    by_cases hrange : 0 ≤ clen + 2 ∧ contentLength + turnGrows rp.stream line clen ≤ intMax
    swap
    · exact readChunks_undefined 0 fuel blocks hne hrange
    obtain ⟨hsize, hgrown⟩ := hrange
    obtain ⟨rp', block, added, hafter, hlength, hadded, hblock, hturn⟩ :=
      readChunks_turn memory 0 blocks line hne htext hroom hsize hgrown
    have hgrows : turnGrows rp.stream line clen =
      (cstr (lineOr line (rp.stream.drop (clen + 2).toNat))).length + (clen + 2) := rfl
    have hroom' : ((text ++ added ++
        cstr (lineOr line (rp.stream.drop (clen + 2).toNat))).length : Int) + 2 ≤
          contentLength + turnGrows rp.stream line clen := by
      rw [List.length_append, List.length_append, hgrows]
      push_cast
      omega
    rw [hturn]
    refine ih (blocks + 2) (follows_nextSize hsize _) hblock hroom' hgrown ?_
      (Nat.le_of_succ_le_succ hfuel) ?_
    · -- a line is taken from the stream, or the numbers grow
      rw [hafter]
      by_cases hmore : rp.stream.drop (clen + 2).toNat = []
      · have hpos := hfollows.turn_pos hsize
        rw [hmore, lineOr, if_pos rfl] at hgrows
        rw [hmore, afterLine, List.drop_nil, List.length_nil]
        omega
      · have hless := length_afterLine_lt hmore
        rw [List.length_drop] at hless
        omega
    · intro cuts hcuts hmax
      rw [hafter] at hcuts
      by_cases hmore : rp.stream.drop (clen + 2).toNat = []
      · rw [hmore, lineOr, if_pos rfl] at hcuts
        exact absurd hcuts (not_cuts_nil (hfollows.nextSize_ne_zero hne) cuts)
      · have hdata := cast_length_take hsize hmore
        rw [lineOr, if_neg hmore] at hcuts hgrows ⊢
        rw [hadded hmore, hgrows, slack_turn hdata hroom]
        refine hnone _ (.more hne hsize hmore hcuts) ?_
        rw [grows]
        push_cast
        omega

end Chunks

theorem Body.chunked_ne_nil {chunks : List Chunk} {last : SizeLine} {hlast : last.size = 0} :
    (Body.chunked chunks last hlast).bytes ≠ [] := by
  intro hnil
  have hcrlf := (List.append_eq_nil_iff.mp (List.append_eq_nil_iff.mp hnil).2).2
  exact absurd hcrlf (by decide)

section Body

variable {memory : Memory} {rp : Rio} {server : List (Arrival rioBufSize)}

theorem readChunked_inside (memory : Memory) (hmore : rp.stream ≠ []) (hfit : ChunksFit rp.stream)
    (fuel : Nat) : readChunked memory 0 fuel rp ≠ .error .undefined := by
  obtain ⟨husrbuf, hafter⟩ := rioReadlineb_stream rp memory.chunkbuffer
  rw [lineOr, if_neg hmore] at husrbuf
  obtain ⟨clen, cuts, hscan, hcuts, hmax, hzero⟩ := hfit
  have htext := stringAt_putString (memory.malloc 0) 0
    (zero_not_mem_cstr (firstLine rp.stream))
  simp only [readChunked, husrbuf, hscan]
  exact readChunks_inside hcuts hafter 1 _ htext le_rfl hmax (Or.inr hzero) fuel

theorem readChunked_outside (memory : Memory) (hmore : rp.stream ≠ [])
    (hfit : ¬ ChunksFit rp.stream) {fuel : Nat} (hfuel : rp.stream.length + intMax.toNat < fuel) :
    readChunked memory 0 fuel rp = .error .undefined := by
  obtain ⟨husrbuf, hafter⟩ := rioReadlineb_stream rp memory.chunkbuffer
  rw [lineOr, if_neg hmore] at husrbuf
  have htext := stringAt_putString (memory.malloc 0) 0
    (zero_not_mem_cstr (firstLine rp.stream))
  have hkept := length_cstr_le (firstLine rp.stream)
  have hlength := length_firstLine_lt rp.stream
  cases hscan : (scanNumber 16 (cstr (firstLine rp.stream))).map storeHex with
  | none => simp only [readChunked, husrbuf, hscan]
  | some clen =>
    have hfollows : Follows (firstLine rp.stream) clen := by
      unfold Follows
      rw [hscan]
    have hless := length_afterLine_lt hmore
    simp only [readChunked, husrbuf, hscan]
    refine readChunks_outside memory 1 hfollows htext le_rfl ?_ ?_ (Nat.succ_le_of_lt hfuel) ?_
    · unfold maxLine at hlength
      unfold intMax
      omega
    · rw [hafter]
      omega
    · intro cuts hcuts hmax hslack
      rw [hafter] at hcuts
      exact hfit ⟨clen, cuts, hscan, hcuts, hmax, hslack.resolve_left (lt_irrefl _)⟩

/-- What is read as it is announced. -/
theorem readForm_inside {body : Body} (memory : Memory) (hstream : rp.stream = body.bytes)
    (hfit : body.Fits) (fuel : Nat) : readForm memory 0 fuel rp body ≠ .error .undefined := by
  cases body with
  | sized content =>
    have hsize : 0 ≤ storeInt content.length := storeInt_nonneg (Int.natCast_nonneg _)
    simp [readForm, readSized, ensure_eq_ok hsize, bind, Except.bind, pure, Except.pure]
  | chunked chunks last hlast =>
    have hfit' : ChunksFit rp.stream := hstream ▸ hfit
    exact readChunked_inside memory (hstream ▸ Body.chunked_ne_nil) hfit' fuel

theorem readForm_outside {body : Body} (memory : Memory) (hstream : rp.stream = body.bytes)
    (hfit : ¬ body.Fits) {fuel : Nat} (hfuel : body.bytes.length + intMax.toNat < fuel) :
    readForm memory 0 fuel rp body = .error .undefined := by
  cases body with
  | sized content => exact absurd trivial hfit
  | chunked chunks last hlast =>
    have hfit' : ¬ ChunksFit rp.stream := hstream ▸ hfit
    exact readChunked_outside memory (hstream ▸ Body.chunked_ne_nil) hfit' (hstream ▸ hfuel)

end Body

/-! ### The chunks of a complete response -/

/-- What the loop reads of the chunks when the size lines fit into `chunkbuffer`. -/
def cuttings : List Chunk → SizeLine → List Cutting
  | [], _ => []
  | c :: chunks, last => ⟨c.data ++ crlf, (currentSize chunks last).bytes⟩ :: cuttings chunks last

theorem cuts_cuttings {chunks : List Chunk} {last : SizeLine} (hlast : last.size = 0)
    (hlines : (Body.chunked chunks last hlast).LinesFit)
    (hmax : ((laterChunks chunks last).length : Int) ≤ intMax) :
    Cuts (laterChunks chunks last) (currentSize chunks last).size (cuttings chunks last) := by
  induction chunks with
  | nil =>
    rw [currentSize, hlast]
    exact .last _
  | cons c chunks ih =>
    have hrest : (Body.chunked chunks last hlast).LinesFit :=
      ⟨fun c' hc' ↦ hlines.1 c' (List.mem_cons_of_mem c hc'), hlines.2⟩
    have hline := currentSize_isLine hrest
    obtain ⟨hfirst, hafter⟩ := hline.firstLine_eq (laterChunks chunks last)
    have hsize := currentSize_size_le chunks hlast
    obtain ⟨htake, hdrop⟩ := take_drop_laterChunks c chunks last
    have hmore := hline.append_ne_nil (laterChunks chunks last)
    simp only [laterChunks, List.length_append, Nat.cast_add] at hmax
    have hnext := SizeLine.nextSize_eq hline (by omega) c.line.size
    rw [← hfirst, ← hdrop] at hnext
    have hlater : Cuts (afterLine ((laterChunks (c :: chunks) last).drop
        ((c.line.size : Int) + 2).toNat)) (nextSize (firstLine ((laterChunks (c :: chunks) last).drop
          ((c.line.size : Int) + 2).toNat)) c.line.size) (cuttings chunks last) := by
      rw [hnext, hdrop, hafter]
      exact ih hrest (by omega)
    have hmany := Cuts.more (Nat.cast_ne_zero.mpr c.size_ne_zero) (by omega)
      (by rw [hdrop]; exact hmore) hlater
    rw [hdrop, htake, hfirst] at hmany
    exact hmany

theorem grows_cuttings {chunks : List Chunk} {last : SizeLine} (hlast : last.size = 0)
    (hlines : (Body.chunked chunks last hlast).LinesFit) :
    2 + grows (cuttings chunks last) = (laterChunks chunks last).length := by
  induction chunks with
  | nil => rfl
  | cons c chunks ih =>
    have hrest : (Body.chunked chunks last hlast).LinesFit :=
      ⟨fun c' hc' ↦ hlines.1 c' (List.mem_cons_of_mem c hc'), hlines.2⟩
    rw [cuttings, grows, (currentSize_isLine hrest).cstr_eq, laterChunks]
    simp only [List.length_append] at ih ⊢
    have hlength := ih hrest
    omega

theorem exists_zero_cuttings (chunks : List Chunk) (last : SizeLine) :
    (∃ cut ∈ cuttings chunks last, 0 ∈ cut.data) ↔ ∃ c ∈ chunks, 0 ∈ c.data := by
  induction chunks with
  | nil => simp [cuttings]
  | cons c chunks ih =>
    rw [cuttings, List.exists_mem_cons_iff, List.exists_mem_cons_iff, ih]
    have hcrlf := IsLine.crlf.zero
    simp [List.mem_append, hcrlf]

/-- With size lines that fit, and bytes that an `int` counts, all depends on a zero byte. -/
theorem chunksFit_iff {chunks : List Chunk} {last : SizeLine} {hlast : last.size = 0}
    (hlines : (Body.chunked chunks last hlast).LinesFit)
    (hmax : ((Body.chunked chunks last hlast).bytes.length : Int) ≤ intMax) :
    ChunksFit (Body.chunked chunks last hlast).bytes ↔ ∃ c ∈ chunks, 0 ∈ c.data := by
  have hline := currentSize_isLine hlines
  have hsize := currentSize_size_le chunks hlast
  have hgrows := grows_cuttings hlast hlines
  rw [Body.bytes, ← currentSize_append] at hmax ⊢
  obtain ⟨hfirst, hafter⟩ := hline.firstLine_eq (laterChunks chunks last)
  rw [List.length_append, Nat.cast_add] at hmax
  have hscan := SizeLine.scan_storeHex (l := currentSize chunks last) (by omega)
  have hcuts := cuts_cuttings hlast hlines (by omega)
  unfold ChunksFit
  rw [hfirst, hafter, hline.cstr_eq, ← exists_zero_cuttings chunks last]
  constructor
  · rintro ⟨clen, cuts, hclen, hcuts', -, hzero⟩
    obtain rfl := Option.some.inj (hscan.symm.trans hclen)
    rwa [hcuts.unique hcuts']
  · intro hzero
    exact ⟨_, _, hscan, hcuts, by omega, hzero⟩

/-! ### The response -/

namespace Reply

variable {r : Reply} {memory : Memory} {server : List (Arrival rioBufSize)}

/-- With a header that fits, all depends on the body. -/
theorem doitResponse_eq (memory : Memory) (hserver : server.flatMap Arrival.bytes = r.bytes)
    (hheader : HeaderFits r.lines) (fuel : Nat) :
    (fuel ≤ r.lines.length ∧ doitResponse memory 0 fuel server = .error .spins) ∨
    (r.lines.length < fuel ∧ ∃ rp : Rio, rp.stream = r.body.bytes ∧
      doitResponse memory 0 fuel server = (do
        let content ← readForm memory 0 fuel rp r.body
        return r.lines.flatMap HeaderLine.bytes ++ crlf ++
          bytesAt content.contentBuffer 0 content.contentLength.toNat)) := by
  unfold HeaderFits at hheader
  obtain ⟨husrbuf, hstream⟩ := read_currentLine (rioReadinitb server) [] (by omega) hserver
  rcases readHeader_eq 0 fuel _ [] false none hstream (by rw [List.length_nil]; omega)
    (by rw [List.length_nil]; omega) with ⟨hfuel, hspins⟩ | ⟨hfuel, rp, hbody, hok⟩
  · refine Or.inl ⟨hfuel, ?_⟩
    rw [doitResponse, husrbuf, hspins]
    rfl
  · refine Or.inr ⟨hfuel, rp, hbody, ?_⟩
    rw [doitResponse, husrbuf, hok, ← readContent_announced r.hbody]
    rfl

theorem inside_of_fits (hserver : server.flatMap Arrival.bytes = r.bytes)
    (hheader : HeaderFits r.lines) (hbody : r.body.Fits) : Inside memory server := by
  intro fuel hundefined
  rcases doitResponse_eq memory hserver hheader fuel with ⟨-, hspins⟩ | ⟨-, rp, hstream, heq⟩
  · rw [hspins] at hundefined
    cases hundefined
  · rw [heq] at hundefined
    cases hform : readForm memory 0 fuel rp r.body with
    | error fault =>
      rw [hform] at hundefined
      refine readForm_inside memory hstream hbody fuel (hform.trans ?_)
      cases hundefined
      rfl
    | ok content =>
      rw [hform] at hundefined
      cases hundefined

theorem header_of_inside (hserver : server.flatMap Arrival.bytes = r.bytes)
    (hinside : Inside memory server) : HeaderFits r.lines := by
  by_contra hheader
  obtain ⟨husrbuf, hafter⟩ := rioReadlineb_stream (rioReadinitb server) []
  have hstream : (rioReadinitb server).stream = r.bytes := hserver
  have hmore : r.bytes ≠ [] := by
    intro hnil
    have hcrlf := (List.append_eq_nil_iff.mp (List.append_eq_nil_iff.mp hnil).2).1
    exact absurd hcrlf (by decide)
  rw [hstream, lineOr, if_neg hmore] at husrbuf
  rw [hstream] at hafter
  obtain ⟨fuel, hundefined⟩ := exists_readHeader_overrun [] false none r.body.bytes hafter
    (by rw [List.length_nil, Nat.zero_add]; exact Nat.not_lt.mp hheader)
  refine hinside fuel ?_
  rw [doitResponse, husrbuf]
  have hfirst : readHeader 0 fuel (rioReadlineb (rioReadinitb server) [] maxLine).rp
      (firstLine r.bytes) [] false none = .error .undefined := hundefined
  rw [hfirst]
  rfl

theorem body_of_inside (hserver : server.flatMap Arrival.bytes = r.bytes)
    (hinside : Inside memory server) : r.body.Fits := by
  by_contra hbody
  have hheader := header_of_inside hserver hinside
  have hfuel : r.lines.length < r.lines.length + (r.body.bytes.length + intMax.toNat) + 1 := by
    omega
  rcases doitResponse_eq memory hserver hheader
    (r.lines.length + (r.body.bytes.length + intMax.toNat) + 1) with
    ⟨hless, -⟩ | ⟨-, rp, hstream, heq⟩
  · exact absurd hfuel (by omega)
  · refine hinside (r.lines.length + (r.body.bytes.length + intMax.toNat) + 1) ?_
    rw [heq, readForm_outside memory hstream hbody (by omega)]
    rfl

end Reply

/-- Whatever is in memory, and in whatever pieces a complete response arrives: nothing is written
outside of `response`, `tbuf` and the block exactly if the header fits and the body does. A chunked
body with size lines that fit into `chunkbuffer`, and with bytes that an `int` counts, does so exactly
if there is a zero byte in a chunk. -/
theorem doit_inside_iff {r : Reply} (memory : Memory) {server : List (Arrival rioBufSize)}
    (hserver : server.flatMap Arrival.bytes = r.bytes) :
    (Inside memory server ↔ HeaderFits r.lines ∧ r.body.Fits) ∧
      (r.body.LinesFit → (r.body.bytes.length : Int) ≤ intMax →
        (Inside memory server ↔ HeaderFits r.lines ∧ ∀ chunks last hlast,
          r.body = .chunked chunks last hlast → ∃ c ∈ chunks, 0 ∈ c.data)) := by
  have hiff : Inside memory server ↔ HeaderFits r.lines ∧ r.body.Fits := by
    constructor
    · intro hinside
      exact ⟨Reply.header_of_inside hserver hinside, Reply.body_of_inside hserver hinside⟩
    · rintro ⟨hheader, hbody⟩
      exact Reply.inside_of_fits hserver hheader hbody
  refine ⟨hiff, fun hlines hmax ↦ hiff.trans (and_congr_right fun _ ↦ ?_)⟩
  cases hform : r.body with
  | sized content =>
    exact iff_of_true trivial fun chunks last hlast heq ↦ absurd heq (by simp)
  | chunked chunks last hlast =>
    rw [hform] at hlines hmax
    refine (chunksFit_iff hlines hmax).trans ?_
    constructor
    · rintro hzero chunks' last' hlast' heq
      obtain ⟨rfl, -⟩ := Body.chunked.inj heq
      exact hzero
    · intro hall
      exact hall chunks last hlast rfl

/-- A response with one byte in a chunk. -/
def oneByteReply (c : UInt8) : Reply :=
  ⟨(oneByteResponse c).lines, oneByte c, (oneByteResponse c).hbody⟩

theorem doit_inside_zero :
    Inside ⟨[], fun _ _ ↦ 0⟩ [.piece (oneByteReply 0).bytes (by decide) (by decide)] := by
  have hheader : HeaderFits (oneByteReply 0).lines := by
    unfold HeaderFits
    decide
  refine (((doit_inside_iff (r := oneByteReply 0) ⟨[], fun _ _ ↦ 0⟩ rfl).2
    (oneByte_linesFit 0) (by decide)).mpr ⟨hheader, ?_⟩)
  rintro chunks last hlast heq
  obtain ⟨rfl, -⟩ := Body.chunked.inj heq
  exact ⟨_, List.mem_cons_self, List.mem_cons_self⟩

/-- Without a zero byte the last `strcat` puts one behind the block. -/
theorem doit_inside_letter :
    ¬ Inside ⟨[], fun _ _ ↦ 0⟩ [.piece (oneByteReply 97).bytes (by decide) (by decide)] := by
  intro hinside
  have hfit : ChunksFit (oneByte 97).bytes :=
    Reply.body_of_inside (r := oneByteReply 97) rfl hinside
  obtain ⟨c, hc, hzero⟩ := (chunksFit_iff (oneByte_linesFit 97) (by decide)).mp hfit
  obtain rfl := List.mem_singleton.mp hc
  exact absurd hzero (by decide)

end SystemProgramming.ProxyLab
