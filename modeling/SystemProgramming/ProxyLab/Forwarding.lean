import SystemProgramming.ProxyLab.Cutting

/-!
# Forwarding a complete response

A response has header lines, a blank line and a body, either as long as a `Content-Length` line says
or in chunks. `doit` puts the chunks together with `strcat`, which takes a zero byte in the data for
the end, and counts the bytes on its own. So it writes the bytes that the server has sent exactly if
there is no zero byte in a chunk and the length of the body is an `int` (`doit_forwards`).
-/

set_option autoImplicit false
set_option relaxedAutoImplicit false

namespace SystemProgramming.ProxyLab

open Library

/-! ### Responses -/

/-- A header line, without the end of the line. -/
structure HeaderLine where
  text : Bytes
  hnonempty : text ≠ []
  hnul : 0 ∉ text
  hnewline : newline ∉ text

def HeaderLine.bytes (l : HeaderLine) : Bytes := l.text ++ crlf

def blank (c : UInt8) : Prop := c = 32 ∨ c = 9

/-- `Content-Length: n`. -/
def HeaderLine.TellsLength (l : HeaderLine) (n : Nat) : Prop :=
  ∃ name blanks digits padding, l.text = name ++ (blanks ++ (digits ++ padding)) ∧
    name.map toLower = contentLengthName.map toLower ∧ (∀ c ∈ blanks, blank c) ∧ digits ≠ [] ∧
    (∀ c ∈ digits, isDigit 10 c) ∧ numeral 10 digits = n ∧ ∀ c ∈ padding, blank c

/-- The line before the data of a chunk, with its extension. -/
structure SizeLine where
  digits : Bytes
  extension : Bytes
  hnonempty : digits ≠ []
  hdigits : ∀ c ∈ digits, isDigit 16 c
  hextension : ∀ c ∈ extension.head?, c = 59 ∨ blank c
  hnul : 0 ∉ extension
  hnewline : newline ∉ extension

def SizeLine.size (l : SizeLine) : Nat := numeral 16 l.digits

def SizeLine.bytes (l : SizeLine) : Bytes := l.digits ++ (l.extension ++ crlf)

structure Chunk where
  line : SizeLine
  data : Bytes
  hnonempty : data ≠ []
  hsize : line.size = data.length

def Chunk.bytes (c : Chunk) : Bytes := c.line.bytes ++ (c.data ++ crlf)

inductive Body
  | sized (content : Bytes)
  | chunked (chunks : List Chunk) (last : SizeLine) (hlast : last.size = 0)

namespace Body

def bytes : Body → Bytes
  | sized content => content
  | chunked chunks last _ => chunks.flatMap Chunk.bytes ++ (last.bytes ++ crlf)

/-- The header lines tell the form of the body. -/
def Announced (lines : List HeaderLine) : Body → Prop
  | sized content =>
    (∃ l ∈ lines, l.TellsLength content.length) ∧
      (∀ l ∈ lines, startsWith contentLengthName l.bytes → l.TellsLength content.length) ∧
      ∀ l ∈ lines, ¬ tellsChunked l.bytes
  | chunked _ _ _ => ∃ l ∈ lines, tellsChunked l.bytes

/-- The lines with the sizes fit into `chunkbuffer`. -/
def LinesFit : Body → Prop
  | sized _ => True
  | chunked chunks last _ =>
    (∀ c ∈ chunks, c.line.bytes.length < maxLine) ∧ last.bytes.length < maxLine

/-- There is no zero byte in a chunk. -/
def NoZero : Body → Prop
  | sized _ => True
  | chunked chunks _ _ => ∀ c ∈ chunks, 0 ∉ c.data

end Body

/-- A complete response. -/
structure Response where
  lines : List HeaderLine
  body : Body
  hlines : (lines.flatMap HeaderLine.bytes).length < maxLine
  hbody : body.Announced lines

def Response.bytes (r : Response) : Bytes :=
  r.lines.flatMap HeaderLine.bytes ++ (crlf ++ r.body.bytes)

/-- `doit` writes these bytes. It may use two bytes behind `response` and behind the block. -/
def Writes (memory : Memory) (server : List (Arrival rioBufSize)) (bytes : Bytes) : Prop :=
  ∃ fuel, doitResponse memory 2 fuel server = .ok bytes

/-! ### Lines -/

theorem zero_not_mem_append_crlf {data : Bytes} (h : 0 ∉ data) : 0 ∉ data ++ crlf := by
  rw [List.mem_append, not_or]
  exact ⟨h, IsLine.crlf.zero⟩

theorem HeaderLine.isLine {l : HeaderLine} (hlength : l.bytes.length < maxLine) : IsLine l.bytes :=
  IsLine.crlf_end l.hnul l.hnewline hlength

theorem HeaderLine.bytes_ne_crlf (l : HeaderLine) : l.bytes ≠ crlf := by
  intro heq
  have hlength := congrArg List.length heq
  rw [bytes, List.length_append] at hlength
  exact l.hnonempty (List.length_eq_zero_iff.mp (by omega))

theorem SizeLine.isLine {l : SizeLine} (hlength : l.bytes.length < maxLine) : IsLine l.bytes := by
  have hdigit : ∀ c : UInt8, isDigit 16 c = false → c ∉ l.digits := by
    intro c hc hmem
    rw [l.hdigits c hmem] at hc
    exact absurd hc (by decide)
  rw [bytes, ← List.append_assoc] at hlength ⊢
  apply IsLine.crlf_end _ _ hlength
  · rw [List.mem_append, not_or]
    exact ⟨hdigit 0 (by decide), l.hnul⟩
  · rw [List.mem_append, not_or]
    exact ⟨hdigit newline (by decide), l.hnewline⟩

/-- The size is read from its line. -/
theorem SizeLine.scan (l : SizeLine) : scanNumber 16 l.bytes = some (l.size : Int) := by
  have hblanks : ∀ c ∈ ([] : Bytes), isSpace c := fun c hc ↦ absurd hc List.not_mem_nil
  refine scanNumber_eq hblanks l.hnonempty l.hdigits ?_
  intro c hc
  match hextension : l.extension, hc with
  | [], hc =>
    obtain rfl : 13 = c := Option.some.inj hc
    decide
  | d :: _, hc =>
    obtain rfl : d = c := Option.some.inj hc
    rcases l.hextension d (by rw [hextension]; rfl) with rfl | rfl | rfl <;> decide

/-! ### The header -/

/-- The line that the loop over the header has before it. -/
def currentLine : List HeaderLine → Bytes
  | [] => crlf
  | l :: _ => l.bytes

/-- What comes after it, up to the body. -/
def laterLines : List HeaderLine → Bytes
  | [] => []
  | _ :: lines => lines.flatMap HeaderLine.bytes ++ crlf

theorem currentLine_append (lines : List HeaderLine) :
    currentLine lines ++ laterLines lines = lines.flatMap HeaderLine.bytes ++ crlf := by
  cases lines with
  | nil => rfl
  | cons l lines => simp [currentLine, laterLines]

theorem currentLine_isLine {lines : List HeaderLine}
    (hlines : (lines.flatMap HeaderLine.bytes).length < maxLine) : IsLine (currentLine lines) := by
  cases lines with
  | nil => exact IsLine.crlf
  | cons l lines =>
    rw [List.flatMap_cons, List.length_append] at hlines
    exact HeaderLine.isLine (by omega)

/-- The next line is read. -/
theorem read_currentLine {lines : List HeaderLine} {body : Bytes} (rp : Rio) (usrbuf : Bytes)
    (hlines : (lines.flatMap HeaderLine.bytes).length < maxLine)
    (hstream : rp.stream = lines.flatMap HeaderLine.bytes ++ (crlf ++ body)) :
    (rioReadlineb rp usrbuf maxLine).usrbuf = currentLine lines ∧
      (rioReadlineb rp usrbuf maxLine).rp.stream = laterLines lines ++ body := by
  refine (currentLine_isLine hlines).read rp usrbuf ?_
  rw [hstream, ← List.append_assoc, ← currentLine_append, List.append_assoc]

/-- What the header lines tell, on top of what has been noted. -/
def noted (lines : List HeaderLine) (contentLength : Option Int) : Option Int :=
  lines.foldl (fun contentLength l ↦ noteLength l.bytes contentLength) contentLength

/-- The loop collects the lines, up to the body, if there is fuel for them. -/
theorem readHeader_eq {lines : List HeaderLine} {body : Bytes} (spill fuel : Nat) (rp : Rio)
    (response : Bytes) (isChunked : Bool) (contentLength : Option Int)
    (hstream : rp.stream = laterLines lines ++ body)
    (hroom : response.length + (lines.flatMap HeaderLine.bytes).length < maxLine)
    (hspill : response.length + (lines.flatMap HeaderLine.bytes).length + 2 < maxLine + spill) :
    (fuel ≤ lines.length ∧
      readHeader spill fuel rp (currentLine lines) response isChunked contentLength = .error .spins) ∨
    (lines.length < fuel ∧ ∃ rp' : Rio, rp'.stream = body ∧
      readHeader spill fuel rp (currentLine lines) response isChunked contentLength =
        .ok ⟨response ++ (lines.flatMap HeaderLine.bytes ++ crlf),
          isChunked || lines.any (tellsChunked ·.bytes), noted lines contentLength, rp'⟩) := by
  induction lines generalizing fuel rp response isChunked contentLength with
  | nil =>
    cases fuel with
    | zero => exact Or.inl ⟨le_rfl, rfl⟩
    | succ fuel =>
      refine Or.inr ⟨Nat.succ_pos _, rp, hstream, ?_⟩
      have hfits : response.length + crlf.length < maxLine + spill := by
        rw [List.flatMap_nil, List.length_nil, Nat.add_zero] at hspill
        exact hspill
      rw [readHeader, currentLine, if_pos IsLine.crlf.cstr_eq, strcatLine_eq hfits]
      simp [noted, bind, Except.bind, pure, Except.pure]
  | cons l lines ih =>
    cases fuel with
    | zero => exact Or.inl ⟨Nat.zero_le _, rfl⟩
    | succ fuel =>
      rw [List.flatMap_cons, List.length_append] at hroom hspill
      have hline : cstr l.bytes = l.bytes := (HeaderLine.isLine (by omega)).cstr_eq
      have hfits : response.length + l.bytes.length < maxLine := by omega
      rw [laterLines, List.append_assoc] at hstream
      obtain ⟨husrbuf, hstream'⟩ := read_currentLine rp l.bytes (by omega) hstream
      have hstep : readHeader spill (fuel + 1) rp (currentLine (l :: lines)) response isChunked
          contentLength = readHeader spill fuel (rioReadlineb rp l.bytes maxLine).rp
            (currentLine lines) (response ++ l.bytes) (isChunked || tellsChunked l.bytes)
            (noteLength l.bytes contentLength) := by
        rw [(rioReadlineb_stream rp l.bytes).1] at husrbuf
        rw [currentLine, readHeader_succ spill fuel rp isChunked contentLength, husrbuf, hline]
        · rw [hline]
          exact l.bytes_ne_crlf
        · rwa [hline]
      rw [hstep, List.length_cons]
      rcases ih fuel _ (response ++ l.bytes) (isChunked || tellsChunked l.bytes)
        (noteLength l.bytes contentLength) hstream' (by rw [List.length_append]; omega)
        (by rw [List.length_append]; omega) with
        ⟨hfuel, hspins⟩ | ⟨hfuel, rp', hbody, hok⟩
      · exact Or.inl ⟨by omega, hspins⟩
      · refine Or.inr ⟨by omega, rp', hbody, hok.trans ?_⟩
        simp [noted, Bool.or_assoc]

/-! ### The content length -/

/-- A size that is an `int` is stored. -/
theorem SizeLine.scan_storeHex {l : SizeLine} (h : (l.size : Int) ≤ intMax) :
    (scanNumber 16 l.bytes).map storeHex = some (l.size : Int) := by
  rw [l.scan, Option.map_some, storeHex_of_le h]

theorem storeInt_le (n : Int) : storeInt n ≤ intMax := by
  unfold intMax
  rw [storeInt]
  omega

theorem isSpace_of_blank {c : UInt8} (h : blank c) : isSpace c := by
  rcases h with rfl | rfl <;> decide

namespace HeaderLine

variable {l : HeaderLine} {n : Nat}

theorem TellsLength.startsWith (h : l.TellsLength n) : startsWith contentLengthName l.bytes := by
  obtain ⟨name, blanks, digits, padding, htext, hname, -⟩ := h
  have hlength : name.length = contentLengthName.length := by
    simpa using congrArg List.length hname
  rw [Library.startsWith, bytes, htext, ← hlength, List.append_assoc, List.take_left, hname]

/-- The two words begin with different letters. -/
theorem not_startsWith {line : Bytes} (h : Library.startsWith contentLengthName line) :
    ¬ Library.startsWith transferEncoding line := by
  intro htransfer
  have hlength : Library.startsWith (67 :: contentLengthName.tail) line := h
  have htransfer' : Library.startsWith (84 :: transferEncoding.tail) line := htransfer
  exact absurd (hlength.head.symm.trans htransfer'.head) (by decide)

theorem TellsLength.scan (h : l.TellsLength n) :
    scanNumber 10 (l.bytes.drop 15) = some (n : Int) := by
  obtain ⟨name, blanks, digits, padding, htext, hname, hblanks, hne, hdigits, rfl, hpadding⟩ := h
  have hlength : name.length = contentLengthName.length := by
    simpa using congrArg List.length hname
  have hfifteen : name.length = 15 := hlength
  have hdrop : l.bytes.drop 15 = blanks ++ (digits ++ (padding ++ crlf)) := by
    rw [bytes, htext, ← hfifteen, List.append_assoc, List.drop_left]
    simp
  rw [hdrop]
  refine scanNumber_eq (fun c hc ↦ isSpace_of_blank (hblanks c hc)) hne hdigits fun c hc ↦ ?_
  cases padding with
  | nil =>
    obtain rfl : 13 = c := Option.some.inj hc
    decide
  | cons d padding =>
    obtain rfl : d = c := Option.some.inj hc
    rcases hpadding d List.mem_cons_self with rfl | rfl <;> decide

theorem TellsLength.noteLength (h : l.TellsLength n) (contentLength : Option Int) :
    noteLength l.bytes contentLength = some (storeInt n) := by
  rw [ProxyLab.noteLength, if_neg (not_startsWith h.startsWith), if_pos h.startsWith, h.scan]
  rfl

end HeaderLine

theorem noteLength_of_not {line : Bytes} (h : ¬ startsWith contentLengthName line)
    (contentLength : Option Int) : noteLength line contentLength = contentLength := by
  rw [noteLength, if_neg h, ite_self]

/-- The length that the lines tell is noted. -/
theorem noted_eq {lines : List HeaderLine} {n : Nat} {contentLength : Option Int}
    (hall : ∀ l ∈ lines, startsWith contentLengthName l.bytes → l.TellsLength n)
    (hone : contentLength = some (storeInt n) ∨ ∃ l ∈ lines, l.TellsLength n) :
    noted lines contentLength = some (storeInt n) := by
  induction lines generalizing contentLength with
  | nil => simpa [noted] using hone
  | cons l lines ih =>
    have hnoted : noted (l :: lines) contentLength =
        noted lines (noteLength l.bytes contentLength) := rfl
    rw [hnoted]
    have hlater := fun l' hl' ↦ hall l' (List.mem_cons_of_mem l hl')
    by_cases hl : startsWith contentLengthName l.bytes
    · have htells := hall l List.mem_cons_self hl
      exact ih hlater (Or.inl (htells.noteLength contentLength))
    · refine ih hlater ?_
      rw [noteLength_of_not hl]
      refine hone.imp_right ?_
      rintro ⟨l', hl', htells⟩
      rcases List.mem_cons.mp hl' with rfl | hl'
      · exact absurd htells.startsWith hl
      · exact ⟨l', hl', htells⟩

/-- As many bytes as the header tells. -/
theorem readSized_eq (memory : Memory) {rp : Rio} {content : Bytes} (hstream : rp.stream = content)
    (hmax : (content.length : Int) ≤ intMax) :
    readSized memory rp (some (storeInt content.length)) =
      .ok ⟨putBytes (memory.malloc 0) 0 content, content.length⟩ := by
  have hdata : (rioReadnb rp content.length).1 = content := by
    rw [(rioReadnb_eq rp content.length).1, hstream, List.take_length]
  rw [storeInt_of_le hmax, readSized, ensure_eq_ok (Int.natCast_nonneg _)]
  simp [bind, Except.bind, pure, Except.pure, hdata]

/-! ### The chunks -/

/-- The line that the loop over the chunks has before it. -/
def currentSize : List Chunk → SizeLine → SizeLine
  | [], last => last
  | c :: _, _ => c.line

/-- What comes after it. -/
def laterChunks : List Chunk → SizeLine → Bytes
  | [], _ => crlf
  | c :: chunks, last =>
    c.data ++ crlf ++ ((currentSize chunks last).bytes ++ laterChunks chunks last)

/-- What the string functions make of that. -/
def kept : List Chunk → SizeLine → Bytes
  | [], _ => crlf
  | c :: chunks, last =>
    cstr (c.data ++ crlf) ++ ((currentSize chunks last).bytes ++ kept chunks last)

theorem currentSize_append (chunks : List Chunk) (last : SizeLine) :
    (currentSize chunks last).bytes ++ laterChunks chunks last =
      chunks.flatMap Chunk.bytes ++ (last.bytes ++ crlf) := by
  induction chunks with
  | nil => rfl
  | cons c chunks ih =>
    rw [laterChunks, ih, currentSize, List.flatMap_cons, Chunk.bytes]
    simp only [List.append_assoc]

theorem two_le_length_laterChunks (chunks : List Chunk) (last : SizeLine) :
    2 ≤ (laterChunks chunks last).length := by
  cases chunks with
  | nil => exact le_rfl
  | cons c chunks =>
    have hcrlf : crlf.length = 2 := rfl
    simp only [laterChunks, List.length_append]
    omega

/-- The data of a chunk comes after its line. -/
theorem currentSize_size_le (chunks : List Chunk) {last : SizeLine} (hlast : last.size = 0) :
    (currentSize chunks last).size ≤ (laterChunks chunks last).length := by
  cases chunks with
  | nil => exact hlast.trans_le (Nat.zero_le _)
  | cons c chunks =>
    simp only [currentSize, c.hsize, laterChunks, List.length_append]
    omega

theorem currentSize_isLine {chunks : List Chunk} {last : SizeLine} {hlast : last.size = 0}
    (hlines : (Body.chunked chunks last hlast).LinesFit) :
    IsLine (currentSize chunks last).bytes := by
  cases chunks with
  | nil => exact SizeLine.isLine hlines.2
  | cons c chunks => exact SizeLine.isLine (hlines.1 c List.mem_cons_self)

theorem Chunk.size_ne_zero (c : Chunk) : c.line.size ≠ 0 := by
  rw [c.hsize]
  exact (List.length_pos_of_ne_nil c.hnonempty).ne'

/-- The bytes behind the size line of a chunk are cut into its data and the next size line. -/
theorem take_drop_laterChunks (c : Chunk) (chunks : List Chunk) (last : SizeLine) :
    (laterChunks (c :: chunks) last).take ((c.line.size : Int) + 2).toNat = c.data ++ crlf ∧
      (laterChunks (c :: chunks) last).drop ((c.line.size : Int) + 2).toNat =
        (currentSize chunks last).bytes ++ laterChunks chunks last := by
  have hlength : ((c.line.size : Int) + 2).toNat = (c.data ++ crlf).length := by
    rw [c.hsize, List.length_append]
    rfl
  rw [laterChunks, hlength]
  exact ⟨List.take_left, List.drop_left⟩

/-- A size line tells the next size. -/
theorem SizeLine.nextSize_eq {l : SizeLine} (hline : IsLine l.bytes) (hsize : (l.size : Int) ≤ intMax)
    (clen : Int) : nextSize l.bytes clen = l.size := by
  rw [nextSize, hline.cstr_eq, SizeLine.scan_storeHex hsize]
  rfl

/-- A chunk is read, and what the string functions see of it is put behind the rest. -/
theorem readChunks_cons (memory : Memory) {c : Chunk} {chunks : List Chunk} {last : SizeLine}
    {rp : Rio} {contentBuffer : ByteMemory} {text : Bytes} {length : Nat}
    (fuel blocks : Nat) (chunkbuffer : Bytes) (hlast : last.size = 0)
    (hline : IsLine (currentSize chunks last).bytes)
    (hstream : rp.stream = laterChunks (c :: chunks) last) (htext : StringAt contentBuffer 0 text)
    (hroom : text.length + 2 ≤ length)
    (hmax : (length + (laterChunks (c :: chunks) last).length : Int) ≤ intMax + 2) :
    ∃ (rp' : Rio) (contentBuffer' : ByteMemory), rp'.stream = laterChunks chunks last ∧
      StringAt contentBuffer' 0
        (text ++ cstr (c.data ++ crlf) ++ (currentSize chunks last).bytes) ∧
      readChunks memory 2 (fuel + 1) blocks rp chunkbuffer contentBuffer length c.line.size =
        readChunks memory 2 fuel (blocks + 2) rp' (currentSize chunks last).bytes contentBuffer'
          ((length + ((currentSize chunks last).bytes.length + (c.data ++ crlf).length) : Nat))
          (currentSize chunks last).size := by
  set line := (currentSize chunks last).bytes with hlinedef
  set data := c.data ++ crlf with hdatadef
  have hclen : (c.line.size : Int) + 2 = (data.length : Int) := by
    rw [c.hsize, hdatadef, List.length_append]
    rfl
  have hsize := currentSize_size_le chunks hlast
  have hlater := two_le_length_laterChunks chunks last
  -- the data and the line after it
  obtain ⟨htake, hdrop⟩ := take_drop_laterChunks c chunks last
  obtain ⟨hfirst, hafter⟩ := hline.firstLine_eq (laterChunks chunks last)
  rw [← hstream, ← hdatadef] at htake
  rw [← hstream, ← hlinedef] at hdrop
  have hmore : rp.stream.drop ((c.line.size : Int) + 2).toNat ≠ [] := by
    rw [hdrop]
    exact hline.append_ne_nil _
  have hgrows : turnGrows rp.stream chunkbuffer c.line.size = line.length + data.length := by
    rw [turnGrows_of_drop hmore, hdrop, hfirst, hline.cstr_eq, hclen]
  rw [laterChunks, ← hlinedef, ← hdatadef] at hmax
  simp only [List.length_append, Nat.cast_add] at hmax
  have hnext := SizeLine.nextSize_eq hline (by omega) c.line.size
  have hfits : (text.length : Int) + 2 ≤ (length : Int) := by omega
  have hgrown : (length : Int) + ((line.length : Int) + (data.length : Int)) =
      ((length + (line.length + data.length) : Nat) : Int) := by simp
  obtain ⟨rp', block, added, hrest, -, hadded, hblock, hturn⟩ := readChunks_turn memory 2 blocks
    chunkbuffer (Nat.cast_ne_zero.mpr c.size_ne_zero) htext hfits (by omega) (by rw [hgrows]; omega)
  rw [hadded hmore, htake, hdrop, hline.lineOr_eq, hline.cstr_eq] at hblock
  rw [hdrop, hafter] at hrest
  rw [hdrop, hline.lineOr_eq, hgrows, hnext, hgrown] at hturn
  exact ⟨rp', block, hrest, hblock, hturn fuel⟩

/-- The loop over the chunks, if there is fuel for them. -/
theorem readChunks_eq (memory : Memory) {chunks : List Chunk} {last : SizeLine} {rp : Rio}
    {contentBuffer : ByteMemory} {text : Bytes} {length : Nat}
    (fuel blocks : Nat) (chunkbuffer : Bytes) (hlast : last.size = 0)
    (hlines : (Body.chunked chunks last hlast).LinesFit)
    (hstream : rp.stream = laterChunks chunks last) (htext : StringAt contentBuffer 0 text)
    (hroom : text.length + 2 ≤ length)
    (hmax : (length + (laterChunks chunks last).length : Int) ≤ intMax + 2) :
    (fuel ≤ chunks.length ∧ readChunks memory 2 fuel blocks rp chunkbuffer contentBuffer length
      (currentSize chunks last).size = .error .spins) ∨
    (chunks.length < fuel ∧ ∃ contentBuffer',
      StringAt contentBuffer' 0 (text ++ kept chunks last) ∧
      readChunks memory 2 fuel blocks rp chunkbuffer contentBuffer length
        (currentSize chunks last).size =
          .ok ⟨contentBuffer', (length + (laterChunks chunks last).length - 2 : Nat)⟩) := by
  induction chunks generalizing fuel blocks rp chunkbuffer contentBuffer text length with
  | nil =>
    cases fuel with
    | zero => exact Or.inl ⟨le_rfl, rfl⟩
    | succ fuel =>
      have htwo : crlf.length = 2 := rfl
      obtain ⟨block, hstrcat, hblock⟩ := strcat_eq (length + 2) htext IsLine.crlf.zero
        (by omega)
      refine Or.inr ⟨Nat.succ_pos _, block, hblock, ?_⟩
      have hlength : length + (laterChunks [] last).length - 2 = length := by
        rw [laterChunks, htwo]
        omega
      rw [hlength, readChunks, currentSize, hlast, if_pos Nat.cast_zero]
      simp [hstrcat, bind, Except.bind, pure, Except.pure]
  | cons c chunks ih =>
    cases fuel with
    | zero => exact Or.inl ⟨Nat.zero_le _, rfl⟩
    | succ fuel =>
      have hrest : (Body.chunked chunks last hlast).LinesFit :=
        ⟨fun c' hc' ↦ hlines.1 c' (List.mem_cons_of_mem c hc'), hlines.2⟩
      obtain ⟨rp', block, hstream', hblock, hstep⟩ := readChunks_cons memory fuel blocks
        chunkbuffer hlast (currentSize_isLine hrest) hstream htext hroom hmax
      have hkept := length_cstr_le (c.data ++ crlf)
      have hlater : (laterChunks (c :: chunks) last).length = (c.data ++ crlf).length +
          ((currentSize chunks last).bytes.length + (laterChunks chunks last).length) := by
        simp only [laterChunks, List.length_append]
      rw [hlater, Nat.cast_add, Nat.cast_add] at hmax
      rw [hlater, currentSize, hstep, List.length_cons]
      have hroom' : (text ++ cstr (c.data ++ crlf) ++ (currentSize chunks last).bytes).length + 2 ≤
          length + ((currentSize chunks last).bytes.length + (c.data ++ crlf).length) := by
        rw [List.length_append, List.length_append]
        omega
      have hmax' : (((length + ((currentSize chunks last).bytes.length +
          (c.data ++ crlf).length) : Nat) : Int) + (laterChunks chunks last).length : Int) ≤
            intMax + 2 := by
        rw [Nat.cast_add, Nat.cast_add]
        omega
      rcases ih fuel (blocks + 2) (currentSize chunks last).bytes hrest hstream' hblock hroom' hmax'
        with ⟨hfuel, hspins⟩ | ⟨hfuel, block', hblock', hok⟩
      · exact Or.inl ⟨by omega, hspins⟩
      · refine Or.inr ⟨by omega, block', ?_, hok.trans ?_⟩
        · rw [kept]
          simpa only [List.append_assoc] using hblock'
        · congr 3
          omega

/-- A chunked body, if there is fuel for its chunks. -/
theorem readChunked_eq (memory : Memory) {chunks : List Chunk} {last : SizeLine} {rp : Rio}
    (fuel : Nat) {hlast : last.size = 0} (hlines : (Body.chunked chunks last hlast).LinesFit)
    (hstream : rp.stream = (Body.chunked chunks last hlast).bytes)
    (hmax : ((Body.chunked chunks last hlast).bytes.length : Int) ≤ intMax) :
    (fuel ≤ chunks.length ∧ readChunked memory 2 fuel rp = .error .spins) ∨
    (chunks.length < fuel ∧ ∃ contentBuffer,
      StringAt contentBuffer 0 ((currentSize chunks last).bytes ++ kept chunks last) ∧
      readChunked memory 2 fuel rp =
        .ok ⟨contentBuffer, (Body.chunked chunks last hlast).bytes.length⟩) := by
  have hline := currentSize_isLine hlines
  have hsize := currentSize_size_le chunks hlast
  have hlater := two_le_length_laterChunks chunks last
  rw [Body.bytes, ← currentSize_append] at hstream hmax ⊢
  rw [List.length_append, Nat.cast_add] at hmax
  obtain ⟨husrbuf, hstream'⟩ := hline.read rp memory.chunkbuffer hstream
  have htext := stringAt_putString (memory.malloc 0) 0 hline.zero
  have hscan := SizeLine.scan_storeHex (l := currentSize chunks last) (by omega)
  have hfirst : readChunked memory 2 fuel rp = readChunks memory 2 fuel 1
      (rioReadlineb rp memory.chunkbuffer maxLine).rp (currentSize chunks last).bytes
      (putString (memory.malloc 0) 0 (currentSize chunks last).bytes)
      (((currentSize chunks last).bytes.length + 2 : Nat) : Int) (currentSize chunks last).size := by
    simp only [readChunked, husrbuf, hline.cstr_eq, hscan]
    rfl
  rw [hfirst]
  rcases readChunks_eq memory fuel 1 (currentSize chunks last).bytes hlast hlines
    hstream' htext le_rfl (by push_cast; omega) with hspins | ⟨hfuel, block, hblock, hok⟩
  · exact Or.inl hspins
  · refine Or.inr ⟨hfuel, block, hblock, hok.trans ?_⟩
    congr 3
    rw [List.length_append]
    omega

/-- The string functions keep everything if there is no zero byte in the data. -/
theorem kept_eq {chunks : List Chunk} {last : SizeLine} (hzero : ∀ c ∈ chunks, 0 ∉ c.data) :
    kept chunks last = laterChunks chunks last := by
  induction chunks with
  | nil => rfl
  | cons c chunks ih =>
    have hdata := zero_not_mem_append_crlf (hzero c List.mem_cons_self)
    rw [kept, laterChunks, cstr_eq_self hdata, ih fun c' hc' ↦ hzero c' (List.mem_cons_of_mem c hc')]

theorem length_kept_le (chunks : List Chunk) (last : SizeLine) :
    (kept chunks last).length ≤ (laterChunks chunks last).length := by
  induction chunks with
  | nil => exact le_rfl
  | cons c chunks ih =>
    have hkept := length_cstr_le (c.data ++ crlf)
    simp only [kept, laterChunks, List.length_append] at hkept ⊢
    omega

/-- Where a zero byte comes first, they go on with a digit of the next size. -/
theorem zero_not_mem_of_prefix {chunks : List Chunk} {last : SizeLine}
    (h : kept chunks last <+: laterChunks chunks last) : ∀ c ∈ chunks, 0 ∉ c.data := by
  induction chunks with
  | nil => exact fun c hc ↦ absurd hc List.not_mem_nil
  | cons c chunks ih =>
    rw [kept, laterChunks] at h
    by_cases hmem : 0 ∈ c.data
    · obtain ⟨front, back, hdata, hfront⟩ := List.eq_append_cons_of_mem hmem
      rw [hdata, List.append_assoc, List.cons_append, cstr_append_zero hfront, List.append_assoc,
        List.prefix_append_right_inj] at h
      obtain ⟨d, digits, hdigits⟩ := List.exists_cons_of_ne_nil (currentSize chunks last).hnonempty
      rw [SizeLine.bytes, hdigits, List.cons_append, List.cons_append, List.cons_append,
        List.cons_prefix_cons] at h
      have hdigit := (currentSize chunks last).hdigits d (by simp [hdigits])
      rw [h.1] at hdigit
      exact absurd hdigit (by decide)
    · rw [cstr_eq_self (zero_not_mem_append_crlf hmem), List.prefix_append_right_inj,
        List.prefix_append_right_inj] at h
      exact List.forall_mem_cons.mpr ⟨hmem, ih h⟩

/-! ### No more bytes are written than an `int` counts -/

theorem readChunks_le {memory : Memory} {spill fuel blocks : Nat} {rp : Rio} {chunkbuffer : Bytes}
    {contentBuffer : ByteMemory} {contentLength clen : Int} {content : Content}
    (hle : contentLength ≤ intMax)
    (h : readChunks memory spill fuel blocks rp chunkbuffer contentBuffer contentLength clen =
      .ok content) : content.contentLength ≤ intMax := by
  induction fuel generalizing blocks rp chunkbuffer contentBuffer contentLength clen with
  | zero => cases h
  | succ fuel ih =>
    rw [readChunks] at h
    split at h
    · obtain ⟨block, -, hcontent⟩ := bind_eq_ok h
      cases hcontent
      exact hle
    · obtain ⟨-, -, h⟩ := bind_eq_ok h
      obtain ⟨u, hgrown, h⟩ := bind_eq_ok h
      split at h
      · cases h
      · obtain ⟨block, -, h⟩ := bind_eq_ok h
        obtain ⟨block', -, h⟩ := bind_eq_ok h
        exact ih (of_ensure_eq_ok hgrown) h

/-- The body is read in the form that the header tells. -/
def readBody (memory : Memory) (fuel : Nat) (rp : Rio) : Body → Except Fault Content
  | .sized content => readSized memory rp (some (storeInt content.length))
  | .chunked _ _ _ => readChunked memory 2 fuel rp

theorem readBody_le {memory : Memory} {fuel : Nat} {rp : Rio} {body : Body} {content : Content}
    (hlines : body.LinesFit) (hstream : rp.stream = body.bytes)
    (h : readBody memory fuel rp body = .ok content) : content.contentLength ≤ intMax := by
  cases body with
  | sized bytes =>
    obtain ⟨-, -, hcontent⟩ := bind_eq_ok h
    cases hcontent
    exact storeInt_le _
  | chunked chunks last hlast =>
    have hline := currentSize_isLine hlines
    rw [Body.bytes, ← currentSize_append] at hstream
    obtain ⟨husrbuf, -⟩ := hline.read rp memory.chunkbuffer hstream
    simp only [readBody, readChunked, husrbuf, hline.cstr_eq, SizeLine.scan, Option.map_some] at h
    refine readChunks_le ?_ h
    have hlength := hline.length
    unfold maxLine at hlength
    unfold intMax
    omega

/-! ### The response -/

/-- The body, read in its form. -/
def readForm (memory : Memory) (spill fuel : Nat) (rp : Rio) : Body → Except Fault Content
  | .sized content => readSized memory rp (some (storeInt content.length))
  | .chunked _ _ _ => readChunked memory spill fuel rp

/-- The header lines tell in which form the body is read. -/
theorem readContent_announced {lines : List HeaderLine} {body : Body} (hbody : body.Announced lines)
    (memory : Memory) (spill fuel : Nat) (rp : Rio) (response : Bytes) :
    readContent memory spill fuel ⟨response, false || lines.any (tellsChunked ·.bytes),
      noted lines none, rp⟩ = readForm memory spill fuel rp body := by
  rw [Bool.false_or, readContent]
  cases body with
  | sized content =>
    obtain ⟨hone, hall, hnone⟩ := hbody
    have hany : ¬ lines.any (tellsChunked ·.bytes) := by simpa using hnone
    rw [if_neg hany, noted_eq hall (Or.inr hone)]
    rfl
  | chunked chunks last hlast =>
    obtain ⟨l, hl, htells⟩ := hbody
    have hany : lines.any (tellsChunked ·.bytes) := List.any_eq_true.mpr
      ⟨l, hl, decide_eq_true htells⟩
    rw [if_pos hany]
    rfl

namespace Response

variable {r : Response} {memory : Memory} {server : List (Arrival rioBufSize)}

theorem readContent_eq (fuel : Nat) (rp : Rio) (response : Bytes) :
    readContent memory 2 fuel ⟨response, false || r.lines.any (tellsChunked ·.bytes),
      noted r.lines none, rp⟩ = readBody memory fuel rp r.body := by
  rw [readContent_announced r.hbody]
  cases r.body with
  | sized content => rfl
  | chunked chunks last hlast => rfl

/-- The header is written as it is, and the body as it is read. -/
theorem doitResponse_eq (memory : Memory) (hserver : server.flatMap Arrival.bytes = r.bytes)
    (fuel : Nat) :
    (fuel ≤ r.lines.length ∧ doitResponse memory 2 fuel server = .error .spins) ∨
    (r.lines.length < fuel ∧ ∃ rp : Rio, rp.stream = r.body.bytes ∧
      doitResponse memory 2 fuel server = (do
        let content ← readBody memory fuel rp r.body
        return r.lines.flatMap HeaderLine.bytes ++ crlf ++
          bytesAt content.contentBuffer 0 content.contentLength.toNat)) := by
  obtain ⟨husrbuf, hstream⟩ := read_currentLine (rioReadinitb server) [] r.hlines hserver
  have hlines := r.hlines
  rcases readHeader_eq 2 fuel _ [] false none hstream (by simpa using hlines)
    (by simpa using hlines) with
    ⟨hfuel, hspins⟩ | ⟨hfuel, rp, hbody, hok⟩
  · refine Or.inl ⟨hfuel, ?_⟩
    rw [doitResponse, husrbuf, hspins]
    rfl
  · refine Or.inr ⟨hfuel, rp, hbody, ?_⟩
    rw [doitResponse, husrbuf, hok, ← readContent_eq]
    rfl

/-- The bytes that are written after the header are those of the body. -/
theorem exists_content (hserver : server.flatMap Arrival.bytes = r.bytes)
    (h : Writes memory server r.bytes) : ∃ fuel, ∃ rp : Rio, ∃ content,
      rp.stream = r.body.bytes ∧ readBody memory fuel rp r.body = .ok content ∧
      bytesAt content.contentBuffer 0 content.contentLength.toNat = r.body.bytes := by
  obtain ⟨fuel, hok⟩ := h
  rcases doitResponse_eq memory hserver fuel with ⟨-, hspins⟩ | ⟨-, rp, hstream, heq⟩
  · rw [hspins] at hok
    cases hok
  · rw [heq] at hok
    obtain ⟨content, hcontent, hbytes⟩ := bind_eq_ok hok
    refine ⟨fuel, rp, content, hstream, hcontent, ?_⟩
    rw [bytes, ← List.append_assoc] at hbytes
    exact List.append_cancel_left (Except.ok.inj hbytes)

theorem length_le (hserver : server.flatMap Arrival.bytes = r.bytes) (hlines : r.body.LinesFit)
    (h : Writes memory server r.bytes) : (r.body.bytes.length : Int) ≤ intMax := by
  obtain ⟨fuel, rp, content, hstream, hcontent, hbytes⟩ := exists_content hserver h
  have hle := readBody_le hlines hstream hcontent
  have hpos : (0 : Int) ≤ intMax := by decide
  rw [← hbytes, length_bytesAt]
  omega

theorem noZero (hserver : server.flatMap Arrival.bytes = r.bytes) (hlines : r.body.LinesFit)
    (h : Writes memory server r.bytes) : r.body.NoZero := by
  have hmax := length_le hserver hlines h
  obtain ⟨fuel, rp, content, hstream, hcontent, hbytes⟩ := exists_content hserver h
  cases hform : r.body with
  | sized bytes => trivial
  | chunked chunks last hlast =>
    rw [hform] at hlines hmax hstream hcontent hbytes
    rcases readChunked_eq memory fuel hlines hstream hmax with
      ⟨-, hspins⟩ | ⟨-, block, hblock, hok⟩
    · cases hspins.symm.trans hcontent
    · obtain rfl := Except.ok.inj (hok.symm.trans hcontent)
      rw [Int.toNat_natCast] at hbytes
      have hlength : ((currentSize chunks last).bytes ++ kept chunks last).length ≤
          (Body.chunked chunks last hlast).bytes.length := by
        rw [Body.bytes, ← currentSize_append, List.length_append, List.length_append]
        exact Nat.add_le_add_left (length_kept_le chunks last) _
      have hfirst := hblock.prefix_bytesAt hlength
      rw [hbytes, Body.bytes, ← currentSize_append, List.prefix_append_right_inj] at hfirst
      exact zero_not_mem_of_prefix hfirst

/-- With enough fuel the body is read as it is. -/
theorem exists_readBody (memory : Memory) {body : Body} (hlines : body.LinesFit)
    (hzero : body.NoZero) (hmax : (body.bytes.length : Int) ≤ intMax) :
    ∃ turns, ∀ fuel rp, turns < fuel → rp.stream = body.bytes → ∃ content,
      readBody memory fuel rp body = .ok content ∧
      bytesAt content.contentBuffer 0 content.contentLength.toNat = body.bytes := by
  cases body with
  | sized bytes =>
    refine ⟨0, fun fuel rp _ hstream ↦ ⟨_, readSized_eq memory hstream hmax, ?_⟩⟩
    rw [Int.toNat_natCast]
    exact bytesAt_putBytes _ 0 bytes
  | chunked chunks last hlast =>
    refine ⟨chunks.length, fun fuel rp hfuel hstream ↦ ?_⟩
    rcases readChunked_eq memory fuel hlines hstream hmax with
      ⟨hless, -⟩ | ⟨-, block, hblock, hok⟩
    · exact absurd hfuel (by omega)
    · refine ⟨_, hok, ?_⟩
      rw [kept_eq hzero, currentSize_append] at hblock
      rw [Int.toNat_natCast]
      exact (hblock.prefix_bytesAt le_rfl |>.eq_of_length (length_bytesAt _ _ _).symm).symm

theorem writes (hserver : server.flatMap Arrival.bytes = r.bytes) (hlines : r.body.LinesFit)
    (hzero : r.body.NoZero) (hmax : (r.body.bytes.length : Int) ≤ intMax) :
    Writes memory server r.bytes := by
  obtain ⟨turns, hturns⟩ := exists_readBody memory hlines hzero hmax
  have hfuel : turns < r.lines.length + turns + 1 := by omega
  refine ⟨r.lines.length + turns + 1, ?_⟩
  rcases doitResponse_eq memory hserver (r.lines.length + turns + 1) with
    ⟨hless, -⟩ | ⟨-, rp, hstream, heq⟩
  · exact absurd hless (by omega)
  · obtain ⟨content, hcontent, hbytes⟩ := hturns _ rp hfuel hstream
    rw [heq, hcontent, bytes, ← hbytes, ← List.append_assoc]
    rfl

end Response

/-- Whatever is in memory, and in whatever pieces a complete response arrives: if the lines with the
sizes fit, `doit` writes the bytes of the response exactly if there is no zero byte in a chunk and an
`int` counts the bytes of the body. -/
theorem doit_forwards {r : Response} (memory : Memory) {server : List (Arrival rioBufSize)}
    (hserver : server.flatMap Arrival.bytes = r.bytes) (hlines : r.body.LinesFit) :
    Writes memory server r.bytes ↔
      r.body.NoZero ∧ (r.body.bytes.length : Int) ≤ intMax := by
  constructor
  · intro h
    exact ⟨Response.noZero hserver hlines h, Response.length_le hserver hlines h⟩
  · rintro ⟨hzero, hmax⟩
    exact Response.writes hserver hlines hzero hmax

/-- The line before a chunk of one byte. -/
def sizeOne : SizeLine :=
  ⟨ascii "1", [], by decide, List.forall_mem_singleton.mpr (by decide), by simp, List.not_mem_nil,
    List.not_mem_nil⟩

/-- The line of the last chunk. -/
def sizeZero : SizeLine :=
  ⟨ascii "0", [], by decide, List.forall_mem_singleton.mpr (by decide), by simp, List.not_mem_nil,
    List.not_mem_nil⟩

/-- A chunk of one byte, and the last chunk. -/
def oneByte (c : UInt8) : Body :=
  .chunked [⟨sizeOne, [c], List.cons_ne_nil _ _, rfl⟩] sizeZero rfl

/-- A response with one byte in a chunk. -/
def oneByteResponse (c : UInt8) : Response where
  lines := [⟨ascii "HTTP/1.0 200 OK", by decide, by decide, by decide⟩,
    ⟨ascii "Transfer-Encoding: chunked", by decide, by decide, by decide⟩]
  body := oneByte c
  hlines := by decide
  hbody := ⟨_, List.mem_cons_of_mem _ List.mem_cons_self, by decide, Or.inl
    ⟨ascii "Transfer-Encoding: ", crlf, by decide⟩⟩

theorem oneByte_linesFit (c : UInt8) : (oneByte c).LinesFit := by
  have hone : sizeOne.bytes.length < maxLine := by decide
  have hzero : sizeZero.bytes.length < maxLine := by decide
  exact ⟨List.forall_mem_singleton.mpr hone, hzero⟩

theorem doit_forwards_letter :
    Writes ⟨[], fun _ _ ↦ 0⟩ [.piece (oneByteResponse 97).bytes (by decide) (by decide)]
      (oneByteResponse 97).bytes := by
  have hzero : (oneByte 97).NoZero := List.forall_mem_singleton.mpr (by decide)
  exact (doit_forwards _ (by decide) (oneByte_linesFit 97)).mpr ⟨hzero, by decide⟩

theorem doit_forwards_zero :
    ¬ Writes ⟨[], fun _ _ ↦ 0⟩ [.piece (oneByteResponse 0).bytes (by decide) (by decide)]
      (oneByteResponse 0).bytes := by
  intro h
  have hzero : (oneByte 0).NoZero := Response.noZero (by decide) (oneByte_linesFit 0) h
  exact absurd (hzero _ List.mem_cons_self) (by decide)

end SystemProgramming.ProxyLab
