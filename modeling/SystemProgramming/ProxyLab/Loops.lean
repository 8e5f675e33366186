import SystemProgramming.ProxyLab.Cutting
import SystemProgramming.ProxyLab.Forwarding

/-!
# The loops that read

`print_requesthdrs`, in the proxy and in the server, and the loop over the header of a response look
only at the last line that has been read. At the end of the stream that line stays where it is: the
first two go on for ever then, and the third puts the line behind `response` again and again, until it
is written past the array. The loop over the chunks reads its last size line again and again when the
stream ends before one that tells zero, until a number is out of range.

So the loops are left, with nothing written outside of an array before, exactly if a blank line comes
in time, the header lines fit into `response`, and a size line that tells zero comes in time and an
`int` counts the bytes before it (`loops_end_iff`). What the last `strcat` writes comes behind each of
the loops, and has two bytes behind the array to itself.
-/

set_option autoImplicit false
set_option relaxedAutoImplicit false

namespace SystemProgramming.ProxyLab

open Library

/-- The loop is left after so many turns. -/
def Ends {α : Type} (loop : Nat → Option α) : Prop := ∃ fuel r, loop fuel = some r

/-! ### The code -/

/-- Read lines up to a blank one, with fuel, and do this with each. -/
def lineLoop {σ : Type} (body : σ → Bytes → σ) : Nat → Rio → Bytes → σ → Option (σ × Rio)
  | 0, _, _, _ => none
  | fuel + 1, rp, buf, t =>
    if cstr buf = crlf then some (t, rp)
    else
      let next := rioReadlineb rp buf maxLine
      lineLoop body fuel next.rp next.usrbuf (body t (cstr buf))

/-- `print_requesthdrs` of `proxy.c`, with what it prints. -/
def printRequesthdrs (fuel : Nat) (rp : Rio) (buf : Bytes) : Option (Bytes × Rio) :=
  let first := rioReadlineb rp buf maxLine
  (lineLoop (· ++ ·) fuel first.rp first.usrbuf []).map fun (printed, rp) ↦
    (printed ++ ascii "\n", rp)

/-- `print_requesthdrs` of `http.c`. -/
def Http.printRequesthdrs (fuel : Nat) (rp : Rio) (buf : Bytes) : Option (Bytes × Rio) :=
  let first := rioReadlineb rp buf maxLine
  (lineLoop (· ++ ·) fuel first.rp first.usrbuf []).map fun (printed, rp) ↦
    (printed ++ ascii "\n", rp)

/-- The loop of `doit` over the header of a response, from the first line on. -/
def headerLoop (fuel : Nat) (server : List (Arrival rioBufSize)) : Except Fault Header :=
  let first := rioReadlineb (rioReadinitb server) [] maxLine
  readHeader 2 fuel first.rp first.usrbuf [] false none

/-- The loops that a request and the response to it lead through are left, without a fault. `buf` is
what the array of `print_requesthdrs` holds at first. -/
def LoopsEnd (memory : Memory) (client : Rio) (buf : Bytes) (server : List (Arrival rioBufSize)) :
    Prop :=
  Ends (printRequesthdrs · client buf) ∧ Ends (Http.printRequesthdrs · client buf) ∧
    ∃ fuel header, headerLoop fuel server = .ok header ∧
      (header.isChunked → ∃ fuel content,
        readChunked memory 2 fuel header.serverResponse = .ok content)

/-! ### Lines up to a blank one -/

section Lines

variable {σ : Type} {body : σ → Bytes → σ} {rp : Rio} {s buf : Bytes} {t : σ}

/-- A turn. -/
theorem lineLoop_succ (fuel : Nat) (rp : Rio) (t : σ) (hline : cstr buf ≠ crlf) :
    lineLoop body (fuel + 1) rp buf t =
      lineLoop body fuel (rioReadlineb rp buf maxLine).rp (lineOr buf rp.stream)
        (body t (cstr buf)) := by
  rw [lineLoop, if_neg hline]
  dsimp only
  rw [(rioReadlineb_stream rp buf).1]

/-- At the end of the stream a line that is not blank is there for ever. -/
theorem lineLoop_of_stream_nil (fuel : Nat) (hend : rp.stream = []) (hbuf : cstr buf ≠ crlf) :
    lineLoop body fuel rp buf t = none := by
  induction fuel generalizing rp t with
  | zero => rfl
  | succ fuel ih =>
    have hafter := (rioReadlineb_stream rp buf).2
    rw [hend] at hafter
    rw [lineLoop_succ fuel rp t hbuf, lineOr, if_pos hend]
    exact ih hafter

/-- With a blank line ahead the loop is left there. -/
theorem lineLoop_of_heads (body : σ → Bytes → σ) (t : σ) {lines : List Bytes} {rest : Bytes}
    (h : Heads s lines rest) (hstream : rp.stream = afterLine s) {fuel : Nat} (hfuel : lines.length < fuel) :
    ∃ rp' : Rio, rp'.stream = rest ∧
      lineLoop body fuel rp (firstLine s) t = some ((lines.map cstr).foldl body t, rp') := by
  induction h generalizing rp t fuel with
  | blank hblank =>
    obtain ⟨fuel, rfl⟩ := Nat.exists_eq_succ_of_ne_zero (Nat.ne_zero_of_lt hfuel)
    refine ⟨rp, hstream, ?_⟩
    rw [lineLoop, if_pos hblank]
    rfl
  | @line s rest lines hline hlater ih =>
    obtain ⟨fuel, rfl⟩ := Nat.exists_eq_succ_of_ne_zero (Nat.ne_zero_of_lt hfuel)
    have hmore : afterLine s ≠ [] := by
      intro hend
      rw [hend] at hlater
      exact not_heads_nil lines rest hlater
    have hafter := (rioReadlineb_stream rp (firstLine s)).2
    rw [hstream] at hafter
    rw [lineLoop_succ fuel rp t hline, hstream, lineOr, if_neg hmore]
    exact ih _ hafter (Nat.lt_of_succ_lt_succ hfuel)

/-- A loop that is left has met a blank line, and no other was before it. -/
theorem heads_of_lineLoop {fuel : Nat} {t' : σ} {rp' : Rio} (hs : s ≠ [])
    (hstream : rp.stream = afterLine s)
    (hloop : lineLoop body fuel rp (firstLine s) t = some (t', rp')) :
    ∃ lines, Heads s lines rp'.stream ∧ t' = (lines.map cstr).foldl body t := by
  induction fuel generalizing rp s t with
  | zero => exact absurd hloop (by simp [lineLoop])
  | succ fuel ih =>
    by_cases hline : cstr (firstLine s) = crlf
    · rw [lineLoop, if_pos hline] at hloop
      obtain ⟨rfl, rfl⟩ := Prod.mk.inj (Option.some.inj hloop)
      refine ⟨[], ?_, rfl⟩
      rw [hstream]
      exact .blank hline
    · by_cases hmore : afterLine s = []
      · rw [lineLoop_of_stream_nil _ (hstream.trans hmore) hline] at hloop
        exact absurd hloop (by simp)
      · have hafter := (rioReadlineb_stream rp (firstLine s)).2
        rw [hstream] at hafter
        rw [lineLoop_succ fuel rp t hline, hstream, lineOr, if_neg hmore] at hloop
        obtain ⟨lines, hheads, ht'⟩ := ih hmore hafter hloop
        exact ⟨firstLine s :: lines, .line hline hheads, ht'⟩

/-- A blank line is read, or the array held one and the stream has ended. -/
def MeetsBlank (s buf : Bytes) : Prop :=
  (s = [] ∧ cstr buf = crlf) ∨ ∃ lines rest, Heads s lines rest

/-- The loop behind a first line. -/
theorem lineLoop_ends_iff (rp : Rio) (buf : Bytes) (t : σ) :
    Ends (fun fuel ↦ lineLoop body fuel (rioReadlineb rp buf maxLine).rp
      (rioReadlineb rp buf maxLine).usrbuf t) ↔ MeetsBlank rp.stream buf := by
  obtain ⟨husrbuf, hafter⟩ := rioReadlineb_stream rp buf
  rw [husrbuf]
  by_cases hend : rp.stream = []
  · rw [lineOr, if_pos hend]
    constructor
    · rintro ⟨fuel, r, hloop⟩
      refine Or.inl ⟨hend, ?_⟩
      by_contra hbuf
      rw [hend] at hafter
      exact absurd ((lineLoop_of_stream_nil fuel hafter hbuf).symm.trans hloop) (by simp)
    · rintro (⟨-, hbuf⟩ | ⟨lines, rest, hheads⟩)
      · exact ⟨1, _, if_pos hbuf⟩
      · rw [hend] at hheads
        exact absurd hheads (not_heads_nil lines rest)
  · rw [lineOr, if_neg hend]
    constructor
    · rintro ⟨fuel, ⟨t', rp'⟩, hloop⟩
      obtain ⟨lines, hheads, -⟩ := heads_of_lineLoop hend hafter hloop
      exact Or.inr ⟨lines, rp'.stream, hheads⟩
    · rintro (⟨hnil, -⟩ | ⟨lines, rest, hheads⟩)
      · exact absurd hnil hend
      · obtain ⟨rp', -, hloop⟩ := lineLoop_of_heads body t hheads hafter
          (Nat.lt_succ_self lines.length)
        exact ⟨_, _, hloop⟩

end Lines

theorem Ends.map_iff {α β : Type} {loop : Nat → Option α} {f : α → β} :
    Ends (fun fuel ↦ (loop fuel).map f) ↔ Ends loop := by
  constructor
  · rintro ⟨fuel, r, hloop⟩
    obtain ⟨r', hr', -⟩ := Option.map_eq_some_iff.mp hloop
    exact ⟨fuel, r', hr'⟩
  · rintro ⟨fuel, r, hloop⟩
    exact ⟨fuel, f r, congrArg (Option.map f) hloop⟩

theorem printRequesthdrs_ends_iff (rp : Rio) (buf : Bytes) :
    Ends (printRequesthdrs · rp buf) ↔ MeetsBlank rp.stream buf :=
  Ends.map_iff.trans (lineLoop_ends_iff rp buf [])

theorem Http.printRequesthdrs_ends_iff (rp : Rio) (buf : Bytes) :
    Ends (Http.printRequesthdrs · rp buf) ↔ MeetsBlank rp.stream buf :=
  Ends.map_iff.trans (lineLoop_ends_iff rp buf [])

/-! ### The header of the response -/

/-- How much of `response` these lines take. -/
def taken (lines : List Bytes) : Nat := (lines.map fun l ↦ (cstr l).length).sum

section Header

variable {rp : Rio} {s buf response : Bytes} {isChunked : Bool} {contentLength : Option Int}

/-- At the end of the stream a line that is not blank keeps the loop from its end. -/
theorem readHeader_of_stream_nil (spill fuel : Nat) (hend : rp.stream = []) (hbuf : cstr buf ≠ crlf)
    (header : Header) :
    readHeader spill fuel rp buf response isChunked contentLength ≠ .ok header := by
  induction fuel generalizing rp response isChunked contentLength with
  | zero => simp [readHeader]
  | succ fuel ih =>
    by_cases hroom : response.length + (cstr buf).length < maxLine
    · have hafter := (rioReadlineb_stream rp buf).2
      rw [hend] at hafter
      rw [readHeader_succ spill fuel rp isChunked contentLength hbuf hroom, lineOr, if_pos hend]
      exact ih hafter
    · rw [readHeader_full spill fuel rp isChunked contentLength hbuf hroom]
      simp

/-- With a blank line ahead, and room for the lines before it, the loop is left there. -/
theorem readHeader_of_heads {lines : List Bytes} {rest : Bytes} (h : Heads s lines rest)
    (hstream : rp.stream = afterLine s) (isChunked : Bool) (contentLength : Option Int)
    (hroom : response.length + taken lines < maxLine) :
    ∃ fuel header, readHeader 2 fuel rp (firstLine s) response isChunked contentLength = .ok header ∧
      header.serverResponse.stream = rest ∧
      header.isChunked = (isChunked || lines.any (tellsChunked <| cstr ·)) := by
  induction h generalizing rp response isChunked contentLength with
  | blank hblank =>
    have hcrlf : crlf.length = 2 := rfl
    refine ⟨1, ⟨response ++ crlf, isChunked, contentLength, rp⟩, ?_, hstream, by simp⟩
    rw [readHeader, if_pos hblank, strcatLine_eq (by omega)]
    rfl
  | @line s rest lines hline hlater ih =>
    have hmore : afterLine s ≠ [] := by
      intro hend
      rw [hend] at hlater
      exact not_heads_nil lines rest hlater
    have hafter := (rioReadlineb_stream rp (firstLine s)).2
    rw [hstream] at hafter
    rw [taken, List.map_cons, List.sum_cons] at hroom
    have hfits : (response ++ cstr (firstLine s)).length + taken lines < maxLine := by
      rw [List.length_append, taken]
      omega
    obtain ⟨fuel, header, hloop, hrest, hchunked⟩ := ih hafter
      (isChunked || tellsChunked (cstr (firstLine s)))
      (noteLength (cstr (firstLine s)) contentLength) hfits
    refine ⟨fuel + 1, header, ?_, hrest, ?_⟩
    · rw [readHeader_succ 2 fuel rp isChunked contentLength hline (by omega), hstream, lineOr,
        if_neg hmore]
      exact hloop
    · rw [hchunked, List.any_cons, Bool.or_assoc]

/-- A loop that is left has met a blank line, and the lines before it have fitted. -/
theorem heads_of_readHeader {fuel : Nat} {header : Header} (hs : s ≠ [])
    (hstream : rp.stream = afterLine s) (hresponse : response.length < maxLine)
    (hloop : readHeader 2 fuel rp (firstLine s) response isChunked contentLength = .ok header) :
    ∃ lines, Heads s lines header.serverResponse.stream ∧
      response.length + taken lines < maxLine ∧
      header.isChunked = (isChunked || lines.any (tellsChunked <| cstr ·)) := by
  induction fuel generalizing rp s response isChunked contentLength with
  | zero => cases hloop
  | succ fuel ih =>
    by_cases hline : cstr (firstLine s) = crlf
    · have hcrlf : crlf.length = 2 := rfl
      rw [readHeader, if_pos hline, strcatLine_eq (by omega)] at hloop
      obtain rfl := Except.ok.inj hloop
      refine ⟨[], ?_, hresponse, by simp⟩
      dsimp only
      rw [hstream]
      exact .blank hline
    · by_cases hroom : response.length + (cstr (firstLine s)).length < maxLine
      · rw [readHeader_succ 2 fuel rp isChunked contentLength hline hroom, hstream, lineOr] at hloop
        have hafter := (rioReadlineb_stream rp (firstLine s)).2
        rw [hstream] at hafter
        by_cases hmore : afterLine s = []
        · rw [if_pos hmore] at hloop
          rw [hmore] at hafter
          exact absurd hloop (readHeader_of_stream_nil 2 fuel hafter hline header)
        · rw [if_neg hmore] at hloop
          obtain ⟨lines, hheads, htaken, hchunked⟩ :=
            ih hmore hafter (by rw [List.length_append]; exact hroom) hloop
          refine ⟨firstLine s :: lines, .line hline hheads, ?_, ?_⟩
          · rw [List.length_append] at htaken
            rw [taken, List.map_cons, List.sum_cons]
            rw [taken] at htaken
            omega
          · rw [hchunked, List.any_cons, Bool.or_assoc]
      · rw [readHeader_full 2 fuel rp isChunked contentLength hline hroom] at hloop
        cases hloop

end Header

/-- The loop over the header is left behind a blank line, if there is room for the lines before it. -/
theorem headerLoop_of_heads {server : List (Arrival rioBufSize)} {lines : List Bytes} {rest : Bytes}
    (h : Heads (server.flatMap Arrival.bytes) lines rest) (hroom : taken lines < maxLine) :
    ∃ fuel header, headerLoop fuel server = .ok header ∧ header.serverResponse.stream = rest ∧
      header.isChunked = lines.any (tellsChunked <| cstr ·) := by
  obtain ⟨husrbuf, hafter⟩ := rioReadlineb_stream (rioReadinitb server) []
  have hmore : (rioReadinitb server).stream ≠ [] := by
    intro hend
    have hnil : Heads [] lines rest := hend ▸ h
    exact not_heads_nil lines rest hnil
  rw [lineOr, if_neg hmore] at husrbuf
  have hfits : ([] : Bytes).length + taken lines < maxLine := by
    rw [List.length_nil]
    omega
  obtain ⟨fuel, header, hloop, hrest, hchunked⟩ := readHeader_of_heads h hafter false none hfits
  refine ⟨fuel, header, ?_, hrest, hchunked⟩
  rw [headerLoop, husrbuf]
  exact hloop

theorem heads_of_headerLoop {fuel : Nat} {server : List (Arrival rioBufSize)} {header : Header}
    (h : headerLoop fuel server = .ok header) :
    ∃ lines, Heads (server.flatMap Arrival.bytes) lines header.serverResponse.stream ∧
      taken lines < maxLine ∧ header.isChunked = lines.any (tellsChunked <| cstr ·) := by
  obtain ⟨husrbuf, hafter⟩ := rioReadlineb_stream (rioReadinitb server) []
  rw [headerLoop, husrbuf] at h
  by_cases hend : (rioReadinitb server).stream = []
  · rw [hend] at hafter h
    exact absurd h (readHeader_of_stream_nil 2 fuel hafter (by decide) header)
  · rw [lineOr, if_neg hend] at h
    obtain ⟨lines, hheads, htaken, hchunked⟩ := heads_of_readHeader hend hafter (by decide) h
    rw [List.length_nil, Nat.zero_add] at htaken
    exact ⟨lines, hheads, htaken, hchunked⟩

/-! ### The chunks -/

/-- How much is added to `contentLength` in these turns. -/
def grows : List Cutting → Nat
  | [] => 0
  | cut :: cuts => (cstr cut.line).length + cut.data.length + grows cuts

section Chunks

variable {memory : Memory} {spill : Nat} {rp : Rio} {s line text : Bytes}
  {contentBuffer : ByteMemory} {contentLength clen : Int}

/-- The size is the one that the line tells, or it has been counted on. -/
def Follows (line : Bytes) (clen : Int) : Prop :=
  match (scanNumber 16 (cstr line)).map storeHex with
  | some size => clen = size
  | none => 0 ≤ clen

theorem follows_nextSize (hsize : 0 ≤ clen + 2) (line : Bytes) :
    Follows line (nextSize line clen) := by
  unfold Follows nextSize
  cases (scanNumber 16 (cstr line)).map storeHex with
  | none => exact hsize
  | some size => rfl

/-- A line that is read again does not tell zero. -/
theorem Follows.nextSize_ne_zero (h : Follows line clen) (hne : clen ≠ 0) :
    nextSize line clen ≠ 0 := by
  unfold Follows at h
  unfold nextSize
  cases hscan : (scanNumber 16 (cstr line)).map storeHex with
  | none =>
    rw [hscan] at h
    change clen + 2 ≠ 0
    omega
  | some size =>
    rw [hscan] at h
    exact h ▸ hne

/-- A size that is not zero has been read from a line that is not empty, or is positive. -/
theorem Follows.turn_pos (h : Follows line clen) (hsize : 0 ≤ clen + 2) :
    0 < ((cstr line).length + (clen + 2) : Int) := by
  unfold Follows at h
  cases hscan : (scanNumber 16 (cstr line)).map storeHex with
  | none =>
    rw [hscan] at h
    change 0 ≤ clen at h
    omega
  | some size =>
    have hpos : cstr line ≠ [] := by
      intro hnil
      have hnumber : scanNumber 16 [] = none := by decide
      rw [hnil, hnumber] at hscan
      exact absurd hscan (by simp)
    have hlength := List.length_pos_of_ne_nil hpos
    omega

/-- What the turn leaves of the room in the block. -/
theorem room_of_turn {added line' : Bytes} {n : Int} (hroom : (text.length : Int) + 2 ≤ contentLength)
    (hadded : (added.length : Int) ≤ n) :
    ((text ++ added ++ line').length : Int) + 2 ≤ contentLength + (line'.length + n) := by
  rw [List.length_append, List.length_append]
  push_cast
  omega

/-- With a size line that tells zero ahead, and bytes that an `int` counts, the loop is left. -/
theorem readChunks_of_cuts (memory : Memory) {cuts : List Cutting} (h : Cuts s clen cuts)
    (hstream : rp.stream = s) (blocks : Nat) (line : Bytes) (htext : StringAt contentBuffer 0 text)
    (hroom : (text.length : Int) + 2 ≤ contentLength)
    (hmax : cuts ≠ [] → contentLength + grows cuts ≤ intMax) :
    ∃ fuel content, readChunks memory 2 fuel blocks rp line contentBuffer contentLength clen =
      .ok content := by
  induction h generalizing rp blocks line contentBuffer text contentLength with
  | last s =>
    have hcrlf : crlf.length = 2 := rfl
    obtain ⟨block, hstrcat, -⟩ := strcat_eq (contentLength.toNat + 2) htext IsLine.crlf.zero (by omega)
    refine ⟨1, ⟨block, contentLength⟩, ?_⟩
    rw [readChunks, if_pos rfl, hstrcat]
    rfl
  | @more s clen cuts hne hsize hmore hlater ih =>
    subst hstream
    have hgrows : turnGrows rp.stream line clen = _ := turnGrows_of_drop hmore
    have hdata := cast_length_take hsize hmore
    have htotal := hmax (List.cons_ne_nil _ _)
    rw [grows] at htotal
    push_cast at htotal
    obtain ⟨rp', block, added, hafter, hadded, -, hblock, hturn⟩ := readChunks_turn memory 2 blocks
      line hne htext hroom hsize (by rw [hgrows]; omega)
    rw [hgrows] at hturn
    rw [lineOr, if_neg hmore] at hblock hturn
    have hshort : (added.length : Int) ≤ clen + 2 := by omega
    obtain ⟨fuel, content, hok⟩ := ih hafter (blocks + 2) _ hblock (room_of_turn hroom hshort)
      fun _ ↦ by omega
    exact ⟨fuel + 1, content, (hturn fuel).trans hok⟩

/-- A loop that is left has met a size line that tells zero, and an `int` has counted the bytes. -/
theorem cuts_of_readChunks {fuel blocks : Nat} {content : Content} (hfollows : Follows line clen)
    (htext : StringAt contentBuffer 0 text) (hroom : (text.length : Int) + 2 ≤ contentLength)
    (hok : readChunks memory 2 fuel blocks rp line contentBuffer contentLength clen = .ok content) :
    ∃ cuts, Cuts rp.stream clen cuts ∧ (cuts ≠ [] → contentLength + grows cuts ≤ intMax) := by
  induction fuel generalizing rp line clen contentBuffer text contentLength blocks with
  | zero => cases hok
  | succ fuel ih =>
    by_cases hne : clen = 0
    · subst hne
      exact ⟨[], .last rp.stream, fun hnil ↦ absurd rfl hnil⟩
    by_cases hrange : 0 ≤ clen + 2 ∧ contentLength + turnGrows rp.stream line clen ≤ intMax
    swap
    · rw [readChunks_undefined 2 fuel blocks hne hrange] at hok
      cases hok
    obtain ⟨hsize, hgrown⟩ := hrange
    obtain ⟨rp', block, added, hafter, hadded, -, hblock, hturn⟩ :=
      readChunks_turn memory 2 blocks line hne htext hroom hsize hgrown
    rw [hturn] at hok
    have hshort : (added.length : Int) ≤ clen + 2 := by omega
    obtain ⟨cuts, hcuts, hmax⟩ := ih (follows_nextSize hsize _) hblock
      (room_of_turn hroom hshort) hok
    rw [hafter] at hcuts
    by_cases hmore : rp.stream.drop (clen + 2).toNat = []
    · rw [hmore, lineOr, if_pos rfl] at hcuts
      exact absurd hcuts (not_cuts_nil (hfollows.nextSize_ne_zero hne) cuts)
    · have hdata := cast_length_take hsize hmore
      rw [lineOr, if_neg hmore] at hcuts hmax
      refine ⟨_, .more hne hsize hmore hcuts, fun _ ↦ ?_⟩
      rw [turnGrows_of_drop hmore] at hgrown
      rw [grows]
      push_cast
      by_cases hlast : cuts = []
      · subst hlast
        rw [grows]
        push_cast
        omega
      · have hlater := hmax hlast
        omega

end Chunks

/-- The stream is cut into chunks up to a size line that tells zero, and an `int` counts their bytes
if there are any. -/
def ChunksEnd (s chunkbuffer : Bytes) : Prop :=
  ∃ clen cuts, (scanNumber 16 (cstr (lineOr chunkbuffer s))).map storeHex = some clen ∧
    Cuts (afterLine s) clen cuts ∧
    (cuts ≠ [] → ((cstr (lineOr chunkbuffer s)).length + 2 + grows cuts : Int) ≤ intMax)

theorem readChunked_ends_iff (memory : Memory) (rp : Rio) :
    (∃ fuel content, readChunked memory 2 fuel rp = .ok content) ↔
      ChunksEnd rp.stream memory.chunkbuffer := by
  obtain ⟨husrbuf, hafter⟩ := rioReadlineb_stream rp memory.chunkbuffer
  have htext := stringAt_putString (memory.malloc 0) 0
    (zero_not_mem_cstr (lineOr memory.chunkbuffer rp.stream))
  unfold ChunksEnd readChunked
  dsimp only
  rw [husrbuf]
  cases hscan : (scanNumber 16 (cstr (lineOr memory.chunkbuffer rp.stream))).map storeHex with
  | none => simp
  | some clen =>
    dsimp only
    constructor
    · rintro ⟨fuel, content, hok⟩
      have hfollows : Follows (lineOr memory.chunkbuffer rp.stream) clen := by
        unfold Follows
        rw [hscan]
      obtain ⟨cuts, hcuts, hmax⟩ := cuts_of_readChunks hfollows htext le_rfl hok
      rw [hafter] at hcuts
      exact ⟨clen, cuts, rfl, hcuts, hmax⟩
    · rintro ⟨clen', cuts, hclen, hcuts, hmax⟩
      obtain rfl := Option.some.inj hclen
      exact readChunks_of_cuts memory hcuts hafter 1 _ htext le_rfl hmax

/-- The loops are left exactly if a blank line ends the header of the request and that of the
response, whose lines fit into `response`, and a size line that tells zero ends the chunks, whose bytes
an `int` counts, before the streams end. -/
theorem loops_end_iff (memory : Memory) (client : Rio) (buf : Bytes)
    (server : List (Arrival rioBufSize)) :
    LoopsEnd memory client buf server ↔
      MeetsBlank client.stream buf ∧ ∃ lines rest,
        Heads (server.flatMap Arrival.bytes) lines rest ∧ taken lines < maxLine ∧
          ((∃ l ∈ lines, tellsChunked (cstr l)) → ChunksEnd rest memory.chunkbuffer) := by
  have hchunked : ∀ lines : List Bytes, lines.any (tellsChunked <| cstr ·) ↔
      ∃ l ∈ lines, tellsChunked (cstr l) := by
    intro lines
    simp
  unfold LoopsEnd
  rw [printRequesthdrs_ends_iff, Http.printRequesthdrs_ends_iff]
  constructor
  · rintro ⟨hblank, -, fuel, header, hheader, hchunks⟩
    obtain ⟨lines, hheads, htaken, hany⟩ := heads_of_headerLoop hheader
    refine ⟨hblank, lines, _, hheads, htaken, fun htells ↦ ?_⟩
    refine (readChunked_ends_iff memory header.serverResponse).mp (hchunks ?_)
    rw [hany]
    exact (hchunked lines).mpr htells
  · rintro ⟨hblank, lines, rest, hheads, htaken, hchunks⟩
    obtain ⟨fuel, header, hheader, rfl, hany⟩ := headerLoop_of_heads hheads htaken
    refine ⟨hblank, hblank, fuel, header, hheader, fun his ↦ ?_⟩
    rw [hany] at his
    exact (readChunked_ends_iff memory header.serverResponse).mpr
      (hchunks ((hchunked lines).mp his))

/-- The client closes the connection behind its first header line. -/
theorem loops_end_truncated : ¬ LoopsEnd ⟨[], fun _ _ ↦ 0⟩
    (rioReadinitb [.piece (ascii "Host: a\r\n") (by decide) (by decide)]) []
    [.piece (ascii "HTTP/1.0 200 OK\r\nContent-Length: 0\r\n\r\n") (by decide) (by decide)] := by
  rintro ⟨hends, -, -⟩
  rcases (printRequesthdrs_ends_iff _ _).mp hends with ⟨hnil, -⟩ | ⟨lines, rest, hheads⟩
  · exact absurd hnil (by decide)
  · exact not_heads_of_line (by decide) (by decide) hheads

end SystemProgramming.ProxyLab
