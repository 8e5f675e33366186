import SystemProgramming.ProxyLab.Overruns
import SystemProgramming.ProxyLab.Replay
import SystemProgramming.ProxyLab.Replies

/-!
# A request through the proxy

`doit` of `proxy.c` reads a request, looks its uri up in the cache, and on a miss writes the request
line and a line with the host to the server. The server in `http.c` takes the uri from the request
line and nothing from the other lines. So a client that asks for `http://host[:port]/path` gets from
the proxy, byte by byte, what the server would have written to it, in whatever pieces the three
connections bring their bytes and whatever is in memory (`proxy_transparent`). In a run of the threads
of the proxy this holds of the answers from the cache too (`answers_origin`).
-/

set_option autoImplicit false
set_option relaxedAutoImplicit false

namespace SystemProgramming.ProxyLab

open Library

/-! ### The source -/

/-- What `doit` does before there is a response: it writes the arrays to the client, or to the server
at the host and the port. -/
inductive Outcome
  | nothing
  | error (usrbufs : List Bytes)
  | hit (usrbufs : List Bytes)
  | miss (uri host : Bytes) (port : Int) (usrbufs : List Bytes)

/-- What the arrays hold before something is stored there: `line1` of `doit`, `buf` of
`print_requesthdrs`, and those for the URI. -/
structure RequestArrays where
  line1 : Bytes
  headerBuf : Bytes
  uri : UriArrays

/-- The loop over `open_clientfd`, of which it is known which calls succeed. -/
def connect (opens : Nat → Bool) (retry : Nat) : Bool :=
  if opens retry then true
  else if 100 < retry then false
  else connect opens (retry + 1)
  termination_by 102 - retry

/-- `doit` up to the response. -/
def doitRequest (cached : Bytes → Option Item) (opens : Nat → Bool) (fuel : Nat) (rio : Rio)
    (arrays : RequestArrays) : Except Fault Outcome :=
  let first := rioReadlineb rio arrays.line1 maxLine
  match scanWord (cstr first.usrbuf) with
  | none => .error .undefined
  | some method =>
    match printRequesthdrs fuel first.rp arrays.headerBuf with
    | none => .error .spins
    | some _ =>
      if ¬ sameCase method (ascii "GET") then
        if sameCase method (ascii "POST") then .ok .nothing
        else do
          return .error (← clienterror method (ascii "501") (ascii "Not implemented")
            (ascii "Request method is not supported by proxy server"))
      else
        match scanWord (afterWord (cstr first.usrbuf)) with
        | none => .error .undefined
        | some uri => do
          let parsed ← parseUriProxy arrays.uri uri
          if parsed.value ≠ 0 then
            return .error (← clienterror method (ascii "400") (ascii "Bad request")
              (ascii "URL parsing error"))
          else
            match cached uri with
            | some item => return .hit [item.response, item.content.take item.contentLength.toNat]
            | none =>
              if connect opens 0 then do
                let host ← stringFrom maxLine 0 parsed.host
                let reqhead ← sprintf maxLine (ascii "Host: " ++ (host ++ (ascii ":" ++
                  (intToken parsed.port ++ ascii "\r\n\r\n"))))
                return .miss uri host parsed.port [cstr first.usrbuf, reqhead]
              else return .nothing

/-! ### Requests -/

/-- A request line with the method `GET` and a uri, and then lines up to a blank one. -/
structure GetRequest where
  line : Bytes
  rest : Bytes
  method : Bytes
  uri : Bytes
  hline : IsLine line
  hmethod : scanWord line = some method
  hget : sameCase method (ascii "GET")
  huri : scanWord (afterWord line) = some uri
  hrest : ∃ lines after, Heads rest lines after

def GetRequest.bytes (r : GetRequest) : Bytes := r.line ++ r.rest

/-- The lines after the request line are read. -/
theorem printRequesthdrs_of_heads {rest after : Bytes} {lines : List Bytes}
    (hheads : Heads rest lines after) {rp : Rio} (hstream : rp.stream = rest) (buf : Bytes)
    {fuel : Nat} (hfuel : lines.length < fuel) :
    ∃ printed, printRequesthdrs fuel rp buf = some printed := by
  obtain ⟨husrbuf, hafter⟩ := rioReadlineb_stream rp buf
  have hmore : rp.stream ≠ [] := by
    intro hend
    rw [← hstream, hend] at hheads
    exact not_heads_nil lines after hheads
  rw [lineOr, if_neg hmore] at husrbuf
  obtain ⟨rp', -, hloop⟩ := lineLoop_of_heads (· ++ ·) [] (hstream ▸ hheads) hafter hfuel
  unfold printRequesthdrs
  dsimp only
  rw [husrbuf, hloop]
  exact ⟨_, rfl⟩

/-! ### Words of a line -/

theorem length_scanWord_le {s word : Bytes} (h : scanWord s = some word) :
    word.length ≤ (s.dropWhile isSpace).length := by
  rw [scanWord] at h
  obtain ⟨-, hword⟩ := Option.ite_none_left_eq_some.mp h
  rw [← Option.some.inj hword]
  exact (List.takeWhile_prefix _).length_le

/-- There is no white space in a word. -/
theorem isSpace_of_scanWord {s word : Bytes} (h : scanWord s = some word) {c : UInt8} (hc : c ∈ word) :
    isSpace c = false := by
  rw [scanWord] at h
  obtain ⟨-, hword⟩ := Option.ite_none_left_eq_some.mp h
  rw [← Option.some.inj hword] at hc
  simpa using List.mem_takeWhile_imp hc

/-- A word and what follows it are no longer than the text. -/
theorem length_afterWord_add {s word : Bytes} (h : scanWord s = some word) :
    word.length + (afterWord s).length ≤ s.length := by
  rw [scanWord] at h
  obtain ⟨-, hword⟩ := Option.ite_none_left_eq_some.mp h
  rw [afterWord, ← Option.some.inj hword, ← List.length_append, List.takeWhile_append_dropWhile]
  exact (List.dropWhile_suffix _).length_le

/-- Before the second word there is white space. -/
theorem length_dropWhile_afterWord {s word : Bytes} (h : scanWord (afterWord s) = some word) :
    ((afterWord s).dropWhile isSpace).length < (afterWord s).length := by
  have hne : afterWord s ≠ [] := by
    intro hnil
    rw [hnil] at h
    cases h
  obtain ⟨c, more, hcons⟩ := List.exists_cons_of_ne_nil hne
  have hspace : isSpace c = true := by
    have hhead := List.head?_dropWhile_not (fun c ↦ !isSpace c) (s.dropWhile isSpace)
    rw [← afterWord, hcons] at hhead
    simpa using hhead
  rw [hcons, List.dropWhile_cons_of_pos hspace, List.length_cons]
  exact Nat.lt_succ_of_le (List.dropWhile_suffix _).length_le

namespace GetRequest

variable (r : GetRequest)

theorem length_method : r.method.length = 3 := by
  have hlength := congrArg List.length r.hget
  rwa [List.length_map, List.length_map] at hlength

/-- The uri leaves room in the line. -/
theorem length_uri : r.uri.length + 4 < maxLine := by
  have hmethod := length_afterWord_add r.hmethod
  have huri := length_scanWord_le r.huri
  have hspace := length_dropWhile_afterWord r.huri
  have hthree := r.length_method
  have hline := r.hline.length
  omega

theorem zero_not_mem_uri : 0 ∉ r.uri := fun hmem ↦
  r.hline.zero ((List.dropWhile_sublist _).subset ((List.dropWhile_sublist _).subset
    (Http.mem_of_scanWord r.huri hmem)))

end GetRequest

/-! ### The server -/

namespace Http

theorem length_file_le {uri file : Bytes} (h : (scanUri uri).file = some file) :
    file.length ≤ uri.length := by
  unfold scanUri at h
  split at h
  · dsimp only at h
    split at h
    · cases h
    · split at h
      · cases h
      · next b rest hrest =>
        have hword := length_scanWord_le h
        have hsuffix := (List.dropWhile_suffix isSpace (l := rest)).length_le
        have hafter := (List.dropWhile_suffix (fun c ↦ decide (c ≠ slash)) (l := uri.drop 7)).length_le
        rw [hrest, List.length_cons, List.length_drop] at hafter
        omega
  · cases h

/-- A uri for which the array has room is stored as a path. -/
theorem exists_parseUri {uri : Bytes} (hzero : 0 ∉ uri) (hroom : uri.length + 1 < maxLine)
    (before : ByteMemory) : ∃ filename, parseUri uri before = .ok filename ∧
      stringFrom maxLine 0 filename = .ok (pathOf uri) := by
  have hdot : StringAt (putString before 0 [dot]) 0 [dot] :=
    stringAt_putString before 0 (by decide)
  obtain ⟨named, hcat, -⟩ := strcat_eq maxLine hdot hzero (by rw [List.length_singleton]; omega)
  obtain ⟨filename, hstore⟩ : ∃ filename, storeWord maxLine named (scanUri uri).file =
      .ok filename := by
    cases hfile : (scanUri uri).file with
    | none => exact ⟨named, rfl⟩
    | some file =>
      have hle := length_file_le hfile
      exact ⟨_, strcpy_eq named (by omega)⟩
  have hparse : parseUri uri before = .ok filename := by
    rw [parseUri, strcpy_eq before (show [dot].length < maxLine by decide)]
    dsimp only [bind, Except.bind]
    rw [hcat]
    exact hstore
  obtain ⟨hstring, hlength⟩ := stringAt_of_parseUri hzero hparse
  exact ⟨filename, hparse, stringFrom_eq hstring (by omega)⟩

/-- The server answers with the file for the uri, whatever the lines after the request line are. -/
theorem doit_get (r : GetRequest) {rio : Rio} (hstream : rio.stream = r.bytes)
    (stat : Bytes → Option Stat) (arrays : Arrays) :
    ∃ fuel, doit stat fuel rio arrays = .ok (answer stat (pathOf r.uri)) := by
  obtain ⟨lines, after, hheads⟩ := r.hrest
  obtain ⟨husrbuf, hafter⟩ := r.hline.read rio arrays.buf hstream
  obtain ⟨printed, hprinted⟩ :=
    printRequesthdrs_of_heads hheads hafter arrays.headerBuf (Nat.lt_succ_self lines.length)
  obtain ⟨filename, hparse, hname⟩ := exists_parseUri r.zero_not_mem_uri
    (Nat.lt_of_le_of_lt (by omega) r.length_uri) arrays.filename
  refine ⟨lines.length + 1, ?_⟩
  have hget : ¬ ¬ sameCase r.method (ascii "GET") := not_not.mpr r.hget
  have hprinted' : Http.printRequesthdrs (lines.length + 1) (rioReadlineb rio arrays.buf maxLine).rp
    arrays.headerBuf = some printed := hprinted
  unfold doit
  dsimp only
  rw [husrbuf, r.hline.cstr_eq, r.hmethod]
  dsimp only
  rw [if_neg hget, hprinted']
  dsimp only
  rw [r.huri]
  dsimp only [bind, Except.bind]
  rw [hparse]
  dsimp only
  rw [hname]
  rfl

end Http

/-! ### The proxy -/

/-- `Host: host:port`. -/
def hostLine (host : Bytes) (port : Option Nat) : Bytes :=
  ascii "Host: " ++ (host ++ (ascii ":" ++ (decimal (port.getD 80) ++ crlf)))

section Proxy

variable {r : GetRequest} {host path : Bytes} {port : Option Nat}

/-- There is room for the host in the line that is made of it. -/
theorem length_hostLine (huri : r.uri = renderUri host port path) (hne : path ≠ []) :
    (host ++ portText port).length < maxLine ∧ path.length + 1 < maxLine ∧
      (hostLine host port ++ crlf).length < maxLine := by
  have hpath := List.length_pos_of_ne_nil hne
  have hroom := r.length_uri
  have hhttp : (ascii "http://").length = 7 := rfl
  have hcrlf : crlf.length = 2 := rfl
  have hname : (ascii "Host: ").length = 6 := rfl
  have hcolon : (ascii ":").length = 1 := rfl
  have hline : maxLine = 8192 := rfl
  rw [huri, renderUri] at hroom
  simp only [List.length_append, List.length_cons] at hroom
  unfold hostLine
  simp only [List.length_append]
  cases port with
  | none =>
    have hdigits : (decimal 80).length = 2 := rfl
    rw [Option.getD_none]
    exact ⟨by omega, by omega, by omega⟩
  | some p =>
    have hdigits : (portText (some p)).length = (decimal p).length + 1 := rfl
    rw [Option.getD_some]
    exact ⟨by omega, by omega, by omega⟩

/-- What `doit` does with a request for `http://host[:port]/path`. -/
theorem doitRequest_get (huri : r.uri = renderUri host port path) (hhost : IsHost host)
    (hport : ∀ p ∈ port, p < 65536) (hpath : IsPath path) (hne : path ≠ []) {rio : Rio}
    (hstream : rio.stream = r.bytes) (cached : Bytes → Option Item) (opens : Nat → Bool)
    (arrays : RequestArrays) :
    ∃ fuel, doitRequest cached opens fuel rio arrays = .ok (match cached r.uri with
      | some item => .hit [item.response, item.content.take item.contentLength.toNat]
      | none =>
        if connect opens 0 then .miss r.uri host (port.getD 80) [r.line, hostLine host port ++ crlf]
        else .nothing) := by
  obtain ⟨lines, after, hheads⟩ := r.hrest
  obtain ⟨husrbuf, hafter⟩ := r.hline.read rio arrays.line1 hstream
  obtain ⟨printed, hprinted⟩ :=
    printRequesthdrs_of_heads hheads hafter arrays.headerBuf (Nat.lt_succ_self lines.length)
  obtain ⟨hroom, hfile, hreqhead⟩ := length_hostLine huri hne
  have hzero : 0 ∉ path := fun hmem ↦ (hpath 0 hmem).2 rfl
  have hstore : storeWord maxLine arrays.uri.tFile (if path = [] then none else some path) =
      .ok (putString arrays.uri.tFile 0 path) := by
    rw [if_neg hne]
    exact strcpy_eq _ (by omega)
  obtain ⟨parsed, hparse, hvalue, hname, hnumber, -⟩ := parseUriProxy_eq hhost hport hpath hroom
    arrays.uri hstore (stringAt_putString _ 0 hzero) hzero hfile
  have hhostRoom : 0 + host.length < maxLine := by
    rw [List.length_append] at hroom
    omega
  refine ⟨lines.length + 1, ?_⟩
  unfold doitRequest
  dsimp only
  rw [husrbuf, r.hline.cstr_eq, r.hmethod]
  dsimp only
  rw [hprinted]
  dsimp only
  rw [if_neg (not_not.mpr r.hget), r.huri]
  dsimp only [bind, Except.bind]
  rw [huri, hparse]
  dsimp only
  rw [if_neg (not_not.mpr hvalue)]
  cases cached (renderUri host port path) with
  | some item => rfl
  | none =>
    dsimp only
    by_cases hopens : connect opens 0 = true
    · have htext : ascii "Host: " ++ (host ++ (ascii ":" ++ (intToken parsed.port ++
          ascii "\r\n\r\n"))) = hostLine host port ++ crlf := by
        rw [hnumber, intToken_natCast, hostLine]
        simp only [List.append_assoc]
        rfl
      rw [if_pos hopens, if_pos hopens, stringFrom_eq hname hhostRoom]
      dsimp only
      rw [htext, sprintf_eq hreqhead, hnumber]
      rfl
    · rw [if_neg hopens, if_neg hopens]
      rfl

/-- What is written to the server is a request for the same uri. -/
theorem exists_forwarded (huri : r.uri = renderUri host port path) (hhost : IsHost host)
    (hne : path ≠ []) : ∃ r' : GetRequest, r'.uri = r.uri ∧
      [r.line, hostLine host port ++ crlf].flatten = r'.bytes := by
  obtain ⟨-, -, hlength⟩ := length_hostLine huri hne
  have htext : hostLine host port = (ascii "Host: " ++ (host ++ (ascii ":" ++
      decimal (port.getD 80)))) ++ crlf := by
    simp only [hostLine, List.append_assoc]
  have hhostMem : ∀ c ∈ host, c ∈ r.uri := by
    intro c hc
    rw [huri, renderUri]
    exact List.mem_append_right _ (List.mem_append_left _ (List.mem_append_left _ hc))
  have hnewline : newline ∉ ascii "Host: " ++ (host ++ (ascii ":" ++ decimal (port.getD 80))) := by
    simp only [List.mem_append, not_or]
    refine ⟨by decide, fun hmem ↦ ?_, by decide, fun hmem ↦ (decimal_ne _ hmem).2 rfl⟩
    exact absurd (isSpace_of_scanWord r.huri (hhostMem _ hmem)) (by decide)
  have hnul : 0 ∉ ascii "Host: " ++ (host ++ (ascii ":" ++ decimal (port.getD 80))) := by
    simp only [List.mem_append, not_or]
    exact ⟨by decide, hhost.zero_notMem, by decide, fun hmem ↦ (decimal_ne _ hmem).1 rfl⟩
  have hshort : (hostLine host port).length < maxLine := by
    rw [List.length_append] at hlength
    omega
  have hline : IsLine (hostLine host port) := by
    rw [htext] at hshort ⊢
    exact IsLine.crlf_end hnul hnewline hshort
  have hhead : (hostLine host port).head? = some 72 := rfl
  obtain ⟨hfirst, hafter⟩ := hline.firstLine_eq crlf
  have hheads : Heads (hostLine host port ++ crlf) [hostLine host port] [] := by
    have hnotBlank : cstr (firstLine (hostLine host port ++ crlf)) ≠ crlf := by
      rw [hfirst, hline.cstr_eq]
      intro heq
      rw [heq] at hhead
      exact absurd hhead (by decide)
    have hblank : Heads (afterLine (hostLine host port ++ crlf)) [] [] := by
      rw [hafter]
      exact Heads.blank (s := crlf) (by decide)
    have hall := Heads.line hnotBlank hblank
    rwa [hfirst] at hall
  refine ⟨⟨r.line, hostLine host port ++ crlf, r.method, r.uri, r.hline, r.hmethod, r.hget, r.huri,
    _, _, hheads⟩, rfl, ?_⟩
  rw [GetRequest.bytes, List.flatten_cons, List.flatten_cons, List.flatten_nil, List.append_nil]

end Proxy

/-! ### The way back -/

/-- What `doit` makes of a response whose header tells the length of its body. -/
theorem doitItem_sized {r : Response} {content : Bytes} (hbody : r.body = .sized content)
    (hmax : (content.length : Int) ≤ intMax) {server : List (Arrival rioBufSize)}
    (hserver : server.flatMap Arrival.bytes = r.bytes) (memory : Memory) (fuel : Nat) (uri : Bytes) :
    (fuel ≤ r.lines.length ∧ doitItem memory 2 fuel server uri = .error .spins) ∨
    (r.lines.length < fuel ∧ doitItem memory 2 fuel server uri =
      .ok ⟨uri, r.lines.flatMap HeaderLine.bytes ++ crlf, content, content.length⟩) := by
  have hlines := r.hlines
  have hannounced := r.hbody
  obtain ⟨husrbuf, hstream⟩ := read_currentLine (rioReadinitb server) [] hlines hserver
  rw [hbody] at hannounced hstream
  rcases readHeader_eq 2 fuel _ [] false none hstream (by simpa using hlines)
    (by simpa using hlines) with
    ⟨hfuel, hspins⟩ | ⟨hfuel, rp, hrest, hok⟩
  · refine Or.inl ⟨hfuel, ?_⟩
    rw [doitItem, husrbuf, hspins]
    rfl
  · refine Or.inr ⟨hfuel, ?_⟩
    have hbytes := bytesAt_putBytes (memory.malloc 0) 0 content
    have hread := readSized_eq memory (show rp.stream = content from hrest) hmax
    rw [doitItem, husrbuf, hok]
    simp only [bind, Except.bind, readContent_announced hannounced, readForm, hread,
      Int.toNat_natCast, hbytes, List.nil_append]
    rfl

/-- It writes the response. -/
theorem sent_eq_bytes {r : Response} {content : Bytes} (hbody : r.body = .sized content)
    (uri : Bytes) : Item.sent ⟨uri, r.lines.flatMap HeaderLine.bytes ++ crlf, content,
      content.length⟩ = r.bytes := by
  rw [Item.sent, Response.bytes, hbody, Body.bytes, Int.toNat_natCast, List.take_length,
    List.append_assoc]

namespace Http

/-- What is served is no longer than an `int` can tell. -/
theorem length_content_le {fs : Bytes → Option Node} {reply : Reply} (h : reply.Servable fs) :
    ((reply.content fs).length : Int) ≤ intMax := by
  have hbuf : (maxBuf : Int) ≤ intMax := by decide
  cases reply with
  | notImplemented method =>
    have hfits : (Reply.content fs (.notImplemented method)).length < maxBuf := h
    omega
  | notFound filename =>
    have hfits : (Reply.content fs (.notFound filename)).length < maxBuf := h
    omega
  | forbidden filename =>
    have hfits : (Reply.content fs (.forbidden filename)).length < maxBuf := h
    omega
  | serveStatic filename filesize =>
    obtain ⟨⟨content, hfile⟩, hpos⟩ := h
    obtain ⟨-, hhigh, -⟩ := intSize_range filesize
    unfold intMax
    rw [content_serveStatic hfile, List.length_take]
    omega

/-- The answer of `doit` for a uri. -/
def answerFor (fs : Bytes → Option Node) (uri : Bytes) : Reply :=
  answer (fun filename ↦ (fs filename).map Node.stat) (pathOf uri)

/-- The server writes these bytes, a complete answer, when it is asked for the uri. -/
def Origin (fs : Bytes → Option Node) (uri bytes : Bytes) : Prop :=
  ∃ written, serve fs (answerFor fs uri) = .ok (.sent written) ∧ written.flatten = bytes

theorem handle_get (r : GetRequest) {rio : Rio} (hstream : rio.stream = r.bytes)
    (fs : Bytes → Option Node) (arrays : Arrays) :
    ∃ fuel, handle fs fuel rio arrays = serve fs (answerFor fs r.uri) := by
  obtain ⟨fuel, hdoit⟩ := doit_get r hstream (fun filename ↦ (fs filename).map Node.stat) arrays
  refine ⟨fuel, ?_⟩
  rw [handle, hdoit]
  rfl

/-- What is written is a response with the length in its header. -/
theorem Origin.exists_response {fs : Bytes → Option Node} {uri bytes : Bytes}
    (h : Origin fs uri bytes) : ∃ r : Response, ∃ content, bytes = r.bytes ∧
      r.body = .sized content ∧ (content.length : Int) ≤ intMax := by
  obtain ⟨written, hserve, rfl⟩ := h
  have hknown := known_answer fs (pathOf uri)
  have hservable := (serve_iff hknown).mp ⟨written, hserve⟩
  obtain ⟨written', r, hserve', hbytes, -, hbody⟩ := (serve_spec hknown).1 hservable
  have hwritten : written' = written := by
    have hsame := hserve'.symm.trans hserve
    injection hsame with hsame
    injection hsame
  exact ⟨r, _, hwritten ▸ hbytes, hbody, length_content_le hservable⟩

end Http

/-- A client that asks for `http://host[:port]/path`, which is not in the cache, through the proxy,
which reaches a server that has a complete answer: the server writes on what the proxy has sent to it
just what it would write on the request of the client, and this, complete and in the same order, is
what the proxy writes to the client. It makes no difference in which pieces the bytes arrive on the
three connections, and what is in memory. -/
theorem proxy_transparent {r : GetRequest} {host path : Bytes} {port : Option Nat}
    {fs : Bytes → Option Http.Node} {cached : Bytes → Option Item} {opens : Nat → Bool}
    (huri : r.uri = renderUri host port path) (hhost : IsHost host) (hport : ∀ p ∈ port, p < 65536)
    (hpath : IsPath path) (hne : path ≠ []) (hcached : cached r.uri = none)
    (hopens : connect opens 0 = true) (hservable : (Http.answerFor fs r.uri).Servable fs) :
    ∃ usrbufs written : List Bytes,
      (∀ (client : Rio) arrays, client.stream = r.bytes → ∃ fuel,
        doitRequest cached opens fuel client arrays =
          .ok (.miss r.uri host (port.getD 80) usrbufs)) ∧
      (∀ (rio : Rio) arrays, rio.stream = usrbufs.flatten ∨ rio.stream = r.bytes → ∃ fuel,
        Http.handle fs fuel rio arrays = .ok (.sent written)) ∧
      ∀ memory server, server.flatMap Arrival.bytes = written.flatten →
        Writes memory server written.flatten := by
  obtain ⟨r', huri', hbytes'⟩ := exists_forwarded huri hhost hne
  obtain ⟨hserves, -⟩ := Http.serve_spec (Http.known_answer fs (Http.pathOf r.uri))
  obtain ⟨written, response, hserve, hresponse, -, hbody⟩ := hserves hservable
  have hmax := Http.length_content_le hservable
  refine ⟨[r.line, hostLine host port ++ crlf], written, ?_, ?_, ?_⟩
  · intro client arrays hclient
    obtain ⟨fuel, hdoit⟩ :=
      doitRequest_get huri hhost hport hpath hne hclient cached opens arrays
    rw [hcached] at hdoit
    dsimp only at hdoit
    rw [if_pos hopens] at hdoit
    exact ⟨fuel, hdoit⟩
  · intro rio arrays hrio
    obtain ⟨r'', huri'', hstream⟩ : ∃ r'' : GetRequest, r''.uri = r.uri ∧ rio.stream = r''.bytes := by
      rcases hrio with hrio | hrio
      · exact ⟨r', huri', hrio.trans hbytes'⟩
      · exact ⟨r, rfl, hrio⟩
    obtain ⟨fuel, hhandle⟩ := Http.handle_get r'' hstream fs arrays
    rw [huri''] at hhandle
    exact ⟨fuel, hhandle.trans hserve⟩
  · intro memory server hserver
    rw [hresponse] at hserver ⊢
    have hsized : response.body.bytes = (Http.answerFor fs r.uri).content fs := by
      rw [hbody]
      rfl
    refine Response.writes hserver ?_ ?_ (hsized ▸ hmax)
    · rw [hbody]
      trivial
    · rw [hbody]
      trivial

/-- A request for `http://h/a.html`. -/
def pageRequest : GetRequest where
  line := ascii "GET http://h/a.html HTTP/1.0" ++ crlf
  rest := crlf
  method := ascii "GET"
  uri := ascii "http://h/a.html"
  hline := IsLine.crlf_end (by decide) (by decide) (by decide)
  hmethod := rfl
  hget := rfl
  huri := rfl
  hrest := ⟨[], _, Heads.blank (by decide)⟩

/-- One file, with two bytes. -/
def onePage (filename : Bytes) : Option Http.Node :=
  if filename = ascii "a.html" then some (.file [104, 105] true) else none

theorem onePage_servable : (Http.answerFor onePage pageRequest.uri).Servable onePage :=
  ⟨⟨[104, 105], rfl⟩, by decide⟩

theorem proxy_transparent_page : ∃ usrbufs written : List Bytes,
    (∀ (client : Rio) arrays, client.stream = pageRequest.bytes → ∃ fuel,
      doitRequest (fun _ ↦ none) (fun _ ↦ true) fuel client arrays =
        .ok (.miss pageRequest.uri (ascii "h") 80 usrbufs)) ∧
    (∀ (rio : Rio) arrays, rio.stream = usrbufs.flatten ∨ rio.stream = pageRequest.bytes → ∃ fuel,
      Http.handle onePage fuel rio arrays = .ok (.sent written)) ∧
    ∀ memory server, server.flatMap Arrival.bytes = written.flatten →
      Writes memory server written.flatten := by
  have hopens : connect (fun _ ↦ true) 0 = true := by
    rw [connect]
    rfl
  have hhost : IsHost (ascii "h") := ⟨by decide, by decide, by decide, by decide⟩
  have hpath : IsPath (ascii "a.html") := by decide
  have hport : ∀ p ∈ (none : Option Nat), p < 65536 := fun p hp ↦ by cases hp
  have hcached : (fun _ ↦ none : Bytes → Option Item) pageRequest.uri = none := rfl
  exact proxy_transparent rfl hhost hport hpath (by decide) hcached hopens onePage_servable

/-! ### Runs of the proxy -/

section Runs

variable {n : Nat} {events : List (ProxyEvent n)} {s : Proxy n}

/-- What is answered from the cache has been forwarded. -/
theorem Proxy.Reached.replayed (h : Proxy.Reached events s) {t : Fin n} {uri bytes : Bytes}
    (hmem : .replay t uri bytes ∈ events) :
    ∃ item, Forwarded events item ∧ item.uri = uri ∧ item.sent = bytes := by
  induction h with
  | start hinit => cases hmem
  | @step events s s' event hrun hstep ih =>
    rcases List.mem_append.mp hmem with hmem | hmem
    · obtain ⟨item, hforwarded, huri, hsent⟩ := ih hmem
      exact ⟨item, hforwarded.snoc, huri, hsent⟩
    · obtain rfl := List.mem_singleton.mp hmem
      have hstores := Proxy.Reached.stores hrun
      cases hstep with
      | @replay _ _ written block b hdoit hblock =>
        have hsound := hstores.doits t
        rw [hdoit] at hsound
        obtain ⟨item, hitem, huri, rfl⟩ := hsound
        refine ⟨item, (hstores.blocks block item hitem).1.snoc, huri, ?_⟩
        rw [hblock] at hitem
        obtain rfl := Option.some.inj hitem
        rfl

/-- The item is what `doit` makes of what the server writes for the uri. -/
def FromOrigin (fs : Bytes → Option Http.Node) (item : Item) : Prop :=
  ∃ memory fuel server, Http.Origin fs item.uri (server.flatMap Arrival.bytes) ∧
    doitItem memory 2 fuel server item.uri = .ok item

theorem FromOrigin.origin {fs : Bytes → Option Http.Node} {item : Item} (h : FromOrigin fs item) :
    Http.Origin fs item.uri item.sent := by
  obtain ⟨memory, fuel, server, horigin, hitem⟩ := h
  obtain ⟨r, content, hserver, hbody, hmax⟩ := horigin.exists_response
  rcases doitItem_sized hbody hmax hserver memory fuel item.uri with ⟨-, hspins⟩ | ⟨-, hok⟩
  · rw [hspins] at hitem
    cases hitem
  · have hsent : item.sent = r.bytes := by
      rw [← Except.ok.inj (hok.symm.trans hitem)]
      exact sent_eq_bytes hbody item.uri
    rwa [hsent, ← hserver]

/-- In every run of the threads, whatever is interleaved: if what is forwarded has come from the
server as a complete answer, then each client gets for its uri the complete answer that the server
writes for it, and so does one whose answer comes from the cache, and that without a connection to the
server. -/
theorem answers_origin {fs : Bytes → Option Http.Node} (h : Proxy.Reached events s)
    (hforwarded : ∀ item, Forwarded events item → FromOrigin fs item) :
    (∀ t item, .forward t item ∈ events → Http.Origin fs item.uri item.sent) ∧
      ∀ t uri bytes, .replay t uri bytes ∈ events → Http.Origin fs uri bytes := by
  refine ⟨fun t item hmem ↦ (hforwarded item ⟨t, hmem⟩).origin, fun t uri bytes hmem ↦ ?_⟩
  obtain ⟨item, hitem, rfl, rfl⟩ := h.replayed hmem
  exact (hforwarded item hitem).origin

end Runs

/-- What the server writes for the page. -/
def pageResponse : Response :=
  sizedResponse [Http.okLine, Http.serverLine]
    [⟨ascii "Content-Type: text/html", by decide, by decide, by decide⟩] [104, 105] (by decide)
    (by decide)

def pageItem : Item :=
  ⟨pageRequest.uri, pageResponse.lines.flatMap HeaderLine.bytes ++ crlf, [104, 105], 2⟩

theorem fromOrigin_pageItem : FromOrigin onePage pageItem := by
  have hserve : Http.serve onePage (Http.answerFor onePage pageRequest.uri) =
      .ok (.sent [pageItem.response, [104, 105]]) := by
    have hsize : Http.intSize 2 = 2 := by decide
    change Http.serveStatic onePage (ascii "a.html") (Http.intSize 2) = _
    rw [hsize]
    rfl
  have hserver : List.flatMap Arrival.bytes
      [(.piece pageResponse.bytes (by decide) (by decide) : Arrival rioBufSize)] =
      pageResponse.bytes := rfl
  refine ⟨⟨[], fun _ _ ↦ 0⟩, 5, [.piece pageResponse.bytes (by decide) (by decide)],
    ⟨_, hserve, rfl⟩, ?_⟩
  rcases doitItem_sized rfl (by decide) hserver ⟨[], fun _ _ ↦ 0⟩ 5 pageRequest.uri with
    ⟨hless, -⟩ | ⟨-, hok⟩
  · exact absurd hless (by decide)
  · exact hok

/-- The page is forwarded, and then answered from the cache. -/
theorem answers_origin_page : ∃ (events : List (ProxyEvent 1)) (s : Proxy 1),
    Proxy.Reached events s ∧ .replay 0 pageRequest.uri pageItem.sent ∈ events ∧
      Http.Origin onePage pageRequest.uri pageItem.sent := by
  have hmiss : Steps Proxy.Step (Proxy.start 1) _ _ := .cons (e := .request 0 pageItem.uri)
    (.request rfl (.call 0 _ rfl)) <|
      Proxy.steps_inside 0 (.post 0)
        (Cache.find_miss (t := 0) (c := .find pageItem.uri) rfl ⟨1, rfl⟩) (by decide) rfl
  have hadd := hmiss.append <| .cons (e := .forward 0 pageItem) (.forward rfl) <|
    .cons (.add (t := 0) rfl (.call 0 _ rfl)) <|
      Proxy.steps_inside 0 (.post 0)
        ((Cache.find_miss (t := 0) (c := .add pageItem) rfl ⟨1, rfl⟩).append <|
          Cache.insert 0 pageItem 1 .empty rfl (by decide) (by decide) rfl) (by decide) rfl
  have hfind := hadd.append <| .cons (e := .request 0 pageItem.uri)
    (.request rfl (.call 0 _ rfl)) <|
      Proxy.steps_inside 0 (.probe 0 pageItem.uri 1)
        (Cache.find_hit (t := 0) (c := .find pageItem.uri) rfl (by decide) ⟨1, rfl⟩) (by decide) rfl
  have hrespond := hfind.append <|
    .cons (.respond (t := 0) (b := ⟨pageItem.uri, pageItem.response, pageItem.content, 2, 0, 0⟩) rfl
      rfl) .nil
  have hreplay := hrespond.append <|
    .cons (.replay (t := 0) (b := ⟨pageItem.uri, pageItem.response, pageItem.content, 2, 0, 0⟩) rfl
      rfl) .nil
  have hrun : Proxy.Reached _ _ := hreplay.run rfl
  refine ⟨_, _, hrun, List.mem_append_right _ List.mem_cons_self,
    (answers_origin hrun ?_).2 0 _ _ (List.mem_append_right _ List.mem_cons_self)⟩
  rintro item ⟨t, hforward⟩
  simp only [List.mem_append, List.mem_cons, List.mem_map, List.not_mem_nil, reduceCtorEq, and_false,
    exists_false, or_false, false_or, ProxyEvent.forward.injEq] at hforward
  rw [hforward.2]
  exact fromOrigin_pageItem

end SystemProgramming.ProxyLab
