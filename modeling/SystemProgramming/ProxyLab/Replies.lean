import SystemProgramming.Library.FormattedInput
import SystemProgramming.ProxyLab.Forwarding
import SystemProgramming.ProxyLab.StaticServer

/-!
# The replies of the server in `http.c`

`clienterror` writes a page that names the cause of an error, and `serve_static` a file. Both write a
header that tells the length of what follows, so what is written is a complete response
(`Http.serve_spec`). It is not written when the page does not fit into `body`, which has `MAXBUF`
bytes. And for an empty file, one that cannot be opened, or one whose size is not positive as an
`int`, the server as a whole ends in `unix_error` with nothing but the header written.

The arrays into which `sprintf` prints are its own arguments too. C does not define this; here, as
with the usual libraries, the text stays as it is and the rest goes behind it.
-/

set_option autoImplicit false
set_option relaxedAutoImplicit false

namespace SystemProgramming.ProxyLab

open Library

/-! ### The source -/

/-- `MAXBUF`. -/
def maxBuf : Nat := 8192

/-- `sprintf` to an array with `room` bytes. -/
def sprintf (room : Nat) (text : Bytes) : Except Fault Bytes := do
  ensure (text.length < room)
  return text

/-- `clienterror`, which is the same in the proxy and in the server, with the arrays that it gives to
`Rio_writen`. -/
def clienterror (cause errnum shortmsg longmsg : Bytes) : Except Fault (List Bytes) := do
  let body ← sprintf maxBuf (ascii "<html><title>Mini Error</title>")
  let body ← sprintf maxBuf (body ++ ascii "<body bgcolor=ffffff>\r\n")
  let body ← sprintf maxBuf (body ++ (ascii "<b>" ++ (errnum ++ (ascii ": " ++ (shortmsg ++
    ascii "</b>\r\n")))))
  let body ← sprintf maxBuf (body ++ (ascii "<p>" ++ (longmsg ++ (ascii ": " ++ (cause ++ crlf)))))
  let body ← sprintf maxBuf (body ++ ascii "<hr><em>Mini Web server</em>\r\n")
  let status ← sprintf maxLine (ascii "HTTP/1.0 " ++ (errnum ++ (ascii " " ++ (shortmsg ++ crlf))))
  let type ← sprintf maxLine (ascii "Content-type: text/html\r\n")
  let length ← sprintf maxLine (ascii "Content-Length: " ++ (intToken body.length ++
    ascii "\r\n\r\n"))
  return [status, type, length, body]

namespace Http

/-- What a file system has under a name. -/
inductive Node
  | directory
  | file (content : Bytes) (readable : Bool)

/-- What `stat` tells of it. -/
def Node.stat : Node → Stat
  | directory => ⟨true, 0⟩
  | file content _ => ⟨false, content.length⟩

/-- The arrays that have been given to `Rio_writen`. The program may end in `unix_error` after
that. -/
inductive Served
  | sent (usrbufs : List Bytes)
  | exits (usrbufs : List Bytes) (msg : String)

/-- `get_filetype`. -/
def getFiletype (filename : Bytes) : Bytes :=
  if ascii ".html" <:+: filename then ascii "text/html"
  else if ascii ".gif" <:+: filename then ascii "image/gif"
  else if ascii ".png" <:+: filename then ascii "image/png"
  else if ascii ".jpg" <:+: filename then ascii "image/jpg"
  else ascii "text/plain"

/-- `serve_static`. There is no mapping of no bytes, nor of as many as a negative number stands
for. -/
def serveStatic (fs : Bytes → Option Node) (filename : Bytes) (filesize : Int) :
    Except Fault Served := do
  let filetype := getFiletype filename
  let rbuf ← sprintf maxBuf (ascii "HTTP/1.0 200 OK\r\n")
  let rbuf ← sprintf maxBuf (rbuf ++ ascii "Server: Mini Web server\r\n")
  let rbuf ← sprintf maxBuf (rbuf ++ (ascii "Content-Length: " ++ (intToken filesize ++ crlf)))
  let rbuf ← sprintf maxBuf (rbuf ++ (ascii "Content-Type: " ++ (filetype ++ ascii "\r\n\r\n")))
  match fs filename with
  | some (.file content true) =>
    if filesize ≤ 0 then return .exits [rbuf] "mmap error"
    else return .sent [rbuf, content.take filesize.toNat]
  | some .directory => return .exits [rbuf] "mmap error"
  | _ => return .exits [rbuf] "Open error"

/-- A size as the parameter of `serve_static`, which is an `int`. -/
def intSize (filesize : Nat) : Int := (filesize : Int).bmod (2 ^ 32)

/-- The end of `doit`, once it is known what is answered. -/
def serve (fs : Bytes → Option Node) : Reply → Except Fault Served
  | .notImplemented method => do
    return .sent (← clienterror method (ascii "501") (ascii "Not implemented")
      (ascii "Request method is not supported"))
  | .notFound filename => do
    return .sent (← clienterror filename (ascii "404") (ascii "Not found")
      (ascii "Cannot find this file"))
  | .forbidden filename => do
    return .sent (← clienterror filename (ascii "403") (ascii "Forbidden")
      (ascii "Request for directory. Permission Denied"))
  | .serveStatic filename filesize => serveStatic fs filename (intSize filesize)

/-- `doit` as a whole. -/
def handle (fs : Bytes → Option Node) (fuel : Nat) (rio : Rio) (arrays : Arrays) :
    Except Fault Served := do
  serve fs (← doit (fun filename ↦ (fs filename).map Node.stat) fuel rio arrays)

end Http

/-! ### Pages -/

/-- What `clienterror` has in `body` at the end. -/
def errorPage (cause errnum shortmsg longmsg : Bytes) : Bytes :=
  ascii "<html><title>Mini Error</title>" ++ ascii "<body bgcolor=ffffff>\r\n" ++
    (ascii "<b>" ++ (errnum ++ (ascii ": " ++ (shortmsg ++ ascii "</b>\r\n")))) ++
    (ascii "<p>" ++ (longmsg ++ (ascii ": " ++ (cause ++ crlf)))) ++
    ascii "<hr><em>Mini Web server</em>\r\n"

theorem sprintf_eq {room : Nat} {text : Bytes} (h : text.length < room) :
    sprintf room text = .ok text := by
  rw [sprintf, ensure_eq_ok h]
  rfl

theorem sprintf_eq_error {room : Nat} {text : Bytes} (h : ¬ text.length < room) :
    sprintf room text = .error .undefined := by
  rw [sprintf, ensure_eq_error h]
  rfl

/-- To print a text and then another behind it is to print both. -/
theorem sprintf_append {α : Type} (room : Nat) (text more : Bytes) (k : Bytes → Except Fault α) :
    (sprintf room text >>= fun text ↦ sprintf room (text ++ more) >>= k) =
      sprintf room (text ++ more) >>= k := by
  by_cases htext : text.length < room
  · rw [sprintf_eq htext]
    rfl
  · have hmore : ¬ (text ++ more).length < room := by
      rw [List.length_append]
      omega
    rw [sprintf_eq_error htext, sprintf_eq_error hmore]
    rfl

/-! ### Header lines -/

/-- The line tells nothing about the body. -/
def HeaderLine.Plain (l : HeaderLine) : Prop :=
  ¬ startsWith contentLengthName l.bytes ∧ ¬ startsWith transferEncoding l.bytes

instance (l : HeaderLine) : Decidable l.Plain := inferInstanceAs (Decidable (_ ∧ _))

theorem decimal_ne (n : Nat) {c : UInt8} (hc : c ∈ decimal n) : c ≠ 0 ∧ c ≠ newline := by
  have hrange := isDigit_ten (isDigit_decimal n c hc)
  rw [UInt8.le_iff_toNat_le, UInt8.le_iff_toNat_le] at hrange
  constructor
  · rintro rfl
    exact absurd hrange.1 (by decide)
  · rintro rfl
    exact absurd hrange.1 (by decide)

/-- `Content-Length: n`. -/
def lengthLine (n : Nat) : HeaderLine where
  text := ascii "Content-Length: " ++ decimal n
  hnonempty := List.append_ne_nil_of_left_ne_nil (by decide) _
  hnul := by
    rw [List.mem_append, not_or]
    exact ⟨by decide, fun h ↦ (decimal_ne n h).1 rfl⟩
  hnewline := by
    rw [List.mem_append, not_or]
    exact ⟨by decide, fun h ↦ (decimal_ne n h).2 rfl⟩

theorem lengthLine_tells (n : Nat) : (lengthLine n).TellsLength n :=
  ⟨contentLengthName, [32], decimal n, [], by rw [List.append_nil]; rfl, rfl,
    List.forall_mem_singleton.mpr (Or.inl rfl), decimal_ne_nil n, isDigit_decimal n,
    numeral_decimal n, fun c hc ↦ by cases hc⟩

theorem not_tellsChunked_lengthLine (n : Nat) : ¬ tellsChunked (lengthLine n).bytes := by
  intro h
  have hfirst := h.1.head
  have hhead : (lengthLine n).bytes.head? = some 67 := rfl
  rw [hhead] at hfirst
  exact absurd hfirst (by decide)

theorem intToken_natCast (n : Nat) : intToken n = decimal n :=
  if_neg (Int.natCast_nonneg n).not_gt

theorem length_decimal_le {n k : Nat} (hk : 0 < k) (hn : n < 10 ^ k) : (decimal n).length ≤ k := by
  rw [decimal, List.length_map]
  exact (Nat.length_toDigits_le_iff (by decide) hk).mpr hn

/-! ### Complete responses -/

/-- A response whose header tells the length of its body in one line, and nothing of it in the
others. -/
def sizedResponse (front back : List HeaderLine) (content : Bytes)
    (hplain : ∀ l ∈ front ++ back, l.Plain)
    (hlines : ((front ++ lengthLine content.length :: back).flatMap HeaderLine.bytes).length < maxLine) :
    Response where
  lines := front ++ lengthLine content.length :: back
  body := .sized content
  hlines := hlines
  hbody := by
    have hmem : ∀ l ∈ front ++ lengthLine content.length :: back,
        l = lengthLine content.length ∨ l.Plain := by
      intro l hl
      rcases List.mem_append.mp hl with hfront | hback
      · exact Or.inr (hplain l (List.mem_append_left _ hfront))
      · rcases List.mem_cons.mp hback with rfl | hback
        · exact Or.inl rfl
        · exact Or.inr (hplain l (List.mem_append_right _ hback))
    refine ⟨⟨_, List.mem_append_right _ List.mem_cons_self, lengthLine_tells _⟩, ?_, ?_⟩
    · intro l hl hstarts
      rcases hmem l hl with rfl | hl
      · exact lengthLine_tells _
      · exact absurd hstarts hl.1
    · intro l hl htells
      rcases hmem l hl with rfl | hl
      · exact absurd htells (not_tellsChunked_lengthLine _)
      · exact hl.2 htells.1

/-- The first line of a page of `clienterror`, and the second. -/
def statusLine (errnum shortmsg : Bytes) (hnul : 0 ∉ errnum ++ (ascii " " ++ shortmsg))
    (hnewline : newline ∉ errnum ++ (ascii " " ++ shortmsg)) : HeaderLine where
  text := ascii "HTTP/1.0 " ++ (errnum ++ (ascii " " ++ shortmsg))
  hnonempty := List.append_ne_nil_of_left_ne_nil (by decide) _
  hnul := by
    rw [List.mem_append, not_or]
    exact ⟨by decide, hnul⟩
  hnewline := by
    rw [List.mem_append, not_or]
    exact ⟨by decide, hnewline⟩

def htmlLine : HeaderLine :=
  ⟨ascii "Content-type: text/html", by decide, by decide, by decide⟩

theorem length_lengthLine_le {n : Nat} (hn : n < 10 ^ 10) : (lengthLine n).bytes.length ≤ 28 := by
  have hdigits := length_decimal_le (by decide) hn
  have htext : (ascii "Content-Length: ").length = 16 := rfl
  have hcrlf : crlf.length = 2 := rfl
  rw [HeaderLine.bytes, lengthLine, List.length_append, List.length_append]
  omega

section Errors

variable {errnum shortmsg : Bytes} (cause longmsg : Bytes)

theorem clienterror_eq (errnum shortmsg : Bytes) : clienterror cause errnum shortmsg longmsg =
    sprintf maxBuf (errorPage cause errnum shortmsg longmsg) >>= fun body ↦ do
      let status ← sprintf maxLine
        (ascii "HTTP/1.0 " ++ (errnum ++ (ascii " " ++ (shortmsg ++ crlf))))
      let type ← sprintf maxLine (ascii "Content-type: text/html\r\n")
      let length ← sprintf maxLine (ascii "Content-Length: " ++ (intToken body.length ++
        ascii "\r\n\r\n"))
      return [status, type, length, body] := by
  unfold clienterror
  rw [sprintf_append, sprintf_append, sprintf_append, sprintf_append]
  rfl

/-- The page is longer than the number and the message of the error. -/
theorem length_errorPage (errnum shortmsg : Bytes) :
    errnum.length + shortmsg.length + 84 ≤ (errorPage cause errnum shortmsg longmsg).length := by
  have hhtml : (ascii "<html><title>Mini Error</title>").length = 31 := rfl
  have hbody : (ascii "<body bgcolor=ffffff>\r\n").length = 23 := rfl
  have hend : (ascii "<hr><em>Mini Web server</em>\r\n").length = 30 := rfl
  unfold errorPage
  simp only [List.length_append]
  omega

variable (hnul : 0 ∉ errnum ++ (ascii " " ++ shortmsg))
  (hnewline : newline ∉ errnum ++ (ascii " " ++ shortmsg))

theorem length_statusLine : (statusLine errnum shortmsg hnul hnewline).bytes.length =
    errnum.length + shortmsg.length + 12 := by
  have hhttp : (ascii "HTTP/1.0 ").length = 9 := rfl
  have hspace : (ascii " ").length = 1 := rfl
  have hcrlf : crlf.length = 2 := rfl
  rw [HeaderLine.bytes, statusLine]
  simp only [List.length_append]
  omega

theorem statusLine_plain : (statusLine errnum shortmsg hnul hnewline).Plain := by
  have hhead : (statusLine errnum shortmsg hnul hnewline).bytes.head? = some 72 := rfl
  constructor
  · intro h
    have hfirst := h.head
    rw [hhead] at hfirst
    exact absurd hfirst (by decide)
  · intro h
    have hfirst := h.head
    rw [hhead] at hfirst
    exact absurd hfirst (by decide)

/-- A page that fits is written as a complete response. -/
theorem clienterror_sent (hnul : 0 ∉ errnum ++ (ascii " " ++ shortmsg))
    (hnewline : newline ∉ errnum ++ (ascii " " ++ shortmsg))
    (hfits : (errorPage cause errnum shortmsg longmsg).length < maxBuf) :
    ∃ usrbufs, ∃ r : Response, clienterror cause errnum shortmsg longmsg = .ok usrbufs ∧
      usrbufs.flatten = r.bytes ∧
      r.lines.head?.map HeaderLine.text =
        some (ascii "HTTP/1.0 " ++ (errnum ++ (ascii " " ++ shortmsg))) ∧
      r.body = .sized (errorPage cause errnum shortmsg longmsg) := by
  have hpage := length_errorPage cause longmsg errnum shortmsg
  rw [clienterror_eq, sprintf_eq hfits]
  -- only its length matters from here on
  generalize errorPage cause errnum shortmsg longmsg = page at *
  have hbuf : maxBuf = 8192 := rfl
  have hline : maxLine = 8192 := rfl
  have hdigits := length_lengthLine_le (n := page.length) (by omega)
  have hstatus := length_statusLine hnul hnewline
  have hhtml : htmlLine.bytes.length = 25 := rfl
  have hplain : ∀ l ∈ [statusLine errnum shortmsg hnul hnewline, htmlLine] ++ [], l.Plain := by
    intro l hl
    rcases List.mem_pair.mp hl with rfl | rfl
    · exact statusLine_plain hnul hnewline
    · decide
  have hlines : (([statusLine errnum shortmsg hnul hnewline, htmlLine] ++
      [lengthLine page.length]).flatMap HeaderLine.bytes).length < maxLine := by
    simp only [List.cons_append, List.nil_append, List.flatMap_cons, List.flatMap_nil,
      List.append_nil, List.length_append]
    omega
  refine ⟨[(statusLine errnum shortmsg hnul hnewline).bytes, htmlLine.bytes,
    (lengthLine page.length).bytes ++ crlf, page], sizedResponse _ [] page hplain hlines, ?_, ?_,
    rfl, rfl⟩
  · have hfirst : (ascii "HTTP/1.0 " ++ (errnum ++ (ascii " " ++ (shortmsg ++ crlf)))) =
        (statusLine errnum shortmsg hnul hnewline).bytes := by
      rw [HeaderLine.bytes, statusLine]
      simp only [List.append_assoc]
    have hthird : ascii "Content-Length: " ++ (intToken page.length ++ ascii "\r\n\r\n") =
        (lengthLine page.length).bytes ++ crlf := by
      rw [HeaderLine.bytes, lengthLine, intToken_natCast]
      simp only [List.append_assoc]
      rfl
    have hsecond : ascii "Content-type: text/html\r\n" = htmlLine.bytes := rfl
    have hcrlf : crlf.length = 2 := rfl
    have hlong : ((lengthLine page.length).bytes ++ crlf).length < maxLine := by
      rw [List.length_append]
      omega
    simp only [bind, Except.bind]
    rw [hfirst, sprintf_eq (by omega), hsecond, sprintf_eq (by omega), hthird, sprintf_eq hlong]
    rfl
  · simp [Response.bytes, sizedResponse, Body.bytes, List.append_assoc]

end Errors

/-! ### What the server writes -/

namespace Http

variable {fs : Bytes → Option Node} {reply : Reply}

/-- The body of a reply. -/
def Reply.content (fs : Bytes → Option Node) : Reply → Bytes
  | notImplemented method => errorPage method (ascii "501") (ascii "Not implemented")
      (ascii "Request method is not supported")
  | notFound filename => errorPage filename (ascii "404") (ascii "Not found")
      (ascii "Cannot find this file")
  | forbidden filename => errorPage filename (ascii "403") (ascii "Forbidden")
      (ascii "Request for directory. Permission Denied")
  | serveStatic filename filesize =>
    match fs filename with
    | some (.file content _) => content.take (intSize filesize).toNat
    | _ => []

/-- The page fits, or there is a file that can be opened, with a size that is positive as an
`int`. -/
def Reply.Servable (fs : Bytes → Option Node) : Reply → Prop
  | serveStatic filename filesize => (∃ content, fs filename = some (.file content true)) ∧
      0 < intSize filesize
  | reply => (reply.content fs).length < maxBuf

/-- The status line of a reply. -/
def Reply.status : Reply → Bytes
  | notImplemented _ => ascii "HTTP/1.0 501 Not implemented"
  | notFound _ => ascii "HTTP/1.0 404 Not found"
  | forbidden _ => ascii "HTTP/1.0 403 Forbidden"
  | serveStatic _ _ => ascii "HTTP/1.0 200 OK"

/-- How a reply fails: a page goes beyond `body`, or the server ends when it has written the header of
a file. -/
def Reply.Fails (served : Except Fault Served) : Reply → Prop
  | serveStatic _ _ => ∃ rbuf msg, served = .ok (.exits [rbuf] msg)
  | _ => served = .error .undefined

/-- A file that is to be served is there, with this size. -/
def Reply.Known (fs : Bytes → Option Node) : Reply → Prop
  | serveStatic filename filesize =>
    ∃ content readable, fs filename = some (.file content readable) ∧ filesize = content.length
  | _ => True

theorem content_serveStatic {filename content : Bytes} {readable : Bool}
    (hfile : fs filename = some (.file content readable)) (filesize : Nat) :
    (Reply.serveStatic filename filesize).content fs = content.take (intSize filesize).toNat := by
  simp only [Reply.content, hfile]

theorem intSize_range (n : Nat) : -2 ^ 31 ≤ intSize n ∧ intSize n < 2 ^ 31 ∧
    (0 < intSize n → (intSize n).toNat ≤ n) := by
  unfold intSize
  rw [Int.bmod_def]
  split_ifs
  · omega
  · omega

theorem intSize_of_le {n : Nat} (h : (n : Int) ≤ intMax) : intSize n = n := by
  unfold intMax at h
  unfold intSize
  rw [Int.bmod_def]
  omega

theorem known_answer (fs : Bytes → Option Node) (filename : Bytes) :
    (answer (fun filename ↦ (fs filename).map Node.stat) filename).Known fs := by
  unfold answer
  dsimp only
  cases hnode : fs filename with
  | none => trivial
  | some node =>
    cases node with
    | directory => trivial
    | file content readable => exact ⟨content, readable, hnode, rfl⟩

/-- What `doit` answers with is a file that is there. -/
theorem known_of_doit {fuel : Nat} {rio : Rio} {arrays : Arrays}
    (h : doit (fun filename ↦ (fs filename).map Node.stat) fuel rio arrays = .ok reply) :
    reply.Known fs := by
  unfold doit at h
  dsimp only at h
  split at h
  · cases h
  · split at h
    · obtain rfl := Except.ok.inj h
      trivial
    · split at h
      · cases h
      · split at h
        · cases h
        · obtain ⟨stored, -, h⟩ := bind_eq_ok h
          obtain ⟨name, -, h⟩ := bind_eq_ok h
          obtain rfl := Except.ok.inj h
          exact known_answer fs name

/-- The header line that a text of the source makes. -/
def textLine (text : Bytes) (h : text ≠ [] ∧ 0 ∉ text ∧ newline ∉ text) : HeaderLine :=
  ⟨text, h.1, h.2.1, h.2.2⟩

def okLine : HeaderLine := textLine (ascii "HTTP/1.0 200 OK") (by decide)

def serverLine : HeaderLine := textLine (ascii "Server: Mini Web server") (by decide)

/-- `get_filetype` stores one of five texts. -/
theorem getFiletype_mem (filename : Bytes) : getFiletype filename ∈
    [ascii "text/html", ascii "image/gif", ascii "image/png", ascii "image/jpg",
      ascii "text/plain"] := by
  unfold getFiletype
  split_ifs <;> simp

/-- The line with the type of a file. -/
theorem exists_typeLine (filename : Bytes) : ∃ l : HeaderLine,
    l.bytes = ascii "Content-Type: " ++ (getFiletype filename ++ crlf) ∧ l.Plain ∧
      l.bytes.length ≤ 26 := by
  have htypes : ∀ type ∈ [ascii "text/html", ascii "image/gif", ascii "image/png",
      ascii "image/jpg", ascii "text/plain"], 0 ∉ ascii "Content-Type: " ++ type ∧
        newline ∉ ascii "Content-Type: " ++ type ∧
        ¬ startsWith contentLengthName (ascii "Content-Type: " ++ type ++ crlf) ∧
        ¬ startsWith transferEncoding (ascii "Content-Type: " ++ type ++ crlf) ∧
        (ascii "Content-Type: " ++ type ++ crlf).length ≤ 26 := by
    decide
  obtain ⟨hnul, hnewline, hlength, hencoding, hshort⟩ := htypes _ (getFiletype_mem filename)
  exact ⟨⟨_, List.append_ne_nil_of_left_ne_nil (by decide) _, hnul, hnewline⟩,
    List.append_assoc _ _ _, ⟨hlength, hencoding⟩, hshort⟩

/-- `serve_static` writes a header with the size, and the file if it can be mapped. -/
theorem serveStatic_eq (fs : Bytes → Option Node) (filename : Bytes) {filesize : Int}
    (hlow : -2 ^ 31 ≤ filesize) (hhigh : filesize < 2 ^ 31) :
    ∃ rbuf, serveStatic fs filename filesize = .ok (match fs filename with
      | some (.file content true) =>
        if filesize ≤ 0 then .exits [rbuf] "mmap error"
        else .sent [rbuf, content.take filesize.toNat]
      | some .directory => .exits [rbuf] "mmap error"
      | _ => .exits [rbuf] "Open error") ∧
      ∀ content : Bytes, filesize = content.length → ∃ r : Response,
        rbuf ++ content = r.bytes ∧
        r.lines.head?.map HeaderLine.text = some (ascii "HTTP/1.0 200 OK") ∧
        r.body = .sized content := by
  obtain ⟨typeLine, htype, hplain, hshort⟩ := exists_typeLine filename
  have hbuf : maxBuf = 8192 := rfl
  have hline : maxLine = 8192 := rfl
  have hcrlf : crlf.length = 2 := rfl
  have hok : okLine.bytes.length = 17 := rfl
  have hserver : serverLine.bytes.length = 25 := rfl
  refine ⟨ascii "HTTP/1.0 200 OK\r\n" ++ ascii "Server: Mini Web server\r\n" ++
    (ascii "Content-Length: " ++ (intToken filesize ++ crlf)) ++
    (ascii "Content-Type: " ++ (getFiletype filename ++ ascii "\r\n\r\n")), ?_, ?_⟩
  · have hlength : (intToken filesize).length ≤ 11 := by
      have hdigits := length_decimal_le (n := filesize.natAbs) (k := 10) (by decide) (by omega)
      unfold intToken
      split_ifs
      · rw [List.length_cons]
        omega
      · omega
    have htypeLength : (ascii "Content-Type: " ++ (getFiletype filename ++ crlf)).length ≤ 26 :=
      htype ▸ hshort
    unfold serveStatic
    dsimp only
    rw [sprintf_append, sprintf_append, sprintf_append, sprintf_eq]
    · cases fs filename with
      | none => rfl
      | some node =>
        cases node with
        | directory => rfl
        | file content readable =>
          cases readable with
          | false => rfl
          | true =>
            by_cases hsize : filesize ≤ 0
            · exact (if_pos hsize).trans (congrArg Except.ok (if_pos hsize).symm)
            · exact (if_neg hsize).trans (congrArg Except.ok (if_neg hsize).symm)
    · have hend : (ascii "\r\n\r\n").length = 4 := rfl
      have hfirst : (ascii "HTTP/1.0 200 OK\r\n").length = 17 := rfl
      have hsecond : (ascii "Server: Mini Web server\r\n").length = 25 := rfl
      have hthird : (ascii "Content-Length: ").length = 16 := rfl
      simp only [List.length_append] at htypeLength ⊢
      omega
  · rintro content rfl
    have hdigits := length_lengthLine_le (n := content.length) (by omega)
    have hplains : ∀ l ∈ [okLine, serverLine] ++ [typeLine], l.Plain := by
      intro l hl
      simp only [List.cons_append, List.nil_append, List.mem_cons, List.not_mem_nil, or_false] at hl
      rcases hl with rfl | rfl | rfl
      · decide
      · decide
      · exact hplain
    have hlines : (([okLine, serverLine] ++ lengthLine content.length :: [typeLine]).flatMap
        HeaderLine.bytes).length < maxLine := by
      simp only [List.cons_append, List.nil_append, List.flatMap_cons, List.flatMap_nil,
        List.append_nil, List.length_append]
      omega
    refine ⟨sizedResponse _ _ content hplains hlines, ?_, rfl, rfl⟩
    have hfirst : ascii "HTTP/1.0 200 OK\r\n" = okLine.bytes := rfl
    have hsecond : ascii "Server: Mini Web server\r\n" = serverLine.bytes := rfl
    have hthird : ascii "Content-Length: " ++ (intToken content.length ++ crlf) =
        (lengthLine content.length).bytes := by
      rw [HeaderLine.bytes, lengthLine, intToken_natCast]
      simp only [List.append_assoc]
    have hlast : ascii "Content-Type: " ++ (getFiletype filename ++ ascii "\r\n\r\n") =
        typeLine.bytes ++ crlf := by
      rw [htype]
      simp only [List.append_assoc]
      rfl
    rw [hfirst, hsecond, hthird, hlast]
    simp [Response.bytes, sizedResponse, Body.bytes, List.append_assoc]

/-- What is written for an error, and what happens to a page that does not fit. -/
theorem serve_error {cause errnum shortmsg longmsg : Bytes} {served : Except Fault Served}
    (hserved : served = (clienterror cause errnum shortmsg longmsg).map .sent)
    (hnul : 0 ∉ errnum ++ (ascii " " ++ shortmsg))
    (hnewline : newline ∉ errnum ++ (ascii " " ++ shortmsg)) :
    ((errorPage cause errnum shortmsg longmsg).length < maxBuf → ∃ usrbufs, ∃ r : Response,
      served = .ok (.sent usrbufs) ∧ usrbufs.flatten = r.bytes ∧
      r.lines.head?.map HeaderLine.text =
        some (ascii "HTTP/1.0 " ++ (errnum ++ (ascii " " ++ shortmsg))) ∧
      r.body = .sized (errorPage cause errnum shortmsg longmsg)) ∧
    (¬ (errorPage cause errnum shortmsg longmsg).length < maxBuf → served = .error .undefined) := by
  constructor
  · intro hfits
    obtain ⟨usrbufs, r, hsent, hbytes, hlines, hbody⟩ :=
      clienterror_sent cause longmsg hnul hnewline hfits
    exact ⟨usrbufs, r, by rw [hserved, hsent]; rfl, hbytes, hlines, hbody⟩
  · intro hfull
    rw [hserved, clienterror_eq, sprintf_eq_error hfull]
    rfl

/-- A reply is written, as a complete response with its status and its content, if its page fits or
its file can be mapped. Otherwise it fails. -/
theorem serve_spec (hreply : reply.Known fs) :
    (reply.Servable fs → ∃ usrbufs, ∃ r : Response, serve fs reply = .ok (.sent usrbufs) ∧
      usrbufs.flatten = r.bytes ∧ r.lines.head?.map HeaderLine.text = some reply.status ∧
      r.body = .sized (reply.content fs)) ∧
    (¬ reply.Servable fs → reply.Fails (serve fs reply)) := by
  cases reply with
  | notImplemented method => exact serve_error rfl (by decide) (by decide)
  | notFound filename => exact serve_error rfl (by decide) (by decide)
  | forbidden filename => exact serve_error rfl (by decide) (by decide)
  | serveStatic filename filesize =>
    obtain ⟨content, readable, hfile, rfl⟩ := hreply
    obtain ⟨hlow, hhigh, hle⟩ := intSize_range content.length
    obtain ⟨rbuf, heq, hresponse⟩ := serveStatic_eq fs filename hlow hhigh
    rw [hfile] at heq
    cases readable with
    | false =>
      refine ⟨fun hservable ↦ ?_, fun _ ↦ ⟨rbuf, "Open error", heq⟩⟩
      obtain ⟨⟨content', hreadable⟩, -⟩ := hservable
      rw [hfile] at hreadable
      cases hreadable
    | true =>
      dsimp only at heq
      by_cases hsize : intSize content.length ≤ 0
      · rw [if_pos hsize] at heq
        exact ⟨fun hservable ↦ absurd hservable.2 (by omega), fun _ ↦ ⟨rbuf, "mmap error", heq⟩⟩
      · rw [if_neg hsize] at heq
        refine ⟨fun _ ↦ ?_, fun hnot ↦ absurd ⟨⟨content, hfile⟩, by omega⟩ hnot⟩
        obtain ⟨r, hbytes, hlines, hbody⟩ := hresponse (content.take (intSize content.length).toNat) (by
          rw [List.length_take_of_le (hle (by omega))]
          omega)
        have hcontent := content_serveStatic hfile content.length
        refine ⟨_, r, heq, ?_, hlines, hbody.trans (congrArg Body.sized hcontent.symm)⟩
        rw [← hbytes]
        simp

/-- A reply that fails is not written. -/
theorem Reply.Fails.not_sent {served : Except Fault Served} (h : reply.Fails served)
    (usrbufs : List Bytes) : served ≠ .ok (.sent usrbufs) := by
  rintro rfl
  cases reply with
  | serveStatic filename filesize =>
    obtain ⟨rbuf, msg, hexits⟩ := h
    cases hexits
  | notImplemented method => cases h
  | notFound filename => cases h
  | forbidden filename => cases h

/-- What is written is complete. -/
theorem serve_iff (hreply : reply.Known fs) :
    (∃ usrbufs, serve fs reply = .ok (.sent usrbufs)) ↔ reply.Servable fs := by
  obtain ⟨hserves, hfails⟩ := serve_spec hreply
  constructor
  · rintro ⟨usrbufs, hsent⟩
    by_contra hnot
    exact (hfails hnot).not_sent usrbufs hsent
  · intro hservable
    obtain ⟨usrbufs, r, hsent, -⟩ := hserves hservable
    exact ⟨usrbufs, hsent⟩

/-- Whatever a client sends and whatever the arrays hold: when `doit` has come to a reply, the server
writes a complete response with its status and the page or the file if the page fits or the file can
be mapped, and otherwise it writes past `body` or ends behind the header of the file. A file that an
`int` measures is written as it is. -/
theorem handle_complete {fuel : Nat} {rio : Rio} {arrays : Arrays}
    (h : doit (fun filename ↦ (fs filename).map Node.stat) fuel rio arrays = .ok reply) :
    ((∃ usrbufs, handle fs fuel rio arrays = .ok (.sent usrbufs)) ↔ reply.Servable fs) ∧
    (∀ usrbufs, handle fs fuel rio arrays = .ok (.sent usrbufs) → ∃ r : Response,
      usrbufs.flatten = r.bytes ∧ r.lines.head?.map HeaderLine.text = some reply.status ∧
      r.body = .sized (reply.content fs)) ∧
    (¬ reply.Servable fs → reply.Fails (handle fs fuel rio arrays)) ∧
    ∀ filename content, reply = .serveStatic filename content.length →
      fs filename = some (.file content true) → (content.length : Int) ≤ intMax →
        reply.content fs = content := by
  have hhandle : handle fs fuel rio arrays = serve fs reply := by
    rw [handle, h]
    rfl
  have hknown := known_of_doit h
  obtain ⟨hserves, hfails⟩ := serve_spec hknown
  rw [hhandle]
  refine ⟨serve_iff hknown, fun usrbufs hsent ↦ ?_, hfails, ?_⟩
  · obtain ⟨usrbufs', r, hsent', hbytes, hlines, hbody⟩ :=
      hserves ((serve_iff hknown).mp ⟨usrbufs, hsent⟩)
    obtain ⟨rfl⟩ : usrbufs' = usrbufs := by
      rw [hsent'] at hsent
      injection hsent with hsent
      injection hsent
    exact ⟨r, hbytes, hlines, hbody⟩
  · rintro filename content rfl hfile hmax
    rw [content_serveStatic hfile, intSize_of_le hmax, Int.toNat_natCast, List.take_length]

/-- A client that asks for a page. -/
def pageClient : Rio :=
  rioReadinitb [.piece (ascii "GET /a.html HTTP/1.0\r\n\r\n") (by decide) (by decide)]

/-- One file, with two bytes. -/
def twoBytes (filename : Bytes) : Option Node :=
  if filename = ascii "./a.html" then some (.file [104, 105] true) else none

theorem handle_complete_twoBytes : ∃ usrbufs, ∃ r : Response,
    handle twoBytes 1 pageClient blankArrays = .ok (.sent usrbufs) ∧
      usrbufs.flatten = r.bytes ∧
      r.lines.head?.map HeaderLine.text = some (ascii "HTTP/1.0 200 OK") ∧
      r.body = .sized [104, 105] := by
  have hfile : twoBytes (ascii "./a.html") = some (.file [104, 105] true) := rfl
  have hdoit : doit (fun filename ↦ (twoBytes filename).map Node.stat) 1 pageClient blankArrays =
    .ok (.serveStatic (ascii "./a.html") 2) := rfl
  obtain ⟨hiff, hcomplete, -, hwhole⟩ := handle_complete hdoit
  obtain ⟨usrbufs, hsent⟩ := hiff.mpr ⟨⟨_, hfile⟩, by decide⟩
  obtain ⟨r, hbytes, hlines, hbody⟩ := hcomplete usrbufs hsent
  have hcontent := hwhole (ascii "./a.html") [104, 105] rfl hfile (by decide)
  exact ⟨usrbufs, r, hsent, hbytes, hlines, hcontent ▸ hbody⟩

end Http

end SystemProgramming.ProxyLab
