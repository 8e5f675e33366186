import SystemProgramming.Library.CString
import SystemProgramming.Library.Scanning
import SystemProgramming.ProxyLab.Rio

/-!
# What `doit` makes of a response

The header lines are collected in `response`, and the body in a block on the heap: as many bytes as
`Content-Length` says, or chunk by chunk with the string functions. Both are then written to the
client. `responseBuffer` and `chunkbuffer` hold the last line that was read.

The last `strcat` puts its zero byte behind the block, and into `response`, which has `MAXLINE`
bytes, it may put two bytes too many. They are written out before anything else is stored there, and
`spill` is the number of bytes behind each of the two that may be used so. Any other access outside
of an array, or to a variable without a value, is a fault.
-/

set_option autoImplicit false
set_option relaxedAutoImplicit false

namespace SystemProgramming.ProxyLab

open Library

/-- Why there is no result: a loop has used up its fuel, or the code does what C leaves
undefined. -/
inductive Fault
  | spins
  | undefined
  deriving DecidableEq, Repr

/-- `INT_MAX`. -/
def intMax : Int := 2147483647

def crlf : Bytes := ascii "\r\n"

def transferEncoding : Bytes := ascii "Transfer-Encoding:"

def contentLengthName : Bytes := ascii "Content-Length:"

/-- What is in memory before the code writes there. -/
structure Memory where
  chunkbuffer : Bytes
  malloc : Nat → ByteMemory

/-- Go on if this holds. -/
def ensure (c : Prop) [Decidable c] : Except Fault Unit :=
  if c then .ok () else .error .undefined

/-- The number that `sscanf` stores into an `int`: it is read as a `long`, which has thirty-two bits
too. -/
def storeInt (n : Int) : Int := max (-2 ^ 31) (min n (2 ^ 31 - 1))

/-- The same for `%x`, which reads an `unsigned long`: a number with more than thirty-two bits becomes
the largest one, also behind a minus sign. -/
def storeHex (n : Int) : Int := if n.natAbs < 2 ^ 32 then n.bmod (2 ^ 32) else -1

/-- `strcat` to a string in an array with `room` bytes. -/
def strcatLine (room : Nat) (dest src : Bytes) : Except Fault Bytes := do
  ensure (dest.length + src.length < room)
  return dest ++ src

/-- `strcat` to a block of `room` bytes. -/
def strcat (room : Nat) (dest : ByteMemory) (src : Bytes) : Except Fault ByteMemory :=
  match strlen dest room 0 with
  | none => .error .undefined
  | some n => do
    ensure (n + src.length < room)
    return putString dest n src

/-- The block that `realloc` returns for one of `size` bytes. -/
def realloc (block : ByteMemory) (size : Nat) (fresh : ByteMemory) : ByteMemory := fun a ↦
  if a < size then block a else fresh a

/-! ### The header -/

/-- The variables of `doit` after the header. -/
structure Header where
  response : Bytes
  isChunked : Bool
  contentLength : Option Int
  serverResponse : Rio

/-- A line tells that the response is chunked. -/
def tellsChunked (line : Bytes) : Prop :=
  startsWith transferEncoding line ∧ (ascii "chunked" <:+: line ∨ ascii "Chunked" <:+: line)

instance (line : Bytes) : Decidable (tellsChunked line) := inferInstanceAs (Decidable (_ ∧ _))

/-- `contentLength` after a line. -/
def noteLength (line : Bytes) (contentLength : Option Int) : Option Int :=
  if startsWith transferEncoding line then contentLength
  else if startsWith contentLengthName line then
    ((scanNumber 10 (line.drop 15)).map storeInt).or contentLength
  else contentLength

/-- The loop over the header lines. -/
def readHeader (spill : Nat) : Nat → Rio → Bytes → Bytes → Bool → Option Int → Except Fault Header
  | 0, _, _, _, _, _ => .error .spins
  | fuel + 1, rp, responseBuffer, response, isChunked, contentLength =>
    if cstr responseBuffer = crlf then do
      let response ← strcatLine (maxLine + spill) response crlf
      return ⟨response, isChunked, contentLength, rp⟩
    else do
      let line := cstr responseBuffer
      let response ← strcatLine maxLine response line
      let next := rioReadlineb rp responseBuffer maxLine
      readHeader spill fuel next.rp next.usrbuf response (isChunked || tellsChunked line)
        (noteLength line contentLength)

/-! ### The body -/

/-- The block that is written, and how many bytes of it. -/
structure Content where
  contentBuffer : ByteMemory
  contentLength : Int

/-- The loop over the chunks. `malloc` and `realloc` are called once each for a chunk. A negative
number given for a size is too large for `malloc` to return a block. -/
def readChunks (memory : Memory) (spill : Nat) :
    Nat → Nat → Rio → Bytes → ByteMemory → Int → Int → Except Fault Content
  | 0, _, _, _, _, _, _ => .error .spins
  | fuel + 1, blocks, rp, chunkbuffer, contentBuffer, contentLength, clen =>
    if clen = 0 then do
      let contentBuffer ← strcat (contentLength.toNat + spill) contentBuffer crlf
      return ⟨contentBuffer, contentLength⟩
    else do
      let clen := clen + 2
      ensure (0 ≤ clen ∧ clen ≤ intMax)
      let data := rioReadnb rp clen.toNat
      let tbuf := Function.update (putBytes (memory.malloc blocks) 0 data.1) clen.toNat 0
      let next := rioReadlineb data.2 chunkbuffer maxLine
      let grown := contentLength + ((cstr next.usrbuf).length + clen)
      ensure (grown ≤ intMax)
      let contentBuffer := realloc contentBuffer contentLength.toNat (memory.malloc (blocks + 1))
      match readString tbuf (clen.toNat + 1) 0 with
      | none => .error .undefined
      | some text => do
        let contentBuffer ← strcat grown.toNat contentBuffer text
        let contentBuffer ← strcat grown.toNat contentBuffer (cstr next.usrbuf)
        let clen := ((scanNumber 16 (cstr next.usrbuf)).map storeHex).getD clen
        readChunks memory spill fuel (blocks + 2) next.rp next.usrbuf contentBuffer grown clen

/-- A chunked body. -/
def readChunked (memory : Memory) (spill fuel : Nat) (rp : Rio) : Except Fault Content :=
  let first := rioReadlineb rp memory.chunkbuffer maxLine
  let line := cstr first.usrbuf
  match (scanNumber 16 line).map storeHex with
  | none => .error .undefined
  | some clen =>
    readChunks memory spill fuel 1 first.rp first.usrbuf (putString (memory.malloc 0) 0 line)
      (line.length + 2) clen

/-- A body with its length in the header. -/
def readSized (memory : Memory) (rp : Rio) (contentLength : Option Int) : Except Fault Content :=
  match contentLength with
  | none => .error .undefined
  | some contentLength => do
    ensure (0 ≤ contentLength)
    let data := rioReadnb rp contentLength.toNat
    return ⟨putBytes (memory.malloc 0) 0 data.1, contentLength⟩

/-- The body, in the form that the header tells. -/
def readContent (memory : Memory) (spill fuel : Nat) (header : Header) : Except Fault Content :=
  if header.isChunked then readChunked memory spill fuel header.serverResponse
  else readSized memory header.serverResponse header.contentLength

/-- What `doit` writes to the client, after it has sent the request to the server, from whose
connection this arrives. -/
def doitResponse (memory : Memory) (spill fuel : Nat) (server : List (Arrival rioBufSize)) :
    Except Fault Bytes := do
  let first := rioReadlineb (rioReadinitb server) [] maxLine
  let header ← readHeader spill fuel first.rp first.usrbuf [] false none
  let content ← readContent memory spill fuel header
  return header.response ++ bytesAt content.contentBuffer 0 content.contentLength.toNat

/-! ### Results -/

theorem ensure_eq_ok {c : Prop} [Decidable c] (h : c) : ensure c = .ok () := if_pos h

theorem strcatLine_eq {room : Nat} {dest src : Bytes} (h : dest.length + src.length < room) :
    strcatLine room dest src = .ok (dest ++ src) := by
  rw [strcatLine, ensure_eq_ok h]
  rfl

theorem ensure_eq_error {c : Prop} [Decidable c] (h : ¬ c) : ensure c = .error .undefined := if_neg h

theorem strcatLine_eq_error {room : Nat} {dest src : Bytes}
    (h : ¬ dest.length + src.length < room) : strcatLine room dest src = .error .undefined := by
  rw [strcatLine, ensure_eq_error h]
  rfl

theorem bind_eq_ok {α β : Type} {x : Except Fault α} {f : α → Except Fault β} {b : β}
    (h : x >>= f = .ok b) : ∃ a, x = .ok a ∧ f a = .ok b := by
  cases x with
  | error fault => cases h
  | ok a => exact ⟨a, rfl, h⟩

theorem of_ensure_eq_ok {c : Prop} [Decidable c] {u : Unit} (h : ensure c = .ok u) : c := by
  by_contra hnot
  rw [ensure, if_neg hnot] at h
  cases h

theorem strcat_eq (room : Nat) {dest : ByteMemory} {text src : Bytes} (h : StringAt dest 0 text)
    (hsrc : 0 ∉ src) (hroom : text.length + src.length < room) :
    ∃ block, strcat room dest src = .ok block ∧ StringAt block 0 (text ++ src) := by
  refine ⟨putString dest text.length src, ?_, ?_⟩
  · simp [strcat, strlen_eq room h (by omega), ensure_eq_ok hroom, bind, Except.bind, pure,
      Except.pure]
  · have happend := h.append hsrc
    rwa [Nat.zero_add] at happend

theorem strcat_eq_error (room : Nat) {dest : ByteMemory} {text : Bytes} (src : Bytes)
    (h : StringAt dest 0 text) (htext : text.length < room)
    (hroom : room ≤ text.length + src.length) : strcat room dest src = .error .undefined := by
  simp [strcat, strlen_eq room h htext, ensure_eq_error (Nat.not_lt.mpr hroom), bind, Except.bind]

theorem storeInt_of_le {n : Nat} (h : (n : Int) ≤ intMax) : storeInt n = n := by
  unfold intMax at h
  rw [storeInt]
  omega

theorem storeInt_nonneg {n : Int} (h : 0 ≤ n) : 0 ≤ storeInt n := by
  rw [storeInt]
  omega

theorem storeHex_of_le {n : Nat} (h : (n : Int) ≤ intMax) : storeHex n = n := by
  unfold intMax at h
  rw [storeHex, if_pos (by omega), Int.bmod_def]
  omega

end SystemProgramming.ProxyLab
