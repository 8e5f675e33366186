import SystemProgramming.Library.LexicalPath
import SystemProgramming.ProxyLab.Loops
import SystemProgramming.ProxyLab.ParseUri

/-!
# The files that the server in `http.c` looks up

`parse_uri` puts a `.` in front of the URI, and where the URI is `http://host/path` it stores the path
over that. Nothing looks at the components of the file name that this makes: what follows is `stat`,
and then the file is served. So the file is in the working directory or below exactly if the
components of the URI never go up more often than down and, for a path behind a host, if there is no
further `/` at its front (`Http.doit_confined_iff`).

An array without a value that is read as a string is a fault.
-/

set_option autoImplicit false
set_option relaxedAutoImplicit false

namespace SystemProgramming.ProxyLab

open Library

/-! ### The source -/

def dot : UInt8 := 46

/-- `strcasecmp` finds no difference. -/
def sameCase (s t : Bytes) : Prop := s.map toLower = t.map toLower

instance (s t : Bytes) : Decidable (sameCase s t) := inferInstanceAs (Decidable (_ = _))

/-- What follows the first word. -/
def afterWord (s : Bytes) : Bytes := (s.dropWhile isSpace).dropWhile fun c ↦ !isSpace c

namespace Http

/-- What `stat` tells. -/
structure Stat where
  isDir : Bool
  size : Nat
  deriving DecidableEq

/-- What `doit` does at its end: an error with its cause, or `serve_static`. -/
inductive Reply
  | notImplemented (method : Bytes)
  | notFound (filename : Bytes)
  | forbidden (filename : Bytes)
  | serveStatic (filename : Bytes) (filesize : Nat)
  deriving DecidableEq

/-- The name that has been given to `stat`. -/
def Reply.filename : Reply → Option Bytes
  | notImplemented _ => none
  | notFound filename => some filename
  | forbidden filename => some filename
  | serveStatic filename _ => some filename

/-- `parse_uri`. -/
def parseUri (uri : Bytes) (filename : ByteMemory) : Except Fault ByteMemory := do
  let filename ← strcpy maxLine filename [dot]
  let filename ← strcat maxLine filename uri
  storeWord maxLine filename (scanUri uri).file

/-- The end of `doit`, from `stat` on. -/
def answer (stat : Bytes → Option Stat) (filename : Bytes) : Reply :=
  match stat filename with
  | none => .notFound filename
  | some sbuf => if sbuf.isDir then .forbidden filename else .serveStatic filename sbuf.size

/-- What the arrays hold before something is stored there: `buf` and `filename` of `doit`, and `buf`
of `print_requesthdrs`. -/
structure Arrays where
  buf : Bytes
  filename : ByteMemory
  headerBuf : Bytes

/-- `doit`. The version, which is read with the method and the URI, is not used. -/
def doit (stat : Bytes → Option Stat) (fuel : Nat) (rio : Rio) (arrays : Arrays) :
    Except Fault Reply :=
  let first := rioReadlineb rio arrays.buf maxLine
  match scanWord (cstr first.usrbuf) with
  | none => .error .undefined
  | some method =>
    if ¬ sameCase method (ascii "GET") then .ok (.notImplemented method)
    else
      match printRequesthdrs fuel first.rp arrays.headerBuf with
      | none => .error .spins
      | some _ =>
        match scanWord (afterWord (cstr first.usrbuf)) with
        | none => .error .undefined
        | some uri => do
          let filename ← parseUri uri arrays.filename
          let filename ← stringFrom maxLine 0 filename
          return answer stat filename

/-- The request line that `doit` reads. -/
def requestLine (rio : Rio) (arrays : Arrays) : Bytes :=
  cstr (rioReadlineb rio arrays.buf maxLine).usrbuf

/-- The file for a URI. -/
def pathOf (uri : Bytes) : Bytes := (scanUri uri).file.getD (dot :: uri)

/-- The path for a URI does not lead out of the directory in which it starts. -/
def Confined (uri : Bytes) : Prop :=
  match (scanUri uri).file with
  | none => NeverClimbs (readPath (dot :: uri))
  | some file => file.head? ≠ some slash ∧ NeverClimbs (readPath file)

/-! ### The name of the file -/

theorem mem_of_scanWord {s word : Bytes} (h : scanWord s = some word) {c : UInt8} (hc : c ∈ word) :
    c ∈ s := by
  rw [scanWord] at h
  obtain ⟨-, hword⟩ := Option.ite_none_left_eq_some.mp h
  rw [← Option.some.inj hword] at hc
  exact (List.dropWhile_sublist _).subset ((List.takeWhile_sublist _).subset hc)

theorem mem_of_scanUri {uri file : Bytes} (h : (scanUri uri).file = some file) {c : UInt8}
    (hc : c ∈ file) : c ∈ uri := by
  unfold scanUri at h
  split at h
  · dsimp only at h
    split at h
    · cases h
    · split at h
      · cases h
      · next b rest hrest =>
        have hmem : c ∈ (uri.drop 7).dropWhile (· ≠ slash) :=
          hrest ▸ List.mem_cons_of_mem b (mem_of_scanWord h hc)
        exact List.mem_of_mem_drop ((List.dropWhile_sublist _).subset hmem)
  · cases h

/-- `parse_uri` stores the file for the URI. -/
theorem stringAt_of_parseUri {uri : Bytes} {before filename : ByteMemory} (hzero : 0 ∉ uri)
    (h : parseUri uri before = .ok filename) :
    StringAt filename 0 (pathOf uri) ∧ (pathOf uri).length < maxLine := by
  have hdot : StringAt (putString before 0 [dot]) 0 [dot] :=
    stringAt_putString before 0 (by decide)
  obtain ⟨started, hstart, h⟩ := bind_eq_ok h
  rw [strcpy_eq before (show [dot].length < maxLine by decide)] at hstart
  obtain rfl := Except.ok.inj hstart
  obtain ⟨named, hcat, hstore⟩ := bind_eq_ok h
  -- the URI has been put behind the dot
  have hroom : [dot].length + uri.length < maxLine := by
    by_contra hfull
    rw [strcat_eq_error maxLine uri hdot (by decide) (by omega)] at hcat
    cases hcat
  obtain ⟨named', hcat', hname⟩ := strcat_eq maxLine hdot hzero hroom
  obtain rfl : named = named' := Except.ok.inj (hcat.symm.trans hcat')
  rw [pathOf]
  cases hfile : (scanUri uri).file with
  | none =>
    rw [hfile] at hstore
    obtain rfl : named = filename := Except.ok.inj hstore
    refine ⟨hname, ?_⟩
    rw [Option.getD_none, List.length_cons]
    rw [List.length_singleton] at hroom
    omega
  | some file =>
    rw [hfile] at hstore
    have hlength : file.length < maxLine := by
      by_contra hfull
      rw [storeWord, strcpy_eq_error named hfull] at hstore
      cases hstore
    rw [storeWord, strcpy_eq named hlength] at hstore
    obtain rfl := Except.ok.inj hstore
    exact ⟨stringAt_putString named 0 fun hmem ↦ hzero (mem_of_scanUri hfile hmem), hlength⟩

theorem filename_answer (stat : Bytes → Option Stat) (filename : Bytes) :
    (answer stat filename).filename = some filename := by
  unfold answer
  cases stat filename with
  | none => rfl
  | some sbuf =>
    dsimp only
    split <;> rfl

/-- The file for a URI is in the working directory or below, exactly if the URI is confined. -/
theorem staysBelow_pathOf_iff (uri : Bytes) : StaysBelow (pathOf uri) ↔ Confined uri := by
  rw [staysBelow_iff, pathOf, Confined]
  cases (scanUri uri).file with
  | none =>
    rw [Option.getD_none]
    exact and_iff_right fun h ↦ absurd (Option.some.inj h) (by decide)
  | some file => rfl

/-- A URI that begins with a `/` is a path from the working directory. -/
theorem confined_origin {uri : Bytes} (h : uri.head? = some slash) :
    Confined uri ↔ NeverClimbs (readPath uri) := by
  obtain ⟨path, rfl⟩ := List.head?_eq_some_iff.mp h
  have hscan : (scanUri (slash :: path)).file = none := by
    rw [scanUri, if_neg fun hprefix ↦ ?_]
    exact absurd (List.cons_prefix_cons.mp hprefix).1 (by decide)
  rw [Confined, hscan]
  exact iff_of_eq (congrArg NeverClimbs (readPath_dot path))

/-- The URI of a request is the one whose file is looked up. -/
theorem filename_of_doit {stat : Bytes → Option Stat} {fuel : Nat} {rio : Rio} {arrays : Arrays}
    {reply : Reply} {uri filename : Bytes}
    (huri : scanWord (afterWord (requestLine rio arrays)) = some uri)
    (h : doit stat fuel rio arrays = .ok reply) (hfilename : reply.filename = some filename) :
    filename = pathOf uri := by
  have hzero : 0 ∉ uri := fun hmem ↦ by
    have hline := mem_of_scanWord huri hmem
    exact zero_not_mem_cstr _
      ((List.dropWhile_sublist _).subset ((List.dropWhile_sublist _).subset hline))
  unfold requestLine at huri
  unfold doit at h
  dsimp only at h
  split at h
  · cases h
  · split at h
    · obtain rfl := Except.ok.inj h
      cases hfilename
    · split at h
      · cases h
      · rw [huri] at h
        obtain ⟨stored, hparse, h⟩ := bind_eq_ok h
        obtain ⟨name, hname, h⟩ := bind_eq_ok h
        obtain ⟨hstring, hlength⟩ := stringAt_of_parseUri hzero hparse
        rw [stringFrom_eq hstring (by omega)] at hname
        obtain rfl := Except.ok.inj h
        rw [filename_answer] at hfilename
        rw [← Option.some.inj hfilename, Except.ok.inj hname]

/-- In every run, the file that is looked up for the URI is in the working directory or below,
exactly if the URI is confined. -/
theorem doit_confined_iff {stat : Bytes → Option Stat} {fuel : Nat} {rio : Rio} {arrays : Arrays}
    {reply : Reply} {uri filename : Bytes}
    (huri : scanWord (afterWord (requestLine rio arrays)) = some uri)
    (h : doit stat fuel rio arrays = .ok reply) (hfilename : reply.filename = some filename) :
    filename = pathOf uri ∧ (StaysBelow filename ↔ Confined uri) ∧
      (uri.head? = some slash → (StaysBelow filename ↔ NeverClimbs (readPath uri))) := by
  obtain rfl := filename_of_doit huri h hfilename
  refine ⟨rfl, staysBelow_pathOf_iff uri, fun hslash ↦ ?_⟩
  rw [staysBelow_pathOf_iff, confined_origin hslash]

/-- A client that asks for a file above the working directory, and one that does not. -/
def escapingClient : Rio :=
  rioReadinitb [.piece (ascii "GET /../x HTTP/1.0\r\n\r\n") (by decide) (by decide)]

def confinedClient : Rio :=
  rioReadinitb [.piece (ascii "GET /a/../b HTTP/1.0\r\n\r\n") (by decide) (by decide)]

def blankArrays : Arrays := ⟨[], fun _ ↦ 0, []⟩

/-- A file with one byte, whatever its name. -/
def oneFile (_ : Bytes) : Option Stat := some ⟨false, 1⟩

theorem doit_escaping : doit oneFile 1 escapingClient blankArrays =
    .ok (.serveStatic (ascii "./../x") 1) ∧ ¬ StaysBelow (ascii "./../x") := by
  constructor
  · rfl
  · decide

/-- `GET /a/../b`. -/
theorem doit_confined_iff_inside :
    ascii "./a/../b" = pathOf (ascii "/a/../b") ∧
      (StaysBelow (ascii "./a/../b") ↔ Confined (ascii "/a/../b")) ∧
      ((ascii "/a/../b").head? = some slash →
        (StaysBelow (ascii "./a/../b") ↔ NeverClimbs (readPath (ascii "/a/../b")))) :=
  @doit_confined_iff oneFile 1 confinedClient blankArrays (.serveStatic (ascii "./a/../b") 1)
    (ascii "/a/../b") (ascii "./a/../b") rfl rfl rfl

end Http

end SystemProgramming.ProxyLab
