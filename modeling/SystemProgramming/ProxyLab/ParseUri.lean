import SystemProgramming.ProxyLab.Doit

/-!
# The parsers of URIs in `proxy.c` and `http.c`

Both parsers leave the work to one `sscanf` with the text `http://`, a scan set and a second
conversion (`scanUri`); where the second finds nothing it stores nothing. `parse_uri_proxy` then puts
`t_file` behind the `/` in `filename`, stored or not, and cuts the host off at the colon. So a URI is
parsed back into its host, port and path if the path is not empty, and if the arrays have room for
what is stored there (`parseUriProxy_iff`).
-/

set_option autoImplicit false
set_option relaxedAutoImplicit false

namespace SystemProgramming.ProxyLab

open Library

/-! ### The source -/

def slash : UInt8 := 47

def colon : UInt8 := 58

/-- What `sscanf` finds with `"http://%[^/]/%s"`. -/
structure UriScan where
  hostport : Option Bytes
  file : Option Bytes
  deriving DecidableEq

/-- The first word of a text, if there is one: the conversion `%s`. -/
def scanWord (s : Bytes) : Option Bytes :=
  let word := (s.dropWhile isSpace).takeWhile fun c ↦ !isSpace c
  if word = [] then none else some word

/-- `sscanf` with `"http://%[^/]/%s"`. -/
def scanUri (uri : Bytes) : UriScan :=
  if ascii "http://" <+: uri then
    let hostport := (uri.drop 7).takeWhile (· ≠ slash)
    if hostport = [] then ⟨none, none⟩
    else
      match (uri.drop 7).dropWhile (· ≠ slash) with
      | [] => ⟨some hostport, none⟩
      | _ :: rest => ⟨some hostport, scanWord rest⟩
  else ⟨none, none⟩

/-- `strcpy` to an array with `room` bytes. -/
def strcpy (room : Nat) (dest : ByteMemory) (src : Bytes) : Except Fault ByteMemory := do
  ensure (src.length < room)
  return putString dest 0 src

/-- The string in an array with `room` bytes, from `p` on. -/
def stringFrom (room p : Nat) (m : ByteMemory) : Except Fault Bytes :=
  match readString m (room - p) p with
  | none => .error .undefined
  | some s => .ok s

/-- What a conversion of `sscanf` stores. -/
def storeWord (room : Nat) (dest : ByteMemory) (word : Option Bytes) : Except Fault ByteMemory :=
  match word with
  | none => .ok dest
  | some word => strcpy room dest word

/-- `atoi`. -/
def atoi (s : Bytes) : Int := ((scanNumber 10 s).map storeInt).getD 0

/-- The local arrays of `parse_uri_proxy` and the arrays of its caller, before the call. -/
structure UriArrays where
  tHostport : ByteMemory
  tFile : ByteMemory
  host : ByteMemory
  filename : ByteMemory

/-- What `parse_uri_proxy` returns and leaves. -/
structure ParsedUri where
  value : Int
  host : ByteMemory
  port : Int
  filename : ByteMemory

/-- The end of `parse_uri_proxy`, from the search for the colon on. -/
def splitHostport (host filename tHostport : ByteMemory) : Except Fault ParsedUri :=
  match strchr tHostport colon maxLine 0 with
  | none => .error .undefined
  | some none => do
    let host ← strcpy maxLine host (← stringFrom maxLine 0 tHostport)
    return ⟨0, host, 80, filename⟩
  | some (some ppos) => do
    let tHostport := Function.update tHostport ppos 0
    if 48 ≤ tHostport (ppos + 1) ∧ tHostport (ppos + 1) ≤ 57 then
      let port := atoi (← stringFrom maxLine (ppos + 1) tHostport)
      let host ← strcpy maxLine host (← stringFrom maxLine 0 tHostport)
      return ⟨0, host, port, filename⟩
    else return ⟨-1, host, 80, filename⟩

/-- `parse_uri_proxy`. -/
def parseUriProxy (arrays : UriArrays) (uri : Bytes) : Except Fault ParsedUri := do
  let filename ← strcpy maxLine arrays.filename [slash]
  let tHostport ← storeWord maxLine arrays.tHostport (scanUri uri).hostport
  let tFile ← storeWord maxLine arrays.tFile (scanUri uri).file
  if (scanUri uri).hostport = none then return ⟨-1, arrays.host, 80, filename⟩
  else
    let filename ← strcat maxLine filename (← stringFrom maxLine 0 tFile)
    splitHostport arrays.host filename tHostport

/-! ### Rendered URIs -/

/-- The port, if one is given. -/
def portText (port : Option Nat) : Bytes := port.elim [] fun p ↦ colon :: decimal p

/-- `http://host[:port]/path`. -/
def renderUri (host : Bytes) (port : Option Nat) (path : Bytes) : Bytes :=
  ascii "http://" ++ (host ++ portText port ++ slash :: path)

/-- A host, as far as the parser cares. -/
structure IsHost (host : Bytes) : Prop where
  ne_nil : host ≠ []
  slash_notMem : slash ∉ host
  colon_notMem : colon ∉ host
  zero_notMem : 0 ∉ host

/-- A path. -/
def IsPath (path : Bytes) : Prop := ∀ c ∈ path, isSpace c = false ∧ c ≠ 0

instance (path : Bytes) : Decidable (IsPath path) := List.decidableBAll _ path

theorem portText_ne (port : Option Nat) {c : UInt8} (hc : c ∈ portText port) :
    c ≠ slash ∧ c ≠ 0 := by
  cases port with
  | none => cases hc
  | some p =>
    rcases List.mem_cons.mp hc with rfl | hc
    · decide
    · have hbounds := isDigit_ten (isDigit_decimal p c hc)
      constructor <;> rintro rfl <;> revert hbounds <;> decide

theorem scanWord_eq {path : Bytes} (hpath : IsPath path) :
    scanWord path = if path = [] then none else some path := by
  have hdrop : path.dropWhile isSpace = path := by
    rw [List.dropWhile_eq_self_iff]
    intro hne
    simp [(hpath _ (List.getElem_mem hne)).1]
  have htake : path.takeWhile (fun c ↦ !isSpace c) = path := by
    rw [List.takeWhile_eq_self_iff]
    intro c hc
    simp [(hpath c hc).1]
  rw [scanWord, hdrop, htake]

theorem scanUri_renderUri {host : Bytes} (hhost : IsHost host) (port : Option Nat) {path : Bytes}
    (hpath : IsPath path) : scanUri (renderUri host port path) =
      ⟨some (host ++ portText port), if path = [] then none else some path⟩ := by
  have hslash : ∀ c ∈ host ++ portText port, decide (c ≠ slash) = true := fun c hc ↦ by
    rcases List.mem_append.mp hc with hc | hc
    · exact decide_eq_true fun h ↦ hhost.slash_notMem (h ▸ hc)
    · exact decide_eq_true (portText_ne port hc).1
  have hdrop : (renderUri host port path).drop 7 = host ++ portText port ++ slash :: path :=
    List.drop_left' rfl
  have htake : (host ++ portText port ++ slash :: path).takeWhile (· ≠ slash) =
      host ++ portText port := by
    rw [List.takeWhile_append_of_pos hslash]
    simp
  have hrest : (host ++ portText port ++ slash :: path).dropWhile (· ≠ slash) = slash :: path := by
    rw [List.dropWhile_append_of_pos hslash]
    simp
  have hprefix : ascii "http://" <+: renderUri host port path := List.prefix_append _ _
  rw [scanUri, if_pos hprefix, hdrop, htake, hrest]
  simp [hhost.ne_nil, scanWord_eq hpath]

/-! ### The arrays -/

section

variable {m : ByteMemory} {room : Nat} {s : Bytes}

theorem strcpy_eq (dest : ByteMemory) (h : s.length < room) :
    strcpy room dest s = .ok (putString dest 0 s) := by
  rw [strcpy, ensure_eq_ok h]
  rfl

theorem strcpy_eq_error (dest : ByteMemory) (h : ¬ s.length < room) :
    strcpy room dest s = .error .undefined := by
  rw [strcpy, ensure_eq_error h]
  rfl

theorem stringFrom_eq {p : Nat} (h : StringAt m p s) (hroom : p + s.length < room) :
    stringFrom room p m = .ok s := by
  rw [stringFrom, readString_eq (room - p) h (by omega)]

end

theorem atoi_decimal {p : Nat} (hp : p < 65536) : atoi (decimal p) = p := by
  have hscan : scanNumber 10 ([] ++ (decimal p ++ [])) = some (numeral 10 (decimal p) : Int) :=
    scanNumber_eq (by simp) (decimal_ne_nil p) (isDigit_decimal p) (by simp [EndsNumeral])
  rw [List.nil_append, List.append_nil, numeral_decimal] at hscan
  rw [atoi, hscan, Option.map_some, Option.getD_some, storeInt_of_le (by unfold intMax; omega)]

/-- The host and the port are taken apart. -/
theorem splitHostport_eq {host : Bytes} (hhost : IsHost host) {port : Option Nat}
    (hport : ∀ p ∈ port, p < 65536) {tHostport : ByteMemory}
    (ht : StringAt tHostport 0 (host ++ portText port))
    (hroom : (host ++ portText port).length < maxLine) (before filename : ByteMemory) :
    ∃ parsed, splitHostport before filename tHostport = .ok parsed ∧ parsed.value = 0 ∧
      StringAt parsed.host 0 host ∧ parsed.port = port.getD 80 ∧ parsed.filename = filename := by
  rw [List.length_append] at hroom
  have hhostText := stringAt_putString before 0 hhost.zero_notMem
  cases port with
  | none =>
    rw [portText, Option.elim_none, List.append_nil] at ht
    refine ⟨⟨0, putString before 0 host, 80, filename⟩, ?_, rfl, hhostText, rfl, rfl⟩
    have hcolon := strchr_eq_none maxLine ht hhost.colon_notMem (by decide) (by omega)
    rw [splitHostport, hcolon]
    dsimp only
    rw [stringFrom_eq ht (by omega)]
    dsimp only [bind, Except.bind]
    rw [strcpy_eq before (by omega)]
    rfl
  | some p =>
    rw [portText, Option.elim_some] at ht hroom
    rw [List.length_cons] at hroom
    have hcolon := strchr_eq_some maxLine ht hhost.colon_notMem (by omega)
    rw [Nat.zero_add] at hcolon
    have hcut := ht.cut
    rw [Nat.zero_add] at hcut
    -- the digits behind the colon are left alone
    have hdigits : StringAt (Function.update tHostport host.length 0) (host.length + 1)
        (decimal p) := by
      have hport := ht.drop
      rw [Nat.zero_add] at hport
      exact hport.2.2.congr fun a hlow _ ↦ Function.update_of_ne (by omega) _ _
    obtain ⟨d, digits, hd⟩ := List.exists_cons_of_ne_nil (decimal_ne_nil p)
    have hbounds := isDigit_ten (isDigit_decimal p d (hd ▸ List.mem_cons_self))
    have hhead : Function.update tHostport host.length 0 (host.length + 1) = d := by
      rw [hdigits.head, hd]
      rfl
    refine ⟨⟨0, putString before 0 host, p, filename⟩, ?_, rfl, hhostText, rfl, rfl⟩
    rw [splitHostport, hcolon]
    dsimp only
    rw [hhead, if_pos hbounds, stringFrom_eq hdigits (by omega)]
    dsimp only [bind, Except.bind]
    rw [stringFrom_eq hcut (by omega)]
    dsimp only
    rw [strcpy_eq before (by omega), atoi_decimal (hport p rfl)]
    rfl

/-! ### Parsing what has been rendered -/

/-- The URI has been parsed into the host, the port and the path. -/
def ParsedUri.Matches (parsed : ParsedUri) (host : Bytes) (port : Option Nat) (path : Bytes) :
    Prop :=
  parsed.value = 0 ∧ StringAt parsed.host 0 host ∧ parsed.port = port.getD 80 ∧
    StringAt parsed.filename 0 (slash :: path)

section

variable {host path : Bytes} {port : Option Nat}

/-- The string that is in `t_file` after the `sscanf` stands behind the `/` in `filename`. -/
theorem parseUriProxy_eq (hhost : IsHost host) (hport : ∀ p ∈ port, p < 65536)
    (hpath : IsPath path) (hroom : (host ++ portText port).length < maxLine) (arrays : UriArrays)
    {tFile : ByteMemory} {file : Bytes}
    (hstore : storeWord maxLine arrays.tFile (if path = [] then none else some path) = .ok tFile)
    (hfile : StringAt tFile 0 file) (hzero : 0 ∉ file) (hlength : file.length + 1 < maxLine) :
    ∃ parsed, parseUriProxy arrays (renderUri host port path) = .ok parsed ∧
      parsed.Matches host port file := by
  have hhostport : 0 ∉ host ++ portText port := fun hmem ↦ by
    rcases List.mem_append.mp hmem with hmem | hmem
    · exact hhost.zero_notMem hmem
    · exact (portText_ne port hmem).2 rfl
  obtain ⟨filename, hcat, hname⟩ := strcat_eq maxLine
    (stringAt_putString arrays.filename 0 (s := [slash]) (by decide)) hzero
    (by rw [List.length_singleton]; omega)
  obtain ⟨parsed, hsplit, hvalue, hhostAt, hportAt, hfilename⟩ :=
    splitHostport_eq hhost hport (stringAt_putString arrays.tHostport 0 hhostport) hroom arrays.host
      filename
  refine ⟨parsed, ?_, hvalue, hhostAt, hportAt, by rw [hfilename]; exact hname⟩
  have hstoreHost : storeWord maxLine arrays.tHostport (some (host ++ portText port)) =
      .ok (putString arrays.tHostport 0 (host ++ portText port)) := strcpy_eq _ hroom
  rw [parseUriProxy, strcpy_eq _ (show [slash].length < maxLine by decide),
    scanUri_renderUri hhost port hpath]
  dsimp only [bind, Except.bind]
  rw [hstoreHost]
  dsimp only
  rw [hstore]
  dsimp only
  rw [if_neg (by simp), stringFrom_eq hfile (by omega)]
  dsimp only
  rw [hcat]
  exact hsplit

/-- There is no room for the host and the port. -/
theorem parseUriProxy_host_full (hhost : IsHost host) (hpath : IsPath path)
    (hroom : ¬ (host ++ portText port).length < maxLine) (arrays : UriArrays) :
    parseUriProxy arrays (renderUri host port path) = .error .undefined := by
  rw [parseUriProxy, strcpy_eq _ (show [slash].length < maxLine by decide),
    scanUri_renderUri hhost port hpath]
  dsimp only [bind, Except.bind, storeWord]
  rw [strcpy_eq_error _ hroom]

/-- There is no room for the path behind the `/`. -/
theorem parseUriProxy_path_full (hhost : IsHost host) (hpath : IsPath path) (hne : path ≠ [])
    (hroom : (host ++ portText port).length < maxLine) (hlength : ¬ path.length + 1 < maxLine)
    (arrays : UriArrays) :
    parseUriProxy arrays (renderUri host port path) = .error .undefined := by
  have hzero : 0 ∉ path := fun hmem ↦ (hpath 0 hmem).2 rfl
  rw [parseUriProxy, strcpy_eq _ (show [slash].length < maxLine by decide),
    scanUri_renderUri hhost port hpath, if_neg hne]
  dsimp only [bind, Except.bind, storeWord]
  rw [strcpy_eq _ hroom]
  dsimp only
  by_cases hstored : path.length < maxLine
  · have hcat := strcat_eq_error maxLine path
      (stringAt_putString arrays.filename 0 (s := [slash]) (by decide)) (by decide)
      (by rw [List.length_singleton]; omega)
    rw [strcpy_eq _ hstored]
    dsimp only
    rw [if_neg (by simp), stringFrom_eq (stringAt_putString arrays.tFile 0 hzero) (by omega)]
    dsimp only
    rw [hcat]
  · rw [strcpy_eq_error _ hstored]

/-- Arrays with a `/` in `t_file`. -/
def staleArrays : UriArrays :=
  ⟨fun _ ↦ 0, putString (fun _ ↦ 0) 0 [slash], fun _ ↦ 0, fun _ ↦ 0⟩

/-- With an empty path the string that was in `t_file` before is taken for one. -/
theorem not_matches_staleArrays (hhost : IsHost host) (hport : ∀ p ∈ port, p < 65536)
    (hroom : (host ++ portText port).length < maxLine) :
    ¬ ∃ parsed, parseUriProxy staleArrays (renderUri host port []) = .ok parsed ∧
      parsed.Matches host port [] := by
  rintro ⟨parsed, hparse, hmatches⟩
  have hempty : IsPath [] := fun c hc ↦ by cases hc
  have hstore : storeWord maxLine staleArrays.tFile (if ([] : Bytes) = [] then none else some []) =
      .ok (putString (fun _ ↦ 0) 0 [slash]) := rfl
  obtain ⟨stale, hstale, -, -, -, hname⟩ := parseUriProxy_eq hhost hport hempty hroom staleArrays
    hstore (stringAt_putString _ 0 (s := [slash]) (by decide)) (by decide) (by decide)
  obtain rfl : parsed = stale := Except.ok.inj (hparse.symm.trans hstale)
  have hend : parsed.filename 1 = 0 := hmatches.2.2.2.2.2
  rw [hname.2.2.1] at hend
  exact absurd hend (by decide)

/-- Whatever the arrays held, the URI is parsed back, exactly when the path is not empty and the
arrays have room. -/
theorem parseUriProxy_iff (hhost : IsHost host) (hport : ∀ p ∈ port, p < 65536)
    (hpath : IsPath path) :
    (∀ arrays, ∃ parsed, parseUriProxy arrays (renderUri host port path) = .ok parsed ∧
      parsed.Matches host port path) ↔
        path ≠ [] ∧ (host ++ portText port).length < maxLine ∧ path.length + 1 < maxLine := by
  have hzero : 0 ∉ path := fun hmem ↦ (hpath 0 hmem).2 rfl
  constructor
  · intro hmatches
    have hroom : (host ++ portText port).length < maxLine := by
      by_contra hfull
      obtain ⟨parsed, hparse, -⟩ := hmatches staleArrays
      rw [parseUriProxy_host_full hhost hpath hfull] at hparse
      cases hparse
    have hne : path ≠ [] := by
      rintro rfl
      exact not_matches_staleArrays hhost hport hroom (hmatches staleArrays)
    refine ⟨hne, hroom, ?_⟩
    by_contra hfull
    obtain ⟨parsed, hparse, -⟩ := hmatches staleArrays
    rw [parseUriProxy_path_full hhost hpath hne hroom hfull] at hparse
    cases hparse
  · rintro ⟨hne, hroom, hlength⟩ arrays
    refine parseUriProxy_eq hhost hport hpath hroom arrays ?_
      (stringAt_putString arrays.tFile 0 hzero) hzero hlength
    rw [if_neg hne]
    exact strcpy_eq _ (by omega)

/-- `http://www.snu.ac.kr:1234/index.html`. -/
theorem parseUriProxy_iff_index : ∃ parsed, parseUriProxy staleArrays
    (renderUri (ascii "www.snu.ac.kr") (some 1234) (ascii "index.html")) = .ok parsed ∧
      parsed.Matches (ascii "www.snu.ac.kr") (some 1234) (ascii "index.html") :=
  (parseUriProxy_iff ⟨by decide, by decide, by decide, by decide⟩ (by simp) (by decide)).mpr
    ⟨by decide, by decide, by decide⟩ staleArrays

/-- `http://www.snu.ac.kr/`. -/
theorem parseUriProxy_stale : ¬ ∀ arrays, ∃ parsed,
    parseUriProxy arrays (renderUri (ascii "www.snu.ac.kr") none []) = .ok parsed ∧
      parsed.Matches (ascii "www.snu.ac.kr") none [] := fun h ↦
  not_matches_staleArrays ⟨by decide, by decide, by decide, by decide⟩ (by simp) (by decide)
    (h staleArrays)

end

end SystemProgramming.ProxyLab
