import Mathlib.Data.List.Basic
import Mathlib.Logic.Function.Basic
import SystemProgramming.Library.CString

/-!
# Splitting a command line

`parseline` copies the command line to `array`, where it cuts it into its arguments: it writes a
zero byte at the end of each and stores the address of its beginning in `argv`. `array` is static,
and what an earlier call has left there is arbitrary, and so is what is in `argv`.

There is no result where the code would write or read outside of one of the two arrays. No other
bound is needed: every turn of the loop fills an entry of `argv`.
-/

set_option autoImplicit false
set_option relaxedAutoImplicit false

namespace SystemProgramming.ShellLab

open Library

/-- `MAXLINE`. -/
def maxLine : Nat := 1024

/-- `MAXARGS`. -/
def maxArgs : Nat := 128

def newline : UInt8 := 10

def space : UInt8 := 32

def ampersand : UInt8 := 38

def quote : UInt8 := 39

/-! ### The code -/

/-- The beginning of the argument at `buf`, and the delimiter after it. -/
def findDelim (array : ByteMemory) (buf : Nat) : Option (Nat × Option Nat) :=
  if array buf = quote then
    (strchr array quote (maxLine - (buf + 1)) (buf + 1)).map fun delim ↦ (buf + 1, delim)
  else
    (strchr array space (maxLine - buf) buf).map fun delim ↦ (buf, delim)

/-- The loop of `parseline`, with the number of entries of `argv` that are left, and the null
pointer after the last argument. -/
def buildArgv : Nat → ByteMemory → (Nat → Option Nat) → Nat → Nat → Option Nat →
    Option (ByteMemory × (Nat → Option Nat) × Nat)
  | 0, _, _, _, _, _ => none
  | _ + 1, array, argv, argc, _, none => some (array, Function.update argv argc none, argc)
  | room + 1, array, argv, argc, buf, some delim => do
    let argv := Function.update argv argc (some buf)
    let array := Function.update array delim 0
    let buf ← skip array space (maxLine - (delim + 1)) (delim + 1)
    let (buf, delim) ← findDelim array buf
    buildArgv room array argv (argc + 1) buf delim

/-- What `parseline` returns and leaves. -/
structure Parsed where
  bg : Int
  array : ByteMemory
  argv : Nat → Option Nat

/-- `parseline`. -/
def parseline (array : ByteMemory) (argv : Nat → Option Nat) (cmdline : List UInt8) :
    Option Parsed := do
  guard (cmdline.length < maxLine)
  let array := putString array 0 cmdline
  let length ← strlen array maxLine 0
  guard (length ≠ 0)
  let array := Function.update array (length - 1) space
  let buf ← skip array space maxLine 0
  let (buf, delim) ← findDelim array buf
  let (array, argv, argc) ← buildArgv maxArgs array argv 0 buf delim
  if argc = 0 then
    return ⟨1, array, argv⟩
  let last ← argv (argc - 1)
  if array last = ampersand then
    return ⟨1, array, Function.update argv (argc - 1) none⟩
  return ⟨0, array, argv⟩

/-! ### Command lines -/

/-- An argument as it is written on a command line. -/
inductive Word
  | bare (text : List UInt8) (hnonempty : text ≠ []) (hspace : space ∉ text)
      (hnewline : newline ∉ text) (hnul : 0 ∉ text) (hquote : text.head? ≠ some quote)
  | quoted (text : List UInt8) (hquote : quote ∉ text) (hnewline : newline ∉ text)
      (hnul : 0 ∉ text)

namespace Word

def text : Word → List UInt8
  | bare text _ _ _ _ _ => text
  | quoted text _ _ _ => text

def render : Word → List UInt8
  | bare text _ _ _ _ _ => text
  | quoted text _ _ _ => quote :: text ++ [quote]

/-- The word that asks for the background. -/
def background : Word :=
  bare [ampersand] (by decide) (by decide) (by decide) (by decide) (by decide)

theorem nul_not_mem_render (w : Word) : 0 ∉ w.render := by
  cases w with
  | bare text hnonempty hspace hnewline hnul hquote => exact hnul
  | quoted text hquote hnewline hnul =>
    have hne : (0 : UInt8) ≠ quote := by decide
    simp [render, hnul, hne]

theorem head_render_ne_space (w : Word) (s : List UInt8) : (w.render ++ s).head? ≠ some space := by
  cases w with
  | bare text hnonempty hspace hnewline hnul hquote =>
    cases text with
    | nil => exact absurd rfl hnonempty
    | cons c text =>
      intro heq
      exact hspace (List.mem_cons.mpr (Or.inl (Option.some.inj heq).symm))
  | quoted text hquote hnewline hnul =>
    intro heq
    exact absurd (Option.some.inj heq) (by decide)

end Word

/-- Words with spaces between them, one more than the number that comes before each. -/
def renderWords : Word → List (Nat × Word) → List UInt8
  | w, [] => w.render
  | w, (gap, v) :: rest => w.render ++ List.replicate (gap + 1) space ++ renderWords v rest

/-- A command line. -/
def renderLine (leading : Nat) (first : Word) (rest : List (Nat × Word)) (trailing : Nat) :
    List UInt8 :=
  List.replicate leading space ++ renderWords first rest ++ List.replicate trailing space ++
    [newline]

/-- `argv` has these strings from an entry on, and then the null pointer. -/
def ArgsAt (array : ByteMemory) (argv : Nat → Option Nat) : Nat → List (List UInt8) → Prop
  | n, [] => argv n = none
  | n, arg :: args => (∃ p, argv n = some p ∧ StringAt array p arg) ∧ ArgsAt array argv (n + 1) args

/-- Words with spaces after them, one more than the number that comes with each. -/
def padded : List (Word × Nat) → List UInt8
  | [] => []
  | (w, gap) :: rest => w.render ++ List.replicate (gap + 1) space ++ padded rest

/-- The same words, with the newline for the last space. -/
def pads : Word → List (Nat × Word) → Nat → List (Word × Nat)
  | w, [], trailing => [(w, trailing)]
  | w, (gap, v) :: rest, trailing => (w, gap) :: pads v rest trailing

theorem padded_pads (w : Word) (rest : List (Nat × Word)) (trailing : Nat) :
    padded (pads w rest trailing) =
      renderWords w rest ++ List.replicate trailing space ++ [space] := by
  induction rest generalizing w with
  | nil => simp [pads, padded, renderWords, List.replicate_succ']
  | cons x rest ih => simp [pads, padded, renderWords, ih]

theorem pads_texts (w : Word) (rest : List (Nat × Word)) (trailing : Nat) :
    (pads w rest trailing).map (fun x ↦ x.1.text) = w.text :: rest.map fun x ↦ x.2.text := by
  induction rest generalizing w with
  | nil => rfl
  | cons x rest ih => simp [pads, ih]

theorem nul_not_mem_renderLine (leading : Nat) (first : Word) (rest : List (Nat × Word))
    (trailing : Nat) : 0 ∉ renderLine leading first rest trailing := by
  have hspace : (0 : UInt8) ≠ space := by decide
  have hnewline : (0 : UInt8) ≠ newline := by decide
  have hwords : 0 ∉ renderWords first rest := by
    induction rest generalizing first with
    | nil => exact first.nul_not_mem_render
    | cons x rest ih =>
      simp [renderWords, first.nul_not_mem_render, ih, List.mem_replicate, hspace]
  simp [renderLine, hwords, List.mem_replicate, hspace, hnewline]

theorem head_padded_ne_space (words : List (Word × Nat)) :
    (padded words).head? ≠ some space := by
  cases words with
  | nil => simp [padded]
  | cons x words =>
    rw [padded, List.append_assoc]
    exact x.1.head_render_ne_space _

/-! ### What the loop builds -/

/-- A word is found where it begins, and ends at a delimiter; what follows is behind it, with the
space after a quote. -/
theorem findDelim_word {array : ByteMemory} {buf : Nat} {w : Word} {s : List UInt8}
    (h : StringAt array buf (w.render ++ space :: s))
    (hroom : buf + w.render.length < maxLine) :
    ∃ start delim n, findDelim array buf = some (start, some delim) ∧ buf ≤ start ∧
      start + w.text.length = delim ∧ delim + 1 + n = buf + w.render.length + 1 ∧
      StringAt (Function.update array delim 0) start w.text ∧
      StringAt array (delim + 1) (List.replicate n space ++ s) := by
  cases w with
  | bare text hnonempty hspace hnewline hnul hquote =>
    have hhead : array buf ≠ quote := by
      rw [h.head]
      intro heq
      cases text with
      | nil => exact hnonempty rfl
      | cons c text => exact hquote (congrArg some heq)
    have hdelim := strchr_eq_some (maxLine - buf) h hspace (by
      simp only [Word.render] at hroom ⊢
      omega)
    refine ⟨buf, _, 0, by rw [findDelim, if_neg hhead, hdelim]; rfl, le_rfl, rfl, rfl, h.cut, ?_⟩
    exact (h.drop).2.2
  | quoted text hquote hnewline hnul =>
    have hopen : array buf = quote := h.1
    have hrest : StringAt array (buf + 1) (text ++ quote :: space :: s) := by
      have htail : StringAt array (buf + 1) ((text ++ [quote]) ++ space :: s) := h.2.2
      rwa [List.append_assoc] at htail
    have hdelim := strchr_eq_some (maxLine - (buf + 1)) hrest hquote (by
      simp only [Word.render, List.length_append, List.length_cons] at hroom
      omega)
    refine ⟨buf + 1, _, 1, by rw [findDelim, if_pos hopen, hdelim]; rfl, by omega, rfl, ?_,
      hrest.cut, hrest.drop.2.2⟩
    simp only [Word.render, Word.text, List.length_append, List.length_cons, List.length_nil]
    omega

/-- The loop builds the arguments from words, one entry for each. It leaves what is before them. -/
theorem buildArgv_words {words : List (Word × Nat)} {room buf : Nat} {array : ByteMemory}
    (argc : Nat) (argv : Nat → Option Nat) (h : StringAt array buf (padded words))
    (hroom : words.length < room) (hline : buf + (padded words).length < maxLine) :
    ∃ start delim array' argv', findDelim array buf = some (start, delim) ∧
      buildArgv room array argv argc start delim = some (array', argv', argc + words.length) ∧
      ArgsAt array' argv' argc (words.map fun x ↦ x.1.text) ∧
      (∀ a < buf, array' a = array a) ∧ ∀ i < argc, argv' i = argv i := by
  obtain ⟨room, rfl⟩ := Nat.exists_eq_succ_of_ne_zero (Nat.ne_zero_of_lt hroom)
  induction words generalizing room argc buf array argv with
  | nil =>
    have hzero : array buf = 0 := h
    have hnone := strchr_eq_none (c := space) (maxLine - buf) h (by simp [padded]) (by decide) (by
      rw [padded, List.length_nil] at hline ⊢
      omega)
    refine ⟨buf, none, array, Function.update argv argc none, ?_, rfl, ?_, fun _ _ ↦ rfl,
      fun i hi ↦ Function.update_of_ne (Nat.ne_of_lt hi) _ _⟩
    · rw [findDelim, if_neg (by rw [hzero]; decide), hnone]
      rfl
    · exact Function.update_self argc none argv
  | cons x words ih =>
    obtain ⟨w, gap⟩ := x
    rw [padded, List.replicate_succ, List.append_assoc, List.cons_append] at h
    simp only [padded, List.length_append, List.length_replicate] at hline
    obtain ⟨start, delim, n, hfind, hstart, hdelim, hnext, htext, hrest⟩ :=
      findDelim_word h (by omega)
    -- the zero byte is before everything that follows
    have hcut : StringAt (Function.update array delim 0) (delim + 1)
        (List.replicate (n + gap) space ++ padded words) := by
      rw [List.replicate_add, List.append_assoc]
      exact hrest.congr fun a hlow _ ↦ Function.update_of_ne (by omega) _ _
    have hskip := skip_eq (maxLine - (delim + 1)) hcut (head_padded_ne_space words)
      (by omega)
    have hbehind := hcut.drop
    rw [List.length_replicate] at hbehind
    rw [List.length_cons, Nat.succ_lt_succ_iff] at hroom
    obtain ⟨room, rfl⟩ := Nat.exists_eq_succ_of_ne_zero (Nat.ne_zero_of_lt hroom)
    obtain ⟨start', delim', array', argv', hfind', hbuild, hargs, harray, hargv⟩ :=
      ih (argc + 1) (Function.update argv argc (some start)) hbehind (by omega) room hroom
    refine ⟨start, some delim, array', argv', hfind, ?_, ⟨⟨start, ?_, ?_⟩, hargs⟩, ?_, ?_⟩
    · rw [buildArgv]
      simp only [hskip, hfind', Option.bind_eq_bind, Option.bind_some]
      rw [hbuild, List.length_cons]
      congr 3
      omega
    · rw [hargv argc (by omega), Function.update_self]
    · exact htext.congr fun a _ hhigh ↦ harray a (by omega)
    · intro a ha
      rw [harray a (by omega), Function.update_of_ne (by omega)]
    · intro i hi
      rw [hargv i (by omega), Function.update_of_ne (by omega)]

/-- The last argument, and the others without it. -/
theorem ArgsAt.snoc {array : ByteMemory} {argv : Nat → Option Nat} {n : Nat}
    {args : List (List UInt8)} {arg : List UInt8} (h : ArgsAt array argv n (args ++ [arg])) :
    (∃ p, argv (n + args.length) = some p ∧ StringAt array p arg) ∧
      ArgsAt array (Function.update argv (n + args.length) none) n args := by
  induction args generalizing n with
  | nil =>
    have hnone : Function.update argv n none n = none := Function.update_self n none argv
    exact ⟨h.1, hnone⟩
  | cons a args ih =>
    obtain ⟨⟨p, hp, hstring⟩, hrest⟩ := h
    obtain ⟨hlast, hargs⟩ := ih hrest
    rw [show n + 1 + args.length = n + (a :: args).length by rw [List.length_cons]; omega]
      at hlast hargs
    refine ⟨hlast, ⟨p, ?_, hstring⟩, hargs⟩
    rw [Function.update_of_ne (by rw [List.length_cons]; omega)]
    exact hp

/-! ### The round trip -/

/-- `parseline` builds the arguments of a command line, and takes the last one away if it begins with
`&`. -/
theorem parseline_renderLine (array : ByteMemory) (argv : Nat → Option Nat) {leading : Nat}
    {first : Word} {rest : List (Nat × Word)} {trailing : Nat} {args : List (List UInt8)}
    {last : List UInt8} (hargs : (first.text :: rest.map fun x ↦ x.2.text) = args ++ [last])
    (hcount : rest.length + 1 < maxArgs)
    (hlength : (renderLine leading first rest trailing).length < maxLine) :
    ∃ array' argv', ArgsAt array' argv' 0 (args ++ [last]) ∧
      parseline array argv (renderLine leading first rest trailing) = some (
        if last.head? = some ampersand then ⟨1, array', Function.update argv' args.length none⟩
        else ⟨0, array', argv'⟩) := by
  have hnul := nul_not_mem_renderLine leading first rest trailing
  obtain ⟨line, hline⟩ : ∃ line, line = List.replicate leading space ++ renderWords first rest ++
      List.replicate trailing space := ⟨_, rfl⟩
  rw [renderLine, ← hline] at hnul hlength ⊢
  have htexts := pads_texts first rest trailing
  have hwords := congrArg List.length htexts
  rw [List.length_map, List.length_cons, List.length_map] at hwords
  rw [hargs] at htexts
  have hpadded : line ++ [space] =
      List.replicate leading space ++ padded (pads first rest trailing) := by
    rw [padded_pads, hline, List.append_assoc, List.append_assoc, List.append_assoc]
  -- the copy, and the newline replaced
  have hcopy := stringAt_putString array 0 hnul
  have hstrlen := strlen_eq maxLine hcopy hlength
  have hspaced := hcopy.set (d := space) (by decide)
  rw [Nat.zero_add, hpadded] at hspaced
  -- the loop
  have hargv : (pads first rest trailing).length < maxArgs := by omega
  have htotal := congrArg List.length hpadded
  rw [List.length_append, List.length_singleton] at hlength
  rw [List.length_append, List.length_append, List.length_singleton, List.length_replicate]
    at htotal
  have hskip := skip_eq maxLine hspaced (head_padded_ne_space _) (by omega)
  have hfirst := hspaced.drop
  rw [List.length_replicate, Nat.zero_add] at hfirst
  rw [Nat.zero_add] at hskip
  obtain ⟨start, delim, array', argv', hfind, hbuild, hbuilt, -, -⟩ :=
    buildArgv_words 0 argv hfirst hargv (by omega)
  rw [htexts] at hbuilt
  refine ⟨array', argv', hbuilt, ?_⟩
  -- the last argument
  obtain ⟨⟨p, hp, hstring⟩, -⟩ := hbuilt.snoc
  have hhead : array' p = ampersand ↔ last.head? = some ampersand := by
    rw [hstring.head]
    cases last.head? with
    | none => decide
    | some c => simp
  have hargc : 0 + (pads first rest trailing).length = args.length + 1 := by
    have hlengths := congrArg List.length htexts
    rwa [List.length_map, List.length_append, List.length_singleton, ← Nat.zero_add (List.length _)]
      at hlengths
  have hguard : (line ++ [newline]).length < maxLine := by
    rw [List.length_append, List.length_singleton]
    exact hlength
  have hnewline : (line ++ [newline]).length - 1 = line.length := by simp
  have hnonempty : (line ++ [newline]).length ≠ 0 := by simp
  rw [hargc] at hbuild
  rw [Nat.zero_add] at hp
  simp only [parseline, guard, if_pos hguard, hstrlen, if_pos hnonempty, hnewline, hskip, hfind,
    hbuild, Option.pure_def, Option.bind_eq_bind, Option.bind_some, Nat.add_one_ne_zero, if_false,
    Nat.add_sub_cancel, hp, hhead]
  split_ifs <;> rfl

/-- `parseline` inverts the rendering of a command line. A further `&` changes only what it
returns. -/
theorem parseline_inverts (array : ByteMemory) (argv : Nat → Option Nat) (leading : Nat)
    (first : Word) (rest : List (Nat × Word)) (trailing : Nat)
    (hcount : rest.length + 1 ≤ maxArgs - 2)
    (hlast : ∀ arg ∈ (first.text :: rest.map fun x ↦ x.2.text).getLast?,
      arg.head? ≠ some ampersand)
    (hlength : (renderLine leading first rest trailing).length < maxLine) :
    (∃ array' argv', parseline array argv (renderLine leading first rest trailing) =
        some ⟨0, array', argv'⟩ ∧
      ArgsAt array' argv' 0 (first.text :: rest.map fun x ↦ x.2.text)) ∧
    ∀ gap trailing', (renderLine leading first (rest ++ [(gap, .background)]) trailing').length <
        maxLine →
      ∃ bg array' argv', parseline array argv
          (renderLine leading first (rest ++ [(gap, .background)]) trailing') =
        some ⟨bg, array', argv'⟩ ∧ bg ≠ 0 ∧
      ArgsAt array' argv' 0 (first.text :: rest.map fun x ↦ x.2.text) := by
  have hroom : rest.length + 2 < maxArgs := by
    rw [maxArgs] at hcount ⊢
    omega
  constructor
  · obtain ⟨args, last, hargs⟩ : ∃ args last, (first.text :: rest.map fun x ↦ x.2.text) =
        args ++ [last] :=
      ⟨_, _, (List.dropLast_append_getLast (List.cons_ne_nil _ _)).symm⟩
    obtain ⟨array', argv', hbuilt, hparse⟩ :=
      parseline_renderLine array argv hargs (by omega) hlength
    rw [hargs, List.getLast?_concat] at hlast
    rw [if_neg (hlast last rfl)] at hparse
    exact ⟨array', argv', hparse, hargs ▸ hbuilt⟩
  · intro gap trailing' hlength'
    have hargs : (first.text :: (rest ++ [(gap, Word.background)]).map fun x ↦ x.2.text) =
        (first.text :: rest.map fun x ↦ x.2.text) ++ [[ampersand]] := by
      simp [Word.background, Word.text]
    obtain ⟨array', argv', hbuilt, hparse⟩ := parseline_renderLine array argv hargs
      (by rw [List.length_append, List.length_singleton]; exact hroom) hlength'
    have hamp : [ampersand].head? = some ampersand := rfl
    rw [if_pos hamp] at hparse
    have hfront := hbuilt.snoc.2
    rw [Nat.zero_add] at hfront
    exact ⟨1, array', _, hparse, by decide, hfront⟩

/-- The line `  ls '' -l` with two spaces after it. -/
theorem parseline_inverts_ls : ∃ array argv,
    parseline (fun _ ↦ 255) (fun _ ↦ some 7) ([32, 32, 108, 115, 32, 39, 39, 32, 45, 108, 32, 32, 10]) =
      some ⟨0, array, argv⟩ ∧ ArgsAt array argv 0 [[108, 115], [], [45, 108]] :=
  (parseline_inverts (fun _ ↦ 255) (fun _ ↦ some 7) 2
    (.bare [108, 115] (by decide) (by decide) (by decide) (by decide) (by decide))
    [(0, .quoted [] (by decide) (by decide) (by decide)),
      (0, .bare [45, 108] (by decide) (by decide) (by decide) (by decide) (by decide))] 2
    (by decide) (by decide) (by decide)).1

end SystemProgramming.ShellLab
