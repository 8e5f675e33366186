import SystemProgramming.Library.Scanning
import SystemProgramming.ShellLab.Continuing
import SystemProgramming.ShellLab.Parseline

/-!
# What a command line asks for

`eval` has `parseline` split the line, `builtin_cmd` compares the first argument with the names of
the four builtin commands and with `&`, and `do_bgfg` reads a number from the second. `evalLine` is
this on the bytes in `array`; `asked` is what a list of arguments asks for. A line asks for what its
arguments ask for, whatever the spaces between them and whichever of them are quoted
(`evalLine_renderLine`).

The number and the pid of a job, as `listjobs` prints them, lead `bg` and `fg` back to the slot of
the job. While the handler runs they lead to no other slot (`bgfg_finds`).
-/

set_option autoImplicit false
set_option relaxedAutoImplicit false

namespace SystemProgramming.ShellLab

open Library

def percent : UInt8 := 37

/-! ### The code -/

/-- `atoi`, which returns the nearest `int` for a number that is none. -/
def atoi (s : List UInt8) : Int :=
  ((scanNumber 10 s).map fun n ↦ max (-2 ^ 31) (min n (2 ^ 31 - 1))).getD 0

/-- What a command line asks for: nothing, or only a message; or one of the commands. -/
inductive Asked
  | nothing
  | complain (message : List UInt8)
  | quit
  | jobs
  | bgfg (bg : Bool) (ref : JobRef)
  | run (bg : Bool)
  deriving DecidableEq, Repr

/-- `do_bgfg` for a command without an argument. -/
def noArgument (name : List UInt8) : List UInt8 :=
  name ++ ascii " command requires PID or %jobid argument\n"

/-- `do_bgfg` for an argument that is neither of the two. -/
def noNumber (bg : Bool) : List UInt8 :=
  ascii (if bg then "bg" else "fg") ++ ascii ": argument must be a PID or %jobid\n"

/-- The argument of `do_bgfg`. -/
def readRef (bg : Bool) (strid : List UInt8) : Asked :=
  if strid.head? = some percent then .bgfg bg (.jid (atoi strid.tail))
  else if strid.head?.getD 0 < 48 ∨ 57 < strid.head?.getD 0 then .complain (noNumber bg)
  else .bgfg bg (.pid (atoi strid))

/-- `do_bgfg` up to the lookup. No string in `array` is as long as `array`. -/
def doBgfg (array : ByteMemory) (argv : Nat → Option Nat) (name : List UInt8) : Option Asked :=
  match argv 1 with
  | none => some (.complain (noArgument name))
  | some strid => (readString array maxLine strid).map (readRef (name ≠ ascii "fg"))

/-- `builtin_cmd`, and what `eval` does where it returns zero. -/
def builtinCmd (array : ByteMemory) (argv : Nat → Option Nat) (bg : Bool) (name : List UInt8) :
    Option Asked :=
  if name = ascii "quit" then some .quit
  else if name = ascii "&" then some .nothing
  else if name = ascii "jobs" then some .jobs
  else if name = ascii "bg" ∨ name = ascii "fg" then doBgfg array argv name
  else some (.run bg)

/-- What `eval` does with the arguments. -/
def evalArgs (array : ByteMemory) (argv : Nat → Option Nat) (bg : Bool) : Option Asked :=
  match argv 0 with
  | none => some .nothing
  | some p => do
    let name ← readString array maxLine p
    builtinCmd array argv bg name

/-- `eval` up to what the command does. -/
def evalLine (array : ByteMemory) (argv : Nat → Option Nat) (cmdline : List UInt8) :
    Option Asked := do
  let parsed ← parseline array argv cmdline
  evalArgs parsed.array parsed.argv (parsed.bg ≠ 0)

/-- The command in the steps of the shell. -/
def Asked.command (cmdline : List UInt8) : Asked → Command
  | nothing => .other
  | complain _ => .other
  | quit => .quit
  | jobs => .other
  | bgfg bg ref => .bgfg bg ref
  | run bg => .run bg (String.ofList (cmdline.map fun c ↦ Char.ofNat c.toNat))

/-! ### Arguments -/

/-- What `bg` or `fg` asks for. -/
def askedBgfg (name : List UInt8) : List (List UInt8) → Asked
  | [] => .complain (noArgument name)
  | strid :: _ => readRef (name ≠ ascii "fg") strid

/-- What a list of arguments asks for. -/
def asked (bg : Bool) : List (List UInt8) → Asked
  | [] => .nothing
  | name :: args =>
    if name = ascii "quit" then .quit
    else if name = ascii "&" then .nothing
    else if name = ascii "jobs" then .jobs
    else if name = ascii "bg" ∨ name = ascii "fg" then askedBgfg name args
    else .run bg

/-- The arguments of a line, without the last one if that begins with `&`, and whether it does. -/
def background (args : List (List UInt8)) : Bool × List (List UInt8) :=
  if ∃ last ∈ args.getLast?, last.head? = some ampersand then (true, args.dropLast)
  else (false, args)

theorem length_text_le (w : Word) : w.text.length ≤ w.render.length := by
  cases w with
  | bare text hnonempty hspace hnewline hnul hquote => exact Nat.le_refl _
  | quoted text hquote hnewline hnul =>
    simp only [Word.text, Word.render, List.length_append, List.length_cons]
    omega

/-- No argument is longer than the line. -/
theorem length_le_renderWords {first : Word} {rest : List (Nat × Word)} {arg : List UInt8}
    (harg : arg ∈ first.text :: rest.map fun x ↦ x.2.text) :
    arg.length ≤ (renderWords first rest).length := by
  induction rest generalizing first with
  | nil =>
    obtain rfl : arg = first.text := by simpa using harg
    exact length_text_le first
  | cons x rest ih =>
    rw [renderWords, List.length_append, List.length_append]
    rcases List.mem_cons.mp harg with rfl | harg
    · have hle := length_text_le first
      omega
    · have hle := ih harg
      omega

theorem length_lt_of_mem {leading : Nat} {first : Word} {rest : List (Nat × Word)} {trailing : Nat}
    {arg : List UInt8} (harg : arg ∈ first.text :: rest.map fun x ↦ x.2.text)
    (hlength : (renderLine leading first rest trailing).length < maxLine) : arg.length < maxLine := by
  have hle := length_le_renderWords harg
  simp only [renderLine, List.length_append] at hlength
  omega

theorem doBgfg_of_argsAt {array : ByteMemory} {argv : Nat → Option Nat} {args : List (List UInt8)}
    (hargs : ArgsAt array argv 1 args) (hlength : ∀ arg ∈ args, arg.length < maxLine)
    (name : List UInt8) : doBgfg array argv name = some (askedBgfg name args) := by
  cases args with
  | nil =>
    have hnull : argv 1 = none := hargs
    rw [doBgfg, hnull]
    rfl
  | cons strid args =>
    obtain ⟨⟨q, hq, hstrid⟩, -⟩ := hargs
    rw [doBgfg, hq]
    dsimp only
    rw [readString_eq maxLine hstrid (hlength strid List.mem_cons_self)]
    rfl

/-- Arguments in memory ask for what they ask for. -/
theorem evalArgs_of_argsAt {array : ByteMemory} {argv : Nat → Option Nat} {args : List (List UInt8)}
    (hargs : ArgsAt array argv 0 args) (hlength : ∀ arg ∈ args, arg.length < maxLine) (bg : Bool) :
    evalArgs array argv bg = some (asked bg args) := by
  cases args with
  | nil =>
    have hnull : argv 0 = none := hargs
    rw [evalArgs, hnull]
    rfl
  | cons name args =>
    obtain ⟨⟨p, hp, hname⟩, hrest⟩ := hargs
    have hread := readString_eq maxLine hname (hlength name List.mem_cons_self)
    have hbgfg := doBgfg_of_argsAt hrest (fun arg harg ↦ hlength arg (List.mem_cons_of_mem _ harg))
      name
    rw [evalArgs, hp]
    simp only [hread, Option.bind_eq_bind, Option.bind_some, builtinCmd, asked, hbgfg]
    split_ifs <;> rfl

/-- A line asks for what its arguments ask for. -/
theorem evalLine_renderLine (array : ByteMemory) (argv : Nat → Option Nat) (leading : Nat)
    (first : Word) (rest : List (Nat × Word)) (trailing : Nat) (hcount : rest.length + 1 < maxArgs)
    (hlength : (renderLine leading first rest trailing).length < maxLine) :
    evalLine array argv (renderLine leading first rest trailing) =
      some (let (bg, args) := background (first.text :: rest.map fun x ↦ x.2.text)
        asked bg args) := by
  obtain ⟨args, last, hargs⟩ : ∃ args last, (first.text :: rest.map fun x ↦ x.2.text) =
      args ++ [last] :=
    ⟨_, _, (List.dropLast_append_getLast (List.cons_ne_nil _ _)).symm⟩
  obtain ⟨array', argv', hbuilt, hparse⟩ := parseline_renderLine array argv hargs hcount hlength
  have hshort : ∀ arg ∈ args ++ [last], arg.length < maxLine := fun arg harg ↦
    length_lt_of_mem (hargs ▸ harg) hlength
  have hfront := hbuilt.snoc.2
  rw [Nat.zero_add] at hfront
  rw [hargs, background, List.getLast?_concat, List.dropLast_concat]
  simp only [Option.mem_some_iff, exists_eq_left']
  by_cases hlast : last.head? = some ampersand
  · rw [if_pos hlast] at hparse
    rw [if_pos hlast, evalLine, hparse]
    exact evalArgs_of_argsAt hfront (fun arg harg ↦ hshort arg (List.mem_append_left _ harg)) true
  · rw [if_neg hlast] at hparse
    rw [if_neg hlast, evalLine, hparse]
    exact evalArgs_of_argsAt hbuilt hshort false

theorem evalLine_renderLine_fg :
    evalLine (fun _ ↦ 255) (fun _ ↦ some 7) (ascii "  fg '%1' -l\n") =
      some (.bgfg false (.jid 1)) := by
  have hline : ascii "  fg '%1' -l\n" = renderLine 2
      (.bare (ascii "fg") (by decide) (by decide) (by decide) (by decide) (by decide))
      [(0, .quoted (ascii "%1") (by decide) (by decide) (by decide)),
        (0, .bare (ascii "-l") (by decide) (by decide) (by decide) (by decide) (by decide))] 0 := by
    decide
  rw [hline, evalLine_renderLine _ _ _ _ _ _ (by decide) (by decide)]
  decide

/-! ### Back to the job -/

/-- The argument that stands for a job: its number behind `%`, or its pid, as `listjobs` prints
them. -/
def JobRef.text : JobRef → List UInt8
  | jid id => percent :: decimalInt id
  | pid id => decimalInt id

theorem decimalInt_of_nonneg {n : Int} (h : 0 ≤ n) : decimalInt n = decimal n.toNat := by
  rw [decimalInt, if_neg (by omega)]
  congr 1
  omega

theorem atoi_decimalInt {n : Int} (hlow : 0 ≤ n) (hhigh : n < 2 ^ 31) : atoi (decimalInt n) = n := by
  have hscan : scanNumber 10 ([] ++ (decimal n.toNat ++ [])) =
      some (numeral 10 (decimal n.toNat) : Int) :=
    scanNumber_eq (by simp) (decimal_ne_nil _) (isDigit_decimal _) (by simp [EndsNumeral])
  rw [List.nil_append, List.append_nil, numeral_decimal] at hscan
  rw [atoi, decimalInt_of_nonneg hlow, hscan, Option.map_some, Option.getD_some]
  omega

theorem head_decimalInt {n : Int} (h : 0 ≤ n) :
    ∃ d, (decimalInt n).head? = some d ∧ 48 ≤ d ∧ d ≤ 57 := by
  obtain ⟨d, more, hdigits⟩ := List.exists_cons_of_ne_nil (decimal_ne_nil n.toNat)
  have hmem : d ∈ decimal n.toNat := by
    rw [hdigits]
    exact List.mem_cons_self
  refine ⟨d, ?_, isDigit_ten (isDigit_decimal n.toNat d hmem)⟩
  rw [decimalInt_of_nonneg h, hdigits]
  rfl

/-- It is not taken for the end of a background command. -/
theorem JobRef.head_text_ne {ref : JobRef} (hid : 1 ≤ ref.id) :
    ref.text.head? ≠ some ampersand := by
  intro heq
  cases ref with
  | jid id => exact absurd (Option.some.inj heq) (by decide)
  | pid id =>
    have hlow : 0 ≤ id := Int.le_of_lt (Int.lt_of_lt_of_le (by decide) hid)
    obtain ⟨d, hhead, hdigit, -⟩ := head_decimalInt hlow
    obtain rfl := Option.some.inj (hhead.symm.trans heq)
    exact absurd hdigit (by decide)

theorem asked_bgfg (bg : Bool) (strid : List UInt8) :
    asked false [ascii (if bg then "bg" else "fg"), strid] = readRef bg strid := by
  cases bg <;> rfl

theorem readRef_text (bg : Bool) {ref : JobRef} (hid : 1 ≤ ref.id) (hint : ref.id < 2 ^ 31) :
    readRef bg ref.text = .bgfg bg ref := by
  cases ref with
  | jid id =>
    have hlow : 0 ≤ id := Int.le_of_lt (Int.lt_of_lt_of_le (by decide) hid)
    rw [JobRef.text, readRef, List.head?_cons, if_pos rfl, List.tail_cons,
      atoi_decimalInt hlow hint]
  | pid id =>
    have hlow : 0 ≤ id := Int.le_of_lt (Int.lt_of_lt_of_le (by decide) hid)
    obtain ⟨d, hhead, hdigit⟩ := head_decimalInt hlow
    have hpercent : d ≠ percent := by
      rintro rfl
      exact absurd hdigit.1 (by decide)
    rw [JobRef.text, readRef, hhead, if_neg (by simpa using hpercent), Option.getD_some,
      if_neg (by rw [not_or, UInt8.not_lt, UInt8.not_lt]; exact hdigit), atoi_decimalInt hlow hint]

/-- A job in the table is that of no other slot, by its pid, and by its number where the numbers are
unique. -/
def JobTable.Names (t : JobTable) (i : Fin maxJobs) (ref : JobRef) : Prop :=
  ref = .pid (t.jobs i).pid ∨ (ref = .jid (t.jobs i).jid ∧ t.UniqueJids)

theorem JobTable.Names.spec {t : JobTable} {i : Fin maxJobs} {ref : JobRef} (h : t.Names i ref)
    (htidy : t.Tidy) (hused : (t.jobs i).InUse) :
    1 ≤ ref.id ∧ ref.Matches (t.jobs i) ∧ ∀ j, ref.Matches (t.jobs j) → j = i := by
  rcases h with rfl | ⟨rfl, hunique⟩
  · refine ⟨htidy.pos i hused, rfl, fun j hj ↦ ?_⟩
    have hpid : (t.jobs j).pid = (t.jobs i).pid := hj
    exact htidy.pids j i (ne_of_eq_of_ne hpid hused) hused hpid
  · refine ⟨hunique.pos i hused, rfl, fun j hj ↦ ?_⟩
    have hjid : (t.jobs j).jid = (t.jobs i).jid := hj
    refine hunique.jids j i ?_ hused hjid
    intro hfree
    have hzero := htidy.cleared j (not_not.mpr hfree)
    have hpos := hunique.pos i hused
    omega

/-- While the handler does not run, the lookup gets to the first slot that matches. -/
theorem Shell.lookup_reads {s : Shell} {bg : Bool} {ref : JobRef} {i : Fin maxJobs}
    (hoff : s.handler = .off) (hmatch : ref.Matches (s.table.jobs i))
    (hfirst : ∀ j < i, ¬ ref.Matches (s.table.jobs j)) (left slot : Nat)
    (hleft : slot + left = i) :
    Steps Shell.Step { s with main := .lookup bg ref slot } (List.replicate (left + 1) .read)
      { s with main := .cont bg i } := by
  induction left generalizing slot with
  | zero =>
    obtain rfl : slot = i := hleft
    refine .cons (.read hoff ?_) .nil
    rw [Main.read, dif_pos i.isLt, if_pos hmatch]
  | succ left ih =>
    have hlt : slot < maxJobs := by omega
    refine .cons (.read hoff ?_) (ih (slot + 1) (by omega))
    rw [Main.read, dif_pos hlt, if_neg (hfirst ⟨slot, hlt⟩ (Fin.mk_lt_of_lt_val (by omega)))]

/-- The number and the pid of a job in the table lead back to its slot: a line with `bg` or `fg` and
one of the two asks for it; the lookup finds it if the handler does not run, and finds no other
whatever the handler does. -/
theorem bgfg_finds {events : List Event} {s : Shell} (h : Shell.Reached events s)
    (hmain : s.main = .prompt) (hoff : s.handler = .off) {i : Fin maxJobs}
    (hused : (s.table.jobs i).InUse) {ref : JobRef} (hnames : s.table.Names i ref)
    (hint : ref.id < 2 ^ 31) {bg : Bool} {leading gap trailing : Nat} {name arg : Word}
    (hname : name.text = ascii (if bg then "bg" else "fg")) (harg : arg.text = ref.text)
    (hlength : (renderLine leading name [(gap, arg)] trailing).length < maxLine)
    (array : ByteMemory) (argv : Nat → Option Nat) :
    ∃ a, evalLine array argv (renderLine leading name [(gap, arg)] trailing) = some a ∧
      let c := a.command (renderLine leading name [(gap, arg)] trailing)
      (∃ n, Steps Shell.Step s (.command c :: List.replicate n .read)
        { s with main := .cont bg i }) ∧
      ∀ labels s' b job pid, Steps Shell.Step s (.command c :: labels) s' →
        (∀ c, .command c ∉ labels) → s'.main = .kill b job pid → b = bg ∧ job = i := by
  have htidy := h.tracked.tidy
  obtain ⟨hid, hmatch, honly⟩ := hnames.spec htidy hused
  have hcount : [(gap, arg)].length + 1 < maxArgs := show 1 + 1 < maxArgs by decide
  have hasked := evalLine_renderLine array argv leading name [(gap, arg)] trailing hcount hlength
  have hbegin : Command.begin (.bgfg bg ref) = .lookup bg ref 0 := if_neg (not_lt.mpr hid)
  refine ⟨.bgfg bg ref, ?_, ⟨i + 1, .cons (.command _ hoff hmain) ?_⟩, ?_⟩
  · have hback : background [name.text, ref.text] = (false, [name.text, ref.text]) := by
      refine if_neg ?_
      rintro ⟨last, hlast, hhead⟩
      obtain rfl : ref.text = last := Option.some.inj hlast
      exact JobRef.head_text_ne hid hhead
    rw [hasked, List.map_singleton, harg, hback, hname]
    exact congrArg some ((asked_bgfg bg ref.text).trans (readRef_text bg hid hint))
  · have hreads := @Shell.lookup_reads s bg ref i hoff hmatch
      (fun j hj hother ↦ absurd (honly j hother) (ne_of_lt hj)) i 0 (Nat.zero_add _)
    rw [← hbegin] at hreads
    exact hreads
  · intro labels s' b job pid hsteps hcommand hkill
    cases hsteps with
    | cons hstep hrest =>
      cases hstep with
      | command c hoff' hmain' =>
        have hseeks : Main.Seeks s.table s.table bg ref (Command.begin (.bgfg bg ref)) := by
          rw [hbegin]
          exact ⟨rfl, rfl, fun j hj ↦ absurd hj (Nat.not_lt_zero _)⟩
        have hnone : s.table = s.table.receiveAll [] := rfl
        have hlast := (Shell.table_of_seeks hrest htidy hid hnone hseeks hkill hcommand).2
        rw [hkill] at hlast
        exact ⟨hlast.1, honly job hlast.2.1⟩

theorem bgfg_finds_one : ∃ s a, Shell.Reached [.command (.run true "a &\n"), .block, .fork 100, .add,
      .unblock] s ∧
    evalLine (fun _ ↦ 255) (fun _ ↦ none) (ascii "fg   '%1'\n") = some a ∧
    ∃ n, Steps Shell.Step s (.command (a.command (ascii "fg   '%1'\n")) :: List.replicate n .read)
      { s with main := .cont false 0 } := by
  have hsteps : ∃ s, Steps Shell.Step Shell.start [.command (.run true "a &\n"), .block, .fork 100,
      .add, .unblock] s ∧ s.handler = .off ∧ s.main = .prompt ∧
      s.table = ⟨Function.update JobTable.start.jobs 0 ⟨100, 1, .bg, "a &\n"⟩, 2⟩ := by
    refine ⟨_, .cons (.command _ rfl rfl) <| .cons (.block rfl rfl) <|
      .cons (.fork rfl rfl (by decide) rfl) <| .cons (.add rfl rfl) <|
      .cons (.unblock rfl rfl) .nil, rfl, rfl, rfl⟩
  obtain ⟨s, hsteps, hoff, hmain, htable⟩ := hsteps
  have hreached : Shell.Reached _ s := hsteps.run rfl
  have hunique : s.table.UniqueJids := by
    refine hreached.tracked.tidy.uniqueJids ?_ ?_
    · rw [htable]
      decide
    · rw [htable]
      exact (JobTable.UniqueJids.start.jids).fill fun j hj _ ↦ absurd hj (by revert j; decide)
  have hused : (s.table.jobs 0).InUse := by
    rw [htable]
    decide
  have hnames : s.table.Names 0 (.jid 1) := by
    refine Or.inr ⟨?_, hunique⟩
    rw [htable]
    rfl
  have hline : ascii "fg   '%1'\n" = renderLine 0
      (.bare (ascii "fg") (by decide) (by decide) (by decide) (by decide) (by decide))
      [(2, .quoted (ascii "%1") (by decide) (by decide) (by decide))] 0 := by
    decide
  have hlength : (ascii "fg   '%1'\n").length < maxLine := by decide
  rw [hline] at hlength ⊢
  obtain ⟨a, heval, hreads, -⟩ := bgfg_finds hreached hmain hoff hused hnames (by decide)
    (show _ = ascii (if false then "bg" else "fg") by rfl) (by decide) hlength (fun _ ↦ 255)
    (fun _ ↦ none)
  exact ⟨s, a, hreached, heval, hreads⟩

end SystemProgramming.ShellLab
