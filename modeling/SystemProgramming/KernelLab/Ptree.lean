import SystemProgramming.Library.CString
import SystemProgramming.Library.Scanning

/-!
# The process tree of `dbfs_ptree.c`

A write of a process id to `ptree/input` walks from the task up to its ancestors and puts the line of
each in front of the text in `fstr`. The walk leaves its loop at the task with process id one and
when there is no parent. A task of the kernel has neither among its ancestors: there the chain ends
at the task that is its own parent, and the loop goes round at it until the text has outgrown the
buffers (`Kernel.Lineage.walk_eq_none`). `writePidToInput_iff` says for which tasks the text is what
it should be.
-/

set_option autoImplicit false
set_option relaxedAutoImplicit false

namespace SystemProgramming.KernelLab

open Library

/-! ### The source -/

/-- `MYSIZE`. -/
def mySize : Nat := 1024

/-- The tasks as `write_pid_to_input` finds them: `pidTask` is `pid_task(find_vpid(pid),
PIDTYPE_PID)`, and `comm` is the string in the sixteen bytes of the field. -/
structure Kernel (Task : Type) where
  comm : Task → List UInt8
  pid : Task → Nat
  realParent : Task → Option Task
  pidTask : Nat → Option Task
  length_comm : ∀ t, (comm t).length ≤ 15
  zero_notMem_comm : ∀ t, 0 ∉ comm t
  pid_lt : ∀ t, pid t < 2 ^ 31
  pid_pidTask : ∀ n t, pidTask n = some t → pid t = n

variable {Task : Type}

/-- `sscanf` with `"%u"`, in the kernel: a value that does not fit loses its high bits. -/
def scanPid (userBuffer : List UInt8) : Option Nat :=
  (scanDigits 10 (userBuffer.dropWhile isSpace)).map (· % 2 ^ 32)

/-- The line of a task, `"%s (%d)\n"`. -/
def Kernel.line (k : Kernel Task) (t : Task) : List UInt8 :=
  k.comm t ++ ascii " (" ++ decimal (k.pid t) ++ ascii ")\n"

/-- The `sprintf` and the `strcpy` of a turn: `fstr` and `temp` after it. Neither array has room for
more than `MYSIZE` bytes. -/
def Kernel.prepend (k : Kernel Task) (curr : Task) (fstr temp : ByteMemory) :
    Option (ByteMemory × ByteMemory) := do
  let rest ← readString fstr mySize 0
  if mySize ≤ (k.line curr ++ rest).length then none
  else
    let temp := putString temp 0 (k.line curr ++ rest)
    let text ← readString temp mySize 0
    pure (putString fstr 0 text, temp)

/-- The loop of `write_pid_to_input`, at most so many turns. -/
def Kernel.walk (k : Kernel Task) : Nat → Option Task → ByteMemory → ByteMemory → Option ByteMemory
  | _, none, fstr, _ => some fstr
  | 0, some _, _, _ => none
  | fuel + 1, some curr, fstr, temp => do
    let (fstr, temp) ← k.prepend curr fstr temp
    if k.pid curr = 1 then pure fstr else k.walk fuel (k.realParent curr) fstr temp

/-- The arrays and the variable of `write_pid_to_input` before the call. -/
structure Arrays where
  fstr : ByteMemory
  temp : ByteMemory
  inputPid : Nat

/-- `write_pid_to_input`: the value it returns, and `fstr`. -/
def Kernel.writePidToInput (k : Kernel Task) (fuel : Nat) (arrays : Arrays)
    (userBuffer : List UInt8) (length : Nat) : Option (Nat × ByteMemory) :=
  match k.pidTask ((scanPid userBuffer).getD arrays.inputPid) with
  | none => some (length, arrays.fstr)
  | some curr => do
    let fstr ← k.walk fuel (some curr) (fun a ↦ if a < mySize then 0 else arrays.fstr a) arrays.temp
    pure (length, fstr)

/-! ### The text of a task -/

/-- A task and its ancestors up to the topmost: the one with process id one, one that has no parent,
or one that is its own parent. -/
inductive Kernel.Lineage (k : Kernel Task) : Task → List Task → Prop
  | init (t : Task) (hpid : k.pid t = 1) : Lineage k t [t]
  | orphan (t : Task) (hparent : k.realParent t = none) : Lineage k t [t]
  | idle (t : Task) (hparent : k.realParent t = some t) : Lineage k t [t]
  | child (t parent : Task) (ts : List Task) (hpid : k.pid t ≠ 1)
      (hparent : k.realParent t = some parent) (hne : parent ≠ t) (h : Lineage k parent ts) :
      Lineage k t (t :: ts)

/-- The lines of the tasks, the topmost first. -/
def Kernel.text (k : Kernel Task) (ts : List Task) : List UInt8 := ts.reverse.flatMap k.line

/-- The text of the task and its ancestors is in `fstr`, with a zero byte behind it, within its
`MYSIZE` bytes. -/
def Kernel.Shows (k : Kernel Task) (t : Task) (fstr : ByteMemory) : Prop :=
  ∃ ts, k.Lineage t ts ∧ StringAt fstr 0 (k.text ts) ∧ (k.text ts).length < mySize

/-- The loop ends at the topmost ancestor. -/
def Kernel.Grounded (k : Kernel Task) (ts : List Task) : Prop :=
  ∀ top ∈ ts.getLast?, k.pid top = 1 ∨ k.realParent top = none

theorem Kernel.text_cons (k : Kernel Task) (t : Task) (ts : List Task) :
    k.text (t :: ts) = k.text ts ++ k.line t := by
  simp [Kernel.text]

theorem Kernel.Lineage.ne_nil {k : Kernel Task} {t : Task} {ts : List Task}
    (h : k.Lineage t ts) : ts ≠ [] := by
  cases h <;> exact List.cons_ne_nil _ _

theorem zero_notMem_decimal (n : Nat) : 0 ∉ decimal n := fun h ↦
  absurd (isDigit_decimal n 0 h) (by decide)

theorem Kernel.zero_notMem_line (k : Kernel Task) (t : Task) : 0 ∉ k.line t := by
  have hopen : (0 : UInt8) ∉ ascii " (" := by decide
  have hclose : (0 : UInt8) ∉ ascii ")\n" := by decide
  simp [Kernel.line, k.zero_notMem_comm t, zero_notMem_decimal, hopen, hclose]

/-! ### The loop -/

/-- A turn puts a line in front of the text, unless there is no room. -/
theorem Kernel.prepend_eq (k : Kernel Task) (curr : Task) {fstr : ByteMemory} (temp : ByteMemory)
    {s : List UInt8} (hs : StringAt fstr 0 s) (hzero : 0 ∉ s) (hroom : s.length < mySize) :
    k.prepend curr fstr temp =
      if mySize ≤ (k.line curr ++ s).length then none
      else some (putString fstr 0 (k.line curr ++ s), putString temp 0 (k.line curr ++ s)) := by
  have hline : 0 ∉ k.line curr ++ s := by simp [k.zero_notMem_line, hzero]
  rw [Kernel.prepend, readString_eq mySize hs hroom]
  dsimp only [bind, Option.bind]
  by_cases hfull : mySize ≤ (k.line curr ++ s).length
  · rw [if_pos hfull, if_pos hfull]
  · rw [if_neg hfull, if_neg hfull, readString_eq mySize (stringAt_putString temp 0 hline) (by omega)]
    rfl

section Walk

variable {k : Kernel Task} {t : Task} {ts : List Task} {fstr : ByteMemory} {s : List UInt8}

/-- A turn of the loop with room for the line. -/
theorem Kernel.walk_succ (k : Kernel Task) (t : Task) (temp : ByteMemory)
    (hs : StringAt fstr 0 s) (hzero : 0 ∉ s) (hroom : s.length < mySize)
    (hline : (k.line t ++ s).length < mySize) :
    ∃ fstr' temp', StringAt fstr' 0 (k.line t ++ s) ∧ ∀ fuel,
      k.walk (fuel + 1) (some t) fstr temp =
        if k.pid t = 1 then some fstr' else k.walk fuel (k.realParent t) fstr' temp' := by
  have hprepend := k.prepend_eq t temp hs hzero hroom
  rw [if_neg (by omega)] at hprepend
  refine ⟨putString fstr 0 (k.line t ++ s), putString temp 0 (k.line t ++ s),
    stringAt_putString fstr 0 (by simp [k.zero_notMem_line, hzero]), fun fuel ↦ ?_⟩
  rw [Kernel.walk, hprepend]
  rfl

/-- A turn without room. -/
theorem Kernel.walk_full (k : Kernel Task) (t : Task) (temp : ByteMemory)
    (hs : StringAt fstr 0 s) (hzero : 0 ∉ s) (hroom : s.length < mySize)
    (hline : mySize ≤ (k.line t ++ s).length) (fuel : Nat) :
    k.walk fuel (some t) fstr temp = none := by
  cases fuel with
  | zero => rfl
  | succ fuel =>
    have hprepend := k.prepend_eq t temp hs hzero hroom
    rw [if_pos hline] at hprepend
    rw [Kernel.walk, hprepend]
    rfl

/-- The topmost ancestor at which the loop ends. -/
theorem Kernel.walk_top (k : Kernel Task) (t : Task) (temp : ByteMemory)
    (htop : k.pid t = 1 ∨ k.realParent t = none)
    (hs : StringAt fstr 0 s) (hzero : 0 ∉ s) (hroom : s.length < mySize) :
    if (k.line t ++ s).length < mySize then
      ∃ fstr', StringAt fstr' 0 (k.line t ++ s) ∧
        ∀ fuel, 1 ≤ fuel → k.walk fuel (some t) fstr temp = some fstr'
    else ∀ fuel, k.walk fuel (some t) fstr temp = none := by
  split_ifs with hline
  · obtain ⟨fstr', temp', htext, hwalk⟩ := k.walk_succ t temp hs hzero hroom hline
    refine ⟨fstr', htext, fun fuel hfuel ↦ ?_⟩
    obtain ⟨fuel, rfl⟩ := Nat.exists_eq_add_of_le' hfuel
    rw [hwalk]
    rcases htop with hpid | hparent
    · rw [if_pos hpid]
    · rw [hparent, Kernel.walk, ite_self]
  · exact k.walk_full t temp hs hzero hroom (by omega)

/-- Where the text of the ancestors has room, the walk puts it in front; otherwise it never ends. -/
theorem Kernel.Lineage.walk (h : k.Lineage t ts) (hground : k.Grounded ts) (temp : ByteMemory)
    (hs : StringAt fstr 0 s) (hzero : 0 ∉ s) (hroom : s.length < mySize) :
    if (k.text ts ++ s).length < mySize then
      ∃ fstr', StringAt fstr' 0 (k.text ts ++ s) ∧
        ∀ fuel, ts.length ≤ fuel → k.walk fuel (some t) fstr temp = some fstr'
    else ∀ fuel, k.walk fuel (some t) fstr temp = none := by
  have hsingle : ∀ t, k.text [t] = k.line t := fun t ↦ by simp [Kernel.text]
  induction h generalizing s fstr temp with
  | init t _ => exact hsingle t ▸ k.walk_top t temp (hground t rfl) hs hzero hroom
  | orphan t _ => exact hsingle t ▸ k.walk_top t temp (hground t rfl) hs hzero hroom
  | idle t _ => exact hsingle t ▸ k.walk_top t temp (hground t rfl) hs hzero hroom
  | child t parent ts hpid hparent hne h ih =>
    rw [k.text_cons, List.append_assoc]
    by_cases hline : (k.line t ++ s).length < mySize
    · obtain ⟨fstr', temp', htext, hwalk⟩ := k.walk_succ t temp hs hzero hroom hline
      simp only [if_neg hpid, hparent] at hwalk
      have hgroundParent : k.Grounded ts := fun top htop ↦
        hground top (by rwa [List.getLast?_cons_of_ne_nil h.ne_nil])
      have hrest := ih hgroundParent temp' htext
        (by simp [k.zero_notMem_line, hzero]) hline
      split_ifs at hrest ⊢
      · obtain ⟨last, hlast, hfuel⟩ := hrest
        refine ⟨last, hlast, fun fuel hle ↦ ?_⟩
        obtain ⟨fuel, rfl⟩ := Nat.exists_eq_add_of_le' (Nat.one_le_of_lt hle)
        rw [List.length_cons, Nat.add_le_add_iff_right] at hle
        rw [hwalk, hfuel fuel hle]
      · intro fuel
        cases fuel with
        | zero => rfl
        | succ fuel => rw [hwalk, hrest fuel]
    · rw [if_neg (by rw [List.length_append]; omega)]
      exact k.walk_full t temp hs hzero hroom (by omega)

/-- At a task that is its own parent the walk never ends. -/
theorem Kernel.walk_idle (k : Kernel Task) (t : Task) (temp : ByteMemory) (hpid : k.pid t ≠ 1)
    (hparent : k.realParent t = some t) (hs : StringAt fstr 0 s) (hzero : 0 ∉ s)
    (hroom : s.length < mySize) (fuel : Nat) : k.walk fuel (some t) fstr temp = none := by
  induction fuel generalizing s fstr temp with
  | zero => rfl
  | succ fuel ih =>
    by_cases hline : (k.line t ++ s).length < mySize
    · obtain ⟨fstr', temp', htext, hwalk⟩ := k.walk_succ t temp hs hzero hroom hline
      rw [hwalk, if_neg hpid, hparent]
      exact ih temp' htext (by simp [k.zero_notMem_line, hzero]) hline
    · exact k.walk_full t temp hs hzero hroom (by omega) _

theorem Kernel.Lineage.walk_eq_none (h : k.Lineage t ts) (hground : ¬ k.Grounded ts)
    (temp : ByteMemory) (hs : StringAt fstr 0 s) (hzero : 0 ∉ s) (hroom : s.length < mySize)
    (fuel : Nat) : k.walk fuel (some t) fstr temp = none := by
  induction h generalizing s fstr temp fuel with
  | init t hpid => exact absurd (fun top htop ↦ Or.inl (Option.some.inj htop ▸ hpid)) hground
  | orphan t hparent => exact absurd (fun top htop ↦ Or.inr (Option.some.inj htop ▸ hparent)) hground
  | idle t hparent =>
    have hpid : k.pid t ≠ 1 := fun hpid ↦
      hground fun top htop ↦ Or.inl (Option.some.inj htop ▸ hpid)
    exact k.walk_idle t temp hpid hparent hs hzero hroom fuel
  | child t parent ts hpid hparent hne h ih =>
    have hgroundParent : ¬ k.Grounded ts := fun hts ↦ hground fun top htop ↦
      hts top (by rwa [List.getLast?_cons_of_ne_nil h.ne_nil] at htop)
    cases fuel with
    | zero => rfl
    | succ fuel =>
      by_cases hline : (k.line t ++ s).length < mySize
      · obtain ⟨fstr', temp', htext, hwalk⟩ := k.walk_succ t temp hs hzero hroom hline
        rw [hwalk, if_neg hpid, hparent]
        exact ih hgroundParent temp' htext (by simp [k.zero_notMem_line, hzero]) hline fuel
      · exact k.walk_full t temp hs hzero hroom (by omega) _

end Walk

/-! ### The file -/

def newline : UInt8 := 10

/-- A process id is read from its decimal numeral and a newline. -/
theorem scanPid_decimal {pid : Nat} (hpid : pid < 2 ^ 32) (rest : List UInt8) :
    scanPid (decimal pid ++ newline :: rest) = some pid := by
  have hdrop : (decimal pid ++ newline :: rest).dropWhile isSpace =
      decimal pid ++ newline :: rest := by
    obtain ⟨c, digits, hdigits⟩ := List.exists_cons_of_ne_nil (decimal_ne_nil pid)
    have hc := (isDigit.ne (isDigit_decimal pid c (hdigits ▸ List.mem_cons_self))).1
    rw [hdigits, List.cons_append, List.dropWhile_cons, if_neg (by simp [hc])]
  have hends : EndsNumeral 10 (newline :: rest) := fun c hc ↦ by
    obtain rfl : newline = c := Option.some.inj hc
    decide
  rw [scanPid, hdrop, scanDigits_eq (decimal_ne_nil pid) (isDigit_decimal pid) hends,
    numeral_decimal, Option.map_some, Nat.mod_eq_of_lt hpid]

/-- The process id of a task is written, and the walk starts at the task. -/
theorem Kernel.writePidToInput_eq (k : Kernel Task) {pid : Nat} {t : Task}
    (ht : k.pidTask pid = some t) (fuel : Nat) (arrays : Arrays) (rest : List UInt8)
    (length : Nat) :
    k.writePidToInput fuel arrays (decimal pid ++ newline :: rest) length =
      (k.walk fuel (some t) (fun a ↦ if a < mySize then 0 else arrays.fstr a) arrays.temp).map
        (length, ·) := by
  have hlt : pid < 2 ^ 32 := by
    have hpid := k.pid_lt t
    rw [k.pid_pidTask pid t ht] at hpid
    omega
  simp only [Kernel.writePidToInput, scanPid_decimal hlt, Option.getD_some, ht]
  cases k.walk fuel (some t) (fun a ↦ if a < mySize then 0 else arrays.fstr a) arrays.temp <;> rfl

/-- The loop ends, with the text of the task and its ancestors in `fstr`, exactly for the tasks whose
topmost ancestor has process id one or no parent, and whose text has room. -/
theorem Kernel.writePidToInput_iff (k : Kernel Task) (pid : Nat) {t : Task}
    (ht : k.pidTask pid = some t) (arrays : Arrays) (rest : List UInt8) (length : Nat) :
    (∃ fuel fstr, k.writePidToInput fuel arrays (decimal pid ++ newline :: rest) length =
      some (length, fstr) ∧ k.Shows t fstr) ↔
        ∃ ts, k.Lineage t ts ∧ k.Grounded ts ∧ (k.text ts).length < mySize := by
  have hempty : StringAt (fun a ↦ if a < mySize then 0 else arrays.fstr a) 0 [] := rfl
  have hzero : (0 : UInt8) ∉ ([] : List UInt8) := List.not_mem_nil
  simp only [k.writePidToInput_eq ht, Option.map_eq_some_iff, Prod.mk.injEq, true_and,
    exists_eq_right]
  constructor
  · rintro ⟨fuel, fstr, hwalk, ts, hlineage, -, hlength⟩
    refine ⟨ts, hlineage, ?_, hlength⟩
    by_contra hground
    rw [hlineage.walk_eq_none hground arrays.temp hempty hzero (by decide) fuel] at hwalk
    cases hwalk
  · rintro ⟨ts, hlineage, hground, hlength⟩
    have hwalk := hlineage.walk hground arrays.temp hempty hzero (by decide)
    rw [List.append_nil, if_pos hlength] at hwalk
    obtain ⟨fstr, htext, hfuel⟩ := hwalk
    exact ⟨ts.length, fstr, hfuel _ le_rfl, ts, hlineage, htext, hlength⟩

/-- Every chain of parents is finite, but for the task with process id zero, which is its own
parent. -/
structure Kernel.Forest (k : Kernel Task) : Prop where
  lineage : ∀ t, ∃ ts, k.Lineage t ts
  idle : ∀ t, k.realParent t = some t → k.pid t = 0

/-- The idle task, the first process, the parent of the kernel's threads, and a shell. -/
def fourTasks : Kernel (Fin 4) where
  comm := fun t ↦ [ascii "swapper/0", ascii "init", ascii "kthreadd", ascii "bash"].get t
  pid := fun t ↦ [0, 1, 2, 2407].get t
  realParent := fun t ↦ [some 0, some 0, some 0, some 1].get t
  pidTask := fun n ↦ if n = 1 then some 1 else if n = 2 then some 2
    else if n = 2407 then some 3 else none
  length_comm := by decide
  zero_notMem_comm := by decide
  pid_lt := by decide
  pid_pidTask := fun n t ht ↦ by
    split_ifs at ht with h₁ h₂ h₃
    · obtain rfl := Option.some.inj ht
      exact h₁.symm
    · obtain rfl := Option.some.inj ht
      exact h₂.symm
    · obtain rfl := Option.some.inj ht
      exact h₃.symm

theorem fourTasks_forest : fourTasks.Forest where
  lineage := fun t ↦ match t with
    | 0 => ⟨[0], .idle 0 rfl⟩
    | 1 => ⟨[1], .init 1 rfl⟩
    | 2 => ⟨[2, 0], .child 2 0 [0] (by decide) rfl (by decide) (.idle 0 rfl)⟩
    | 3 => ⟨[3, 1], .child 3 1 [1] (by decide) rfl (by decide) (.init 1 rfl)⟩
  idle := by decide

/-- The shell. -/
theorem Kernel.writePidToInput_iff_bash : ∃ fuel fstr,
    fourTasks.writePidToInput fuel ⟨fun _ ↦ 255, fun _ ↦ 255, 0⟩ (decimal 2407 ++ newline :: []) 5 =
      some (5, fstr) ∧ fourTasks.Shows 3 fstr :=
  (fourTasks.writePidToInput_iff 2407 rfl ⟨fun _ ↦ 255, fun _ ↦ 255, 0⟩ [] 5).mpr
    ⟨[3, 1], .child 3 1 [1] (by decide) rfl (by decide) (.init 1 rfl),
      fun top htop ↦ Or.inl (by cases htop; rfl), by decide⟩

/-- The parent of the kernel's threads. -/
theorem Kernel.writePidToInput_kthreadd : fourTasks.Forest ∧ ¬ ∃ fuel fstr,
    fourTasks.writePidToInput fuel ⟨fun _ ↦ 255, fun _ ↦ 255, 0⟩ (decimal 2 ++ newline :: []) 2 =
      some (2, fstr) ∧ fourTasks.Shows 2 fstr := by
  refine ⟨fourTasks_forest, ?_⟩
  rintro ⟨fuel, fstr, hwrite, -⟩
  have hlineage : fourTasks.Lineage 2 [2, 0] :=
    .child 2 0 [0] (by decide) rfl (by decide) (.idle 0 rfl)
  have hground : ¬ fourTasks.Grounded [2, 0] := fun h ↦ absurd (h 0 rfl) (by decide)
  have hempty : StringAt (fun a ↦ if a < mySize then 0 else 255) 0 [] := rfl
  rw [fourTasks.writePidToInput_eq (t := 2) rfl, hlineage.walk_eq_none hground (fun _ ↦ 255) hempty
    List.not_mem_nil (by decide)] at hwrite
  cases hwrite

end SystemProgramming.KernelLab
