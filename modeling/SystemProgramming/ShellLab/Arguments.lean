import SystemProgramming.ShellLab.Parseline

/-!
# The number of arguments

The loop of `parseline` has no bound of its own: it fills as many entries of `argv` as the line has
arguments. It stays within `argv` where these are fewer than `maxArgs`, so that the null pointer
after them has an entry as well, and it always stays within `array`.
-/

set_option autoImplicit false
set_option relaxedAutoImplicit false

namespace SystemProgramming.ShellLab

open Library

/-- The number of arguments of a text, from left to right. An argument begins behind the spaces and
goes up to the next space, or up to the next quote if it begins with one. It counts once it has
ended. -/
def countArgs : Option UInt8 → List UInt8 → Nat
  | _, [] => 0
  | none, c :: s =>
    if c = space then countArgs none s
    else if c = quote then countArgs (some quote) s
    else countArgs (some space) s
  | some delim, c :: s => if c = delim then countArgs none s + 1 else countArgs (some delim) s

/-- The line as `parseline` splits it: its last byte is replaced by a space. -/
def spaced (cmdline : List UInt8) : List UInt8 := cmdline.dropLast ++ [space]

/-- What `fgets` reads into `maxLine` bytes: a newline is the last byte, and there is a zero byte
only behind it. -/
structure FgetsLine (cmdline : List UInt8) : Prop where
  hnonempty : cmdline ≠ []
  hfits : cmdline.length < maxLine
  hnul : 0 ∉ cmdline
  hnewline : newline ∉ cmdline.dropLast

theorem countArgs_skip (n : Nat) (s : List UInt8) :
    countArgs none (List.replicate n space ++ s) = countArgs none s := by
  induction n with
  | zero => rfl
  | succ n ih => rw [List.replicate_succ, List.cons_append, countArgs, if_pos rfl, ih]

theorem countArgs_delim {delim : UInt8} {t : List UInt8} (ht : delim ∉ t) (s : List UInt8) :
    countArgs (some delim) (t ++ delim :: s) = countArgs none s + 1 := by
  induction t with
  | nil => exact if_pos rfl
  | cons c t ih =>
    rw [List.mem_cons, not_or] at ht
    rw [List.cons_append, countArgs, if_neg (Ne.symm ht.1), ih ht.2]

theorem countArgs_open {delim : UInt8} {s : List UInt8} (hs : delim ∉ s) :
    countArgs (some delim) s = 0 := by
  induction s with
  | nil => rfl
  | cons c s ih =>
    rw [List.mem_cons, not_or] at hs
    rw [countArgs, if_neg (Ne.symm hs.1), ih hs.2]

/-- Each argument takes two bytes at least. -/
theorem two_mul_countArgs_le (s : List UInt8) :
    2 * countArgs none s ≤ s.length ∧ ∀ delim, 2 * countArgs (some delim) s ≤ s.length + 1 := by
  induction s with
  | nil => exact ⟨Nat.le_refl 0, fun _ ↦ Nat.zero_le _⟩
  | cons c s ih =>
    obtain ⟨hnone, hsome⟩ := ih
    constructor
    · rw [countArgs]
      split_ifs
      · exact hnone.trans (Nat.le_succ _)
      · exact hsome quote
      · exact hsome space
    · intro delim
      have hopen := hsome delim
      rw [countArgs, List.length_cons]
      split_ifs <;> omega

/-! ### The loop -/

section Loop

variable {array : ByteMemory} {buf : Nat} {s : List UInt8}

/-- Up to the delimiter of an argument, or to the end of the text without one. -/
theorem findDelim_cases (h : StringAt array buf s) (hhead : s.head? ≠ some space)
    (hline : buf + s.length < maxLine) :
    (∃ start, findDelim array buf = some (start, none) ∧ countArgs none s = 0) ∨
    ∃ start delim rest, findDelim array buf = some (start, some delim) ∧ buf ≤ delim ∧
      StringAt array (delim + 1) rest ∧ delim + 1 + rest.length = buf + s.length ∧
      countArgs none s = countArgs none rest + 1 := by
  by_cases hquote : array buf = quote
  · obtain ⟨s, rfl⟩ : ∃ t, s = quote :: t := by
      cases s with
      | nil => exact absurd (h.symm.trans hquote) (by decide)
      | cons c t => exact ⟨t, by rw [← hquote, h.1]⟩
    have hcount : countArgs none (quote :: s) = countArgs (some quote) s := rfl
    rw [List.length_cons] at hline ⊢
    rw [findDelim, if_pos hquote, hcount]
    by_cases hmem : quote ∈ s
    · obtain ⟨t, rest, rfl, ht⟩ := List.eq_append_cons_of_mem hmem
      rw [List.length_append, List.length_cons] at hline ⊢
      rw [strchr_eq_some _ h.2.2 ht (by omega), countArgs_delim ht]
      exact Or.inr ⟨buf + 1, _, rest, rfl, by omega, h.2.2.drop.2.2, by omega, rfl⟩
    · rw [strchr_eq_none _ h.2.2 hmem (by decide) (by omega), countArgs_open hmem]
      exact Or.inl ⟨buf + 1, rfl, rfl⟩
  · have hcount : countArgs none s = countArgs (some space) s := by
      cases s with
      | nil => rfl
      | cons c s =>
        have hspace : c ≠ space := fun heq ↦ hhead (congrArg some heq)
        have hc : c ≠ quote := fun heq ↦ hquote (h.1.trans heq)
        rw [countArgs, countArgs, if_neg hspace, if_neg hc, if_neg hspace]
    rw [findDelim, if_neg hquote, hcount]
    by_cases hmem : space ∈ s
    · obtain ⟨t, rest, rfl, ht⟩ := List.eq_append_cons_of_mem hmem
      rw [List.length_append, List.length_cons] at hline ⊢
      rw [strchr_eq_some _ h ht (by omega), countArgs_delim ht]
      exact Or.inr ⟨buf, _, rest, rfl, by omega, h.drop.2.2, by omega, rfl⟩
    · rw [strchr_eq_none _ h hmem (by decide) (by omega), countArgs_open hmem]
      exact Or.inl ⟨buf, rfl, rfl⟩

/-- The loop fills an entry for each argument and one more, and needs room for them and for nothing
else. -/
theorem buildArgv_isSome (room : Nat) (argv : Nat → Option Nat) (argc : Nat)
    (h : StringAt array buf s) (hhead : s.head? ≠ some space) (hline : buf + s.length < maxLine) :
    ∃ start delim, findDelim array buf = some (start, delim) ∧
      ((buildArgv room array argv argc start delim).isSome ↔ countArgs none s < room) := by
  induction room generalizing array buf s argv argc with
  | zero =>
    obtain ⟨start, hfind, -⟩ | ⟨start, delim, rest, hfind, -⟩ := findDelim_cases h hhead hline
    · exact ⟨start, none, hfind, by simp [buildArgv]⟩
    · exact ⟨start, some delim, hfind, by simp [buildArgv]⟩
  | succ room ih =>
    obtain ⟨start, hfind, hcount⟩ | ⟨start, delim, rest, hfind, hle, hrest, hlength, hcount⟩ :=
      findDelim_cases h hhead hline
    · exact ⟨start, none, hfind, by simp [buildArgv, hcount]⟩
    · refine ⟨start, some delim, hfind, ?_⟩
      obtain ⟨n, t, rfl, ht⟩ := exists_replicate_append space rest
      rw [List.length_append, List.length_replicate] at hlength
      have hcut : StringAt (Function.update array delim 0) (delim + 1)
          (List.replicate n space ++ t) :=
        hrest.congr fun a hlow _ ↦ Function.update_of_ne (by omega) _ _
      have hskip := skip_eq (maxLine - (delim + 1)) hcut ht (by omega)
      have hnext := hcut.drop
      rw [List.length_replicate] at hnext
      obtain ⟨start', delim', hfind', hiff⟩ :=
        ih (Function.update argv argc (some start)) (argc + 1) hnext ht (by omega)
      rw [hcount, countArgs_skip, Nat.add_lt_add_iff_right, ← hiff, buildArgv]
      simp only [hskip, hfind', Option.bind_eq_bind, Option.bind_some]

/-- The arguments begin in `array`, and so the first byte of the last one is read there. -/
theorem buildArgv_lt {room argc start argc' i : Nat} {argv argv' : Nat → Option Nat}
    {delim : Option Nat} {array' : ByteMemory} (hfind : findDelim array buf = some (start, delim))
    (hbuild : buildArgv room array argv argc start delim = some (array', argv', argc'))
    (hargv : ∀ i < argc, ∃ p < maxLine, argv i = some p) (hi : i < argc') :
    ∃ p < maxLine, argv' i = some p := by
  induction room generalizing array buf argv argc start delim with
  | zero => cases hbuild
  | succ room ih =>
    cases delim with
    | none =>
      rw [buildArgv] at hbuild
      cases hbuild
      rw [Function.update_of_ne (Nat.ne_of_lt hi)]
      exact hargv i hi
    | some delim =>
      rw [buildArgv] at hbuild
      simp only [Option.bind_eq_bind, Option.bind_eq_some_iff] at hbuild
      obtain ⟨next, -, ⟨start', delim'⟩, hfind', hbuild⟩ := hbuild
      refine ih hfind' hbuild fun j hj ↦ ?_
      obtain hj | rfl := Nat.lt_succ_iff_lt_or_eq.mp hj
      · rw [Function.update_of_ne (Nat.ne_of_lt hj)]
        exact hargv j hj
      · refine ⟨start, ?_, Function.update_self _ _ _⟩
        rw [findDelim] at hfind
        split_ifs at hfind
        all_goals
          simp only [Option.map_eq_some_iff, Prod.mk.injEq] at hfind
          obtain ⟨found, hfound, rfl, rfl⟩ := hfind
          have hrange := strchr_range hfound
          omega

end Loop
/-! ### The whole line -/

/-- `parseline` splits the line by its loop, and reads the last argument where the loop has stored
it. -/
theorem parseline_isSome (array : ByteMemory) (argv : Nat → Option Nat) {cmdline : List UInt8}
    (h : FgetsLine cmdline) :
    (parseline array argv cmdline).isSome ↔ countArgs none (spaced cmdline) < maxArgs := by
  obtain ⟨hnonempty, hline, hnul, -⟩ := h
  obtain ⟨line, c, rfl⟩ : ∃ line c, cmdline = line ++ [c] :=
    ⟨_, _, (List.dropLast_append_getLast hnonempty).symm⟩
  have hcopy := stringAt_putString array 0 hnul
  have hstrlen := strlen_eq maxLine hcopy hline
  have hset := hcopy.set (d := space) (by decide)
  rw [spaced, List.dropLast_concat]
  rw [Nat.zero_add] at hset
  rw [List.length_append, List.length_singleton] at hstrlen hline
  obtain ⟨n, s, hs, hhead⟩ := exists_replicate_append space (line ++ [space])
  have hlength := congrArg List.length hs
  simp only [List.length_append, List.length_singleton, List.length_replicate] at hlength
  rw [hs] at hset ⊢
  have hskip := skip_eq maxLine hset hhead (by omega)
  have hfirst := hset.drop
  rw [Nat.zero_add] at hskip
  rw [Nat.zero_add, List.length_replicate] at hfirst
  obtain ⟨start, delim, hfind, hiff⟩ :=
    buildArgv_isSome maxArgs argv 0 hfirst hhead (by omega)
  have hguard : (line ++ [c]).length < maxLine := by
    rw [List.length_append, List.length_singleton]
    exact hline
  rw [countArgs_skip, ← hiff]
  simp only [parseline, guard, if_pos hguard, hstrlen, if_pos (Nat.succ_ne_zero line.length),
    Nat.add_sub_cancel, hskip, hfind, Option.pure_def, Option.bind_eq_bind, Option.bind_some]
  cases hbuild : buildArgv maxArgs
      (Function.update (putString array 0 (line ++ [c])) line.length space) argv 0 start delim with
  | none => rfl
  | some built =>
    obtain ⟨array', argv', argc⟩ := built
    rw [Option.bind_some, Option.isSome_some]
    refine iff_of_true ?_ rfl
    by_cases hargc : argc = 0
    · rw [if_pos hargc]
      rfl
    · obtain ⟨p, -, hp⟩ := buildArgv_lt (i := argc - 1) hfind hbuild
        (fun i hi ↦ absurd hi (Nat.not_lt_zero i)) (by omega)
      rw [if_neg hargc]
      dsimp only
      rw [hp, Option.bind_some]
      split_ifs <;> rfl

/-- `parseline` stays within `argv` and `array` just if the line has fewer arguments than `argv` has
entries. -/
theorem parseline_stays_inside_iff (array : ByteMemory) (argv : Nat → Option Nat)
    (cmdline : List UInt8) (h : FgetsLine cmdline) :
    (∃ parsed, parseline array argv cmdline = some parsed) ↔
      countArgs none (spaced cmdline) < maxArgs := by
  rw [← parseline_isSome array argv h, Option.isSome_iff_exists]

/-- The line `ls` is within them. -/
theorem parseline_stays_inside_ls : FgetsLine [108, 115, 10] ∧
    ∃ parsed, parseline (fun _ ↦ 0) (fun _ ↦ none) [108, 115, 10] = some parsed := by
  have h : FgetsLine [108, 115, 10] := ⟨by decide, by decide, by decide, by decide⟩
  exact ⟨h, (parseline_stays_inside_iff _ _ _ h).mpr (by decide)⟩

/-- A line of `n` letters with a space behind each, and a newline for the last space. -/
def letters (n : Nat) : List UInt8 := (List.replicate n [97, space]).flatten.dropLast ++ [newline]

/-- As many arguments as `argv` has entries leave none for the null pointer. -/
theorem parseline_leaves_argv : ¬ ∀ (array : ByteMemory) (argv : Nat → Option Nat)
    (cmdline : List UInt8), FgetsLine cmdline → ∃ parsed, parseline array argv cmdline = some parsed := by
  intro hall
  have hline : FgetsLine (letters maxArgs) :=
    ⟨by decide +kernel, by decide +kernel, by decide +kernel, by decide +kernel⟩
  have hsome := Option.isSome_iff_exists.mpr (hall (fun _ ↦ 0) (fun _ ↦ none) _ hline)
  rw [parseline_isSome _ _ hline] at hsome
  exact absurd hsome (by decide +kernel)

/-- No line that is shorter than twice `argv` has so many arguments. -/
theorem parseline_isSome_of_short (array : ByteMemory) (argv : Nat → Option Nat)
    {cmdline : List UInt8} (h : FgetsLine cmdline) (hshort : cmdline.length < 2 * maxArgs) :
    (parseline array argv cmdline).isSome := by
  rw [parseline_isSome array argv h]
  have hcount := (two_mul_countArgs_le (spaced cmdline)).1
  have hlength : (spaced cmdline).length = cmdline.length := by
    have hpos := List.length_pos_of_ne_nil h.hnonempty
    rw [spaced, List.length_append, List.length_dropLast, List.length_singleton]
    omega
  omega

end SystemProgramming.ShellLab
