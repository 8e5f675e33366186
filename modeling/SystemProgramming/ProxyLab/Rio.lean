import SystemProgramming.Library.Buffered
import SystemProgramming.ProxyLab.CacheList

/-!
# The Rio functions of `csapp.c`

`rio_readnb` reads so many bytes and `rio_readlineb` a line, both from a buffer that `rio_read`
fills. At the end of the input `rio_readlineb` leaves the caller's array alone when it has read
nothing. Of the array into which it reads only the bytes before the zero byte that it puts behind
them are kept here. Errors other than an interruption end the program and are left out.
-/

set_option autoImplicit false
set_option relaxedAutoImplicit false

namespace SystemProgramming.ProxyLab

open Library

/-- `RIO_BUFSIZE`. -/
def rioBufSize : Nat := 8192

/-- `MAXLINE`. -/
def maxLine : Nat := 8192

/-- `rio_t`. -/
abbrev Rio := Buffered rioBufSize

/-- `rio_readinitb`: nothing is buffered. -/
def rioReadinitb (arriving : List (Arrival rioBufSize)) : Rio := ⟨[], arriving⟩

def newline : UInt8 := 10

/-- `rio_readnb`, with the bytes that it puts into the array; it returns their number. -/
def rioReadnb (rp : Rio) (nleft : Nat) : Bytes × Rio :=
  if nleft = 0 then ([], rp)
  else if _hread : (rp.read nleft).1 = [] then ([], (rp.read nleft).2)
  else
    let rest := rioReadnb (rp.read nleft).2 (nleft - (rp.read nleft).1.length)
    ((rp.read nleft).1 ++ rest.1, rest.2)
  termination_by nleft
  decreasing_by
    have := List.length_pos_of_ne_nil _hread
    omega

/-- The loop of `rio_readlineb`: the bytes that it puts into the array, and whether it met the end
of the input. -/
def readLine : Nat → Rio → Bytes × Bool × Rio
  | 0, rp => ([], false, rp)
  | room + 1, rp =>
    match (rp.read 1).1 with
    | [] => ([], true, (rp.read 1).2)
    | c :: _ =>
      if c = newline then ([c], false, (rp.read 1).2)
      else
        let rest := readLine room (rp.read 1).2
        (c :: rest.1, rest.2)

/-- What `rio_readlineb` returns and leaves: in the array `usrbuf`, the bytes before the zero
byte. -/
structure Line where
  n : Nat
  usrbuf : Bytes
  rp : Rio

/-- `rio_readlineb`. The loop counts from one, and the newline is not counted again. -/
def rioReadlineb (rp : Rio) (usrbuf : Bytes) (maxlen : Nat) : Line :=
  let line := readLine (maxlen - 1) rp
  if line.2.1 ∧ line.1 = [] then ⟨0, usrbuf, line.2.2⟩
  else if line.1.getLast? = some newline then ⟨line.1.length, line.1, line.2.2⟩
  else ⟨line.1.length + 1, line.1, line.2.2⟩

/-- As much is read as there is, and no more than is asked for. -/
theorem rioReadnb_eq (rp : Rio) (n : Nat) :
    (rioReadnb rp n).1 = rp.stream.take n ∧ (rioReadnb rp n).2.stream = rp.stream.drop n := by
  induction n using Nat.strongRecOn generalizing rp with
  | _ n ih =>
    have happend := rp.read_append n
    have hlength := rp.length_read_le n
    rw [rioReadnb]
    by_cases hn : n = 0
    · simp [hn]
    rw [if_neg hn]
    by_cases hread : (rp.read n).1 = []
    · rw [dif_pos hread]
      have hend : rp.stream = [] := by
        by_contra hmore
        exact Buffered.read_ne_nil (by omega) hmore hread
      rw [hread, List.nil_append, hend] at happend
      simp [hend, happend]
    · rw [dif_neg hread]
      dsimp only
      have hpos := List.length_pos_of_ne_nil hread
      obtain ⟨hbytes, hrest⟩ := ih (n - (rp.read n).1.length) (by omega) (rp.read n).2
      refine ⟨?_, ?_⟩
      · rw [hbytes, ← happend, List.take_append, List.take_of_length_le hlength]
      · rw [hrest, ← happend, List.drop_append, List.drop_of_length_le hlength, List.nil_append]

end SystemProgramming.ProxyLab
