import SystemProgramming.Library.ByteMemory
import SystemProgramming.Library.StateProgram

/-!
# The simulated memory system of `memlib.c`

`Heap` holds the static variables of `memlib.c` and of `mm.c` together with the bytes of memory.
Addresses and words have thirty-two bits. The only memory the allocator may touch is the arena that
`mem_init` takes from the C library, from `mem_start_brk` up to `mem_max_addr`: a read or a write
outside it is undefined behaviour in C and has no result here (`getWord`, `putWordAt`).

`memSbrk` is the source's function, with its conversion to `int` and with an addition of pointers
that wraps as addresses do. `sbrkRefused` is the environment's word on the next call: the source
itself never refuses, and a run may let a call fail by setting it.
-/

set_option autoImplicit false
set_option relaxedAutoImplicit false

namespace SystemProgramming.MemoryLab

open Library

/-- An element of the driver's list of payload extents (`range_t` of `mm.h`). -/
structure Range where
  lo : Nat
  hi : Nat
  deriving DecidableEq, Repr

/-- The static variables of `memlib.c` and `mm.c`, and memory. -/
structure Heap where
  bytes : ByteMemory
  memStartBrk : Nat
  memBrk : Nat
  memMaxAddr : Nat
  sbrkRefused : Bool
  sizeClassP : Nat
  prologue : Nat
  glRanges : Option (List Range)

/-- Code of `mm.c` and `memlib.c`: it changes the heap and returns a value, or is undefined. -/
abbrev HeapM := Program Heap

/-- `MAX_HEAP` of `config.h`. -/
def maxHeap : Nat := 64 * 2 ^ 20

/-- What `mem_init` sets up: an arena of `MAX_HEAP` bytes that the C library has aligned, does not
place at the null pointer, and keeps below the end of the address space. -/
structure Heap.Arena (h : Heap) : Prop where
  aligned : h.memStartBrk % 8 = 0
  nonnull : 0 < h.memStartBrk
  size : h.memMaxAddr = h.memStartBrk + maxHeap
  below : h.memMaxAddr < 2 ^ 32

/-- `mem_reset_brk`: an empty heap, over whatever bytes an earlier trace has left. -/
def memResetBrk (h : Heap) : Heap := { h with memBrk := h.memStartBrk }

/-- The four bytes at an address lie in the arena. -/
def Heap.InArena (h : Heap) (p : Nat) : Prop := h.memStartBrk ≤ p ∧ p + 4 ≤ h.memMaxAddr

instance (h : Heap) (p : Nat) : Decidable (h.InArena p) :=
  inferInstanceAs (Decidable (_ ∧ _))

/-- The word at an address. -/
def Heap.word (h : Heap) (p : Nat) : Nat := wordAt h.bytes p

/-- `GET`: read a word. -/
def getWord (p : Nat) : HeapM Nat := do
  let h ← get
  if h.InArena p then pure (h.word p) else failure

/-- `PUT`: write a word. -/
def putWordAt (p v : Nat) : HeapM Unit := do
  let h ← get
  if h.InArena p then set { h with bytes := putWord h.bytes p v } else failure

theorem returns_getWord {h : Heap} {p : Nat} (hp : h.InArena p) (Q : Nat → Heap → Prop) :
    Returns (getWord p) h Q ↔ Q (h.word p) h := by
  simp [getWord, returns_bind, hp]

theorem returns_putWordAt {h : Heap} {p v : Nat} (hp : h.InArena p) (Q : Unit → Heap → Prop) :
    Returns (putWordAt p v) h Q ↔ Q () { h with bytes := putWord h.bytes p v } := by
  simp [putWordAt, returns_bind, hp]

/-- An access outside the arena is undefined. -/
theorem getWord_eq_none {h : Heap} {p : Nat} (hp : ¬ h.InArena p) : getWord p h = none := by
  simp [getWord, bind, StateT.bind, get, getThe, MonadStateOf.get, StateT.get, hp, failure,
    StateT.failure]

theorem putWordAt_eq_none {h : Heap} {p v : Nat} (hp : ¬ h.InArena p) :
    putWordAt p v h = none := by
  simp [putWordAt, bind, StateT.bind, get, getThe, MonadStateOf.get, StateT.get, hp, failure,
    StateT.failure]

/-- What has been read when a computation returns. -/
theorem of_returns_getWord {h : Heap} {p : Nat} {Q : Nat → Heap → Prop}
    (hret : Returns (getWord p) h Q) : h.InArena p ∧ Q (h.word p) h := by
  by_cases hp : h.InArena p
  · exact ⟨hp, (returns_getWord hp Q).mp hret⟩
  · obtain ⟨a, t, heq, -⟩ := hret
    exact absurd ((getWord_eq_none hp).symm.trans heq) (by simp)

/-- `(void *)-1`. -/
def sbrkFailed : Nat := 2 ^ 32 - 1

/-- `mem_sbrk`. The argument is converted to `int`, so that a word from `2 ^ 31` on is negative;
the sum of the break and the increment is compared with the limit as an address. -/
def memSbrk (incr : Nat) : HeapM Nat := do
  let h ← get
  if h.sbrkRefused = true ∨ 2 ^ 31 ≤ incr ∨ h.memMaxAddr < addWord h.memBrk incr then
    pure sbrkFailed
  else do
    set { h with memBrk := addWord h.memBrk incr }
    pure h.memBrk

theorem returns_memSbrk_fail {h : Heap} {incr : Nat}
    (hfail : h.sbrkRefused = true ∨ 2 ^ 31 ≤ incr ∨ h.memMaxAddr < addWord h.memBrk incr)
    (Q : Nat → Heap → Prop) : Returns (memSbrk incr) h Q ↔ Q sbrkFailed h := by
  simp only [memSbrk, returns_bind, returns_get, if_pos hfail, returns_pure]

theorem returns_memSbrk_grow {h : Heap} {incr : Nat}
    (hgrow : ¬ (h.sbrkRefused = true ∨ 2 ^ 31 ≤ incr ∨ h.memMaxAddr < addWord h.memBrk incr))
    (Q : Nat → Heap → Prop) : Returns (memSbrk incr) h Q ↔
      Q h.memBrk { h with memBrk := addWord h.memBrk incr } := by
  simp only [memSbrk, returns_bind, returns_get, if_neg hgrow, returns_set, returns_pure]

end SystemProgramming.MemoryLab
