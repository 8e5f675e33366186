import SystemProgramming.MemoryLab.Allocator

/-!
# The allocators of `mm_8.c` and `mm_16.c`

These are the allocators without bulk blocks: `mm_init` ends with a first chunk of `CHUNKSIZE` bytes,
and a larger heap is asked for in pieces of at least as many. The two files have the same text, up to
`SIZE_CLASS_NUM` and the bounds in `get_size_class`, so each of their functions is written once, with
the file as `v`. The macros are those of `mm.c`, and so are the loop that links the roots to
themselves and the loop through one list.

In `mm_16.c` only the first eight of the sixteen lists are ever used.
-/

set_option autoImplicit false
set_option relaxedAutoImplicit false

namespace SystemProgramming.MemoryLab.Plain

open Library

/-! ### What the files differ in -/

/-- `SIZE_CLASS_NUM` of `mm_8.c`. -/
def Mm8.sizeClassNum : Nat := 8

/-- `SIZE_CLASS_NUM` of `mm_16.c`. -/
def Mm16.sizeClassNum : Nat := 16

/-- `get_size_class` of `mm_8.c`. -/
def Mm8.getSizeClass (asize : Nat) : Nat :=
  if asize ≤ 16 then 0
  else if asize ≤ 32 then 1
  else if asize ≤ 64 then 2
  else if asize ≤ 128 then 3
  else if asize ≤ 256 then 4
  else if asize ≤ 512 then 5
  else if asize ≤ 1024 then 6
  else 7

/-- `get_size_class` of `mm_16.c`. -/
def Mm16.getSizeClass (asize : Nat) : Nat :=
  if asize ≤ 16 then 0
  else if asize ≤ 32 then 1
  else if asize ≤ 48 then 2
  else if asize ≤ 64 then 3
  else if asize ≤ 96 then 4
  else if asize ≤ 128 then 5
  else if asize ≤ 256 then 6
  else 7

/-- The two files. -/
inductive Variant
  | mm8
  | mm16
  deriving DecidableEq, Repr

/-- `CHUNKSIZE`. -/
def chunkSize : Nat := 2 ^ 6

/-- `remove_block`. -/
def removeBlock (bp : Nat) : HeapM Unit := do
  let prev ← prevFree bp
  let next ← nextFree bp
  setNextF prev next
  let next ← nextFree bp
  let prev ← prevFree bp
  setPrevF next prev

/-- The statements of `coalesce` on a free next block: the size with the next block added. -/
def absorbNext (bp size : Nat) : HeapM Nat := do
  let nextbp ← nextBlkp bp
  let nextSize ← getSize (hdrp nextbp)
  let nextbp ← nextBlkp bp
  removeBlock nextbp
  pure (addWord size nextSize)

/-- The statements of `coalesce` on a free previous block: the previous block, and the size with that
block added. -/
def absorbPrev (bp size : Nat) : HeapM (Nat × Nat) := do
  let bp ← prevBlkp bp
  removeBlock bp
  let prevSize ← getSize (hdrp bp)
  pure (bp, addWord size prevSize)

namespace Variant

/-- `SIZE_CLASS_NUM`. -/
def sizeClassNum : Variant → Nat
  | mm8 => Mm8.sizeClassNum
  | mm16 => Mm16.sizeClassNum

/-- `get_size_class`. -/
def getSizeClass : Variant → Nat → Nat
  | mm8 => Mm8.getSizeClass
  | mm16 => Mm16.getSizeClass

variable (v : Variant)

/-- `insert_block`. -/
def insertBlock (bp asize : Nat) : HeapM Unit := do
  let sclassp ← getClassRoot (v.getSizeClass asize)
  setPrevF bp sclassp
  let first ← nextFree sclassp
  setNextF bp first
  let first ← nextFree sclassp
  setPrevF first bp
  setNextF sclassp bp

/-- `coalesce`. -/
def coalesce (bp : Nat) : HeapM Nat := do
  let prevbp ← prevBlkp bp
  let prevFooter ← ftrp prevbp
  let prevAlloc ← getAlloc prevFooter
  let nextbp ← nextBlkp bp
  let nextAlloc ← getAlloc (hdrp nextbp)
  let size ← getSize (hdrp bp)
  if prevAlloc ≠ 0 ∧ nextAlloc ≠ 0 then pure bp
  else do
    removeBlock bp
    let size ← (if nextAlloc = 0 then absorbNext bp size else pure size)
    let merged ← (if prevAlloc = 0 then absorbPrev bp size else pure (bp, size))
    setBoundaryTag merged.1 merged.2 0
    v.insertBlock merged.1 merged.2
    pure merged.1

/-- `extend_heap`. -/
def extendHeap (asize : Nat) : HeapM Nat := do
  let bp ← memSbrk asize
  if bp = sbrkFailed then pure null
  else do
    setBoundaryTag bp asize 0
    let nextbp ← nextBlkp bp
    putWordAt (hdrp nextbp) (pack 0 1)
    v.insertBlock bp asize
    v.coalesce bp

/-- `mm_init`. -/
def mmInit (ranges : Option (List Range)) : HeapM Int := do
  let start ← memSbrk ((v.sizeClassNum + 2) * dsize)
  modify fun h ↦ { h with sizeClassP := start }
  if start = sbrkFailed then pure (-1)
  else do
    initRoots v.sizeClassNum
    modify fun h ↦ { h with prologue := addWord h.sizeClassP ((v.sizeClassNum + 1) * dsize) }
    let h ← get
    putWordAt (subWord h.prologue wsize) (pack dsize 1)
    putWordAt h.prologue (pack dsize 1)
    putWordAt (addWord h.prologue wsize) (pack 0 1)
    let bp ← v.extendHeap chunkSize
    if bp = null then pure (-1)
    else do
      modify fun h ↦ { h with glRanges := ranges }
      pure 0

/-- The outer loop of `find_fit` over the last `n` classes. -/
def probeClasses (asize : Nat) : Nat → HeapM Nat
  | 0 => pure null
  | n + 1 => do
    let sclassp ← getClassRoot (v.sizeClassNum - (n + 1))
    let first ← nextFree sclassp
    let probe ← probeList asize sclassp loopFuel first
    if probe ≠ null then pure probe else probeClasses asize n

/-- `find_fit`. -/
def findFit (asize : Nat) : HeapM Nat := v.probeClasses asize (v.sizeClassNum - v.getSizeClass asize)

/-- `place`. -/
def place (bp asize : Nat) : HeapM Unit := do
  let bsize ← getSize (hdrp bp)
  removeBlock bp
  if minBlockSize ≤ subWord bsize asize then do
    setBoundaryTag bp asize 1
    let bp ← nextBlkp bp
    setBoundaryTag bp (subWord bsize asize) 0
    v.insertBlock bp (subWord bsize asize)
  else setBoundaryTag bp bsize 1

/-- `mm_malloc`. -/
def mmMalloc (size : Nat) : HeapM Nat := do
  let asize := align (addWord size dsize)
  if size = 0 then pure null
  else do
    let bp ← v.findFit asize
    if bp ≠ null then do
      v.place bp asize
      pure bp
    else do
      let bp ← v.extendHeap (max asize chunkSize)
      if bp = null then pure null
      else do
        v.place bp asize
        pure bp

/-- `mm_free`. -/
def mmFree (ptr : Nat) : HeapM Unit := do
  let size ← getSize (hdrp ptr)
  setBoundaryTag ptr size 0
  v.insertBlock ptr size
  let _ ← v.coalesce ptr
  modify fun h ↦ { h with glRanges := h.glRanges.map fun ranges ↦ removeRange ranges ptr }

/-! ### Classes -/

/-- The bounds that `get_size_class` compares with. -/
def sizeClassBounds : Variant → List Nat
  | mm8 => [16, 32, 64, 128, 256, 512, 1024]
  | mm16 => [16, 32, 48, 64, 96, 128, 256]

theorem getSizeClass_eq (asize : Nat) :
    v.getSizeClass asize = firstBound v.sizeClassBounds 0 asize := by
  cases v <;> rfl

/-- Eight of the lists are used. -/
theorem getSizeClass_le (asize : Nat) : v.getSizeClass asize ≤ 7 := by
  obtain ⟨below, rest, hsplit, hvalue, -, -⟩ := firstBound_split v.sizeClassBounds 0 asize
  have hlength := congrArg List.length hsplit
  rw [List.length_append] at hlength
  have htotal : v.sizeClassBounds.length = 7 := by cases v <;> rfl
  rw [getSizeClass_eq, hvalue]
  omega

theorem sizeClassNum_bounds : 8 ≤ v.sizeClassNum ∧ v.sizeClassNum ≤ 16 := by
  cases v <;> decide

theorem getSizeClass_lt (asize : Nat) : v.getSizeClass asize < v.sizeClassNum := by
  have hle := v.getSizeClass_le asize
  have hnum := v.sizeClassNum_bounds
  omega

end Variant

/-- A larger number passes over at least as many bounds. -/
theorem firstBound_mono (bounds : List Nat) (first : Nat) {a b : Nat} (hab : a ≤ b) :
    firstBound bounds first a ≤ firstBound bounds first b := by
  induction bounds generalizing first with
  | nil => exact Nat.le_refl _
  | cons bound bounds ih =>
    rw [firstBound, firstBound]
    by_cases hb : b ≤ bound
    · rw [if_pos (hab.trans hb), if_pos hb]
    · rw [if_neg hb]
      by_cases ha : a ≤ bound
      · rw [if_pos ha]
        obtain ⟨below, rest, -, hvalue, -, -⟩ := firstBound_split bounds (first + 1) b
        omega
      · rw [if_neg ha]
        exact ih (first + 1)

theorem Variant.getSizeClass_mono (v : Variant) {a b : Nat} (hab : a ≤ b) :
    v.getSizeClass a ≤ v.getSizeClass b := by
  rw [v.getSizeClass_eq, v.getSizeClass_eq]
  exact firstBound_mono _ _ hab

end SystemProgramming.MemoryLab.Plain
