import SystemProgramming.MemoryLab.Memlib
import SystemProgramming.MemoryLab.SizeClass

/-!
# The allocator of `mm.c`

The functions of `mm.c` at thirty-two size classes, statement by statement. Pointers and sizes are
words, `NULL` is zero, and the arithmetic on them wraps as it does in the source. Loops carry fuel.
`loopFuel` is the number of addresses, so a probe loop that uses it up has met an address twice and
does not terminate in the source either; the fuel of `mm_realloc` and `mm_exit` is not used up on
the heaps the results are about.

`mmExit` returns the pointers it has passed to `mm_free`, in order; the source returns nothing.
-/

set_option autoImplicit false
set_option relaxedAutoImplicit false

namespace SystemProgramming.MemoryLab

open Library

/-! ### Macros -/

/-- The null pointer. -/
def null : Nat := 0

/-- `WSIZE`. -/
def wsize : Nat := 4

/-- `DSIZE`. -/
def dsize : Nat := 8

/-- `CHUNKSIZE`. -/
def chunkSize : Nat := 2 ^ 9

/-- `BULK_CREATE_NUM`. -/
def bulkCreateNum : Nat := 2 ^ 3

/-- `MIN_BLOCK_SIZE`. -/
def minBlockSize : Nat := 2 * dsize

/-- `FREETAG`. -/
def freeTag : Nat := 0x0

/-- `ALLOCTAG`. -/
def allocTag : Nat := 0x1

/-- `BULKTAG`. -/
def bulkTag : Nat := 0x2

/-- The mask `~0x7` on thirty-two bits. -/
def sizeMask : Nat := 2 ^ 32 - 2 ^ 3

/-- `ALIGN`. -/
def align (size : Nat) : Nat := addWord size 7 &&& sizeMask

/-- `PACK`. -/
def pack (size tag : Nat) : Nat := size ||| tag

/-- `GET_SIZE`. -/
def getSize (p : Nat) : HeapM Nat := do
  let w ← getWord p
  pure (w &&& sizeMask)

/-- `GET_ISBULK`. -/
def getIsbulk (p : Nat) : HeapM Nat := do
  let w ← getWord p
  pure (w &&& 0x2)

/-- `GET_ALLOC`. -/
def getAlloc (p : Nat) : HeapM Nat := do
  let w ← getWord p
  pure (w &&& 0x1)

/-- `HDRP`. -/
def hdrp (bp : Nat) : Nat := subWord bp wsize

/-- `FTRP`. -/
def ftrp (bp : Nat) : HeapM Nat := do
  let size ← getSize (hdrp bp)
  pure (subWord (addWord bp size) dsize)

/-- `NEXT_FREE`. -/
def nextFree (bp : Nat) : HeapM Nat := getWord bp

/-- `PREV_FREE`. -/
def prevFree (bp : Nat) : HeapM Nat := getWord (addWord bp wsize)

/-- `SET_NEXT_F`. -/
def setNextF (bp val : Nat) : HeapM Unit := putWordAt bp val

/-- `SET_PREV_F`. -/
def setPrevF (bp val : Nat) : HeapM Unit := putWordAt (addWord bp wsize) val

/-- `NEXT_BLKP`. -/
def nextBlkp (bp : Nat) : HeapM Nat := do
  let size ← getSize (subWord bp wsize)
  pure (addWord bp size)

/-- `PREV_BLKP`. -/
def prevBlkp (bp : Nat) : HeapM Nat := do
  let size ← getSize (subWord bp dsize)
  pure (subWord bp size)

/-! ### Lists and tags -/

/-- `get_class_root`. -/
def getClassRoot (cls : Nat) : HeapM Nat := do
  let h ← get
  pure (addWord h.sizeClassP (dsize * cls))

/-- `set_boundary_tag`. -/
def setBoundaryTag (bp asize tagbit : Nat) : HeapM Unit := do
  putWordAt (hdrp bp) (pack asize tagbit)
  let footer ← ftrp bp
  putWordAt footer (pack asize tagbit)

/-- `insert_block`. -/
def insertBlock (bp asize : Nat) : HeapM Unit := do
  let sclassp ← getClassRoot (getSizeClass asize)
  setPrevF bp sclassp
  let first ← nextFree sclassp
  setNextF bp first
  let first ← nextFree sclassp
  setPrevF first bp
  setNextF sclassp bp

/-- `remove_from_list`. -/
def removeFromList (bp : Nat) : HeapM Unit := do
  let prev ← prevFree bp
  let next ← nextFree bp
  setNextF prev next
  let next ← nextFree bp
  let prev ← prevFree bp
  setPrevF next prev

/-! ### Initialization -/

/-- The first `n` rounds of the loop of `mm_init` that links every root to itself. -/
def initRoots : Nat → HeapM Unit
  | 0 => pure ()
  | n + 1 => do
    initRoots n
    let h ← get
    let temp := addWord h.sizeClassP (n * dsize)
    setNextF temp temp
    setPrevF temp temp

/-- `mm_init`. -/
def mmInit (ranges : Option (List Range)) : HeapM Int := do
  let start ← memSbrk ((sizeClassNum + 2) * dsize)
  modify fun h ↦ { h with sizeClassP := start }
  if start = sbrkFailed then pure (-1)
  else do
    initRoots sizeClassNum
    modify fun h ↦ { h with prologue := addWord h.sizeClassP ((sizeClassNum + 1) * dsize) }
    let h ← get
    setBoundaryTag h.prologue dsize allocTag
    putWordAt (addWord h.prologue wsize) (pack 0 allocTag)
    modify fun h ↦ { h with glRanges := ranges }
    pure 0

/-! ### Coalescing and extension -/

/-- The statements of `coalesce` on a free next block: the size with the next block added. -/
def absorbNext (bp size : Nat) : HeapM Nat := do
  let nextbp ← nextBlkp bp
  let nextSize ← getSize (hdrp nextbp)
  removeFromList nextbp
  pure (addWord size nextSize)

/-- The statements of `coalesce` and of `extend_heap_bulk` on a free previous block: the previous
block, and the size with that block added. -/
def absorbPrev (bp size : Nat) : HeapM (Nat × Nat) := do
  let bp ← prevBlkp bp
  removeFromList bp
  let prevSize ← getSize (hdrp bp)
  pure (bp, addWord size prevSize)

/-- `coalesce`. -/
def coalesce (bp : Nat) : HeapM Nat := do
  let prevbp ← prevBlkp bp
  let prevFooter ← ftrp prevbp
  let prevAlloc ← getAlloc prevFooter
  let nextbp ← nextBlkp bp
  let nextAlloc ← getAlloc (hdrp nextbp)
  let size ← getSize (hdrp bp)
  if prevAlloc ≠ 0 ∧ nextAlloc ≠ 0 then pure bp
  else do
    removeFromList bp
    let size ← (if nextAlloc = 0 then absorbNext bp size else pure size)
    let merged ← (if prevAlloc = 0 then absorbPrev bp size else pure (bp, size))
    setBoundaryTag merged.1 merged.2 freeTag
    insertBlock merged.1 merged.2
    pure merged.1

/-- `extend_heap`. -/
def extendHeap (asize : Nat) : HeapM Nat := do
  let bp ← memSbrk asize
  if bp = sbrkFailed then pure null
  else do
    setBoundaryTag bp asize freeTag
    let nextbp ← nextBlkp bp
    putWordAt (hdrp nextbp) (pack 0 allocTag)
    insertBlock bp asize
    coalesce bp

/-- `extend_heap_bulk`. -/
def extendHeapBulk (asize : Nat) : HeapM Nat := do
  let bulksize := bulkCreateNum * asize % 2 ^ 32
  let bp ← memSbrk bulksize
  if bp = sbrkFailed then pure null
  else do
    let prevbp ← prevBlkp bp
    let prevAlloc ← getAlloc (hdrp prevbp)
    let prevBulk ← getIsbulk (hdrp prevbp)
    let merged ← (if prevAlloc = 0 ∧ prevBulk = 0 then absorbPrev bp bulksize
      else pure (bp, bulksize))
    setBoundaryTag merged.1 merged.2 bulkTag
    let nextbp ← nextBlkp merged.1
    putWordAt (hdrp nextbp) (pack 0 allocTag)
    insertBlock merged.1 asize
    pure merged.1

/-! ### Search and placement -/

/-- The number of addresses. -/
def loopFuel : Nat := 2 ^ 32

/-- The inner loop of `find_fit`: the first block of one list, from `probe` on, that is large
enough, or `NULL` when the loop comes back to the root. -/
def probeList (asize sclassp : Nat) : Nat → Nat → HeapM Nat
  | 0, _ => failure
  | fuel + 1, probe =>
    if probe = sclassp then pure null
    else do
      let size ← getSize (hdrp probe)
      if asize ≤ size then pure probe
      else do
        let next ← nextFree probe
        probeList asize sclassp fuel next

/-- The outer loop of `find_fit` over the last `n` classes: a pointer and its class, or `NULL`. -/
def probeClasses (asize : Nat) : Nat → HeapM (Nat × Nat)
  | 0 => pure (null, sizeClassNum)
  | n + 1 => do
    let classnum := sizeClassNum - (n + 1)
    let sclassp ← getClassRoot classnum
    let first ← nextFree sclassp
    let probe ← probeList asize sclassp loopFuel first
    if probe ≠ null then pure (probe, classnum) else probeClasses asize n

/-- `find_fit`: the pointer it returns, and what it stores through `class`. -/
def findFit (asize : Nat) : HeapM (Nat × Nat) :=
  probeClasses asize (sizeClassNum - getSizeClass asize)

/-- The four statements of `place` by which the rest of a bulk block takes the place of the block in
its list. -/
def relinkRest (bp : Nat) : HeapM Unit := do
  let rest ← nextBlkp bp
  let prev ← prevFree bp
  setPrevF rest prev
  let rest ← nextBlkp bp
  let next ← nextFree bp
  setNextF rest next
  let prev ← prevFree bp
  let rest ← nextBlkp bp
  setNextF prev rest
  let next ← nextFree bp
  let rest ← nextBlkp bp
  setPrevF next rest

/-- `place`. -/
def place (bp asize cls : Nat) : HeapM Unit := do
  let bsize ← getSize (hdrp bp)
  if minBlockSize ≤ subWord bsize asize then do
    let isbulk ← getIsbulk (hdrp bp)
    if isbulk ≠ 0 ∧ getLowerBound cls < subWord bsize asize then do
      setBoundaryTag bp asize (bulkTag ||| allocTag)
      relinkRest bp
      let bp ← nextBlkp bp
      setBoundaryTag bp (subWord bsize asize) (bulkTag ||| freeTag)
    else do
      removeFromList bp
      setBoundaryTag bp asize allocTag
      let bp ← nextBlkp bp
      setBoundaryTag bp (subWord bsize asize) freeTag
      insertBlock bp (subWord bsize asize)
  else do
    removeFromList bp
    setBoundaryTag bp bsize allocTag

/-! ### The interface -/

/-- `mm_malloc`. -/
def mmMalloc (size : Nat) : HeapM Nat := do
  let asize := align (addWord size dsize)
  if size = 0 then pure null
  else do
    let found ← findFit asize
    if found.1 ≠ null then do
      place found.1 asize found.2
      pure found.1
    else do
      let bp ← (if asize ≤ chunkSize then extendHeapBulk asize else extendHeap asize)
      if bp = null then pure null
      else do
        place bp asize 0
        pure bp

/-- `remove_range`: the first element with this lower address leaves the list. -/
def removeRange (ranges : List Range) (lo : Nat) : List Range :=
  ranges.eraseP fun r ↦ r.lo = lo

/-- `mm_free`. -/
def mmFree (ptr : Nat) : HeapM Unit := do
  let size ← getSize (hdrp ptr)
  let isbulk ← getIsbulk (hdrp ptr)
  setBoundaryTag ptr size isbulk
  insertBlock ptr size
  let _ ← coalesce ptr
  modify fun h ↦ { h with glRanges := h.glRanges.map fun ranges ↦ removeRange ranges ptr }

/-- The copying loop of `mm_realloc`, from `copyIndex` on. -/
def copyData (newbp ptr limit : Nat) : Nat → Nat → HeapM Unit
  | 0, _ => failure
  | fuel + 1, copyIndex =>
    if copyIndex < limit then do
      let w ← getWord (addWord ptr copyIndex)
      putWordAt (addWord newbp copyIndex) w
      copyData newbp ptr limit fuel (addWord copyIndex 4)
    else pure ()

/-- `mm_realloc` with at most `fuel` nested calls. -/
def reallocLoop : Nat → Nat → Nat → HeapM Nat
  | 0, _, _ => failure
  | fuel + 1, ptr, t =>
    if ptr = null then mmMalloc t
    else if t = 0 then do
      mmFree ptr
      pure null
    else do
      let origSize ← getSize (hdrp ptr)
      let newAsize := align (addWord t dsize)
      if minBlockSize ≤ subWord origSize newAsize then do
        let isbulk ← getIsbulk (hdrp ptr)
        setBoundaryTag ptr newAsize (isbulk ||| allocTag)
        let rest ← nextBlkp ptr
        let isbulk ← getIsbulk (hdrp ptr)
        setBoundaryTag rest (subWord origSize newAsize) isbulk
        let rest ← nextBlkp ptr
        insertBlock rest (subWord origSize newAsize)
        let rest ← nextBlkp ptr
        let _ ← coalesce rest
        pure ptr
      else if newAsize ≤ origSize then pure ptr
      else do
        let nextbp ← nextBlkp ptr
        let nextAlloc ← getAlloc (hdrp nextbp)
        if nextAlloc = 0 then do
          let nextbp ← nextBlkp ptr
          let nextSize ← getSize (hdrp nextbp)
          let nextbp ← nextBlkp ptr
          removeFromList nextbp
          setBoundaryTag ptr (addWord origSize nextSize) allocTag
          reallocLoop fuel ptr t
        else do
          let newbp ← mmMalloc t
          copyData newbp ptr (subWord origSize dsize) loopFuel 0
          mmFree ptr
          pure newbp

/-- `mm_realloc`. -/
def mmRealloc (ptr t : Nat) : HeapM Nat := reallocLoop loopFuel ptr t

/-- The loop of `mm_exit` from `probe` on, with the pointers it frees. -/
def exitLoop : Nat → Nat → HeapM (List Nat)
  | 0, _ => failure
  | fuel + 1, probe => do
    let size ← getSize (hdrp probe)
    if size ≠ 0 then do
      let alloc ← getAlloc (hdrp probe)
      let freed ← (if alloc ≠ 0 then do
          mmFree probe
          pure [probe]
        else pure [])
      let next ← nextBlkp probe
      let rest ← exitLoop fuel next
      pure (freed ++ rest)
    else pure []

/-- `mm_exit`. -/
def mmExit : HeapM (List Nat) := do
  let h ← get
  let probe ← nextBlkp h.prologue
  exitLoop loopFuel probe

end SystemProgramming.MemoryLab
