import Mathlib.Data.List.Chain
import SystemProgramming.Library.LinkedRing
import SystemProgramming.MemoryLab.Allocator

/-!
# Blocks, and the allocator on lists of blocks

A `Block` is what a header word describes: where its payload starts, its size, its allocated bit
and its bulk tag. A `Shape` is a heap with the bytes forgotten: the blocks in address order, the
free blocks filed under each size class, and the break. The operations of the allocator act on
shapes without any memory (`Shape.malloc`, `Shape.free`, `Shape.shrink`), on a shape opened at one
of its blocks (`Focus`). They are this development's own account of what the code does to the
block structure; the later modules show that the code does exactly this to it.

`Tiles` says that blocks lie end to end. `Shape.Proper` is what every shape of a well-formed heap
satisfies: its blocks tile the heap with proper sizes, and the filed addresses are, without
repetition, those of its free blocks.
-/

set_option autoImplicit false
set_option relaxedAutoImplicit false

namespace SystemProgramming.MemoryLab

open Library

/-! ### Blocks -/

/-- A block of the heap: the address of its payload, and what its tag words say. -/
structure Block where
  addr : Nat
  size : Nat
  alloc : Bool
  bulk : Bool
  deriving DecidableEq, Repr

namespace Block

/-- The flags of a tag word. -/
def tag (b : Block) : Nat := (if b.alloc then 1 else 0) + (if b.bulk then 2 else 0)

/-- The tag word of a block, its header and its footer. -/
def word (b : Block) : Nat := b.size + b.tag

/-- A size the allocator gives to blocks. -/
def Sized (b : Block) : Prop := b.size % 8 = 0 ∧ 16 ≤ b.size

theorem tag_le (b : Block) : b.tag ≤ 3 := by
  unfold tag
  split_ifs <;> omega

theorem pack_eq_word {b : Block} (h : b.size % 8 = 0) : pack b.size b.tag = b.word := by
  have htag := b.tag_le
  exact or_low (k := 3) (by omega) (by omega)

theorem word_lt {b : Block} (h : b.size % 8 = 0) (hlt : b.size < 2 ^ 32) : b.word < 2 ^ 32 := by
  have htag := b.tag_le
  unfold word
  omega

theorem word_and_sizeMask {b : Block} (h : b.size % 8 = 0) (hlt : b.size < 2 ^ 32) :
    b.word &&& sizeMask = b.size := by
  have htag := b.tag_le
  rw [sizeMask, and_mask (word_lt h hlt) (by omega)]
  unfold word
  omega

theorem word_and_one {b : Block} (h : b.size % 8 = 0) :
    b.word &&& 0x1 = if b.alloc then 1 else 0 := by
  rw [Nat.and_one_is_mod]
  unfold word tag
  split_ifs <;> omega

theorem word_and_two {b : Block} (h : b.size % 8 = 0) :
    b.word &&& 0x2 = if b.bulk then 2 else 0 := by
  rw [and_two]
  unfold word tag
  split_ifs <;> omega

end Block

/-! ### Blocks end to end -/

/-- The blocks lie end to end from `first` to `last`. -/
def Tiles (first : Nat) : List Block → Nat → Prop
  | [], last => first = last
  | b :: blocks, last => b.addr = first ∧ Tiles (b.addr + b.size) blocks last

theorem tiles_append {front back : List Block} {first last : Nat} :
    Tiles first (front ++ back) last ↔ ∃ middle, Tiles first front middle ∧
      Tiles middle back last := by
  induction front generalizing first with
  | nil => simp [Tiles]
  | cons b front ih => simp only [List.cons_append, Tiles, ih, and_assoc, exists_and_left]

theorem tiles_singleton {b : Block} {first last : Nat} :
    Tiles first [b] last ↔ b.addr = first ∧ b.addr + b.size = last := Iff.rfl

theorem Tiles.le {blocks : List Block} {first last : Nat} (h : Tiles first blocks last) :
    first ≤ last := by
  induction blocks generalizing first with
  | nil => exact le_of_eq h
  | cons b blocks ih =>
    have htail := ih h.2
    have hhead := h.1
    omega

/-- Blocks lying end to end keep within the bounds and in order. -/
theorem Tiles.bounds {blocks : List Block} {first last : Nat} (h : Tiles first blocks last) :
    ∀ b ∈ blocks, first ≤ b.addr ∧ b.addr + b.size ≤ last := by
  induction blocks generalizing first with
  | nil => simp
  | cons b blocks ih =>
    intro c hc
    have hfirst := h.1
    have htail := h.2.le
    rcases List.mem_cons.mp hc with rfl | hc
    · exact ⟨le_of_eq hfirst.symm, htail⟩
    · have hbounds := ih h.2 c hc
      omega

theorem Tiles.sorted {blocks : List Block} {first last : Nat} (h : Tiles first blocks last) :
    blocks.Pairwise fun a b ↦ a.addr + a.size ≤ b.addr := by
  induction blocks generalizing first with
  | nil => exact List.Pairwise.nil
  | cons b blocks ih =>
    exact List.pairwise_cons.mpr ⟨fun c hc ↦ (h.2.bounds c hc).1, ih h.2⟩

theorem Tiles.aligned {blocks : List Block} {first last : Nat} (h : Tiles first blocks last)
    (hsize : ∀ b ∈ blocks, b.Sized) (hfirst : first % 8 = 0) :
    (∀ b ∈ blocks, b.addr % 8 = 0) ∧ last % 8 = 0 := by
  induction blocks generalizing first with
  | nil => exact ⟨by simp, h ▸ hfirst⟩
  | cons b blocks ih =>
    have hb := h.1
    have hsized := hsize b List.mem_cons_self
    unfold Block.Sized at hsized
    have htail := ih h.2 (fun c hc ↦ hsize c (List.mem_cons_of_mem _ hc))
      (by omega)
    refine ⟨fun c hc ↦ ?_, htail.2⟩
    rcases List.mem_cons.mp hc with rfl | hc
    · omega
    · exact htail.1 c hc

theorem Tiles.length_le {blocks : List Block} {first last : Nat} (h : Tiles first blocks last)
    (hsized : ∀ b ∈ blocks, b.Sized) : first + blocks.length ≤ last := by
  induction blocks generalizing first with
  | nil => exact le_of_eq h
  | cons b blocks ih =>
    have hb := hsized b List.mem_cons_self
    have hrest := ih h.2 fun c hc ↦ hsized c (List.mem_cons_of_mem _ hc)
    have hfirst := h.1
    unfold Block.Sized at hb
    rw [List.length_cons]
    omega

/-- The address of a block determines it. -/
theorem eq_of_addr_eq {blocks : List Block} (hsorted : blocks.Pairwise fun a b ↦ a.addr + a.size ≤ b.addr)
    (hsize : ∀ b ∈ blocks, b.Sized) {b c : Block} (hb : b ∈ blocks) (hc : c ∈ blocks)
    (h : b.addr = c.addr) : b = c := by
  induction blocks with
  | nil => simp at hb
  | cons a blocks ih =>
    obtain ⟨hhead, htail⟩ := List.pairwise_cons.mp hsorted
    have ha := hsize a List.mem_cons_self
    unfold Block.Sized at ha
    rcases List.mem_cons.mp hb with hba | hb <;> rcases List.mem_cons.mp hc with hca | hc
    · rw [hba, hca]
    · have hafter := hhead c hc
      rw [← hba] at hafter ha
      omega
    · have hafter := hhead b hb
      rw [← hca] at hafter ha
      omega
    · exact ih htail (fun d hd ↦ hsize d (List.mem_cons_of_mem _ hd)) hb hc

/-! ### Filing -/

/-- A filing of addresses under the size classes. -/
abbrev Filing := Nat → List Nat

/-- File an address at the front of a class. -/
def fileUnder (L : Filing) (cls x : Nat) : Filing := Function.update L cls (x :: L cls)

/-- Take an address out of every class. -/
def unfile (L : Filing) (x : Nat) : Filing := fun c ↦ (L c).erase x

/-- Let an address take the place of another. -/
def refile (L : Filing) (x z : Nat) : Filing := fun c ↦ exchange x z (L c)

/-- An address is filed under some class. -/
def Filed (L : Filing) (x : Nat) : Prop := ∃ c < sizeClassNum, x ∈ L c

/-- The address of a class root, in a heap that starts at `base`. -/
def classRoot (base c : Nat) : Nat := base + 8 * c

/-- No address is filed twice. -/
structure Filing.Simple (L : Filing) : Prop where
  nodup : ∀ c < sizeClassNum, (L c).Nodup
  disjoint : ∀ c < sizeClassNum, ∀ d < sizeClassNum, ∀ x, x ∈ L c → x ∈ L d → c = d

theorem mem_unfile {L : Filing} (hL : L.Simple) {x y c : Nat} (hc : c < sizeClassNum) :
    y ∈ unfile L x c ↔ y ∈ L c ∧ y ≠ x := by
  rw [unfile, (hL.nodup c hc).mem_erase_iff, and_comm]

theorem mem_fileUnder {L : Filing} {cls x y c : Nat} :
    y ∈ fileUnder L cls x c ↔ (y = x ∧ c = cls) ∨ y ∈ L c := by
  unfold fileUnder
  by_cases hc : c = cls
  · subst hc
    simp
  · simp [hc]

theorem mem_refile {L : Filing} {x z y c : Nat} :
    y ∈ refile L x z c ↔ (x ∈ L c ∧ y = z) ∨ (y ∈ L c ∧ y ≠ x) :=
  mem_exchange

theorem filed_unfile {L : Filing} (hL : L.Simple) {x y : Nat} :
    Filed (unfile L x) y ↔ Filed L y ∧ y ≠ x := by
  constructor
  · rintro ⟨c, hc, hmem⟩
    obtain ⟨hold, hne⟩ := (mem_unfile hL hc).mp hmem
    exact ⟨⟨c, hc, hold⟩, hne⟩
  · rintro ⟨⟨c, hc, hold⟩, hne⟩
    exact ⟨c, hc, (mem_unfile hL hc).mpr ⟨hold, hne⟩⟩

theorem filed_fileUnder {L : Filing} {cls x y : Nat} (hcls : cls < sizeClassNum) :
    Filed (fileUnder L cls x) y ↔ y = x ∨ Filed L y := by
  constructor
  · rintro ⟨c, hc, hmem⟩
    exact (mem_fileUnder.mp hmem).imp And.left fun hold ↦ ⟨c, hc, hold⟩
  · rintro (rfl | ⟨c, hc, hold⟩)
    · exact ⟨cls, hcls, mem_fileUnder.mpr (Or.inl ⟨rfl, rfl⟩)⟩
    · exact ⟨c, hc, mem_fileUnder.mpr (Or.inr hold)⟩

theorem filed_refile {L : Filing} {x z y : Nat} (hx : Filed L x) :
    Filed (refile L x z) y ↔ y = z ∨ (Filed L y ∧ y ≠ x) := by
  constructor
  · rintro ⟨c, hc, hmem⟩
    rcases mem_refile.mp hmem with ⟨-, rfl⟩ | ⟨hy, hne⟩
    · exact Or.inl rfl
    · exact Or.inr ⟨⟨c, hc, hy⟩, hne⟩
  · rintro (rfl | ⟨⟨c, hc, hy⟩, hne⟩)
    · obtain ⟨c, hc, hxc⟩ := hx
      exact ⟨c, hc, mem_refile.mpr (Or.inl ⟨hxc, rfl⟩)⟩
    · exact ⟨c, hc, mem_refile.mpr (Or.inr ⟨hy, hne⟩)⟩

/-! ### A shape, and a shape opened at a block -/

/-- A heap with its bytes forgotten. -/
structure Shape where
  blocks : List Block
  lists : Filing
  brk : Nat

/-- A shape opened at one of its blocks. -/
structure Focus where
  front : List Block
  block : Block
  back : List Block
  lists : Filing

/-- Open a list of blocks at an address. -/
def locate (p : Nat) : List Block → Option (List Block × Block × List Block)
  | [] => none
  | b :: blocks =>
    if b.addr = p then some ([], b, blocks)
    else (locate p blocks).map fun r ↦ (b :: r.1, r.2.1, r.2.2)

theorem locate_append {front back : List Block} {b : Block}
    (hfront : ∀ a ∈ front, a.addr ≠ b.addr) :
    locate b.addr (front ++ b :: back) = some (front, b, back) := by
  induction front with
  | nil => simp [locate]
  | cons a front ih =>
    rw [List.cons_append, locate, if_neg (hfront a List.mem_cons_self),
      ih fun c hc ↦ hfront c (List.mem_cons_of_mem _ hc)]
    rfl

/-- Open a shape at the block with an address. -/
def Shape.focus (σ : Shape) (p : Nat) : Option Focus :=
  (locate p σ.blocks).map fun r ↦ ⟨r.1, r.2.1, r.2.2, σ.lists⟩

/-- Close a focus again. -/
def Focus.shape (φ : Focus) (brk : Nat) : Shape := ⟨φ.front ++ φ.block :: φ.back, φ.lists, brk⟩

/-- The last block of a list, when it is free, taken off. -/
def splitFreeLast (front : List Block) : List Block × Option Block :=
  match front.getLast? with
  | some q => if q.alloc then (front, none) else (front.dropLast, some q)
  | none => (front, none)

/-- The first block of a list, when it is free, taken off. -/
def splitFreeHead : List Block → Option Block × List Block
  | [] => (none, [])
  | n :: back => if n.alloc then (none, n :: back) else (some n, back)

theorem splitFreeLast_eq (front : List Block) :
    front = (splitFreeLast front).1 ++ (splitFreeLast front).2.toList := by
  rcases List.eq_nil_or_concat front with rfl | ⟨front, q, rfl⟩
  · rfl
  · unfold splitFreeLast
    cases hq : q.alloc <;> simp [hq]

theorem splitFreeHead_eq (back : List Block) :
    back = (splitFreeHead back).1.toList ++ (splitFreeHead back).2 := by
  cases back with
  | nil => rfl
  | cons n back => cases hn : n.alloc <;> simp [splitFreeHead, hn]

theorem splitFreeLast_free {front : List Block} {q : Block}
    (h : (splitFreeLast front).2 = some q) : q.alloc = false := by
  unfold splitFreeLast at h
  split at h
  · split_ifs at h with hq
    obtain rfl := Option.some.inj h
    simpa using hq
  · exact absurd h (by simp)

theorem splitFreeHead_free {back : List Block} {n : Block}
    (h : (splitFreeHead back).1 = some n) : n.alloc = false := by
  cases back with
  | nil => exact absurd h (by simp [splitFreeHead])
  | cons m back =>
    rw [splitFreeHead] at h
    split_ifs at h with hm
    obtain rfl := Option.some.inj h
    simpa using hm

/-- When no free block comes off the end, the last block is allocated. -/
theorem splitFreeLast_alloc {front : List Block} (h : (splitFreeLast front).2 = none) :
    ∀ q ∈ front.getLast?, q.alloc = true := by
  intro q hq
  unfold splitFreeLast at h
  rw [Option.mem_def.mp hq] at h
  by_contra hfree
  simp [hfree] at h

theorem splitFreeHead_alloc {back : List Block} (h : (splitFreeHead back).1 = none) :
    ∀ n ∈ back.head?, n.alloc = true := by
  cases back with
  | nil => simp
  | cons m back =>
    intro n hn
    obtain rfl : m = n := by simpa using hn
    rw [splitFreeHead] at h
    by_contra hfree
    simp [hfree] at h

/-- The free block covering a block and the free neighbours that are there. -/
def joined (prev : Option Block) (b : Block) (next : Option Block) : Block where
  addr := (prev.getD b).addr
  size := prev.elim 0 Block.size + b.size + next.elim 0 Block.size
  alloc := false
  bulk := false

/-- Take an address out of the filing, if there is one. -/
def unfileOption (L : Filing) (b : Option Block) : Filing :=
  b.elim L fun b ↦ unfile L b.addr

/-- Coalescing the block in focus with its free neighbours. -/
def Focus.coalesce (φ : Focus) : Focus :=
  let prev := splitFreeLast φ.front
  let next := splitFreeHead φ.back
  if prev.2 = none ∧ next.1 = none then φ
  else
    let merged := joined prev.2 φ.block next.1
    { front := prev.1
      block := merged
      back := next.2
      lists := fileUnder (unfileOption (unfileOption (unfile φ.lists φ.block.addr) next.1) prev.2)
        (getSizeClass merged.size) merged.addr }

/-- Freeing the block in focus. -/
def Focus.free (φ : Focus) : Focus :=
  Focus.coalesce { φ with
    block := { φ.block with alloc := false }
    lists := fileUnder φ.lists (getSizeClass φ.block.size) φ.block.addr }

/-- Placing `asize` bytes into the free block in focus, which is filed under class `cls`. -/
def Focus.place (φ : Focus) (asize cls brk : Nat) : Shape :=
  let b := φ.block
  let rest := b.size - asize
  if 16 ≤ rest then
    if b.bulk = true ∧ getLowerBound cls < rest then
      { blocks := φ.front ++ ⟨b.addr, asize, true, true⟩ ::
          ⟨b.addr + asize, rest, false, true⟩ :: φ.back
        lists := refile φ.lists b.addr (b.addr + asize)
        brk := brk }
    else
      { blocks := φ.front ++ ⟨b.addr, asize, true, false⟩ ::
          ⟨b.addr + asize, rest, false, false⟩ :: φ.back
        lists := fileUnder (unfile φ.lists b.addr) (getSizeClass rest) (b.addr + asize)
        brk := brk }
  else
    { blocks := φ.front ++ { b with alloc := true, bulk := false } :: φ.back
      lists := unfile φ.lists b.addr
      brk := brk }

/-- Shrinking the allocated block in focus to `asize` bytes. -/
def Focus.shrink (φ : Focus) (asize : Nat) : Focus :=
  let b := φ.block
  if 16 ≤ b.size - asize then
    Focus.coalesce
      { front := φ.front ++ [⟨b.addr, asize, true, b.bulk⟩]
        block := ⟨b.addr + asize, b.size - asize, false, b.bulk⟩
        back := φ.back
        lists := fileUnder φ.lists (getSizeClass (b.size - asize)) (b.addr + asize) }
  else φ

/-- Extending a shape by a free block. -/
def Shape.extend (σ : Shape) (asize : Nat) : Focus :=
  Focus.coalesce
    { front := σ.blocks
      block := ⟨σ.brk, asize, false, false⟩
      back := []
      lists := fileUnder σ.lists (getSizeClass asize) σ.brk }

/-- Extending a shape by a bulk block of eight times the size, filed under the size itself. A free
last block without the bulk tag is merged into it. -/
def Shape.extendBulk (σ : Shape) (asize : Nat) : Focus :=
  match (splitFreeLast σ.blocks).2 with
  | some q =>
    if q.bulk then
      { front := σ.blocks
        block := ⟨σ.brk, 8 * asize, false, true⟩
        back := []
        lists := fileUnder σ.lists (getSizeClass asize) σ.brk }
    else
      { front := (splitFreeLast σ.blocks).1
        block := ⟨q.addr, 8 * asize + q.size, false, true⟩
        back := []
        lists := fileUnder (unfile σ.lists q.addr) (getSizeClass asize) q.addr }
  | none =>
    { front := σ.blocks
      block := ⟨σ.brk, 8 * asize, false, true⟩
      back := []
      lists := fileUnder σ.lists (getSizeClass asize) σ.brk }

/-! ### Requests on shapes -/

/-- The size of the block with an address. -/
def sizeAt (blocks : List Block) (x : Nat) : Nat :=
  (blocks.find? fun b ↦ b.addr = x).elim 0 Block.size

/-- The first filed block of the last `n` classes that is large enough, with its class. -/
def Shape.search (σ : Shape) (asize : Nat) : Nat → Option (Nat × Nat)
  | 0 => none
  | n + 1 =>
    match (σ.lists (sizeClassNum - (n + 1))).find? fun x ↦ asize ≤ sizeAt σ.blocks x with
    | some x => some (x, sizeClassNum - (n + 1))
    | none => σ.search asize n

/-- The block a request of `asize` bytes is placed into, with the class it is filed under. -/
def Shape.fit (σ : Shape) (asize : Nat) : Option (Nat × Nat) :=
  σ.search asize (sizeClassNum - getSizeClass asize)

/-- The bytes asked of `mem_sbrk` for a block of `asize` bytes. -/
def sbrkAmount (asize : Nat) : Nat := if asize ≤ chunkSize then 8 * asize else asize

/-- `mm_malloc` on shapes, when the arena ends at `limit`: the pointer returned and the new shape.
There is no result when the break would be carried past the last address. -/
def Shape.malloc (σ : Shape) (limit : Nat) (refused : Bool) (size : Nat) : Option (Nat × Shape) :=
  let asize := align (addWord size dsize)
  if size = 0 then some (null, σ)
  else
    match σ.fit asize with
    | some (x, cls) => (σ.focus x).map fun φ ↦ (x, φ.place asize cls σ.brk)
    | none =>
      let incr := sbrkAmount asize
      if refused = true ∨ 2 ^ 31 ≤ incr ∨ limit < addWord σ.brk incr then some (null, σ)
      else if 2 ^ 32 ≤ σ.brk + incr then none
      else
        let φ := if asize ≤ chunkSize then σ.extendBulk asize else σ.extend asize
        some (φ.block.addr, φ.place asize 0 (σ.brk + incr))

/-- `mm_free` on shapes. -/
def Shape.free (σ : Shape) (p : Nat) : Option Shape :=
  (σ.focus p).map fun φ ↦ φ.free.shape σ.brk

/-- A `mm_realloc` that does not grow the block, on shapes. -/
def Shape.shrink (σ : Shape) (p t : Nat) : Option Shape :=
  (σ.focus p).map fun φ ↦ (φ.shrink (align (addWord t dsize))).shape σ.brk

/-! ### Proper shapes -/

/-- The address of the first block, in a heap that starts at `base`. -/
def firstBlock (base : Nat) : Nat := base + 272

/-- The blocks tile the heap with proper sizes; the filed addresses are, without repetition, those
of the free blocks. -/
structure Shape.Proper (σ : Shape) (base : Nat) : Prop where
  tiles : Tiles (firstBlock base) σ.blocks σ.brk
  sized : ∀ b ∈ σ.blocks, b.Sized
  simple : σ.lists.Simple
  filed : ∀ x, Filed σ.lists x ↔ ∃ b ∈ σ.blocks, b.addr = x ∧ b.alloc = false

/-- A proper shape can be opened at each of its blocks. -/
theorem Shape.Proper.focus {σ : Shape} {base : Nat} (h : σ.Proper base) {b : Block}
    (hb : b ∈ σ.blocks) :
    ∃ φ, σ.focus b.addr = some φ ∧ φ.block = b ∧ φ.shape σ.brk = σ := by
  obtain ⟨front, back, hsplit⟩ := List.append_of_mem hb
  have hfront : ∀ a ∈ front, a.addr ≠ b.addr := by
    intro a ha
    have hsorted := h.tiles.sorted
    rw [hsplit] at hsorted
    have hbefore := (List.pairwise_append.mp hsorted).2.2 a ha b List.mem_cons_self
    have hsized := h.sized a (hsplit ▸ List.mem_append_left _ ha)
    unfold Block.Sized at hsized
    omega
  refine ⟨⟨front, b, back, σ.lists⟩, ?_, rfl, ?_⟩
  · rw [Shape.focus, hsplit, locate_append hfront]
    rfl
  · rw [Focus.shape, ← hsplit]

end SystemProgramming.MemoryLab
