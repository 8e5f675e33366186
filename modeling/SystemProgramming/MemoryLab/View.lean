import SystemProgramming.MemoryLab.Blocks

/-!
# What is known of a heap in the middle of an operation

Between two statements of the allocator some blocks have their tags, some free blocks are on no
list, and the blocks need not tile the heap. A `View` says which blocks have both tag words in
memory, which addresses are linked into which class list, and which bytes still are what they were
(`K` and `f`). It is in two parts: `Geometry` is about numbers only, and `Tagged` and the rings
about the words in memory.

Each primitive of the allocator takes a view to a view. Writing the tags of a block adds it
(`View.setBoundaryTag`) once the blocks it overlaps have been forgotten (`View.forget`);
`View.insertBlock` and `View.removeFromList` file and unfile an address. The reading macros return
what the view says (`View.getSize_hdrp` and its companions).
-/

set_option autoImplicit false
set_option relaxedAutoImplicit false

namespace SystemProgramming.MemoryLab

open Library

/-! ### The two parts of a view -/

/-- Blocks and filed addresses lie in the heap, aligned, in order, and clear of each other. -/
structure Geometry (base limit : Nat) (B : List Block) (L : Filing) : Prop where
  base_mod : base % 8 = 0
  base_pos : 0 < base
  first_le : firstBlock base ≤ limit
  limit_mod : limit % 8 = 0
  limit_lt : limit < 2 ^ 32
  block : ∀ b ∈ B, b.addr % 8 = 0 ∧ b.size % 8 = 0 ∧ 16 ≤ b.size ∧ firstBlock base ≤ b.addr ∧
    b.addr + b.size ≤ limit
  sorted : B.Pairwise fun a b ↦ a.addr + a.size ≤ b.addr
  node : ∀ x, Filed L x → x % 8 = 0 ∧ firstBlock base ≤ x ∧ x + 16 ≤ limit
  apart : ∀ x, Filed L x → ∀ b ∈ B, x = b.addr ∨ x + 16 ≤ b.addr ∨ b.addr + b.size ≤ x

/-- The tag words of the blocks, of the prologue and, if `epi`, of the epilogue are in memory, and
the bytes in `K` are those of `f`. -/
structure Tagged (base limit : Nat) (epi : Bool) (m : ByteMemory) (B : List Block)
    (K : Nat → Prop) (f : ByteMemory) : Prop where
  header : ∀ b ∈ B, wordAt m (b.addr - 4) = b.word
  footer : ∀ b ∈ B, wordAt m (b.addr + b.size - 8) = b.word
  prologueHeader : wordAt m (base + 260) = 9
  prologueFooter : wordAt m (base + 264) = 9
  epilogue : epi = true → wordAt m (limit - 4) = 1
  kept : ∀ a, K a → m a = f a
  low : ∀ a, K a → base + 268 ≤ a

/-- The class lists are in memory, linked through the words at the filed addresses. -/
abbrev Linked (base : Nat) (m : ByteMemory) (L : Filing) : Prop :=
  RingFamily (fun x ↦ wordAt m x) (fun x ↦ wordAt m (x + 4)) (· < sizeClassNum) (classRoot base) L

/-- A word pair that may hold links: a class root, or the start of a place in the heap that is a
block or clear of the blocks, without bytes that are to be kept. -/
def Linkable (base limit : Nat) (B : List Block) (K : Nat → Prop) (y : Nat) : Prop :=
  y % 8 = 0 ∧
    ((base ≤ y ∧ y + 8 ≤ base + 256) ∨ (firstBlock base ≤ y ∧ y + 16 ≤ limit ∧
      ∀ b ∈ B, y = b.addr ∨ y + 16 ≤ b.addr ∨ b.addr + b.size ≤ y)) ∧
    ∀ a, K a → a < y ∨ y + 8 ≤ a

/-- A block fits between the blocks of a view: it is a proper block in the gap, the filed addresses
are its own or clear of it, and its tag words are no bytes that are to be kept. -/
structure Fits (base limit : Nat) (front : List Block) (b : Block) (back : List Block)
    (L : Filing) (K : Nat → Prop) : Prop where
  block : b.addr % 8 = 0 ∧ b.size % 8 = 0 ∧ 16 ≤ b.size ∧ firstBlock base ≤ b.addr ∧
    b.addr + b.size ≤ limit
  front : ∀ a ∈ front, a.addr + a.size ≤ b.addr
  back : ∀ a ∈ back, b.addr + b.size ≤ a.addr
  node : ∀ x, Filed L x → x = b.addr ∨ x + 16 ≤ b.addr ∨ b.addr + b.size ≤ x
  kept : ∀ a, K a → (a < b.addr - 4 ∨ b.addr ≤ a) ∧
    (a < b.addr + b.size - 8 ∨ b.addr + b.size - 4 ≤ a)

theorem Tagged.put {base limit : Nat} {epi : Bool} {m : ByteMemory} {B : List Block}
    {K : Nat → Prop} {f : ByteMemory} (ht : Tagged base limit epi m B K f) {p : Nat} (v : Nat)
    (hB : ∀ b ∈ B, (p + 4 ≤ b.addr - 4 ∨ b.addr - 4 + 4 ≤ p) ∧
      (p + 4 ≤ b.addr + b.size - 8 ∨ b.addr + b.size - 8 + 4 ≤ p))
    (hpro : p + 4 ≤ base + 260 ∨ base + 268 ≤ p)
    (hepi : epi = true → p + 4 ≤ limit - 4 ∨ limit - 4 + 4 ≤ p)
    (hK : ∀ a, K a → a < p ∨ p + 4 ≤ a) : Tagged base limit epi (putWord m p v) B K f where
  header := fun b hb ↦ by
    rw [wordAt_putWord_of_apart m v ((hB b hb).1.symm), ht.header b hb]
  footer := fun b hb ↦ by
    rw [wordAt_putWord_of_apart m v ((hB b hb).2.symm), ht.footer b hb]
  prologueHeader := by
    rw [wordAt_putWord_of_apart m v (by omega), ht.prologueHeader]
  prologueFooter := by
    rw [wordAt_putWord_of_apart m v (by omega), ht.prologueFooter]
  epilogue := fun h ↦ by
    rw [wordAt_putWord_of_apart m v ((hepi h).symm), ht.epilogue h]
  kept := fun a ha ↦ by
    rw [putWord_apply_of_outside m v (hK a ha), ht.kept a ha]
  low := ht.low

/-- Writing a link leaves the tags alone. -/
theorem Tagged.putLink {base limit : Nat} {epi : Bool} {m : ByteMemory} {B : List Block}
    {L : Filing} {K : Nat → Prop} {f : ByteMemory} (ht : Tagged base limit epi m B K f)
    (hg : Geometry base limit B L) {y p : Nat} (v : Nat) (hy : Linkable base limit B K y)
    (hp : p = y ∨ p = y + 4) : Tagged base limit epi (putWord m p v) B K f := by
  obtain ⟨hmod, hplace, hK⟩ := hy
  have hbase := hg.base_mod
  have hlimit := hg.limit_mod
  have hfirst := hg.first_le
  unfold firstBlock at hplace hfirst
  refine ht.put v (fun b hb ↦ ?_) ?_ (fun _ ↦ ?_) fun a ha ↦ ?_
  · have hblock := hg.block b hb
    unfold firstBlock at hblock
    rcases hplace with hroot | ⟨hlow, hhigh, hB⟩
    · omega
    · have happart := hB b hb
      omega
  · omega
  · omega
  · have hspare := hK a ha
    omega

/-- What is known of a heap whose blocks end at `limit`. -/
structure View (h : Heap) (limit : Nat) (epi : Bool) (B : List Block) (L : Filing)
    (K : Nat → Prop) (f : ByteMemory) : Prop where
  arena : h.Arena
  sizeClassP_eq : h.sizeClassP = h.memStartBrk
  prologue_eq : h.prologue = h.memStartBrk + 264
  limit_le : limit ≤ h.memMaxAddr
  geometry : Geometry h.memStartBrk limit B L
  tagged : Tagged h.memStartBrk limit epi h.bytes B K f
  linked : Linked h.memStartBrk h.bytes L
  spared : ∀ a, K a → ∀ x, Filed L x → a < x ∨ x + 8 ≤ a

/-- The heap with other bytes. -/
def Heap.store (h : Heap) (m : ByteMemory) : Heap := { h with bytes := m }

@[simp] theorem Heap.store_store (h : Heap) (m m' : ByteMemory) :
    (h.store m).store m' = h.store m' := rfl

theorem Heap.Arena.store {h : Heap} (ha : h.Arena) (m : ByteMemory) : (h.store m).Arena :=
  ⟨ha.aligned, ha.nonnull, ha.size, ha.below⟩

theorem returns_getWord_store {h : Heap} {p : Nat} (hp : h.InArena p) (m : ByteMemory)
    (Q : Nat → Heap → Prop) :
    Returns (getWord p) (h.store m) Q ↔ Q (wordAt m p) (h.store m) :=
  returns_getWord (h := h.store m) hp Q

theorem returns_putWordAt_store {h : Heap} {p : Nat} (hp : h.InArena p) (v : Nat)
    (m : ByteMemory) (Q : Unit → Heap → Prop) :
    Returns (putWordAt p v) (h.store m) Q ↔ Q () (h.store (putWord m p v)) :=
  returns_putWordAt (h := h.store m) hp Q

/-- What has been written when a computation returns. -/
theorem of_returns_putWordAt {h : Heap} {p v : Nat} {m : ByteMemory} {Q : Unit → Heap → Prop}
    (hret : Returns (putWordAt p v) (h.store m) Q) :
    h.InArena p ∧ Q () (h.store (putWord m p v)) := by
  by_cases hp : h.InArena p
  · exact ⟨hp, (returns_putWordAt_store hp v m Q).mp hret⟩
  · obtain ⟨a, t, heq, -⟩ := hret
    exact absurd ((putWordAt_eq_none (h := h.store m) hp).symm.trans heq) (by simp)

/-! ### Tag words -/

/-- What `set_boundary_tag` writes for a block. -/
def tagBlock (m : ByteMemory) (b : Block) : ByteMemory :=
  putWord (putWord m (b.addr - 4) b.word) (b.addr + b.size - 8) b.word

theorem wordAt_tagBlock {m : ByteMemory} {b : Block} {p : Nat}
    (hb : b.addr % 8 = 0 ∧ b.size % 8 = 0 ∧ b.size < 2 ^ 32) (hlow : 8 ≤ b.addr)
    (hp : p % 4 = 0) : wordAt (tagBlock m b) p =
      if p = b.addr - 4 ∨ p = b.addr + b.size - 8 then b.word else wordAt m p := by
  have hword := Block.word_lt hb.2.1 hb.2.2
  rw [tagBlock, wordAt_putWord _ (by omega) hp hword, wordAt_putWord _ (by omega) hp hword]
  split_ifs <;> first | rfl | omega

section TagWords

variable {h : Heap} {b : Block} {p : Nat}

theorem returns_getSize (hp : h.InArena p) (hw : h.word p = b.word)
    (hb : b.size % 8 = 0 ∧ b.size < 2 ^ 32) (Q : Nat → Heap → Prop) :
    Returns (getSize p) h Q ↔ Q b.size h := by
  rw [getSize, returns_bind, returns_getWord hp, returns_pure, hw,
    Block.word_and_sizeMask hb.1 hb.2]

theorem returns_getAlloc (hp : h.InArena p) (hw : h.word p = b.word) (hb : b.size % 8 = 0)
    (Q : Nat → Heap → Prop) : Returns (getAlloc p) h Q ↔ Q (if b.alloc then 1 else 0) h := by
  rw [getAlloc, returns_bind, returns_getWord hp, returns_pure, hw, Block.word_and_one hb]

theorem returns_getIsbulk (hp : h.InArena p) (hw : h.word p = b.word) (hb : b.size % 8 = 0)
    (Q : Nat → Heap → Prop) : Returns (getIsbulk p) h Q ↔ Q (if b.bulk then 2 else 0) h := by
  rw [getIsbulk, returns_bind, returns_getWord hp, returns_pure, hw, Block.word_and_two hb]

/-- `set_boundary_tag` writes the tag word twice: before the payload, and where the size it has just
written says that the footer is. -/
theorem returns_setBoundaryTag_store {tag e : Nat} (htag : b.tag = tag)
    (hbp : 4 ≤ b.addr ∧ b.addr < 2 ^ 32) (hsize : b.size % 8 = 0 ∧ b.size < 2 ^ 32)
    (hheader : h.InArena (b.addr - 4)) (hend : subWord (addWord b.addr b.size) dsize = e)
    (hfooter : h.InArena e) (m : ByteMemory) (Q : Unit → Heap → Prop) :
    Returns (setBoundaryTag b.addr b.size tag) (h.store m) Q ↔
      Q () (h.store (putWord (putWord m (b.addr - 4) b.word) e b.word)) := by
  subst htag hend
  have hhdrp : hdrp b.addr = b.addr - 4 := subWord_of_le hbp.1 hbp.2
  have hword : b.word < 2 ^ 32 := Block.word_lt hsize.1 hsize.2
  have hread := returns_getSize (h := h.store (putWord m (b.addr - 4) b.word)) hheader
    (wordAt_putWord_self _ _ hword) hsize
  simp only [setBoundaryTag, ftrp, returns_bind, hhdrp, Block.pack_eq_word hsize.1,
    returns_putWordAt_store hheader, hread, returns_pure, returns_putWordAt_store hfooter]

end TagWords

/-- A footer in the arena is where the size says, without a wrap. -/
theorem footer_eq {h : Heap} (ha : h.Arena) {a s : Nat} (hmod : a % 8 = 0 ∧ s % 8 = 0)
    (hlow : 8 ≤ a) (hsum : a + s < 2 ^ 32 + h.memStartBrk)
    (hp : h.InArena (subWord (addWord a s) dsize)) :
    subWord (addWord a s) dsize = a + s - 8 := by
  have haligned := ha.aligned
  have hsize := ha.size
  have hbelow := ha.below
  unfold maxHeap at hsize
  unfold Heap.InArena subWord addWord dsize at *
  omega

/-- `set_boundary_tag` of a block whose footer may be out of the arena. -/
theorem of_returns_setBoundaryTag {h : Heap} (ha : h.Arena) {m : ByteMemory} {b : Block}
    {tag : Nat} (htag : b.tag = tag) (hb : b.addr % 8 = 0 ∧ b.size % 8 = 0 ∧ b.size < 2 ^ 32)
    (hbounds : 8 ≤ b.addr ∧ b.addr < 2 ^ 32) (hsum : b.addr + b.size < 2 ^ 32 + h.memStartBrk)
    {Q : Unit → Heap → Prop}
    (hret : Returns (setBoundaryTag b.addr b.size tag) (h.store m) Q) :
    h.InArena (b.addr + b.size - 8) ∧ Q () (h.store (tagBlock m b)) := by
  subst htag
  have hhdrp : hdrp b.addr = b.addr - 4 :=
    subWord_of_le (by unfold wsize; omega) hbounds.2
  simp only [setBoundaryTag, ftrp, returns_bind, hhdrp, Block.pack_eq_word hb.2.1] at hret
  obtain ⟨hheader, hret⟩ := of_returns_putWordAt hret
  have hread := returns_getSize (h := h.store (putWord m (b.addr - 4) b.word)) hheader
    (wordAt_putWord_self _ _ (Block.word_lt hb.2.1 hb.2.2)) hb.2
  rw [hread, returns_pure] at hret
  obtain ⟨hfooter, hret⟩ := of_returns_putWordAt hret
  have hend : subWord (addWord b.addr b.size) dsize = b.addr + b.size - 8 :=
    footer_eq ha ⟨hb.1, hb.2.1⟩ hbounds.1 hsum hfooter
  rw [hend] at hfooter hret
  exact ⟨hfooter, hret⟩

/-- The header word of a block is in memory. -/
structure Headed (h : Heap) (b : Block) : Prop where
  inArena : h.InArena (b.addr - 4)
  word : h.word (b.addr - 4) = b.word
  size_mod : b.size % 8 = 0
  bounds : 4 ≤ b.addr ∧ b.addr + b.size < 2 ^ 32

namespace Headed

variable {h : Heap} {b : Block}

/-- The address of the header, as the source computes it. -/
theorem hdrp_eq (hb : Headed h b) : hdrp b.addr = b.addr - 4 := by
  have hbounds := hb.bounds
  exact subWord_of_le (by unfold wsize; omega) (by omega)

theorem getSize (hb : Headed h b) (Q : Nat → Heap → Prop) :
    Returns (MemoryLab.getSize (hdrp b.addr)) h Q ↔ Q b.size h := by
  have hbounds := hb.bounds
  rw [hb.hdrp_eq, returns_getSize hb.inArena hb.word ⟨hb.size_mod, by omega⟩]

theorem getAlloc (hb : Headed h b) (Q : Nat → Heap → Prop) :
    Returns (MemoryLab.getAlloc (hdrp b.addr)) h Q ↔ Q (if b.alloc then 1 else 0) h := by
  rw [hb.hdrp_eq, returns_getAlloc hb.inArena hb.word hb.size_mod]

theorem getIsbulk (hb : Headed h b) (Q : Nat → Heap → Prop) :
    Returns (MemoryLab.getIsbulk (hdrp b.addr)) h Q ↔ Q (if b.bulk then 2 else 0) h := by
  rw [hb.hdrp_eq, returns_getIsbulk hb.inArena hb.word hb.size_mod]

theorem nextBlkp (hb : Headed h b) (Q : Nat → Heap → Prop) :
    Returns (MemoryLab.nextBlkp b.addr) h Q ↔ Q (b.addr + b.size) h := by
  have hbounds := hb.bounds
  rw [MemoryLab.nextBlkp, returns_bind]
  change Returns (MemoryLab.getSize (hdrp b.addr)) h _ ↔ _
  rw [hb.getSize, returns_pure, addWord_of_lt hbounds.2]

theorem ftrp (hb : Headed h b) (hsize : 8 ≤ b.size) (Q : Nat → Heap → Prop) :
    Returns (MemoryLab.ftrp b.addr) h Q ↔ Q (b.addr + b.size - 8) h := by
  have hbounds := hb.bounds
  have hend : subWord (addWord b.addr b.size) dsize = b.addr + b.size - 8 := by
    rw [addWord_of_lt hbounds.2, subWord_of_le (by unfold dsize; omega) (by omega)]
    rfl
  rw [MemoryLab.ftrp, returns_bind, hb.getSize, returns_pure, hend]

end Headed

namespace Geometry

variable {h : Heap} {limit : Nat} {epi : Bool} {B : List Block} {L : Filing} {K : Nat → Prop}
  {f : ByteMemory}

theorem headed (hg : Geometry h.memStartBrk limit B L) (hle : limit ≤ h.memMaxAddr)
    (ht : Tagged h.memStartBrk limit epi h.bytes B K f) {b : Block} (hb : b ∈ B) : Headed h b := by
  have hblock := hg.block b hb
  have hlt := hg.limit_lt
  unfold firstBlock at hblock
  exact ⟨⟨by omega, by omega⟩, ht.header b hb, hblock.2.1, by omega, by omega⟩

/-- The prologue is an allocated block without a payload. -/
theorem headed_prologue (hg : Geometry h.memStartBrk limit B L) (hle : limit ≤ h.memMaxAddr)
    (ht : Tagged h.memStartBrk limit epi h.bytes B K f) :
    Headed h ⟨h.memStartBrk + 264, 8, true, false⟩ := by
  have hfirst := hg.first_le
  have hlt := hg.limit_lt
  unfold firstBlock at hfirst
  exact ⟨⟨by dsimp only; omega, by dsimp only; omega⟩, ht.prologueHeader, Nat.mod_self 8,
    by dsimp only; omega, by dsimp only; omega⟩

/-- The epilogue is an allocated block of size zero. -/
theorem headed_epilogue (hg : Geometry h.memStartBrk limit B L) (hle : limit ≤ h.memMaxAddr)
    (ht : Tagged h.memStartBrk limit true h.bytes B K f) : Headed h ⟨limit, 0, true, false⟩ := by
  have hfirst := hg.first_le
  have hlt := hg.limit_lt
  unfold firstBlock at hfirst
  exact ⟨⟨by dsimp only; omega, by dsimp only; omega⟩, ht.epilogue rfl, Nat.zero_mod 8,
    by dsimp only; omega, by dsimp only; omega⟩

end Geometry

namespace View

variable {h : Heap} {limit : Nat} {epi : Bool} {B : List Block} {L : Filing} {K : Nat → Prop}
  {f : ByteMemory}

/-! ### Addresses of a view -/

/-- A word of the heap that lies in the arena. -/
theorem inArena (hv : View h limit epi B L K f) {p : Nat} (hlow : h.memStartBrk ≤ p)
    (hhigh : p + 4 ≤ limit) : h.InArena p :=
  ⟨hlow, hhigh.trans hv.limit_le⟩

theorem simple (hv : View h limit epi B L K f) : L.Simple where
  nodup := fun c hc ↦ (List.nodup_cons.mp (hv.linked.nodup c hc)).2
  disjoint := fun _ hc _ hd _ hxc hxd ↦ hv.linked.index_unique hc hd
    (List.mem_cons_of_mem _ hxc) (List.mem_cons_of_mem _ hxd)

theorem linkable_of_filed (hv : View h limit epi B L K f) {x : Nat} (hx : Filed L x) :
    Linkable h.memStartBrk limit B K x := by
  obtain ⟨hmod, hlow, hhigh⟩ := hv.geometry.node x hx
  exact ⟨hmod, Or.inr ⟨hlow, hhigh, hv.geometry.apart x hx⟩, fun a ha ↦ hv.spared a ha x hx⟩

theorem linkable_of_root (hv : View h limit epi B L K f) {c : Nat} (hc : c < sizeClassNum) :
    Linkable h.memStartBrk limit B K (classRoot h.memStartBrk c) := by
  have hmod := hv.geometry.base_mod
  unfold sizeClassNum at hc
  unfold classRoot
  refine ⟨by omega, Or.inl (by omega), fun a ha ↦ ?_⟩
  have hlow := hv.tagged.low a ha
  omega

/-- Roots and filed addresses hold links. -/
theorem linkable (hv : View h limit epi B L K f) {y : Nat}
    (hy : RingMember (· < sizeClassNum) (classRoot h.memStartBrk) L y) :
    Linkable h.memStartBrk limit B K y := by
  obtain ⟨c, hc, hmem⟩ := hy
  rcases List.mem_cons.mp hmem with rfl | hmem
  · exact hv.linkable_of_root hc
  · exact hv.linkable_of_filed ⟨c, hc, hmem⟩

/-- A word pair that may hold links is aligned and lies in the heap. -/
theorem linkable_bounds (hv : View h limit epi B L K f) {y : Nat}
    (hy : Linkable h.memStartBrk limit B K y) :
    y % 8 = 0 ∧ h.memStartBrk ≤ y ∧ y + 8 ≤ limit := by
  have hfirst := hv.geometry.first_le
  obtain ⟨hmod, hplace, -⟩ := hy
  unfold firstBlock at hfirst hplace
  refine ⟨hmod, ?_⟩
  rcases hplace with hroot | ⟨hlow, hhigh, -⟩ <;> omega

/-! ### Reading -/

theorem getWord_eq (hv : View h limit epi B L K f) {p : Nat} (hlow : h.memStartBrk ≤ p)
    (hhigh : p + 4 ≤ limit) (Q : Nat → Heap → Prop) :
    Returns (getWord p) h Q ↔ Q (wordAt h.bytes p) h :=
  returns_getWord (hv.inArena hlow hhigh) Q

theorem header_inArena (hv : View h limit epi B L K f) {b : Block} (hb : b ∈ B) :
    h.InArena (b.addr - 4) ∧ h.InArena (b.addr + b.size - 8) := by
  have hblock := hv.geometry.block b hb
  unfold firstBlock at hblock
  exact ⟨hv.inArena (by omega) (by omega), hv.inArena (by omega) (by omega)⟩

theorem headed (hv : View h limit epi B L K f) {b : Block} (hb : b ∈ B) : Headed h b :=
  hv.geometry.headed hv.limit_le hv.tagged hb

/-- The address of a block's header, as the source computes it. -/
theorem hdrp_block (hv : View h limit epi B L K f) {b : Block} (hb : b ∈ B) :
    hdrp b.addr = b.addr - 4 :=
  (hv.headed hb).hdrp_eq

theorem getSize_hdrp (hv : View h limit epi B L K f) {b : Block} (hb : b ∈ B)
    (Q : Nat → Heap → Prop) : Returns (getSize (hdrp b.addr)) h Q ↔ Q b.size h :=
  (hv.headed hb).getSize Q

theorem getAlloc_hdrp (hv : View h limit epi B L K f) {b : Block} (hb : b ∈ B)
    (Q : Nat → Heap → Prop) :
    Returns (getAlloc (hdrp b.addr)) h Q ↔ Q (if b.alloc then 1 else 0) h :=
  (hv.headed hb).getAlloc Q

theorem getIsbulk_hdrp (hv : View h limit epi B L K f) {b : Block} (hb : b ∈ B)
    (Q : Nat → Heap → Prop) :
    Returns (getIsbulk (hdrp b.addr)) h Q ↔ Q (if b.bulk then 2 else 0) h :=
  (hv.headed hb).getIsbulk Q

theorem ftrp_block (hv : View h limit epi B L K f) {b : Block} (hb : b ∈ B)
    (Q : Nat → Heap → Prop) : Returns (ftrp b.addr) h Q ↔ Q (b.addr + b.size - 8) h := by
  have hblock := hv.geometry.block b hb
  exact (hv.headed hb).ftrp (by omega) Q

theorem nextBlkp_block (hv : View h limit epi B L K f) {b : Block} (hb : b ∈ B)
    (Q : Nat → Heap → Prop) : Returns (nextBlkp b.addr) h Q ↔ Q (b.addr + b.size) h :=
  (hv.headed hb).nextBlkp Q

theorem getAlloc_footer (hv : View h limit epi B L K f) {b : Block} (hb : b ∈ B)
    (Q : Nat → Heap → Prop) :
    Returns (getAlloc (b.addr + b.size - 8)) h Q ↔ Q (if b.alloc then 1 else 0) h := by
  exact returns_getAlloc (hv.header_inArena hb).2 (hv.tagged.footer b hb)
    (hv.geometry.block b hb).2.1 Q

/-- `PREV_BLKP` of the address behind a block. -/
theorem prevBlkp_block (hv : View h limit epi B L K f) {b : Block} (hb : b ∈ B)
    (Q : Nat → Heap → Prop) : Returns (prevBlkp (b.addr + b.size)) h Q ↔ Q b.addr h := by
  have hblock := hv.geometry.block b hb
  have hlt := hv.geometry.limit_lt
  have hfooter : subWord (b.addr + b.size) dsize = b.addr + b.size - 8 :=
    subWord_of_le (by unfold dsize; omega) (by omega)
  have hstart : subWord (b.addr + b.size) b.size = b.addr := by
    rw [subWord_of_le (by omega) (by omega)]
    omega
  rw [prevBlkp, returns_bind, hfooter, returns_getSize (hv.header_inArena hb).2
    (hv.tagged.footer b hb) ⟨hblock.2.1, by omega⟩, returns_pure, hstart]

/-- The words of the prologue, at its header and at its footer. -/
theorem prologue_word (hv : View h limit epi B L K f) {p : Nat}
    (hp : p = h.memStartBrk + 260 ∨ p = h.memStartBrk + 264) (Q : Nat → Heap → Prop) :
    Returns (getWord p) h Q ↔ Q 9 h := by
  have hfirst := hv.geometry.first_le
  unfold firstBlock at hfirst
  rcases hp with rfl | rfl
  · rw [hv.getWord_eq (by omega) (by omega), hv.tagged.prologueHeader]
  · rw [hv.getWord_eq (by omega) (by omega), hv.tagged.prologueFooter]

/-- The prologue, with its header in memory. -/
theorem prologue (hv : View h limit epi B L K f) :
    Headed h ⟨h.memStartBrk + 264, 8, true, false⟩ :=
  hv.geometry.headed_prologue hv.limit_le hv.tagged

theorem hdrp_prologue (hv : View h limit epi B L K f) :
    hdrp (h.memStartBrk + 264) = h.memStartBrk + 260 :=
  hv.prologue.hdrp_eq

/-- The block before the first one is the prologue. -/
theorem prevBlkp_first (hv : View h limit epi B L K f) (Q : Nat → Heap → Prop) :
    Returns (prevBlkp (firstBlock h.memStartBrk)) h Q ↔ Q (h.memStartBrk + 264) h := by
  have hfirst := hv.geometry.first_le
  have hlt := hv.geometry.limit_lt
  unfold firstBlock at hfirst ⊢
  have hfooter : subWord (h.memStartBrk + 272) dsize = h.memStartBrk + 264 :=
    subWord_of_le (by unfold dsize; omega) (by omega)
  have hbp : subWord (h.memStartBrk + 272) 8 = h.memStartBrk + 264 :=
    subWord_of_le (by omega) (by omega)
  simp only [returns_bind, prevBlkp, getSize, returns_pure, hfooter]
  rw [hv.prologue_word (Or.inr rfl), show 9 &&& sizeMask = 8 from rfl, hbp]

theorem ftrp_prologue (hv : View h limit epi B L K f) (Q : Nat → Heap → Prop) :
    Returns (ftrp (h.memStartBrk + 264)) h Q ↔ Q (h.memStartBrk + 264) h :=
  hv.prologue.ftrp (Nat.le_refl 8) Q

/-- The prologue is allocated and has no bulk tag. -/
theorem getAlloc_prologue (hv : View h limit epi B L K f) {p : Nat}
    (hp : p = h.memStartBrk + 260 ∨ p = h.memStartBrk + 264) (Q : Nat → Heap → Prop) :
    Returns (getAlloc p) h Q ↔ Q 1 h := by
  rw [getAlloc, returns_bind, hv.prologue_word hp, returns_pure]
  rfl

theorem getIsbulk_prologue (hv : View h limit epi B L K f) {p : Nat}
    (hp : p = h.memStartBrk + 260 ∨ p = h.memStartBrk + 264) (Q : Nat → Heap → Prop) :
    Returns (getIsbulk p) h Q ↔ Q 0 h := by
  rw [getIsbulk, returns_bind, hv.prologue_word hp, returns_pure]
  rfl

theorem hdrp_limit (hv : View h limit epi B L K f) : hdrp limit = limit - 4 := by
  have hfirst := hv.geometry.first_le
  have hlt := hv.geometry.limit_lt
  unfold firstBlock at hfirst
  exact subWord_of_le (by unfold wsize; omega) hlt

/-- The epilogue, with its header in memory. -/
theorem epilogue (hv : View h limit true B L K f) : Headed h ⟨limit, 0, true, false⟩ :=
  hv.geometry.headed_epilogue hv.limit_le hv.tagged

theorem getAlloc_epilogue (hv : View h limit true B L K f) (Q : Nat → Heap → Prop) :
    Returns (getAlloc (hdrp limit)) h Q ↔ Q 1 h :=
  hv.epilogue.getAlloc Q

theorem getSize_epilogue (hv : View h limit true B L K f) (Q : Nat → Heap → Prop) :
    Returns (getSize (hdrp limit)) h Q ↔ Q 0 h :=
  hv.epilogue.getSize Q

theorem getClassRoot_eq (hv : View h limit epi B L K f) {c : Nat} (hc : c < sizeClassNum)
    (Q : Nat → Heap → Prop) :
    Returns (getClassRoot c) h Q ↔ Q (classRoot h.memStartBrk c) h := by
  have hfirst := hv.geometry.first_le
  have hlt := hv.geometry.limit_lt
  unfold firstBlock at hfirst
  unfold sizeClassNum at hc
  have hroot : addWord h.sizeClassP (dsize * c) = classRoot h.memStartBrk c := by
    rw [hv.sizeClassP_eq, addWord_of_lt (by unfold dsize; omega)]
    rfl
  simp only [getClassRoot, returns_bind, returns_get, returns_pure, hroot]

/-- The links of a root or a filed address, as the source reads them. -/
theorem nextFree_eq (hv : View h limit epi B L K f) {y : Nat}
    (hy : Linkable h.memStartBrk limit B K y) (Q : Nat → Heap → Prop) :
    Returns (nextFree y) h Q ↔ Q (wordAt h.bytes y) h := by
  obtain ⟨-, hlow, hhigh⟩ := hv.linkable_bounds hy
  exact hv.getWord_eq hlow (by omega) Q

theorem addWord_wsize (hv : View h limit epi B L K f) {y : Nat}
    (hy : Linkable h.memStartBrk limit B K y) : addWord y wsize = y + 4 := by
  obtain ⟨-, hlow, hhigh⟩ := hv.linkable_bounds hy
  have hlt := hv.geometry.limit_lt
  exact addWord_of_lt (by unfold wsize; omega)

end View

end SystemProgramming.MemoryLab
