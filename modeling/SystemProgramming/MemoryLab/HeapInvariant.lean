import SystemProgramming.MemoryLab.Placing
import SystemProgramming.MemoryLab.Searching

/-!
# The heap invariant

`HeapInvariant h σ` says that the heap `h` holds the shape `σ`: the blocks of `σ` lie end to end
from the first block to the break, the header and the footer of each say what it is, the epilogue
stands before the break, and the class lists are rings through the roots whose nodes are the free
blocks. It is a view of the whole heap (`HeapInvariant.view`, `HeapInvariant.of_view`), so that
the requests can be followed through their primitives: `mm_malloc` and `mm_free` do to the shape
what `Shape.malloc` and `Focus.free` say (`HeapInvariant.mmMalloc`, `HeapInvariant.mmFree`).
-/

set_option autoImplicit false
set_option relaxedAutoImplicit false

namespace SystemProgramming.MemoryLab

open Library

/-- The heap in memory has this shape. -/
structure HeapInvariant (h : Heap) (σ : Shape) : Prop where
  arena : h.Arena
  sizeClassP_eq : h.sizeClassP = h.memStartBrk
  prologue_eq : h.prologue = h.memStartBrk + 264
  brk_eq : h.memBrk = σ.brk
  brk_le : σ.brk ≤ h.memMaxAddr
  proper : σ.Proper h.memStartBrk
  header : ∀ b ∈ σ.blocks, h.word (b.addr - 4) = b.word
  footer : ∀ b ∈ σ.blocks, h.word (b.addr + b.size - 8) = b.word
  prologueHeader : h.word (h.memStartBrk + 260) = 9
  prologueFooter : h.word (h.memStartBrk + 264) = 9
  epilogue : h.word (σ.brk - 4) = 1
  linked : Linked h.memStartBrk h.bytes σ.lists

/-- A byte of the payload of a block. -/
def Payload (b : Block) (a : Nat) : Prop := b.addr ≤ a ∧ a + 8 < b.addr + b.size

/-- A byte in the payload of an allocated block. -/
def Owned (blocks : List Block) (a : Nat) : Prop :=
  ∃ b ∈ blocks, b.alloc = true ∧ Payload b a

theorem Shape.Proper.geometry {σ : Shape} {base : Nat} (h : σ.Proper base) (hbase : base % 8 = 0)
    (hpos : 0 < base) (hlt : σ.brk < 2 ^ 32) : Geometry base σ.brk σ.blocks σ.lists := by
  obtain ⟨haligned, hbrk⟩ := h.aligned hbase
  refine ⟨hbase, hpos, h.tiles.le, hbrk, hlt, fun b hb ↦ ?_, h.tiles.sorted, fun x hx ↦ ?_,
    fun x hx b hb ↦ ?_⟩
  · have hsized := h.sized b hb
    have hbounds := h.tiles.bounds b hb
    exact ⟨haligned b hb, hsized.1, hsized.2, hbounds.1, hbounds.2⟩
  · obtain ⟨b, hb, rfl, -⟩ := (h.filed x).mp hx
    have hsized := h.sized b hb
    have hbounds := h.tiles.bounds b hb
    unfold Block.Sized at hsized
    exact ⟨haligned b hb, hbounds.1, by omega⟩
  · obtain ⟨c, hc, rfl, -⟩ := (h.filed x).mp hx
    have hsized := h.sized c hc
    unfold Block.Sized at hsized
    obtain ⟨φ, -, rfl, hshape⟩ := h.focus hb
    have hsorted := h.tiles.sorted
    rw [← hshape] at hsorted hc
    obtain ⟨-, hback, hfront⟩ := List.pairwise_append.mp hsorted
    rcases List.mem_append.mp hc with hc | hc
    · have hbefore := hfront c hc _ List.mem_cons_self
      omega
    · rcases List.mem_cons.mp hc with rfl | hc
      · exact Or.inl rfl
      · exact Or.inr (Or.inr ((List.pairwise_cons.mp hback).1 c hc))

/-- The payload of an allocated block is clear of the words a block in focus may write. -/
theorem Shape.Proper.clear {φ : Focus} {base brk : Nat} (h : (φ.shape brk).Proper base)
    {c : Block} (hc : c ∈ (φ.shape brk).blocks) (hne : c ≠ φ.block) {a : Nat} (ha : Payload c a) :
    a + 8 < φ.block.addr ∨ φ.block.addr + φ.block.size ≤ a := by
  have hsorted := h.tiles.sorted
  obtain ⟨-, hback, hfront⟩ := List.pairwise_append.mp hsorted
  unfold Payload at ha
  rcases List.mem_append.mp hc with hc | hc
  · have hbefore := hfront c hc _ List.mem_cons_self
    omega
  · rcases List.mem_cons.mp hc with rfl | hc
    · exact absurd rfl hne
    · have hafter := (List.pairwise_cons.mp hback).1 c hc
      omega

namespace HeapInvariant

variable {h : Heap} {σ : Shape} {K : Nat → Prop} {f : ByteMemory}

theorem brk_lt (hi : HeapInvariant h σ) : σ.brk < 2 ^ 32 :=
  hi.brk_le.trans_lt hi.arena.below

theorem geometry (hi : HeapInvariant h σ) :
    Geometry h.memStartBrk σ.brk σ.blocks σ.lists :=
  hi.proper.geometry hi.arena.aligned hi.arena.nonnull hi.brk_lt

/-- The heap as a view that keeps bytes of payloads of allocated blocks. -/
theorem view (hi : HeapInvariant h σ) (hK : ∀ a, K a → Owned σ.blocks a) :
    View h σ.brk true σ.blocks σ.lists K h.bytes where
  arena := hi.arena
  sizeClassP_eq := hi.sizeClassP_eq
  prologue_eq := hi.prologue_eq
  limit_le := hi.brk_le
  geometry := hi.geometry
  tagged := by
    refine ⟨hi.header, hi.footer, hi.prologueHeader, hi.prologueFooter, fun _ ↦ hi.epilogue,
      fun _ _ ↦ rfl, fun a ha ↦ ?_⟩
    obtain ⟨b, hb, -, hpayload⟩ := hK a ha
    have hlow := (hi.proper.tiles.bounds b hb).1
    unfold Payload at hpayload
    unfold firstBlock at hlow
    omega
  linked := hi.linked
  spared := fun a ha x hx ↦ by
    obtain ⟨b, hb, halloc, hpayload⟩ := hK a ha
    obtain ⟨c, hc, rfl, hfree⟩ := (hi.proper.filed x).mp hx
    have happart := hi.geometry.apart c.addr hx b hb
    have hne : c.addr ≠ b.addr := fun heq ↦ by
      have hcb := eq_of_addr_eq hi.proper.tiles.sorted hi.proper.sized hc hb heq
      rw [hcb, halloc] at hfree
      exact absurd hfree (by simp)
    unfold Payload at hpayload
    omega

theorem of_view (hv : View h σ.brk true σ.blocks σ.lists K f) (hbrk : h.memBrk = σ.brk)
    (hproper : σ.Proper h.memStartBrk) : HeapInvariant h σ where
  arena := hv.arena
  sizeClassP_eq := hv.sizeClassP_eq
  prologue_eq := hv.prologue_eq
  brk_eq := hbrk
  brk_le := hv.limit_le
  proper := hproper
  header := hv.tagged.header
  footer := hv.tagged.footer
  prologueHeader := hv.tagged.prologueHeader
  prologueFooter := hv.tagged.prologueFooter
  epilogue := hv.tagged.epilogue rfl
  linked := hv.linked

/-- The payload of an allocated block holds no word of the allocator: no tag of any block, no word
of the prologue or the epilogue, no root and no link. -/
theorem payload_clear (hi : HeapInvariant h σ) {a : Nat} (ha : Owned σ.blocks a) :
    (∀ c ∈ σ.blocks, (a < c.addr - 4 ∨ c.addr ≤ a) ∧
      (a < c.addr + c.size - 8 ∨ c.addr + c.size - 4 ≤ a)) ∧
      h.memStartBrk + 272 ≤ a ∧ a < σ.brk - 4 ∧ ∀ x, Filed σ.lists x → a < x ∨ x + 8 ≤ a := by
  have hspared := (hi.view (K := Owned σ.blocks) fun _ h ↦ h).spared a ha
  obtain ⟨b, hb, -, hpayload⟩ := ha
  have hblock := hi.geometry.block b hb
  unfold Payload at hpayload
  unfold firstBlock at hblock
  refine ⟨fun c hc ↦ ?_, by omega, by omega, hspared⟩
  have hcblock := hi.geometry.block c hc
  unfold firstBlock at hcblock
  rcases hi.geometry.trichotomy hb hc with rfl | hafter | hbefore <;> omega

/-- A byte written into the payload of an allocated block changes nothing else. -/
theorem write (hi : HeapInvariant h σ) {a : Nat} (ha : Owned σ.blocks a) (v : UInt8) :
    HeapInvariant { h with bytes := Function.update h.bytes a v } σ := by
  obtain ⟨htags, hlow, hhigh, hlinks⟩ := hi.payload_clear ha
  have hword : ∀ q, (a < q ∨ q + 4 ≤ a) →
      wordAt (Function.update h.bytes a v) q = wordAt h.bytes q := fun q hq ↦
    wordAt_congr fun x hxlow hxhigh ↦ Function.update_of_ne (by omega) _ _
  have hfirst := hi.geometry.first_le
  unfold firstBlock at hfirst
  refine ⟨⟨hi.arena.aligned, hi.arena.nonnull, hi.arena.size, hi.arena.below⟩, hi.sizeClassP_eq,
    hi.prologue_eq, hi.brk_eq, hi.brk_le, hi.proper, fun c hc ↦ ?_, fun c hc ↦ ?_, ?_, ?_, ?_, ?_⟩
  · have hblock := hi.geometry.block c hc
    have hclear := (htags c hc).1
    unfold firstBlock at hblock
    exact (hword _ (by omega)).trans (hi.header c hc)
  · have hblock := hi.geometry.block c hc
    have hclear := (htags c hc).2
    unfold firstBlock at hblock
    exact (hword _ (by omega)).trans (hi.footer c hc)
  · exact (hword (h.memStartBrk + 260) (by omega)).trans hi.prologueHeader
  · exact (hword (h.memStartBrk + 264) (by omega)).trans hi.prologueFooter
  · exact (hword (σ.brk - 4) (by omega)).trans hi.epilogue
  · have hmember : ∀ y, RingMember (· < sizeClassNum) (classRoot h.memStartBrk) σ.lists y →
        a < y ∨ y + 8 ≤ a := by
      rintro y ⟨c, hc, hmem⟩
      rcases List.mem_cons.mp hmem with rfl | hmem
      · have hc' : c < 32 := hc
        unfold classRoot
        omega
      · exact hlinks y ⟨c, hc, hmem⟩
    refine hi.linked.congr (fun y hy ↦ hword y ?_) fun y hy ↦ hword (y + 4) ?_
    · have hclear := hmember y hy
      omega
    · have hclear := hmember y hy
      omega

/-! ### Requests -/

/-- What a request leaves behind: a heap of the new shape in the same arena, with the bytes in `K`
as they were. -/
structure Serves (h h' : Heap) (σ' : Shape) (K : Nat → Prop) : Prop where
  memStartBrk_eq : h'.memStartBrk = h.memStartBrk
  memMaxAddr_eq : h'.memMaxAddr = h.memMaxAddr
  invariant : HeapInvariant h' σ'
  kept : ∀ a, K a → h'.bytes a = h.bytes a

theorem serves_of_view {brk : Nat} {m : ByteMemory}
    (hv : View ({ h with memBrk := brk }.store m) brk true σ.blocks σ.lists K h.bytes)
    (hbrk : σ.brk = brk) (hproper : σ.Proper h.memStartBrk) :
    Serves h ({ h with memBrk := brk }.store m) σ K := by
  subst hbrk
  exact ⟨rfl, rfl, of_view hv rfl hproper, hv.tagged.kept⟩

/-- The payloads of allocated blocks are clear of a free block in focus. -/
theorem clear_of_owned {φ : Focus} {base brk : Nat} {blocks : List Block}
    (hproper : (φ.shape brk).Proper base) (hfree : φ.block.alloc = false)
    (hmem : ∀ c : Block, c.alloc = true → (c ∈ (φ.shape brk).blocks ↔ c ∈ blocks)) {a : Nat}
    (ha : Owned blocks a) : a + 8 < φ.block.addr ∨ φ.block.addr + φ.block.size ≤ a := by
  obtain ⟨c, hc, halloc, hpayload⟩ := ha
  refine hproper.clear ((hmem c halloc).mpr hc) ?_ hpayload
  rintro rfl
  rw [hfree] at halloc
  exact absurd halloc (by simp)

/-- They lie before a free block that ends the heap. -/
theorem before_of_owned {φ : Focus} {base brk : Nat} {blocks : List Block}
    (hproper : (φ.shape brk).Proper base) (hfree : φ.block.alloc = false) (hback : φ.back = [])
    (hmem : ∀ c : Block, c.alloc = true → (c ∈ (φ.shape brk).blocks ↔ c ∈ blocks)) {a : Nat}
    (ha : Owned blocks a) : a + 8 < φ.block.addr := by
  have hclear := clear_of_owned hproper hfree hmem ha
  obtain ⟨c, hc, halloc, hpayload⟩ := ha
  have hbounds := hproper.tiles.bounds c ((hmem c halloc).mpr hc)
  have htiles := hproper.tiles
  rw [Focus.shape, hback] at htiles
  obtain ⟨middle, -, -, hlast⟩ := tiles_append.mp htiles
  change _ ∧ _ ≤ brk at hbounds
  change φ.block.addr + φ.block.size = brk at hlast
  unfold Payload at hpayload
  omega

/-- Placing into a free block of a proper shape. -/
theorem place_serves {φ : Focus} {asize brk : Nat} {m₀ : ByteMemory} (cls : Nat)
    (hv : View ({ h with memBrk := brk }.store m₀) brk true (φ.shape brk).blocks φ.lists K h.bytes)
    (hproper : (φ.shape brk).Proper h.memStartBrk) (hfree : φ.block.alloc = false)
    (hasize : asize % 8 = 0 ∧ 16 ≤ asize) (hfits : asize ≤ φ.block.size)
    (hK : ∀ a, K a → a + 8 < φ.block.addr ∨ φ.block.addr + φ.block.size ≤ a) :
    Returns (MemoryLab.place φ.block.addr asize cls) ({ h with memBrk := brk }.store m₀)
      fun _ h' ↦ h'.glRanges = h.glRanges ∧ Serves h h' (φ.place asize cls brk) K := by
  have hb : φ.block ∈ (φ.shape brk).blocks := by simp [Focus.shape]
  refine View.place hv ((hproper.filed _).mpr ⟨_, hb, rfl, hfree⟩) hasize hfits (fun a ha ↦ ?_)
    fun m hm ↦ ⟨rfl, serves_of_view hm (φ.place_brk _ _ _)
      (Focus.proper_place hproper hfree hasize hfits)⟩
  have hspare := hK a ha
  omega

/-- Neither way of extending the heap changes anything when `mem_sbrk` refuses the request. -/
theorem extend_refused (hi : HeapInvariant h σ) {asize : Nat}
    (hfail : h.sbrkRefused = true ∨ 2 ^ 31 ≤ sbrkAmount asize ∨
      h.memMaxAddr < addWord σ.brk (sbrkAmount asize)) {Q : Nat → Heap → Prop} (hQ : Q null h) :
    if asize ≤ chunkSize then Returns (extendHeapBulk asize) h Q
      else Returns (extendHeap asize) h Q := by
  unfold sbrkAmount at hfail
  split_ifs at hfail ⊢ with hsmall
  · rw [extendHeapBulk, bulksize_eq hsmall, returns_bind,
      returns_memSbrk_fail (hi.brk_eq ▸ hfail), returns_ite, if_pos rfl, returns_pure]
    exact hQ
  · rw [extendHeap, returns_bind, returns_memSbrk_fail (hi.brk_eq ▸ hfail), returns_ite,
      if_pos rfl, returns_pure]
    exact hQ

theorem findFit_eq (hi : HeapInvariant h σ) (asize : Nat) :
    findFit asize h = some ((σ.fit asize).getD (null, sizeClassNum), h) := by
  have hv := hi.view (K := fun _ ↦ False) fun _ ha ↦ absurd ha id
  exact eq_of_returns_iff fun Q ↦ hv.findFit hi.proper Q

/-- A block that is found is not the null pointer. -/
theorem fit_ne_null (hi : HeapInvariant h σ) {asize x cls : Nat}
    (hfit : σ.fit asize = some (x, cls)) : x ≠ null := by
  obtain ⟨hcls, hmem, -⟩ := Shape.search_eq_some (Nat.sub_le _ _) hfit
  have hnode := hi.geometry.node x ⟨cls, hcls, hmem⟩
  unfold firstBlock at hnode
  unfold null
  omega

/-- What `mm_malloc` does when a block is found. -/
theorem returns_mmMalloc_fit (hi : HeapInvariant h σ) {size asize x cls : Nat} (hpos : 0 < size)
    (hreq : align (addWord size dsize) = asize) (hfit : σ.fit asize = some (x, cls))
    (Q : Nat → Heap → Prop) : Returns (MemoryLab.mmMalloc size) h Q ↔
      Returns (MemoryLab.place x asize cls) h fun _ t ↦ Q x t := by
  subst hreq
  simp only [MemoryLab.mmMalloc]
  rw [returns_ite, if_neg (by omega), returns_bind, returns_iff_of_eq (hi.findFit_eq _), hfit,
    Option.getD_some, returns_ite, if_pos (hi.fit_ne_null hfit), returns_bind]
  simp only [returns_pure]

/-- What `mm_malloc` does when nothing is found. -/
theorem returns_mmMalloc_unfit (hi : HeapInvariant h σ) {size asize : Nat} (hpos : 0 < size)
    (hreq : align (addWord size dsize) = asize) (hfit : σ.fit asize = none)
    (Q : Nat → Heap → Prop) : Returns (MemoryLab.mmMalloc size) h Q ↔
      Returns (if asize ≤ chunkSize then extendHeapBulk asize else extendHeap asize) h fun bp t ↦
        Returns (if bp = null then pure null else do
          MemoryLab.place bp asize 0
          pure bp) t Q := by
  subst hreq
  simp only [MemoryLab.mmMalloc]
  rw [returns_ite, if_neg (by omega), returns_bind, returns_iff_of_eq (hi.findFit_eq _), hfit,
    Option.getD_none, returns_ite, if_neg (by simp), returns_bind]

/-- `mm_malloc` does what `Shape.malloc` says. -/
theorem mmMalloc (hi : HeapInvariant h σ) {size p : Nat} {σ' : Shape} (hpos : 0 < size)
    (hlt : size < 2 ^ 31)
    (hm : σ.malloc h.memMaxAddr h.sbrkRefused size = some (p, σ')) :
    Returns (MemoryLab.mmMalloc size) h fun q h' ↦
      q = p ∧ h'.glRanges = h.glRanges ∧ Serves h h' σ' (Owned σ.blocks) := by
  obtain ⟨hasize, -, -⟩ := align_request hpos hlt
  have hv := hi.view (K := Owned σ.blocks) fun _ ha ↦ ha
  have hnonnull : ∀ {limit : Nat} {B : List Block} {L : Filing} {h' : Heap} {b : Block},
      View h' limit true B L (Owned σ.blocks) h.bytes → b ∈ B → b.addr ≠ null :=
    fun hv' hb ↦ by
      have hblock := hv'.geometry.block _ hb
      have hbase := hv'.geometry.base_pos
      unfold firstBlock at hblock
      unfold null
      omega
  generalize hreq : align (addWord size dsize) = asize at *
  unfold Shape.malloc at hm
  rw [hreq, if_neg (by omega)] at hm
  rcases hfit : σ.fit asize with _ | ⟨x, cls⟩
  · simp only [hfit] at hm
    rw [hi.returns_mmMalloc_unfit hpos hreq hfit, returns_ite]
    split_ifs at hm with hfail hwrap hbulk
    · -- the request is refused
      simp only [Option.some.injEq, Prod.mk.injEq] at hm
      obtain ⟨rfl, rfl⟩ := hm
      refine hi.extend_refused hfail ?_
      rw [returns_ite, if_pos rfl, returns_pure]
      exact ⟨rfl, rfl, rfl, rfl, hi, fun _ _ ↦ rfl⟩
    · -- a bulk block is created
      simp only [Option.some.injEq, Prod.mk.injEq] at hm
      obtain ⟨rfl, rfl⟩ := hm
      rw [sbrkAmount, if_pos hbulk] at hfail hwrap ⊢
      rw [if_pos hbulk]
      have hproper := Shape.proper_extendBulk hi.proper hasize
      obtain ⟨hfree, hsize, hback⟩ := Shape.extendBulk_block σ asize
      have hbefore := fun a (ha : Owned σ.blocks a) ↦ before_of_owned hproper hfree hback
        (fun c hc ↦ Shape.mem_extendBulk hc) ha
      refine hv.extendHeapBulk hi.brk_eq hi.proper hasize hbulk (hi.brk_eq ▸ hfail) (by omega)
        (fun a ha ↦ ?_) fun m hm ↦ ?_
      · have hspare := hbefore a ha
        omega
      · rw [returns_ite, if_neg (hnonnull hm (by simp [Focus.shape])), returns_bind]
        refine (place_serves 0 hm hproper hfree hasize (by omega) fun a ha ↦
          Or.inl (hbefore a ha)).mono fun _ h' hserves ↦ ?_
        rw [returns_pure]
        exact ⟨rfl, hserves⟩
    · -- a block is created and coalesced
      simp only [Option.some.injEq, Prod.mk.injEq] at hm
      obtain ⟨rfl, rfl⟩ := hm
      rw [sbrkAmount, if_neg hbulk] at hfail hwrap ⊢
      rw [if_neg hbulk]
      have hproper := Shape.proper_extend hi.proper hasize
      obtain ⟨hfree, hsize, hback⟩ := Shape.extend_block σ asize
      have hbefore := fun a (ha : Owned σ.blocks a) ↦ before_of_owned hproper hfree hback
        (fun c hc ↦ Shape.mem_extend hc) ha
      refine hv.extendHeap hi.brk_eq hi.proper hasize (hi.brk_eq ▸ hfail) (by omega)
        (fun a ha ↦ ?_) fun m hm ↦ ?_
      · have hspare := hbefore a ha
        omega
      · rw [returns_ite, if_neg (hnonnull hm (by simp [Focus.shape])), returns_bind]
        refine (place_serves 0 hm hproper hfree hasize hsize fun a ha ↦
          Or.inl (hbefore a ha)).mono fun _ h' hserves ↦ ?_
        rw [returns_pure]
        exact ⟨rfl, hserves⟩
  · obtain ⟨φ, hfocus, hshape, rfl, hfree, hsize, -⟩ := Shape.fit_eq_some hi.proper hfit
    simp only [hfit, hfocus, Option.map_some, Option.some.injEq, Prod.mk.injEq] at hm
    obtain ⟨rfl, rfl⟩ := hm
    have hproper : (φ.shape σ.brk).Proper h.memStartBrk := hshape.symm ▸ hi.proper
    have hh : { h with memBrk := σ.brk }.store h.bytes = h := by rw [← hi.brk_eq]; rfl
    have hlists : φ.lists = σ.lists := congrArg Shape.lists hshape
    have hv' : View ({ h with memBrk := σ.brk }.store h.bytes) σ.brk true (φ.shape σ.brk).blocks
        φ.lists (Owned σ.blocks) h.bytes := by rwa [hh, hshape, hlists]
    have hplace := place_serves cls hv' hproper hfree hasize hsize fun a ha ↦
      clear_of_owned hproper hfree (fun c _ ↦ by rw [hshape]) ha
    rw [hh] at hplace
    exact (hi.returns_mmMalloc_fit hpos hreq hfit _).mpr
      (hplace.mono fun _ h' hserves ↦ ⟨rfl, hserves⟩)

/-- A block that runs past the last address has its footer outside the arena. -/
theorem setBoundaryTag_past_end (ha : h.Arena) {b : Block} {tag : Nat} (htag : b.tag = tag)
    (haddr : b.addr % 8 = 0 ∧ h.memStartBrk + 8 ≤ b.addr ∧ b.addr ≤ h.memMaxAddr)
    (hsize : b.size % 8 = 0 ∧ b.size < 2 ^ 32) (hwrap : 2 ^ 32 ≤ b.addr + b.size)
    (hend : b.addr + b.size < h.memMaxAddr + 2 ^ 31) (Q : Unit → Heap → Prop) :
    ¬ Returns (MemoryLab.setBoundaryTag b.addr b.size tag) h Q := by
  have haligned := ha.aligned
  have hmax := ha.size
  have hbelow := ha.below
  unfold maxHeap at hmax
  intro hret
  obtain ⟨⟨-, hhigh⟩, -⟩ := of_returns_setBoundaryTag (m := h.bytes) ha htag ⟨haddr.1, hsize⟩
    (by omega) (by omega) hret
  omega

/-- `extend_heap_bulk` is undefined when the break would be carried past the last address. -/
theorem extendHeapBulk_past_end (hi : HeapInvariant h σ) {asize : Nat}
    (hasize : asize % 8 = 0 ∧ 16 ≤ asize) (hsmall : asize ≤ chunkSize)
    (hgrants : ¬ (h.sbrkRefused = true ∨ 2 ^ 31 ≤ 8 * asize ∨
      h.memMaxAddr < addWord σ.brk (8 * asize)))
    (hwrap : 2 ^ 32 ≤ σ.brk + 8 * asize) (Q : Nat → Heap → Prop) :
    ¬ Returns (MemoryLab.extendHeapBulk asize) h Q := by
  intro hret
  have hv := hi.view (K := fun _ ↦ False) fun _ ha ↦ absurd ha id
  have hmod := hi.geometry.limit_mod
  have hfirst := hi.geometry.first_le
  have hmax := hi.brk_le
  have hbelow := hi.arena.below
  have hextent := hi.arena.size
  have hbulksize := bulksize_eq hsmall
  unfold firstBlock at hfirst
  unfold maxHeap at hextent
  unfold chunkSize at hsmall
  have harena : Heap.Arena { h with memBrk := addWord σ.brk (8 * asize) } :=
    ⟨hi.arena.aligned, hi.arena.nonnull, hi.arena.size, hi.arena.below⟩
  have hplain : ∀ Q, ¬ Returns (MemoryLab.setBoundaryTag σ.brk (8 * asize) bulkTag)
      { h with memBrk := addWord σ.brk (8 * asize) } Q :=
    setBoundaryTag_past_end (b := ⟨σ.brk, 8 * asize, false, true⟩) harena rfl
      ⟨hmod, by change h.memStartBrk + 8 ≤ σ.brk; omega, hmax⟩ (by dsimp only; omega) hwrap
      (by change σ.brk + 8 * asize < h.memMaxAddr + 2 ^ 31; omega)
  have hgrown := hv.grow (Nat.le_refl _) hmod hmax (addWord σ.brk (8 * asize))
  simp only [MemoryLab.extendHeapBulk, returns_bind, hbulksize] at hret
  rw [returns_memSbrk_grow (hi.brk_eq ▸ hgrants), hi.brk_eq, returns_ite,
    if_neg (by unfold sbrkFailed; omega)] at hret
  simp only [returns_bind] at hret
  rw [hgrown.lastTags hi.proper.tiles] at hret
  rcases hlast : σ.blocks.getLast? with _ | q
  · simp only [hlast, Option.elim_none, one_ne_zero, false_and, if_false, returns_pure] at hret
    exact hplain _ hret
  · have hqmem : q ∈ σ.blocks := List.mem_of_getLast? hlast
    have hqblock := hi.geometry.block q hqmem
    unfold firstBlock at hqblock
    simp only [hlast, Option.elim_some] at hret
    by_cases hmerge : q.alloc = false ∧ q.bulk = false
    · -- the block begins with the last one, and runs past the end all the same
      have hqfiled : Filed σ.lists q.addr := (hi.proper.filed _).mpr ⟨q, hqmem, rfl, hmerge.1⟩
      have hend : q.addr + q.size = σ.brk := by
        obtain ⟨front, hfront⟩ := List.getLast?_eq_some_iff.mp hlast
        have htiles := hi.proper.tiles
        rw [hfront] at htiles
        obtain ⟨middle, -, -, hbrk⟩ := tiles_append.mp htiles
        exact hbrk
      simp only [hmerge.1, hmerge.2, Bool.false_eq_true, if_false, and_self, if_true] at hret
      rw [show absorbPrev σ.brk = absorbPrev (q.addr + q.size) by rw [hend]] at hret
      have hmerged := hgrown.absorbPrev (8 * asize) hqmem hqfiled (by omega)
        (Q := fun r t ↦ r = (q.addr, 8 * asize + q.size) ∧
          ∃ m, t = { h with memBrk := addWord σ.brk (8 * asize) }.store m)
        fun m _ ↦ ⟨rfl, m, rfl⟩
      obtain ⟨r, t, -, hrest, rfl, m, rfl⟩ := hret.and hmerged
      exact setBoundaryTag_past_end (b := ⟨q.addr, 8 * asize + q.size, false, true⟩)
        (harena.store m) rfl
        ⟨hqblock.1, by change h.memStartBrk + 8 ≤ q.addr; omega,
          by change q.addr ≤ h.memMaxAddr; omega⟩
        (by dsimp only; omega) (by dsimp only; omega)
        (by change q.addr + (8 * asize + q.size) < h.memMaxAddr + 2 ^ 31; omega) _ hrest
    · rw [if_neg (fun hcond ↦ hmerge ⟨by by_contra hq; simp [hq] at hcond,
        by by_contra hq; simp [hq] at hcond⟩), returns_pure] at hret
      exact hplain _ hret

/-- `extend_heap` is undefined when the break would be carried past the last address. -/
theorem extendHeap_past_end (hi : HeapInvariant h σ) {asize : Nat}
    (hasize : asize % 8 = 0 ∧ 16 ≤ asize)
    (hgrants : ¬ (h.sbrkRefused = true ∨ 2 ^ 31 ≤ asize ∨ h.memMaxAddr < addWord σ.brk asize))
    (hwrap : 2 ^ 32 ≤ σ.brk + asize) (Q : Nat → Heap → Prop) :
    ¬ Returns (MemoryLab.extendHeap asize) h Q := by
  intro hret
  have hmod := hi.geometry.limit_mod
  have hfirst := hi.geometry.first_le
  have hmax := hi.brk_le
  have hbelow := hi.arena.below
  unfold firstBlock at hfirst
  have harena : Heap.Arena { h with memBrk := addWord σ.brk asize } :=
    ⟨hi.arena.aligned, hi.arena.nonnull, hi.arena.size, hi.arena.below⟩
  simp only [MemoryLab.extendHeap, returns_bind] at hret
  rw [returns_memSbrk_grow (hi.brk_eq ▸ hgrants), hi.brk_eq, returns_ite,
    if_neg (by unfold sbrkFailed; omega)] at hret
  simp only [returns_bind] at hret
  exact setBoundaryTag_past_end (b := ⟨σ.brk, asize, false, false⟩) harena rfl
    ⟨hmod, by change h.memStartBrk + 8 ≤ σ.brk; omega, hmax⟩ (by dsimp only; omega) hwrap
    (by change σ.brk + asize < h.memMaxAddr + 2 ^ 31; omega) _ hret

/-- `mm_malloc` is undefined when the break would be carried past the last address: `mem_sbrk`
compares the wrapped sum with the limit and grants the request, and the footer of the new block
lies outside the arena. -/
theorem mmMalloc_undefined (hi : HeapInvariant h σ) {size : Nat} (hpos : 0 < size)
    (hlt : size < 2 ^ 31) (hm : σ.malloc h.memMaxAddr h.sbrkRefused size = none) :
    MemoryLab.mmMalloc size h = none := by
  obtain ⟨hasize, -, -⟩ := align_request hpos hlt
  obtain ⟨hfit, hgrants, hwrap⟩ := (Shape.malloc_eq_none hi.proper hpos rfl).mp hm
  refine not_returns_iff.mp fun hret ↦ ?_
  rw [hi.returns_mmMalloc_unfit hpos rfl hfit, returns_ite] at hret
  unfold sbrkAmount at hgrants hwrap
  split_ifs at hret hgrants hwrap with hsmall
  · exact hi.extendHeapBulk_past_end hasize hsmall hgrants hwrap _ hret
  · exact hi.extendHeap_past_end hasize hgrants hwrap _ hret

end HeapInvariant

end SystemProgramming.MemoryLab
