import SystemProgramming.Library.Runs
import SystemProgramming.MemoryLab.Initialization
import SystemProgramming.MemoryLab.Release

/-!
# Sessions

A session is the allocator with its client: the heap, and the pointers the client holds, each with
the size it last asked for. A step is a request that the code serves, a byte that the client writes
into the payload of a block it holds, or a change the caller makes to its list of ranges. A request
that is undefined has no step (`Session.Consistent.serve_undefined` says which those are).

`Session.Sound` says that the heap holds a proper shape, and that the pointers held are those of its
allocated blocks, each with room for what was asked. `Session.Consistent` is the invariant of
sessions: the shape is also settled.
-/

set_option autoImplicit false
set_option relaxedAutoImplicit false

namespace SystemProgramming.MemoryLab

open Library

/-! ### The client's account -/

/-- The pointers in an account are those of the allocated blocks, each with room for its size. -/
structure Accounts (live : List (Nat × Nat)) (blocks : List Block) : Prop where
  nodup : (live.map Prod.fst).Nodup
  owner : ∀ p n, (p, n) ∈ live → ∃ b ∈ blocks, b.alloc = true ∧ b.addr = p ∧ n + 8 ≤ b.size
  held : ∀ b ∈ blocks, b.alloc = true → ∃ n, (b.addr, n) ∈ live

/-- The account without a pointer. -/
def without (live : List (Nat × Nat)) (p : Nat) : List (Nat × Nat) := live.filter fun e ↦ e.1 ≠ p

theorem mem_without {live : List (Nat × Nat)} {p : Nat} {e : Nat × Nat} :
    e ∈ without live p ↔ e ∈ live ∧ e.1 ≠ p := by
  simp [without]

namespace Accounts

variable {live : List (Nat × Nat)} {blocks blocks' : List Block} {p : Nat}

theorem grant (h : Accounts live blocks) {a : Block} {n : Nat} (halloc : a.alloc = true)
    (hfresh : ∀ c ∈ blocks, c.alloc = true → c.addr ≠ a.addr) (hroom : n + 8 ≤ a.size)
    (hmem : ∀ c : Block, c.alloc = true → (c ∈ blocks' ↔ c ∈ blocks ∨ c = a)) :
    Accounts ((a.addr, n) :: live) blocks' where
  nodup := by
    rw [List.map_cons, List.nodup_cons]
    refine ⟨fun hheld ↦ ?_, h.nodup⟩
    obtain ⟨⟨q, k⟩, hq, hqa⟩ := List.mem_map.mp hheld
    obtain ⟨b, hb, hballoc, hbaddr, -⟩ := h.owner q k hq
    exact hfresh b hb hballoc (hbaddr.trans hqa)
  owner := fun q k hq ↦ by
    rcases List.mem_cons.mp hq with heq | hq
    · obtain ⟨rfl, rfl⟩ := Prod.mk.inj heq
      exact ⟨a, (hmem a halloc).mpr (Or.inr rfl), halloc, rfl, hroom⟩
    · obtain ⟨b, hb, hballoc, hbaddr, hbroom⟩ := h.owner q k hq
      exact ⟨b, (hmem b hballoc).mpr (Or.inl hb), hballoc, hbaddr, hbroom⟩
  held := fun b hb hballoc ↦ by
    rcases (hmem b hballoc).mp hb with hb | rfl
    · obtain ⟨k, hk⟩ := h.held b hb hballoc
      exact ⟨k, List.mem_cons_of_mem _ hk⟩
    · exact ⟨n, List.mem_cons_self⟩

theorem release (h : Accounts live blocks)
    (hmem : ∀ c : Block, c.alloc = true → (c ∈ blocks' ↔ c ∈ blocks ∧ c.addr ≠ p)) :
    Accounts (without live p) blocks' where
  nodup := h.nodup.sublist (List.filter_sublist.map _)
  owner := fun q k hq ↦ by
    obtain ⟨hq, hne⟩ := mem_without.mp hq
    obtain ⟨b, hb, hballoc, hbaddr, hroom⟩ := h.owner q k hq
    exact ⟨b, (hmem b hballoc).mpr ⟨hb, hbaddr ▸ hne⟩, hballoc, hbaddr, hroom⟩
  held := fun b hb hballoc ↦ by
    obtain ⟨hb, hne⟩ := (hmem b hballoc).mp hb
    obtain ⟨k, hk⟩ := h.held b hb hballoc
    exact ⟨k, mem_without.mpr ⟨hk, hne⟩⟩

theorem regrant (h : Accounts live blocks) {a : Block} {n : Nat} (halloc : a.alloc = true)
    (haddr : a.addr = p) (hroom : n + 8 ≤ a.size)
    (hmem : ∀ c : Block, c.alloc = true →
      (c ∈ blocks' ↔ (c ∈ blocks ∧ c.addr ≠ p) ∨ c = a)) :
    Accounts ((p, n) :: without live p) blocks' := by
  subst haddr
  have hrest : Accounts (without live a.addr) (blocks.filter fun c ↦ c.addr ≠ a.addr) :=
    h.release fun c _ ↦ by simp
  refine hrest.grant halloc (fun c hc _ ↦ ?_) hroom fun c hc ↦ ?_
  · simpa using (List.mem_filter.mp hc).2
  · rw [hmem c hc]
    simp

end Accounts

/-! ### Requests -/

/-- What a client may ask for. `refused` is the environment's word on whether `mem_sbrk` fails. -/
inductive Request
  | malloc (size : Nat) (refused : Bool)
  | free (p : Nat)
  | realloc (p t : Nat)
  deriving DecidableEq, Repr

/-- The allocator with its client. -/
structure Session where
  heap : Heap
  live : List (Nat × Nat)

namespace Request

/-- The code that serves a request. -/
def serve : Request → HeapM Nat
  | malloc size refused => do
    modify fun h ↦ { h with sbrkRefused := refused }
    mmMalloc size
  | free p => do
    mmFree p
    pure null
  | realloc p t => mmRealloc p t

/-- The client's account after the answer. -/
def account (answer : Nat) (live : List (Nat × Nat)) : Request → List (Nat × Nat)
  | malloc size _ => if answer = null then live else (answer, size) :: live
  | free p => without live p
  | realloc p t => if answer = null then live else (answer, t) :: without live p

/-- What a request does to the caller's list of ranges. -/
def ranges : Request → List Range → List Range
  | free p => fun rs ↦ removeRange rs p
  | _ => id

/-- The requests a client may make: sizes from one byte on, below `2 ^ 31`, and pointers it
holds. -/
def Admitted (s : Session) : Request → Prop
  | malloc size _ => 0 < size ∧ size < 2 ^ 31
  | free p => ∃ n, (p, n) ∈ s.live
  | realloc p t => (∃ n, (p, n) ∈ s.live) ∧ 0 < t ∧ t < 2 ^ 31

/-- The size of the block at a pointer, as its header has it. -/
def blockSize (h : Heap) (p : Nat) : Nat := h.word (p - 4) &&& sizeMask

/-- A request that grows no block. -/
def NotGrowing (s : Session) : Request → Prop
  | realloc p t => align (addWord t dsize) ≤ blockSize s.heap p
  | _ => True

/-- The request on shapes: the answer and the new shape. -/
def onShape (limit : Nat) (σ : Shape) : Request → Option (Nat × Shape)
  | malloc size refused => σ.malloc limit refused size
  | free p => (σ.free p).map fun σ' ↦ (null, σ')
  | realloc p t => (σ.shrink p t).map fun σ' ↦ (p, σ')

/-- The bytes of the client's extents that a request leaves alone: those of the other pointers, and
the first bytes of a block that is reallocated. -/
def Spares (live : List (Nat × Nat)) (a : Nat) : Request → Prop
  | malloc _ _ => ∃ p n, (p, n) ∈ live ∧ p ≤ a ∧ a < p + n
  | free p => ∃ q n, (q, n) ∈ live ∧ q ≠ p ∧ q ≤ a ∧ a < q + n
  | realloc p t => (∃ q n, (q, n) ∈ live ∧ q ≠ p ∧ q ≤ a ∧ a < q + n) ∨ (p ≤ a ∧ a < p + t)

end Request

/-! ### The invariant -/

/-- The heap holds a proper shape, and the client holds its allocated blocks. -/
structure Session.Sound (s : Session) (σ : Shape) : Prop where
  heap : HeapInvariant s.heap σ
  accounts : Accounts s.live σ.blocks

/-- The shape is settled too. -/
structure Session.Consistent (s : Session) (σ : Shape) : Prop extends Session.Sound s σ where
  settled : σ.Settled s.heap.memStartBrk

namespace Session.Sound

variable {s : Session} {σ : Shape} {φ : Focus} {p n t : Nat}

theorem blockSize_eq (hs : s.Sound σ) {b : Block} (hb : b ∈ σ.blocks) :
    Request.blockSize s.heap b.addr = b.size := by
  have hblock := hs.heap.geometry.block b hb
  have hlt := hs.heap.brk_lt
  rw [Request.blockSize, hs.heap.header b hb, Block.word_and_sizeMask hblock.2.1 (by omega)]

/-- A pointer that is held is that of an allocated block, at which the shape can be opened. -/
theorem focus (hs : s.Sound σ) (hp : (p, n) ∈ s.live) :
    ∃ φ, σ.focus p = some φ ∧ φ.block.addr = p ∧ φ.block.alloc = true ∧ n + 8 ≤ φ.block.size ∧
      φ.shape σ.brk = σ := by
  obtain ⟨b, hb, halloc, rfl, hroom⟩ := hs.accounts.owner p n hp
  obtain ⟨φ, hfocus, rfl, hshape⟩ := hs.heap.proper.focus hb
  exact ⟨φ, hfocus, rfl, halloc, hroom, hshape⟩

/-- The extent of a pointer that is held is part of the payload of its block. -/
theorem payload_of_extent (hs : s.Sound σ) {a : Nat} (hp : (p, n) ∈ s.live) (hlow : p ≤ a)
    (hhigh : a < p + n) : ∃ b ∈ σ.blocks, b.alloc = true ∧ b.addr = p ∧ Payload b a := by
  obtain ⟨b, hb, halloc, rfl, hroom⟩ := hs.accounts.owner p n hp
  exact ⟨b, hb, halloc, rfl, hlow, by omega⟩

/-- The blocks other than the one in focus are those with another address. -/
theorem ne_block_iff (hs : s.Sound σ) (hshape : φ.shape σ.brk = σ) {c : Block}
    (hcmem : c ∈ σ.blocks) : c ≠ φ.block ↔ c.addr ≠ φ.block.addr := by
  have hb : φ.block ∈ σ.blocks := by
    rw [← hshape]
    simp [Focus.shape]
  constructor
  · exact fun hne heq ↦ hne
      (eq_of_addr_eq hs.heap.proper.tiles.sorted hs.heap.proper.sized hcmem hb heq)
  · rintro hne rfl
    exact hne rfl

/-- The blocks beside the one in focus. -/
theorem mem_sides (hs : s.Sound σ) (hshape : φ.shape σ.brk = σ) {b : Block} (hb : b ∈ σ.blocks)
    (hne : b.addr ≠ φ.block.addr) : b ∈ φ.front ∨ b ∈ φ.back := by
  have hbne : b ≠ φ.block := (hs.ne_block_iff hshape hb).mpr hne
  rw [← hshape] at hb
  simp only [Focus.shape, List.mem_append, List.mem_cons] at hb
  tauto

/-- No block lies at the null pointer. -/
theorem ne_null (hs : s.Sound σ) {b : Block} (hb : b ∈ σ.blocks) : b.addr ≠ null := by
  have hlow := (hs.heap.proper.tiles.bounds b hb).1
  unfold firstBlock at hlow
  unfold null
  omega

end Session.Sound

/-- A block has been resized in place: it has room for the new size, the other allocated blocks are
where they were, and the payloads are unchanged, that of the block itself as far as the new size
goes. -/
structure Session.Resized (s : Session) (σ : Shape) (p t : Nat) (h' : Heap) (σ' : Shape) :
    Prop where
  memStartBrk_eq : h'.memStartBrk = s.heap.memStartBrk
  memMaxAddr_eq : h'.memMaxAddr = s.heap.memMaxAddr
  glRanges_eq : h'.glRanges = s.heap.glRanges
  heap : HeapInvariant h' σ'
  block : ∃ a : Block, a.alloc = true ∧ a.addr = p ∧ t + 8 ≤ a.size ∧
    ∀ c : Block, c.alloc = true → (c ∈ σ'.blocks ↔ (c ∈ σ.blocks ∧ c.addr ≠ p) ∨ c = a)
  kept : ∀ b ∈ σ.blocks, b.alloc = true → ∀ a, Payload b a → (b.addr = p → a < p + t) →
    h'.bytes a = s.heap.bytes a

/-- The client's account after a block has been resized. -/
theorem Session.Resized.sound {s : Session} {σ σ' : Shape} {p t : Nat} {h' : Heap}
    (hr : s.Resized σ p t h' σ') (hs : s.Sound σ) :
    Session.Sound ⟨h', (p, t) :: without s.live p⟩ σ' := by
  obtain ⟨a, halloc, haddr, hroom, hmem⟩ := hr.block
  exact ⟨hr.heap, hs.accounts.regrant halloc haddr hroom hmem⟩

/-- `mm_realloc` of a block that is large enough. -/
theorem Session.Sound.shrink {s : Session} {σ : Shape} {φ : Focus} {t : Nat} (hs : s.Sound σ)
    (hshape : φ.shape σ.brk = σ) (halloc : φ.block.alloc = true) (htpos : 0 < t)
    (htlt : t < 2 ^ 31) (hfits : align (addWord t dsize) ≤ φ.block.size) :
    Returns (MemoryLab.mmRealloc φ.block.addr t) s.heap fun q h' ↦ q = φ.block.addr ∧
      s.Resized σ φ.block.addr t h' ((φ.shrink (align (addWord t dsize))).shape σ.brk) := by
  have hproper : (φ.shape σ.brk).Proper s.heap.memStartBrk := hshape.symm ▸ hs.heap.proper
  obtain ⟨hasize, hroom, -⟩ := align_request htpos htlt
  refine (hs.heap.mmRealloc hshape halloc htpos htlt rfl hfits).mono ?_
  rintro q h' ⟨hq, hranges, hserves⟩
  refine ⟨hq, hserves.memStartBrk_eq, hserves.memMaxAddr_eq, hranges, hserves.invariant, ?_,
    fun b hb hballoc a hpayload hwithin ↦ ?_⟩
  · obtain ⟨a, haddr, haalloc, hasizeLe, -, hmem⟩ := Focus.mem_shrink hproper halloc hfits
    refine ⟨a, haalloc, haddr, hroom.trans hasizeLe, fun c hcalloc ↦ ?_⟩
    rw [hmem c hcalloc, hshape]
    exact or_congr_left (and_congr_right fun hcmem ↦ hs.ne_block_iff hshape hcmem)
  · by_cases hself : b.addr = φ.block.addr
    · have hhigh := hwithin hself
      unfold Payload at hpayload
      exact hserves.kept a ⟨⟨φ.block.addr, align (addWord t dsize), true, φ.block.bulk⟩, by simp,
        rfl, by dsimp only; omega, by dsimp only; omega⟩
    · have hside := hs.mem_sides hshape hb hself
      refine hserves.kept a ⟨b, ?_, hballoc, hpayload⟩
      simp only [List.mem_append, List.mem_cons]
      tauto

/-- What serving a request leads to: the answer and a session of the new shape, in the same arena,
with the ranges that the request leaves and the bytes that it spares. -/
structure Serving (s : Session) (r : Request) (answer : Nat) (h' : Heap) (σ' : Shape) : Prop where
  memStartBrk_eq : h'.memStartBrk = s.heap.memStartBrk
  memMaxAddr_eq : h'.memMaxAddr = s.heap.memMaxAddr
  glRanges_eq : h'.glRanges = s.heap.glRanges.map r.ranges
  consistent : Session.Consistent ⟨h', r.account answer s.live⟩ σ'
  kept : ∀ a, r.Spares s.live a → h'.bytes a = s.heap.bytes a

namespace Session.Consistent

variable {s : Session} {σ σ' : Shape}

theorem serve_malloc (hc : s.Consistent σ) {size q : Nat} {refused : Bool} (hpos : 0 < size)
    (hlt : size < 2 ^ 31) (hm : σ.malloc s.heap.memMaxAddr refused size = some (q, σ')) :
    Returns (Request.malloc size refused).serve s.heap fun q' h' ↦
      q' = q ∧ Serving s (.malloc size refused) q h' σ' := by
  have hi : HeapInvariant { s.heap with sbrkRefused := refused } σ :=
    hc.heap.congr rfl rfl rfl rfl rfl rfl
  have hserved := hi.mmMalloc hpos hlt hm
  rw [Request.serve, returns_bind, returns_modify]
  refine hserved.mono ?_
  rintro q' h' ⟨hq, hranges, hserves⟩
  refine ⟨hq, hserves.memStartBrk_eq, hserves.memMaxAddr_eq,
    hranges.trans Option.map_id_apply.symm, ⟨⟨hserves.invariant, ?_⟩, ?_⟩, ?_⟩
  · obtain ⟨-, hroom, -⟩ := align_request hpos hlt
    rw [Request.account]
    rcases Shape.malloc_cases hc.settled hpos hlt hm with ⟨rfl, rfl⟩ | ⟨φ, cls, brk, rfl, rfl,
      hready, hmem⟩
    · rw [if_pos rfl]
      exact hc.accounts
    · have hb : φ.block ∈ (φ.shape brk).blocks := by simp [Focus.shape]
      have hlow := (hready.proper.tiles.bounds _ hb).1
      have hnonnull : φ.block.addr ≠ null := by
        unfold firstBlock at hlow
        unfold null
        omega
      obtain ⟨a, haddr, halloc, hsize, hplaced⟩ :=
        Focus.mem_place hready.free cls brk brk hready.fits
      rw [if_neg hnonnull, ← haddr]
      refine hc.accounts.grant halloc (fun c hc' hcalloc heq ↦ ?_) (hroom.trans hsize)
        fun c hcalloc ↦ by rw [hplaced c hcalloc, hmem c hcalloc]
      have hcb := eq_of_addr_eq hready.proper.tiles.sorted hready.proper.sized
        ((hmem c hcalloc).mpr hc') hb (heq.trans haddr)
      rw [hcb, hready.free] at hcalloc
      exact absurd hcalloc (by simp)
  · exact hserves.memStartBrk_eq.symm ▸ Shape.settled_malloc hc.settled hpos hlt hm
  · rintro a ⟨p, n, hp, hlow, hhigh⟩
    obtain ⟨b, hb, halloc, -, hpayload⟩ := hc.payload_of_extent hp hlow hhigh
    exact hserves.kept a ⟨b, hb, halloc, hpayload⟩

theorem serve_malloc_undefined (hc : s.Consistent σ) {size : Nat} {refused : Bool}
    (hpos : 0 < size) (hlt : size < 2 ^ 31)
    (hm : σ.malloc s.heap.memMaxAddr refused size = none) :
    (Request.malloc size refused).serve s.heap = none := by
  have hi : HeapInvariant { s.heap with sbrkRefused := refused } σ :=
    hc.heap.congr rfl rfl rfl rfl rfl rfl
  refine not_returns_iff.mp fun hret ↦ ?_
  rw [Request.serve, returns_bind, returns_modify] at hret
  exact not_returns_iff.mpr (hi.mmMalloc_undefined hpos hlt hm) hret

theorem serve_free (hc : s.Consistent σ) {p n : Nat} (hp : (p, n) ∈ s.live)
    (hm : σ.free p = some σ') :
    Returns (Request.free p).serve s.heap fun q' h' ↦
      q' = null ∧ Serving s (.free p) null h' σ' := by
  obtain ⟨φ, hfocus, rfl, halloc, -, hshape⟩ := hc.focus hp
  rw [Shape.free, hfocus, Option.map_some, Option.some.injEq] at hm
  subst hm
  have hsettled : (φ.shape σ.brk).Settled s.heap.memStartBrk := hshape.symm ▸ hc.settled
  rw [Request.serve, returns_bind]
  refine (hc.heap.mmFree hshape halloc).mono ?_
  rintro _ h' ⟨hranges, hserves, -⟩
  rw [returns_pure]
  refine ⟨rfl, hserves.memStartBrk_eq, hserves.memMaxAddr_eq, hranges,
    ⟨⟨hserves.invariant, ?_⟩, ?_⟩, ?_⟩
  · refine hc.accounts.release fun c hcalloc ↦ ?_
    rw [Focus.mem_free hsettled.proper hcalloc, hshape]
    exact and_congr_right fun hcmem ↦ hc.ne_block_iff hshape hcmem
  · exact hserves.memStartBrk_eq.symm ▸ Focus.settled_free hsettled halloc
  · rintro a ⟨q, k, hq, hne, hlow, hhigh⟩
    obtain ⟨b, hb, hballoc, rfl, hpayload⟩ := hc.payload_of_extent hq hlow hhigh
    exact hserves.kept a ⟨b, List.mem_append.mpr (hc.mem_sides hshape hb hne), hballoc, hpayload⟩

theorem serve_realloc (hc : s.Consistent σ) {p n t : Nat} (hp : (p, n) ∈ s.live) (htpos : 0 < t)
    (htlt : t < 2 ^ 31) (hfits : align (addWord t dsize) ≤ Request.blockSize s.heap p)
    (hm : σ.shrink p t = some σ') :
    Returns (Request.realloc p t).serve s.heap fun q' h' ↦
      q' = p ∧ Serving s (.realloc p t) p h' σ' := by
  obtain ⟨φ, hfocus, rfl, halloc, -, hshape⟩ := hc.focus hp
  have hb : φ.block ∈ σ.blocks := by
    rw [← hshape]
    simp [Focus.shape]
  rw [hc.blockSize_eq hb] at hfits
  rw [Shape.shrink, hfocus, Option.map_some, Option.some.injEq] at hm
  subst hm
  obtain ⟨hasize, hroom, -⟩ := align_request htpos htlt
  have hsettled : (φ.shape σ.brk).Settled s.heap.memStartBrk := hshape.symm ▸ hc.settled
  rw [Request.serve]
  refine (hc.shrink hshape halloc htpos htlt hfits).mono ?_
  rintro q' h' ⟨hq, hr⟩
  refine ⟨hq, hr.memStartBrk_eq, hr.memMaxAddr_eq,
    hr.glRanges_eq.trans Option.map_id_apply.symm, ⟨?_, ?_⟩, fun a hspared ↦ ?_⟩
  · rw [Request.account, if_neg (hc.ne_null hb)]
    exact hr.sound hc.toSound
  · exact hr.memStartBrk_eq.symm ▸ Focus.settled_shrink hsettled halloc hasize
  · rcases hspared with ⟨q, k, hqlive, hne, hlow, hhigh⟩ | ⟨hlow, hhigh⟩
    · obtain ⟨b, hbmem, hballoc, rfl, hpayload⟩ := hc.payload_of_extent hqlive hlow hhigh
      exact hr.kept b hbmem hballoc a hpayload fun heq ↦ absurd heq hne
    · exact hr.kept φ.block hb halloc a ⟨hlow, by omega⟩ fun _ ↦ hhigh

end Session.Consistent

/-! ### Steps -/

/-- What happens in a session: a request and its answer, a byte written by the client, or a change
of the caller's list of ranges. -/
inductive Event
  | request (r : Request) (answer : Nat)
  | write (a : Nat) (v : UInt8)
  | ranges (rs : List Range)

/-- A session begins when `mm_init` has succeeded on an empty heap in some arena at `base`. -/
def Session.Opened (base : Nat) (s : Session) : Prop :=
  s.live = [] ∧ ∃ h ranges, h.Arena ∧ h.memStartBrk = base ∧
    mmInit ranges (memResetBrk h) = some (0, s.heap)

/-- The steps of sessions whose requests satisfy `P`. -/
inductive Session.Step (P : Session → Request → Prop) : Session → Event → Session → Prop
  | request {s : Session} {r : Request} {answer : Nat} {h' : Heap} (hadmitted : r.Admitted s)
      (hP : P s r) (hserve : r.serve s.heap = some (answer, h')) :
      Step P s (.request r answer) ⟨h', r.account answer s.live⟩
  | write {s : Session} {p n a : Nat} (v : UInt8) (hp : (p, n) ∈ s.live) (hlow : p ≤ a)
      (hhigh : a + 8 < p + Request.blockSize s.heap p) :
      Step P s (.write a v)
        ⟨{ s.heap with bytes := Function.update s.heap.bytes a v }, s.live⟩
  | ranges {s : Session} (rs : List Range) :
      Step P s (.ranges rs) ⟨{ s.heap with glRanges := s.heap.glRanges.map fun _ ↦ rs }, s.live⟩

/-- The sessions in which no request grows a block. -/
abbrev Session.Reached (base : Nat) : List Event → Session → Prop :=
  Run (Session.Opened base) (Session.Step fun s r ↦ r.NotGrowing s)

theorem Session.Opened.consistent {base : Nat} {s : Session} (h : s.Opened base) :
    s.heap.memStartBrk = base ∧ s.Consistent (emptyShape base) := by
  obtain ⟨hlive, h₀, ranges, harena, rfl, hinit⟩ := h
  have harena' : (memResetBrk h₀).Arena :=
    ⟨harena.aligned, harena.nonnull, harena.size, harena.below⟩
  have hgranted : (memResetBrk h₀).sbrkRefused = false := by
    by_contra hrefused
    have hfail : Returns (mmInit ranges) (memResetBrk h₀) fun r _ ↦ r = -1 := by
      rw [mmInit, returns_bind, returns_memSbrk_fail (Or.inl (by simpa using hrefused)),
        returns_bind, returns_modify, returns_ite, if_pos rfl, returns_pure]
    rw [returns_iff_of_eq hinit] at hfail
    exact absurd hfail (by decide)
  have hopened := returns_mmInit harena' rfl hgranted ranges
  rw [returns_iff_of_eq hinit] at hopened
  obtain ⟨-, hstart, -, -, hinvariant⟩ := hopened
  have hbase : s.heap.memStartBrk = h₀.memStartBrk := hstart
  refine ⟨hbase, ⟨hinvariant, ?_⟩, hbase.symm ▸ settled_emptyShape _⟩
  rw [hlive]
  exact ⟨List.nodup_nil, by simp, by simp [emptyShape]⟩

namespace Session.Consistent

variable {s s' : Session} {σ σ' : Shape}

/-- Serving a request that grows no block: what it leads to, when it is defined on shapes. -/
theorem serve (hc : s.Consistent σ) {r : Request} (hadmitted : r.Admitted s)
    (hgrow : r.NotGrowing s) {q : Nat}
    (hm : r.onShape s.heap.memMaxAddr σ = some (q, σ')) :
    Returns r.serve s.heap fun q' h' ↦ q' = q ∧ Serving s r q h' σ' := by
  cases r with
  | malloc size refused => exact hc.serve_malloc hadmitted.1 hadmitted.2 hm
  | free p =>
    obtain ⟨n, hp⟩ := hadmitted
    obtain ⟨σ'', hfree, heq⟩ := Option.map_eq_some_iff.mp hm
    obtain ⟨rfl, rfl⟩ := Prod.mk.inj heq
    exact hc.serve_free hp hfree
  | realloc p t =>
    obtain ⟨⟨n, hp⟩, htpos, htlt⟩ := hadmitted
    obtain ⟨σ'', hshrink, heq⟩ := Option.map_eq_some_iff.mp hm
    obtain ⟨rfl, rfl⟩ := Prod.mk.inj heq
    exact hc.serve_realloc hp htpos htlt hgrow hshrink

/-- The only requests that are undefined are those for memory that would carry the break past the
last address. -/
theorem serve_undefined (hc : s.Consistent σ) {r : Request} (hadmitted : r.Admitted s)
    (hm : r.onShape s.heap.memMaxAddr σ = none) :
    (∃ size refused, r = .malloc size refused) ∧ r.serve s.heap = none := by
  cases r with
  | malloc size refused =>
    exact ⟨⟨size, refused, rfl⟩, hc.serve_malloc_undefined hadmitted.1 hadmitted.2 hm⟩
  | free p =>
    obtain ⟨n, hp⟩ := hadmitted
    obtain ⟨φ, hfocus, -⟩ := hc.focus hp
    simp [Request.onShape, Shape.free, hfocus] at hm
  | realloc p t =>
    obtain ⟨⟨n, hp⟩, -⟩ := hadmitted
    obtain ⟨φ, hfocus, -⟩ := hc.focus hp
    simp [Request.onShape, Shape.shrink, hfocus] at hm

/-- A step of a request is the request on shapes. -/
theorem of_serve (hc : s.Consistent σ) {r : Request} (hadmitted : r.Admitted s)
    (hgrow : r.NotGrowing s) {q : Nat} {h' : Heap} (hserve : r.serve s.heap = some (q, h')) :
    ∃ σ', r.onShape s.heap.memMaxAddr σ = some (q, σ') ∧ Serving s r q h' σ' := by
  rcases hm : r.onShape s.heap.memMaxAddr σ with _ | ⟨q', σ'⟩
  · rw [(hc.serve_undefined hadmitted hm).2] at hserve
    exact absurd hserve (by simp)
  · have hserved := hc.serve hadmitted hgrow hm
    rw [returns_iff_of_eq hserve] at hserved
    obtain ⟨rfl, hserving⟩ := hserved
    exact ⟨σ', rfl, hserving⟩

/-- A request is undefined exactly when it is undefined on shapes. -/
theorem serve_eq_none (hc : s.Consistent σ) {r : Request} (hadmitted : r.Admitted s)
    (hgrow : r.NotGrowing s) :
    r.serve s.heap = none ↔ r.onShape s.heap.memMaxAddr σ = none := by
  refine ⟨fun hnone ↦ ?_, fun hm ↦ (hc.serve_undefined hadmitted hm).2⟩
  by_contra hm
  obtain ⟨⟨q, σ'⟩, hsome⟩ := Option.ne_none_iff_exists'.mp hm
  obtain ⟨q', h', hserve, -⟩ := hc.serve hadmitted hgrow hsome
  rw [hnone] at hserve
  exact absurd hserve (by simp)

/-- A byte written into the payload of a block that is held changes no word of the allocator. -/
theorem write (hc : s.Consistent σ) {p n a : Nat} (v : UInt8) (hp : (p, n) ∈ s.live)
    (hlow : p ≤ a) (hhigh : a + 8 < p + Request.blockSize s.heap p) :
    Session.Consistent
      ⟨{ s.heap with bytes := Function.update s.heap.bytes a v }, s.live⟩ σ := by
  obtain ⟨b, hb, halloc, rfl, -⟩ := hc.accounts.owner p n hp
  rw [hc.blockSize_eq hb] at hhigh
  exact ⟨⟨hc.heap.write ⟨b, hb, halloc, hlow, hhigh⟩ v, hc.accounts⟩, hc.settled⟩

theorem ranges (hc : s.Consistent σ) (rs : List Range) :
    Session.Consistent
      ⟨{ s.heap with glRanges := s.heap.glRanges.map fun _ ↦ rs }, s.live⟩ σ :=
  ⟨⟨hc.heap.congr rfl rfl rfl rfl rfl rfl, hc.accounts⟩, hc.settled⟩

end Session.Consistent

/-! ### Runs -/

/-- What an event shows at the interface of the allocator. -/
def Event.shown : Event → Option (Request × Nat)
  | request r answer => some (r, answer)
  | write _ _ => none
  | ranges _ => none

/-- A step is its request on shapes; anything else leaves the shape. -/
theorem Session.Step.onShape {s s' : Session} {e : Event} {σ : Shape} (hc : s.Consistent σ)
    (hstep : Session.Step (fun s r ↦ r.NotGrowing s) s e s') :
    s'.heap.memStartBrk = s.heap.memStartBrk ∧ s'.heap.memMaxAddr = s.heap.memMaxAddr ∧
      match e.shown with
      | none => s'.Consistent σ
      | some (r, q) => ∃ σ', r.onShape s.heap.memMaxAddr σ = some (q, σ') ∧ s'.Consistent σ' := by
  cases hstep with
  | request hadmitted hgrow hserve =>
    obtain ⟨σ', hm, hserving⟩ := hc.of_serve hadmitted hgrow hserve
    exact ⟨hserving.memStartBrk_eq, hserving.memMaxAddr_eq, σ', hm, hserving.consistent⟩
  | write v hp hlow hhigh => exact ⟨rfl, rfl, hc.write v hp hlow hhigh⟩
  | ranges rs => exact ⟨rfl, rfl, hc.ranges rs⟩

/-- The invariant of sessions. -/
theorem Session.Reached.consistent {base : Nat} {events : List Event} {s : Session}
    (h : Session.Reached base events s) :
    s.heap.memStartBrk = base ∧ ∃ σ, s.Consistent σ := by
  refine Run.invariant (P := fun s ↦ s.heap.memStartBrk = base ∧ ∃ σ, s.Consistent σ)
    (fun s hopened ↦ ⟨hopened.consistent.1, _, hopened.consistent.2⟩) (fun s e s' hinv hstep ↦ ?_) h
  obtain ⟨hbase, σ, hc⟩ := hinv
  obtain ⟨hstart, -, hshown⟩ := hstep.onShape hc
  refine ⟨hstart.trans hbase, ?_⟩
  cases hs : e.shown with
  | none =>
    rw [hs] at hshown
    exact ⟨σ, hshown⟩
  | some x =>
    rw [hs] at hshown
    obtain ⟨σ', -, hc'⟩ := hshown
    exact ⟨σ', hc'⟩

end SystemProgramming.MemoryLab
