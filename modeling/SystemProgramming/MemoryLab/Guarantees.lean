import SystemProgramming.MemoryLab.Traces

/-!
# What holds in every session

The results about sessions in which no request grows a block, read off the invariant: the block
chain that `NEXT_BLKP` walks, the rings, the client's extents, the neighbours and the lists of free
blocks, and the independence of all of this from what the client writes.
-/

set_option autoImplicit false
set_option relaxedAutoImplicit false

namespace SystemProgramming.MemoryLab

open Library

/-! ### Walking the blocks -/

/-- `NEXT_BLKP` passes from `bp` on through these blocks, each of a proper size, to an allocated
epilogue of size zero whose block pointer is the break. -/
def Walk (h : Heap) : Nat → List Block → Prop
  | bp, [] => bp = h.memBrk ∧ getSize (hdrp bp) h = some (0, h) ∧ getAlloc (hdrp bp) h = some (1, h)
  | bp, b :: rest => b.addr = bp ∧ b.Sized ∧ getSize (hdrp bp) h = some (b.size, h) ∧
      getAlloc (hdrp bp) h = some (if b.alloc then 1 else 0, h) ∧
      getIsbulk (hdrp bp) h = some (if b.bulk then 2 else 0, h) ∧
      ∃ next, nextBlkp bp h = some (next, h) ∧ Walk h next rest

/-- The walk from an address is determined by the heap. -/
theorem Walk.unique {h : Heap} {bp : Nat} {blocks blocks' : List Block} (hwalk : Walk h bp blocks)
    (hwalk' : Walk h bp blocks') : blocks = blocks' := by
  induction blocks generalizing bp blocks' with
  | nil =>
    obtain ⟨-, hsize, -⟩ := hwalk
    cases blocks' with
    | nil => rfl
    | cons c rest =>
      obtain ⟨-, hsized, hsize', -⟩ := hwalk'
      rw [hsize, Option.some.injEq, Prod.mk.injEq] at hsize'
      unfold Block.Sized at hsized
      omega
  | cons b rest ih =>
    obtain ⟨haddr, hsized, hsize, halloc, hbulk, next, hnext, hrest⟩ := hwalk
    cases blocks' with
    | nil =>
      obtain ⟨-, hsize', -⟩ := hwalk'
      rw [hsize, Option.some.injEq, Prod.mk.injEq] at hsize'
      unfold Block.Sized at hsized
      omega
    | cons c rest' =>
      obtain ⟨haddr', -, hsize', halloc', hbulk', next', hnext', hrest'⟩ := hwalk'
      rw [hsize, Option.some.injEq, Prod.mk.injEq] at hsize'
      rw [halloc, Option.some.injEq, Prod.mk.injEq] at halloc'
      rw [hbulk, Option.some.injEq, Prod.mk.injEq] at hbulk'
      rw [hnext, Option.some.injEq, Prod.mk.injEq] at hnext'
      obtain ⟨rfl, -⟩ := hnext'
      have hbc : b = c := by
        obtain ⟨bAddr, bSize, bAlloc, bBulk⟩ := b
        obtain ⟨cAddr, cSize, cAlloc, cBulk⟩ := c
        obtain rfl : bAddr = cAddr := haddr.trans haddr'.symm
        obtain rfl : bSize = cSize := hsize'.1
        obtain rfl : bAlloc = cAlloc := by
          cases bAlloc <;> cases cAlloc <;> simp_all
        obtain rfl : bBulk = cBulk := by
          cases bBulk <;> cases cBulk <;> simp_all
        rfl
      rw [hbc, ih hrest hrest']

/-- The walk passes through blocks that lie end to end, with their headers in memory. -/
theorem walk_of_headed {h : Heap} {blocks : List Block} {bp : Nat}
    (htiles : Tiles bp blocks h.memBrk) (hblocks : ∀ b ∈ blocks, Headed h b ∧ b.Sized)
    (hend : Headed h ⟨h.memBrk, 0, true, false⟩) : Walk h bp blocks := by
  induction blocks generalizing bp with
  | nil =>
    obtain rfl : bp = h.memBrk := htiles
    exact ⟨rfl, eq_of_returns_iff hend.getSize, eq_of_returns_iff hend.getAlloc⟩
  | cons b rest ih =>
    obtain ⟨rfl, hrest⟩ := htiles
    obtain ⟨hb, hsized⟩ := hblocks b List.mem_cons_self
    exact ⟨rfl, hsized, eq_of_returns_iff hb.getSize, eq_of_returns_iff hb.getAlloc,
      eq_of_returns_iff hb.getIsbulk, _, eq_of_returns_iff hb.nextBlkp,
      ih hrest fun c hc ↦ hblocks c (List.mem_cons_of_mem _ hc)⟩

/-- The walk through the blocks of a tiling, whose tags are in memory. -/
theorem Geometry.walk {h : Heap} {limit : Nat} {B : List Block} {L : Filing} {K : Nat → Prop}
    {f : ByteMemory} (hg : Geometry h.memStartBrk limit B L) (hbrk : h.memBrk = limit)
    (hle : limit ≤ h.memMaxAddr) (ht : Tagged h.memStartBrk limit true h.bytes B K f)
    (htiles : Tiles (firstBlock h.memStartBrk) B limit) :
    Walk h (firstBlock h.memStartBrk) B := by
  subst hbrk
  refine walk_of_headed htiles (fun b hb ↦ ⟨hg.headed hle ht hb, ?_⟩) (hg.headed_epilogue hle ht)
  exact ⟨(hg.block b hb).2.1, (hg.block b hb).2.2.1⟩

namespace HeapInvariant

variable {h : Heap} {σ : Shape}

/-- The walk from the block behind the prologue passes through the blocks of the shape. -/
theorem walk (hi : HeapInvariant h σ) : nextBlkp h.prologue h = some (firstBlock h.memStartBrk, h) ∧
    Walk h (firstBlock h.memStartBrk) σ.blocks := by
  have hv := hi.view (K := fun _ ↦ False) fun _ ha ↦ absurd ha id
  refine ⟨eq_of_returns_iff fun Q ↦ ?_,
    hv.geometry.walk hi.brk_eq hi.brk_le hv.tagged hi.proper.tiles⟩
  rw [hi.prologue_eq]
  exact hv.prologue.nextBlkp Q

/-- The footer of each block holds the word of its header. -/
theorem footer_eq_header (hi : HeapInvariant h σ) {b : Block} (hb : b ∈ σ.blocks) :
    ∃ footer w, ftrp b.addr h = some (footer, h) ∧ getWord (hdrp b.addr) h = some (w, h) ∧
      getWord footer h = some (w, h) := by
  have hv := hi.view (K := fun _ ↦ False) fun _ ha ↦ absurd ha id
  refine ⟨b.addr + b.size - 8, b.word, eq_of_returns_iff (hv.ftrp_block hb),
    eq_of_returns_iff fun Q ↦ ?_, eq_of_returns_iff fun Q ↦ ?_⟩
  · rw [hv.hdrp_block hb, returns_getWord (hv.header_inArena hb).1, hi.header b hb]
  · rw [returns_getWord (hv.header_inArena hb).2, hi.footer b hb]

end HeapInvariant

/-- The heap is well formed, in the words of the source: the walk of its blocks, footers like
headers, and class lists that are rings through their roots, whose nodes are without repetition the
free blocks of the walk. -/
structure WellFormed (h : Heap) (blocks : List Block) (lists : Filing) : Prop where
  walk : nextBlkp h.prologue h = some (firstBlock h.memStartBrk, h) ∧
    Walk h (firstBlock h.memStartBrk) blocks
  footer : ∀ b ∈ blocks, ∃ footer w, ftrp b.addr h = some (footer, h) ∧
    getWord (hdrp b.addr) h = some (w, h) ∧ getWord footer h = some (w, h)
  ring : ∀ c < sizeClassNum, ∃ root, getClassRoot c h = some (root, h) ∧
    Ring (fun x ↦ h.word x) (fun x ↦ h.word (x + 4)) root (lists c) ∧ (root :: lists c).Nodup
  disjoint : ∀ c < sizeClassNum, ∀ d < sizeClassNum, c ≠ d → List.Disjoint (lists c) (lists d)
  filed : ∀ x, (∃ c < sizeClassNum, x ∈ lists c) ↔ ∃ b ∈ blocks, b.addr = x ∧ b.alloc = false

theorem HeapInvariant.wellFormed {h : Heap} {σ : Shape} (hi : HeapInvariant h σ) :
    WellFormed h σ.blocks σ.lists where
  walk := hi.walk
  footer := fun _ hb ↦ hi.footer_eq_header hb
  ring := fun c hc ↦ by
    have hv := hi.view (K := fun _ ↦ False) fun _ ha ↦ absurd ha id
    exact ⟨_, eq_of_returns_iff (hv.getClassRoot_eq hc), hi.linked.ring c hc, hi.linked.nodup c hc⟩
  disjoint := fun c hc d hd hne x hxc hxd ↦
    hne (hi.proper.simple.disjoint c hc d hd x hxc hxd)
  filed := hi.proper.filed

/-! ### The block structure -/

variable {base : Nat} {events events' : List Event} {s s' : Session}

/-- A request is served if the break and what it may ask of `mem_sbrk` do not pass the last address. -/
theorem Session.Consistent.served {σ : Shape} (hc : s.Consistent σ) {r : Request}
    (hadmitted : r.Admitted s) (hgrow : r.NotGrowing s)
    (hroom : ∀ size refused, r = .malloc size refused →
      s.heap.memBrk + sbrkAmount (align (addWord size dsize)) < 2 ^ 32) :
    ∃ answer h', r.serve s.heap = some (answer, h') := by
  rcases hm : r.onShape s.heap.memMaxAddr σ with _ | ⟨q, σ'⟩
  · obtain ⟨⟨size, refused, rfl⟩, -⟩ := hc.serve_undefined hadmitted hm
    have hwrap := ((Shape.malloc_eq_none hc.settled.proper hadmitted.1 rfl).mp hm).2.2
    have hlt := hroom size refused rfl
    rw [hc.heap.brk_eq] at hlt
    omega
  · obtain ⟨q', h', hserve, -⟩ := hc.serve hadmitted hgrow hm
    exact ⟨q', h', hserve⟩

/-- In every session the heap is well formed, and every request is served with which the break would
not pass the last address, if it came to `mem_sbrk`. -/
theorem session_well_formed (h : Session.Reached base events s) :
    (∃ blocks lists, WellFormed s.heap blocks lists) ∧
      ∀ r : Request, r.Admitted s → r.NotGrowing s →
        (∀ size refused, r = .malloc size refused →
          s.heap.memBrk + sbrkAmount (align (addWord size dsize)) < 2 ^ 32) →
        ∃ answer h', r.serve s.heap = some (answer, h') := by
  obtain ⟨-, σ, hc⟩ := h.consistent
  exact ⟨⟨σ.blocks, σ.lists, hc.heap.wellFormed⟩, fun _ ↦ hc.served⟩

theorem session_well_formed_short : ∃ s,
    Session.Reached 4096 (shortTrace.map fun x ↦ .request x.1 x.2) s ∧
      (∃ blocks lists, WellFormed s.heap blocks lists) ∧
      ∀ r : Request, r.Admitted s → r.NotGrowing s →
        (∀ size refused, r = .malloc size refused →
          s.heap.memBrk + sbrkAmount (align (addWord size dsize)) < 2 ^ 32) →
        ∃ answer h', r.serve s.heap = some (answer, h') := by
  obtain ⟨s, h⟩ := exists_reached_shortTrace
  exact ⟨s, h, session_well_formed h⟩

/-- No two neighbouring blocks are free, with or without bulk tags. -/
theorem session_coalesced (h : Session.Reached base events s) :
    ∃ blocks, Walk s.heap (firstBlock base) blocks ∧
      blocks.IsChain fun a b ↦ a.alloc = true ∨ b.alloc = true := by
  obtain ⟨rfl, σ, hc⟩ := h.consistent
  exact ⟨σ.blocks, hc.heap.walk.2, hc.settled.coalesced⟩

theorem session_coalesced_short : ∃ s,
    Session.Reached 4096 (shortTrace.map fun x ↦ .request x.1 x.2) s ∧
      ∃ blocks, Walk s.heap (firstBlock 4096) blocks ∧
        blocks.IsChain fun a b ↦ a.alloc = true ∨ b.alloc = true := by
  obtain ⟨s, h⟩ := exists_reached_shortTrace
  exact ⟨s, h, session_coalesced h⟩

/-- A free block without the bulk tag is on the list of its class; one with the bulk tag is on the
list of a class up to its own. Either way its size exceeds the lower bound of the list. What
`find_fit` returns is a block with the list it is on. -/
theorem session_placement (h : Session.Reached base events s) :
    ∃ blocks lists, WellFormed s.heap blocks lists ∧
      (∀ b ∈ blocks, b.alloc = false → ∃ c < sizeClassNum, b.addr ∈ lists c ∧
        getLowerBound c < b.size ∧
        if b.bulk = true then c ≤ getSizeClass b.size else c = getSizeClass b.size) ∧
      ∀ asize p c h', findFit asize s.heap = some ((p, c), h') → p ≠ null →
        h' = s.heap ∧ c < sizeClassNum ∧ p ∈ lists c := by
  obtain ⟨-, σ, hc⟩ := h.consistent
  refine ⟨σ.blocks, σ.lists, hc.heap.wellFormed, fun b hb hfree ↦ ?_, fun asize p c h' hfind hp ↦ ?_⟩
  · obtain ⟨c, hcls, hmem⟩ := (hc.settled.proper.filed b.addr).mpr ⟨b, hb, rfl, hfree⟩
    have hsized := hc.settled.proper.sized b hb
    have hsuited := hc.settled.suited b hb hfree c hcls hmem
    have hbound := getLowerBound_lt_iff
      (show 0 < b.size by unfold Block.Sized at hsized; omega) hcls
    refine ⟨c, hcls, hmem, ?_⟩
    unfold Block.SuitedTo at hsuited
    split_ifs at hsuited ⊢
    · exact ⟨hsuited, hbound.mp hsuited⟩
    · exact ⟨hbound.mpr (le_of_eq hsuited), hsuited⟩
  · have hv := hc.heap.view (K := fun _ ↦ False) fun _ ha ↦ absurd ha id
    have hfit : Returns (findFit asize) s.heap fun r t ↦
        r = (σ.fit asize).getD (null, sizeClassNum) ∧ t = s.heap :=
      (hv.findFit hc.settled.proper _).mpr ⟨rfl, rfl⟩
    rw [returns_iff_of_eq hfind] at hfit
    obtain ⟨hresult, hheap⟩ := hfit
    refine ⟨hheap, ?_⟩
    rcases hsome : σ.fit asize with _ | ⟨x, d⟩
    · rw [hsome] at hresult
      exact absurd (Prod.mk.inj hresult).1 hp
    · rw [hsome] at hresult
      obtain ⟨rfl, rfl⟩ := Prod.mk.inj hresult
      obtain ⟨-, -, -, -, -, -, hcls, hmem⟩ := Shape.fit_eq_some hc.settled.proper hsome
      exact ⟨hcls, hmem⟩

theorem session_placement_short : ∃ s,
    Session.Reached 4096 (shortTrace.map fun x ↦ .request x.1 x.2) s ∧
      ∃ blocks lists, WellFormed s.heap blocks lists ∧
        ∀ b ∈ blocks, b.alloc = false → ∃ c < sizeClassNum, b.addr ∈ lists c := by
  obtain ⟨s, h⟩ := exists_reached_shortTrace
  obtain ⟨blocks, lists, hformed, hfiled, -⟩ := session_placement h
  exact ⟨s, h, blocks, lists, hformed, fun b hb hfree ↦
    (hfiled b hb hfree).imp fun c hc ↦ ⟨hc.1, hc.2.1⟩⟩

/-! ### The client's extents -/

/-- The extents of different pointers held are disjoint. -/
theorem Session.Sound.extents_disjoint {σ : Shape} (hs : s.Sound σ) {p n q k : Nat}
    (hp : (p, n) ∈ s.live) (hq : (q, k) ∈ s.live) (hne : p ≠ q) : p + n ≤ q ∨ q + k ≤ p := by
  obtain ⟨b, hb, -, rfl, hbroom⟩ := hs.accounts.owner p n hp
  obtain ⟨c, hc, -, rfl, hcroom⟩ := hs.accounts.owner q k hq
  rcases hs.heap.geometry.trichotomy hb hc with rfl | hafter | hbefore
  · exact absurd rfl hne
  · exact Or.inl (by omega)
  · exact Or.inr (by omega)

/-- The extents of the pointers held are aligned, lie between the first block and the break, and are
disjoint; they hold no tag, no root and no link; they may be written freely; and a request changes
no byte of any of them but in the block it is applied to, where a reallocation that does not grow
returns the same pointer and keeps the first bytes. -/
theorem session_extents (h : Session.Reached base events s) :
    (s.live.map Prod.fst).Nodup ∧
    (∀ p n, (p, n) ∈ s.live → p % 8 = 0 ∧ firstBlock base ≤ p ∧ p + n ≤ s.heap.memBrk) ∧
    (∀ p n q k, (p, n) ∈ s.live → (q, k) ∈ s.live → p ≠ q → p + n ≤ q ∨ q + k ≤ p) ∧
    (∃ blocks lists, WellFormed s.heap blocks lists ∧ ∀ p n, (p, n) ∈ s.live →
      ∀ a, p ≤ a → a < p + n →
        (∀ b ∈ blocks, (a < b.addr - 4 ∨ b.addr ≤ a) ∧
          (a < b.addr + b.size - 8 ∨ b.addr + b.size - 4 ≤ a)) ∧
        (∀ c < sizeClassNum, classRoot base c + 8 ≤ a) ∧
        ∀ c < sizeClassNum, ∀ x ∈ lists c, a < x ∨ x + 8 ≤ a) ∧
    (∀ p n a v, (p, n) ∈ s.live → p ≤ a → a < p + n →
      Session.Step (fun s r ↦ r.NotGrowing s) s (.write a v)
        ⟨{ s.heap with bytes := Function.update s.heap.bytes a v }, s.live⟩) ∧
    ∀ (r : Request) answer h', r.Admitted s → r.NotGrowing s →
      r.serve s.heap = some (answer, h') →
      (∀ a, r.Spares s.live a → h'.bytes a = s.heap.bytes a) ∧
        ∀ p t, r = .realloc p t → answer = p := by
  obtain ⟨rfl, σ, hc⟩ := h.consistent
  refine ⟨hc.accounts.nodup, fun p n hp ↦ ?_, fun p n q k hp hq hne ↦ ?_, ?_,
    fun p n a v hp hlow hhigh ↦ ?_, fun r answer h' hadmitted hgrow hserve ↦ ?_⟩
  · obtain ⟨b, hb, -, rfl, hroom⟩ := hc.accounts.owner p n hp
    obtain ⟨hmod, -, -, hlow, hhigh⟩ := hc.heap.geometry.block b hb
    rw [hc.heap.brk_eq]
    exact ⟨hmod, hlow, by omega⟩
  · exact hc.extents_disjoint hp hq hne
  · refine ⟨σ.blocks, σ.lists, hc.heap.wellFormed, fun p n hp a hlow hhigh ↦ ?_⟩
    obtain ⟨b, hb, halloc, -, hpayload⟩ := hc.payload_of_extent hp hlow hhigh
    obtain ⟨htags, hfirst, -, hlinks⟩ := hc.heap.payload_clear ⟨b, hb, halloc, hpayload⟩
    refine ⟨htags, fun c hcls ↦ ?_, fun c hcls x hx ↦ hlinks x ⟨c, hcls, hx⟩⟩
    unfold sizeClassNum at hcls
    unfold classRoot
    omega
  · obtain ⟨b, hb, -, rfl, hroom⟩ := hc.accounts.owner p n hp
    exact .write v hp hlow (by rw [hc.blockSize_eq hb]; omega)
  · obtain ⟨σ', hm, hserving⟩ := hc.of_serve hadmitted hgrow hserve
    refine ⟨hserving.kept, ?_⟩
    rintro p t rfl
    obtain ⟨σ'', -, heq⟩ := Option.map_eq_some_iff.mp hm
    exact (Prod.mk.inj heq).1.symm

theorem session_extents_short : ∃ s,
    Session.Reached 4096 (shortTrace.map fun x ↦ .request x.1 x.2) s ∧
      ∀ p n, (p, n) ∈ s.live → p % 8 = 0 ∧ firstBlock 4096 ≤ p ∧ p + n ≤ s.heap.memBrk := by
  obtain ⟨s, h⟩ := exists_reached_shortTrace
  exact ⟨s, h, (session_extents h).2.1⟩

/-! ### Two sessions -/

/-- Two sessions in arenas at the same address that make the same requests get the same answers, and
have the same break, blocks and lists, whatever bytes were in memory before, and whatever their
clients write. A request that one of them can make has an answer in both or in neither. -/
theorem sessions_agree (h : Session.Reached base events s) (h' : Session.Reached base events' s')
    (hrequests : (events.filterMap Event.shown).map Prod.fst =
      (events'.filterMap Event.shown).map Prod.fst) :
    events.filterMap Event.shown = events'.filterMap Event.shown ∧
      s.heap.memBrk = s'.heap.memBrk ∧
      (∃ blocks lists, WellFormed s.heap blocks lists ∧ WellFormed s'.heap blocks lists) ∧
      ∀ r : Request, r.Admitted s → r.NotGrowing s →
        r.Admitted s' ∧ r.NotGrowing s' ∧ (r.serve s.heap = none ↔ r.serve s'.heap = none) := by
  have hmove : ∀ s a e s', s.Represents base a →
      Session.Step (fun s r ↦ r.NotGrowing s) s e s' →
      Responds (Session.Represents base) (Request.onAccount base) a s' e.shown :=
    fun _ _ _ _ hrep hstep ↦ hstep.represents hrep
  obtain ⟨hshown, ⟨σ, live⟩, hrep, hrep'⟩ :=
    Run.agree (fun _ hopened ↦ hopened.represents) (fun _ hopened ↦ hopened.represents) hmove hmove
      h h' hrequests
  have hpossible := hrep.possible_iff
  have hpossible' := hrep'.possible_iff
  obtain ⟨hbase, -, hc⟩ := hrep
  obtain ⟨hbase', -, hc'⟩ := hrep'
  dsimp only at hc hc'
  refine ⟨hshown, hc.heap.brk_eq.trans hc'.heap.brk_eq.symm,
    ⟨σ.blocks, σ.lists, hc.heap.wellFormed, hc'.heap.wellFormed⟩, fun r hadmitted hgrow ↦ ?_⟩
  obtain ⟨hadmitted', hgrow'⟩ := (hpossible' r).mp ((hpossible r).mpr ⟨hadmitted, hgrow⟩)
  refine ⟨hadmitted', hgrow', ?_⟩
  rw [hc.serve_eq_none hadmitted hgrow, hc'.serve_eq_none hadmitted' hgrow', hc.heap.arena.size,
    hc'.heap.arena.size, hbase, hbase']

set_option maxRecDepth 4000 in
theorem sessions_agree_written : ∃ s s',
    Session.Reached 4096 [.request (.malloc 600 false) 4368, .request (.free 4368) null] s ∧
      Session.Reached 4096
        [.request (.malloc 600 false) 4368, .write 4368 7, .request (.free 4368) null] s' ∧
      s.heap.memBrk = s'.heap.memBrk := by
  have hmalloc : ∃ b, (Request.malloc 600 false).onAccount 4096 (emptyShape 4096, []) =
      some (4368, b, [(4368, 600)]) := ⟨_, rfl⟩
  obtain ⟨σ, hmalloc⟩ := hmalloc
  have hfree : ∃ b, Follows (Request.onAccount 4096) (emptyShape 4096, [])
      [(.malloc 600 false, 4368), (.free 4368, null)] b := ⟨_, _, rfl, _, rfl, rfl⟩
  obtain ⟨b, c, hc, hfree⟩ := hfree
  obtain ⟨-, rfl⟩ := Prod.mk.inj (Option.some.inj (hmalloc.symm.trans hc))
  have hbase : 4096 % 8 = 0 := by decide
  obtain ⟨s, hopened, -⟩ := Session.exists_opened hbase (by decide) (by decide) none
  obtain ⟨t, hgranted, hrep, -⟩ := hopened.represents.step hmalloc
  obtain ⟨t', hwritten, hrep'⟩ := hrep.write 7 List.mem_cons_self (Nat.le_refl _) (by decide)
  have hreached := Run.step (Run.start hopened) hgranted
  obtain ⟨u, h, -⟩ := Session.Reached.along hreached hrep hfree
  obtain ⟨u', h', -⟩ := Session.Reached.along (hreached.step hwritten) hrep' hfree
  exact ⟨u, u', h, h', (sessions_agree h h' rfl).2.1⟩

end SystemProgramming.MemoryLab
