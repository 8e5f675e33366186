import SystemProgramming.MemoryLab.Guarantees

/-!
# `mm_exit`

The loop of `mm_exit` goes from block to block while `mm_free` merges the blocks behind it. What it
has passed is one free block, or nothing. A block that was merged together with the free block
behind it leaves that block's header in place, so that the loop reads a header that is no block's any
more; it says that the block is free, and how far it went, so that the loop steps over it to the next
block there is (`Sweep`).
-/

set_option autoImplicit false
set_option relaxedAutoImplicit false

namespace SystemProgramming.MemoryLab

open Library

/-! ### Freeing behind one free block -/

theorem splitFreeLast_toList {done : Option Block} (hdone : ∀ f ∈ done, f.alloc = false) :
    splitFreeLast done.toList = ([], done) := by
  cases done with
  | none => rfl
  | some f => simp [splitFreeLast, hdone f rfl]

/-- Freeing a block before which there is one free block, or nothing, leaves one free block in front
of the blocks that were not merged. -/
theorem Focus.free_front {done : Option Block} (hdone : ∀ f ∈ done, f.alloc = false) (b : Block)
    (rest : List Block) (L : Filing) :
    (Focus.free ⟨done.toList, b, rest, L⟩).front = [] ∧
      (Focus.free ⟨done.toList, b, rest, L⟩).back = (splitFreeHead rest).2 ∧
      (Focus.free ⟨done.toList, b, rest, L⟩).block.addr = (done.getD b).addr ∧
      (Focus.free ⟨done.toList, b, rest, L⟩).block.alloc = false := by
  unfold Focus.free Focus.coalesce
  dsimp only
  rw [splitFreeLast_toList hdone]
  split_ifs with hnone
  · obtain ⟨rfl, hnext⟩ := hnone
    have hrest := splitFreeHead_eq rest
    rw [hnext] at hrest
    exact ⟨rfl, hrest, rfl, rfl⟩
  · refine ⟨rfl, rfl, ?_, rfl⟩
    cases done <;> rfl

/-! ### The loop -/

/-- Where the loop stands. All blocks before `rest` have been merged into `done`; `probe` is the
address of `stale`, a merged block whose header is still there, or else of the start of `rest`. -/
structure Sweep (h : Heap) (σ : Shape) (done stale : Option Block) (rest : List Block)
    (probe : Nat) : Prop where
  heap : HeapInvariant h σ
  settled : σ.Settled h.memStartBrk
  blocks : σ.blocks = done.toList ++ rest
  free : ∀ f ∈ done, f.alloc = false
  headed : ∀ n ∈ stale, Headed h n ∧ n.alloc = false ∧ n.size ≠ 0
  tiles : Tiles probe (stale.toList ++ rest) σ.brk

namespace Sweep

variable {h : Heap} {σ : Shape} {done stale : Option Block} {rest : List Block} {b n : Block}
  {probe : Nat}

/-- Past a stale header. -/
theorem skip (hs : Sweep h σ done (some n) rest probe) :
    Sweep h σ done none rest (n.addr + n.size) :=
  { hs with
    headed := by simp
    tiles := hs.tiles.2 }

/-- Past a free block. There is none before it, since no two neighbours are free. -/
theorem pass (hs : Sweep h σ done none (b :: rest) probe) (hfree : b.alloc = false) :
    done = none ∧ Sweep h σ (some b) none rest (b.addr + b.size) := by
  have hnone : done = none := by
    cases hdone : done with
    | none => rfl
    | some f =>
      have hcoalesced := hs.settled.coalesced
      rw [hs.blocks, hdone, Option.toList_some, List.singleton_append] at hcoalesced
      have hpair := (List.isChain_cons_cons.mp hcoalesced).1
      rw [hs.free f hdone, hfree] at hpair
      simp at hpair
  refine ⟨hnone, { hs with blocks := ?_, free := ?_, tiles := hs.tiles.2 }⟩
  · rw [hs.blocks, hnone]
    rfl
  · intro f hf
    rwa [← Option.mem_some.mp hf]

/-- Past an allocated block, by way of `mm_free`. -/
theorem release (hs : Sweep h σ done none (b :: rest) probe) (halloc : b.alloc = true) :
    Returns (mmFree b.addr) h fun _ h' ↦
      h'.memStartBrk = h.memStartBrk ∧ h'.memBrk = h.memBrk ∧
      h'.glRanges = h.glRanges.map (fun ranges ↦ removeRange ranges b.addr) ∧
      ∃ σ' f stale' next, Sweep h' σ' (some f) stale' (splitFreeHead rest).2 next ∧
        (stale'.toList ++ (splitFreeHead rest).2).length ≤ rest.length ∧
        nextBlkp b.addr h' = some (next, h') := by
  obtain ⟨hfront, hback, haddr, hfree⟩ := Focus.free_front hs.free b rest σ.lists
  let φ : Focus := ⟨done.toList, b, rest, σ.lists⟩
  have hshape : φ.shape σ.brk = σ := by
    have hblocks := hs.blocks
    cases σ
    simp only [Focus.shape] at hblocks ⊢
    rw [hblocks]
  have hsettled : (φ.shape σ.brk).Settled h.memStartBrk := hshape.symm ▸ hs.settled
  change φ.free.front = [] at hfront
  change φ.free.back = _ at hback
  change φ.free.block.addr = _ at haddr
  have hrest := splitFreeHead_eq rest
  have hlength := congrArg List.length hrest
  rw [List.length_append] at hlength
  refine (hs.heap.mmFree hshape halloc).mono ?_
  rintro _ h' ⟨hranges, hserves, hstale⟩
  have hi := hserves.invariant
  have hblocks : (φ.free.shape σ.brk).blocks = φ.free.block :: (splitFreeHead rest).2 := by
    rw [Focus.shape, hfront, hback, List.nil_append]
  have htiles := hi.proper.tiles
  rw [hblocks] at htiles
  have hsettled' : (φ.free.shape σ.brk).Settled h'.memStartBrk :=
    hserves.memStartBrk_eq.symm ▸ Focus.settled_free hsettled halloc
  refine ⟨hserves.memStartBrk_eq, hi.brk_eq.trans hs.heap.brk_eq.symm, hranges,
    φ.free.shape σ.brk, φ.free.block, ?_⟩
  -- the header of the block is read again: it is that of the merged block, or stale
  cases hdone : done with
  | none =>
    rw [hdone, Option.getD_none] at haddr
    refine ⟨none, φ.free.block.addr + φ.free.block.size, ⟨hi, hsettled', hblocks,
      fun f hf ↦ Option.mem_some.mp hf ▸ hfree, by simp, htiles.2⟩, ?_, ?_⟩
    · rw [Option.toList_none, List.nil_append]
      omega
    · have hv := hi.view (K := fun _ ↦ False) fun _ ha ↦ absurd ha id
      rw [← haddr]
      exact eq_of_returns_iff (hv.nextBlkp_block (by rw [hblocks]; exact List.mem_cons_self))
  | some f =>
    rw [hdone, Option.getD_some] at haddr
    have hmarked : ∀ c ∈ { b with alloc := false } :: rest,
        ∃ d ∈ b :: rest, d.addr = c.addr ∧ d.size = c.size := fun c hc ↦ by
      rcases List.mem_cons.mp hc with rfl | hc
      · exact ⟨b, List.mem_cons_self, rfl, rfl⟩
      · exact ⟨c, List.mem_cons_of_mem _ hc, rfl, rfl⟩
    have hapart : ∀ d ∈ b :: rest, d.addr ≠ φ.free.block.addr := fun d hd ↦ by
      have hsorted := hs.settled.proper.tiles.sorted
      have hsized := hs.settled.proper.sized f (by rw [hs.blocks, hdone]; simp)
      rw [hs.blocks, hdone, Option.toList_some, List.singleton_append] at hsorted
      have hbefore := (List.pairwise_cons.mp hsorted).1 d hd
      unfold Block.Sized at hsized
      omega
    have hheaded : ∀ c ∈ { b with alloc := false } :: rest, Headed h' c := fun c hc ↦ by
      obtain ⟨d, hd, hdaddr, hdsize⟩ := hmarked c hc
      have hblock := hs.heap.geometry.block d (by rw [hs.blocks]; exact List.mem_append_right _ hd)
      have hlt := hs.heap.brk_lt
      have hle := hs.heap.brk_le
      unfold firstBlock at hblock
      refine ⟨⟨?_, ?_⟩, hstale c ?_ (hdaddr ▸ hapart d hd), by omega, by omega, by omega⟩
      · rw [hserves.memStartBrk_eq]
        omega
      · rw [hserves.memMaxAddr_eq]
        omega
      · exact List.mem_append_right _ hc
    refine ⟨(splitFreeHead rest).1, b.addr + b.size, ⟨hi, hsettled', hblocks,
      fun f hf ↦ Option.mem_some.mp hf ▸ hfree, fun n hn ↦ ?_, ?_⟩, ?_, ?_⟩
    · have hnmem : n ∈ rest := by
        rw [hrest, Option.mem_def.mp hn]
        simp
      have hsized := hs.settled.proper.sized n (by rw [hs.blocks]; simp [hnmem])
      unfold Block.Sized at hsized
      exact ⟨hheaded n (List.mem_cons_of_mem _ hnmem), splitFreeHead_free hn, by omega⟩
    · rw [← hrest]
      exact hs.tiles.2
    · rw [← hrest]
    · exact eq_of_returns_iff (hheaded { b with alloc := false } List.mem_cons_self).nextBlkp

/-- The loop ends behind the last block. -/
theorem ends (hs : Sweep h σ done none [] probe) (fuel : Nat) :
    Returns (exitLoop (fuel + 1) probe) h fun freed h' ↦ freed = [] ∧ h' = h := by
  have hv := hs.heap.view (K := fun _ ↦ False) fun _ ha ↦ absurd ha id
  obtain rfl : probe = σ.brk := hs.tiles
  rw [exitLoop, returns_bind, hv.getSize_epilogue, returns_ite, if_neg (by simp), returns_pure]
  exact ⟨rfl, rfl⟩

/-- A round of the loop at a free block, whether its header is stale or not. -/
theorem round_free (hn : Headed h n) (hsize : n.size ≠ 0) (hfree : n.alloc = false) {fuel : Nat}
    {Q : List Nat → Heap → Prop} (hrest : Returns (exitLoop fuel (n.addr + n.size)) h Q) :
    Returns (exitLoop (fuel + 1) n.addr) h Q := by
  simp only [exitLoop, returns_bind]
  rw [hn.getSize, returns_ite, if_pos hsize, returns_bind, hn.getAlloc, hfree]
  simp only [Bool.false_eq_true, if_false, ne_eq, not_true_eq_false, returns_bind, returns_pure]
  rw [hn.nextBlkp]
  simpa using hrest

/-- The loop frees the allocated blocks that are left, in order, and leaves one free block at
most. -/
theorem exitLoop {fuel : Nat} : ∀ {h : Heap} {σ : Shape} {done stale : Option Block}
    {rest : List Block} {probe : Nat}, Sweep h σ done stale rest probe →
      (stale.toList ++ rest).length < fuel →
      Returns (exitLoop fuel probe) h fun freed h' ↦
        freed = (rest.filter Block.alloc).map Block.addr ∧
        h'.memStartBrk = h.memStartBrk ∧ h'.memBrk = h.memBrk ∧
        h'.glRanges = h.glRanges.map (fun ranges ↦ freed.foldl removeRange ranges) ∧
        ∃ σ' done', HeapInvariant h' σ' ∧ σ'.blocks = Option.toList done' ∧
          ∀ f ∈ done', f.alloc = false := by
  induction fuel with
  | zero => exact fun _ hfuel ↦ absurd hfuel (Nat.not_lt_zero _)
  | succ fuel ih =>
    intro h σ done stale rest probe hs hfuel
    have hv := hs.heap.view (K := fun _ ↦ False) fun _ ha ↦ absurd ha id
    cases stale with
    | some n =>
      obtain ⟨hn, hfree, hsize⟩ := hs.headed n rfl
      obtain rfl : n.addr = probe := hs.tiles.1
      rw [Option.toList_some, List.singleton_append, List.length_cons] at hfuel
      exact round_free hn hsize hfree (ih hs.skip (by simpa using hfuel))
    | none =>
      cases rest with
      | nil =>
        refine (hs.ends fuel).mono fun freed h' hends ↦ ?_
        obtain ⟨rfl, rfl⟩ := hends
        refine ⟨rfl, rfl, rfl, by simp, σ, done, hs.heap, ?_, hs.free⟩
        rw [hs.blocks, List.append_nil]
      | cons b rest =>
        have hb : b ∈ σ.blocks := by simp [hs.blocks]
        have hsized := hs.settled.proper.sized b hb
        unfold Block.Sized at hsized
        obtain rfl : b.addr = probe := hs.tiles.1
        rw [Option.toList_none, List.nil_append, List.length_cons] at hfuel
        cases halloc : b.alloc with
        | false =>
          obtain ⟨-, hpassed⟩ := hs.pass halloc
          have hround := round_free (hv.headed hb) (by omega) halloc
            (ih hpassed (by simpa using hfuel))
          simpa [halloc] using hround
        | true =>
          simp only [MemoryLab.exitLoop, returns_bind]
          rw [hv.getSize_hdrp hb, returns_ite, if_pos (by omega), returns_bind, hv.getAlloc_hdrp hb,
            halloc]
          simp only [if_true, ne_eq, one_ne_zero, not_false_eq_true, returns_bind, returns_pure]
          refine (hs.release halloc).mono fun _ t ht ↦ ?_
          obtain ⟨hstart, hbrk, hranges, σ', f, stale', next, hs', hlength, hnext⟩ := ht
          rw [returns_iff_of_eq hnext]
          refine (ih hs' (by omega)).mono fun freed h' hfreed ↦ ?_
          obtain ⟨hall, hstart', hbrk', hranges', hdone⟩ := hfreed
          have hrest := splitFreeHead_eq rest
          have hhead : ∀ n ∈ (splitFreeHead rest).1, n.alloc = false := splitFreeHead_mem rest
          refine ⟨?_, hstart'.trans hstart, hbrk'.trans hbrk, ?_, hdone⟩
          · rw [List.filter_cons, if_pos halloc, List.map_cons, hall, List.singleton_append]
            conv_rhs => rw [hrest]
            cases hnone : (splitFreeHead rest).1 with
            | none => rfl
            | some n => simp [hhead n hnone]
          · rw [hranges', hranges, Option.map_map]
            rfl

end Sweep

/-! ### The whole of `mm_exit` -/

theorem map_removeRange (ranges : List Range) (p : Nat) :
    (removeRange ranges p).map Range.lo = (ranges.map Range.lo).erase p := by
  rw [removeRange, List.erase_eq_eraseP', List.eraseP_map]
  rfl

/-- Removing the range of each recorded pointer leaves no range. -/
theorem foldl_removeRange {ranges : List Range} {freed : List Nat}
    (h : (ranges.map Range.lo).Perm freed) : freed.foldl removeRange ranges = [] := by
  induction freed generalizing ranges with
  | nil => exact List.map_eq_nil_iff.mp h.eq_nil
  | cons p freed ih =>
    refine ih ?_
    rw [map_removeRange]
    simpa using h.erase p

variable {base : Nat} {events : List Event} {s : Session}

/-- The pointers held are those of the allocated blocks. -/
theorem Session.Consistent.live_perm {σ : Shape} (hc : s.Consistent σ) :
    ((σ.blocks.filter Block.alloc).map Block.addr).Perm (s.live.map Prod.fst) := by
  have hsorted := (hc.settled.proper.tiles.sorted.filter Block.alloc)
  have hnodup : ((σ.blocks.filter Block.alloc).map Block.addr).Nodup := by
    refine List.pairwise_map.mpr (hsorted.imp_of_mem fun {a b} ha _ hab ↦ ?_)
    have hsized := hc.settled.proper.sized a (List.mem_filter.mp ha).1
    unfold Block.Sized at hsized
    omega
  refine (List.perm_ext_iff_of_nodup hnodup hc.accounts.nodup).mpr fun p ↦ ?_
  rw [mem_map_fst]
  constructor
  · intro hp
    obtain ⟨b, hb, rfl⟩ := List.mem_map.mp hp
    exact hc.accounts.held b (List.mem_filter.mp hb).1 (List.mem_filter.mp hb).2
  · rintro ⟨n, hp⟩
    obtain ⟨b, hb, halloc, rfl, -⟩ := hc.accounts.owner p n hp
    exact List.mem_map.mpr ⟨b, List.mem_filter.mpr ⟨hb, halloc⟩, rfl⟩

/-- In every session in which the caller has recorded one range for each pointer held, `mm_exit`
ends, having called `mm_free` once for each of these pointers and for nothing else. It leaves no
range, and a well-formed heap without blocks, or with a single free block from the first address to
the break. -/
theorem session_exit (h : Session.Reached base events s) {ranges : List Range}
    (hranges : s.heap.glRanges = some ranges)
    (hrecorded : (ranges.map Range.lo).Perm (s.live.map Prod.fst)) :
    ∃ freed h', mmExit s.heap = some (freed, h') ∧ freed.Perm (s.live.map Prod.fst) ∧
      freed.Nodup ∧ h'.glRanges = some [] ∧ ∃ blocks lists, WellFormed h' blocks lists ∧
        ((blocks = [] ∧ h'.memBrk = firstBlock base) ∨ ∃ b, blocks = [b] ∧ b.alloc = false ∧
          b.addr = firstBlock base ∧ b.addr + b.size = h'.memBrk) := by
  obtain ⟨rfl, σ, hc⟩ := h.consistent
  have hperm := hc.live_perm
  have hlength := hc.settled.proper.tiles.length_le hc.settled.proper.sized
  have hlt := hc.heap.brk_lt
  have hsweep : Sweep s.heap σ none none σ.blocks (firstBlock s.heap.memStartBrk) :=
    ⟨hc.heap, hc.settled, rfl, by simp, by simp, hc.settled.proper.tiles⟩
  have hfuel : (Option.toList none ++ σ.blocks).length < loopFuel := by
    rw [Option.toList_none, List.nil_append]
    unfold loopFuel
    omega
  have hexit : ∀ Q, Returns mmExit s.heap Q ↔
      Returns (exitLoop loopFuel (firstBlock s.heap.memStartBrk)) s.heap Q := fun Q ↦ by
    rw [mmExit, returns_bind, returns_get, returns_bind, returns_iff_of_eq hc.heap.walk.1]
  obtain ⟨freed, h', hrun, rfl, hstart, -, hranges', σ', done, hi, hblocks, hfree⟩ :=
    (hexit _).mpr (hsweep.exitLoop hfuel)
  refine ⟨_, h', hrun, hperm, hperm.nodup_iff.mpr hc.accounts.nodup, ?_, σ'.blocks, σ'.lists,
    hi.wellFormed, ?_⟩
  · rw [hranges', hranges, Option.map_some, foldl_removeRange (hrecorded.trans hperm.symm)]
  · have htiles := hi.proper.tiles
    rw [hi.brk_eq, ← hstart]
    rw [hblocks] at htiles ⊢
    cases done with
    | none => exact Or.inl ⟨rfl, htiles.symm⟩
    | some b => exact Or.inr ⟨b, rfl, hfree b rfl, htiles.1, htiles.2⟩

set_option maxRecDepth 4000 in
theorem session_exit_two : ∃ s,
    Session.Reached 4096 [.request (.malloc 600 false) 4368, .request (.malloc 100 false) 4976,
      .ranges [⟨4976, 5075⟩, ⟨4368, 4967⟩]] s ∧
      ∃ freed h', mmExit s.heap = some (freed, h') ∧ freed.Perm (s.live.map Prod.fst) ∧
        h'.glRanges = some [] := by
  have hfirst : ∃ b, (Request.malloc 600 false).onAccount 4096 (emptyShape 4096, []) =
      some (4368, b) := ⟨_, rfl⟩
  obtain ⟨b, hfirst⟩ := hfirst
  have hsecond : ∃ c, (Request.malloc 100 false).onAccount 4096 b =
      some (4976, c, [(4976, 100), (4368, 600)]) := by
    obtain rfl := (Prod.mk.inj (Option.some.inj hfirst)).2
    exact ⟨_, rfl⟩
  obtain ⟨c, hsecond⟩ := hsecond
  have hbase : 4096 % 8 = 0 := by decide
  obtain ⟨s, hopened, hranges⟩ :=
    Session.exists_opened hbase (by decide) (by decide) (some [])
  obtain ⟨t, hstep, hrep, hranges'⟩ := hopened.represents.step hfirst
  obtain ⟨u, hstep', hrep', hranges''⟩ := hrep.step hsecond
  have hreached := ((Run.start hopened).step hstep).step hstep'
  have hrecorded := hreached.step (Session.Step.ranges [⟨4976, 5075⟩, ⟨4368, 4967⟩])
  have hkept : u.heap.glRanges = some [] := by
    rw [hranges'', hranges', hranges]
    rfl
  obtain ⟨freed, h', hexit, hperm, -, hempty, -⟩ :=
    session_exit hrecorded (congrArg (Option.map fun _ ↦ _) hkept) (by rw [hrep'.2.1]; rfl)
  exact ⟨_, hrecorded, freed, h', hexit, hperm, hempty⟩

end SystemProgramming.MemoryLab
