import SystemProgramming.MemoryLab.Initialization
import SystemProgramming.MemoryLab.Plain.Operations

/-!
# Requests on exact lists

`find_fit` passes over the lists of the classes below the one of the request, and over blocks that are
too small, so it returns the null pointer exactly if no free block is large enough. Where it does,
`mm_malloc` extends the heap, and the new memory, joined with a free block before it, is placed into.
`mm_init` leaves one free block.
-/

set_option autoImplicit false
set_option relaxedAutoImplicit false

namespace SystemProgramming.MemoryLab.Plain

open Library

/-- The null pointer if each of these free blocks is too small, or a free block that is large
enough. -/
def Finds (blocks : List Block) (asize : Nat) (among : Block → Prop) (p : Nat) : Prop :=
  (p = null ∧ ∀ b ∈ blocks, b.alloc = false → among b → b.size < asize) ∨
    ∃ b ∈ blocks, b.addr = p ∧ b.alloc = false ∧ asize ≤ b.size

/-- What a request for memory leads to: a shape with one more allocated block, large enough, and with
the others where they were. -/
structure Variant.Grants (v : Variant) (h : Heap) (σ : Shape) (asize p : Nat) (h' : Heap)
    (σ' : Shape) : Prop where
  memStartBrk_eq : h'.memStartBrk = h.memStartBrk
  holds : v.Holds h' σ'
  coalesced : Coalesced σ'.blocks
  fresh : ∀ c ∈ σ.blocks, c.alloc = true → c.addr ≠ p
  block : ∃ a : Block, a.addr = p ∧ a.alloc = true ∧ asize ≤ a.size ∧
    ∀ c : Block, c.alloc = true → (c ∈ σ'.blocks ↔ c ∈ σ.blocks ∨ c = a)

/-- A view reads the bytes, the arena and the place of the roots. -/
theorem View.congr {v : Variant} {h h' : Heap} {W : Words} {L : Filing} (hv : View v h W L)
    (hbytes : h'.bytes = h.bytes) (hstart : h'.memStartBrk = h.memStartBrk)
    (hmax : h'.memMaxAddr = h.memMaxAddr) (hclass : h'.sizeClassP = h.sizeClassP) :
    View v h' W L := by
  obtain ⟨bytes, start, brk, max, refused, sizeClassP, prologue, ranges⟩ := h
  obtain ⟨bytes', start', brk', max', refused', sizeClassP', prologue', ranges'⟩ := h'
  dsimp only at hbytes hstart hmax hclass
  subst hbytes hstart hmax hclass
  exact ⟨⟨hv.arena.aligned, hv.arena.nonnull, hv.arena.size, hv.arena.below⟩, hv.sizeClassP_eq,
    hv.linked, hv.known, fun y hy ↦ ⟨(hv.place y hy).mod, (hv.place y hy).low, (hv.place y hy).high⟩,
    hv.apart⟩

namespace Variant.Holds

variable {v : Variant} {h : Heap} {σ : Shape}

theorem congr {h' : Heap} (hh : v.Holds h σ) (hbytes : h'.bytes = h.bytes)
    (hstart : h'.memStartBrk = h.memStartBrk) (hmax : h'.memMaxAddr = h.memMaxAddr)
    (hclass : h'.sizeClassP = h.sizeClassP) (hprologue : h'.prologue = h.prologue)
    (hbrk : h'.memBrk = h.memBrk) : v.Holds h' σ where
  view := hstart ▸ hh.view.congr hbytes hstart hmax hclass
  layout := hstart ▸ hh.layout
  exact := hh.exact
  prologue_eq := hprologue.trans (hstart ▸ hh.prologue_eq)
  brk_eq := hbrk.trans hh.brk_eq
  brk_le := hmax ▸ hh.brk_le

theorem addr_pos (hh : v.Holds h σ) {b : Block} (hb : b ∈ σ.blocks) : 0 < b.addr := by
  have hblock := hh.layout.block hb
  unfold Variant.firstBlock at hblock
  omega

/-! ### The search -/

/-- The inner loop of `find_fit`, in the middle of a list. -/
theorem probeList (hh : v.Holds h σ) {c asize : Nat} (hc : c < v.sizeClassNum) (back : List Nat) :
    ∀ (front : List Nat) (fuel : Nat), σ.lists c = front ++ back → back.length < fuel →
      Returns (MemoryLab.probeList asize (classRoot h.memStartBrk c) fuel
        (ringHead (classRoot h.memStartBrk c) back)) h fun p h' ↦
          h' = h ∧ Finds σ.blocks asize (fun b ↦ b.addr ∈ back) p := by
  induction back with
  | nil =>
    intro front fuel hsplit hfuel
    obtain ⟨fuel, rfl⟩ := Nat.exists_eq_succ_of_ne_zero (Nat.ne_of_gt (Nat.zero_lt_of_lt hfuel))
    have hend : ringHead (classRoot h.memStartBrk c) [] = classRoot h.memStartBrk c := rfl
    rw [MemoryLab.probeList, if_pos hend, returns_pure]
    exact ⟨rfl, Or.inl ⟨rfl, fun b _ _ hmem ↦ absurd hmem List.not_mem_nil⟩⟩
  | cons x back ih =>
    intro front fuel hsplit hfuel
    obtain ⟨fuel, rfl⟩ := Nat.exists_eq_succ_of_ne_zero (Nat.ne_of_gt (Nat.zero_lt_of_lt hfuel))
    have hx : x ∈ σ.lists c := by simp [hsplit]
    obtain ⟨b, hb, rfl, hfree, -⟩ := (hh.exact c hc x).mp hx
    have hne : b.addr ≠ classRoot h.memStartBrk c := fun heq ↦ by
      have hnodup := hh.view.linked.nodup c hc
      rw [← heq] at hnodup
      exact (List.nodup_cons.mp hnodup).1 hx
    have hring := hh.view.linked.ring c hc
    rw [hsplit] at hring
    have hnext : wordAt h.bytes b.addr = ringHead (classRoot h.memStartBrk c) back :=
      hring.neighbours.1
    rw [show ringHead (classRoot h.memStartBrk c) (b.addr :: back) = b.addr from rfl,
      MemoryLab.probeList, if_neg hne, returns_bind, (hh.headed hb).getSize, returns_ite]
    by_cases hsize : asize ≤ b.size
    · rw [if_pos hsize, returns_pure]
      exact ⟨rfl, Or.inr ⟨b, hb, rfl, hfree, hsize⟩⟩
    · have hplace := hh.view.place b.addr ⟨c, hc, List.mem_cons_of_mem _ hx⟩
      rw [if_neg hsize, returns_bind]
      refine (hplace.nextFree h.bytes _).mpr ?_
      rw [hnext]
      refine (ih (front ++ [b.addr]) fuel (by simp [hsplit]) (by simpa using hfuel)).mono ?_
      rintro p h' ⟨rfl, ⟨rfl, hsmall⟩ | hfound⟩
      · refine ⟨rfl, Or.inl ⟨rfl, fun d hd hdfree hmem ↦ ?_⟩⟩
        rcases List.mem_cons.mp hmem with heq | hmem
        · rw [eq_of_addr_eq hh.layout.tiles.sorted hh.layout.sized hd hb heq]
          omega
        · exact hsmall d hd hdfree hmem
      · exact ⟨rfl, Or.inr hfound⟩

/-- The outer loop of `find_fit`. -/
theorem probeClasses (hh : v.Holds h σ) (asize : Nat) {n : Nat} (hn : n ≤ v.sizeClassNum) :
    Returns (v.probeClasses asize n) h fun p h' ↦
      h' = h ∧ Finds σ.blocks asize (fun b ↦ v.sizeClassNum - n ≤ v.getSizeClass b.size) p := by
  induction n with
  | zero =>
    refine (returns_pure _ _ _).mpr ⟨rfl, Or.inl ⟨rfl, fun b _ _ hle ↦ ?_⟩⟩
    have hlt := v.getSizeClass_lt b.size
    omega
  | succ n ih =>
    have hc : v.sizeClassNum - (n + 1) < v.sizeClassNum := by omega
    have hbounds : ∀ x ∈ σ.lists (v.sizeClassNum - (n + 1)), 0 < x ∧ x < 2 ^ 32 := by
      intro x hx
      obtain ⟨b, hb, rfl, -⟩ := (hh.exact _ hc x).mp hx
      have hblock := hh.layout.block hb
      have hlt := hh.layout.brk_lt
      exact ⟨hh.addr_pos hb, by omega⟩
    have hlength := length_lt_of_nodup (hh.view.nodup hc) hbounds (by norm_num)
    have hroot : wordAt h.bytes (classRoot h.memStartBrk (v.sizeClassNum - (n + 1))) =
        ringHead (classRoot h.memStartBrk (v.sizeClassNum - (n + 1)))
          (σ.lists (v.sizeClassNum - (n + 1))) := (hh.view.linked.ring _ hc).next_root
    rw [Variant.probeClasses, returns_bind]
    refine (hh.view.getClassRoot hc h.bytes _).mpr ?_
    rw [returns_bind]
    refine ((hh.view.root hc).nextFree h.bytes _).mpr ?_
    rw [returns_bind, hroot]
    refine (hh.probeList hc _ [] loopFuel rfl hlength).mono ?_
    rintro p h' ⟨rfl, hfinds⟩
    rw [returns_ite]
    rcases hfinds with ⟨rfl, hsmall⟩ | ⟨b, hb, rfl, hfree, hfit⟩
    · rw [if_neg (by simp)]
      refine (ih (by omega)).mono ?_
      rintro p h' ⟨rfl, ⟨rfl, hrest⟩ | hfound⟩
      · refine ⟨rfl, Or.inl ⟨rfl, fun b hb hfree hle ↦ ?_⟩⟩
        by_cases hcls : v.getSizeClass b.size = v.sizeClassNum - (n + 1)
        · exact hsmall b hb hfree ((hh.exact _ hc _).mpr ⟨b, hb, rfl, hfree, hcls⟩)
        · exact hrest b hb hfree (by omega)
      · exact ⟨rfl, Or.inr hfound⟩
    · have hpos := hh.addr_pos hb
      rw [if_pos (by unfold null; omega), returns_pure]
      exact ⟨rfl, Or.inr ⟨b, hb, rfl, hfree, hfit⟩⟩

/-- `find_fit` passes over no block that is large enough. -/
theorem findFit (hh : v.Holds h σ) (asize : Nat) :
    Returns (v.findFit asize) h fun p h' ↦ h' = h ∧ Finds σ.blocks asize (fun _ ↦ True) p := by
  refine (hh.probeClasses asize (Nat.sub_le _ _)).mono ?_
  rintro p h' ⟨rfl, ⟨rfl, hsmall⟩ | hfound⟩
  · refine ⟨rfl, Or.inl ⟨rfl, fun b hb hfree _ ↦ ?_⟩⟩
    by_contra hfit
    have hmono := v.getSizeClass_mono (Nat.le_of_not_lt hfit)
    exact hfit (hsmall b hb hfree (by omega))
  · exact ⟨rfl, Or.inr hfound⟩

/-! ### Extending the heap -/

/-- The statements of `extend_heap` on the new memory, until it is coalesced: it becomes a free block
before a new epilogue, and is filed. -/
theorem fileLast (hh : v.Holds h σ) {asize : Nat} (hasize : asize % 8 = 0 ∧ 16 ≤ asize)
    (hmax : σ.brk + asize ≤ h.memMaxAddr) {Q : Unit → Heap → Prop}
    (hQ : ∀ m L', v.Holds ({ h with memBrk := σ.brk + asize }.store m)
      ⟨σ.blocks ++ [⟨σ.brk, asize, false, false⟩], L', σ.brk + asize⟩ →
      Q () ({ h with memBrk := σ.brk + asize }.store m)) :
    Returns (setBoundaryTag σ.brk asize 0) { h with memBrk := σ.brk + asize } fun _ s ↦
      Returns (nextBlkp σ.brk) s fun nextbp s ↦
        Returns (putWordAt (hdrp nextbp) (pack 0 1)) s fun _ s ↦
          Returns (v.insertBlock σ.brk asize) s Q := by
  have hbelow := hh.view.arena.below
  have hle := hh.layout.tiles.le
  have hlayout : v.Layout h.memStartBrk (σ.blocks ++ [⟨σ.brk, asize, false, false⟩])
      (σ.brk + asize) := hh.layout.append rfl hasize rfl (by dsimp only; omega)
  have hfits := hlayout.fits
  rw [List.append_nil] at hfits
  have hfree : Block.alloc ⟨σ.brk, asize, false, false⟩ = false := rfl
  have hexact : v.Exact (σ.blocks ++ [⟨σ.brk, asize, false, false⟩])
      (fileUnder σ.lists (v.getSizeClass asize) σ.brk) :=
    Variant.Exact.insert (by simpa using hh.exact) hfree
  have hclear := fun y (hy : v.Node h.memStartBrk σ.lists y) ↦ View.node_clear hfits hh.exact hy
  have hbrk := hlayout.aligned.2
  unfold Variant.firstBlock at hle
  have hgrown : View v { h with memBrk := σ.brk + asize }
      (Tags (v.prologue h.memStartBrk :: σ.blocks)) σ.lists :=
    (hh.view.weaken fun _ _ ↦ Or.inl).congr rfl rfl rfl rfl
  have hnew : ∀ d ∈ σ.blocks ++ [⟨σ.brk, asize, false, false⟩],
      d = ⟨σ.brk, asize, false, false⟩ ∨ d ∈ σ.blocks := fun d hd ↦ by
    simp only [List.mem_append, List.mem_singleton] at hd
    tauto
  refine hgrown.setBoundaryTag (b := ⟨σ.brk, asize, false, false⟩) rfl hfits.mod hasize
    (by change h.memStartBrk + 8 ≤ σ.brk; omega) hmax hclear
    (fun q u ↦ hfits.tags_cons hh.view.arena.aligned hnew fun d hd ↦ hd) fun m₁ hm₁ ↦ ?_
  have hheaded := hm₁.headed (b := ⟨σ.brk, asize, false, false⟩)
    ⟨_, by simp, Or.inl rfl, rfl⟩ hasize.1 (by dsimp only; omega)
  rw [hheaded.nextBlkp]
  have hepilogue : hdrp (σ.brk + asize) = σ.brk + asize - 4 :=
    subWord_of_le (by unfold wsize; omega) (by omega)
  have harena : Heap.InArena { h with memBrk := σ.brk + asize } (σ.brk + asize - 4) :=
    ⟨by dsimp only; omega, by dsimp only; omega⟩
  change Returns (putWordAt (hdrp (σ.brk + asize)) 1) _ _
  rw [hepilogue, returns_putWordAt_store harena]
  have hm₂ : View v ({ h with memBrk := σ.brk + asize }.store (putWord m₁ (σ.brk + asize - 4) 1))
      (v.tags h.memStartBrk (σ.blocks ++ [⟨σ.brk, asize, false, false⟩]) (σ.brk + asize))
      σ.lists := by
    refine hm₁.putWord (by omega) harena (by omega) (fun y hy ↦ ?_) fun q u hq ↦ ?_
    · have hy' := hclear y hy
      dsimp only at hy'
      omega
    · rcases hq with hq | hq
      · have hend := hlayout.tags_le hq
        exact Or.inr ⟨by omega, hq⟩
      · exact Or.inl hq
  refine hm₂.file (b := ⟨σ.brk, asize, false, false⟩) hlayout hmax (by simp)
    (fun c hc hmem ↦ ?_) fun m hm ↦ hQ m _ ⟨hm, hlayout, hexact, hh.prologue_eq, rfl, hmax⟩
  obtain ⟨d, hd, haddr⟩ := hh.exact.exists_block c hc _ hmem
  have hblock := hh.layout.block hd
  dsimp only at haddr
  omega

/-- `extend_heap`, when `mem_sbrk` grants the request. -/
theorem extendHeap (hh : v.Holds h σ) {asize : Nat} (hasize : asize % 8 = 0 ∧ 16 ≤ asize)
    (hgrants : ¬ (h.sbrkRefused = true ∨ 2 ^ 31 ≤ asize ∨ h.memMaxAddr < addWord σ.brk asize))
    (hroom : σ.brk + asize < 2 ^ 32) {Q : Nat → Heap → Prop}
    (hQ : ∀ m L', v.Holds ({ h with memBrk := σ.brk + asize }.store m)
      ⟨((σ.extend asize).shape (σ.brk + asize)).blocks, L', σ.brk + asize⟩ →
      Q (σ.extend asize).block.addr ({ h with memBrk := σ.brk + asize }.store m)) :
    Returns (v.extendHeap asize) h Q := by
  have hadd : addWord σ.brk asize = σ.brk + asize := addWord_of_lt hroom
  simp only [Variant.extendHeap, returns_bind]
  rw [returns_memSbrk_grow (hh.brk_eq ▸ hgrants), hh.brk_eq, hadd, returns_ite,
    if_neg (by unfold sbrkFailed; omega)]
  simp only [returns_bind]
  refine hh.fileLast hasize (by omega) fun m L hm ↦ ?_
  exact hm.coalesce (φ := ⟨σ.blocks, ⟨σ.brk, asize, false, false⟩, [],
    fileUnder σ.lists (MemoryLab.getSizeClass asize) σ.brk⟩) rfl fun m' L' hm' ↦ hQ m' L' hm'

/-- `extend_heap` is undefined when the break would be carried past the last address. -/
theorem extendHeap_past_end (hh : v.Holds h σ) {asize : Nat} (hasize : asize % 8 = 0 ∧ 16 ≤ asize)
    (hgrants : ¬ (h.sbrkRefused = true ∨ 2 ^ 31 ≤ asize ∨ h.memMaxAddr < addWord σ.brk asize))
    (hwrap : 2 ^ 32 ≤ σ.brk + asize) (Q : Nat → Heap → Prop) :
    ¬ Returns (v.extendHeap asize) h Q := by
  intro hret
  have hmod := hh.layout.aligned.2
  have hle := hh.layout.tiles.le
  have hmax := hh.brk_le
  have hbelow := hh.view.arena.below
  unfold Variant.firstBlock at hle
  have harena : Heap.Arena { h with memBrk := addWord σ.brk asize } :=
    ⟨hh.view.arena.aligned, hh.view.arena.nonnull, hh.view.arena.size, hh.view.arena.below⟩
  simp only [Variant.extendHeap, returns_bind] at hret
  rw [returns_memSbrk_grow (hh.brk_eq ▸ hgrants), hh.brk_eq, returns_ite,
    if_neg (by unfold sbrkFailed; omega)] at hret
  simp only [returns_bind] at hret
  exact HeapInvariant.setBoundaryTag_past_end (b := ⟨σ.brk, asize, false, false⟩) harena rfl
    ⟨hmod, by change h.memStartBrk + 8 ≤ σ.brk; omega, hmax⟩ (by dsimp only; omega) hwrap
    (by change σ.brk + asize < h.memMaxAddr + 2 ^ 31; omega) _ hret

/-! ### Releasing -/

/-- `mm_free` of an allocated block. -/
theorem mmFree {φ : Focus} {brk : Nat} (hh : v.Holds h (φ.shape brk))
    (halloc : φ.block.alloc = true) {Q : Unit → Heap → Prop}
    (hQ : ∀ h' L', h'.memStartBrk = h.memStartBrk →
      v.Holds h' ⟨(φ.free.shape brk).blocks, L', brk⟩ → Q () h') :
    Returns (v.mmFree φ.block.addr) h Q := by
  obtain ⟨front, b, back, L⟩ := φ
  have hview : View v h (v.tags h.memStartBrk (front ++ b :: back) brk) L := hh.view
  have hlayout : v.Layout h.memStartBrk (front ++ b :: back) brk := hh.layout
  have hexact : v.Exact (front ++ back) L := (Variant.Exact.cons_iff halloc).mp hh.exact
  dsimp only at halloc ⊢
  have hbmem : b ∈ front ++ b :: back := by simp
  let freed : Block := { b with alloc := false }
  have hfreed : v.Layout h.memStartBrk (front ++ freed :: back) brk :=
    hlayout.mark rfl rfl (hlayout.plain b hbmem)
  have hsides : ∀ d ∈ front ++ back, d ∈ front ++ b :: back := fun d hd ↦ by
    simp only [List.mem_append, List.mem_cons] at hd ⊢
    tauto
  simp only [Variant.mmFree, returns_bind]
  rw [(hview.headed_block hlayout hbmem).getSize]
  refine hview.fill (b := freed) hfreed hh.brk_le hexact hsides rfl fun m₁ L₁ hm₁ hexact₁ ↦ ?_
  have hholds : v.Holds (h.store m₁) ⟨front ++ freed :: back, L₁, brk⟩ :=
    ⟨hm₁, hfreed, hexact₁, hh.prologue_eq, hh.brk_eq, hh.brk_le⟩
  refine hholds.coalesce (φ := ⟨front, freed, back,
    fileUnder L (MemoryLab.getSizeClass b.size) b.addr⟩) rfl fun m₂ L₂ hm₂ ↦ ?_
  rw [returns_modify]
  exact hQ _ L₂ rfl (hm₂.congr rfl rfl rfl rfl rfl rfl)

/-! ### Requests for memory -/

/-- Placing into a free block that is ready for it, in a heap with the allocated blocks of `σ`. -/
theorem place_grants (h₀ : Heap) {φ : Focus} {L : Filing} {asize brk : Nat}
    (hh : v.Holds h ⟨(φ.shape brk).blocks, L, brk⟩) (hstart : h.memStartBrk = h₀.memStartBrk)
    (hfree : φ.block.alloc = false) (hasize : asize % 8 = 0 ∧ 16 ≤ asize)
    (hfits : asize ≤ φ.block.size) (hfront : Coalesced φ.front) (hback : Coalesced φ.back)
    (hhead : ∀ n ∈ φ.back.head?, n.alloc = true)
    (hmem : ∀ c : Block, c.alloc = true → (c ∈ (φ.shape brk).blocks ↔ c ∈ σ.blocks)) :
    Returns (do
      v.place φ.block.addr asize
      pure φ.block.addr) h fun p h' ↦
        p ≠ null ∧ h'.memBrk = h.memBrk ∧ ∃ σ', v.Grants h₀ σ asize p h' σ' := by
  have hb : φ.block ∈ (φ.shape brk).blocks := by simp [Focus.shape]
  have hpos := hh.addr_pos hb
  rw [returns_bind]
  refine hh.place hfree hasize hfits fun m L' hm ↦ ?_
  rw [returns_pure]
  refine ⟨by unfold null; omega, rfl, _, hstart, hm, coalesced_place hfront hback hhead,
    fun c hc halloc heq ↦ ?_, ?_⟩
  · have hcb := eq_of_addr_eq hh.layout.tiles.sorted hh.layout.sized ((hmem c halloc).mpr hc) hb heq
    rw [hcb, hfree] at halloc
    cases halloc
  · obtain ⟨a, haddr, halloc, hsize, hplaced⟩ := Focus.mem_place hfree 0 brk brk hfits
    exact ⟨a, haddr, halloc, hsize, fun c hc ↦ (hplaced c hc).trans (or_congr_left (hmem c hc))⟩

/-- What `mm_malloc` does when no free block is large enough. -/
theorem returns_mmMalloc_unfit (hh : v.Holds h σ) {size asize : Nat} (hpos : 0 < size)
    (hreq : align (addWord size dsize) = asize)
    (hunfit : ∀ b ∈ σ.blocks, b.alloc = false → b.size < asize) (Q : Nat → Heap → Prop) :
    Returns (v.mmMalloc size) h Q ↔ Returns (v.extendHeap (max asize chunkSize)) h fun bp t ↦
      Returns (if bp = null then pure null else do
        v.place bp asize
        pure bp) t Q := by
  obtain ⟨found, h₁, hfind, rfl, hfinds⟩ := hh.findFit asize
  have hnull : found = null := by
    rcases hfinds with ⟨hnull, -⟩ | ⟨b, hb, -, hfree, hfits⟩
    · exact hnull
    · exact absurd (hunfit b hb hfree) (Nat.not_lt.mpr hfits)
  subst hreq
  simp only [Variant.mmMalloc]
  rw [returns_ite, if_neg (by omega), returns_bind, returns_iff_of_eq hfind, hnull, returns_ite,
    if_neg (by simp), returns_bind]

/-- `mm_malloc` when some free block is large enough: it is placed into such a block, and the break
stays. -/
theorem mmMalloc_fit (hh : v.Holds h σ) (hcoalesced : Coalesced σ.blocks) {size asize : Nat}
    (hpos : 0 < size) (hlt : size < 2 ^ 31) (hreq : align (addWord size dsize) = asize)
    (hfit : ∃ b ∈ σ.blocks, b.alloc = false ∧ asize ≤ b.size) :
    Returns (v.mmMalloc size) h fun p h' ↦
      p ≠ null ∧ h'.memBrk = h.memBrk ∧ ∃ σ', v.Grants h σ asize p h' σ' := by
  obtain ⟨hasize, -, -⟩ := align_request hpos hlt
  rw [hreq] at hasize
  obtain ⟨found, h₁, hfind, rfl, hfinds⟩ := hh.findFit asize
  obtain ⟨b, hb, rfl, hfree, hfits⟩ : ∃ b ∈ σ.blocks, b.addr = found ∧ b.alloc = false ∧
      asize ≤ b.size := by
    rcases hfinds with ⟨-, hsmall⟩ | hfound
    · obtain ⟨b, hb, hfree, hfits⟩ := hfit
      exact absurd (hsmall b hb hfree trivial) (Nat.not_lt.mpr hfits)
    · exact hfound
  have hnonnull := hh.addr_pos hb
  obtain ⟨blocks, L, brk⟩ := σ
  obtain ⟨front, back, hblocks⟩ := List.append_of_mem hb
  dsimp only at hblocks
  subst hblocks hreq
  obtain ⟨hfront, hback, hborder⟩ := coalesced_insert.mp hcoalesced
  simp only [Variant.mmMalloc]
  rw [returns_ite, if_neg (by omega), returns_bind, returns_iff_of_eq hfind, returns_ite,
    if_pos (by unfold null; omega)]
  exact hh.place_grants h₁ (φ := ⟨front, b, back, L⟩) rfl hfree hasize hfits hfront hback
    (hborder.resolve_left (by simp [hfree])).2 fun c hc ↦ Iff.rfl

/-- `mm_malloc` when `mem_sbrk` is called and refuses. -/
theorem mmMalloc_refused (hh : v.Holds h σ) {size asize : Nat} (hpos : 0 < size)
    (hreq : align (addWord size dsize) = asize)
    (hunfit : ∀ b ∈ σ.blocks, b.alloc = false → b.size < asize)
    (hfail : h.sbrkRefused = true ∨ 2 ^ 31 ≤ max asize chunkSize ∨
      h.memMaxAddr < addWord σ.brk (max asize chunkSize)) (Q : Nat → Heap → Prop) :
    Returns (v.mmMalloc size) h Q ↔ Q null h := by
  rw [hh.returns_mmMalloc_unfit hpos hreq hunfit, Variant.extendHeap, returns_bind,
    returns_memSbrk_fail (hh.brk_eq ▸ hfail), returns_ite, if_pos rfl, returns_pure, returns_ite,
    if_pos rfl, returns_pure]

/-- `mm_malloc` when `mem_sbrk` is called and grants the request. -/
theorem mmMalloc_extend (hh : v.Holds h σ) (hcoalesced : Coalesced σ.blocks) {size asize : Nat}
    (hpos : 0 < size) (hlt : size < 2 ^ 31) (hreq : align (addWord size dsize) = asize)
    (hunfit : ∀ b ∈ σ.blocks, b.alloc = false → b.size < asize)
    (hgrants : ¬ (h.sbrkRefused = true ∨ 2 ^ 31 ≤ max asize chunkSize ∨
      h.memMaxAddr < addWord σ.brk (max asize chunkSize)))
    (hroom : σ.brk + max asize chunkSize < 2 ^ 32) :
    Returns (v.mmMalloc size) h fun p h' ↦ p ≠ null ∧ ∃ σ', v.Grants h σ asize p h' σ' := by
  obtain ⟨hasize, -, -⟩ := align_request hpos hlt
  rw [hreq] at hasize
  have hchunk : max asize chunkSize % 8 = 0 ∧ 16 ≤ max asize chunkSize := by
    unfold chunkSize
    omega
  have hextend : Coalesced ((σ.extend (max asize chunkSize)).front ++
      (σ.extend (max asize chunkSize)).block :: (σ.extend (max asize chunkSize)).back) :=
    coalesced_coalesce hcoalesced List.IsChain.nil
  obtain ⟨hfree, hsize, hend⟩ := Shape.extend_block σ (max asize chunkSize)
  obtain ⟨hfront, hback, -⟩ := coalesced_insert.mp hextend
  rw [hh.returns_mmMalloc_unfit hpos hreq hunfit]
  refine hh.extendHeap hchunk hgrants hroom fun m L' hm ↦ ?_
  have hnonnull := hm.addr_pos (b := (σ.extend (max asize chunkSize)).block) (by simp [Focus.shape])
  rw [returns_ite, if_neg (by unfold null; omega)]
  exact (hm.place_grants h rfl hfree hasize ((Nat.le_max_left _ _).trans hsize) hfront hback
    (by simp [hend]) fun c hc ↦ Shape.mem_extend hc).mono fun p h' hgrants ↦
      ⟨hgrants.1, hgrants.2.2⟩

/-- `mm_malloc` is undefined when nothing is found and the break would be carried past the last
address. -/
theorem mmMalloc_past_end (hh : v.Holds h σ) {size asize : Nat} (hpos : 0 < size)
    (hlt : size < 2 ^ 31) (hreq : align (addWord size dsize) = asize)
    (hunfit : ∀ b ∈ σ.blocks, b.alloc = false → b.size < asize)
    (hgrants : ¬ (h.sbrkRefused = true ∨ 2 ^ 31 ≤ max asize chunkSize ∨
      h.memMaxAddr < addWord σ.brk (max asize chunkSize)))
    (hwrap : 2 ^ 32 ≤ σ.brk + max asize chunkSize) (Q : Nat → Heap → Prop) :
    ¬ Returns (v.mmMalloc size) h Q := by
  obtain ⟨hasize, -, -⟩ := align_request hpos hlt
  rw [hreq] at hasize
  have hchunk : max asize chunkSize % 8 = 0 ∧ 16 ≤ max asize chunkSize := by
    unfold chunkSize
    omega
  rw [hh.returns_mmMalloc_unfit hpos hreq hunfit]
  exact hh.extendHeap_past_end hchunk hgrants hwrap _

/-- `mm_malloc`, as long as the break is not carried past the last address: nothing happens, or there
is a new block. -/
theorem mmMalloc (hh : v.Holds h σ) (hcoalesced : Coalesced σ.blocks) {size asize : Nat}
    (hpos : 0 < size) (hlt : size < 2 ^ 31) (hreq : align (addWord size dsize) = asize)
    (hroom : (∀ b ∈ σ.blocks, b.alloc = false → b.size < asize) →
      ¬ (h.sbrkRefused = true ∨ 2 ^ 31 ≤ max asize chunkSize ∨
        h.memMaxAddr < addWord σ.brk (max asize chunkSize)) →
      σ.brk + max asize chunkSize < 2 ^ 32) :
    Returns (v.mmMalloc size) h fun p h' ↦
      (p = null ∧ h' = h) ∨ (p ≠ null ∧ ∃ σ', v.Grants h σ asize p h' σ') := by
  by_cases hfit : ∃ b ∈ σ.blocks, b.alloc = false ∧ asize ≤ b.size
  · exact (hh.mmMalloc_fit hcoalesced hpos hlt hreq hfit).mono fun p h' hgrants ↦
      Or.inr ⟨hgrants.1, hgrants.2.2⟩
  have hunfit : ∀ b ∈ σ.blocks, b.alloc = false → b.size < asize := fun b hb hfree ↦
    Nat.lt_of_not_le fun hle ↦ hfit ⟨b, hb, hfree, hle⟩
  by_cases hfail : h.sbrkRefused = true ∨ 2 ^ 31 ≤ max asize chunkSize ∨
      h.memMaxAddr < addWord σ.brk (max asize chunkSize)
  · exact (hh.mmMalloc_refused hpos hreq hunfit hfail _).mpr (Or.inl ⟨rfl, rfl⟩)
  · exact (hh.mmMalloc_extend hcoalesced hpos hlt hreq hunfit hfail (hroom hunfit hfail)).mono
      fun p h' hgrants ↦ Or.inr hgrants

/-- `mm_malloc`, where it returns. -/
theorem of_mmMalloc (hh : v.Holds h σ) (hcoalesced : Coalesced σ.blocks) {size p : Nat} {h' : Heap}
    (hpos : 0 < size) (hlt : size < 2 ^ 31) (hret : v.mmMalloc size h = some (p, h')) :
    (p = null ∧ h' = h) ∨
      (p ≠ null ∧ ∃ σ', v.Grants h σ (align (addWord size dsize)) p h' σ') := by
  have hmalloc := hh.mmMalloc hcoalesced hpos hlt rfl fun hunfit hgrants ↦ by
    by_contra hwrap
    exact hh.mmMalloc_past_end hpos hlt rfl hunfit hgrants (Nat.le_of_not_lt hwrap) (fun _ _ ↦ True)
      ((returns_iff_of_eq hret _).mpr trivial)
  rwa [returns_iff_of_eq hret] at hmalloc

end Variant.Holds

/-! ### The first heap -/

/-- A heap without blocks. -/
def Variant.emptyShape (v : Variant) (base : Nat) : Shape := ⟨[], fun _ ↦ [], v.firstBlock base⟩

/-- The roots point to themselves, and no word is known. -/
theorem view_roots {v : Variant} {h : Heap} (ha : h.Arena) (hclass : h.sizeClassP = h.memStartBrk)
    (hroots : ∀ c < v.sizeClassNum, RootEmpty h.bytes h.memStartBrk c) :
    View v h (fun _ _ ↦ False) fun _ ↦ [] where
  arena := ha
  sizeClassP_eq := hclass
  linked := {
    ring := fun c hc ↦ ⟨(hroots c hc).1, (hroots c hc).2, trivial⟩
    nodup := fun _ _ ↦ List.nodup_singleton _
    disjoint := fun c d _ _ hne x hxc hxd ↦ by
      rw [List.mem_singleton] at hxc hxd
      unfold classRoot at hxc hxd
      omega }
  known := fun _ _ hw ↦ absurd hw id
  place := fun y hy ↦ by
    obtain ⟨c, hc, hmem⟩ := hy
    obtain rfl := List.mem_singleton.mp hmem
    have hnum := v.sizeClassNum_bounds
    have haligned := ha.aligned
    have hsize := ha.size
    have hc' : c < v.sizeClassNum := hc
    unfold maxHeap at hsize
    exact ⟨by unfold classRoot; omega, by unfold classRoot; omega, by unfold classRoot; omega⟩
  apart := fun _ _ _ _ hw ↦ absurd hw id

/-- The statements of `mm_init` that write the prologue and the epilogue. -/
theorem View.frame {v : Variant} {h : Heap} (hv : View v h (fun _ _ ↦ False) fun _ ↦ [])
    (hprologue : h.prologue = (v.prologue h.memStartBrk).addr)
    (hbrk : h.memBrk = v.firstBlock h.memStartBrk) {Q : Unit → Heap → Prop}
    (hQ : ∀ m, v.Holds (h.store m) (v.emptyShape h.memStartBrk) → Q () (h.store m)) :
    Returns (putWordAt (h.memStartBrk + 8 * v.sizeClassNum + 4) 9) h fun _ s ↦
      Returns (putWordAt (h.memStartBrk + 8 * v.sizeClassNum + 8) 9) s fun _ s ↦
        Returns (putWordAt (h.memStartBrk + 8 * v.sizeClassNum + 12) 1) s Q := by
  have hnum := v.sizeClassNum_bounds
  have haligned := hv.arena.aligned
  have hnonnull := hv.arena.nonnull
  have hsize := hv.arena.size
  have hbelow := hv.arena.below
  unfold maxHeap at hsize
  have hclear : ∀ y, v.Node h.memStartBrk (fun _ ↦ []) y →
      y + 8 ≤ h.memStartBrk + 8 * v.sizeClassNum := by
    rintro y ⟨c, hc, hmem⟩
    have hc' : c < v.sizeClassNum := hc
    obtain rfl := List.mem_singleton.mp hmem
    unfold classRoot
    omega
  have harena : ∀ n, n ≤ 12 → h.InArena (h.memStartBrk + 8 * v.sizeClassNum + n) := fun n hn ↦
    ⟨by omega, by omega⟩
  generalize hbase : h.memStartBrk + 8 * v.sizeClassNum = base at *
  change Returns (putWordAt (base + 4) 9) (h.store h.bytes) _
  rw [returns_putWordAt_store (harena 4 (by omega)), returns_putWordAt_store (harena 8 (by omega)),
    returns_putWordAt_store (harena 12 (by omega))]
  have hm₁ : View v (h.store (Library.putWord h.bytes (base + 4) 9))
      (fun q u ↦ q = base + 4 ∧ u = 9) fun _ ↦ [] :=
    hv.putWord (by omega) (harena 4 (by omega)) (by omega)
      (fun y hy ↦ by have hy' := hclear y hy; omega) fun q u hq ↦ Or.inl hq
  have hm₂ : View v (h.store (Library.putWord (Library.putWord h.bytes (base + 4) 9) (base + 8) 9))
      (fun q u ↦ (q = base + 4 ∨ q = base + 8) ∧ u = 9) fun _ ↦ [] :=
    hm₁.putWord (by omega) (harena 8 (by omega)) (by omega)
      (fun y hy ↦ by have hy' := hclear y hy; omega) fun q u hq ↦ by omega
  have hm₃ : View v (h.store (Library.putWord (Library.putWord (Library.putWord h.bytes (base + 4) 9)
      (base + 8) 9) (base + 12) 1)) (v.tags h.memStartBrk [] (v.firstBlock h.memStartBrk))
      fun _ ↦ [] := by
    refine hm₂.putWord (by omega) (harena 12 (by omega)) (by omega)
      (fun y hy ↦ by have hy' := hclear y hy; omega) fun q u hq ↦ ?_
    unfold Variant.firstBlock at hq
    rcases hq with ⟨d, hd, hword, rfl⟩ | ⟨rfl, rfl⟩
    · obtain rfl := List.mem_singleton.mp hd
      have hnine : (v.prologue h.memStartBrk).word = 9 := rfl
      unfold Variant.prologue at hword
      dsimp only at hword
      omega
    · exact Or.inl ⟨by omega, rfl⟩
  have hlayout : v.Layout h.memStartBrk [] (v.firstBlock h.memStartBrk) :=
    ⟨haligned, hnonnull, by unfold Variant.firstBlock; omega, rfl, by simp, by simp⟩
  refine hQ _ ⟨hm₃, hlayout, fun c _ x ↦ by simp [Variant.emptyShape], hprologue, hbrk, ?_⟩
  change v.firstBlock h.memStartBrk ≤ h.memMaxAddr
  unfold Variant.firstBlock
  omega

/-- `mm_init` on an empty heap leaves one free block. -/
theorem Variant.returns_mmInit (v : Variant) {h : Heap} (ha : h.Arena)
    (hbrk : h.memBrk = h.memStartBrk) (hgranted : h.sbrkRefused = false)
    (ranges : Option (List Range)) :
    Returns (v.mmInit ranges) h fun r h' ↦ r = 0 ∧ h'.memStartBrk = h.memStartBrk ∧
      ∃ σ, v.Holds h' σ ∧ Coalesced σ.blocks ∧ ∀ b ∈ σ.blocks, b.alloc = false := by
  have hnum := v.sizeClassNum_bounds
  have hsize := ha.size
  have hbelow := ha.below
  have hnonnull := ha.nonnull
  unfold maxHeap at hsize
  have hincr : (v.sizeClassNum + 2) * dsize = 8 * v.sizeClassNum + 16 := by
    unfold dsize
    omega
  have hend : addWord h.memBrk (8 * v.sizeClassNum + 16) = v.firstBlock h.memStartBrk := by
    rw [hbrk, addWord_of_lt (by omega)]
    unfold Variant.firstBlock
    omega
  have hgrow : ¬ (h.sbrkRefused = true ∨ 2 ^ 31 ≤ 8 * v.sizeClassNum + 16 ∨
      h.memMaxAddr < addWord h.memBrk (8 * v.sizeClassNum + 16)) := by
    rw [hend, hgranted]
    unfold Variant.firstBlock
    rintro (hrefused | hlarge | hfull)
    · cases hrefused
    · omega
    · omega
  simp only [Variant.mmInit, returns_bind, hincr]
  rw [returns_memSbrk_grow hgrow, returns_modify, hend, returns_ite,
    if_neg (by rw [hbrk]; unfold sbrkFailed; omega), returns_bind, hbrk]
  have harena : Heap.Arena { h with
      memBrk := v.firstBlock h.memStartBrk, sizeClassP := h.memStartBrk } :=
    ⟨ha.aligned, ha.nonnull, ha.size, ha.below⟩
  refine (returns_initRoots harena rfl (hnum.2.trans (by decide))).mono fun _ h' hroots ↦ ?_
  obtain ⟨m, rfl, hroots⟩ := hroots
  simp only [returns_bind, returns_modify, returns_get]
  have hprologue : addWord h.memStartBrk ((v.sizeClassNum + 1) * dsize) =
      h.memStartBrk + 8 * v.sizeClassNum + 8 := by
    rw [addWord_of_lt (by unfold dsize; omega)]
    unfold dsize
    omega
  let h₂ : Heap := ⟨m, h.memStartBrk, v.firstBlock h.memStartBrk, h.memMaxAddr, h.sbrkRefused,
    h.memStartBrk, addWord h.memStartBrk ((v.sizeClassNum + 1) * dsize), h.glRanges⟩
  have hheader : subWord (h.memStartBrk + 8 * v.sizeClassNum + 8) wsize =
      h.memStartBrk + 8 * v.sizeClassNum + 4 := by
    rw [subWord_of_le (by unfold wsize; omega) (by omega)]
    rfl
  have hepilogue : addWord (h.memStartBrk + 8 * v.sizeClassNum + 8) wsize =
      h.memStartBrk + 8 * v.sizeClassNum + 12 := addWord_of_lt (by unfold wsize; omega)
  have hview : View v h₂ (fun _ _ ↦ False) fun _ ↦ [] :=
    view_roots ⟨ha.aligned, ha.nonnull, ha.size, ha.below⟩ rfl hroots
  change Returns (putWordAt
    (subWord (addWord h.memStartBrk ((v.sizeClassNum + 1) * dsize)) wsize) 9) h₂ fun _ t ↦
      Returns (putWordAt (addWord h.memStartBrk ((v.sizeClassNum + 1) * dsize)) 9) t fun _ t ↦
        Returns (putWordAt
          (addWord (addWord h.memStartBrk ((v.sizeClassNum + 1) * dsize)) wsize) 1) t fun _ t ↦ _
  rw [hprologue, hheader, hepilogue]
  refine hview.frame hprologue rfl fun m₁ hm₁ ↦ ?_
  have hroom : v.firstBlock h.memStartBrk + chunkSize < h.memMaxAddr := by
    unfold Variant.firstBlock chunkSize
    omega
  have hgrants : ¬ (h.sbrkRefused = true ∨ 2 ^ 31 ≤ chunkSize ∨
      h.memMaxAddr < addWord (v.firstBlock h.memStartBrk) chunkSize) := by
    rw [hgranted, addWord_of_lt (by omega)]
    unfold chunkSize at hroom ⊢
    rintro (hrefused | hlarge | hfull)
    · cases hrefused
    · omega
    · omega
  refine hm₁.extendHeap ⟨by decide, by decide⟩ hgrants (hroom.trans hbelow) fun m₂ L hm₂ ↦ ?_
  have hpos := hm₂.addr_pos (b := ((v.emptyShape h₂.memStartBrk).extend chunkSize).block)
    (by simp [Focus.shape])
  rw [returns_ite, if_neg (by unfold null; exact Nat.ne_of_gt hpos), returns_bind, returns_modify,
    returns_pure]
  refine ⟨rfl, rfl, _, hm₂.congr rfl rfl rfl rfl rfl rfl,
    coalesced_coalesce List.IsChain.nil List.IsChain.nil, fun b hb ↦ ?_⟩
  cases halloc : b.alloc with
  | false => rfl
  | true => exact absurd ((Shape.mem_extend halloc).mp hb) List.not_mem_nil

end SystemProgramming.MemoryLab.Plain
