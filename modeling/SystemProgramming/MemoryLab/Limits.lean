import SystemProgramming.MemoryLab.Guarantees

/-!
# Requests at the limits

When a request for memory reaches `mem_sbrk`, when it is refused, and when its size is too large for
the arithmetic. `HasFit` says that a list that `find_fit` searches has a block that is large enough;
in a settled shape the only free blocks it overlooks are bulk blocks on lists below the class of the
request (`Shape.Settled.overlooked`).
-/

set_option autoImplicit false
set_option relaxedAutoImplicit false

namespace SystemProgramming.MemoryLab

open Library

/-! ### What the search finds -/

/-- A list from the class of the size on has a block of at least the size. -/
def HasFit (blocks : List Block) (lists : Filing) (asize : Nat) : Prop :=
  ∃ c < sizeClassNum, getSizeClass asize ≤ c ∧ ∃ b ∈ blocks, b.addr ∈ lists c ∧ asize ≤ b.size

/-- Every free block of at least the size has the bulk tag and is on a list below the class of the
size. -/
def OnlyOverlooked (blocks : List Block) (lists : Filing) (asize : Nat) : Prop :=
  ∀ b ∈ blocks, b.alloc = false → asize ≤ b.size →
    b.bulk = true ∧ ∃ c < getSizeClass asize, b.addr ∈ lists c

namespace Shape

variable {σ : Shape} {base asize : Nat}

/-- The search finds nothing just if no list that it goes through has a block of the size. -/
theorem search_eq_none {n : Nat} (hn : n ≤ sizeClassNum) : σ.search asize n = none ↔
    ∀ c < sizeClassNum, sizeClassNum - n ≤ c → ∀ x ∈ σ.lists c, sizeAt σ.blocks x < asize := by
  induction n with
  | zero =>
    refine iff_of_true rfl fun c hc hle ↦ ?_
    omega
  | succ n ih =>
    rw [search]
    cases hfind : (σ.lists (sizeClassNum - (n + 1))).find? fun x ↦ asize ≤ sizeAt σ.blocks x with
    | none =>
      rw [List.find?_eq_none] at hfind
      dsimp only
      rw [ih (by omega)]
      constructor
      · intro hrest c hc hle x hx
        obtain heq | hlt := Nat.eq_or_lt_of_le hle
        · subst heq
          simpa using hfind x hx
        · exact hrest c hc (by omega) x hx
      · intro hall c hc hle
        exact hall c hc (by omega)
    | some y =>
      refine iff_of_false (by simp) ?_
      intro hall
      have hsmall := hall _ (by omega) le_rfl y (List.mem_of_find?_eq_some hfind)
      have hlarge := List.find?_some hfind
      simp only [decide_eq_true_eq] at hlarge
      omega

theorem fit_eq_none (h : σ.Proper base) :
    σ.fit asize = none ↔ ¬ HasFit σ.blocks σ.lists asize := by
  have hclass := getSizeClass_lt asize
  rw [fit, search_eq_none (Nat.sub_le _ _), Nat.sub_sub_self (Nat.le_of_lt hclass)]
  constructor
  · rintro hall ⟨c, hc, hle, b, hb, hmem, hsize⟩
    have hsmall := hall c hc hle b.addr hmem
    rw [sizeAt_eq h hb] at hsmall
    omega
  · intro hnone c hc hle x hx
    obtain ⟨b, hb, rfl, -⟩ := (h.filed x).mp ⟨c, hc, hx⟩
    rw [sizeAt_eq h hb]
    by_contra hlarge
    exact hnone ⟨c, hc, hle, b, hb, hx, by omega⟩

/-- A free block that the search overlooks is a bulk block on a list below the class. -/
theorem Settled.overlooked (h : σ.Settled base) (hpos : 0 < asize) :
    ¬ HasFit σ.blocks σ.lists asize ↔ OnlyOverlooked σ.blocks σ.lists asize := by
  constructor
  · intro hnone b hb hfree hsize
    obtain ⟨c, hc, hmem⟩ := (h.proper.filed b.addr).mpr ⟨b, hb, rfl, hfree⟩
    have hlow : c < getSizeClass asize := by
      by_contra hle
      exact hnone ⟨c, hc, by omega, b, hb, hmem, hsize⟩
    refine ⟨?_, c, hlow, hmem⟩
    by_contra hplain
    have hsuited := h.suited b hb hfree c hc hmem
    rw [Block.SuitedTo, if_neg hplain] at hsuited
    have hmono := getSizeClass_mono hpos hsize
    omega
  · rintro honly ⟨c, hc, hle, b, hb, hmem, hsize⟩
    obtain ⟨d, hd, haddr, hfree⟩ := (h.proper.filed b.addr).mp ⟨c, hc, hmem⟩
    obtain rfl := eq_of_addr_eq h.proper.tiles.sorted h.proper.sized hd hb haddr
    obtain ⟨-, c', hc', hmem'⟩ := honly d hb hfree hsize
    have hclass := getSizeClass_lt asize
    have heq := h.proper.simple.disjoint c hc c' (by omega) _ hmem hmem'
    omega

/-- A request for memory has no result just if nothing is found, `mem_sbrk` does not refuse, and the
break would be carried past the last address. -/
theorem malloc_eq_none_iff (h : σ.Proper base) (limit : Nat) (refused : Bool) {size : Nat} (hpos : 0 < size)
    (hreq : align (addWord size dsize) = asize) : σ.malloc limit refused size = none ↔
      ¬ HasFit σ.blocks σ.lists asize ∧
      ¬ (refused = true ∨ 2 ^ 31 ≤ sbrkAmount asize ∨ limit < addWord σ.brk (sbrkAmount asize)) ∧
      2 ^ 32 ≤ σ.brk + sbrkAmount asize := by
  rw [malloc_eq_none h hpos hreq, fit_eq_none h]

/-- The null pointer is returned just if nothing is found and `mem_sbrk` refuses. -/
theorem malloc_null_iff (h : σ.Settled base) {limit size : Nat} {refused : Bool} (hpos : 0 < size)
    (hlt : size < 2 ^ 31) (hreq : align (addWord size dsize) = asize) :
    (∃ σ', σ.malloc limit refused size = some (null, σ')) ↔ ¬ HasFit σ.blocks σ.lists asize ∧
      (refused = true ∨ 2 ^ 31 ≤ sbrkAmount asize ∨
        limit < addWord σ.brk (sbrkAmount asize)) := by
  have hasize := (align_request hpos hlt).1
  have hnonnull : ∀ {φ : Focus} {cls brk : Nat}, Ready φ base asize cls brk →
      φ.block.addr ≠ null := by
    intro φ cls brk hready
    have hlow := (hready.proper.tiles.bounds φ.block (by simp [Focus.shape])).1
    unfold firstBlock at hlow
    unfold null
    omega
  rw [hreq] at hasize
  rw [← fit_eq_none h.proper, malloc, hreq, if_neg (by omega)]
  cases hfit : σ.fit asize with
  | none =>
    dsimp only
    split_ifs with hfail hwrap hsmall
    · exact iff_of_true ⟨σ, rfl⟩ ⟨rfl, hfail⟩
    · exact iff_of_false (by simp) fun hnull ↦ hfail hnull.2
    · have hne := hnonnull (ready_extendBulk h hasize)
      exact iff_of_false (by simp [hne]) fun hnull ↦ hfail hnull.2
    · have hne := hnonnull (ready_extend h hasize)
      exact iff_of_false (by simp [hne]) fun hnull ↦ hfail hnull.2
  | some found =>
    obtain ⟨φ, hfocus, -, haddr, hready⟩ := ready_fit h hfit
    have hne := hnonnull hready
    rw [haddr] at hne
    simp [hfocus, hne]

end Shape

/-! ### Reaching `mem_sbrk` -/

/-- `mm_malloc` calls `mem_sbrk`: `find_fit` has returned the null pointer. -/
def CallsSbrk (size : Nat) (h : Heap) : Prop :=
  size ≠ 0 ∧ ∃ found h', findFit (align (addWord size dsize)) h = some (found, h') ∧
    found.1 = null

/-- `mem_sbrk` refuses to move the break by this much. -/
def SbrkRefuses (h : Heap) (refused : Bool) (incr : Nat) : Prop :=
  refused = true ∨ 2 ^ 31 ≤ incr ∨ h.memMaxAddr < addWord h.memBrk incr

/-- The tags of the last block, when no block is free. -/
theorem View.lastTags_alloc {h : Heap} {limit brk : Nat} {epi : Bool} {blocks : List Block}
    {L : Filing} {K : Nat → Prop} {f : ByteMemory} (hv : View h limit epi blocks L K f)
    (htiles : Tiles (firstBlock h.memStartBrk) blocks brk) (halloc : ∀ b ∈ blocks, b.alloc = true)
    (Q : Nat → Nat → Heap → Prop) :
    (Returns (prevBlkp brk) h fun p s ↦ Returns (getAlloc (hdrp p)) s fun a s ↦
      Returns (getIsbulk (hdrp p)) s (Q a)) ↔
      Q 1 (blocks.getLast?.elim 0 fun q ↦ if q.bulk then 2 else 0) h := by
  rw [hv.lastTags htiles]
  cases hq : blocks.getLast? with
  | none => rfl
  | some q => rw [Option.elim_some, Option.elim_some, halloc q (List.mem_of_getLast? hq), if_pos rfl]

namespace HeapInvariant

variable {h : Heap} {σ : Shape}

theorem callsSbrk_iff (hi : HeapInvariant h σ) {size : Nat} (hpos : 0 < size) :
    CallsSbrk size h ↔ ¬ HasFit σ.blocks σ.lists (align (addWord size dsize)) := by
  have hne : size ≠ 0 := by omega
  rw [← Shape.fit_eq_none hi.proper, CallsSbrk, hi.findFit_eq]
  constructor
  · rintro ⟨-, found, h', heq, hnull⟩
    obtain ⟨rfl, rfl⟩ := Prod.mk.inj (Option.some.inj heq)
    cases hfit : σ.fit (align (addWord size dsize)) with
    | none => rfl
    | some found =>
      rw [hfit] at hnull
      exact absurd hnull (hi.fit_ne_null hfit)
  · intro hfit
    exact ⟨hne, _, h, rfl, by rw [hfit]; rfl⟩

/-- Nothing is found, and the request is refused: the heap is as it was. -/
theorem mmMalloc_refused (hi : HeapInvariant h σ) {size asize : Nat} (hpos : 0 < size)
    (hreq : align (addWord size dsize) = asize) (hfit : ¬ HasFit σ.blocks σ.lists asize)
    (hrefuses : SbrkRefuses h h.sbrkRefused (sbrkAmount asize)) :
    MemoryLab.mmMalloc size h = some (null, h) := by
  have hfail := hrefuses
  rw [SbrkRefuses, hi.brk_eq] at hfail
  refine eq_of_returns_iff fun Q ↦ ?_
  rw [hi.returns_mmMalloc_unfit hpos hreq ((Shape.fit_eq_none hi.proper).mpr hfit), returns_ite]
  have hnull : Returns (if null = null then pure null else do
      MemoryLab.place null asize 0
      pure null) h Q ↔ Q null h := by
    rw [if_pos rfl, returns_pure]
  constructor
  · intro hret
    have hextend := hi.extend_refused hfail (Q := fun bp t ↦ bp = null ∧ t = h) ⟨rfl, rfl⟩
    split_ifs at hret hextend
    · obtain ⟨_, _, -, hQ, rfl, rfl⟩ := hret.and hextend
      exact hnull.mp hQ
    · obtain ⟨_, _, -, hQ, rfl, rfl⟩ := hret.and hextend
      exact hnull.mp hQ
  · intro hQ
    exact hi.extend_refused hfail (hnull.mpr hQ)

/-- A block that is found is returned, whatever becomes of it. -/
theorem mmMalloc_fit (hi : HeapInvariant h σ) {size asize p : Nat} {h' : Heap} (hpos : 0 < size)
    (hreq : align (addWord size dsize) = asize) (hfit : HasFit σ.blocks σ.lists asize)
    (hm : MemoryLab.mmMalloc size h = some (p, h')) : p ≠ null := by
  have hsome : σ.fit asize ≠ none := fun hnone ↦ (Shape.fit_eq_none hi.proper).mp hnone hfit
  obtain ⟨⟨x, cls⟩, hx⟩ := Option.ne_none_iff_exists'.mp hsome
  have hret : Returns (MemoryLab.mmMalloc size) h fun q _ ↦ q = p :=
    (returns_iff_of_eq hm _).mpr rfl
  obtain ⟨_, _, -, hp⟩ := (hi.returns_mmMalloc_fit hpos hreq hx _).mp hret
  exact hp ▸ hi.fit_ne_null hx

/-- With no free block at all, a small request that is granted gets the block behind the old break,
whatever becomes of it. -/
theorem mmMalloc_granted (hi : HeapInvariant h σ) {size asize p : Nat} {h' : Heap} (hpos : 0 < size)
    (hreq : align (addWord size dsize) = asize) (hsmall : asize ≤ 16)
    (hfit : ¬ HasFit σ.blocks σ.lists asize)
    (hgrants : ¬ SbrkRefuses h h.sbrkRefused (sbrkAmount asize))
    (hm : MemoryLab.mmMalloc size h = some (p, h')) : p ≠ null := by
  have hv := hi.view (K := fun _ ↦ False) fun _ ha ↦ absurd ha id
  have hfirst := hi.geometry.first_le
  have hmax := hi.brk_le
  have hbelow := hi.arena.below
  have hextent := hi.arena.size
  unfold firstBlock at hfirst
  unfold maxHeap at hextent
  have hchunk : asize ≤ chunkSize := hsmall.trans (by decide)
  have hclass : getSizeClass asize = 0 := if_pos hsmall
  have halloc : ∀ b ∈ σ.blocks, b.alloc = true := by
    intro b hb
    by_contra hfree
    rw [Bool.not_eq_true] at hfree
    obtain ⟨c, hc, hmem⟩ := (hi.proper.filed b.addr).mpr ⟨b, hb, rfl, hfree⟩
    have hsized := (hi.proper.sized b hb).2
    exact hfit ⟨c, hc, by omega, b, hb, hmem, by omega⟩
  have hret : Returns (MemoryLab.mmMalloc size) h fun q _ ↦ q = p :=
    (returns_iff_of_eq hm _).mpr rfl
  rw [sbrkAmount, if_pos hchunk] at hgrants
  rw [hi.returns_mmMalloc_unfit hpos hreq ((Shape.fit_eq_none hi.proper).mpr hfit), if_pos hchunk]
    at hret
  simp only [extendHeapBulk, bulksize_eq hchunk, returns_bind] at hret
  have hbrk : σ.brk ≠ sbrkFailed := by
    have hmod := hi.geometry.limit_mod
    unfold sbrkFailed
    omega
  have hnonnull : σ.brk ≠ null := by
    unfold null
    omega
  rw [returns_memSbrk_grow hgrants, hi.brk_eq, returns_ite, if_neg hbrk] at hret
  have hgrown := hv.grow (Nat.le_refl _) hi.geometry.limit_mod hmax (addWord σ.brk (8 * asize))
  simp only [returns_bind] at hret
  rw [hgrown.lastTags_alloc hi.proper.tiles halloc] at hret
  simp only [one_ne_zero, false_and, if_false, returns_pure] at hret
  obtain ⟨_, _, -, _, _, -, _, _, -, _, _, -, hret⟩ := hret
  rw [if_neg hnonnull, returns_bind] at hret
  obtain ⟨_, _, -, hp⟩ := hret
  rw [returns_pure] at hp
  exact hp ▸ hnonnull

end HeapInvariant

/-! ### Every size -/

/-- The first of the sizes for which the rounding wraps around. -/
def wrapSize : Nat := 2 ^ 32 - 15

/-- The block of `p` is allocated and has `size` bytes before its footer, in a well-formed heap. -/
def Granted (h : Heap) (p size : Nat) : Prop :=
  ∃ blocks lists, WellFormed h blocks lists ∧
    ∃ b ∈ blocks, b.addr = p ∧ b.alloc = true ∧ size + 8 ≤ b.size

/-- Rounded up, the size wraps around to eight or zero. -/
theorem align_wrapped {size : Nat} (hwrap : wrapSize ≤ size) (hlt : size < 2 ^ 32) :
    align (addWord size dsize) ≤ 8 := by
  unfold wrapSize at hwrap
  have hsum : addWord (addWord size dsize) 7 ≤ 14 := by
    unfold addWord dsize
    omega
  rw [align, sizeMask, and_mask (by omega) (by omega)]
  omega

theorem align_large {size : Nat} (hlarge : 2 ^ 31 ≤ size) (hwrap : size < wrapSize) :
    2 ^ 31 ≤ align (addWord size dsize) := by
  unfold wrapSize at hwrap
  have hadd : addWord size dsize = size + 8 := addWord_of_lt (by unfold dsize; omega)
  rw [hadd, align_eq (by omega)]
  omega

theorem getSize_le {h : Heap} {p n : Nat} (hsize : getSize p h = some (n, h)) :
    n ≤ sizeMask := by
  have hret : Returns (getSize p) h fun m _ ↦ m = n := (returns_iff_of_eq hsize _).mpr rfl
  rw [getSize, returns_bind] at hret
  obtain ⟨w, _, -, hw⟩ := hret
  rw [returns_pure] at hw
  exact hw ▸ Nat.and_le_right

/-- A block of the chain has its size from a header. -/
theorem Walk.size_le {h : Heap} {bp : Nat} {blocks : List Block} (hwalk : Walk h bp blocks) :
    ∀ b ∈ blocks, b.size ≤ sizeMask := by
  induction blocks generalizing bp with
  | nil => simp
  | cons c blocks ih =>
    obtain ⟨-, -, hsize, -, -, next, -, hrest⟩ := hwalk
    intro b hb
    obtain rfl | hb := List.mem_cons.mp hb
    · exact getSize_le hsize
    · exact ih hrest b hb

/-- No block is large enough for a size that wraps around. -/
theorem not_granted {h : Heap} {p size : Nat} (hwrap : wrapSize ≤ size) : ¬ Granted h p size := by
  rintro ⟨blocks, lists, hformed, b, hb, -, -, hsize⟩
  have hle := hformed.walk.2.size_le b hb
  unfold wrapSize at hwrap
  unfold sizeMask at hle
  omega

namespace Session.Consistent

variable {s : Session} {σ : Shape} {size asize : Nat} {refused : Bool}

theorem invariant_refused (hc : s.Consistent σ) (refused : Bool) :
    HeapInvariant { s.heap with sbrkRefused := refused } σ :=
  hc.heap.congr rfl rfl rfl rfl rfl rfl

theorem serve_refused (hc : s.Consistent σ) (hpos : 0 < size)
    (hreq : align (addWord size dsize) = asize) (hfit : ¬ HasFit σ.blocks σ.lists asize)
    (hrefuses : SbrkRefuses s.heap refused (sbrkAmount asize)) :
    (Request.malloc size refused).serve s.heap =
      some (null, { s.heap with sbrkRefused := refused }) :=
  (hc.invariant_refused refused).mmMalloc_refused hpos hreq hfit hrefuses

/-- What a request on shapes returns is null or large enough. -/
theorem serve_granted (hc : s.Consistent σ) (hpos : 0 < size) (hlt : size < 2 ^ 31)
    (hm : σ.malloc s.heap.memMaxAddr refused size ≠ none) :
    ∃ p h', (Request.malloc size refused).serve s.heap = some (p, h') ∧
      (p = null ∨ Granted h' p size) := by
  obtain ⟨⟨q, σ'⟩, hm⟩ := Option.ne_none_iff_exists'.mp hm
  obtain ⟨p, h', hserve, rfl, hserving⟩ := hc.serve_malloc hpos hlt hm
  refine ⟨p, h', hserve, ?_⟩
  by_cases hnull : p = null
  · exact Or.inl hnull
  · right
    have haccounts := hserving.consistent.accounts
    dsimp only at haccounts
    rw [Request.account, if_neg hnull] at haccounts
    obtain ⟨b, hb, halloc, haddr, hroom⟩ := haccounts.owner p size List.mem_cons_self
    exact ⟨_, _, hserving.consistent.heap.wellFormed, b, hb, haddr, halloc, hroom⟩

theorem serve_null_iff (hc : s.Consistent σ) (refused : Bool) (hpos : 0 < size) (hlt : size < 2 ^ 31)
    (hreq : align (addWord size dsize) = asize) :
    (∃ h', (Request.malloc size refused).serve s.heap = some (null, h')) ↔
      ¬ HasFit σ.blocks σ.lists asize ∧ SbrkRefuses s.heap refused (sbrkAmount asize) := by
  constructor
  · rintro ⟨h', hserve⟩
    obtain ⟨σ', hm, -⟩ := hc.of_serve (r := .malloc size refused) ⟨hpos, hlt⟩ trivial hserve
    rw [SbrkRefuses, hc.heap.brk_eq]
    exact (Shape.malloc_null_iff hc.settled hpos hlt hreq).mp ⟨σ', hm⟩
  · rintro ⟨hfit, hrefuses⟩
    exact ⟨_, hc.serve_refused hpos hreq hfit hrefuses⟩

/-- What is found is returned, and the break stays. -/
theorem serve_fit (hc : s.Consistent σ) (hpos : 0 < size) (hlt : size < 2 ^ 31)
    (hreq : align (addWord size dsize) = asize) (hfit : HasFit σ.blocks σ.lists asize)
    (refused : Bool) :
    ∃ p h', (Request.malloc size refused).serve s.heap = some (p, h') ∧ p ≠ null ∧
      h'.memBrk = s.heap.memBrk ∧
      ∃ b ∈ σ.blocks, b.addr = p ∧ b.alloc = false ∧ asize ≤ b.size := by
  have hsome : σ.fit asize ≠ none := fun hnone ↦
    (Shape.fit_eq_none hc.settled.proper).mp hnone hfit
  obtain ⟨⟨x, cls⟩, hx⟩ := Option.ne_none_iff_exists'.mp hsome
  obtain ⟨φ, hfocus, hshape, haddr, hfree, hsize, -⟩ := Shape.fit_eq_some hc.settled.proper hx
  have hm : σ.malloc s.heap.memMaxAddr refused size =
      some (x, φ.place asize cls σ.brk) := by
    rw [Shape.malloc, hreq, if_neg (by omega), hx]
    simp [hfocus]
  obtain ⟨p, h', hserve, rfl, hserving⟩ := hc.serve_malloc hpos hlt hm
  have hmem : φ.block ∈ σ.blocks := by
    rw [← hshape]
    simp [Focus.shape]
  refine ⟨p, h', hserve, hc.heap.fit_ne_null hx, ?_, φ.block, hmem, haddr, hfree, hsize⟩
  have hbrk := hserving.consistent.heap.brk_eq
  dsimp only at hbrk
  rw [hbrk, Focus.place_brk, hc.heap.brk_eq]

/-- A size that wraps around gets the null pointer, or a block that is too small for it. -/
theorem serve_wrapped (hc : s.Consistent σ) (hwrap : wrapSize ≤ size) (hlt : size < 2 ^ 32)
    (hreq : align (addWord size dsize) = asize) :
    (∃ p h', (Request.malloc size refused).serve s.heap = some (p, h') ∧
      (p = null ∨ Granted h' p size)) ↔
      ¬ HasFit σ.blocks σ.lists asize ∧ SbrkRefuses s.heap refused (sbrkAmount asize) := by
  have hsmall := align_wrapped hwrap hlt
  have hpos : 0 < size := Nat.lt_of_lt_of_le (by decide) hwrap
  rw [hreq] at hsmall
  constructor
  · rintro ⟨p, h', hserve, hp⟩
    have hnull : p = null := hp.resolve_right (not_granted hwrap)
    have hfit : ¬ HasFit σ.blocks σ.lists asize := fun hfit ↦
      (hc.invariant_refused refused).mmMalloc_fit hpos hreq hfit hserve hnull
    refine ⟨hfit, ?_⟩
    by_contra hgrants
    exact (hc.invariant_refused refused).mmMalloc_granted hpos hreq (by omega) hfit hgrants hserve
      hnull
  · rintro ⟨hfit, hrefuses⟩
    exact ⟨null, _, hc.serve_refused hpos hreq hfit hrefuses, Or.inl rfl⟩

/-- No block is large enough for half of the address space. -/
theorem not_hasFit_large (hc : s.Consistent σ) (hlarge : 2 ^ 31 ≤ asize) :
    ¬ HasFit σ.blocks σ.lists asize := by
  rintro ⟨c, -, -, b, hb, -, hsize⟩
  have hblock := hc.heap.geometry.block b hb
  have hmax := hc.heap.brk_le
  have hextent := hc.heap.arena.size
  unfold firstBlock at hblock
  unfold maxHeap at hextent
  omega

end Session.Consistent

/-! ### The results -/

variable {base : Nat} {events : List Event} {s : Session}

/-- `mm_malloc` calls `mem_sbrk` just if every free block that is large enough is a bulk block on a
list below the class of the request. Otherwise it returns a block that was free and large enough,
whether or not `mem_sbrk` would refuse, and the break stays. -/
theorem session_grows_when_unfit (h : Session.Reached base events s) {size : Nat} (hpos : 0 < size)
    (hlt : size < 2 ^ 31) :
    ∃ blocks lists, WellFormed s.heap blocks lists ∧
      (CallsSbrk size s.heap ↔ OnlyOverlooked blocks lists (align (addWord size dsize))) ∧
      (¬ CallsSbrk size s.heap → ∀ refused, ∃ p h',
        (Request.malloc size refused).serve s.heap = some (p, h') ∧ p ≠ null ∧
          h'.memBrk = s.heap.memBrk ∧ ∃ b ∈ blocks, b.addr = p ∧ b.alloc = false ∧
            align (addWord size dsize) ≤ b.size) := by
  obtain ⟨-, σ, hc⟩ := h.consistent
  have hasize := (align_request hpos hlt).1.2
  have hcalls := hc.heap.callsSbrk_iff hpos
  refine ⟨σ.blocks, σ.lists, hc.heap.wellFormed, ?_, ?_⟩
  · rw [hcalls]
    exact hc.settled.overlooked (by omega)
  · intro hfound refused
    rw [hcalls, not_not] at hfound
    exact hc.serve_fit hpos hlt rfl hfound refused

theorem session_grows_when_unfit_short : ∃ s,
    Session.Reached 4096 (shortTrace.map fun x ↦ .request x.1 x.2) s ∧
      ∃ blocks lists, WellFormed s.heap blocks lists ∧
        (CallsSbrk 100 s.heap ↔ OnlyOverlooked blocks lists (align (addWord 100 dsize))) := by
  obtain ⟨s, h⟩ := exists_reached_shortTrace
  obtain ⟨blocks, lists, hformed, hcalls, -⟩ :=
    session_grows_when_unfit h (show 0 < 100 by decide) (by decide)
  exact ⟨s, h, blocks, lists, hformed, hcalls⟩

/-- For every size, `mm_malloc` returns null or enough memory, except where it is undefined because
the break would be carried past the last address, and where the rounding wraps around and memory
is there. -/
theorem session_malloc_enough_iff (h : Session.Reached base events s) :
    ∃ blocks lists, WellFormed s.heap blocks lists ∧ ∀ size refused, size < 2 ^ 32 →
      ((∃ p h', (Request.malloc size refused).serve s.heap = some (p, h') ∧
        (p = null ∨ Granted h' p size)) ↔
      size = 0 ∨
      (HasFit blocks lists (align (addWord size dsize)) ∧ size < wrapSize) ∨
      (¬ HasFit blocks lists (align (addWord size dsize)) ∧
        (SbrkRefuses s.heap refused (sbrkAmount (align (addWord size dsize))) ∨
          (s.heap.memBrk + sbrkAmount (align (addWord size dsize)) < 2 ^ 32 ∧
            size < wrapSize)))) := by
  obtain ⟨-, σ, hc⟩ := h.consistent
  refine ⟨σ.blocks, σ.lists, hc.heap.wellFormed, fun size refused hlt ↦ ?_⟩
  obtain rfl | hpos := Nat.eq_zero_or_pos size
  · exact iff_of_true ⟨null, _, rfl, Or.inl rfl⟩ (Or.inl rfl)
  generalize hreq : align (addWord size dsize) = asize
  by_cases hwrap : wrapSize ≤ size
  · rw [hc.serve_wrapped hwrap hlt hreq]
    have hnot : ¬ size < wrapSize := by omega
    have hne : size ≠ 0 := by omega
    simp only [hnot, hne, and_false, or_false, false_or]
  by_cases hlarge : 2 ^ 31 ≤ size
  · have hasize := align_large hlarge (by omega)
    rw [hreq] at hasize
    have hfit := hc.not_hasFit_large hasize
    have hrefuses : SbrkRefuses s.heap refused (sbrkAmount asize) := by
      rw [sbrkAmount, if_neg (by unfold chunkSize; omega)]
      exact Or.inr (Or.inl hasize)
    exact iff_of_true ⟨null, _, hc.serve_refused hpos hreq hfit hrefuses, Or.inl rfl⟩
      (Or.inr (Or.inr ⟨hfit, Or.inl hrefuses⟩))
  · have hnone := Shape.malloc_eq_none_iff hc.settled.proper s.heap.memMaxAddr refused hpos hreq
    rw [← hc.heap.brk_eq] at hnone
    have hhalf : size < 2 ^ 31 := by omega
    by_cases hm : σ.malloc s.heap.memMaxAddr refused size = none
    · obtain ⟨hfit, hgrants, hpast⟩ := hnone.mp hm
      have hserve := hc.serve_malloc_undefined hpos hhalf hm
      refine iff_of_false ?_ ?_
      · rintro ⟨p, h', hsome, -⟩
        rw [hserve] at hsome
        exact absurd hsome (by simp)
      · rintro (hzero | ⟨hfound, -⟩ | ⟨-, hrefuses | ⟨hroom, -⟩⟩)
        · omega
        · exact hfit hfound
        · exact hgrants hrefuses
        · omega
    · refine iff_of_true (hc.serve_granted hpos hhalf hm) (Or.inr ?_)
      by_contra hneither
      rw [not_or, not_and, not_and, not_or, not_and] at hneither
      obtain ⟨hfound, hunfit⟩ := hneither
      have hsize : size < wrapSize := by omega
      have hfit : ¬ HasFit σ.blocks σ.lists asize := fun hfit ↦ hfound hfit hsize
      obtain ⟨hgrants, hroom⟩ := hunfit hfit
      refine hm (hnone.mpr ⟨hfit, hgrants, ?_⟩)
      by_contra hbelow
      exact hroom (by omega) hsize

/-- A block that is free again, with nothing behind it. -/
def freeAgainTrace : List (Request × Nat) := [(.malloc 600 false, 4368), (.free 4368, null)]

set_option maxRecDepth 4000 in
theorem exists_reached_freeAgainTrace : ∃ s σ,
    Session.Reached 4096 (freeAgainTrace.map fun x ↦ .request x.1 x.2) s ∧
      s.heap.memStartBrk = 4096 ∧ s.Consistent σ ∧
      ∀ asize ∈ [8, 512], HasFit σ.blocks σ.lists asize := by
  have hfollows : ∃ b, Follows (Request.onAccount 4096) (emptyShape 4096, []) freeAgainTrace b ∧
      ∀ asize ∈ [8, 512], ∃ c < sizeClassNum, getSizeClass asize ≤ c ∧ ∃ x ∈ b.1.blocks,
        x.addr ∈ b.1.lists c ∧ asize ≤ x.size := by
    refine ⟨_, ⟨_, rfl, _, rfl, rfl⟩, ?_⟩
    decide
  obtain ⟨b, hfollows, hfits⟩ := hfollows
  obtain ⟨s, h, hstart, -, hc⟩ :=
    Session.exists_reached (by decide) (by decide) (by decide) hfollows
  exact ⟨s, _, h, hstart, hc, hfits⟩

/-- Five hundred bytes of the free block are given out. -/
theorem session_malloc_enough_short : ∃ s p h',
    Session.Reached 4096 (freeAgainTrace.map fun x ↦ .request x.1 x.2) s ∧
      (Request.malloc 500 false).serve s.heap = some (p, h') ∧ p ≠ null ∧ Granted h' p 500 := by
  obtain ⟨s, σ, h, hstart, hc, hfits⟩ := exists_reached_freeAgainTrace
  have hfit : HasFit σ.blocks σ.lists (align (addWord 500 dsize)) := hfits 512 (by decide)
  have hroom : s.heap.memBrk + sbrkAmount (align (addWord 500 dsize)) < 2 ^ 32 := by
    have hextent := hc.heap.arena.size
    have hmax := hc.heap.brk_le
    have hbrk := hc.heap.brk_eq
    have hamount : sbrkAmount (align (addWord 500 dsize)) = 4096 := by decide
    unfold maxHeap at hextent
    omega
  obtain ⟨blocks, lists, -, henough⟩ := session_malloc_enough_iff h
  obtain ⟨p, h', hserve, hp⟩ := (henough 500 false (by decide)).mpr <| by
    by_cases hfound : HasFit blocks lists (align (addWord 500 dsize))
    · exact Or.inr (Or.inl ⟨hfound, by decide⟩)
    · exact Or.inr (Or.inr ⟨hfound, Or.inr ⟨hroom, by decide⟩⟩)
  have hne : p ≠ null := by
    rintro rfl
    exact ((hc.serve_null_iff false (by decide) (by decide) rfl).mp ⟨h', hserve⟩).1 hfit
  exact ⟨s, p, h', h, hserve, hne, hp.resolve_left hne⟩

/-- A size that wraps around to eight is looked for, and the free block is large enough for that. -/
theorem session_malloc_too_little : ¬ ∀ base events s, Session.Reached base events s →
    ∀ size, size < 2 ^ 32 → ∃ p h', (Request.malloc size false).serve s.heap = some (p, h') ∧
      (p = null ∨ Granted h' p size) := by
  intro hall
  obtain ⟨s, σ, h, -, hc, hfits⟩ := exists_reached_freeAgainTrace
  have henough := hall _ _ s h (2 ^ 32 - 1) (by decide)
  rw [hc.serve_wrapped (by decide) (by decide) rfl] at henough
  exact henough.1 (hfits 8 (by decide))

/-- A failed request finds no block, could not have been served by an extension of the heap by its
own size, and leaves the heap as it was. -/
def FailsExhausted (s : Session) (blocks : List Block) (lists : Filing) (size : Nat) : Prop :=
  ∀ h', (Request.malloc size false).serve s.heap = some (null, h') →
    s.heap.memMaxAddr < s.heap.memBrk + align (addWord size dsize) ∧
      ¬ HasFit blocks lists (align (addWord size dsize)) ∧ h'.bytes = s.heap.bytes ∧
      h'.memBrk = s.heap.memBrk ∧ WellFormed h' blocks lists

/-- `mm_malloc` fails only when memory is exhausted, except where a bulk block is asked for and there
is room for the block itself but not for eight of its size. -/
theorem session_fails_exhausted_iff (h : Session.Reached base events s) :
    ∃ blocks lists, WellFormed s.heap blocks lists ∧ ∀ size, 0 < size → size < 2 ^ 31 →
      (FailsExhausted s blocks lists size ↔
        chunkSize < align (addWord size dsize) ∨
        HasFit blocks lists (align (addWord size dsize)) ∨
        s.heap.memMaxAddr < s.heap.memBrk + align (addWord size dsize) ∨
        s.heap.memBrk + 8 * align (addWord size dsize) ≤ s.heap.memMaxAddr ∨
        2 ^ 32 ≤ s.heap.memBrk + 8 * align (addWord size dsize)) := by
  obtain ⟨-, σ, hc⟩ := h.consistent
  refine ⟨σ.blocks, σ.lists, hc.heap.wellFormed, fun size hpos hlt ↦ ?_⟩
  have hfirst := hc.heap.geometry.first_le
  have hmax := hc.heap.brk_le
  have hbelow := hc.heap.arena.below
  have hextent := hc.heap.arena.size
  rw [← hc.heap.brk_eq] at hfirst hmax
  unfold firstBlock at hfirst
  unfold maxHeap at hextent
  generalize hreq : align (addWord size dsize) = asize
  have hnull := hc.serve_null_iff false hpos hlt hreq
  constructor
  · intro hfails
    by_contra hcond
    rw [not_or, not_or, not_or, not_or] at hcond
    obtain ⟨hsmall, hfit, hroom, hbulk, hwrap⟩ := hcond
    have hrefuses : SbrkRefuses s.heap false (sbrkAmount asize) := by
      rw [sbrkAmount, if_pos (by omega)]
      refine Or.inr (Or.inr ?_)
      rw [addWord_of_lt (by omega)]
      omega
    obtain ⟨h', hserve⟩ := hnull.mpr ⟨hfit, hrefuses⟩
    have hexhausted := (hfails h' hserve).1
    rw [hreq] at hexhausted
    exact hroom hexhausted
  · intro hcond h' hserve
    obtain ⟨hfit, hrefuses⟩ := hnull.mp ⟨h', hserve⟩
    have hunchanged := hc.serve_refused hpos hreq hfit hrefuses
    rw [hserve, Option.some.injEq, Prod.mk.injEq] at hunchanged
    obtain ⟨-, rfl⟩ := hunchanged
    rw [hreq]
    refine ⟨?_, hfit, rfl, rfl, (hc.invariant_refused false).wellFormed⟩
    by_contra hroom
    obtain hrefused | hhalf | hlimit := hrefuses
    · exact absurd hrefused (by decide)
    · unfold sbrkAmount at hhalf
      unfold chunkSize at hhalf hcond
      split_ifs at hhalf <;> omega
    · unfold sbrkAmount addWord at hlimit
      unfold chunkSize at hlimit hcond
      obtain hlarge | hhas | hexhausted | hbulk | hwrap := hcond
      · rw [if_neg (by omega)] at hlimit
        omega
      · exact hfit hhas
      · exact hroom hexhausted
      · split_ifs at hlimit <;> omega
      · split_ifs at hlimit <;> omega

/-- Where no block is free the search finds nothing. -/
theorem Session.Consistent.not_hasFit {σ : Shape} {asize : Nat} (hc : s.Consistent σ)
    (halloc : ∀ b ∈ σ.blocks, b.alloc = true) : ¬ HasFit σ.blocks σ.lists asize := by
  rintro ⟨c, hcls, -, b, -, hmem, -⟩
  obtain ⟨d, hd, -, hfree⟩ := (hc.settled.proper.filed b.addr).mp ⟨c, hcls, hmem⟩
  exact absurd (halloc d hd) (by simp [hfree])

/-- A session in which one block takes the heap up to the break. -/
theorem exists_reached_oneBlock {size brk : Nat} {b : Block} (halloc : b.alloc = true)
    (hfollows : ∃ σ, σ.blocks = [b] ∧ σ.brk = brk ∧ Follows (Request.onAccount 4096)
      (emptyShape 4096, []) [(.malloc size false, 4368)] (σ, [(4368, size)])) :
    ∃ s σ, Session.Reached 4096 [.request (.malloc size false) 4368] s ∧ s.Consistent σ ∧
      s.heap.memBrk = brk ∧ s.heap.memMaxAddr = 4096 + maxHeap ∧
      ∀ asize, ¬ HasFit σ.blocks σ.lists asize := by
  obtain ⟨σ, hblocks, hbrk, hfollows⟩ := hfollows
  obtain ⟨s, h, hstart, -, hc⟩ :=
    Session.exists_reached (by decide) (by decide) (by decide) hfollows
  have hextent := hc.heap.arena.size
  rw [hstart] at hextent
  refine ⟨s, σ, h, hc, hc.heap.brk_eq.trans hbrk, hextent, fun asize ↦ hc.not_hasFit ?_⟩
  rw [hblocks]
  exact List.forall_mem_singleton.mpr halloc

set_option maxRecDepth 4000 in
/-- A block takes all of the heap, and the next request gets nothing. -/
theorem session_fails_exhausted_short : ∃ s h' blocks lists,
    Session.Reached 4096 [.request (.malloc 67108584 false) 4368] s ∧
      (Request.malloc 8 false).serve s.heap = some (null, h') ∧
      s.heap.memMaxAddr < s.heap.memBrk + align (addWord 8 dsize) ∧
      ¬ HasFit blocks lists (align (addWord 8 dsize)) ∧ h'.bytes = s.heap.bytes ∧
      h'.memBrk = s.heap.memBrk ∧ WellFormed h' blocks lists := by
  obtain ⟨s, σ, h, hc, hbrk, hmax, hfit⟩ := @exists_reached_oneBlock 67108584 67112960
    ⟨4368, 67108592, true, false⟩ rfl ⟨_, rfl, rfl, _, rfl, rfl⟩
  have hfull : s.heap.memMaxAddr < s.heap.memBrk + align (addWord 8 dsize) := by
    rw [hmax, hbrk]
    decide
  have hrefuses : SbrkRefuses s.heap false (sbrkAmount (align (addWord 8 dsize))) := by
    rw [SbrkRefuses, hmax, hbrk]
    decide
  obtain ⟨h', hserve⟩ :=
    (hc.serve_null_iff false (by decide) (by decide) rfl).mpr ⟨hfit _, hrefuses⟩
  obtain ⟨blocks, lists, -, hfails⟩ := session_fails_exhausted_iff h
  exact ⟨s, h', blocks, lists, h, hserve,
    (hfails 8 (by decide) (by decide)).mpr (Or.inr (Or.inr (Or.inl hfull))) h' hserve⟩

set_option maxRecDepth 4000 in
/-- A block takes all of the heap but sixty-four bytes, and then there are no sixteen. -/
theorem session_fails_early : ¬ ∀ base events s, Session.Reached base events s →
    ∃ blocks lists, WellFormed s.heap blocks lists ∧
      ∀ size, 0 < size → size < 2 ^ 31 → FailsExhausted s blocks lists size := by
  intro hall
  obtain ⟨s, σ, h, hc, hbrk, hmax, hfit⟩ := @exists_reached_oneBlock 67108520 67112896
    ⟨4368, 67108528, true, false⟩ rfl ⟨_, rfl, rfl, _, rfl, rfl⟩
  obtain ⟨blocks, lists, -, hfails⟩ := hall _ _ s h
  have hrefuses : SbrkRefuses s.heap false (sbrkAmount 16) := by
    rw [SbrkRefuses, hmax, hbrk]
    decide
  obtain ⟨h', hserve⟩ := (hc.serve_null_iff false (show 0 < 8 by decide) (by decide)
    rfl).mpr ⟨hfit 16, hrefuses⟩
  have hexhausted := (hfails 8 (by decide) (by decide) h' hserve).1
  rw [hmax, hbrk] at hexhausted
  exact absurd hexhausted (by decide)

end SystemProgramming.MemoryLab
