import SystemProgramming.MemoryLab.FreeBlocks

/-!
# Requests on shapes

A shape is settled when it is proper, coalesced and suitably filed. Every request takes a settled
shape to a settled one. What it does to the allocated blocks is all that a client sees of it: an
allocation adds one block, large enough, and leaves the others (`Shape.malloc_cases`); a release
takes one away; a reallocation that does not grow keeps the start of its block.
-/

set_option autoImplicit false
set_option relaxedAutoImplicit false

namespace SystemProgramming.MemoryLab

open Library

/-! ### The size of a request -/

theorem align_eq {n : Nat} (h : n + 7 < 2 ^ 32) : align n = (n + 7) / 8 * 8 := by
  rw [align, addWord_of_lt h, sizeMask, and_mask h (by omega)]
  omega

/-- The block size for a request of `size` bytes. -/
theorem align_request {size : Nat} (hpos : 0 < size) (hlt : size < 2 ^ 31) :
    (align (addWord size dsize) % 8 = 0 ∧ 16 ≤ align (addWord size dsize)) ∧
      size + 8 ≤ align (addWord size dsize) ∧ align (addWord size dsize) ≤ size + 15 := by
  have hadd : addWord size dsize = size + 8 := addWord_of_lt (by unfold dsize; omega)
  rw [hadd, align_eq (by omega)]
  omega

/-! ### Settled shapes -/

/-- Proper, coalesced and suitably filed. -/
structure Shape.Settled (σ : Shape) (base : Nat) : Prop where
  proper : σ.Proper base
  coalesced : Coalesced σ.blocks
  suited : σ.Suited

namespace Focus

variable {φ : Focus} {brk base asize : Nat}

theorem settled_free (h : (φ.shape brk).Settled base) (halloc : φ.block.alloc = true) :
    (φ.free.shape brk).Settled base where
  proper := proper_free h.proper halloc
  coalesced := coalesced_free h.coalesced
  suited := suited_free h.suited h.proper halloc

theorem settled_shrink (h : (φ.shape brk).Settled base) (halloc : φ.block.alloc = true)
    (hasize : asize % 8 = 0 ∧ 16 ≤ asize) : ((φ.shrink asize).shape brk).Settled base where
  proper := proper_shrink h.proper halloc hasize
  coalesced := coalesced_shrink h.coalesced
  suited := suited_shrink h.suited h.proper halloc hasize

/-! ### Allocated blocks -/

/-- Coalescing moves no allocated block. -/
theorem mem_coalesce (hfree : φ.block.alloc = false) {c : Block} (hc : c.alloc = true) :
    c ∈ (φ.coalesce.shape brk).blocks ↔ c ∈ (φ.shape brk).blocks := by
  obtain ⟨front, b, back, L⟩ := φ
  have hq := splitFreeLast_mem front
  have hn := splitFreeHead_mem back
  have hfront := splitFreeLast_eq front
  have hback := splitFreeHead_eq back
  dsimp only at hfree
  have hne : ∀ d : Block, d.alloc = false → c ≠ d := by
    rintro d hd rfl
    rw [hc] at hd
    exact absurd hd (by simp)
  unfold Focus.coalesce Focus.shape
  dsimp only
  split_ifs with hnone
  · rfl
  clear hnone
  generalize splitFreeLast front = prev at *
  generalize splitFreeHead back = next at *
  obtain ⟨start, q⟩ := prev
  obtain ⟨n, rest⟩ := next
  dsimp only at hfront hback hq hn ⊢
  subst hfront hback
  have hqc : q ≠ some c := fun hmem ↦ hne c (hq c hmem) rfl
  have hnc : n ≠ some c := fun hmem ↦ hne c (hn c hmem) rfl
  simp [hne b hfree, hne (joined q b n) rfl, hqc, hnc]

/-- The block in focus is none of the others. -/
theorem ne_block (h : (φ.shape brk).Proper base) {c : Block}
    (hc : c ∈ φ.front ∨ c ∈ φ.back) : c ≠ φ.block := by
  have hsorted : (φ.front ++ φ.block :: φ.back).Pairwise fun a b ↦ a.addr + a.size ≤ b.addr :=
    h.tiles.sorted
  have hsized : φ.block.Sized := h.sized _ (by simp [Focus.shape])
  unfold Block.Sized at hsized
  obtain ⟨-, hback, hfront⟩ := List.pairwise_append.mp hsorted
  rintro rfl
  rcases hc with hc | hc
  · have hbefore := hfront _ hc _ List.mem_cons_self
    omega
  · have hafter := (List.pairwise_cons.mp hback).1 _ hc
    omega

theorem mem_free (h : (φ.shape brk).Proper base) {c : Block} (hc : c.alloc = true) :
    c ∈ (φ.free.shape brk).blocks ↔ c ∈ (φ.shape brk).blocks ∧ c ≠ φ.block := by
  have hother := ne_block h (c := c)
  rw [Focus.free, mem_coalesce rfl hc]
  have hmarked : c ≠ { φ.block with alloc := false } := by
    rintro rfl
    exact absurd hc (by simp)
  simp only [Focus.shape, List.mem_append, List.mem_cons, hmarked, false_or]
  tauto

/-- Placing makes the block in focus an allocated one of at least the size asked for. -/
theorem mem_place (hfree : φ.block.alloc = false) (cls brk brk' : Nat) (hfits : asize ≤ φ.block.size) :
    ∃ a : Block, a.addr = φ.block.addr ∧ a.alloc = true ∧ asize ≤ a.size ∧
      ∀ c : Block, c.alloc = true →
        (c ∈ (φ.place asize cls brk).blocks ↔ c ∈ (φ.shape brk').blocks ∨ c = a) := by
  have hne : ∀ c d : Block, c.alloc = true → d.alloc = false → c ≠ d := by
    rintro c d hc hd rfl
    rw [hc] at hd
    exact absurd hd (by simp)
  unfold Focus.place Focus.shape
  dsimp only
  split_ifs
  · refine ⟨⟨φ.block.addr, asize, true, true⟩, rfl, rfl, Nat.le_refl _, fun c hc ↦ ?_⟩
    simp only [List.mem_append, List.mem_cons, hne c _ hc hfree, hne c ⟨_, _, false, _⟩ hc rfl]
    tauto
  · refine ⟨⟨φ.block.addr, asize, true, false⟩, rfl, rfl, Nat.le_refl _, fun c hc ↦ ?_⟩
    simp only [List.mem_append, List.mem_cons, hne c _ hc hfree, hne c ⟨_, _, false, _⟩ hc rfl]
    tauto
  · refine ⟨{ φ.block with alloc := true, bulk := false }, rfl, rfl, hfits, fun c hc ↦ ?_⟩
    simp only [List.mem_append, List.mem_cons, hne c _ hc hfree]
    tauto

/-- Shrinking keeps the start of the block in focus. -/
theorem mem_shrink (h : (φ.shape brk).Proper base) (halloc : φ.block.alloc = true)
    (hfits : asize ≤ φ.block.size) :
    ∃ a : Block, a.addr = φ.block.addr ∧ a.alloc = true ∧ asize ≤ a.size ∧
      a.size ≤ φ.block.size ∧ ∀ c : Block, c.alloc = true →
        (c ∈ ((φ.shrink asize).shape brk).blocks ↔
          (c ∈ (φ.shape brk).blocks ∧ c ≠ φ.block) ∨ c = a) := by
  have hother := fun c ↦ ne_block h (c := c)
  unfold Focus.shrink
  dsimp only
  split_ifs
  · refine ⟨⟨φ.block.addr, asize, true, φ.block.bulk⟩, rfl, rfl, Nat.le_refl _, hfits,
      fun c hc ↦ ?_⟩
    have hrest : c ≠ ⟨φ.block.addr + asize, φ.block.size - asize, false, φ.block.bulk⟩ := by
      rintro rfl
      exact absurd hc (by simp)
    have hc' := hother c
    rw [mem_coalesce rfl hc]
    simp only [Focus.shape, List.mem_append, List.mem_cons, List.not_mem_nil, or_false, hrest,
      false_or]
    tauto
  · refine ⟨φ.block, rfl, halloc, hfits, Nat.le_refl _, fun c hc ↦ ?_⟩
    have hc' := hother c
    simp only [Focus.shape, List.mem_append, List.mem_cons]
    tauto

end Focus

/-! ### The search -/

namespace Shape

variable {σ σ' : Shape} {base asize : Nat}

theorem search_eq_some {n x cls : Nat} (hn : n ≤ sizeClassNum)
    (h : σ.search asize n = some (x, cls)) :
    cls < sizeClassNum ∧ x ∈ σ.lists cls ∧ asize ≤ sizeAt σ.blocks x := by
  induction n with
  | zero => simp [search] at h
  | succ n ih =>
    rw [search] at h
    split at h
    · next y hy =>
      simp only [Option.some.injEq, Prod.mk.injEq] at h
      obtain ⟨rfl, rfl⟩ := h
      exact ⟨by omega, List.mem_of_find?_eq_some hy, by simpa using List.find?_some hy⟩
    · exact ih (by omega) h

theorem sizeAt_eq (h : σ.Proper base) {b : Block} (hb : b ∈ σ.blocks) :
    sizeAt σ.blocks b.addr = b.size := by
  have hfind : (σ.blocks.find? fun c ↦ c.addr = b.addr).isSome := by
    rw [List.find?_isSome]
    exact ⟨b, hb, by simp⟩
  obtain ⟨c, hc⟩ := Option.isSome_iff_exists.mp hfind
  have haddr : c.addr = b.addr := by simpa using List.find?_some hc
  have heq := eq_of_addr_eq h.tiles.sorted h.sized (List.mem_of_find?_eq_some hc) hb haddr
  rw [sizeAt, hc, heq]
  rfl

/-- A fit is a free block, large enough, on the list it is said to be on. -/
theorem fit_eq_some (h : σ.Proper base) {x cls : Nat} (hfit : σ.fit asize = some (x, cls)) :
    ∃ φ, σ.focus x = some φ ∧ φ.shape σ.brk = σ ∧ φ.block.addr = x ∧ φ.block.alloc = false ∧
      asize ≤ φ.block.size ∧ cls < sizeClassNum ∧ x ∈ σ.lists cls := by
  obtain ⟨hcls, hmem, hsize⟩ := search_eq_some (Nat.sub_le _ _) hfit
  obtain ⟨b, hb, rfl, hfree⟩ := (h.filed x).mp ⟨cls, hcls, hmem⟩
  obtain ⟨φ, hfocus, rfl, hshape⟩ := h.focus hb
  rw [sizeAt_eq h hb] at hsize
  exact ⟨φ, hfocus, hshape, rfl, hfree, hsize, hcls, hmem⟩

/-! ### Allocation -/

/-- A shape opened at a free block into which `asize` bytes may be placed, under the class `cls`:
all is settled but that the block before the free one may be free as well. -/
structure Ready (φ : Focus) (base asize cls brk : Nat) : Prop where
  proper : (φ.shape brk).Proper base
  suited : (φ.shape brk).Suited
  front : Coalesced φ.front
  back : Coalesced φ.back
  head : ∀ n ∈ φ.back.head?, n.alloc = true
  free : φ.block.alloc = false
  fits : asize ≤ φ.block.size
  bound : φ.block.bulk = true → ∀ c < sizeClassNum, φ.block.addr ∈ φ.lists c →
    getLowerBound c ≤ getLowerBound cls ∨ getLowerBound c < φ.block.size - asize

theorem Ready.settled_place {φ : Focus} {cls brk : Nat} (h : Ready φ base asize cls brk)
    (hasize : asize % 8 = 0 ∧ 16 ≤ asize) : (φ.place asize cls brk).Settled base where
  proper := Focus.proper_place h.proper h.free hasize h.fits
  coalesced := coalesced_place h.front h.back h.head
  suited := Focus.suited_place h.suited h.proper h.free hasize h.fits h.bound

theorem ready_fit (h : σ.Settled base) {x cls : Nat} (hfit : σ.fit asize = some (x, cls)) :
    ∃ φ, σ.focus x = some φ ∧ φ.shape σ.brk = σ ∧ φ.block.addr = x ∧
      Ready φ base asize cls σ.brk := by
  obtain ⟨φ, hfocus, hshape, haddr, hfree, hsize, hcls, hmem⟩ := fit_eq_some h.proper hfit
  have hcoalesced : Coalesced (φ.front ++ φ.block :: φ.back) := by
    rw [← hshape] at h
    exact h.coalesced
  obtain ⟨hfront, hback, hborder⟩ := coalesced_insert.mp hcoalesced
  refine ⟨φ, hfocus, hshape, haddr, hshape.symm ▸ h.proper, hshape.symm ▸ h.suited, hfront, hback,
    (hborder.resolve_left (by simp [hfree])).2, hfree, hsize, fun _ c hc hmemc ↦ Or.inl ?_⟩
  have hlists : φ.lists = σ.lists := congrArg Shape.lists hshape
  rw [haddr, hlists] at hmemc
  rw [h.proper.simple.disjoint c hc cls hcls x hmemc hmem]

theorem ready_extend (h : σ.Settled base) (hasize : asize % 8 = 0 ∧ 16 ≤ asize) :
    Ready (σ.extend asize) base asize 0 (σ.brk + asize) := by
  have hcoalesced : Coalesced ((σ.extend asize).front ++ (σ.extend asize).block ::
      (σ.extend asize).back) := coalesced_coalesce h.coalesced List.IsChain.nil
  obtain ⟨hfree, hsize, hend⟩ := extend_block σ asize
  have hbulk := (Focus.coalesce_block (φ := ⟨σ.blocks, ⟨σ.brk, asize, false, false⟩, [],
    fileUnder σ.lists (getSizeClass asize) σ.brk⟩) rfl).2.2
  obtain ⟨hfront, hback, -⟩ := coalesced_insert.mp hcoalesced
  exact ⟨proper_extend h.proper hasize, suited_extend h.suited h.proper hasize, hfront, hback,
    by simp [hend], hfree, hsize, fun h ↦ absurd (hbulk h) (by simp)⟩

theorem ready_extendBulk (h : σ.Settled base) (hasize : asize % 8 = 0 ∧ 16 ≤ asize) :
    Ready (σ.extendBulk asize) base asize 0 (σ.brk + 8 * asize) := by
  have hbound := getLowerBound_getSizeClass_lt (show 0 < asize by omega)
  have hlast : ∀ L : Filing, ∀ x, ¬ Filed L x → ∀ c < sizeClassNum,
      x ∈ fileUnder L (getSizeClass asize) x c → getLowerBound c < asize := by
    intro L x hx c hc hmem
    rcases mem_fileUnder.mp hmem with ⟨-, rfl⟩ | hold
    · exact hbound
    · exact absurd ⟨c, hc, hold⟩ hx
  have hproper := proper_extendBulk h.proper hasize
  have hsuited := suited_extendBulk h.suited h.proper hasize
  have hplain : ∀ c < sizeClassNum, σ.brk ∈ fileUnder σ.lists (getSizeClass asize) σ.brk c →
      getLowerBound c < asize := hlast _ _ h.proper.not_filed_brk
  unfold extendBulk at hproper hsuited ⊢
  split
  · next q hq =>
    simp only [hq] at hproper hsuited
    split_ifs at hproper hsuited ⊢ with hbulk
    · refine ⟨hproper, hsuited, h.coalesced, List.IsChain.nil, by simp, rfl, by dsimp only; omega,
        fun _ c hc hmem ↦ Or.inr ?_⟩
      have hc := hplain c hc hmem
      dsimp only
      omega
    · have hblocks := splitFreeLast_eq σ.blocks
      rw [hq, Option.toList_some] at hblocks
      have hfront : Coalesced (splitFreeLast σ.blocks).1 := by
        have hcoalesced := h.coalesced
        rw [hblocks] at hcoalesced
        exact (coalesced_insert.mp hcoalesced).1
      refine ⟨hproper, hsuited, hfront, List.IsChain.nil, by simp, rfl, by dsimp only; omega,
        fun _ c hc hmem ↦ Or.inr ?_⟩
      have hc := hlast _ q.addr (fun hx ↦ ((filed_unfile h.proper.simple).mp hx).2 rfl) c hc hmem
      dsimp only
      omega
  · next hq =>
    simp only [hq] at hproper hsuited
    refine ⟨hproper, hsuited, h.coalesced, List.IsChain.nil, by simp, rfl, by dsimp only; omega,
      fun _ c hc hmem ↦ Or.inr ?_⟩
    have hc := hplain c hc hmem
    dsimp only
    omega

theorem mem_extend {c : Block} (hc : c.alloc = true) :
    c ∈ ((σ.extend asize).shape (σ.brk + asize)).blocks ↔ c ∈ σ.blocks := by
  have hnew : c ≠ ⟨σ.brk, asize, false, false⟩ := by
    rintro rfl
    exact absurd hc (by simp)
  rw [extend, Focus.mem_coalesce rfl hc]
  simp [Focus.shape, hnew]

theorem mem_extendBulk {c : Block} (hc : c.alloc = true) :
    c ∈ ((σ.extendBulk asize).shape (σ.brk + 8 * asize)).blocks ↔ c ∈ σ.blocks := by
  have hnew : ∀ x n : Nat, c ≠ ⟨x, n, false, true⟩ := by
    rintro x n rfl
    exact absurd hc (by simp)
  unfold extendBulk
  split
  · next q hq =>
    have hqc : c ≠ q := by
      rintro rfl
      rw [splitFreeLast_free hq] at hc
      exact absurd hc (by simp)
    have hblocks := splitFreeLast_eq σ.blocks
    rw [hq, Option.toList_some] at hblocks
    split_ifs
    · simp [Focus.shape, hnew]
    · conv_rhs => rw [hblocks]
      simp [Focus.shape, hnew, hqc]
  · simp [Focus.shape, hnew]

/-- What a request for memory does: nothing, or placing into a block that is ready for it. -/
theorem malloc_cases (h : σ.Settled base) {limit size p : Nat} {refused : Bool}
    (hpos : 0 < size) (hlt : size < 2 ^ 31) (hm : σ.malloc limit refused size = some (p, σ')) :
    (p = null ∧ σ' = σ) ∨ ∃ φ cls brk, p = φ.block.addr ∧
      σ' = φ.place (align (addWord size dsize)) cls brk ∧
      Ready φ base (align (addWord size dsize)) cls brk ∧
      ∀ c : Block, c.alloc = true → (c ∈ (φ.shape brk).blocks ↔ c ∈ σ.blocks) := by
  obtain ⟨hasize, -, -⟩ := align_request hpos hlt
  generalize hreq : align (addWord size dsize) = asize at *
  unfold malloc at hm
  rw [hreq] at hm
  dsimp only at hm
  rw [if_neg (by omega)] at hm
  split at hm
  · next x cls hfit =>
    obtain ⟨φ, hfocus, hshape, haddr, hready⟩ := ready_fit h hfit
    simp only [hfocus, Option.map_some, Option.some.injEq, Prod.mk.injEq] at hm
    obtain ⟨rfl, rfl⟩ := hm
    exact Or.inr ⟨φ, cls, σ.brk, haddr.symm, rfl, hready, fun c _ ↦ by rw [hshape]⟩
  · split_ifs at hm with hfail hwrap hbulk
    · simp only [Option.some.injEq, Prod.mk.injEq] at hm
      exact Or.inl ⟨hm.1.symm, hm.2.symm⟩
    · simp only [Option.some.injEq, Prod.mk.injEq] at hm
      obtain ⟨rfl, rfl⟩ := hm
      refine Or.inr ⟨_, 0, _, rfl, rfl, ?_, fun c hc ↦ ?_⟩
      · rw [sbrkAmount, if_pos hbulk]
        exact ready_extendBulk h hasize
      · rw [sbrkAmount, if_pos hbulk]
        exact mem_extendBulk hc
    · simp only [Option.some.injEq, Prod.mk.injEq] at hm
      obtain ⟨rfl, rfl⟩ := hm
      refine Or.inr ⟨_, 0, _, rfl, rfl, ?_, fun c hc ↦ ?_⟩
      · rw [sbrkAmount, if_neg hbulk]
        exact ready_extend h hasize
      · rw [sbrkAmount, if_neg hbulk]
        exact mem_extend hc

theorem settled_malloc (h : σ.Settled base) {limit size p : Nat} {refused : Bool}
    (hpos : 0 < size) (hlt : size < 2 ^ 31) (hm : σ.malloc limit refused size = some (p, σ')) :
    σ'.Settled base := by
  rcases malloc_cases h hpos hlt hm with ⟨-, rfl⟩ | ⟨φ, cls, brk, -, rfl, hready, -⟩
  · exact h
  · exact hready.settled_place (align_request hpos hlt).1

/-- A request for memory has no result just if nothing is found, `mem_sbrk` does not refuse, and the
break would be carried past the last address. -/
theorem malloc_eq_none (h : σ.Proper base) {limit size asize : Nat} {refused : Bool} (hpos : 0 < size)
    (hreq : align (addWord size dsize) = asize) : σ.malloc limit refused size = none ↔
      σ.fit asize = none ∧
      ¬ (refused = true ∨ 2 ^ 31 ≤ sbrkAmount asize ∨ limit < addWord σ.brk (sbrkAmount asize)) ∧
      2 ^ 32 ≤ σ.brk + sbrkAmount asize := by
  rw [malloc, hreq, if_neg (by omega)]
  cases hfit : σ.fit asize with
  | none =>
    dsimp only
    split_ifs with hfail hwrap
    · exact iff_of_false (by simp) fun hnone ↦ hnone.2.1 hfail
    · exact iff_of_true rfl ⟨rfl, hfail, hwrap⟩
    · exact iff_of_false (by simp) fun hnone ↦ hwrap hnone.2.2
  | some found =>
    obtain ⟨φ, hfocus, -⟩ := fit_eq_some h hfit
    simp [hfocus]

end Shape

end SystemProgramming.MemoryLab
