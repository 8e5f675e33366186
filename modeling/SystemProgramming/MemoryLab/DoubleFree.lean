import SystemProgramming.MemoryLab.Guarantees
import SystemProgramming.MemoryLab.Stale

/-!
# Freeing a pointer twice

`mm_free` looks at no tag to see whether the block is free already. When it is called again with the
address of a free block, `insert_block` links the block in behind the root of its class although it
is in a list; the node that led to it still does, so the lists are no rings any more
(`HeapInvariant.mmFree_twice`).

When a block has been merged with the free block before it, its pointer is no address of a block.
Called again at once, `mm_free` finds the tags that the block had, and `coalesce` adds its size to
that of the merged block a second time, so that the result reaches over what lies behind
(`Session.Consistent.freed_behind`).
-/

set_option autoImplicit false
set_option relaxedAutoImplicit false

namespace SystemProgramming.MemoryLab

open Library

/-! ### The address of a free block -/

/-- `coalesce` returns at once between allocated neighbours. -/
theorem returns_coalesce_alone {h : Heap} {q b n : Block} (hq : Headed h q) (hb : Headed h b)
    (hn : Headed h n) (hsize : 8 ≤ q.size)
    (hfooter : h.InArena (q.addr + q.size - 8) ∧ h.word (q.addr + q.size - 8) = q.word)
    (hqb : q.addr + q.size = b.addr) (hbn : b.addr + b.size = n.addr) (hqalloc : q.alloc = true)
    (hnalloc : n.alloc = true) (Q : Nat → Heap → Prop) :
    Returns (coalesce b.addr) h Q ↔ Q b.addr h := by
  have hqbounds := hq.bounds
  have hback : subWord b.addr dsize = q.addr + q.size - 8 := by
    rw [← hqb, subWord_of_le (by unfold dsize; omega) (by omega)]
    rfl
  have hstart : subWord b.addr q.size = q.addr := by
    rw [← hqb, subWord_of_le (by omega) (by omega)]
    omega
  have hprev : ∀ R : Nat → Heap → Prop, Returns (prevBlkp b.addr) h R ↔ R q.addr h := fun R ↦ by
    rw [prevBlkp, returns_bind, hback, returns_getSize hfooter.1 hfooter.2
      ⟨hq.size_mod, by omega⟩, returns_pure, hstart]
  simp only [coalesce, returns_bind]
  rw [hprev, hq.ftrp hsize, returns_getAlloc hfooter.1 hfooter.2 hq.size_mod, hb.nextBlkp, hbn,
    hn.getAlloc, hb.getSize, hqalloc, hnalloc]
  simp

/-- `coalesce` of a block of the tiling between allocated neighbours. -/
theorem View.coalesce_alone {h : Heap} {limit : Nat} {front back : List Block} {b : Block}
    {L : Filing} {K : Nat → Prop} {f : ByteMemory}
    (hv : View h limit true (front ++ b :: back) L K f)
    (htiles : Tiles (firstBlock h.memStartBrk) (front ++ b :: back) limit)
    (hborder : (∀ q ∈ front.getLast?, q.alloc = true) ∧ ∀ n ∈ back.head?, n.alloc = true)
    {m : ByteMemory} (ht : Tagged h.memStartBrk limit true m (front ++ b :: back) K f)
    (Q : Nat → Heap → Prop) :
    Returns (MemoryLab.coalesce b.addr) (h.store m) Q ↔ Q b.addr (h.store m) := by
  have hheaded := fun {c : Block} (hc : c ∈ front ++ b :: back) ↦
    hv.geometry.headed (h := h.store m) hv.limit_le ht hc
  obtain ⟨middle, hfront, haddr, hback⟩ := tiles_append.mp htiles
  obtain ⟨n, hn, hbn, hnalloc⟩ : ∃ n, Headed (h.store m) n ∧ b.addr + b.size = n.addr ∧
      n.alloc = true := by
    cases back with
    | nil =>
      exact ⟨⟨limit, 0, true, false⟩,
        hv.geometry.headed_epilogue (h := h.store m) hv.limit_le ht, hback, rfl⟩
    | cons n back => exact ⟨n, hheaded (by simp), hback.1.symm, hborder.2 n rfl⟩
  obtain ⟨q, hq, hsize, hfooter, hqb, hqalloc⟩ : ∃ q, Headed (h.store m) q ∧ 8 ≤ q.size ∧
      (h.InArena (q.addr + q.size - 8) ∧ wordAt m (q.addr + q.size - 8) = q.word) ∧
      q.addr + q.size = b.addr ∧ q.alloc = true := by
    rcases List.eq_nil_or_concat front with rfl | ⟨front, q, rfl⟩
    · have hfirst : firstBlock h.memStartBrk = b.addr := hfront.trans haddr.symm
      have hle := hv.geometry.first_le
      unfold firstBlock at hfirst hle
      exact ⟨⟨h.memStartBrk + 264, 8, true, false⟩,
        hv.geometry.headed_prologue (h := h.store m) hv.limit_le ht, Nat.le_refl 8,
        ⟨hv.inArena (by dsimp only; omega) (by dsimp only; omega), ht.prologueFooter⟩, hfirst, rfl⟩
    · rw [List.concat_eq_append, tiles_append] at hfront
      obtain ⟨start, -, -, hend⟩ := hfront
      have hmem : q ∈ front.concat q ++ b :: back := by simp
      have hblock := hv.geometry.block q hmem
      exact ⟨q, hheaded hmem, by omega, ⟨(hv.header_inArena hmem).2, ht.footer q hmem⟩,
        hend.trans haddr.symm, hborder.1 q (by simp)⟩
  exact returns_coalesce_alone hq (hheaded (by simp)) hn hsize hfooter hqb hbn hqalloc hnalloc Q

/-- In a well-formed heap the second link of the node behind a root or a free block leads back. -/
theorem WellFormed.prev_next {h : Heap} {blocks : List Block} {lists : Filing}
    (hf : WellFormed h blocks lists) {z : Nat}
    (hz : (∃ c < sizeClassNum, getClassRoot c h = some (z, h)) ∨
      ∃ b ∈ blocks, b.addr = z ∧ b.alloc = false) : h.word (h.word z + 4) = z := by
  rcases hz with ⟨c, hc, hroot⟩ | hfree
  · obtain ⟨root, hroot', hring, -⟩ := hf.ring c hc
    obtain ⟨rfl, -⟩ := Prod.mk.inj (Option.some.inj (hroot.symm.trans hroot'))
    exact hring.prev_next List.mem_cons_self
  · obtain ⟨c, hc, hmem⟩ := (hf.filed z).mpr hfree
    obtain ⟨root, -, hring, -⟩ := hf.ring c hc
    exact hring.prev_next (List.mem_cons_of_mem _ hmem)

/-- A heap is not well formed after `insert_block` of a block that is filed already. -/
theorem View.not_wellFormed {h h' : Heap} {limit cls : Nat} {epi : Bool} {B : List Block}
    {L : Filing} {K : Nat → Prop} {f : ByteMemory} (hv : View h limit epi B L K f)
    (hfiled : ∀ x, Filed L x → ∃ b ∈ B, b.addr = x ∧ b.alloc = false) {x : Nat} (hx : Filed L x)
    (hcls : cls < sizeClassNum) (hstart : h'.memStartBrk = h.memStartBrk)
    (hclass : h'.sizeClassP = h'.memStartBrk)
    (hbytes : h'.bytes = linkFront h.bytes (classRoot h.memStartBrk cls) x)
    (hwalk : Walk h' (firstBlock h'.memStartBrk) B) (blocks : List Block) (lists : Filing) :
    ¬ WellFormed h' blocks lists := by
  intro hformed
  obtain rfl := hformed.walk.2.unique hwalk
  obtain ⟨c, hc, hxc⟩ := hx
  have hlt := hv.geometry.limit_lt
  have hfirst := hv.geometry.first_le
  unfold firstBlock at hfirst
  obtain ⟨-, hprevMem, hprevNe⟩ := hv.linked.neighbours_mem hc hxc
  have hlx := hv.linkable_of_filed ⟨c, hc, hxc⟩
  have hlprev := hv.linkable ⟨c, hc, hprevMem⟩
  obtain ⟨hmodx, -, hhighx⟩ := hv.linkable_bounds hlx
  obtain ⟨hmodr, -, hhighr⟩ := hv.linkable_bounds (hv.linkable_of_root hcls)
  have hmodp := (hv.linkable_bounds hlprev).1
  have hmodf := (hv.linkable_bounds (hv.linkable_first hcls)).1
  have hlow := (hv.geometry.node x ⟨c, hc, hxc⟩).2.1
  have hne : x ≠ classRoot h.memStartBrk cls := by
    unfold sizeClassNum at hcls
    unfold firstBlock at hlow
    unfold classRoot
    omega
  have hroot : ∀ d < sizeClassNum, getClassRoot d h' = some (classRoot h.memStartBrk d, h') := by
    intro d hd
    refine eq_of_returns_iff fun Q ↦ ?_
    have haddr : addWord h'.sizeClassP (dsize * d) = classRoot h.memStartBrk d := by
      unfold sizeClassNum at hd
      rw [hclass, hstart, addWord_of_lt (by unfold dsize; omega)]
      rfl
    simp only [getClassRoot, returns_bind, returns_get, returns_pure, haddr]
  have hnext : ∀ y, y % 8 = 0 → h'.word y = if y = classRoot h.memStartBrk cls then x
      else if y = x then wordAt h.bytes (classRoot h.memStartBrk cls) else wordAt h.bytes y := by
    intro y hy
    rw [Heap.word, hbytes]
    exact next_linkFront ⟨hmodr, hmodx⟩ hmodf ⟨by omega, by omega⟩ hy
  refine not_pushFront_twice (fun y ↦ wordAt h.bytes y) (fun y ↦ h'.word y)
    (fun y ↦ h'.word (y + 4)) hne
    ((hv.linked.ring c hc).next_prev (List.mem_cons_of_mem _ hxc)) ?_ ?_ (fun hyroot ↦ ?_) ?_
  · rw [hnext _ hmodr, if_pos rfl]
  · rw [hnext _ hmodx, if_neg hne, if_pos rfl]
  · rw [hnext _ hmodp, if_neg hyroot, if_neg hprevNe]
  · rintro z (rfl | rfl | rfl)
    · exact hformed.prev_next (Or.inl ⟨cls, hcls, hroot cls hcls⟩)
    · exact hformed.prev_next (Or.inr (hfiled _ ⟨c, hc, hxc⟩))
    · refine hformed.prev_next ?_
      rcases List.mem_cons.mp hprevMem with hprev | hprev
      · rw [hprev]
        exact Or.inl ⟨c, hc, hroot c hc⟩
      · exact Or.inr (hfiled _ ⟨c, hc, hprev⟩)

/-- `mm_free` of a free block returns, and leaves a heap that is not well formed. -/
theorem HeapInvariant.mmFree_twice {h : Heap} {σ : Shape} (hi : HeapInvariant h σ)
    (hcoalesced : Coalesced σ.blocks) {b : Block} (hb : b ∈ σ.blocks) (hfree : b.alloc = false) :
    Returns (MemoryLab.mmFree b.addr) h fun _ h' ↦
      ∀ blocks lists, ¬ WellFormed h' blocks lists := by
  obtain ⟨front, back, hblocks⟩ := List.append_of_mem hb
  have hborder := ((coalesced_insert.mp (hblocks ▸ hcoalesced)).2.2).resolve_left (by simp [hfree])
  have hfiled := (hi.proper.filed b.addr).mpr ⟨b, hb, rfl, hfree⟩
  have hv := hi.view (K := fun _ ↦ False) fun _ ha ↦ absurd ha id
  rw [hblocks] at hv
  have hbmem : b ∈ front ++ b :: back := by simp
  have hblock := hv.geometry.block b hbmem
  have hc := getSizeClass_lt b.size
  simp only [MemoryLab.mmFree, returns_bind]
  rw [hv.getSize_hdrp hbmem, hv.getIsbulk_hdrp hbmem]
  have hfits : Fits h.memStartBrk σ.brk front b back σ.lists (fun _ ↦ False) := by
    refine hv.fits_within ⟨hblock.1, hblock.2.1, hblock.2.2.1⟩ (Nat.le_refl _) (Nat.le_refl _)
      (fun x hx ↦ ?_) fun a ha ↦ absurd ha id
    by_cases hxb : x = b.addr
    · exact Or.inl hxb
    · exact Or.inr ⟨hx, hxb⟩
  refine hv.forget_block.setBoundaryTag hfits (by simp [Block.tag, hfree]) fun m hm ↦ ?_
  have hlx := hm.linkable_of_filed hfiled
  have hlfirst := hm.linkable_first hc
  refine (hm.returns_insertBlock b.size hblock.2.2.2.1 hlx m hlfirst _).mpr ?_
  have htiles : Tiles (firstBlock h.memStartBrk) (front ++ b :: back) σ.brk :=
    hblocks ▸ hi.proper.tiles
  have htagged := hm.tagged_linkFront hlx (hm.linkable_of_root hc) hm.tagged hlfirst
  refine (hm.coalesce_alone htiles hborder htagged _).mpr ?_
  rw [returns_modify]
  refine hm.not_wellFormed (fun x hx ↦ hblocks ▸ (hi.proper.filed x).mp hx) hfiled hc rfl
    hi.sizeClassP_eq rfl ?_
  apply Geometry.walk
  · exact hm.geometry
  · exact hi.brk_eq
  · exact hi.brk_le
  · exact htagged
  · exact htiles

/-! ### A pointer freed twice at once -/

/-- The block behind the blocks of a heap, or the epilogue. -/
def behind (back : List Block) (brk : Nat) : Block := back.head?.getD ⟨brk, 0, true, false⟩

theorem takeFree_behind (back : List Block) (brk : Nat) :
    takeFree (behind back brk) = (splitFreeHead back).1 := by
  cases back with
  | nil => rfl
  | cons n back => cases hn : n.alloc <;> simp [behind, takeFree, splitFreeHead, hn]

/-- The roots, the filed addresses and the address of one more block. -/
abbrev LinkPlace (base : Nat) (L : Filing) (p : Nat) (y : Nat) : Prop :=
  RingMember (· < sizeClassNum) (classRoot base) L y ∨ y = p

namespace HeapInvariant

variable {h : Heap} {σ : Shape} {start back : List Block} {q p : Block}

/-- A place for links is a root, or lies in the heap and not within a block. -/
theorem linkPlace_cases (hi : HeapInvariant h σ) (hp : p ∈ σ.blocks) {y : Nat}
    (hy : LinkPlace h.memStartBrk σ.lists p.addr y) : y % 8 = 0 ∧ (y + 8 ≤ h.memStartBrk + 256 ∨
      (firstBlock h.memStartBrk ≤ y ∧ y + 16 ≤ σ.brk ∧
        ∀ b ∈ σ.blocks, y = b.addr ∨ y + 16 ≤ b.addr ∨ b.addr + b.size ≤ y)) := by
  have hg := hi.geometry
  rcases hy with ⟨c, hc, hmem⟩ | rfl
  · rcases List.mem_cons.mp hmem with rfl | hmem
    · have hmod := hg.base_mod
      have hc' : c < 32 := hc
      unfold classRoot
      exact ⟨by omega, Or.inl (by omega)⟩
    · obtain ⟨hmod, hlow, hhigh⟩ := hg.node y ⟨c, hc, hmem⟩
      exact ⟨hmod, Or.inr ⟨hlow, hhigh, hg.apart y ⟨c, hc, hmem⟩⟩⟩
  · obtain ⟨hmod, -, hsize, hlow, hhigh⟩ := hg.block p hp
    refine ⟨hmod, Or.inr ⟨hlow, by omega, fun b hb ↦ ?_⟩⟩
    rcases hg.trichotomy hp hb with rfl | hbefore | hafter
    · exact Or.inl rfl
    · exact Or.inr (Or.inl (by omega))
    · exact Or.inr (Or.inr hafter)

theorem places (hi : HeapInvariant h σ) (hp : p ∈ σ.blocks) :
    Places h (LinkPlace h.memStartBrk σ.lists p.addr) where
  arena := hi.arena
  sizeClassP_eq := hi.sizeClassP_eq
  aligned := fun y hy ↦ (hi.linkPlace_cases hp hy).1
  below := fun y hy ↦ by
    have hcases := (hi.linkPlace_cases hp hy).2
    have hfirst := hi.geometry.first_le
    have hle := hi.brk_le
    unfold firstBlock at hfirst hcases
    omega
  root := fun c hc ↦ Or.inl ⟨c, hc, List.mem_cons_self⟩

/-- The tag words of the blocks are no links. -/
theorem clear_tags (hi : HeapInvariant h σ) (hp : p ∈ σ.blocks) {b : Block} (hb : b ∈ σ.blocks) :
    Clear (LinkPlace h.memStartBrk σ.lists p.addr) (b.addr - 4) ∧
      Clear (LinkPlace h.memStartBrk σ.lists p.addr) (b.addr + b.size - 8) := by
  obtain ⟨hmod, -, hsize, hlow, hhigh⟩ := hi.geometry.block b hb
  unfold firstBlock at hlow
  refine ⟨fun y hy ↦ ?_, fun y hy ↦ ?_⟩
  · rcases (hi.linkPlace_cases hp hy).2 with hroot | ⟨-, -, happart⟩
    · omega
    · have hplace := happart b hb
      omega
  · rcases (hi.linkPlace_cases hp hy).2 with hroot | ⟨-, -, happart⟩
    · omega
    · have hplace := happart b hb
      omega

/-- What is behind a block of the heap: its header is in memory, and its tag words are no links. -/
theorem behind_spec (hi : HeapInvariant h σ) (hsplit : σ.blocks = start ++ p :: back) :
    p.addr + p.size = (behind back σ.brk).addr ∧
      (behind back σ.brk).addr + (behind back σ.brk).size ≤ σ.brk ∧
      (behind back σ.brk).size % 8 = 0 ∧
      h.word ((behind back σ.brk).addr - 4) = (behind back σ.brk).word ∧
      Clear (LinkPlace h.memStartBrk σ.lists p.addr) ((behind back σ.brk).addr - 4) ∧
      ((behind back σ.brk).alloc = false → behind back σ.brk ∈ σ.blocks) := by
  have htiles := hi.proper.tiles
  have hp : p ∈ σ.blocks := by simp [hsplit]
  rw [hsplit, tiles_append] at htiles
  obtain ⟨middle, -, -, hend⟩ := htiles
  cases back with
  | nil =>
    refine ⟨hend, Nat.le_refl _, rfl, hi.epilogue, fun y hy ↦ ?_, fun h ↦ absurd h (by simp [behind])⟩
    have hcases := (hi.linkPlace_cases hp hy).2
    have hfirst := hi.geometry.first_le
    have hmod := (hi.linkPlace_cases hp hy).1
    unfold firstBlock at hfirst hcases
    simp only [behind, List.head?_nil, Option.getD_none]
    omega
  | cons n back =>
    have hn : n ∈ σ.blocks := by simp [hsplit]
    have hblock := hi.geometry.block n hn
    exact ⟨hend.1.symm, hblock.2.2.2.2, hblock.2.1, hi.header n hn, (hi.clear_tags hp hn).1,
      fun _ ↦ hn⟩

theorem trio (hi : HeapInvariant h σ) (hsplit : σ.blocks = start ++ q :: p :: back)
    (hqfree : q.alloc = false) :
    Trio h (LinkPlace h.memStartBrk σ.lists p.addr) q { p with alloc := false }
      (behind back σ.brk) := by
  have hq : q ∈ σ.blocks := by simp [hsplit]
  have hp : p ∈ σ.blocks := by simp [hsplit]
  have htiles := hi.proper.tiles
  rw [hsplit, tiles_append] at htiles
  obtain ⟨middle, -, -, hqp, -⟩ := htiles
  have hsplit' : σ.blocks = (start ++ [q]) ++ p :: back := by simp [hsplit]
  obtain ⟨hend, hhigh, hnmod, -, hnclear, hnmem⟩ := hi.behind_spec hsplit'
  generalize behind back σ.brk = n at *
  have hqblock := hi.geometry.block q hq
  have hpblock := hi.geometry.block p hp
  refine ⟨hi.places hp, ?_, ⟨?_, ?_, fun hn ↦ (hi.clear_tags hp (hnmem hn)).2⟩,
    ⟨Or.inr rfl, Or.inl ?_, fun hn ↦ Or.inl ?_⟩,
    ⟨hqblock.2.2.2.1, hqp.symm, hend, hhigh.trans hi.brk_le⟩,
    ⟨hqblock.2.2.1, hpblock.2.2.1, hqblock.2.1, hpblock.2.1, hnmod⟩⟩
  · rintro b (rfl | rfl | rfl)
    · exact (hi.clear_tags hp hq).1
    · exact (hi.clear_tags hp hp).1
    · exact hnclear
  · have hfooter := (hi.clear_tags hp hq).2
    rwa [← hqp] at hfooter
  · have hfooter := (hi.clear_tags hp hp).2
    rwa [hend] at hfooter
  · obtain ⟨c, hc, hmem⟩ := (hi.proper.filed q.addr).mpr ⟨q, hq, rfl, hqfree⟩
    exact ⟨c, hc, List.mem_cons_of_mem _ hmem⟩
  · obtain ⟨c, hc, hmem⟩ := (hi.proper.filed n.addr).mpr ⟨n, hnmem hn, rfl, hn⟩
    exact ⟨c, hc, List.mem_cons_of_mem _ hmem⟩

end HeapInvariant

/-- The tag word of a block determines what it says. -/
theorem Block.eq_of_word {b c : Block} (haddr : b.addr = c.addr) (hb : b.size % 8 = 0)
    (hc : c.size % 8 = 0) (hword : b.word = c.word) : b = c := by
  obtain ⟨bAddr, bSize, bAlloc, bBulk⟩ := b
  obtain ⟨cAddr, cSize, cAlloc, cBulk⟩ := c
  unfold Block.word Block.tag at hword
  dsimp only at haddr hb hc hword
  subst haddr
  cases bAlloc <;> cases cAlloc <;> cases bBulk <;> cases cBulk <;>
    simp only [if_true, Bool.false_eq_true, if_false, Block.mk.injEq, true_and, and_true,
      reduceCtorEq, and_false] at hword ⊢ <;> omega

/-- Blocks that lie end to end from where a heap begins, with the headers they have there, are the
first blocks of the heap. -/
theorem Tiles.starts {S blocks : List Block} {first middle last : Nat}
    (hS : Tiles first S middle) (hblocks : Tiles first blocks last)
    (hlow : ∀ b ∈ S, b.addr < last) (hsame : ∀ b ∈ S, ∀ c ∈ blocks, b.addr = c.addr → b = c) :
    ∃ rest, blocks = S ++ rest := by
  induction S generalizing first blocks with
  | nil => exact ⟨blocks, rfl⟩
  | cons b S ih =>
    obtain ⟨haddr, hS⟩ := hS
    cases blocks with
    | nil =>
      have hlast : first = last := hblocks
      have hlt := hlow b List.mem_cons_self
      omega
    | cons c blocks =>
      obtain ⟨haddr', hblocks⟩ := hblocks
      obtain rfl := hsame b List.mem_cons_self c List.mem_cons_self (haddr.trans haddr'.symm)
      obtain ⟨rest, rfl⟩ := ih hS hblocks (fun d hd ↦ hlow d (List.mem_cons_of_mem _ hd))
        fun d hd e he ↦ hsame d (List.mem_cons_of_mem _ hd) e (List.mem_cons_of_mem _ he)
      exact ⟨rest, rfl⟩

namespace Session.Consistent

variable {s : Session} {σ : Shape}

/-- After two calls of `mm_free` on a pointer behind a free block the heap has a block that reaches
over the next pointer held, or over the break. -/
theorem freed_behind (hc : s.Consistent σ) {start back : List Block} {q p : Block}
    (hsplit : σ.blocks = start ++ q :: p :: back) (hqfree : q.alloc = false)
    (hpalloc : p.alloc = true) {h₁ h₂ : Heap}
    (hret₁ : Returns (mmFree p.addr) s.heap fun _ t ↦ t = h₁)
    (hret₂ : Returns (mmFree p.addr) h₁ fun _ t ↦ t = h₂) (σ' : Shape) :
    ¬ Session.Sound ⟨h₂, without s.live p.addr⟩ σ' := by
  intro hs
  have hbase := hc.heap.arena.aligned
  have ht := hc.heap.trio hsplit hqfree
  have hq : q ∈ σ.blocks := by simp [hsplit]
  have hp : p ∈ σ.blocks := by simp [hsplit]
  have hqp : q.addr + q.size = p.addr := ht.order.2.1
  have hsplit' : σ.blocks = (start ++ [q]) ++ p :: back := by simp [hsplit]
  obtain ⟨-, -, hnmod, hright, -, -⟩ := hc.heap.behind_spec hsplit'
  have hback : s.heap.word (p.addr - 8) = q.word := by
    rw [← hc.heap.footer q hq]
    exact congrArg s.heap.word (congrArg (· - 8) hqp.symm)
  have hmiddle : s.heap.word (p.addr - 4) = Block.word { p with alloc := true } := by
    rw [← hpalloc]
    exact hc.heap.header p hp
  have hwords : Trio.Words s.heap.bytes q { p with alloc := false } (behind back σ.brk) q.word
      q.word (Block.word { p with alloc := true }) (behind back σ.brk).word :=
    ⟨hc.heap.header q hq, hback, hmiddle, hright⟩
  have henclosed : ∀ y, LinkPlace s.heap.memStartBrk σ.lists p.addr y → y ≠ p.addr →
      LinkPlace s.heap.memStartBrk σ.lists p.addr (s.heap.word y) ∧
        LinkPlace s.heap.memStartBrk σ.lists p.addr (s.heap.word (y + 4)) := fun y hy hne ↦
    (hc.heap.linked.links_mem (hy.resolve_right hne)).imp Or.inl Or.inl
  obtain ⟨c, hcdef⟩ : ∃ c, joined (some q) { p with alloc := false }
    (takeFree (behind back σ.brk)) = c := ⟨_, rfl⟩
  obtain ⟨d, hddef⟩ : ∃ d, joined (some c) { p with alloc := false }
    (takeFree (behind back σ.brk)) = d := ⟨_, rfl⟩
  obtain ⟨hstart, hbrk, hword, hkept⟩ := ht.mmFree_twice hqfree rfl hwords henclosed hcdef hddef
    hret₁ hret₂
  -- the blocks after the first call
  let φ : Focus := ⟨start ++ [q], p, back, σ.lists⟩
  have hshape : φ.shape σ.brk = σ := by
    cases σ
    simpa [Focus.shape, φ] using hsplit.symm
  have hsettled := Focus.settled_free (hshape.symm ▸ hc.settled) hpalloc
  have hfree : φ.free.front = start ∧ φ.free.block = c ∧ φ.free.back = (splitFreeHead back).2 := by
    rw [← hcdef, takeFree_behind]
    simp [φ, Focus.free, Focus.coalesce, splitFreeLast, hqfree]
  obtain ⟨hfront, hblock, hrest⟩ := hfree
  have htiles := hsettled.proper.tiles
  have hcoalesced := hsettled.coalesced
  simp only [Focus.shape, hfront, hblock, hrest] at htiles hcoalesced
  have hrestMem : ∀ k ∈ (splitFreeHead back).2, k ∈ σ.blocks := fun k hk ↦ by
    have hmem : k ∈ back := by
      rw [splitFreeHead_eq back]
      exact List.mem_append_right _ hk
    rw [hsplit]
    exact List.mem_append_right _ (List.mem_cons_of_mem _ (List.mem_cons_of_mem _ hmem))
  generalize (splitFreeHead back).2 = rest at *
  obtain ⟨hcaddr, hcmod, hnc, -, -⟩ := ht.joined_bounds hcdef
  have hcfree : c.alloc = false := hcdef ▸ rfl
  have hcsize : c.size = q.size + p.size + (takeFree (behind back σ.brk)).elim 0 Block.size :=
    hcdef ▸ rfl
  have hdsize : d.size = c.size + p.size + (takeFree (behind back σ.brk)).elim 0 Block.size :=
    hddef ▸ rfl
  have hdaddr : d.addr = q.addr := (show d.addr = c.addr from hddef ▸ rfl).trans hcaddr
  have hqblock := hc.heap.geometry.block q hq
  have hpblock := hc.heap.geometry.block p hp
  -- they begin the blocks after the second call, but for the size of the merged one
  obtain ⟨middle, hleft, hmid, hbehind⟩ := tiles_append.mp htiles
  have hS : Tiles (firstBlock s.heap.memStartBrk) (start ++ [d]) (d.addr + d.size) :=
    tiles_append.mpr ⟨middle, hleft, by rw [hdaddr, ← hcaddr, hmid], rfl⟩
  have hblocks' := hs.heap.proper.tiles
  rw [show (Session.heap ⟨h₂, without s.live p.addr⟩).memStartBrk = s.heap.memStartBrk from hstart]
    at hblocks'
  have hbrk' : σ'.brk = σ.brk := hs.heap.brk_eq.symm.trans (hbrk.trans hc.heap.brk_eq)
  have hstartMem : ∀ b ∈ start, b ∈ σ.blocks := fun b hb ↦ by simp [hsplit, hb]
  have hbefore : ∀ b ∈ start, b.addr + b.size ≤ q.addr := fun b hb ↦ by
    have hsorted := hc.heap.proper.tiles.sorted
    rw [hsplit] at hsorted
    exact (List.pairwise_append.mp hsorted).2.2 b hb q List.mem_cons_self
  have hlow : ∀ b ∈ start ++ [d], b.addr < σ'.brk := fun b hb ↦ by
    rcases List.mem_append.mp hb with hb | hb
    · have hend := hbefore b hb
      omega
    · rw [List.mem_singleton.mp hb]
      omega
  have hsame : ∀ b ∈ start ++ [d], ∀ b' ∈ σ'.blocks, b.addr = b'.addr → b = b' := by
    intro b hb b' hb' heq
    have hread : h₂.word (b'.addr - 4) = b'.word := hs.heap.header b' hb'
    have hmod' := (hs.heap.proper.sized b' hb').1
    rw [← heq] at hread
    rcases List.mem_append.mp hb with hb | hb
    · have hblock := hc.heap.geometry.block b (hstartMem b hb)
      have hend := hbefore b hb
      rw [hkept _ (by omega) (by omega) (hc.heap.clear_tags hp (hstartMem b hb)).1,
        hc.heap.header b (hstartMem b hb)] at hread
      exact Block.eq_of_word heq hblock.2.1 hmod' hread
    · obtain rfl := List.mem_singleton.mp hb
      rw [hdaddr, hword] at hread
      exact Block.eq_of_word heq (by omega) hmod' hread
  obtain ⟨tail, htail⟩ := hS.starts hblocks' hlow hsame
  have hd : d ∈ σ'.blocks := by simp [htail]
  have hdhigh := (hs.heap.proper.tiles.bounds d hd).2
  cases rest with
  | nil =>
    have hend : c.addr + c.size = σ.brk := hbehind
    omega
  | cons k rest =>
    -- the block reaches over the one behind, whose pointer is still held
    have hkaddr : k.addr = c.addr + c.size := hbehind.1
    have hkalloc : k.alloc = true :=
      ((coalesced_insert.mp hcoalesced).2.2.resolve_left (by simp [hcfree])).2 k rfl
    obtain ⟨n, hk⟩ := hc.accounts.held k (hrestMem k List.mem_cons_self) hkalloc
    obtain ⟨b, hb, -, hbaddr, -⟩ :=
      hs.accounts.owner k.addr n (mem_without.mpr ⟨hk, by dsimp only; omega⟩)
    rcases hs.heap.geometry.trichotomy hb hd with rfl | hbd | hdb
    · omega
    · omega
    · omega

/-- After two calls of `mm_free` on a pointer that is held, whatever the blocks beside it, no shape
makes the heap and the other pointers sound. -/
theorem freed_at_once (hc : s.Consistent σ) {p n : Nat} (hp : (p, n) ∈ s.live) {h₁ h₂ : Heap}
    (hret₁ : Returns (mmFree p) s.heap fun _ t ↦ t = h₁)
    (hret₂ : Returns (mmFree p) h₁ fun _ t ↦ t = h₂) (σ' : Shape) :
    ¬ Session.Sound ⟨h₂, without s.live p⟩ σ' := by
  obtain ⟨φ, hfocus, rfl, halloc, -, hshape⟩ := hc.focus hp
  have hfront := splitFreeLast_eq φ.front
  rcases hq : (splitFreeLast φ.front).2 with _ | q
  · -- the freed block begins where the pointer is
    have hsettled : (φ.shape σ.brk).Settled s.heap.memStartBrk := hshape.symm ▸ hc.settled
    have haddr : φ.free.block.addr = φ.block.addr := by
      unfold Focus.free Focus.coalesce joined
      simp only [hq, true_and, Option.getD_none]
      split_ifs <;> rfl
    obtain ⟨-, t, -, ⟨-, hserves, -⟩, rfl⟩ := (hc.heap.mmFree hshape halloc).and hret₁
    have htwice := hserves.invariant.mmFree_twice (b := φ.free.block)
      (Focus.settled_free hsettled halloc).coalesced (by simp [Focus.shape])
      (Focus.coalesce_block rfl).1
    rw [haddr] at htwice
    obtain ⟨-, t', -, hnot, rfl⟩ := htwice.and hret₂
    exact fun hs ↦ hnot _ _ hs.heap.wellFormed
  · rw [hq, Option.toList_some] at hfront
    have hblocks : σ.blocks = φ.front ++ φ.block :: φ.back := congrArg Shape.blocks hshape.symm
    have hsplit : σ.blocks = (splitFreeLast φ.front).1 ++ q :: φ.block :: φ.back := by
      rw [hblocks]
      conv_lhs => rw [hfront]
      simp
    exact hc.freed_behind hsplit (splitFreeLast_free hq) halloc hret₁ hret₂ σ'

end Session.Consistent

/-! ### Pointers freed before -/

/-- A pointer has been passed to `mm_free`, and no request has been answered with it since. -/
def Freed (events : List Event) (p : Nat) : Prop :=
  ∃ before after, events = before ++ .request (.free p) null :: after ∧
    ∀ r, .request r p ∉ after

variable {base : Nat} {events : List Event} {s : Session}

/-- The client is given a pointer in the answer to a request, or has held it before. -/
theorem Session.Step.held {P : Session → Request → Prop} {s' : Session} {e : Event}
    (hstep : Session.Step P s e s') {p n : Nat} (hp : (p, n) ∈ s'.live) :
    (∃ r, e = .request r p ∧ ∀ q, r ≠ .free q) ∨
      ((∃ k, (p, k) ∈ s.live) ∧ ∀ answer, e ≠ .request (.free p) answer) := by
  cases hstep with
  | @request r answer h' hadmitted hP hserve =>
    cases r with
    | malloc size refused =>
      dsimp only [Request.account] at hp
      split_ifs at hp with hnull
      · exact Or.inr ⟨⟨n, hp⟩, by simp⟩
      · rcases List.mem_cons.mp hp with heq | hp
        · obtain ⟨rfl, rfl⟩ := Prod.mk.inj heq
          exact Or.inl ⟨_, rfl, by simp⟩
        · exact Or.inr ⟨⟨n, hp⟩, by simp⟩
    | free q =>
      obtain ⟨hp, hne⟩ := mem_without.mp hp
      refine Or.inr ⟨⟨n, hp⟩, fun answer heq ↦ ?_⟩
      simp only [Event.request.injEq, Request.free.injEq] at heq
      exact hne heq.1.symm
    | realloc q t =>
      dsimp only [Request.account] at hp
      split_ifs at hp with hnull
      · exact Or.inr ⟨⟨n, hp⟩, by simp⟩
      · rcases List.mem_cons.mp hp with heq | hp
        · obtain ⟨rfl, rfl⟩ := Prod.mk.inj heq
          exact Or.inl ⟨_, rfl, by simp⟩
        · exact Or.inr ⟨⟨n, (mem_without.mp hp).1⟩, by simp⟩
  | write v hq hlow hhigh => exact Or.inr ⟨⟨n, hp⟩, by simp⟩
  | ranges rs => exact Or.inr ⟨⟨n, hp⟩, by simp⟩

/-- The client does not hold a pointer that it has freed and has not been given since. -/
theorem Session.Reached.not_held (h : Session.Reached base events s) {p : Nat}
    (hp : Freed events p) (n : Nat) : (p, n) ∉ s.live := by
  induction h generalizing n with
  | start => simp [Freed] at hp
  | @step events s s' e hrun hstep ih =>
    intro hmem
    obtain ⟨before, after, heq, hafter⟩ := hp
    rcases snoc_eq_append_cons heq with ⟨rfl, rfl, rfl⟩ | ⟨rest, rfl, rfl⟩
    · rcases hstep.held hmem with ⟨r, hr, hfree⟩ | ⟨-, hfree⟩
      · simp only [Event.request.injEq] at hr
        exact hfree p hr.1.symm
      · exact hfree null rfl
    · rcases hstep.held hmem with ⟨r, rfl, -⟩ | ⟨⟨k, hk⟩, -⟩
      · exact hafter r (by simp)
      · exact ih ⟨before, rest, rfl, fun r hr ↦ hafter r (by simp [hr])⟩ k hk

/-- A pointer that has been freed and not been given out since is not held. When a block begins
there all the same, a further `mm_free` returns and leaves a heap that is not well formed. -/
theorem Session.Consistent.freed_again {σ : Shape} (hc : s.Consistent σ) {p : Nat}
    (hp : ∀ n, (p, n) ∉ s.live) {b : Block} (hb : b ∈ σ.blocks) (haddr : b.addr = p) :
    ∃ h', (Request.free p).serve s.heap = some (null, h') ∧
      ∀ blocks lists, ¬ WellFormed h' blocks lists := by
  subst haddr
  have hfree : b.alloc = false := by
    by_contra halloc
    obtain ⟨n, hn⟩ := hc.accounts.held b hb (by simpa using halloc)
    exact hp n hn
  have htwice := hc.heap.mmFree_twice hc.settled.coalesced hb hfree
  have hserve : Returns (Request.free b.addr).serve s.heap fun answer h' ↦
      answer = null ∧ ∀ blocks lists, ¬ WellFormed h' blocks lists := by
    rw [Request.serve, returns_bind]
    exact htwice.mono fun _ h' hnot ↦ (returns_pure _ _ _).mpr ⟨rfl, hnot⟩
  obtain ⟨answer, h', heq, rfl, hnot⟩ := hserve
  exact ⟨h', heq, hnot⟩

/-- `mm_free` as a request. -/
theorem returns_of_serve_free {p answer : Nat} {h h' : Heap}
    (hserve : (Request.free p).serve h = some (answer, h')) :
    Returns (mmFree p) h fun _ t ↦ t = h' := by
  have hret : Returns (Request.free p).serve h fun _ t ↦ t = h' := ⟨answer, h', hserve, rfl⟩
  rw [Request.serve, returns_bind] at hret
  refine hret.mono fun _ t ht ↦ ?_
  rwa [returns_pure] at ht

/-- In every session the heap is well formed, every allocation is served with which the break would not
pass the last address, and the extents of the pointers held are disjoint. A pointer that
has been freed and not been given out since is not held; where a block begins there, `mm_free` of it
leaves a heap that is not well formed. A pointer that is held can be freed; when it is freed again
at once and that call returns, no shape makes the heap and the other pointers sound. -/
theorem session_freed_again (h : Session.Reached base events s) :
    (∃ blocks lists, WellFormed s.heap blocks lists) ∧
    (∀ size refused, 0 < size → size < 2 ^ 31 →
      s.heap.memBrk + sbrkAmount (align (addWord size dsize)) < 2 ^ 32 →
      ∃ answer h', (Request.malloc size refused).serve s.heap = some (answer, h')) ∧
    (∀ p n q k, (p, n) ∈ s.live → (q, k) ∈ s.live → p ≠ q → p + n ≤ q ∨ q + k ≤ p) ∧
    (∀ p, Freed events p → (∀ n, (p, n) ∉ s.live) ∧
      ∀ blocks, Walk s.heap (firstBlock base) blocks → ∀ b ∈ blocks, b.addr = p →
        ∃ h', (Request.free p).serve s.heap = some (null, h') ∧
          ∀ blocks lists, ¬ WellFormed h' blocks lists) ∧
    ∀ p n, (p, n) ∈ s.live → ∃ h₁, (Request.free p).serve s.heap = some (null, h₁) ∧
      ∀ answer h₂, (Request.free p).serve h₁ = some (answer, h₂) →
        ∀ σ, ¬ Session.Sound ⟨h₂, without s.live p⟩ σ := by
  obtain ⟨rfl, σ, hc⟩ := h.consistent
  refine ⟨⟨σ.blocks, σ.lists, hc.heap.wellFormed⟩, fun size refused hpos hlt hroom ↦ ?_,
    fun p n q k hp hq hne ↦ hc.extents_disjoint hp hq hne, fun p hfreed ↦ ?_, fun p n hp ↦ ?_⟩
  · refine hc.served (r := .malloc size refused) ⟨hpos, hlt⟩ trivial ?_
    rintro _ _ ⟨⟩
    exact hroom
  · have hheld := h.not_held hfreed
    refine ⟨hheld, fun blocks hwalk b hb haddr ↦ ?_⟩
    obtain rfl := hwalk.unique hc.heap.walk.2
    exact hc.freed_again hheld hb haddr
  · obtain ⟨φ, hfocus, -⟩ := hc.focus hp
    obtain ⟨answer, h₁, hserve, rfl, -⟩ :=
      hc.serve_free hp (show σ.free p = some _ by rw [Shape.free, hfocus]; rfl)
    exact ⟨h₁, hserve, fun answer h₂ hagain σ' ↦ hc.freed_at_once hp
      (returns_of_serve_free hserve) (returns_of_serve_free hagain) σ'⟩

/-- Two blocks, of which the first is freed. -/
def freedTrace : List (Request × Nat) :=
  [(.malloc 600 false, 4368), (.malloc 600 false, 4976), (.free 4368, null)]

theorem freed_freedTrace : Freed (freedTrace.map fun x ↦ .request x.1 x.2) 4368 :=
  ⟨[.request (.malloc 600 false) 4368, .request (.malloc 600 false) 4976], [], rfl, by simp⟩

set_option maxRecDepth 4000 in
theorem exists_reached_freedTrace : ∃ s σ,
    Session.Reached 4096 (freedTrace.map fun x ↦ .request x.1 x.2) s ∧
      s.heap.memStartBrk = 4096 ∧ s.Consistent σ ∧ ∃ b ∈ σ.blocks, b.addr = 4368 := by
  have hfollows : ∃ b, Follows (Request.onAccount 4096) (emptyShape 4096, []) freedTrace b ∧
      ∃ c ∈ b.1.blocks, c.addr = 4368 :=
    ⟨_, ⟨_, rfl, _, rfl, _, rfl, rfl⟩, by decide⟩
  obtain ⟨b, hfollows, hblock⟩ := hfollows
  obtain ⟨s, h, hstart, -, hc⟩ :=
    Session.exists_reached (by decide) (by decide) (by decide) hfollows
  exact ⟨s, _, h, hstart, hc, hblock⟩

/-- The first block is freed a second time. -/
theorem session_freed_again_short : ∃ s h',
    Session.Reached 4096 (freedTrace.map fun x ↦ .request x.1 x.2) s ∧
      (∀ n, (4368, n) ∉ s.live) ∧ (Request.free 4368).serve s.heap = some (null, h') ∧
      ∀ blocks lists, ¬ WellFormed h' blocks lists := by
  obtain ⟨s, σ, h, hstart, hc, b, hb, haddr⟩ := exists_reached_freedTrace
  have hwalk := hc.heap.walk.2
  rw [hstart] at hwalk
  obtain ⟨hheld, hagain⟩ := (session_freed_again h).2.2.2.1 4368 freed_freedTrace
  obtain ⟨h', hserve, hnot⟩ := hagain σ.blocks hwalk b hb haddr
  exact ⟨s, h', h, hheld, hserve, hnot⟩

/-- A second `mm_free` of the first block is served, and the heap is not well formed after it. -/
theorem not_well_formed_freed_again : ∃ s h',
    Session.Reached 4096 (freedTrace.map fun x ↦ .request x.1 x.2) s ∧
      Freed (freedTrace.map fun x ↦ .request x.1 x.2) 4368 ∧
      (Request.free 4368).serve s.heap = some (null, h') ∧
      ¬ ∃ blocks lists, WellFormed h' blocks lists := by
  obtain ⟨s, σ, h, -, hc, b, hb, haddr⟩ := exists_reached_freedTrace
  obtain ⟨h', hserve, hnot⟩ := hc.freed_again (h.not_held freed_freedTrace) hb haddr
  exact ⟨s, h', h, freed_freedTrace, hserve, fun ⟨blocks, lists, hformed⟩ ↦
    hnot blocks lists hformed⟩

end SystemProgramming.MemoryLab
