import SystemProgramming.MemoryLab.Primitives

/-!
# `coalesce`

A view whose blocks tile the heap says everything `coalesce` reads. `View.coalesce` takes such a
view, opened at the block that is to be merged, to the view of `Focus.coalesce`.
-/

set_option autoImplicit false
set_option relaxedAutoImplicit false

namespace SystemProgramming.MemoryLab

open Library

/-! ### Room for a block -/

theorem Tiles.exists_first {blocks : List Block} {first last : Nat} (h : Tiles first blocks last)
    (hlt : first < last) : ∃ b ∈ blocks, b.addr = first := by
  cases blocks with
  | nil => exact absurd h (Nat.ne_of_lt hlt)
  | cons b blocks => exact ⟨b, List.mem_cons_self, h.1⟩

theorem Tiles.exists_last {blocks : List Block} {first last : Nat} (h : Tiles first blocks last)
    (hlt : first < last) : ∃ b ∈ blocks, b.addr + b.size = last := by
  rcases List.eq_nil_or_concat blocks with rfl | ⟨blocks, b, rfl⟩
  · exact absurd h (Nat.ne_of_lt hlt)
  · rw [List.concat_eq_append, tiles_append] at h
    obtain ⟨middle, -, hlast⟩ := h
    exact ⟨b, by simp, hlast.2⟩

/-- An address clear of every block of a tiling is clear of the whole. -/
theorem Tiles.clear {blocks : List Block} {first last x : Nat} (h : Tiles first blocks last)
    (hx : ∀ b ∈ blocks, x + 16 ≤ b.addr ∨ b.addr + b.size ≤ x) :
    x + 16 ≤ first ∨ last ≤ x ∨ blocks = [] := by
  induction blocks generalizing first with
  | nil => exact Or.inr (Or.inr rfl)
  | cons b blocks ih =>
    have hb := hx b List.mem_cons_self
    have haddr := h.1
    rcases ih h.2 (fun c hc ↦ hx c (List.mem_cons_of_mem _ hc)) with hlow | hhigh | hnil
    · omega
    · exact Or.inr (Or.inl hhigh)
    · subst hnil
      have hlast : b.addr + b.size = last := h.2
      omega

/-- Two blocks of a view are the same or lie one after the other. -/
theorem Geometry.trichotomy {base limit : Nat} {B : List Block} {L : Filing}
    (hg : Geometry base limit B L) {b c : Block} (hb : b ∈ B) (hc : c ∈ B) :
    b = c ∨ b.addr + b.size ≤ c.addr ∨ c.addr + c.size ≤ b.addr := by
  have hsorted := hg.sorted
  clear hg
  induction B with
  | nil => simp at hb
  | cons a B ih =>
    obtain ⟨hhead, htail⟩ := List.pairwise_cons.mp hsorted
    rcases List.mem_cons.mp hb with hba | hb <;> rcases List.mem_cons.mp hc with hca | hc
    · exact Or.inl (hba.trans hca.symm)
    · exact Or.inr (Or.inl (hba ▸ hhead c hc))
    · exact Or.inr (Or.inr (hca ▸ hhead b hb))
    · exact ih hb hc htail

/-- The start of a block may hold links. -/
theorem View.linkable_of_block {h : Heap} {limit : Nat} {epi : Bool} {B : List Block} {L : Filing}
    {K : Nat → Prop} {f : ByteMemory} (hv : View h limit epi B L K f) {b : Block} (hb : b ∈ B)
    (hK : ∀ a, K a → a < b.addr ∨ b.addr + 8 ≤ a) :
    firstBlock h.memStartBrk ≤ b.addr ∧ Linkable h.memStartBrk limit B K b.addr := by
  obtain ⟨hmod, -, hsize, hlow, hhigh⟩ := hv.geometry.block b hb
  refine ⟨hlow, hmod, Or.inr ⟨hlow, by omega, fun c hc ↦ ?_⟩, hK⟩
  have hblock := hv.geometry.block c hc
  rcases hv.geometry.trichotomy hb hc with rfl | hafter | hbefore
  · exact Or.inl rfl
  · omega
  · omega

/-- A block fits wherever it lies within blocks that are given up, once the addresses of those
blocks other than its own are no longer filed. -/
theorem Geometry.fits {base limit first last : Nat} {front middle back : List Block}
    {L L' : Filing} {K : Nat → Prop} (hg : Geometry base limit (front ++ middle ++ back) L)
    (htiles : Tiles first middle last) {b : Block}
    (hb : b.addr % 8 = 0 ∧ b.size % 8 = 0 ∧ 16 ≤ b.size) (hlow : first ≤ b.addr)
    (hhigh : b.addr + b.size ≤ last)
    (hL' : ∀ x, Filed L' x → x = b.addr ∨ (Filed L x ∧ ∀ c ∈ middle, x ≠ c.addr))
    (hK : ∀ a, K a → (a < b.addr - 4 ∨ b.addr ≤ a) ∧
      (a < b.addr + b.size - 8 ∨ b.addr + b.size - 4 ≤ a)) :
    Fits base limit front b back L' K := by
  obtain ⟨head, hhead, hheadAddr⟩ := htiles.exists_first (by omega)
  obtain ⟨final, hfinal, hfinalEnd⟩ := htiles.exists_last (by omega)
  have hmiddle : ∀ c ∈ middle, c ∈ front ++ middle ++ back := fun c hc ↦
    List.mem_append_left _ (List.mem_append_right _ hc)
  have hheadBlock := hg.block head (hmiddle head hhead)
  have hfinalBlock := hg.block final (hmiddle final hfinal)
  obtain ⟨hleft, -, hright⟩ := List.pairwise_append.mp hg.sorted
  obtain ⟨-, -, hcross⟩ := List.pairwise_append.mp hleft
  refine ⟨⟨hb.1, hb.2.1, hb.2.2, by omega, by omega⟩, fun a ha ↦ ?_, fun a ha ↦ ?_, fun x hx ↦ ?_,
    hK⟩
  · have hbefore := hcross a ha head hhead
    omega
  · have hafter := hright final (List.mem_append_right _ hfinal) a ha
    omega
  · rcases hL' x hx with hown | ⟨hfiled, hne⟩
    · exact Or.inl hown
    · have hclear := htiles.clear fun c hc ↦
        (hg.apart x hfiled c (hmiddle c hc)).resolve_left (hne c hc)
      rcases hclear with hbelow | habove | hnil
      · omega
      · omega
      · simp [hnil] at hhead

/-- A further block before a block that fits. -/
theorem Fits.append_front {base limit : Nat} {front back : List Block} {a b : Block} {L : Filing}
    {K : Nat → Prop} (h : Fits base limit front b back L K) (ha : a.addr + a.size ≤ b.addr) :
    Fits base limit (front ++ [a]) b back L K where
  block := h.block
  front := fun c hc ↦ by
    rcases List.mem_append.mp hc with hc | hc
    · exact h.front c hc
    · rw [List.mem_singleton.mp hc]
      exact ha
  back := h.back
  node := h.node
  kept := h.kept

namespace View

variable {h : Heap} {limit : Nat} {epi : Bool} {K : Nat → Prop} {f : ByteMemory}
  {front back : List Block} {b : Block} {L : Filing}

/-! ### What `coalesce` reads -/

/-- The allocated bit in the footer before a block of the tiling. -/
theorem prevAlloc (hv : View h limit epi (front ++ b :: back) L K f)
    (htiles : Tiles (firstBlock h.memStartBrk) (front ++ b :: back) limit)
    (Q : Nat → Heap → Prop) :
    Returns (prevBlkp b.addr) h (fun p s ↦ Returns (ftrp p) s fun a s ↦
      Returns (getAlloc a) s Q) ↔ Q (if (splitFreeLast front).2 = none then 1 else 0) h := by
  obtain ⟨middle, hfront, hrest⟩ := tiles_append.mp htiles
  have haddr : b.addr = middle := hrest.1
  rcases List.eq_nil_or_concat front with rfl | ⟨front, q, rfl⟩
  · have hfirst : b.addr = firstBlock h.memStartBrk := by
      rw [haddr]
      exact hfront.symm
    rw [hfirst, hv.prevBlkp_first, hv.ftrp_prologue, hv.getAlloc_prologue (Or.inr rfl)]
    rfl
  · rw [List.concat_eq_append, tiles_append] at hfront
    obtain ⟨start, -, hq⟩ := hfront
    have hend : q.addr + q.size = b.addr := by
      rw [haddr]
      exact hq.2
    have hmem : q ∈ front.concat q ++ b :: back := by simp
    rw [← hend, hv.prevBlkp_block hmem, hv.ftrp_block hmem, hv.getAlloc_footer hmem]
    cases hqa : q.alloc <;> simp [splitFreeLast, hqa]

/-- The allocated bit in the header behind a block of the tiling. -/
theorem nextAlloc (hv : View h limit true (front ++ b :: back) L K f)
    (htiles : Tiles (firstBlock h.memStartBrk) (front ++ b :: back) limit)
    (Q : Nat → Heap → Prop) :
    Returns (nextBlkp b.addr) h (fun n s ↦ Returns (getAlloc (hdrp n)) s Q) ↔
      Q (if (splitFreeHead back).1 = none then 1 else 0) h := by
  obtain ⟨middle, -, hrest⟩ := tiles_append.mp htiles
  have hb : b ∈ front ++ b :: back := by simp
  rw [hv.nextBlkp_block hb]
  cases back with
  | nil =>
    have hend : b.addr + b.size = limit := hrest.2
    rw [hend, hv.getAlloc_epilogue]
    rfl
  | cons n back =>
    have hend : b.addr + b.size = n.addr := hrest.2.1.symm
    have hmem : n ∈ front ++ b :: n :: back := by simp
    rw [hend, hv.getAlloc_hdrp hmem]
    cases hna : n.alloc <;> simp [splitFreeHead, hna]

/-! ### Taking up the neighbours -/

/-- The next block leaves its list, and its size is added. -/
theorem absorbNext {n : Block} {size : Nat}
    (hv : View h limit epi (front ++ b :: n :: back) L K f) (hend : b.addr + b.size = n.addr)
    (hfiled : Filed L n.addr) (hsize : size + n.size < 2 ^ 32) {Q : Nat → Heap → Prop}
    (hQ : ∀ m, View (h.store m) limit epi (front ++ b :: n :: back) (unfile L n.addr) K f →
      Q (size + n.size) (h.store m)) :
    Returns (MemoryLab.absorbNext b.addr size) h Q := by
  have hb : b ∈ front ++ b :: n :: back := by simp
  have hn : n ∈ front ++ b :: n :: back := by simp
  simp only [MemoryLab.absorbNext, returns_bind]
  rw [hv.nextBlkp_block hb, hend, hv.getSize_hdrp hn]
  refine hv.removeFromList hfiled fun m hm ↦ ?_
  rw [returns_pure, addWord_of_lt hsize]
  exact hQ m hm

/-- The previous block leaves its list, and its size is added. -/
theorem absorbPrev {B : List Block} {q : Block} (hv : View h limit epi B L K f) (size : Nat)
    (hq : q ∈ B) (hfiled : Filed L q.addr) (hsize : size + q.size < 2 ^ 32)
    {Q : Nat × Nat → Heap → Prop}
    (hQ : ∀ m, View (h.store m) limit epi B (unfile L q.addr) K f →
      Q (q.addr, size + q.size) (h.store m)) :
    Returns (MemoryLab.absorbPrev (q.addr + q.size) size) h Q := by
  simp only [MemoryLab.absorbPrev, returns_bind]
  rw [hv.prevBlkp_block hq]
  refine hv.removeFromList hfiled fun m hm ↦ ?_
  rw [hm.getSize_hdrp hq, returns_pure, addWord_of_lt hsize]
  exact hQ m hm

/-- A free block is written over blocks that are on no list, and is filed by its size. -/
theorem fileMerged {middle : List Block} {first last : Nat} {B : List Block}
    (hv : View h limit epi B L K f) (hB : B = front ++ middle ++ back)
    (htiles : Tiles first middle last) (hmod : first % 8 = 0)
    (hb : b.addr = first ∧ b.addr + b.size = last) (hsize : b.size % 8 = 0 ∧ 16 ≤ b.size)
    (htag : b.tag = freeTag) (hunfiled : ∀ c ∈ middle, ¬ Filed L c.addr)
    (hK : ∀ a, K a → (a < b.addr - 4 ∨ b.addr + 8 ≤ a) ∧
      (a < b.addr + b.size - 8 ∨ b.addr + b.size - 4 ≤ a)) {Q : Unit → Heap → Prop}
    (hQ : ∀ m, View (h.store m) limit epi (front ++ b :: back)
      (fileUnder L (getSizeClass b.size) b.addr) K f → Q () (h.store m)) :
    Returns (MemoryLab.setBoundaryTag b.addr b.size freeTag) h fun _ s ↦
      Returns (MemoryLab.insertBlock b.addr b.size) s Q := by
  subst hB
  have hfits : Fits h.memStartBrk limit front b back L K := by
    refine hv.geometry.fits htiles ⟨by omega, hsize⟩ (by omega) (by omega) (fun x hx ↦ ?_)
      fun a ha ↦ ?_
    · exact Or.inr ⟨hx, fun c hc heq ↦ hunfiled c hc (heq ▸ hx)⟩
    · have hspare := hK a ha
      omega
  obtain ⟨head, hhead, hheadAddr⟩ := htiles.exists_first (by omega)
  refine (hv.forget middle).setBoundaryTag hfits htag fun m hm ↦ ?_
  have hmem : b ∈ front ++ b :: back := by simp
  obtain ⟨hlow, hlinkable⟩ := hm.linkable_of_block hmem fun a ha ↦ by
    have hspare := hK a ha
    have hnone := hm.tagged.low a ha
    have hblock := hm.geometry.block b hmem
    omega
  refine hm.insertBlock b.size hlow hlinkable ?_ hQ
  have hne := hunfiled head hhead
  rwa [hheadAddr, ← hb.1] at hne

/-! ### The function -/

/-- `coalesce` takes a view opened at a free block to that of the merged block. The bytes that are
to be kept may lie in the blocks that are merged, where no tag and no link is written. -/
theorem coalesce {φ : Focus} (hv : View h limit true (φ.front ++ φ.block :: φ.back) φ.lists K f)
    (htiles : Tiles (firstBlock h.memStartBrk) (φ.front ++ φ.block :: φ.back) limit)
    (hfiled : ∀ b ∈ φ.front ++ φ.block :: φ.back, b.alloc = false → Filed φ.lists b.addr)
    (hfree : φ.block.alloc = false)
    (hK : ∀ a, K a → (a < φ.coalesce.block.addr - 4 ∨ φ.coalesce.block.addr ≤ a) ∧
      (a < φ.coalesce.block.addr + φ.coalesce.block.size - 8 ∨
        φ.coalesce.block.addr + φ.coalesce.block.size - 4 ≤ a))
    {Q : Nat → Heap → Prop}
    (hQ : ∀ m, View (h.store m) limit true
      (φ.coalesce.front ++ φ.coalesce.block :: φ.coalesce.back) φ.coalesce.lists K f →
      Q φ.coalesce.block.addr (h.store m)) :
    Returns (MemoryLab.coalesce φ.block.addr) h Q := by
  obtain ⟨front, b, back, L⟩ := φ
  dsimp only at hv htiles hfiled hfree ⊢
  have hb : b ∈ front ++ b :: back := by simp
  have hbfiled := hfiled b hb hfree
  have hlt := hv.geometry.limit_lt
  simp only [MemoryLab.coalesce, returns_bind]
  rw [hv.prevAlloc htiles, hv.nextAlloc htiles, hv.getSize_hdrp hb]
  have hfront := splitFreeLast_eq front
  have hback := splitFreeHead_eq back
  rcases hq : (splitFreeLast front).2 with _ | q <;> rcases hn : (splitFreeHead back).1 with _ | n
  · -- both neighbours are allocated
    simp only [Focus.coalesce, hq, hn, and_self, if_true] at hQ
    simp only [if_true, ne_eq, one_ne_zero, not_false_eq_true, and_self, returns_pure]
    exact hQ h.bytes hv
  all_goals
    simp only [Focus.coalesce, hq, hn, reduceCtorEq, and_false, false_and, and_self, if_false,
      joined, unfileOption, Option.getD_none, Option.getD_some, Option.elim_none,
      Option.elim_some, Nat.add_zero, Nat.zero_add] at hK hQ
    simp only [if_true, reduceCtorEq, if_false, ne_eq, one_ne_zero, not_false_eq_true,
      not_true_eq_false, and_false, false_and, and_self, returns_bind, returns_pure]
  · -- the next block is free
    have hnfree := splitFreeHead_free hn
    rw [hn, Option.toList_some, List.singleton_append] at hback
    rw [hq, Option.toList_none, List.append_nil] at hfront
    rw [← hfront] at hQ
    generalize (splitFreeHead back).2 = rest at *
    subst hback
    obtain ⟨middle, -, hbaddr, hnaddr, -⟩ := tiles_append.mp htiles
    have hnmem : n ∈ front ++ b :: n :: rest := by simp
    have hbblock := hv.geometry.block b hb
    have hnblock := hv.geometry.block n hnmem
    refine hv.removeFromList hbfiled fun m₁ hm₁ ↦ ?_
    have hnfiled : Filed (unfile L b.addr) n.addr :=
      (filed_unfile hv.simple).mpr ⟨hfiled n hnmem hnfree, by omega⟩
    refine hm₁.absorbNext hnaddr.symm hnfiled (by omega) fun m₂ hm₂ ↦ ?_
    refine hm₂.fileMerged (b := ⟨b.addr, b.size + n.size, false, false⟩)
      (by simp) (show Tiles b.addr [b, n] (n.addr + n.size) from ⟨rfl, hnaddr, rfl⟩) hbblock.1
      ⟨rfl, by dsimp only; omega⟩ ⟨by dsimp only; omega, by dsimp only; omega⟩ rfl
      (fun c hc ↦ ?_) (fun a ha ↦ ?_) fun m₃ hm₃ ↦ hQ m₃ hm₃
    · simp only [filed_unfile hm₁.simple, filed_unfile hv.simple]
      rcases List.mem_pair.mp hc with rfl | rfl <;> simp
    · have hspare := hv.spared a ha _ hbfiled
      have hkept := hK a ha
      dsimp only
      omega
  · -- the previous block is free
    have hqfree := splitFreeLast_free hq
    rw [hq, Option.toList_some] at hfront
    rw [hn, Option.toList_none, List.nil_append] at hback
    rw [← hback] at hQ
    generalize (splitFreeLast front).1 = start at *
    subst hfront
    obtain ⟨middle, hleft, hbaddr, -⟩ := tiles_append.mp htiles
    obtain ⟨first, -, hqaddr, hqend⟩ := tiles_append.mp hleft
    have hqmem : q ∈ start ++ [q] ++ b :: back := by simp
    have hbblock := hv.geometry.block b hb
    have hqblock := hv.geometry.block q hqmem
    have hqb : q.addr + q.size = b.addr := by rw [hqend, hbaddr]
    refine hv.removeFromList hbfiled fun m₁ hm₁ ↦ ?_
    have hqfiled : Filed (unfile L b.addr) q.addr :=
      (filed_unfile hv.simple).mpr ⟨hfiled q hqmem hqfree, by omega⟩
    rw [← hqb]
    refine hm₁.absorbPrev _ hqmem hqfiled (by omega) fun m₂ hm₂ ↦ ?_
    rw [Nat.add_comm b.size q.size]
    refine hm₂.fileMerged (b := ⟨q.addr, q.size + b.size, false, false⟩)
      (by simp) (show Tiles q.addr [q, b] (b.addr + b.size) from ⟨rfl, hqb.symm, rfl⟩) hqblock.1
      ⟨rfl, by dsimp only; omega⟩ ⟨by dsimp only; omega, by dsimp only; omega⟩ rfl
      (fun c hc ↦ ?_) (fun a ha ↦ ?_) fun m₃ hm₃ ↦ hQ m₃ hm₃
    · simp only [filed_unfile hm₁.simple, filed_unfile hv.simple]
      rcases List.mem_pair.mp hc with rfl | rfl <;> simp
    · have hspare := hv.spared a ha _ (hfiled q hqmem hqfree)
      have hkept := hK a ha
      dsimp only
      omega
  · -- both neighbours are free
    have hqfree := splitFreeLast_free hq
    have hnfree := splitFreeHead_free hn
    rw [hq, Option.toList_some] at hfront
    rw [hn, Option.toList_some, List.singleton_append] at hback
    generalize (splitFreeLast front).1 = start at *
    generalize (splitFreeHead back).2 = rest at *
    subst hfront hback
    obtain ⟨middle, hleft, hbaddr, hnaddr, -⟩ := tiles_append.mp htiles
    obtain ⟨first, -, hqaddr, hqend⟩ := tiles_append.mp hleft
    have hqmem : q ∈ start ++ [q] ++ b :: n :: rest := by simp
    have hnmem : n ∈ start ++ [q] ++ b :: n :: rest := by simp
    have hbblock := hv.geometry.block b hb
    have hqblock := hv.geometry.block q hqmem
    have hnblock := hv.geometry.block n hnmem
    have hqb : q.addr + q.size = b.addr := by rw [hqend, hbaddr]
    refine hv.removeFromList hbfiled fun m₁ hm₁ ↦ ?_
    have hnfiled : Filed (unfile L b.addr) n.addr :=
      (filed_unfile hv.simple).mpr ⟨hfiled n hnmem hnfree, by omega⟩
    refine hm₁.absorbNext hnaddr.symm hnfiled (by omega) fun m₂ hm₂ ↦ ?_
    have hqfiled : Filed (unfile (unfile L b.addr) n.addr) q.addr := (filed_unfile hm₁.simple).mpr
      ⟨(filed_unfile hv.simple).mpr ⟨hfiled q hqmem hqfree, by omega⟩, by omega⟩
    rw [← hqb]
    refine hm₂.absorbPrev _ hqmem hqfiled (by omega) fun m₃ hm₃ ↦ ?_
    rw [show b.size + n.size + q.size = q.size + b.size + n.size by omega]
    refine hm₃.fileMerged (b := ⟨q.addr, q.size + b.size + n.size, false, false⟩)
      (by simp) (show Tiles q.addr [q, b, n] (n.addr + n.size) from ⟨rfl, hqb.symm, hnaddr, rfl⟩)
      hqblock.1
      ⟨rfl, by dsimp only; omega⟩ ⟨by dsimp only; omega, by dsimp only; omega⟩ rfl
      (fun c hc ↦ ?_) (fun a ha ↦ ?_) fun m₄ hm₄ ↦ hQ m₄ hm₄
    · simp only [filed_unfile hm₂.simple, filed_unfile hm₁.simple, filed_unfile hv.simple]
      simp only [List.mem_cons, List.not_mem_nil, or_false] at hc
      rcases hc with rfl | rfl | rfl <;> simp
    · have hspare := hv.spared a ha _ (hfiled q hqmem hqfree)
      have hkept := hK a ha
      dsimp only
      omega

end View

end SystemProgramming.MemoryLab
