import SystemProgramming.MemoryLab.Coalescing
import SystemProgramming.MemoryLab.Shapes

/-!
# `place`, `extend_heap` and `extend_heap_bulk`

`View.place` takes a view opened at a free block to that of `Focus.place`, in each of the three
branches of the source: a bulk block whose rest stays on the list, a block whose rest is filed by
its size, and a block that is used up. `View.extendHeap` and `View.extendHeapBulk` do the same for
the two extensions of the heap.
-/

set_option autoImplicit false
set_option relaxedAutoImplicit false

namespace SystemProgramming.MemoryLab

open Library

/-- The start of a block that fits may hold links. -/
theorem Fits.linkable {base limit : Nat} {front back : List Block} {b : Block} {L : Filing}
    {K : Nat → Prop} (h : Fits base limit front b back L K)
    (hK : ∀ a, K a → a < b.addr ∨ b.addr + 8 ≤ a) :
    Linkable base limit (front ++ back) K b.addr := by
  obtain ⟨hmod, -, hsize, hlow, hhigh⟩ := h.block
  refine ⟨hmod, Or.inr ⟨hlow, by omega, fun c hc ↦ ?_⟩, hK⟩
  rcases List.mem_append.mp hc with hc | hc
  · exact Or.inr (Or.inr (h.front c hc))
  · have hafter := h.back c hc
    omega

/-- Eight small blocks do not wrap. -/
theorem bulksize_eq {asize : Nat} (hsmall : asize ≤ chunkSize) :
    bulkCreateNum * asize % 2 ^ 32 = 8 * asize := by
  unfold chunkSize at hsmall
  unfold bulkCreateNum
  omega

namespace View

variable {h : Heap} {limit : Nat} {epi : Bool} {K : Nat → Prop} {f : ByteMemory}
  {front back : List Block} {b : Block} {L : Filing}

/-- A block may be written into the place of another, once no address within that place is filed
but its own. -/
theorem fits_inside (hv : View h limit epi (front ++ b :: back) L K f) {c : Block} {L' : Filing}
    (hc : c.addr % 8 = 0 ∧ c.size % 8 = 0 ∧ 16 ≤ c.size) (hlow : b.addr ≤ c.addr)
    (hhigh : c.addr + c.size ≤ b.addr + b.size)
    (hL' : ∀ x, Filed L' x → x = c.addr ∨ (Filed L x ∧ x ≠ b.addr))
    (hK : ∀ a, K a → (a < c.addr - 4 ∨ c.addr ≤ a) ∧
      (a < c.addr + c.size - 8 ∨ c.addr + c.size - 4 ≤ a)) :
    Fits h.memStartBrk limit front c back L' K := by
  have hmiddle : Geometry h.memStartBrk limit (front ++ [b] ++ back) L := by
    simpa using hv.geometry
  refine hmiddle.fits (show Tiles b.addr [b] (b.addr + b.size) from ⟨rfl, rfl⟩) hc hlow hhigh
    (fun x hx ↦ ?_) hK
  refine (hL' x hx).imp_right fun hfiled ↦ ⟨hfiled.1, fun d hd ↦ ?_⟩
  rw [List.mem_singleton.mp hd]
  exact hfiled.2

/-- The same, when all bytes that are to be kept are clear of that place. -/
theorem fits_within (hv : View h limit epi (front ++ b :: back) L K f) {c : Block} {L' : Filing}
    (hc : c.addr % 8 = 0 ∧ c.size % 8 = 0 ∧ 16 ≤ c.size) (hlow : b.addr ≤ c.addr)
    (hhigh : c.addr + c.size ≤ b.addr + b.size)
    (hL' : ∀ x, Filed L' x → x = c.addr ∨ (Filed L x ∧ x ≠ b.addr))
    (hK : ∀ a, K a → a < b.addr - 4 ∨ b.addr + b.size - 4 ≤ a) :
    Fits h.memStartBrk limit front c back L' K :=
  hv.fits_inside hc hlow hhigh hL' fun a ha ↦ by
    have hspare := hK a ha
    omega

theorem forget_block (hv : View h limit epi (front ++ b :: back) L K f) :
    View h limit epi (front ++ back) L K f :=
  forget [b] (by simpa using hv)

/-- `place`. -/
theorem place {φ : Focus} {asize cls : Nat}
    (hv : View h limit true (φ.front ++ φ.block :: φ.back) φ.lists K f)
    (hfiled : Filed φ.lists φ.block.addr)
    (hasize : asize % 8 = 0 ∧ 16 ≤ asize) (hfits : asize ≤ φ.block.size)
    (hK : ∀ a, K a → a < φ.block.addr - 4 ∨ φ.block.addr + φ.block.size - 4 ≤ a)
    {Q : Unit → Heap → Prop}
    (hQ : ∀ m, View (h.store m) limit true (φ.place asize cls limit).blocks
      (φ.place asize cls limit).lists K f → Q () (h.store m)) :
    Returns (MemoryLab.place φ.block.addr asize cls) h Q := by
  obtain ⟨front, b, back, L⟩ := φ
  dsimp only at hv hfiled hfits hK ⊢
  have hb : b ∈ front ++ b :: back := by simp
  obtain ⟨hmod, hsizeMod, hsize, hlow, hhigh⟩ := hv.geometry.block b hb
  have hlt := hv.geometry.limit_lt
  have hrest : subWord b.size asize = b.size - asize := subWord_of_le hfits (by omega)
  simp only [MemoryLab.place, returns_bind]
  rw [hv.getSize_hdrp hb, hrest, returns_ite]
  simp only [Focus.place] at hQ
  have hownL : ∀ x, Filed L x → x = b.addr ∨ (Filed L x ∧ x ≠ b.addr) := fun x hx ↦ by
    by_cases hxb : x = b.addr
    · exact Or.inl hxb
    · exact Or.inr ⟨hx, hxb⟩
  by_cases hsplit : 16 ≤ b.size - asize
  · rw [if_pos (show minBlockSize ≤ b.size - asize from hsplit), returns_bind,
      hv.getIsbulk_hdrp hb, returns_ite]
    rw [if_pos hsplit] at hQ
    have hinside : ¬ Filed L (b.addr + asize) := fun hx ↦ by
      have happart := hv.geometry.apart _ hx b hb
      omega
    have hlinkK : ∀ a, K a → a < b.addr + asize ∨ b.addr + asize + 8 ≤ a := fun a ha ↦ by
      have hspare := hK a ha
      omega
    by_cases hbulk : b.bulk = true ∧ getLowerBound cls < b.size - asize
    · -- the rest of a bulk block stays on the list
      rw [if_pos hbulk] at hQ
      rw [if_pos (by rw [if_pos hbulk.1]; exact ⟨by decide, hbulk.2⟩)]
      simp only [returns_bind]
      have hfits₁ : Fits h.memStartBrk limit front ⟨b.addr, asize, true, true⟩ back L K :=
        hv.fits_within ⟨hmod, hasize⟩ (Nat.le_refl _) (by dsimp only; omega) hownL hK
      have hfits₂ : Fits h.memStartBrk limit (front ++ [⟨b.addr, asize, true, true⟩])
          ⟨b.addr + asize, b.size - asize, false, true⟩ back (refile L b.addr (b.addr + asize))
          K :=
        (hv.fits_within ⟨by dsimp only; omega, by dsimp only; omega, hsplit⟩
          (by dsimp only; omega) (by dsimp only; omega)
          (fun x hx ↦ (filed_refile hfiled).mp hx) hK).append_front (Nat.le_refl _)
      refine hv.forget_block.setBoundaryTag hfits₁
        (by simp [Block.tag, bulkTag, allocTag]) fun m₁ hm₁ ↦ ?_
      have hlinkable := hfits₂.linkable hlinkK
      rw [List.append_assoc, List.singleton_append] at hlinkable
      refine hm₁.relinkRest (b := ⟨b.addr, asize, true, true⟩) (by simp) hfiled
        (hlow.trans (Nat.le_add_right _ _)) hlinkable hinside fun m₂ hm₂ ↦ ?_
      rw [hm₂.nextBlkp_block (b := ⟨b.addr, asize, true, true⟩) (by simp)]
      rw [← List.singleton_append, ← List.append_assoc] at hm₂
      refine hm₂.setBoundaryTag hfits₂ (by simp [Block.tag, bulkTag, freeTag]) fun m₃ hm₃ ↦ hQ m₃ ?_
      simpa using hm₃
    · -- the rest is filed by its size
      rw [if_neg hbulk] at hQ
      rw [if_neg (fun hcond ↦ hbulk ⟨by by_contra hb; simp [hb] at hcond, hcond.2⟩)]
      simp only [returns_bind]
      refine hv.removeFromList hfiled fun m₁ hm₁ ↦ ?_
      have hunfiled : ∀ x, Filed (unfile L b.addr) x → Filed (unfile L b.addr) x ∧ x ≠ b.addr :=
        fun x hx ↦ ⟨hx, ((filed_unfile hv.simple).mp hx).2⟩
      have hfits₁ : Fits h.memStartBrk limit front ⟨b.addr, asize, true, false⟩ back
          (unfile L b.addr) K :=
        hm₁.fits_within ⟨hmod, hasize⟩ (Nat.le_refl _) (by dsimp only; omega)
          (fun x hx ↦ Or.inr (hunfiled x hx)) hK
      have hfits₂ : Fits h.memStartBrk limit (front ++ [⟨b.addr, asize, true, false⟩])
          ⟨b.addr + asize, b.size - asize, false, false⟩ back (unfile L b.addr) K :=
        (hm₁.fits_within ⟨by dsimp only; omega, by dsimp only; omega, hsplit⟩
          (by dsimp only; omega) (by dsimp only; omega)
          (fun x hx ↦ Or.inr (hunfiled x hx)) hK).append_front (Nat.le_refl _)
      refine hm₁.forget_block.setBoundaryTag hfits₁ (by rfl) fun m₂ hm₂ ↦ ?_
      rw [hm₂.nextBlkp_block (b := ⟨b.addr, asize, true, false⟩) (by simp)]
      rw [← List.singleton_append, ← List.append_assoc] at hm₂
      refine hm₂.setBoundaryTag hfits₂ (by rfl) fun m₃ hm₃ ↦ ?_
      obtain ⟨hlow₃, hlinkable⟩ := hm₃.linkable_of_block
        (b := ⟨b.addr + asize, b.size - asize, false, false⟩) (by simp) hlinkK
      refine hm₃.insertBlock _ hlow₃ hlinkable (fun hx ↦ hinside ((filed_unfile hv.simple).mp hx).1)
        fun m₄ hm₄ ↦ hQ m₄ ?_
      simpa using hm₄
  · -- the block is used up
    rw [if_neg (show ¬ minBlockSize ≤ b.size - asize from hsplit), returns_bind]
    rw [if_neg hsplit] at hQ
    refine hv.removeFromList hfiled fun m₁ hm₁ ↦ ?_
    have hfits : Fits h.memStartBrk limit front { b with alloc := true, bulk := false } back
        (unfile L b.addr) K :=
      hm₁.fits_within ⟨hmod, hsizeMod, hsize⟩ (Nat.le_refl _) (Nat.le_refl _)
        (fun x hx ↦ Or.inr ⟨hx, ((filed_unfile hv.simple).mp hx).2⟩) hK
    exact hm₁.forget_block.setBoundaryTag hfits (by rfl) fun m₂ hm₂ ↦ hQ m₂ hm₂

/-! ### Extending the heap -/

/-- The tags of the last block of a tiling, or of the prologue, as `extend_heap_bulk` reads them. -/
theorem lastTags {blocks : List Block} {brk : Nat} (hv : View h limit epi blocks L K f)
    (htiles : Tiles (firstBlock h.memStartBrk) blocks brk) (Q : Nat → Nat → Heap → Prop) :
    Returns (prevBlkp brk) h (fun p s ↦ Returns (getAlloc (hdrp p)) s fun a s ↦
      Returns (getIsbulk (hdrp p)) s (Q a)) ↔
      blocks.getLast?.elim (Q 1 0 h) fun q ↦
        Q (if q.alloc then 1 else 0) (if q.bulk then 2 else 0) h := by
  rcases List.eq_nil_or_concat blocks with rfl | ⟨front, q, rfl⟩
  · obtain rfl : firstBlock h.memStartBrk = brk := htiles
    rw [hv.prevBlkp_first, hv.hdrp_prologue, hv.getAlloc_prologue (Or.inl rfl),
      hv.getIsbulk_prologue (Or.inl rfl)]
    rfl
  · rw [List.concat_eq_append, tiles_append] at htiles
    obtain ⟨start, -, hq⟩ := htiles
    have hmem : q ∈ front.concat q := by simp
    rw [← hq.2, hv.prevBlkp_block hmem, hv.getAlloc_hdrp hmem, hv.getIsbulk_hdrp hmem]
    simp

/-- A block behind the old end of the heap fits. -/
theorem fits_end {σ : Shape} (hv : View h σ.brk epi σ.blocks L K f)
    (hproper : σ.Proper h.memStartBrk) {size : Nat} (hsize : size % 8 = 0 ∧ 16 ≤ size)
    {bulk : Bool} (hK : ∀ a, K a → a < σ.brk - 4) :
    Fits h.memStartBrk (σ.brk + size) σ.blocks ⟨σ.brk, size, false, bulk⟩ [] L K where
  block := ⟨hv.geometry.limit_mod, hsize.1, hsize.2, hv.geometry.first_le, Nat.le_refl _⟩
  front := fun a ha ↦ (hproper.tiles.bounds a ha).2
  back := by simp
  node := fun x hx ↦ Or.inr (Or.inl (hv.geometry.node x hx).2.2)
  kept := fun a ha ↦ by
    have hspare := hK a ha
    dsimp only
    omega

/-- The last block of a grown heap is tagged, the epilogue is written, and the block is filed. -/
theorem fileLast {asize tag : Nat} (hv : View h limit false front L K f)
    (hfits : Fits h.memStartBrk limit front b [] L K) (hend : b.addr + b.size = limit)
    (htag : b.tag = tag) (hb : ¬ Filed L b.addr) (hK : ∀ a, K a → a < b.addr - 4)
    {Q : Unit → Heap → Prop}
    (hQ : ∀ m, View (h.store m) limit true (front ++ [b])
      (fileUnder L (getSizeClass asize) b.addr) K f → Q () (h.store m)) :
    Returns (MemoryLab.setBoundaryTag b.addr b.size tag) h fun _ s ↦
      Returns (nextBlkp b.addr) s fun n s ↦
        Returns (putWordAt (hdrp n) (pack 0 allocTag)) s fun _ s ↦
          Returns (MemoryLab.insertBlock b.addr asize) s Q := by
  obtain ⟨-, -, hsize, -, -⟩ := hfits.block
  rw [← List.append_nil front] at hv
  refine hv.setBoundaryTag hfits htag fun m₁ hm₁ ↦ ?_
  rw [hm₁.nextBlkp_block (b := b) (by simp), hend]
  refine hm₁.putEpilogue (fun a ha ↦ ?_) fun m₂ hm₂ ↦ ?_
  · have hspare := hK a ha
    omega
  obtain ⟨hlow, hlinkable⟩ := hm₂.linkable_of_block (b := b) (by simp) fun a ha ↦ by
    have hspare := hK a ha
    omega
  exact hm₂.insertBlock asize hlow hlinkable hb hQ

/-- `extend_heap`, when `mem_sbrk` grants the request. -/
theorem extendHeap {σ : Shape} {asize : Nat} (hv : View h σ.brk true σ.blocks σ.lists K f)
    (hbrk : h.memBrk = σ.brk) (hproper : σ.Proper h.memStartBrk)
    (hasize : asize % 8 = 0 ∧ 16 ≤ asize)
    (hgrow : ¬ (h.sbrkRefused = true ∨ 2 ^ 31 ≤ asize ∨ h.memMaxAddr < addWord h.memBrk asize))
    (hwrap : σ.brk + asize < 2 ^ 32)
    (hK : ∀ a, K a → a < (σ.extend asize).block.addr - 4) {Q : Nat → Heap → Prop}
    (hQ : ∀ m, View ({ h with memBrk := σ.brk + asize }.store m) (σ.brk + asize) true
      ((σ.extend asize).shape (σ.brk + asize)).blocks (σ.extend asize).lists K f →
      Q (σ.extend asize).block.addr ({ h with memBrk := σ.brk + asize }.store m)) :
    Returns (MemoryLab.extendHeap asize) h Q := by
  have hmod := hv.geometry.limit_mod
  have hadd : addWord h.memBrk asize = σ.brk + asize := by
    rw [hbrk]
    exact addWord_of_lt hwrap
  have hmax : σ.brk + asize ≤ h.memMaxAddr := by
    rw [hadd] at hgrow
    omega
  have happend := Shape.proper_append hproper (b := ⟨σ.brk, asize, false, false⟩)
    (c := getSizeClass asize) rfl hasize rfl (getSizeClass_lt _)
  have hextended := Shape.proper_extend hproper hasize
  have hlast : (σ.extend asize).block.addr ≤ σ.brk := by
    have hbounds := hextended.tiles.bounds (σ.extend asize).block (by simp [Focus.shape])
    have hsize := (Focus.coalesce_block (φ := ⟨σ.blocks, ⟨σ.brk, asize, false, false⟩, [],
      fileUnder σ.lists (getSizeClass asize) σ.brk⟩) rfl).2.1
    change _ ∧ _ ≤ σ.brk + asize at hbounds
    change asize ≤ (σ.extend asize).block.size at hsize
    omega
  have hKend : ∀ a, K a → a < σ.brk - 4 := fun a ha ↦ by
    have hspare := hK a ha
    omega
  simp only [MemoryLab.extendHeap, returns_bind]
  rw [returns_memSbrk_grow hgrow, hadd, hbrk, if_neg (by unfold sbrkFailed; omega)]
  simp only [returns_bind]
  have hgrown : View { h with memBrk := σ.brk + asize } (σ.brk + asize) false σ.blocks σ.lists K f :=
    hv.grow (Nat.le_add_right _ _) (by omega) hmax _
  refine hgrown.fileLast (b := ⟨σ.brk, asize, false, false⟩) (hv.fits_end hproper hasize hKend) rfl
    rfl hproper.not_filed_brk hKend fun m hm ↦ ?_
  refine hm.coalesce (φ := ⟨σ.blocks, ⟨σ.brk, asize, false, false⟩, [],
    fileUnder σ.lists (getSizeClass asize) σ.brk⟩) happend.tiles (fun b hb hfree ↦ ?_) rfl
    (fun a ha ↦ ?_) fun m' hm' ↦ hQ m' hm'
  · exact (happend.filed _).mpr ⟨b, hb, rfl, hfree⟩
  · have hspare := hK a ha
    have hsized := hextended.sized (σ.extend asize).block (by simp [Focus.shape])
    unfold Block.Sized at hsized
    change (a < (σ.extend asize).block.addr - 4 ∨ (σ.extend asize).block.addr ≤ a) ∧
      (a < (σ.extend asize).block.addr + (σ.extend asize).block.size - 8 ∨
        (σ.extend asize).block.addr + (σ.extend asize).block.size - 4 ≤ a)
    omega

/-- `extend_heap_bulk`, when `mem_sbrk` grants the request. -/
theorem extendHeapBulk {σ : Shape} {asize : Nat} (hv : View h σ.brk true σ.blocks σ.lists K f)
    (hbrk : h.memBrk = σ.brk) (hproper : σ.Proper h.memStartBrk)
    (hasize : asize % 8 = 0 ∧ 16 ≤ asize) (hsmall : asize ≤ chunkSize)
    (hgrow : ¬ (h.sbrkRefused = true ∨ 2 ^ 31 ≤ 8 * asize ∨
      h.memMaxAddr < addWord h.memBrk (8 * asize)))
    (hwrap : σ.brk + 8 * asize < 2 ^ 32)
    (hK : ∀ a, K a → a < (σ.extendBulk asize).block.addr - 4) {Q : Nat → Heap → Prop}
    (hQ : ∀ m, View ({ h with memBrk := σ.brk + 8 * asize }.store m) (σ.brk + 8 * asize) true
      ((σ.extendBulk asize).shape (σ.brk + 8 * asize)).blocks (σ.extendBulk asize).lists K f →
      Q (σ.extendBulk asize).block.addr ({ h with memBrk := σ.brk + 8 * asize }.store m)) :
    Returns (MemoryLab.extendHeapBulk asize) h Q := by
  have hmod := hv.geometry.limit_mod
  have hbulksize := bulksize_eq hsmall
  unfold chunkSize at hsmall
  have hadd : addWord h.memBrk (8 * asize) = σ.brk + 8 * asize := by
    rw [hbrk]
    exact addWord_of_lt hwrap
  have hmax : σ.brk + 8 * asize ≤ h.memMaxAddr := by
    rw [hadd] at hgrow
    omega
  have hgrown : View { h with memBrk := σ.brk + 8 * asize } (σ.brk + 8 * asize) false σ.blocks
      σ.lists K f := hv.grow (Nat.le_add_right _ _) (by omega) hmax _
  simp only [MemoryLab.extendHeapBulk, returns_bind, hbulksize]
  rw [returns_memSbrk_grow hgrow, hadd, hbrk, if_neg (by unfold sbrkFailed; omega)]
  simp only [returns_bind]
  rw [hgrown.lastTags hproper.tiles]
  have hblocks := splitFreeLast_eq σ.blocks
  have hplain : ∀ Q : Nat → Heap → Prop, (∀ a, K a → a < σ.brk - 4) →
      (∀ m, View ({ h with memBrk := σ.brk + 8 * asize }.store m) (σ.brk + 8 * asize) true
        (σ.blocks ++ [⟨σ.brk, 8 * asize, false, true⟩])
        (fileUnder σ.lists (getSizeClass asize) σ.brk) K f →
        Q σ.brk ({ h with memBrk := σ.brk + 8 * asize }.store m)) →
      Returns (MemoryLab.setBoundaryTag σ.brk (8 * asize) bulkTag)
        { h with memBrk := σ.brk + 8 * asize } fun _ s ↦
        Returns (nextBlkp σ.brk) s fun n s ↦
          Returns (putWordAt (hdrp n) (pack 0 allocTag)) s fun _ s ↦
            Returns (MemoryLab.insertBlock σ.brk asize) s fun _ s ↦ Q σ.brk s := by
    intro Q hK hQ
    exact hgrown.fileLast (b := ⟨σ.brk, 8 * asize, false, true⟩)
      (hv.fits_end hproper (by omega) hK) rfl rfl hproper.not_filed_brk hK hQ
  rcases hq : (splitFreeLast σ.blocks).2 with _ | q
  · -- the last block is allocated, or there is none
    have halloc := splitFreeLast_alloc hq
    simp only [Shape.extendBulk, hq] at hK hQ
    rcases hlast : σ.blocks.getLast? with _ | q
    · simp only [Option.elim_none, one_ne_zero, false_and, if_false, returns_pure]
      exact hplain Q hK hQ
    · simp only [Option.elim_some, halloc q hlast, if_true, one_ne_zero, false_and, if_false,
        returns_pure]
      exact hplain Q hK hQ
  · have hfree := splitFreeLast_free hq
    rw [hq, Option.toList_some] at hblocks
    have hlast : σ.blocks.getLast? = some q := by
      rw [hblocks]
      simp
    by_cases hbulk : q.bulk = true
    · -- the last block is free and has the bulk tag
      simp only [Shape.extendBulk, hq, hbulk, if_true] at hK hQ
      simp only [hlast, Option.elim_some, hfree, hbulk, if_true, Bool.false_eq_true, if_false,
        true_and, OfNat.ofNat_ne_zero, returns_pure]
      exact hplain Q hK hQ
    · -- the last block is free and is merged
      simp only [Shape.extendBulk, hq, hbulk, Bool.false_eq_true, if_false] at hK hQ
      simp only [hlast, Option.elim_some, hfree, hbulk, if_false, Bool.false_eq_true, and_self,
        if_true]
      generalize (splitFreeLast σ.blocks).1 = start at *
      have hqmem : q ∈ σ.blocks := by simp [hblocks]
      have hqfiled : Filed σ.lists q.addr := (hproper.filed _).mpr ⟨q, hqmem, rfl, hfree⟩
      obtain ⟨hqmod, hqsizeMod, hqsize, hqlow, hqhigh⟩ := hv.geometry.block q hqmem
      have hend : q.addr + q.size = σ.brk := by
        have htiles := hproper.tiles
        rw [hblocks] at htiles
        obtain ⟨middle, -, -, hlast⟩ := tiles_append.mp htiles
        exact hlast
      rw [show MemoryLab.absorbPrev σ.brk = MemoryLab.absorbPrev (q.addr + q.size) by rw [hend]]
      refine hgrown.absorbPrev (8 * asize) hqmem hqfiled (by omega) fun m hm ↦ ?_
      rw [hblocks] at hm
      have hfits : Fits h.memStartBrk (σ.brk + 8 * asize) start
          ⟨q.addr, 8 * asize + q.size, false, true⟩ [] (unfile σ.lists q.addr) K := by
        refine ⟨⟨hqmod, by dsimp only; omega, by dsimp only; omega, hqlow, by dsimp only; omega⟩,
          fun a ha ↦ ?_, by simp, fun x hx ↦ ?_, fun a ha ↦ ?_⟩
        · have hsorted := hproper.tiles.sorted
          rw [hblocks] at hsorted
          exact (List.pairwise_append.mp hsorted).2.2 a ha q List.mem_cons_self
        · obtain ⟨hx, hne⟩ := (filed_unfile hv.simple).mp hx
          have happart := hv.geometry.apart x hx q hqmem
          have hnode := hv.geometry.node x hx
          dsimp only
          omega
        · have hspare := hK a ha
          dsimp only at hspare ⊢
          omega
      have hforgot : View ({ h with memBrk := σ.brk + 8 * asize }.store m)
          (σ.brk + 8 * asize) false start (unfile σ.lists q.addr) K f := by
        rw [← List.append_nil start]
        exact forget [q] (by simpa using hm)
      refine hforgot.fileLast (b := ⟨q.addr, 8 * asize + q.size, false, true⟩) hfits
        (by dsimp only; omega) rfl (fun hx ↦ ((filed_unfile hv.simple).mp hx).2 rfl) hK
        fun m' hm' ↦ ?_
      rw [returns_pure]
      exact hQ m' hm'

end View

end SystemProgramming.MemoryLab
