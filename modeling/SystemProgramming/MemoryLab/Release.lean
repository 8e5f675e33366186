import SystemProgramming.MemoryLab.HeapInvariant

/-!
# `mm_free`, and `mm_realloc` when it does not grow

Both mark a block free, file it and coalesce it. A coalesced block keeps the headers of the blocks
it has taken up, other than the first (`View.coalesce_stale`): no tag and no link is written there,
and the loop of `mm_exit` goes on reading them.
-/

set_option autoImplicit false
set_option relaxedAutoImplicit false

namespace SystemProgramming.MemoryLab

open Library

namespace View

variable {h : Heap} {limit : Nat} {epi : Bool} {B : List Block} {L : Filing} {K K' : Nat → Prop}
  {f f' : ByteMemory}

/-- Other bytes to be kept, from now on. -/
theorem rekeep (hv : View h limit epi B L K f) (hlow : ∀ a, K' a → h.memStartBrk + 268 ≤ a)
    (hspared : ∀ a, K' a → ∀ x, Filed L x → a < x ∨ x + 8 ≤ a) :
    View h limit epi B L K' h.bytes :=
  { hv with
    tagged := { hv.tagged with kept := fun _ _ ↦ rfl, low := hlow }
    spared := hspared }

/-- Fewer bytes to be kept, since an earlier moment. -/
theorem keep_less (hv : View h limit epi B L K' f') (hK : ∀ a, K a → K' a ∧ f' a = f a) :
    View h limit epi B L K f :=
  { hv with
    tagged := { hv.tagged with
      kept := fun a ha ↦ (hv.tagged.kept a (hK a ha).1).trans (hK a ha).2
      low := fun a ha ↦ hv.tagged.low a (hK a ha).1 }
    spared := fun a ha ↦ hv.spared a (hK a ha).1 }

/-- `coalesce` leaves the headers of the blocks it merges, but that of the first. -/
theorem coalesce_stale {φ : Focus} (hv : View h limit true (φ.shape limit).blocks φ.lists K f)
    (hproper : (φ.shape limit).Proper h.memStartBrk) (hfree : φ.block.alloc = false)
    (hK : ∀ a, K a → a + 8 < φ.coalesce.block.addr ∨
      φ.coalesce.block.addr + φ.coalesce.block.size ≤ a)
    {Q : Nat → Heap → Prop}
    (hQ : ∀ m, View (h.store m) limit true (φ.coalesce.shape limit).blocks φ.coalesce.lists K f →
      (∀ c ∈ (φ.shape limit).blocks, c.addr ≠ φ.coalesce.block.addr →
        wordAt m (c.addr - 4) = c.word) → Q φ.coalesce.block.addr (h.store m)) :
    Returns (MemoryLab.coalesce φ.block.addr) h Q := by
  let header : Nat → Prop := fun a ↦ ∃ c ∈ (φ.shape limit).blocks,
    c.addr ≠ φ.coalesce.block.addr ∧ c.addr - 4 ≤ a ∧ a < c.addr
  have hmerged := (Focus.proper_coalesce hproper hfree).geometry hv.geometry.base_mod
    hv.geometry.base_pos hv.geometry.limit_lt
  obtain ⟨hmod, hsizeMod, hsize, hlow, -⟩ := hmerged.block φ.coalesce.block (by simp [Focus.shape])
  have hv' : View h limit true (φ.shape limit).blocks φ.lists (fun a ↦ K a ∨ header a) h.bytes := by
    refine hv.rekeep (fun a ha ↦ ?_) fun a ha x hx ↦ ?_
    · rcases ha with ha | ⟨c, hc, -, hlowa, -⟩
      · exact hv.tagged.low a ha
      · have hblock := hv.geometry.block c hc
        unfold firstBlock at hblock
        omega
    · rcases ha with ha | ⟨c, hc, -, hlowa, hhigha⟩
      · exact hv.spared a ha x hx
      · have happart := hv.geometry.apart x hx c hc
        omega
  refine hv'.coalesce hproper.tiles (fun b hb hbfree ↦ (hproper.filed _).mpr ⟨b, hb, rfl, hbfree⟩)
    hfree (fun a ha ↦ ?_) fun m hm ↦ hQ m (hm.keep_less fun a ha ↦ ?_) fun c hc hne ↦ ?_
  · rcases ha with ha | ⟨c, hc, hne, hlowa, hhigha⟩
    · have hspare := hK a ha
      omega
    · have hblock := hv.geometry.block c hc
      unfold firstBlock at hlow hblock
      omega
  · exact ⟨Or.inl ha, hv.tagged.kept a ha⟩
  · rw [← hv.tagged.header c hc]
    have hblock := hv.geometry.block c hc
    unfold firstBlock at hblock
    exact wordAt_congr fun a hlowa hhigha ↦ hm.tagged.kept a (Or.inr ⟨c, hc, hne, hlowa, by omega⟩)

end View

namespace HeapInvariant

variable {h : Heap} {σ : Shape} {φ : Focus}

/-- The invariant is about the arena, the break and the bytes. -/
theorem congr {h' : Heap} (hi : HeapInvariant h σ) (hbytes : h'.bytes = h.bytes)
    (hstart : h'.memStartBrk = h.memStartBrk) (hmax : h'.memMaxAddr = h.memMaxAddr)
    (hbrk : h'.memBrk = h.memBrk) (hclass : h'.sizeClassP = h.sizeClassP)
    (hprologue : h'.prologue = h.prologue) : HeapInvariant h' σ := by
  cases h
  cases h'
  simp only at hbytes hstart hmax hbrk hclass hprologue
  subst hbytes hstart hmax hbrk hclass hprologue
  exact ⟨⟨hi.arena.aligned, hi.arena.nonnull, hi.arena.size, hi.arena.below⟩, hi.sizeClassP_eq,
    hi.prologue_eq, hi.brk_eq, hi.brk_le, hi.proper, hi.header, hi.footer, hi.prologueHeader,
    hi.prologueFooter, hi.epilogue, hi.linked⟩

/-- The payloads of the other allocated blocks are clear of the block in focus. -/
theorem clear_of_others {base brk : Nat} (hproper : (φ.shape brk).Proper base) {a : Nat}
    (ha : Owned (φ.front ++ φ.back) a) :
    a + 8 < φ.block.addr ∨ φ.block.addr + φ.block.size ≤ a := by
  obtain ⟨c, hc, -, hpayload⟩ := ha
  have hside := List.mem_append.mp hc
  refine hproper.clear ?_ (Focus.ne_block hproper hside) hpayload
  simp only [Focus.shape, List.mem_append, List.mem_cons]
  tauto

/-- `mm_free` does what `Focus.free` says. The headers of the blocks that are merged stay where they
are, but for that of the merged block itself. -/
theorem mmFree (hi : HeapInvariant h σ) (hshape : φ.shape σ.brk = σ)
    (halloc : φ.block.alloc = true) :
    Returns (MemoryLab.mmFree φ.block.addr) h fun _ h' ↦
      h'.glRanges = h.glRanges.map (fun ranges ↦ removeRange ranges φ.block.addr) ∧
      Serves h h' (φ.free.shape σ.brk) (Owned (φ.front ++ φ.back)) ∧
      ∀ c ∈ φ.front ++ { φ.block with alloc := false } :: φ.back,
        c.addr ≠ φ.free.block.addr → h'.word (c.addr - 4) = c.word := by
  have hproper : (φ.shape σ.brk).Proper h.memStartBrk := hshape.symm ▸ hi.proper
  have hlists : φ.lists = σ.lists := congrArg Shape.lists hshape
  have hblocks : φ.front ++ φ.block :: φ.back = σ.blocks := congrArg Shape.blocks hshape
  have howned : ∀ a, Owned (φ.front ++ φ.back) a → Owned σ.blocks a := by
    rintro a ⟨c, hc, hcalloc, hpayload⟩
    refine ⟨c, ?_, hcalloc, hpayload⟩
    rw [← hblocks]
    simp only [List.mem_append, List.mem_cons] at hc ⊢
    tauto
  have hv := hi.view (K := Owned (φ.front ++ φ.back)) howned
  rw [← hblocks, ← hlists] at hv
  have hb : φ.block ∈ φ.front ++ φ.block :: φ.back := by simp
  have hblock := hv.geometry.block φ.block hb
  have hclear := fun a (ha : Owned (φ.front ++ φ.back) a) ↦ clear_of_others hproper ha
  have hproper' := Focus.proper_refile hproper halloc
  have hfresh : ¬ Filed φ.lists φ.block.addr := hproper.not_filed hb (Nat.le_refl _)
    (by omega) fun _ ↦ halloc
  simp only [MemoryLab.mmFree, returns_bind]
  rw [hv.getSize_hdrp hb, hv.getIsbulk_hdrp hb]
  have hfits : Fits h.memStartBrk σ.brk φ.front { φ.block with alloc := false } φ.back φ.lists
      (Owned (φ.front ++ φ.back)) :=
    hv.fits_within ⟨hblock.1, hblock.2.1, hblock.2.2.1⟩ (Nat.le_refl _) (Nat.le_refl _)
      (fun x hx ↦ Or.inr ⟨hx, fun heq ↦ hfresh (heq ▸ hx)⟩) fun a ha ↦ by
        have hspare := hclear a ha
        omega
  refine hv.forget_block.setBoundaryTag hfits (by simp [Block.tag]) fun m₁ hm₁ ↦ ?_
  obtain ⟨hlow, hlinkable⟩ := hm₁.linkable_of_block (b := { φ.block with alloc := false }) (by simp)
    fun a ha ↦ by
      have hspare := hclear a ha
      dsimp only
      omega
  refine hm₁.insertBlock φ.block.size hlow hlinkable hfresh fun m₂ hm₂ ↦ ?_
  refine hm₂.coalesce_stale (φ := ⟨φ.front, { φ.block with alloc := false }, φ.back,
    fileUnder φ.lists (getSizeClass φ.block.size) φ.block.addr⟩) hproper' rfl (fun a ha ↦ ?_)
    fun m₃ hm₃ hstale ↦ ?_
  · obtain ⟨c, hc, hcalloc, hpayload⟩ := ha
    have hcother := Focus.ne_block hproper (List.mem_append.mp hc)
    refine (Focus.proper_coalesce hproper' rfl).clear
      ((Focus.mem_coalesce (φ := ⟨φ.front, { φ.block with alloc := false }, φ.back,
        fileUnder φ.lists (getSizeClass φ.block.size) φ.block.addr⟩) rfl hcalloc).mpr ?_) ?_ hpayload
    · simp only [Focus.shape, List.mem_append, List.mem_cons] at hc ⊢
      tauto
    · rintro rfl
      rw [(Focus.coalesce_block rfl).1] at hcalloc
      exact absurd hcalloc (by simp)
  · rw [returns_modify]
    refine ⟨rfl, ⟨rfl, rfl, ?_, hm₃.tagged.kept⟩, hstale⟩
    exact (of_view (h := h.store m₃) (σ := φ.free.shape σ.brk) hm₃ hi.brk_eq
      (Focus.proper_free hproper halloc)).congr rfl rfl rfl rfl rfl rfl

end HeapInvariant

/-- The allocated bit goes with the bulk tag. -/
theorem tag_alloc (x n : Nat) (bulk : Bool) :
    Block.tag ⟨x, n, true, bulk⟩ = (if bulk then 2 else 0) ||| allocTag := by
  unfold Block.tag allocTag
  cases bulk <;> simp

/-- The statements of `mm_realloc` that cut an allocated block in two and file the second part. -/
theorem View.cut {h : Heap} {limit : Nat} {K : Nat → Prop} {f : ByteMemory} {φ : Focus}
    {asize : Nat} (hv : View h limit true (φ.front ++ φ.block :: φ.back) φ.lists K f)
    (hproper : (φ.shape limit).Proper h.memStartBrk) (halloc : φ.block.alloc = true)
    (hasize : asize % 8 = 0 ∧ 16 ≤ asize) (hsplit : 16 ≤ φ.block.size - asize)
    (hK : ∀ x, K x → x + 8 < φ.block.addr ∨ φ.block.addr + φ.block.size ≤ x ∨
      (φ.block.addr ≤ x ∧ x + 8 < φ.block.addr + asize)) {Q : Nat → Heap → Prop}
    (hQ : ∀ m, View (h.store m) limit true
      (φ.front ++ [⟨φ.block.addr, asize, true, φ.block.bulk⟩] ++
        ⟨φ.block.addr + asize, φ.block.size - asize, false, φ.block.bulk⟩ :: φ.back)
      (fileUnder φ.lists (getSizeClass (φ.block.size - asize)) (φ.block.addr + asize)) K f →
      Q (φ.block.addr + asize) (h.store m)) :
    Returns (getIsbulk (hdrp φ.block.addr)) h fun isbulk s ↦
      Returns (MemoryLab.setBoundaryTag φ.block.addr asize (isbulk ||| allocTag)) s fun _ s ↦
        Returns (nextBlkp φ.block.addr) s fun rest s ↦
          Returns (getIsbulk (hdrp φ.block.addr)) s fun isbulk s ↦
            Returns (MemoryLab.setBoundaryTag rest (φ.block.size - asize) isbulk) s fun _ s ↦
              Returns (nextBlkp φ.block.addr) s fun rest s ↦
                Returns (MemoryLab.insertBlock rest (φ.block.size - asize)) s fun _ s ↦
                  Returns (nextBlkp φ.block.addr) s Q := by
  obtain ⟨front, b, back, L⟩ := φ
  dsimp only at hv halloc hsplit hK hQ ⊢
  have hb : b ∈ front ++ b :: back := by simp
  obtain ⟨hmod, hsizeMod, hsize, hlow, hhigh⟩ := hv.geometry.block b hb
  have hinside : ∀ x, Filed L x → x ≠ b.addr ∧ x ≠ b.addr + asize :=
    fun x hx ↦ ⟨fun heq ↦ hproper.not_filed hb (Nat.le_refl _) (by omega) (fun _ ↦ halloc)
      (heq ▸ hx), fun heq ↦ hproper.not_filed hb (Nat.le_add_right _ asize) (by omega)
      (fun _ ↦ halloc) (heq ▸ hx)⟩
  have hfits₁ : Fits h.memStartBrk limit front ⟨b.addr, asize, true, b.bulk⟩ back L K :=
    hv.fits_inside ⟨hmod, hasize⟩ (Nat.le_refl _) (by dsimp only; omega)
      (fun x hx ↦ Or.inr ⟨hx, (hinside x hx).1⟩) fun x hx ↦ by
        have hspare := hK x hx
        dsimp only
        omega
  have hfits₂ : Fits h.memStartBrk limit (front ++ [⟨b.addr, asize, true, b.bulk⟩])
      ⟨b.addr + asize, b.size - asize, false, b.bulk⟩ back L K :=
    (hv.fits_inside ⟨by dsimp only; omega, by dsimp only; omega, hsplit⟩ (Nat.le_add_right _ _)
      (by dsimp only; omega) (fun x hx ↦ Or.inr ⟨hx, (hinside x hx).1⟩) fun x hx ↦ by
        have hspare := hK x hx
        dsimp only
        omega).append_front (Nat.le_refl _)
  rw [hv.getIsbulk_hdrp hb]
  refine hv.forget_block.setBoundaryTag hfits₁ (tag_alloc _ _ _) fun m₁ hm₁ ↦ ?_
  rw [hm₁.nextBlkp_block (b := ⟨b.addr, asize, true, b.bulk⟩) (by simp),
    hm₁.getIsbulk_hdrp (b := ⟨b.addr, asize, true, b.bulk⟩) (by simp)]
  rw [← List.singleton_append, ← List.append_assoc] at hm₁
  refine hm₁.setBoundaryTag hfits₂ (by simp [Block.tag]) fun m₂ hm₂ ↦ ?_
  rw [hm₂.nextBlkp_block (b := ⟨b.addr, asize, true, b.bulk⟩) (by simp)]
  obtain ⟨hlow₂, hlinkable⟩ := hm₂.linkable_of_block
    (b := ⟨b.addr + asize, b.size - asize, false, b.bulk⟩) (by simp) fun x hx ↦ by
      have hspare := hK x hx
      dsimp only
      omega
  refine hm₂.insertBlock _ hlow₂ hlinkable (fun hx ↦ (hinside _ hx).2 rfl) fun m₃ hm₃ ↦ ?_
  rw [hm₃.nextBlkp_block (b := ⟨b.addr, asize, true, b.bulk⟩) (by simp)]
  exact hQ m₃ hm₃

namespace HeapInvariant

variable {h : Heap} {σ : Shape} {φ : Focus}

/-- `mm_realloc` on a block that is large enough does what `Focus.shrink` says, and keeps the bytes
of the block that stay in its payload. -/
theorem mmRealloc (hi : HeapInvariant h σ) (hshape : φ.shape σ.brk = σ)
    (halloc : φ.block.alloc = true) {t asize : Nat} (htpos : 0 < t) (htlt : t < 2 ^ 31)
    (hreq : align (addWord t dsize) = asize) (hfits : asize ≤ φ.block.size) :
    Returns (MemoryLab.mmRealloc φ.block.addr t) h fun q h' ↦ q = φ.block.addr ∧
      h'.glRanges = h.glRanges ∧ Serves h h' ((φ.shrink asize).shape σ.brk)
        (Owned (φ.front ++ ⟨φ.block.addr, asize, true, φ.block.bulk⟩ :: φ.back)) := by
  obtain ⟨hasize, -, -⟩ := align_request htpos htlt
  rw [hreq] at hasize
  have hproper : (φ.shape σ.brk).Proper h.memStartBrk := hshape.symm ▸ hi.proper
  have hlists : φ.lists = σ.lists := congrArg Shape.lists hshape
  have hblocks : φ.front ++ φ.block :: φ.back = σ.blocks := congrArg Shape.blocks hshape
  have hside : ∀ c ∈ φ.front ++ ⟨φ.block.addr, asize, true, φ.block.bulk⟩ :: φ.back,
      c = ⟨φ.block.addr, asize, true, φ.block.bulk⟩ ∨ c ∈ φ.front ++ φ.back := fun c hc ↦ by
    simp only [List.mem_append, List.mem_cons] at hc ⊢
    tauto
  have hclear : ∀ x, Owned (φ.front ++ ⟨φ.block.addr, asize, true, φ.block.bulk⟩ :: φ.back) x →
      x + 8 < φ.block.addr ∨ φ.block.addr + φ.block.size ≤ x ∨
        (φ.block.addr ≤ x ∧ x + 8 < φ.block.addr + asize) := by
    rintro x ⟨c, hc, hcalloc, hpayload⟩
    rcases hside c hc with rfl | hc
    · exact Or.inr (Or.inr hpayload)
    · have hother := clear_of_others hproper ⟨c, hc, hcalloc, hpayload⟩
      omega
  have howned : ∀ x, Owned (φ.front ++ ⟨φ.block.addr, asize, true, φ.block.bulk⟩ :: φ.back) x →
      Owned σ.blocks x := by
    rintro x ⟨c, hc, hcalloc, hpayload⟩
    rw [← hblocks]
    rcases hside c hc with rfl | hc
    · refine ⟨φ.block, by simp, halloc, ?_⟩
      unfold Payload at hpayload ⊢
      dsimp only at hpayload
      omega
    · refine ⟨c, ?_, hcalloc, hpayload⟩
      simp only [List.mem_append, List.mem_cons] at hc ⊢
      tauto
  have hv := hi.view (K := Owned (φ.front ++ ⟨φ.block.addr, asize, true, φ.block.bulk⟩ :: φ.back))
    howned
  rw [← hblocks, ← hlists] at hv
  have hb : φ.block ∈ φ.front ++ φ.block :: φ.back := by simp
  obtain ⟨hmod, hsizeMod, hsize, hlow, hhigh⟩ := hv.geometry.block φ.block hb
  have hlt := hv.geometry.limit_lt
  have hrest : subWord φ.block.size asize = φ.block.size - asize :=
    subWord_of_le hfits (by omega)
  have hnonnull : φ.block.addr ≠ null := by
    have hbase := hv.geometry.base_pos
    unfold firstBlock at hlow
    unfold null
    omega
  rw [MemoryLab.mmRealloc, show loopFuel = (2 ^ 32 - 1) + 1 from rfl, reallocLoop, returns_ite,
    if_neg hnonnull, returns_ite, if_neg (by omega), returns_bind, hv.getSize_hdrp hb]
  simp only [hreq, hrest]
  rw [returns_ite]
  by_cases hsplit : 16 ≤ φ.block.size - asize
  · rw [if_pos (show minBlockSize ≤ φ.block.size - asize from hsplit)]
    have hshrink : φ.shrink asize = Focus.coalesce
        ⟨φ.front ++ [⟨φ.block.addr, asize, true, φ.block.bulk⟩],
        ⟨φ.block.addr + asize, φ.block.size - asize, false, φ.block.bulk⟩, φ.back,
        fileUnder φ.lists (getSizeClass (φ.block.size - asize)) (φ.block.addr + asize)⟩ := by
      rw [Focus.shrink, if_pos hsplit]
    have hproper' := Focus.proper_cut hproper halloc hasize hsplit
    rw [hshrink]
    simp only [returns_bind]
    refine hv.cut hproper halloc hasize hsplit hclear fun m hm ↦ ?_
    refine hm.coalesce_stale (φ := ⟨φ.front ++ [⟨φ.block.addr, asize, true, φ.block.bulk⟩],
        ⟨φ.block.addr + asize, φ.block.size - asize, false, φ.block.bulk⟩, φ.back,
        fileUnder φ.lists (getSizeClass (φ.block.size - asize)) (φ.block.addr + asize)⟩)
      hproper' rfl (fun x hx ↦ ?_) fun m' hm' _ ↦ ?_
    · obtain ⟨c, hc, hcalloc, hpayload⟩ := hx
      refine (Focus.proper_coalesce hproper' rfl).clear
        ((Focus.mem_coalesce rfl hcalloc).mpr ?_) ?_ hpayload
      · simp only [Focus.shape, List.mem_append, List.mem_cons] at hc ⊢
        tauto
      · rintro rfl
        rw [(Focus.coalesce_block rfl).1] at hcalloc
        exact absurd hcalloc (by simp)
    · rw [returns_pure]
      refine ⟨rfl, rfl, rfl, rfl, ?_, hm'.tagged.kept⟩
      exact of_view (h := h.store m') hm' hi.brk_eq (Focus.proper_coalesce hproper' rfl)
  · rw [if_neg (show ¬ minBlockSize ≤ φ.block.size - asize from hsplit), returns_ite, if_pos hfits,
      returns_pure]
    have hshrink : φ.shrink asize = φ := by rw [Focus.shrink, if_neg hsplit]
    rw [hshrink, hshape]
    exact ⟨rfl, rfl, rfl, rfl, hi, fun _ _ ↦ rfl⟩

end HeapInvariant

end SystemProgramming.MemoryLab
