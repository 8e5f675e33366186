import SystemProgramming.MemoryLab.Plain.Shapes
import SystemProgramming.MemoryLab.Searching

/-!
# The operations keep the lists exact

`Variant.Holds` says that a heap holds a shape whose lists are exact. A free block is written over
others once those are on no list, and is filed by its size (`View.fill`). `coalesce` takes a block and
its free neighbours out of their lists and fills their extent with one block; `place` takes a block
out, marks its beginning as allocated and fills the rest.
-/

set_option autoImplicit false
set_option relaxedAutoImplicit false

namespace SystemProgramming.MemoryLab.Plain

open Library

/-- The heap holds this shape, and its lists are exact. -/
structure Variant.Holds (v : Variant) (h : Heap) (σ : Shape) : Prop where
  view : View v h (v.tags h.memStartBrk σ.blocks σ.brk) σ.lists
  layout : v.Layout h.memStartBrk σ.blocks σ.brk
  exact : v.Exact σ.blocks σ.lists
  prologue_eq : h.prologue = (v.prologue h.memStartBrk).addr
  brk_eq : h.memBrk = σ.brk
  brk_le : σ.brk ≤ h.memMaxAddr

namespace View

variable {v : Variant} {h : Heap} {W : Words} {L : Filing} {B B' front back others : List Block}
  {b : Block} {brk : Nat}

/-! ### Writing a block -/

/-- Roots and listed addresses are clear of a block, when those listed are other blocks. -/
theorem node_clear {base : Nat} (hf : v.Fits base others b brk) (hexact : v.Exact others L) {y : Nat}
    (hy : v.Node base L y) : y + 16 ≤ b.addr ∨ b.addr + b.size ≤ y := by
  have hlow := hf.low
  unfold Variant.firstBlock at hlow
  obtain ⟨c, hc, hmem⟩ := hy
  rcases List.mem_cons.mp hmem with rfl | hmem
  · have hc' : c < v.sizeClassNum := hc
    unfold classRoot
    omega
  · obtain ⟨d, hd, rfl⟩ := hexact.exists_block c hc y hmem
    have hclear := hf.clear d hd
    have hsized := (hf.proper d hd).2.1
    unfold Block.Sized at hsized
    omega

/-- The tags of a block are written over those of blocks that are on no list. -/
theorem retag (hv : View v h (v.tags h.memStartBrk B brk) L)
    (hf : v.Fits h.memStartBrk (front ++ back) b brk) (hle : brk ≤ h.memMaxAddr)
    (hexact : v.Exact (front ++ back) L) (hB : ∀ d ∈ front ++ back, d ∈ B) {tag : Nat}
    (htag : b.tag = tag) {Q : Unit → Heap → Prop}
    (hQ : ∀ m, View v (h.store m) (v.tags h.memStartBrk (front ++ b :: back) brk) L →
      Q () (h.store m)) :
    Returns (MemoryLab.setBoundaryTag b.addr b.size tag) h Q := by
  have hlow := hf.low
  have hhigh := hf.high
  have hsized := hf.sized
  unfold Variant.firstBlock at hlow
  unfold Block.Sized at hsized
  have hnew : ∀ d ∈ front ++ b :: back, d = b ∨ d ∈ front ++ back := fun d hd ↦ by
    simp only [List.mem_append, List.mem_cons] at hd ⊢
    tauto
  refine hv.setBoundaryTag htag hf.mod hf.sized (by omega) (by omega)
    (fun y hy ↦ node_clear hf hexact hy) (fun q u hq ↦ ?_) hQ
  rcases hq with hq | ⟨rfl, rfl⟩
  · exact (hf.tags_cons hv.arena.aligned hnew hB hq).imp_right fun ⟨hne, hne', hold⟩ ↦
      ⟨hne, hne', Or.inl hold⟩
  · exact Or.inr ⟨by omega, by omega, Or.inr ⟨rfl, rfl⟩⟩

/-- A block that is on no list is filed by its size. -/
theorem file (hv : View v h (v.tags h.memStartBrk B brk) L) (hl : v.Layout h.memStartBrk B brk)
    (hle : brk ≤ h.memMaxAddr) (hb : b ∈ B)
    (hfresh : ∀ c < v.sizeClassNum, b.addr ∉ L c) {Q : Unit → Heap → Prop}
    (hQ : ∀ m, View v (h.store m) (v.tags h.memStartBrk B brk)
      (fileUnder L (v.getSizeClass b.size) b.addr) → Q () (h.store m)) :
    Returns (v.insertBlock b.addr b.size) h Q := by
  have hblock := hl.block hb
  unfold Variant.firstBlock at hblock
  refine hv.insertBlock b.size ⟨hblock.1, by omega, by omega⟩ ?_ (fun p w hp ↦ hl.tags_ne hb hp) hQ
  rintro ⟨c, hc, hmem⟩
  have hc' : c < v.sizeClassNum := hc
  rcases List.mem_cons.mp hmem with hroot | hmem
  · unfold classRoot at hroot
    omega
  · exact hfresh c hc hmem

/-- A free block is written over blocks that are on no list, and is filed. -/
theorem fill (hv : View v h (v.tags h.memStartBrk B brk) L)
    (hl : v.Layout h.memStartBrk (front ++ b :: back) brk) (hle : brk ≤ h.memMaxAddr)
    (hexact : v.Exact (front ++ back) L) (hB : ∀ d ∈ front ++ back, d ∈ B) (hfree : b.alloc = false)
    {Q : Unit → Heap → Prop}
    (hQ : ∀ m L', View v (h.store m) (v.tags h.memStartBrk (front ++ b :: back) brk) L' →
      v.Exact (front ++ b :: back) L' → Q () (h.store m)) :
    Returns (MemoryLab.setBoundaryTag b.addr b.size 0) h fun _ s ↦
      Returns (v.insertBlock b.addr b.size) s Q := by
  have htag : b.tag = 0 := by simp [Block.tag, hfree, hl.plain b (by simp)]
  refine hv.retag hl.fits hle hexact hB htag fun m hm ↦ ?_
  refine hm.file hl hle (by simp) (fun c hc hmem ↦ ?_) fun m' hm' ↦ hQ m' _ hm' (hexact.insert hfree)
  obtain ⟨d, hd, haddr⟩ := hexact.exists_block c hc _ hmem
  exact hl.addr_ne hd haddr

/-! ### Reading the tags -/

theorem headed_block (hv : View v h (v.tags h.memStartBrk B brk) L)
    (hl : v.Layout h.memStartBrk B brk) (hb : b ∈ B) : Headed h b := by
  have hblock := hl.block hb
  have hlt := hl.brk_lt
  unfold Variant.firstBlock at hblock
  exact hv.headed (Variant.header_mem_tags (List.mem_cons_of_mem _ hb)) hblock.2.1 (by omega)

/-- The block before one in a layout, the prologue at the front. -/
theorem exists_prev {base : Nat} (hl : v.Layout base (front ++ b :: back) brk) :
    ∃ a ∈ v.prologue base :: (front ++ b :: back), a.addr + a.size = b.addr ∧ 4 ≤ a.addr ∧
      a.size % 8 = 0 ∧ 8 ≤ a.size ∧
      (if (splitFreeLast front).2 = none then 1 else 0) = if a.alloc then 1 else 0 := by
  obtain ⟨middle, hfront, haddr, -⟩ := tiles_append.mp hl.tiles
  rcases List.eq_nil_or_concat front with rfl | ⟨front, q, rfl⟩
  · refine ⟨v.prologue base, List.mem_cons_self, ?_, ?_, Nat.mod_self 8, Nat.le_refl 8, rfl⟩
    · rw [haddr, ← hfront]
      rfl
    · unfold Variant.prologue
      dsimp only
      omega
  · rw [List.concat_eq_append, tiles_append] at hfront
    obtain ⟨start, -, hq⟩ := hfront
    have hqmem : q ∈ front.concat q ++ b :: back := by simp
    have hblock := hl.block hqmem
    unfold Variant.firstBlock at hblock
    refine ⟨q, List.mem_cons_of_mem _ hqmem, hq.2.trans haddr.symm, by omega, hblock.2.1, by omega,
      ?_⟩
    cases hqa : q.alloc <;> simp [splitFreeLast, hqa]

/-- The allocated bit in the footer before a block. -/
theorem prevAlloc (hv : View v h (v.tags h.memStartBrk (front ++ b :: back) brk) L)
    (hl : v.Layout h.memStartBrk (front ++ b :: back) brk) (Q : Nat → Heap → Prop) :
    Returns (MemoryLab.prevBlkp b.addr) h (fun p s ↦ Returns (ftrp p) s fun a s ↦
      Returns (getAlloc a) s Q) ↔ Q (if (splitFreeLast front).2 = none then 1 else 0) h := by
  obtain ⟨a, ha, hend, hlow, hsize, halloc⟩ := exists_prev hl
  have hb := hl.block (b := b) (by simp)
  have hlt := hl.brk_lt
  have hfooter : v.tags h.memStartBrk (front ++ b :: back) brk (a.addr + a.size - 8) a.word :=
    Variant.footer_mem_tags ha
  have hheaded := hv.headed (Variant.header_mem_tags ha) hsize (by omega)
  rw [halloc.2, ← hend, hv.prevBlkp hfooter ⟨hsize, halloc.1⟩ (by omega), hheaded.ftrp halloc.1,
    hv.getAlloc_footer hfooter hsize]

/-- The allocated bit in the header behind a block. -/
theorem nextAlloc (hv : View v h (v.tags h.memStartBrk (front ++ b :: back) brk) L)
    (hl : v.Layout h.memStartBrk (front ++ b :: back) brk) (Q : Nat → Heap → Prop) :
    Returns (nextBlkp b.addr) h (fun n s ↦ Returns (getAlloc (hdrp n)) s Q) ↔
      Q (if (splitFreeHead back).1 = none then 1 else 0) h := by
  obtain ⟨middle, -, hrest⟩ := tiles_append.mp hl.tiles
  rw [(hv.headed_block hl (by simp)).nextBlkp]
  cases back with
  | nil =>
    have hend : b.addr + b.size = brk := hrest.2
    have hblock := hl.block (b := b) (by simp)
    have hlt := hl.brk_lt
    have hepilogue : Headed h ⟨brk, 0, true, false⟩ :=
      hv.headed (Or.inr ⟨rfl, rfl⟩) rfl (by dsimp only; omega)
    rw [hend]
    exact hepilogue.getAlloc Q
  | cons n back =>
    have hend : b.addr + b.size = n.addr := hrest.2.1.symm
    rw [hend, (hv.headed_block hl (by simp)).getAlloc]
    cases hna : n.alloc <;> simp [splitFreeHead, hna]

/-! ### Taking up the neighbours -/

/-- The next block, if it is free, leaves its list, and its size is added. -/
theorem absorbNext (hv : View v h W L) {next : Option Block} {size : Nat} (hb : Headed h b)
    (hnext : ∀ n ∈ next, b.addr + b.size = n.addr ∧ Headed h n ∧
      ∃ c < v.sizeClassNum, n.addr ∈ L c)
    (hsize : size + next.elim 0 Block.size < 2 ^ 32) {Q : Nat → Heap → Prop}
    (hQ : ∀ m, View v (h.store m) W (unfileOption L next) →
      Q (size + next.elim 0 Block.size) (h.store m)) :
    Returns (if (if next = none then 1 else 0) = 0 then Plain.absorbNext b.addr size
      else pure size) h Q := by
  cases next with
  | none =>
    simp only [if_true, one_ne_zero, if_false, returns_pure]
    exact hQ h.bytes hv
  | some n =>
    obtain ⟨hend, hn, c, hc, hmem⟩ := hnext n rfl
    rw [Option.elim_some] at hsize
    simp only [reduceCtorEq, if_false, if_true, Plain.absorbNext, returns_bind]
    rw [hb.nextBlkp, hend, hn.getSize, hb.nextBlkp, hend]
    refine hv.removeBlock hc hmem fun m hm ↦ ?_
    rw [returns_pure, addWord_of_lt hsize]
    exact hQ m hm

/-- The previous block, if it is free, leaves its list, and its size is added. -/
theorem absorbPrev (hv : View v h W L) {prev : Option Block} {size : Nat}
    (hprev : ∀ q ∈ prev, q.addr + q.size = b.addr ∧ W (q.addr - 4) q.word ∧
      W (q.addr + q.size - 8) q.word ∧ q.size % 8 = 0 ∧ 8 ≤ q.size ∧ 4 ≤ q.addr ∧
      ∃ c < v.sizeClassNum, q.addr ∈ L c) (hlt : b.addr < 2 ^ 32)
    (hsize : size + prev.elim 0 Block.size < 2 ^ 32) {Q : Nat × Nat → Heap → Prop}
    (hQ : ∀ m, View v (h.store m) W (unfileOption L prev) →
      Q ((prev.getD b).addr, size + prev.elim 0 Block.size) (h.store m)) :
    Returns (if (if prev = none then 1 else 0) = 0 then Plain.absorbPrev b.addr size
      else pure (b.addr, size)) h Q := by
  cases prev with
  | none =>
    simp only [if_true, one_ne_zero, if_false, returns_pure]
    exact hQ h.bytes hv
  | some q =>
    obtain ⟨hend, hheader, hfooter, hmod, hlow, haddr, c, hc, hmem⟩ := hprev q rfl
    rw [Option.elim_some] at hsize
    simp only [reduceCtorEq, if_false, if_true, Plain.absorbPrev, returns_bind]
    rw [← hend, hv.prevBlkp hfooter ⟨hmod, hlow⟩ (by omega)]
    refine hv.removeBlock hc hmem fun m hm ↦ ?_
    rw [(hm.headed hheader hmod (by omega)).getSize, returns_pure, addWord_of_lt hsize]
    exact hQ m hm

end View

/-- A block lies between the neighbours that are taken up. -/
theorem tiles_neighbours {prev next : Option Block} {b : Block} {first last : Nat}
    (h : Tiles first (prev.toList ++ b :: next.toList) last) :
    (∀ q ∈ prev, q.addr + q.size = b.addr) ∧ ∀ n ∈ next, b.addr + b.size = n.addr := by
  obtain ⟨middle, hprev, haddr, hnext⟩ := tiles_append.mp h
  constructor
  · rintro q hq
    rw [Option.mem_def.mp hq] at hprev
    exact hprev.2.trans haddr.symm
  · rintro n hn
    rw [Option.mem_def.mp hn] at hnext
    exact hnext.1.symm

namespace Variant.Holds

variable {v : Variant} {h : Heap} {σ : Shape} {φ : Focus} {L : Filing} {brk : Nat}

theorem headed (hh : v.Holds h σ) {b : Block} (hb : b ∈ σ.blocks) : Headed h b :=
  hh.view.headed_block hh.layout hb

/-- A free block is on one of the lists. -/
theorem listed (hh : v.Holds h σ) {b : Block} (hb : b ∈ σ.blocks) (hfree : b.alloc = false) :
    ∃ c < v.sizeClassNum, b.addr ∈ σ.lists c :=
  ⟨_, v.getSizeClass_lt _, hh.exact.mem hb hfree⟩

/-! ### Coalescing -/

/-- The statements of `coalesce` that take a free block and its free neighbours out of their lists and
add up the sizes. -/
theorem absorb {start rest : List Block} {q n : Option Block} {b : Block}
    (hh : v.Holds h ⟨start ++ q.toList ++ b :: (n.toList ++ rest), L, brk⟩)
    (hfree : ∀ d ∈ q.toList ++ b :: n.toList, d.alloc = false) {Q : Nat × Nat → Heap → Prop}
    (hQ : ∀ m L', View v (h.store m)
      (v.tags h.memStartBrk (start ++ q.toList ++ b :: (n.toList ++ rest)) brk) L' →
      v.Exact (start ++ rest) L' → Q ((joined q b n).addr, (joined q b n).size) (h.store m)) :
    Returns (Plain.removeBlock b.addr) h fun _ s ↦
      Returns (if (if n = none then 1 else 0) = 0 then Plain.absorbNext b.addr b.size
        else pure b.size) s fun size s ↦
          Returns (if (if q = none then 1 else 0) = 0 then Plain.absorbPrev b.addr size
            else pure (b.addr, size)) s Q := by
  have hview : View v h (v.tags h.memStartBrk (start ++ q.toList ++ b :: (n.toList ++ rest)) brk) L :=
    hh.view
  have hlayout : v.Layout h.memStartBrk (start ++ q.toList ++ b :: (n.toList ++ rest)) brk :=
    hh.layout
  have hmiddle : v.Layout h.memStartBrk (start ++ (q.toList ++ b :: n.toList) ++ rest) brk := by
    simpa using hlayout
  have hexact : v.Exact (start ++ (q.toList ++ b :: n.toList) ++ rest) L := by simpa using hh.exact
  have hmem : ∀ d ∈ q.toList ++ b :: n.toList,
      d ∈ start ++ q.toList ++ b :: (n.toList ++ rest) := fun d hd ↦ by
    simp only [List.mem_append, List.mem_cons] at hd ⊢
    tauto
  have hqmem : ∀ a ∈ q, a ∈ q.toList ++ b :: n.toList := fun a ha ↦ by simp [Option.mem_def.mp ha]
  have hnmem : ∀ a ∈ n, a ∈ q.toList ++ b :: n.toList := fun a ha ↦ by simp [Option.mem_def.mp ha]
  have hbmem : b ∈ q.toList ++ b :: n.toList := by simp
  obtain ⟨last, hleft, -⟩ := tiles_append.mp hmiddle.tiles
  obtain ⟨first, -, hcentre⟩ := tiles_append.mp hleft
  obtain ⟨hqb, hbn⟩ := tiles_neighbours hcentre
  have hhigh := hmiddle.join.fits.high
  have hlt := hlayout.brk_lt
  have hblock := hlayout.block (hmem b hbmem)
  have hjoined : (joined q b n).size = q.elim 0 Block.size + b.size + n.elim 0 Block.size := rfl
  obtain ⟨c, hc, hbc⟩ := hh.listed (hmem b hbmem) (hfree b hbmem)
  refine hview.removeBlock hc hbc fun m₁ hm₁ ↦ ?_
  refine hm₁.absorbNext (hm₁.headed_block hlayout (hmem b hbmem)) (fun a ha ↦ ?_) (by omega)
    fun m₂ hm₂ ↦ ?_
  · obtain ⟨c, hc, hac⟩ := hh.listed (hmem a (hnmem a ha)) (hfree a (hnmem a ha))
    have hend := hbn a ha
    exact ⟨hend, hm₁.headed_block hlayout (hmem a (hnmem a ha)), c, hc,
      (mem_unfile_iff (hview.nodup hc)).mpr ⟨hac, by omega⟩⟩
  refine hm₂.absorbPrev (fun a ha ↦ ?_) (by omega) (by omega) fun m₃ hm₃ ↦ ?_
  · have ha' := hmem a (hqmem a ha)
    obtain ⟨c, hc, hac⟩ := hh.listed ha' (hfree a (hqmem a ha))
    have hend := hqb a ha
    have hablock := hlayout.block ha'
    unfold Variant.firstBlock at hablock
    refine ⟨hend, Variant.header_mem_tags (List.mem_cons_of_mem _ ha'),
      Variant.footer_mem_tags (List.mem_cons_of_mem _ ha'), hablock.2.1, by omega,
      by omega, c, hc, (mem_unfileOption_iff (hm₁.nodup hc) n).mpr
        ⟨(mem_unfile_iff (hview.nodup hc)).mpr ⟨hac, by omega⟩, fun d hd ↦ ?_⟩⟩
    have hbd := hbn d hd
    omega
  have hsize : b.size + n.elim 0 Block.size + q.elim 0 Block.size = (joined q b n).size := by omega
  rw [hsize]
  exact hQ m₃ _ hm₃ (hexact.erase hmiddle.apart fun c hc y ↦
    mem_unfileOption_unfile (hview.nodup hc) q n b)

/-- `coalesce` of a free block. -/
theorem coalesce (hh : v.Holds h ⟨φ.front ++ φ.block :: φ.back, L, brk⟩)
    (hfree : φ.block.alloc = false) {Q : Nat → Heap → Prop}
    (hQ : ∀ m L', v.Holds (h.store m)
      ⟨φ.coalesce.front ++ φ.coalesce.block :: φ.coalesce.back, L', brk⟩ →
      Q φ.coalesce.block.addr (h.store m)) : Returns (v.coalesce φ.block.addr) h Q := by
  obtain ⟨front, b, back, lists⟩ := φ
  have hview : View v h (v.tags h.memStartBrk (front ++ b :: back) brk) L := hh.view
  have hlayout : v.Layout h.memStartBrk (front ++ b :: back) brk := hh.layout
  dsimp only at hfree ⊢
  unfold Focus.coalesce at hQ
  dsimp only at hQ
  simp only [Variant.coalesce, returns_bind]
  rw [hview.prevAlloc hlayout, hview.nextAlloc hlayout,
    (hview.headed_block hlayout (b := b) (by simp)).getSize, returns_ite]
  by_cases hnone : (splitFreeLast front).2 = none ∧ (splitFreeHead back).1 = none
  · -- both neighbours are allocated
    rw [if_pos hnone] at hQ
    rw [hnone.1, hnone.2, if_pos (by simp), returns_pure]
    exact hQ h.bytes L hh
  rw [if_neg hnone] at hQ
  rw [if_neg (by simpa [imp_iff_not_or] using hnone)]
  have hfront := splitFreeLast_eq front
  have hback := splitFreeHead_eq back
  have hqfree := splitFreeLast_mem front
  have hnfree := splitFreeHead_mem back
  clear hnone
  generalize splitFreeLast front = prev at *
  generalize splitFreeHead back = next at *
  obtain ⟨start, q⟩ := prev
  obtain ⟨n, rest⟩ := next
  dsimp only at hfront hback hqfree hnfree hQ ⊢
  subst hfront hback
  have hmerged : v.Layout h.memStartBrk (start ++ joined q b n :: rest) brk :=
    Variant.Layout.join (by simpa using hlayout)
  have hfreeAll : ∀ d ∈ q.toList ++ b :: n.toList, d.alloc = false := fun d hd ↦ by
    simp only [List.mem_append, List.mem_cons, Option.mem_toList] at hd
    rcases hd with hd | rfl | hd
    · exact hqfree d hd
    · exact hfree
    · exact hnfree d hd
  have hsides : ∀ d ∈ start ++ rest, d ∈ start ++ q.toList ++ b :: (n.toList ++ rest) :=
    fun d hd ↦ by
      simp only [List.mem_append, List.mem_cons] at hd ⊢
      tauto
  simp only [returns_bind]
  refine hh.absorb hfreeAll fun m₁ L₁ hm₁ hexact₁ ↦ ?_
  refine hm₁.fill hmerged hh.brk_le hexact₁ hsides rfl fun m₂ L₂ hm₂ hexact₂ ↦ ?_
  rw [returns_pure]
  exact hQ m₂ L₂ ⟨hm₂, hmerged, hexact₂, hh.prologue_eq, hh.brk_eq, hh.brk_le⟩

/-! ### Placing -/

/-- `place` into a free block that is large enough. -/
theorem place (hh : v.Holds h ⟨φ.front ++ φ.block :: φ.back, L, brk⟩)
    (hfree : φ.block.alloc = false) {asize : Nat} (hasize : asize % 8 = 0 ∧ 16 ≤ asize)
    (hfits : asize ≤ φ.block.size) {Q : Unit → Heap → Prop}
    (hQ : ∀ m L', v.Holds (h.store m) ⟨(φ.place asize 0 brk).blocks, L', brk⟩ → Q () (h.store m)) :
    Returns (v.place φ.block.addr asize) h Q := by
  obtain ⟨front, b, back, lists⟩ := φ
  have hview : View v h (v.tags h.memStartBrk (front ++ b :: back) brk) L := hh.view
  have hlayout : v.Layout h.memStartBrk (front ++ b :: back) brk := hh.layout
  have hmiddle : v.Layout h.memStartBrk (front ++ [b] ++ back) brk := by simpa using hlayout
  have hexact : v.Exact (front ++ [b] ++ back) L := by simpa using hh.exact
  dsimp only at hfree hfits ⊢
  have hbmem : b ∈ front ++ b :: back := by simp
  have hblock := hlayout.block hbmem
  have hlt := hlayout.brk_lt
  have hplain := hlayout.plain b hbmem
  have hsides : ∀ d ∈ front ++ back, d ∈ front ++ b :: back := fun d hd ↦ by
    simp only [List.mem_append, List.mem_cons] at hd ⊢
    tauto
  obtain ⟨c, hc, hbc⟩ := hh.listed hbmem hfree
  simp only [Variant.place, returns_bind]
  rw [(hview.headed_block hlayout hbmem).getSize, subWord_of_le hfits (by omega)]
  refine hview.removeBlock hc hbc fun m₁ hm₁ ↦ ?_
  have herased : v.Exact (front ++ back) (unfile L b.addr) :=
    hexact.erase hmiddle.apart fun c hc y ↦ by
      rw [mem_unfile_iff (hview.nodup hc)]
      simp
  unfold Focus.place at hQ
  dsimp only at hQ
  rw [returns_ite]
  by_cases hrest : 16 ≤ b.size - asize
  · rw [if_pos hrest, if_neg (by simp [hplain])] at hQ
    rw [if_pos (show minBlockSize ≤ b.size - asize from hrest)]
    -- the block is cut in two
    have hcut : v.Layout h.memStartBrk (front ++ ⟨b.addr, asize, true, false⟩ ::
        ⟨b.addr + asize, b.size - asize, false, false⟩ :: back) brk :=
      hlayout.cut ⟨rfl, rfl⟩ (Nat.add_sub_of_le hfits) ⟨hasize, by dsimp only; omega, hrest⟩
        ⟨rfl, rfl⟩
    generalize htaken : (⟨b.addr, asize, true, false⟩ : Block) = taken at hQ hcut
    generalize hleft : (⟨b.addr + asize, b.size - asize, false, false⟩ : Block) = left at hQ hcut
    obtain ⟨hnext, htakenAddr, htakenSize, hleftSize, htakenAlloc, hleftAlloc, htag⟩ :
        taken.addr + taken.size = left.addr ∧ taken.addr = b.addr ∧ taken.size = asize ∧
          left.size = b.size - asize ∧ taken.alloc = true ∧ left.alloc = false ∧ taken.tag = 1 := by
      subst htaken hleft
      exact ⟨rfl, rfl, rfl, rfl, rfl, rfl, rfl⟩
    have htakenFits : v.Fits h.memStartBrk (front ++ back) taken brk :=
      hlayout.fits.within (by omega) (hcut.sized taken (by simp)) (by omega) (by omega)
    simp only [returns_bind]
    rw [← htakenAddr, ← hleftSize, ← htakenSize]
    refine hm₁.retag htakenFits hh.brk_le herased hsides htag fun m₂ hm₂ ↦ ?_
    have htakenLow := htakenFits.low
    unfold Variant.firstBlock at htakenLow
    have hheaded : Headed ((h.store m₁).store m₂) taken :=
      hm₂.headed (Variant.header_mem_tags (by simp)) htakenFits.sized.1 (by omega)
    rw [hheaded.nextBlkp, hnext]
    have hexact₂ : v.Exact (front ++ [taken] ++ back) (unfile L b.addr) := by
      simpa using (Variant.Exact.cons_iff htakenAlloc).mpr herased
    have hsides₂ : ∀ d ∈ front ++ [taken] ++ back, d ∈ front ++ taken :: back := fun d hd ↦ by
      simpa using hd
    have hlayout₂ : v.Layout h.memStartBrk (front ++ [taken] ++ left :: back) brk := by
      simpa using hcut
    refine hm₂.fill hlayout₂ hh.brk_le hexact₂ hsides₂ hleftAlloc
      fun m₃ L₃ hm₃ hexact₃ ↦ hQ m₃ L₃ ?_
    rw [List.append_assoc, List.singleton_append] at hm₃ hexact₃
    exact ⟨hm₃, hcut, hexact₃, hh.prologue_eq, hh.brk_eq, hh.brk_le⟩
  · rw [if_neg hrest] at hQ
    rw [if_neg (show ¬ minBlockSize ≤ b.size - asize from hrest)]
    -- the block is taken whole
    have hwhole : v.Layout h.memStartBrk
        (front ++ { b with alloc := true, bulk := false } :: back) brk := hlayout.mark rfl rfl rfl
    generalize htaken : ({ b with alloc := true, bulk := false } : Block) = taken at hQ hwhole
    obtain ⟨htakenAddr, htakenSize, htakenAlloc, htag⟩ : taken.addr = b.addr ∧
        taken.size = b.size ∧ taken.alloc = true ∧ taken.tag = 1 := by
      subst htaken
      exact ⟨rfl, rfl, rfl, rfl⟩
    rw [← htakenAddr, ← htakenSize]
    refine hm₁.retag hwhole.fits hh.brk_le herased hsides htag fun m₂ hm₂ ↦ ?_
    exact hQ m₂ _ ⟨hm₂, hwhole, (Variant.Exact.cons_iff htakenAlloc).mpr herased,
      hh.prologue_eq, hh.brk_eq, hh.brk_le⟩

end Variant.Holds

end SystemProgramming.MemoryLab.Plain
