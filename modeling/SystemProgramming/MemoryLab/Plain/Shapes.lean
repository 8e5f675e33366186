import SystemProgramming.MemoryLab.FreeBlocks
import SystemProgramming.MemoryLab.Plain.View

/-!
# Exact lists

The shapes of these heaps have plain blocks from the first one to the break (`Variant.Layout`), and
every list holds exactly the free blocks of its class (`Variant.Exact`). Blocks may be exchanged for
others over the same extent (`Variant.Layout.exchange`), if the lists follow: blocks that are taken
out leave their lists (`Variant.Exact.erase`), and a free block that is put in is filed
(`Variant.Exact.insert`). `Variant.tags` are the words by which a heap holds such a shape.
-/

set_option autoImplicit false
set_option relaxedAutoImplicit false

namespace SystemProgramming.MemoryLab.Plain

open Library

/-! ### Layout -/

/-- The address of the first block, in a heap that starts at `base`. -/
def Variant.firstBlock (v : Variant) (base : Nat) : Nat := base + 8 * v.sizeClassNum + 16

/-- The prologue is an allocated block without a payload. -/
def Variant.prologue (v : Variant) (base : Nat) : Block :=
  ⟨base + 8 * v.sizeClassNum + 8, 8, true, false⟩

/-- Plain blocks of proper sizes lie end to end from the first block to the break. -/
structure Variant.Layout (v : Variant) (base : Nat) (blocks : List Block) (brk : Nat) : Prop where
  base_mod : base % 8 = 0
  base_pos : 0 < base
  brk_lt : brk < 2 ^ 32
  tiles : Tiles (v.firstBlock base) blocks brk
  sized : ∀ b ∈ blocks, b.Sized
  plain : ∀ b ∈ blocks, b.bulk = false

/-- A block has room between others: they are proper and clear of it. -/
structure Variant.Fits (v : Variant) (base : Nat) (others : List Block) (b : Block) (brk : Nat) :
    Prop where
  mod : b.addr % 8 = 0
  sized : b.Sized
  low : v.firstBlock base ≤ b.addr
  high : b.addr + b.size ≤ brk
  proper : ∀ d ∈ others, d.addr % 8 = 0 ∧ d.Sized ∧ v.firstBlock base ≤ d.addr
  clear : ∀ d ∈ others, d.addr + d.size ≤ b.addr ∨ b.addr + b.size ≤ d.addr

namespace Variant.Layout

variable {v : Variant} {base brk : Nat} {front middle back blocks : List Block} {b : Block}

theorem aligned (h : v.Layout base blocks brk) : (∀ b ∈ blocks, b.addr % 8 = 0) ∧ brk % 8 = 0 := by
  have hmod := h.base_mod
  exact h.tiles.aligned h.sized (by unfold Variant.firstBlock; omega)

theorem block (h : v.Layout base blocks brk) (hb : b ∈ blocks) : b.addr % 8 = 0 ∧ b.size % 8 = 0 ∧
    16 ≤ b.size ∧ v.firstBlock base ≤ b.addr ∧ b.addr + b.size ≤ brk := by
  have hbounds := h.tiles.bounds b hb
  have hsized := h.sized b hb
  exact ⟨h.aligned.1 b hb, hsized.1, hsized.2, hbounds⟩

theorem fits (h : v.Layout base (front ++ b :: back) brk) : v.Fits base (front ++ back) b brk := by
  have hmem : ∀ d ∈ front ++ back, d ∈ front ++ b :: back := fun d hd ↦ by
    simp only [List.mem_append, List.mem_cons] at hd ⊢
    tauto
  have hb := h.block (b := b) (by simp)
  obtain ⟨-, hback, hfront⟩ := List.pairwise_append.mp h.tiles.sorted
  refine ⟨hb.1, ⟨hb.2.1, hb.2.2.1⟩, hb.2.2.2.1, hb.2.2.2.2, fun d hd ↦ ?_, fun d hd ↦ ?_⟩
  · have hblock := h.block (hmem d hd)
    exact ⟨hblock.1, ⟨hblock.2.1, hblock.2.2.1⟩, hblock.2.2.2.1⟩
  · rcases List.mem_append.mp hd with hd | hd
    · exact Or.inl (hfront d hd b List.mem_cons_self)
    · exact Or.inr ((List.pairwise_cons.mp hback).1 d hd)

theorem addr_ne (h : v.Layout base (front ++ b :: back) brk) {d : Block}
    (hd : d ∈ front ++ back) : d.addr ≠ b.addr := by
  have hclear := h.fits.clear d hd
  have hdsized := (h.fits.proper d hd).2.1
  have hbsized := h.fits.sized
  unfold Block.Sized at hdsized hbsized
  omega

theorem apart (h : v.Layout base (front ++ middle ++ back) brk) :
    ∀ a ∈ front ++ back, ∀ d ∈ middle, d.addr ≠ a.addr := by
  intro a ha d hd
  obtain ⟨before, after, rfl⟩ := List.append_of_mem hd
  rw [← List.append_assoc, List.append_assoc, List.cons_append] at h
  refine (h.addr_ne (d := a) ?_).symm
  simp only [List.mem_append] at ha ⊢
  tauto

/-- Blocks may be exchanged for others over the same extent. -/
theorem exchange (h : v.Layout base (front ++ middle ++ back) brk) (middle' : List Block)
    (htiles : ∀ first last, Tiles first middle last → Tiles first middle' last)
    (hsized : ∀ b ∈ middle', b.Sized) (hplain : ∀ b ∈ middle', b.bulk = false) :
    v.Layout base (front ++ middle' ++ back) brk := by
  obtain ⟨last, hleft, hright⟩ := tiles_append.mp h.tiles
  obtain ⟨first, hstart, hcentre⟩ := tiles_append.mp hleft
  refine ⟨h.base_mod, h.base_pos, h.brk_lt, ?_, fun b hb ↦ ?_, fun b hb ↦ ?_⟩
  · exact tiles_append.mpr ⟨last, tiles_append.mpr ⟨first, hstart, htiles _ _ hcentre⟩, hright⟩
  · have hold := h.sized b
    simp only [List.mem_append] at hb hold
    rcases hb with (hb | hb) | hb
    · exact hold (Or.inl (Or.inl hb))
    · exact hsized b hb
    · exact hold (Or.inr hb)
  · have hold := h.plain b
    simp only [List.mem_append] at hb hold
    rcases hb with (hb | hb) | hb
    · exact hold (Or.inl (Or.inl hb))
    · exact hplain b hb
    · exact hold (Or.inr hb)

/-- A block may be marked. -/
theorem mark (h : v.Layout base (front ++ b :: back) brk) {c : Block} (haddr : c.addr = b.addr)
    (hsize : c.size = b.size) (hplain : c.bulk = false) :
    v.Layout base (front ++ c :: back) brk := by
  have hb : b.Sized := h.sized b (by simp)
  have hmiddle : v.Layout base (front ++ [b] ++ back) brk := by simpa using h
  have hmarked := hmiddle.exchange [c] (fun first last htiles ↦ ?_)
    (fun d hd ↦ ?_) fun d hd ↦ List.mem_singleton.mp hd ▸ hplain
  · simpa using hmarked
  · rw [tiles_singleton] at htiles ⊢
    rwa [haddr, hsize]
  · rw [List.mem_singleton.mp hd, Block.Sized, hsize]
    exact hb

/-- A block may be cut in two. -/
theorem cut (h : v.Layout base (front ++ b :: back) brk) {c d : Block}
    (haddr : c.addr = b.addr ∧ d.addr = c.addr + c.size) (hsize : c.size + d.size = b.size)
    (hsized : c.Sized ∧ d.Sized) (hplain : c.bulk = false ∧ d.bulk = false) :
    v.Layout base (front ++ c :: d :: back) brk := by
  have hmiddle : v.Layout base (front ++ [b] ++ back) brk := by simpa using h
  have hcut := hmiddle.exchange [c, d] (fun first last htiles ↦ ?_)
    (fun e he ↦ ?_) fun e he ↦ ?_
  · simpa using hcut
  · obtain ⟨hfirst, hlast⟩ := tiles_singleton.mp htiles
    refine ⟨haddr.1.trans hfirst, haddr.2, ?_⟩
    change d.addr + d.size = last
    omega
  · rcases List.mem_pair.mp he with rfl | rfl
    · exact hsized.1
    · exact hsized.2
  · rcases List.mem_pair.mp he with rfl | rfl
    · exact hplain.1
    · exact hplain.2

/-- A block may be joined with its neighbours. -/
theorem join {prev next : Option Block}
    (h : v.Layout base (front ++ (prev.toList ++ b :: next.toList) ++ back) brk) :
    v.Layout base (front ++ joined prev b next :: back) brk := by
  have hsized : ∀ d ∈ prev.toList ++ b :: next.toList, d.Sized := fun d hd ↦
    h.sized d (List.mem_append_left _ (List.mem_append_right _ hd))
  have hjoined := h.exchange [joined prev b next] (fun _ _ ↦ tiles_joined)
    (fun d hd ↦ ?_) fun d hd ↦ List.mem_singleton.mp hd ▸ rfl
  · simpa using hjoined
  · rw [List.mem_singleton.mp hd]
    exact sized_joined (hsized b (by simp)) (fun a ha ↦ hsized a (by simp [Option.mem_def.mp ha]))
      fun a ha ↦ hsized a (by simp [Option.mem_def.mp ha])

/-- A block behind the last one. -/
theorem append (h : v.Layout base blocks brk) (haddr : b.addr = brk) (hsized : b.Sized)
    (hplain : b.bulk = false) (hlt : brk + b.size < 2 ^ 32) :
    v.Layout base (blocks ++ [b]) (brk + b.size) where
  base_mod := h.base_mod
  base_pos := h.base_pos
  brk_lt := hlt
  tiles := tiles_append.mpr ⟨brk, h.tiles, haddr, by rw [haddr]; rfl⟩
  sized := fun c hc ↦
    (List.mem_append.mp hc).elim (h.sized c) fun hc ↦ List.mem_singleton.mp hc ▸ hsized
  plain := fun c hc ↦
    (List.mem_append.mp hc).elim (h.plain c) fun hc ↦ List.mem_singleton.mp hc ▸ hplain

end Variant.Layout

/-- A block inside another has room where the other has. -/
theorem Variant.Fits.within {v : Variant} {base brk : Nat} {others : List Block} {b c : Block}
    (h : v.Fits base others b brk) (hmod : c.addr % 8 = 0) (hsized : c.Sized)
    (hlow : b.addr ≤ c.addr) (hhigh : c.addr + c.size ≤ b.addr + b.size) :
    v.Fits base others c brk := by
  have hblow := h.low
  have hbhigh := h.high
  refine ⟨hmod, hsized, by omega, by omega, h.proper, fun d hd ↦ ?_⟩
  have hclear := h.clear d hd
  omega

/-! ### Lists -/

/-- Every list holds exactly the free blocks of its class. -/
def Variant.Exact (v : Variant) (blocks : List Block) (L : Filing) : Prop :=
  ∀ c < v.sizeClassNum, ∀ x, x ∈ L c ↔
    ∃ b ∈ blocks, b.addr = x ∧ b.alloc = false ∧ v.getSizeClass b.size = c

namespace Variant.Exact

variable {v : Variant} {front middle back blocks : List Block} {L L' : Filing} {c x : Nat}

/-- A free block is on the list of its class. -/
theorem mem (h : v.Exact blocks L) {b : Block} (hb : b ∈ blocks) (hfree : b.alloc = false) :
    b.addr ∈ L (v.getSizeClass b.size) :=
  (h _ (v.getSizeClass_lt _) _).mpr ⟨b, hb, rfl, hfree, rfl⟩

/-- An address on a list that is none of some blocks is that of another. -/
theorem outside (h : v.Exact (front ++ middle ++ back) L) (hc : c < v.sizeClassNum) (hx : x ∈ L c)
    (hmiddle : ∀ d ∈ middle, d.addr ≠ x) :
    ∃ d ∈ front ++ back, d.addr = x ∧ d.alloc = false ∧ v.getSizeClass d.size = c := by
  obtain ⟨d, hd, haddr, hrest⟩ := (h c hc x).mp hx
  refine ⟨d, ?_, haddr, hrest⟩
  simp only [List.mem_append] at hd ⊢
  rcases hd with (hd | hd) | hd
  · exact Or.inl hd
  · exact absurd haddr (hmiddle d hd)
  · exact Or.inr hd

/-- Blocks are taken out, and leave their lists. -/
theorem erase (h : v.Exact (front ++ middle ++ back) L)
    (hapart : ∀ a ∈ front ++ back, ∀ d ∈ middle, d.addr ≠ a.addr)
    (hlists : ∀ c < v.sizeClassNum, ∀ x, x ∈ L' c ↔ x ∈ L c ∧ ∀ d ∈ middle, d.addr ≠ x) :
    v.Exact (front ++ back) L' := by
  intro c hc x
  rw [hlists c hc x]
  constructor
  · rintro ⟨hx, hmiddle⟩
    exact h.outside hc hx hmiddle
  · rintro ⟨d, hd, rfl, hrest⟩
    refine ⟨(h c hc _).mpr ⟨d, ?_, rfl, hrest⟩, hapart d hd⟩
    simp only [List.mem_append] at hd ⊢
    tauto

/-- A free block is put in and filed. -/
theorem insert (h : v.Exact (front ++ back) L) {b : Block} (hfree : b.alloc = false) :
    v.Exact (front ++ b :: back) (fileUnder L (v.getSizeClass b.size) b.addr) := by
  intro c hc x
  rw [mem_fileUnder, h c hc x]
  constructor
  · rintro (⟨rfl, rfl⟩ | ⟨d, hd, hrest⟩)
    · exact ⟨b, by simp, rfl, hfree, rfl⟩
    · refine ⟨d, ?_, hrest⟩
      simp only [List.mem_append, List.mem_cons] at hd ⊢
      tauto
  · rintro ⟨d, hd, haddr, hrest⟩
    simp only [List.mem_append, List.mem_cons] at hd
    rcases hd with hd | rfl | hd
    · exact Or.inr ⟨d, List.mem_append_left _ hd, haddr, hrest⟩
    · exact Or.inl ⟨haddr.symm, hrest.2.symm⟩
    · exact Or.inr ⟨d, List.mem_append_right _ hd, haddr, hrest⟩

/-- An allocated block is on no list. -/
theorem cons_iff {b : Block} (halloc : b.alloc = true) :
    v.Exact (front ++ b :: back) L ↔ v.Exact (front ++ back) L := by
  refine forall₂_congr fun c _ ↦ forall_congr' fun x ↦ iff_congr Iff.rfl ?_
  constructor
  · rintro ⟨d, hd, haddr, hfree, hclass⟩
    have hne : d ≠ b := by
      rintro rfl
      rw [halloc] at hfree
      cases hfree
    refine ⟨d, ?_, haddr, hfree, hclass⟩
    simp only [List.mem_append, List.mem_cons, hne, false_or] at hd ⊢
    exact hd
  · rintro ⟨d, hd, hrest⟩
    refine ⟨d, ?_, hrest⟩
    simp only [List.mem_append, List.mem_cons] at hd ⊢
    tauto

/-- Every address on a list is that of a block. -/
theorem exists_block (h : v.Exact blocks L) : ∀ c < v.sizeClassNum, ∀ x ∈ L c,
    ∃ d ∈ blocks, d.addr = x := fun c hc x hx ↦ by
  obtain ⟨d, hd, haddr, -⟩ := (h c hc x).mp hx
  exact ⟨d, hd, haddr⟩

end Variant.Exact

theorem mem_unfile_iff {L : Filing} {c x y : Nat} (hL : (L c).Nodup) :
    y ∈ unfile L x c ↔ y ∈ L c ∧ x ≠ y := by
  rw [unfile, hL.mem_erase_iff, and_comm, ne_comm]

theorem mem_unfileOption_iff {L : Filing} {c y : Nat} (hL : (L c).Nodup) (b : Option Block) :
    y ∈ unfileOption L b c ↔ y ∈ L c ∧ ∀ d ∈ b, d.addr ≠ y := by
  cases b with
  | none => simp [unfileOption]
  | some b => simp [unfileOption, mem_unfile_iff hL]

theorem nodup_unfileOption {L : Filing} {c : Nat} (hL : (L c).Nodup) (b : Option Block) :
    (unfileOption L b c).Nodup := by
  cases b with
  | none => exact hL
  | some b => exact hL.erase b.addr

/-- A block and its neighbours leave a list. -/
theorem mem_unfileOption_unfile {L : Filing} {c y : Nat} (hL : (L c).Nodup) (prev next : Option Block)
    (b : Block) : y ∈ unfileOption (unfileOption (unfile L b.addr) next) prev c ↔
      y ∈ L c ∧ ∀ d ∈ prev.toList ++ b :: next.toList, d.addr ≠ y := by
  have hunfile : (unfile L b.addr c).Nodup := hL.erase b.addr
  rw [mem_unfileOption_iff (nodup_unfileOption hunfile next), mem_unfileOption_iff hunfile,
    mem_unfile_iff hL]
  simp only [List.mem_append, List.mem_cons, Option.mem_toList]
  constructor
  · rintro ⟨⟨⟨hy, hb⟩, hnext⟩, hprev⟩
    refine ⟨hy, ?_⟩
    rintro d (hd | rfl | hd)
    · exact hprev d hd
    · exact hb
    · exact hnext d hd
  · rintro ⟨hy, hall⟩
    exact ⟨⟨⟨hy, hall b (Or.inr (Or.inl rfl))⟩, fun d hd ↦ hall d (Or.inr (Or.inr hd))⟩,
      fun d hd ↦ hall d (Or.inl hd)⟩

/-! ### Tags -/

/-- The tag words of blocks. -/
def Tags (blocks : List Block) : Words := fun p w ↦
  ∃ b ∈ blocks, (p = b.addr - 4 ∨ p = b.addr + b.size - 8) ∧ w = b.word

/-- The tag words of the prologue, of the blocks and of the epilogue. -/
def Variant.tags (v : Variant) (base : Nat) (blocks : List Block) (brk : Nat) : Words := fun p w ↦
  Tags (v.prologue base :: blocks) p w ∨ (p = brk - 4 ∧ w = 1)

section Tags

variable {v : Variant} {base brk : Nat} {blocks others : List Block} {b : Block}

theorem Variant.header_mem_tags (hb : b ∈ v.prologue base :: blocks) :
    v.tags base blocks brk (b.addr - 4) b.word :=
  Or.inl ⟨b, hb, Or.inl rfl, rfl⟩

theorem Variant.footer_mem_tags (hb : b ∈ v.prologue base :: blocks) :
    v.tags base blocks brk (b.addr + b.size - 8) b.word :=
  Or.inl ⟨b, hb, Or.inr rfl, rfl⟩

/-- The tag words of a block that has room, and those that were known. -/
theorem Variant.Fits.tags_cons (h : v.Fits base others b brk) (hbase : base % 8 = 0)
    {B B' : List Block} (hB' : ∀ d ∈ B', d = b ∨ d ∈ others) (hB : ∀ d ∈ others, d ∈ B) {q u : Nat}
    (hq : Tags (v.prologue base :: B') q u) :
    ((q = b.addr - 4 ∨ q = b.addr + b.size - 8) ∧ u = b.word) ∨
      (q ≠ b.addr - 4 ∧ q ≠ b.addr + b.size - 8 ∧ Tags (v.prologue base :: B) q u) := by
  have hlow := h.low
  have hsized := h.sized
  have hmod := h.mod
  unfold Block.Sized at hsized
  obtain ⟨d, hd, hq, rfl⟩ := hq
  rcases List.mem_cons.mp hd with rfl | hd
  · refine Or.inr ⟨?_, ?_, _, List.mem_cons_self, hq, rfl⟩
    all_goals
      unfold Variant.prologue at hq
      unfold Variant.firstBlock at hlow
      dsimp only at hq
      omega
  · rcases hB' d hd with rfl | hd
    · exact Or.inl ⟨hq, rfl⟩
    · obtain ⟨hdmod, hdsized, hdlow⟩ := h.proper d hd
      have hclear := h.clear d hd
      unfold Block.Sized at hdsized
      unfold Variant.firstBlock at hlow hdlow
      exact Or.inr ⟨by omega, by omega, d, List.mem_cons_of_mem _ (hB d hd), hq, rfl⟩

/-- The tag words of the prologue and of the blocks end before that of the epilogue. -/
theorem Variant.Layout.tags_le (h : v.Layout base blocks brk) {p w : Nat}
    (hp : Tags (v.prologue base :: blocks) p w) : p + 8 ≤ brk := by
  have hle := h.tiles.le
  unfold Variant.firstBlock at hle
  obtain ⟨d, hd, hword, -⟩ := hp
  rcases List.mem_cons.mp hd with rfl | hd
  · unfold Variant.prologue at hword
    dsimp only at hword
    omega
  · have hblock := h.block hd
    unfold Variant.firstBlock at hblock
    omega

/-- No tag stands between those of a block. -/
theorem Variant.Layout.tags_clear (h : v.Layout base blocks brk) (hb : b ∈ blocks) {p w : Nat}
    (hp : v.tags base blocks brk p w) : p + 4 ≤ b.addr ∨ b.addr + b.size ≤ p + 8 := by
  obtain ⟨front, back, rfl⟩ := List.append_of_mem hb
  have hblock := h.block hb
  have hmem : ∀ d ∈ front ++ b :: back, d = b ∨ d ∈ front ++ back := fun d hd ↦ by
    simp only [List.mem_append, List.mem_cons] at hd ⊢
    tauto
  unfold Variant.firstBlock at hblock
  rcases hp with ⟨d, hd, hword, -⟩ | ⟨rfl, -⟩
  · rcases List.mem_cons.mp hd with rfl | hd
    · unfold Variant.prologue at hword
      dsimp only at hword
      omega
    · rcases hmem d hd with rfl | hd
      · omega
      · obtain ⟨hdmod, hdsized, hdlow⟩ := h.fits.proper d hd
        have hclear := h.fits.clear d hd
        unfold Block.Sized at hdsized
        unfold Variant.firstBlock at hdlow
        omega
  · omega

/-- No tag stands where a block holds its links. -/
theorem Variant.Layout.tags_ne (h : v.Layout base blocks brk) (hb : b ∈ blocks) {p w : Nat}
    (hp : v.tags base blocks brk p w) : p ≠ b.addr ∧ p ≠ b.addr + 4 := by
  have hclear := h.tags_clear hb hp
  have hblock := h.block hb
  omega

end Tags

end SystemProgramming.MemoryLab.Plain
