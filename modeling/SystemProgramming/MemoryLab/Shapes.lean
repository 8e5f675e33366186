import SystemProgramming.MemoryLab.Blocks

/-!
# The operations on shapes keep shapes proper

Every operation exchanges some neighbouring blocks for others that cover the same extent, and
changes the filing accordingly (`Shape.Proper.exchange`). Coalescing, freeing, placing, shrinking
and extending are instances.
-/

set_option autoImplicit false
set_option relaxedAutoImplicit false

namespace SystemProgramming.MemoryLab

open Library

/-! ### Filing each address once -/

namespace Filing.Simple

variable {L : Filing} {x z cls : Nat}

theorem unfile (h : L.Simple) (x : Nat) : (unfile L x).Simple where
  nodup := fun c hc ↦ (h.nodup c hc).erase x
  disjoint := fun c hc d hd y hyc hyd ↦
    h.disjoint c hc d hd y (List.mem_of_mem_erase hyc) (List.mem_of_mem_erase hyd)

theorem unfileOption (h : L.Simple) (b : Option Block) : (unfileOption L b).Simple := by
  cases b with
  | none => exact h
  | some b => exact h.unfile b.addr

theorem fileUnder (h : L.Simple) (cls : Nat) (hx : ¬ Filed L x) : (fileUnder L cls x).Simple := by
  refine ⟨fun c hc ↦ ?_, fun c hc d hd y hyc hyd ↦ ?_⟩
  · unfold MemoryLab.fileUnder
    by_cases hcls : c = cls
    · subst hcls
      rw [Function.update_self]
      exact List.nodup_cons.mpr ⟨fun hmem ↦ hx ⟨c, hc, hmem⟩, h.nodup c hc⟩
    · rw [Function.update_of_ne hcls]
      exact h.nodup c hc
  · rcases mem_fileUnder.mp hyc with ⟨hcx, hccls⟩ | hcold <;>
      rcases mem_fileUnder.mp hyd with ⟨hdx, hdcls⟩ | hdold
    · rw [hccls, hdcls]
    · exact absurd ⟨d, hd, hcx ▸ hdold⟩ hx
    · exact absurd ⟨c, hc, hdx ▸ hcold⟩ hx
    · exact h.disjoint c hc d hd y hcold hdold

theorem refile (h : L.Simple) (hz : ¬ Filed L z) : (refile L x z).Simple := by
  refine ⟨fun c hc ↦ ?_, fun c hc d hd y hyc hyd ↦ ?_⟩
  · refine List.Nodup.map_on (fun a ha b hb heq ↦ ?_) (h.nodup c hc)
    by_cases hax : a = x <;> by_cases hbx : b = x
    · rw [hax, hbx]
    · rw [if_pos hax, if_neg hbx] at heq
      exact absurd ⟨c, hc, heq ▸ hb⟩ hz
    · rw [if_neg hax, if_pos hbx] at heq
      exact absurd ⟨c, hc, heq ▸ ha⟩ hz
    · rwa [if_neg hax, if_neg hbx] at heq
  · rcases mem_refile.mp hyc with ⟨hxc, rfl⟩ | ⟨hyc, -⟩ <;>
      rcases mem_refile.mp hyd with ⟨hxd, hyz⟩ | ⟨hyd, -⟩
    · exact h.disjoint c hc d hd x hxc hxd
    · exact absurd ⟨d, hd, hyd⟩ hz
    · exact absurd ⟨c, hc, hyz ▸ hyc⟩ hz
    · exact h.disjoint c hc d hd y hyc hyd

end Filing.Simple

/-! ### Free addresses -/

/-- There is a free block with this address. -/
def FreeAt (blocks : List Block) (x : Nat) : Prop := ∃ b ∈ blocks, b.addr = x ∧ b.alloc = false

@[simp] theorem freeAt_nil (x : Nat) : FreeAt [] x ↔ False := by simp [FreeAt]

@[simp] theorem freeAt_cons (b : Block) (blocks : List Block) (x : Nat) :
    FreeAt (b :: blocks) x ↔ (b.addr = x ∧ b.alloc = false) ∨ FreeAt blocks x := by
  simp [FreeAt]

@[simp] theorem freeAt_append (front back : List Block) (x : Nat) :
    FreeAt (front ++ back) x ↔ FreeAt front x ∨ FreeAt back x := by
  simp [FreeAt, or_and_right, exists_or]

theorem Tiles.freeAt_bounds {blocks : List Block} {first last x : Nat}
    (h : Tiles first blocks last) (hsized : ∀ b ∈ blocks, b.Sized) (hx : FreeAt blocks x) :
    first ≤ x ∧ x + 16 ≤ last := by
  obtain ⟨b, hb, rfl, -⟩ := hx
  have hbounds := h.bounds b hb
  have hsize := hsized b hb
  unfold Block.Sized at hsize
  omega

/-! ### Exchanging blocks -/

namespace Shape.Proper

variable {front middle middle' back : List Block} {L L' : Filing} {brk base : Nat} {σ : Shape}

/-- Blocks may be exchanged for others over the same extent. -/
theorem exchange (h : Shape.Proper ⟨front ++ middle ++ back, L, brk⟩ base)
    (middle' : List Block)
    (htiles : ∀ first last, Tiles first middle last → Tiles first middle' last)
    (hsized : ∀ b ∈ middle', b.Sized) (hsimple : L'.Simple)
    (hfiled : ∀ x, Filed L' x ↔ FreeAt middle' x ∨ (Filed L x ∧ ¬ FreeAt middle x)) :
    Shape.Proper ⟨front ++ middle' ++ back, L', brk⟩ base := by
  have hsizes : ∀ b ∈ front ++ middle ++ back, b.Sized := h.sized
  have hfront : ∀ b ∈ front, b.Sized := fun b hb ↦ hsizes b (by simp [hb])
  have hmiddle : ∀ b ∈ middle, b.Sized := fun b hb ↦ hsizes b (by simp [hb])
  have hback : ∀ b ∈ back, b.Sized := fun b hb ↦ hsizes b (by simp [hb])
  obtain ⟨last, hleft, hright⟩ := tiles_append.mp h.tiles
  obtain ⟨first, hstart, hcentre⟩ := tiles_append.mp hleft
  refine ⟨?_, fun b hb ↦ ?_, hsimple, fun x ↦ ?_⟩
  · exact tiles_append.mpr ⟨last, tiles_append.mpr ⟨first, hstart, htiles _ _ hcentre⟩, hright⟩
  · rcases List.mem_append.mp hb with hb | hb
    · rcases List.mem_append.mp hb with hb | hb
      · exact hfront b hb
      · exact hsized b hb
    · exact hback b hb
  · have hold := h.filed x
    change Filed L x ↔ FreeAt (front ++ middle ++ back) x at hold
    change Filed L' x ↔ FreeAt (front ++ middle' ++ back) x
    simp only [freeAt_append] at hold ⊢
    have hclearFront : FreeAt front x → ¬ FreeAt middle x := fun hf hm ↦ by
      have hboundsFront := hstart.freeAt_bounds hfront hf
      have hboundsMiddle := hcentre.freeAt_bounds hmiddle hm
      omega
    have hclearBack : FreeAt back x → ¬ FreeAt middle x := fun hf hm ↦ by
      have hboundsBack := hright.freeAt_bounds hback hf
      have hboundsMiddle := hcentre.freeAt_bounds hmiddle hm
      omega
    rw [hfiled x, hold]
    tauto

/-- A free block at the end. -/
theorem append (h : σ.Proper base) {b : Block} (haddr : b.addr = σ.brk) (hsized : b.Sized)
    (hfree : b.alloc = false) (hsimple : L'.Simple)
    (hfiled : ∀ x, Filed L' x ↔ x = b.addr ∨ Filed σ.lists x) :
    Shape.Proper ⟨σ.blocks ++ [b], L', σ.brk + b.size⟩ base where
  tiles := tiles_append.mpr ⟨σ.brk, h.tiles, haddr, by rw [haddr]; rfl⟩
  sized := fun c hc ↦ by
    rcases List.mem_append.mp hc with hc | hc
    · exact h.sized c hc
    · exact List.mem_singleton.mp hc ▸ hsized
  simple := hsimple
  filed := fun x ↦ by
    have hold := h.filed x
    change Filed σ.lists x ↔ FreeAt σ.blocks x at hold
    change Filed L' x ↔ FreeAt (σ.blocks ++ [b]) x
    rw [hfiled x, hold]
    simp only [freeAt_append, freeAt_cons, freeAt_nil, hfree, and_true, or_false]
    rw [or_comm, eq_comm]

theorem aligned (h : σ.Proper base) (hbase : base % 8 = 0) :
    (∀ b ∈ σ.blocks, b.addr % 8 = 0) ∧ σ.brk % 8 = 0 :=
  h.tiles.aligned h.sized (by unfold firstBlock; omega)

/-- No address within a block is filed, other than a free block's own. -/
theorem not_filed (h : σ.Proper base) {b : Block} (hb : b ∈ σ.blocks) {x : Nat}
    (hlow : b.addr ≤ x) (hhigh : x < b.addr + b.size) (hne : x = b.addr → b.alloc = true) :
    ¬ Filed σ.lists x := by
  intro hx
  obtain ⟨c, hc, rfl, hfree⟩ := (h.filed x).mp hx
  have hcsize := h.sized c hc
  unfold Block.Sized at hcsize
  have hcb : c = b := by
    obtain ⟨front, back, hsplit⟩ := List.append_of_mem hb
    have hsorted := h.tiles.sorted
    rw [hsplit] at hsorted hc
    obtain ⟨-, hbback, hfront⟩ := List.pairwise_append.mp hsorted
    rcases List.mem_append.mp hc with hc | hc
    · have hbefore := hfront c hc b List.mem_cons_self
      omega
    · rcases List.mem_cons.mp hc with rfl | hc
      · rfl
      · have hafter := (List.pairwise_cons.mp hbback).1 c hc
        omega
  subst hcb
  rw [hne rfl] at hfree
  exact absurd hfree (by simp)

theorem not_filed_brk (h : σ.Proper base) : ¬ Filed σ.lists σ.brk := by
  intro hx
  have hbounds := h.tiles.freeAt_bounds h.sized ((h.filed _).mp hx)
  omega

end Shape.Proper

/-! ### The operations -/

section Operations

variable {φ : Focus} {brk base : Nat} {σ : Shape}

theorem mem_unfileOption {L : Filing} (hL : L.Simple) (b : Option Block) {x c : Nat}
    (hc : c < sizeClassNum) : x ∈ unfileOption L b c ↔ x ∈ L c ∧ ∀ d ∈ b, x ≠ d.addr := by
  cases b with
  | none => simp [unfileOption]
  | some b => simp [unfileOption, mem_unfile hL hc]

theorem filed_unfileOption {L : Filing} (hL : L.Simple) (b : Option Block) (x : Nat) :
    Filed (unfileOption L b) x ↔ Filed L x ∧ ∀ d ∈ b, x ≠ d.addr := by
  cases b with
  | none => simp [unfileOption]
  | some b => simp [unfileOption, filed_unfile hL]

theorem splitFreeLast_mem (front : List Block) : ∀ q ∈ (splitFreeLast front).2, q.alloc = false :=
  fun _ hq ↦ splitFreeLast_free (Option.mem_def.mp hq)

theorem splitFreeHead_mem (back : List Block) : ∀ n ∈ (splitFreeHead back).1, n.alloc = false :=
  fun _ hn ↦ splitFreeHead_free (Option.mem_def.mp hn)

/-- A block joined with its neighbours covers their extent. -/
theorem tiles_joined {prev next : Option Block} {b : Block} {first last : Nat}
    (h : Tiles first (prev.toList ++ b :: next.toList) last) :
    Tiles first [joined prev b next] last := by
  rw [tiles_singleton]
  unfold joined
  cases prev <;> cases next <;> simp only [Option.toList_none, Option.toList_some,
    List.nil_append, List.cons_append, Tiles, Option.getD_none, Option.getD_some,
    Option.elim_none, Option.elim_some] at h ⊢ <;> omega

theorem sized_joined {prev next : Option Block} {b : Block} (hb : b.Sized)
    (hprev : ∀ q ∈ prev, q.Sized) (hnext : ∀ n ∈ next, n.Sized) :
    (joined prev b next).Sized := by
  unfold Block.Sized joined at *
  cases prev <;> cases next <;> simp only [Option.mem_def, Option.some.injEq, forall_eq',
    reduceCtorEq, IsEmpty.forall_iff, implies_true, Option.elim_none, Option.elim_some]
    at hprev hnext ⊢ <;> omega

namespace Focus

@[simp] theorem place_brk (φ : Focus) (asize cls brk : Nat) : (φ.place asize cls brk).brk = brk := by
  unfold Focus.place
  dsimp only
  split_ifs <;> rfl

theorem coalesce_block (hfree : φ.block.alloc = false) :
    φ.coalesce.block.alloc = false ∧ φ.block.size ≤ φ.coalesce.block.size ∧
      (φ.coalesce.block.bulk = true → φ.block.bulk = true) := by
  unfold Focus.coalesce joined
  dsimp only
  split_ifs with hnone
  · exact ⟨hfree, Nat.le_refl _, id⟩
  · exact ⟨rfl, by dsimp only; omega, fun h ↦ absurd h (by simp)⟩

theorem proper_coalesce (h : (φ.shape brk).Proper base) (hfree : φ.block.alloc = false) :
    (φ.coalesce.shape brk).Proper base := by
  obtain ⟨front, b, back, L⟩ := φ
  unfold Focus.coalesce
  dsimp only at hfree ⊢
  split_ifs with hnone
  · exact h
  have hq := splitFreeLast_mem front
  have hn := splitFreeHead_mem back
  have hfront := splitFreeLast_eq front
  have hback := splitFreeHead_eq back
  clear hnone
  generalize splitFreeLast front = prev at *
  generalize splitFreeHead back = next at *
  obtain ⟨start, q⟩ := prev
  obtain ⟨n, rest⟩ := next
  dsimp only at hfront hback hq hn ⊢
  subst hfront hback
  have hmiddle : Shape.Proper ⟨start ++ (q.toList ++ b :: n.toList) ++ rest, L, brk⟩ base := by
    simpa [Focus.shape] using h
  have hsized : ∀ c ∈ q.toList ++ b :: n.toList, c.Sized := fun c hc ↦
    hmiddle.sized c (List.mem_append_left _ (List.mem_append_right _ hc))
  have hL : L.Simple := h.simple
  have hsimple := ((hL.unfile b.addr).unfileOption n).unfileOption q
  have hfiled : ∀ x, Filed (unfileOption (unfileOption (unfile L b.addr) n) q) x ↔
      Filed L x ∧ ¬ FreeAt (q.toList ++ b :: n.toList) x := by
    intro x
    rw [filed_unfileOption ((hL.unfile b.addr).unfileOption n),
      filed_unfileOption (hL.unfile b.addr), filed_unfile hL]
    have hoption : ∀ c : Option Block, (∀ d ∈ c, d.alloc = false) →
        (FreeAt c.toList x ↔ ¬ ∀ d ∈ c, x ≠ d.addr) := by
      intro c hc
      cases c with
      | none => simp
      | some d => simpa [hc d rfl] using eq_comm
    simp only [freeAt_append, freeAt_cons, hoption q hq, hoption n hn, hfree, and_true, eq_comm]
    tauto
  have hmerged : (joined q b n).addr ∈ (q.toList ++ b :: n.toList).map Block.addr := by
    cases q <;> simp [joined]
  have hfresh : ¬ Filed (unfileOption (unfileOption (unfile L b.addr) n) q) (joined q b n).addr := by
    rw [hfiled]
    rintro ⟨-, hnot⟩
    obtain ⟨c, hc, haddr⟩ := List.mem_map.mp hmerged
    refine hnot ⟨c, hc, haddr, ?_⟩
    simp only [List.mem_append, Option.mem_toList, List.mem_cons] at hc
    rcases hc with hc | rfl | hc
    · exact hq c hc
    · exact hfree
    · exact hn c hc
  have hresult := hmiddle.exchange [joined q b n] (fun _ _ ↦ tiles_joined)
    (fun c hc ↦ List.mem_singleton.mp hc ▸ sized_joined (hsized b (by simp))
      (fun d hd ↦ hsized d (by simp [Option.mem_def.mp hd]))
      fun d hd ↦ hsized d (by simp [Option.mem_def.mp hd]))
    (hsimple.fileUnder (getSizeClass (joined q b n).size) hfresh) fun x ↦ by
      rw [filed_fileUnder (getSizeClass_lt _), hfiled]
      simp only [freeAt_cons, freeAt_nil, or_false, eq_comm (b := x)]
      simp [joined]
  simpa [Focus.shape] using hresult

/-- The block in focus, marked free and filed. -/
theorem proper_refile (h : (φ.shape brk).Proper base) (halloc : φ.block.alloc = true) :
    (Focus.shape ⟨φ.front, { φ.block with alloc := false }, φ.back,
      fileUnder φ.lists (getSizeClass φ.block.size) φ.block.addr⟩ brk).Proper base := by
  have hL : φ.lists.Simple := h.simple
  have hb : φ.block ∈ (φ.shape brk).blocks := by simp [Focus.shape]
  have hsized : φ.block.Sized := h.sized _ hb
  have hfresh : ¬ Filed φ.lists φ.block.addr := h.not_filed hb (Nat.le_refl _)
    (by unfold Block.Sized at hsized; omega) fun _ ↦ halloc
  have hmiddle : Shape.Proper ⟨φ.front ++ [φ.block] ++ φ.back, φ.lists, brk⟩ base := by
    simpa [Focus.shape] using h
  have hresult := hmiddle.exchange [{ φ.block with alloc := false }]
    (fun _ _ ht ↦ ht) (fun c hc ↦ List.mem_singleton.mp hc ▸ hsized)
    (hL.fileUnder (getSizeClass φ.block.size) hfresh) fun x ↦ by
      rw [filed_fileUnder (getSizeClass_lt _)]
      simp [halloc, eq_comm]
  simpa [Focus.shape] using hresult

theorem proper_free (h : (φ.shape brk).Proper base) (halloc : φ.block.alloc = true) :
    (φ.free.shape brk).Proper base :=
  proper_coalesce (proper_refile h halloc) rfl

/-- A block in two parts. -/
theorem proper_split {L' : Filing} {c d : Block} (h : (φ.shape brk).Proper base)
    (haddr : c.addr = φ.block.addr ∧ d.addr = c.addr + c.size)
    (hsize : c.size + d.size = φ.block.size) (hc : c.Sized) (hd : d.Sized)
    (hsimple : L'.Simple) (hfiled : ∀ x, Filed L' x ↔ FreeAt [c, d] x ∨
      (Filed φ.lists x ∧ ¬ FreeAt [φ.block] x)) :
    Shape.Proper ⟨φ.front ++ c :: d :: φ.back, L', brk⟩ base := by
  have hmiddle : Shape.Proper ⟨φ.front ++ [φ.block] ++ φ.back, φ.lists, brk⟩ base := by
    simpa [Focus.shape] using h
  have hresult := hmiddle.exchange [c, d] (fun first last ht ↦ ?_)
    (fun e he ↦ ?_) hsimple hfiled
  · simpa using hresult
  · obtain ⟨hfirst, hlast⟩ := tiles_singleton.mp ht
    refine ⟨haddr.1.trans hfirst, haddr.2, ?_⟩
    change d.addr + d.size = last
    omega
  · rcases List.mem_pair.mp he with rfl | rfl
    · exact hc
    · exact hd

theorem proper_place (h : (φ.shape brk).Proper base) (hfree : φ.block.alloc = false)
    {asize cls : Nat} (hasize : asize % 8 = 0 ∧ 16 ≤ asize) (hfits : asize ≤ φ.block.size) :
    (φ.place asize cls brk).Proper base := by
  have hL : φ.lists.Simple := h.simple
  have hb : φ.block ∈ (φ.shape brk).blocks := by simp [Focus.shape]
  have hsized : φ.block.Sized := h.sized _ hb
  have hfiledBlock : Filed φ.lists φ.block.addr := (h.filed _).mpr ⟨_, hb, rfl, hfree⟩
  unfold Block.Sized at hsized
  unfold Focus.place
  dsimp only
  split_ifs with hsplit hbulk
  · have hfresh : ¬ Filed φ.lists (φ.block.addr + asize) :=
      h.not_filed hb (by omega) (by omega) (by omega)
    refine proper_split h ⟨rfl, rfl⟩ (by dsimp only; omega)
      (by unfold Block.Sized; dsimp only; omega) (by unfold Block.Sized; dsimp only; omega)
      (hL.refile hfresh) fun x ↦ ?_
    rw [filed_refile hfiledBlock]
    simp [hfree, eq_comm]
  · have hfresh : ¬ Filed (unfile φ.lists φ.block.addr) (φ.block.addr + asize) := fun hx ↦
      h.not_filed hb (by omega) (by omega) (by omega) ((filed_unfile hL).mp hx).1
    refine proper_split h ⟨rfl, rfl⟩ (by dsimp only; omega)
      (by unfold Block.Sized; dsimp only; omega) (by unfold Block.Sized; dsimp only; omega)
      ((hL.unfile _).fileUnder _ hfresh) fun x ↦ ?_
    rw [filed_fileUnder (getSizeClass_lt _), filed_unfile hL]
    simp [hfree, eq_comm]
  · have hmiddle : Shape.Proper ⟨φ.front ++ [φ.block] ++ φ.back, φ.lists, brk⟩ base := by
      simpa [Focus.shape] using h
    have hresult := hmiddle.exchange
      [{ φ.block with alloc := true, bulk := false }] (fun _ _ ht ↦ ht)
      (fun c hc ↦ List.mem_singleton.mp hc ▸ hsized) (hL.unfile φ.block.addr) fun x ↦ by
        rw [filed_unfile hL]
        simp [hfree, eq_comm]
    simpa using hresult

/-- The block in focus, cut in two, with the second part marked free and filed. -/
theorem proper_cut (h : (φ.shape brk).Proper base) (halloc : φ.block.alloc = true) {asize : Nat}
    (hasize : asize % 8 = 0 ∧ 16 ≤ asize) (hrest : 16 ≤ φ.block.size - asize) :
    (Focus.shape ⟨φ.front ++ [⟨φ.block.addr, asize, true, φ.block.bulk⟩],
      ⟨φ.block.addr + asize, φ.block.size - asize, false, φ.block.bulk⟩, φ.back,
      fileUnder φ.lists (getSizeClass (φ.block.size - asize)) (φ.block.addr + asize)⟩ brk).Proper
      base := by
  have hL : φ.lists.Simple := h.simple
  have hb : φ.block ∈ (φ.shape brk).blocks := by simp [Focus.shape]
  have hsized : φ.block.Sized := h.sized _ hb
  unfold Block.Sized at hsized
  have hfresh : ¬ Filed φ.lists (φ.block.addr + asize) :=
    h.not_filed hb (by omega) (by omega) (by omega)
  have hresult := proper_split (c := ⟨φ.block.addr, asize, true, φ.block.bulk⟩)
    (d := ⟨φ.block.addr + asize, φ.block.size - asize, false, φ.block.bulk⟩) h ⟨rfl, rfl⟩
    (by dsimp only; omega) (by unfold Block.Sized; dsimp only; omega)
    (by unfold Block.Sized; dsimp only; omega)
    (hL.fileUnder (getSizeClass (φ.block.size - asize)) hfresh) fun x ↦ by
      rw [filed_fileUnder (getSizeClass_lt _)]
      simp [halloc, eq_comm]
  simpa [Focus.shape] using hresult

theorem proper_shrink (h : (φ.shape brk).Proper base) (halloc : φ.block.alloc = true)
    {asize : Nat} (hasize : asize % 8 = 0 ∧ 16 ≤ asize) :
    ((φ.shrink asize).shape brk).Proper base := by
  unfold Focus.shrink
  dsimp only
  split_ifs with hsplit
  · exact proper_coalesce (proper_cut h halloc hasize hsplit) rfl
  · exact h

end Focus

namespace Shape

/-- A free block at the end, filed under some class. -/
theorem proper_append (h : σ.Proper base) {b : Block} {c : Nat} (haddr : b.addr = σ.brk)
    (hsized : b.Sized) (hfree : b.alloc = false) (hcls : c < sizeClassNum) :
    Shape.Proper ⟨σ.blocks ++ [b], fileUnder σ.lists c b.addr, σ.brk + b.size⟩ base :=
  h.append haddr hsized hfree (h.simple.fileUnder _ (haddr ▸ h.not_filed_brk))
    fun _ ↦ filed_fileUnder hcls

theorem proper_extend (h : σ.Proper base) {asize : Nat} (hasize : asize % 8 = 0 ∧ 16 ≤ asize) :
    ((σ.extend asize).shape (σ.brk + asize)).Proper base :=
  Focus.proper_coalesce (proper_append h (b := ⟨σ.brk, asize, false, false⟩) rfl hasize rfl
    (getSizeClass_lt asize)) rfl

/-- An extension ends with a free block of at least the size asked for. -/
theorem extend_block (σ : Shape) (asize : Nat) : (σ.extend asize).block.alloc = false ∧
    asize ≤ (σ.extend asize).block.size ∧ (σ.extend asize).back = [] := by
  have hblock := Focus.coalesce_block (φ := ⟨σ.blocks, ⟨σ.brk, asize, false, false⟩, [],
    fileUnder σ.lists (getSizeClass asize) σ.brk⟩) rfl
  refine ⟨hblock.1, hblock.2.1, ?_⟩
  unfold extend Focus.coalesce
  dsimp only
  split_ifs <;> rfl

theorem extendBulk_block (σ : Shape) (asize : Nat) : (σ.extendBulk asize).block.alloc = false ∧
    8 * asize ≤ (σ.extendBulk asize).block.size ∧ (σ.extendBulk asize).back = [] := by
  unfold extendBulk
  split
  · split_ifs <;> simp
  · simp

theorem proper_extendBulk (h : σ.Proper base) {asize : Nat}
    (hasize : asize % 8 = 0 ∧ 16 ≤ asize) :
    ((σ.extendBulk asize).shape (σ.brk + 8 * asize)).Proper base := by
  have hplain : Shape.Proper ⟨σ.blocks ++ [⟨σ.brk, 8 * asize, false, true⟩],
      fileUnder σ.lists (getSizeClass asize) σ.brk, σ.brk + 8 * asize⟩ base :=
    proper_append h (b := ⟨σ.brk, 8 * asize, false, true⟩) rfl
      (by unfold Block.Sized; dsimp only; omega) rfl (getSizeClass_lt asize)
  unfold extendBulk
  split
  · next q hq =>
    split_ifs with hbulk
    · exact hplain
    · have hq' : q.alloc = false := splitFreeLast_free hq
      have hblocks := splitFreeLast_eq σ.blocks
      rw [hq, Option.toList_some] at hblocks
      generalize (splitFreeLast σ.blocks).1 = start at *
      have hL := h.simple
      have hend : q.addr + q.size = σ.brk := by
        have htiles := h.tiles
        rw [hblocks] at htiles
        obtain ⟨middle, -, -, hlast⟩ := tiles_append.mp htiles
        exact hlast
      have hqsized : q.Sized := h.sized q (by simp [hblocks])
      have hqfiled : Filed σ.lists q.addr := (h.filed _).mpr ⟨q, by simp [hblocks], rfl, hq'⟩
      unfold Block.Sized at hqsized
      have hmiddle : Shape.Proper ⟨start ++ [q, ⟨σ.brk, 8 * asize, false, true⟩] ++ [],
          fileUnder σ.lists (getSizeClass asize) σ.brk, σ.brk + 8 * asize⟩ base := by
        simpa [hblocks] using hplain
      have hresult := hmiddle.exchange [⟨q.addr, 8 * asize + q.size, false, true⟩]
        (fun first last ht ↦ ?_) (fun c hc ↦ ?_)
        ((hL.unfile q.addr).fileUnder (getSizeClass asize)
          fun hx ↦ ((filed_unfile hL).mp hx).2 rfl) fun x ↦ ?_
      · simpa [Focus.shape] using hresult
      · obtain ⟨hfirst, haddr, hlast⟩ := ht
        refine tiles_singleton.mpr ⟨hfirst, ?_⟩
        change q.addr + (8 * asize + q.size) = last
        change σ.brk + 8 * asize = last at hlast
        omega
      · rw [List.mem_singleton.mp hc]
        unfold Block.Sized
        dsimp only
        omega
      · have hbrk : Filed σ.lists x → x ≠ σ.brk := by
          rintro hx rfl
          exact h.not_filed_brk hx
        rw [filed_fileUnder (getSizeClass_lt _), filed_fileUnder (getSizeClass_lt _),
          filed_unfile hL]
        simp only [freeAt_cons, freeAt_nil, hq', and_true, or_false, eq_comm (b := x)]
        tauto
  · exact hplain

end Shape

end Operations

end SystemProgramming.MemoryLab
