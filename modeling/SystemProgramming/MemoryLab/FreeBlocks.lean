import SystemProgramming.MemoryLab.Shapes

/-!
# Where the free blocks are

Two laws of the block structure that every request preserves, on shapes. No two neighbouring blocks
are free (`Coalesced`): an extension by a bulk block may break this for a moment, and the placement
that follows restores it. Every free block is on a list that suits it (`Block.SuitedTo`): the list
of its size class, or, with the bulk tag, some list whose lower bound its size exceeds.
-/

set_option autoImplicit false
set_option relaxedAutoImplicit false

namespace SystemProgramming.MemoryLab

open Library

/-! ### No two neighbouring free blocks -/

/-- Of two neighbouring blocks one is allocated. -/
abbrev Coalesced (blocks : List Block) : Prop :=
  blocks.IsChain fun a b ↦ a.alloc = true ∨ b.alloc = true

theorem coalesced_insert {front back : List Block} {b : Block} :
    Coalesced (front ++ b :: back) ↔ Coalesced front ∧ Coalesced back ∧
      (b.alloc = true ∨ ((∀ q ∈ front.getLast?, q.alloc = true) ∧
        ∀ n ∈ back.head?, n.alloc = true)) := by
  simp only [Coalesced, List.isChain_append, List.isChain_cons, List.head?_cons,
    Option.mem_some_iff, forall_eq']
  cases hb : b.alloc
  · simp only [Bool.false_eq_true, or_false, false_or]
    tauto
  · simp only [or_true, implies_true, and_true, true_or, true_and]

theorem coalesced_coalesce {φ : Focus} (hfront : Coalesced φ.front) (hback : Coalesced φ.back) :
    Coalesced (φ.coalesce.front ++ φ.coalesce.block :: φ.coalesce.back) := by
  obtain ⟨front, b, back, L⟩ := φ
  dsimp only at hfront hback
  have hstart : Coalesced (splitFreeLast front).1 ∧
      ∀ q ∈ (splitFreeLast front).1.getLast?, q.alloc = true := by
    have heq := splitFreeLast_eq front
    rcases hq : (splitFreeLast front).2 with _ | q
    · rw [hq, Option.toList_none, List.append_nil] at heq
      rw [← heq]
      exact ⟨hfront, splitFreeLast_alloc hq⟩
    · rw [hq, Option.toList_some] at heq
      rw [heq, coalesced_insert, splitFreeLast_free hq] at hfront
      exact ⟨hfront.1, (hfront.2.2.resolve_left (by simp)).1⟩
  have hrest : Coalesced (splitFreeHead back).2 ∧
      ∀ n ∈ (splitFreeHead back).2.head?, n.alloc = true := by
    have heq := splitFreeHead_eq back
    rcases hn : (splitFreeHead back).1 with _ | n
    · rw [hn, Option.toList_none, List.nil_append] at heq
      rw [← heq]
      exact ⟨hback, splitFreeHead_alloc hn⟩
    · rw [hn, Option.toList_some, List.singleton_append] at heq
      rw [heq, ← List.nil_append (n :: _), coalesced_insert, splitFreeHead_free hn] at hback
      exact ⟨hback.2.1, (hback.2.2.resolve_left (by simp)).2⟩
  unfold Focus.coalesce
  dsimp only
  split_ifs with hnone
  · exact coalesced_insert.mpr ⟨hfront, hback, Or.inr ⟨splitFreeLast_alloc hnone.1,
      splitFreeHead_alloc hnone.2⟩⟩
  · exact coalesced_insert.mpr ⟨hstart.1, hrest.1, Or.inr ⟨hstart.2, hrest.2⟩⟩

/-- Placing separates the rest of a block from what is before it. -/
theorem coalesced_place {φ : Focus} {asize cls brk : Nat} (hfront : Coalesced φ.front)
    (hback : Coalesced φ.back) (hhead : ∀ n ∈ φ.back.head?, n.alloc = true) :
    Coalesced (φ.place asize cls brk).blocks := by
  have hrest : ∀ d : Block, Coalesced (d :: φ.back) := fun d ↦
    show Coalesced ([] ++ d :: φ.back) from
      coalesced_insert.mpr ⟨List.IsChain.nil, hback, Or.inr ⟨by simp, hhead⟩⟩
  unfold Focus.place
  dsimp only
  split_ifs
  · exact coalesced_insert.mpr ⟨hfront, hrest _, Or.inl rfl⟩
  · exact coalesced_insert.mpr ⟨hfront, hrest _, Or.inl rfl⟩
  · exact coalesced_insert.mpr ⟨hfront, hback, Or.inl rfl⟩

theorem coalesced_free {φ : Focus} (h : Coalesced (φ.front ++ φ.block :: φ.back)) :
    Coalesced (φ.free.front ++ φ.free.block :: φ.free.back) := by
  obtain ⟨hfront, hback, -⟩ := coalesced_insert.mp h
  exact coalesced_coalesce hfront hback

theorem coalesced_shrink {φ : Focus} {asize : Nat} (h : Coalesced (φ.front ++ φ.block :: φ.back)) :
    Coalesced ((φ.shrink asize).front ++ (φ.shrink asize).block :: (φ.shrink asize).back) := by
  obtain ⟨hfront, hback, -⟩ := coalesced_insert.mp h
  unfold Focus.shrink
  dsimp only
  split_ifs
  · exact coalesced_coalesce (coalesced_insert.mpr ⟨hfront, List.IsChain.nil, Or.inl rfl⟩) hback
  · exact h

/-! ### Lists that suit their blocks -/

/-- A list a free block may be on. -/
def Block.SuitedTo (b : Block) (cls : Nat) : Prop :=
  if b.bulk = true then getLowerBound cls < b.size else cls = getSizeClass b.size

/-- Every free block is on a list that suits it. -/
def Shape.Suited (σ : Shape) : Prop :=
  ∀ b ∈ σ.blocks, b.alloc = false → ∀ c < sizeClassNum, b.addr ∈ σ.lists c → b.SuitedTo c

theorem Block.suitedTo_getSizeClass {b : Block} (h : b.Sized) :
    b.SuitedTo (getSizeClass b.size) := by
  unfold Block.Sized at h
  unfold SuitedTo
  split_ifs
  · exact getLowerBound_getSizeClass_lt (by omega)
  · rfl

namespace Shape.Suited

variable {front middle middle' back : List Block} {L L' : Filing} {brk brk' base : Nat} {σ : Shape}

/-- Blocks that are exchanged for others need suitable lists; the rest stay where they are. -/
theorem exchange (h : Shape.Suited ⟨front ++ middle ++ back, L, brk⟩) (middle' : List Block)
    (brk' : Nat)
    (hproper : Shape.Proper ⟨front ++ middle' ++ back, L', brk'⟩ base)
    (hnew : ∀ b ∈ middle', b.alloc = false → ∀ c < sizeClassNum, b.addr ∈ L' c → b.SuitedTo c)
    (hold : ∀ c < sizeClassNum, ∀ x ∈ L' c, x ∈ L c ∨ ∃ d ∈ middle', d.addr = x) :
    Shape.Suited ⟨front ++ middle' ++ back, L', brk'⟩ := by
  intro b hb hfree c hc hmem
  by_cases hmiddle : b ∈ middle'
  · exact hnew b hmiddle hfree c hc hmem
  · have hkeep : b ∈ front ++ middle ++ back := by
      simp only [List.mem_append] at hb ⊢
      tauto
    rcases hold c hc _ hmem with hL | ⟨d, hd, haddr⟩
    · exact h b hkeep hfree c hc hL
    · have heq := eq_of_addr_eq hproper.tiles.sorted hproper.sized hb (c := d) (by simp [hd])
        haddr.symm
      exact absurd (heq ▸ hd) hmiddle

end Shape.Suited

/-! ### The operations -/

section Operations

variable {φ : Focus} {brk base asize cls : Nat} {σ : Shape}

namespace Focus

theorem suited_coalesce (h : (φ.shape brk).Suited) (hproper : (φ.shape brk).Proper base)
    (hfree : φ.block.alloc = false) : (φ.coalesce.shape brk).Suited := by
  have hresult := proper_coalesce hproper hfree
  obtain ⟨front, b, back, L⟩ := φ
  unfold Focus.coalesce at hresult ⊢
  dsimp only at hresult ⊢
  split_ifs at hresult ⊢ with hnone
  · exact h
  have hfront := splitFreeLast_eq front
  have hback := splitFreeHead_eq back
  clear hnone
  generalize splitFreeLast front = prev at *
  generalize splitFreeHead back = next at *
  obtain ⟨start, q⟩ := prev
  obtain ⟨n, rest⟩ := next
  dsimp only at hfront hback hresult ⊢
  subst hfront hback
  have hL : L.Simple := hproper.simple
  have hmiddle : Shape.Suited ⟨start ++ (q.toList ++ b :: n.toList) ++ rest, L, brk⟩ := by
    simpa [Focus.shape] using h
  have hproper' : Shape.Proper ⟨start ++ [joined q b n] ++ rest,
      fileUnder (unfileOption (unfileOption (unfile L b.addr) n) q)
        (getSizeClass (joined q b n).size) (joined q b n).addr, brk⟩ base := by
    simpa [Focus.shape] using hresult
  have hsub : ∀ c < sizeClassNum, ∀ x ∈ unfileOption (unfileOption (unfile L b.addr) n) q c,
      x ∈ L c ∧ x ≠ (joined q b n).addr := by
    intro c hc x hx
    rw [mem_unfileOption ((hL.unfile b.addr).unfileOption n) q hc,
      mem_unfileOption (hL.unfile b.addr) n hc, mem_unfile hL hc] at hx
    refine ⟨hx.1.1.1, ?_⟩
    cases q with
    | none => exact hx.1.1.2
    | some q => exact hx.2 q rfl
  have hexchange := hmiddle.exchange _ _ hproper' (fun d hd _ c hc hmem ↦ ?_) fun c hc x hx ↦ ?_
  · simpa [Focus.shape] using hexchange
  · obtain rfl := List.mem_singleton.mp hd
    rcases mem_fileUnder.mp hmem with ⟨-, rfl⟩ | hold
    · exact Block.suitedTo_getSizeClass (hproper'.sized _ (by simp))
    · exact absurd rfl (hsub c hc _ hold).2
  · rcases mem_fileUnder.mp hx with ⟨rfl, -⟩ | hold
    · exact Or.inr ⟨_, List.mem_singleton_self _, rfl⟩
    · exact Or.inl (hsub c hc x hold).1

theorem suited_free (h : (φ.shape brk).Suited) (hproper : (φ.shape brk).Proper base)
    (halloc : φ.block.alloc = true) : (φ.free.shape brk).Suited := by
  obtain ⟨front, b, back, L⟩ := φ
  dsimp only at halloc
  have hproper' := proper_refile hproper halloc
  refine suited_coalesce ?_ hproper' rfl
  have hb : b ∈ front ++ b :: back := by simp
  have hsized : b.Sized := hproper.sized b hb
  have hfresh : ¬ Filed L b.addr := hproper.not_filed hb (Nat.le_refl _)
    (by unfold Block.Sized at hsized; omega) fun _ ↦ halloc
  have hmiddle : Shape.Suited ⟨front ++ [b] ++ back, L, brk⟩ := by
    simpa [Focus.shape] using h
  have hexchange := hmiddle.exchange [{ b with alloc := false }] brk
    (by simpa [Focus.shape] using hproper') (fun d hd _ c hc hmem ↦ ?_) fun c hc x hx ↦ ?_
  · simpa [Focus.shape] using hexchange
  · obtain rfl := List.mem_singleton.mp hd
    rcases mem_fileUnder.mp hmem with ⟨-, rfl⟩ | hold
    · exact Block.suitedTo_getSizeClass (b := { b with alloc := false }) hsized
    · exact absurd ⟨c, hc, hold⟩ hfresh
  · rcases mem_fileUnder.mp hx with ⟨rfl, -⟩ | hold
    · exact Or.inr ⟨_, List.mem_singleton_self _, rfl⟩
    · exact Or.inl hold

theorem suited_place (h : (φ.shape brk).Suited) (hproper : (φ.shape brk).Proper base)
    (hfree : φ.block.alloc = false) (hasize : asize % 8 = 0 ∧ 16 ≤ asize)
    (hfits : asize ≤ φ.block.size)
    (hcls : φ.block.bulk = true → ∀ c < sizeClassNum, φ.block.addr ∈ φ.lists c →
      getLowerBound c ≤ getLowerBound cls ∨ getLowerBound c < φ.block.size - asize) :
    (φ.place asize cls brk).Suited := by
  have hproper' : (φ.place asize cls brk).Proper base := proper_place hproper hfree hasize hfits
  have hb : φ.block ∈ (φ.shape brk).blocks := by simp [Focus.shape]
  have hL : φ.lists.Simple := hproper.simple
  have hsized : φ.block.Sized := hproper.sized _ hb
  unfold Block.Sized at hsized
  have hmiddle : Shape.Suited ⟨φ.front ++ [φ.block] ++ φ.back, φ.lists, brk⟩ := by
    simpa [Focus.shape] using h
  have hinside : 16 ≤ φ.block.size - asize → ¬ Filed φ.lists (φ.block.addr + asize) := fun hrest ↦
    hproper.not_filed hb (by omega) (by omega) (by omega)
  unfold Focus.place at hproper' ⊢
  dsimp only at hproper' ⊢
  split_ifs at hproper' ⊢ with hsplit hbulk
  · have hexchange := hmiddle.exchange [⟨φ.block.addr, asize, true, true⟩,
        ⟨φ.block.addr + asize, φ.block.size - asize, false, true⟩] brk
      (by simpa using hproper') (fun d hd hdfree c hc hmem ↦ ?_) fun c hc x hx ↦ ?_
    · simpa using hexchange
    · rcases List.mem_pair.mp hd with rfl | rfl
      · exact absurd hdfree (by simp)
      · rcases mem_refile.mp hmem with ⟨hold, -⟩ | ⟨hold, -⟩
        · have hbound := hcls hbulk.1 c hc hold
          unfold Block.SuitedTo
          rw [if_pos rfl]
          dsimp only
          omega
        · exact absurd ⟨c, hc, hold⟩ (hinside hsplit)
    · rcases mem_refile.mp hx with ⟨-, rfl⟩ | ⟨hold, -⟩
      · exact Or.inr ⟨_, List.mem_cons_of_mem _ (List.mem_singleton_self _), rfl⟩
      · exact Or.inl hold
  · have hexchange := hmiddle.exchange [⟨φ.block.addr, asize, true, false⟩,
        ⟨φ.block.addr + asize, φ.block.size - asize, false, false⟩] brk
      (by simpa using hproper') (fun d hd hdfree c hc hmem ↦ ?_) fun c hc x hx ↦ ?_
    · simpa using hexchange
    · rcases List.mem_pair.mp hd with rfl | rfl
      · exact absurd hdfree (by simp)
      · rcases mem_fileUnder.mp hmem with ⟨-, rfl⟩ | hold
        · exact Block.suitedTo_getSizeClass ⟨by dsimp only; omega, hsplit⟩
        · exact absurd ⟨c, hc, ((mem_unfile hL hc).mp hold).1⟩ (hinside hsplit)
    · rcases mem_fileUnder.mp hx with ⟨rfl, -⟩ | hold
      · exact Or.inr ⟨_, List.mem_cons_of_mem _ (List.mem_singleton_self _), rfl⟩
      · exact Or.inl ((mem_unfile hL hc).mp hold).1
  · have hexchange := hmiddle.exchange
      [{ φ.block with alloc := true, bulk := false }] brk
      (by simpa using hproper') (fun d hd hdfree c hc hmem ↦ ?_) fun c hc x hx ↦ ?_
    · simpa using hexchange
    · obtain rfl := List.mem_singleton.mp hd
      exact absurd hdfree (by simp)
    · exact Or.inl ((mem_unfile hL hc).mp hx).1

theorem suited_shrink (h : (φ.shape brk).Suited) (hproper : (φ.shape brk).Proper base)
    (halloc : φ.block.alloc = true) (hasize : asize % 8 = 0 ∧ 16 ≤ asize) :
    ((φ.shrink asize).shape brk).Suited := by
  unfold Focus.shrink
  dsimp only
  split_ifs with hsplit
  · have hproper' := proper_cut hproper halloc hasize hsplit
    refine suited_coalesce ?_ hproper' rfl
    have hb : φ.block ∈ (φ.shape brk).blocks := by simp [Focus.shape]
    have hsized : φ.block.Sized := hproper.sized _ hb
    unfold Block.Sized at hsized
    have hfresh : ¬ Filed φ.lists (φ.block.addr + asize) :=
      hproper.not_filed hb (by omega) (by omega) (by omega)
    have hmiddle : Shape.Suited ⟨φ.front ++ [φ.block] ++ φ.back, φ.lists, brk⟩ := by
      simpa [Focus.shape] using h
    have hexchange := hmiddle.exchange [⟨φ.block.addr, asize, true, φ.block.bulk⟩,
        ⟨φ.block.addr + asize, φ.block.size - asize, false, φ.block.bulk⟩] brk
      (by simpa [Focus.shape] using hproper') (fun d hd hdfree c hc hmem ↦ ?_) fun c hc x hx ↦ ?_
    · simpa [Focus.shape] using hexchange
    · rcases List.mem_pair.mp hd with rfl | rfl
      · exact absurd hdfree (by simp)
      · rcases mem_fileUnder.mp hmem with ⟨-, rfl⟩ | hold
        · exact Block.suitedTo_getSizeClass
            (b := ⟨φ.block.addr + asize, φ.block.size - asize, false, φ.block.bulk⟩)
            ⟨by dsimp only; omega, hsplit⟩
        · exact absurd ⟨c, hc, hold⟩ hfresh
    · rcases mem_fileUnder.mp hx with ⟨rfl, -⟩ | hold
      · exact Or.inr ⟨_, List.mem_cons_of_mem _ (List.mem_singleton_self _), rfl⟩
      · exact Or.inl hold
  · exact h

end Focus

namespace Shape

/-- A free block at the end, on a list that suits it. -/
theorem Suited.append (h : σ.Suited) {b : Block} {c : Nat} {brk' : Nat}
    (hproper : Shape.Proper ⟨σ.blocks ++ [b], fileUnder σ.lists c b.addr, brk'⟩ base)
    (hsuited : b.SuitedTo c) (hb : ¬ Filed σ.lists b.addr) :
    Shape.Suited ⟨σ.blocks ++ [b], fileUnder σ.lists c b.addr, brk'⟩ := by
  have hold : Shape.Suited ⟨σ.blocks ++ [] ++ [], σ.lists, σ.brk⟩ := by simpa using h
  have hexchange := hold.exchange [b] brk' (by simpa using hproper)
    (fun d hd _ e he hmem ↦ ?_) fun e he x hx ↦ ?_
  · simpa using hexchange
  · obtain rfl := List.mem_singleton.mp hd
    rcases mem_fileUnder.mp hmem with ⟨-, rfl⟩ | hfiled
    · exact hsuited
    · exact absurd ⟨e, he, hfiled⟩ hb
  · rcases mem_fileUnder.mp hx with ⟨rfl, -⟩ | hfiled
    · exact Or.inr ⟨_, List.mem_singleton_self _, rfl⟩
    · exact Or.inl hfiled

theorem suited_extend (h : σ.Suited) (hproper : σ.Proper base)
    (hasize : asize % 8 = 0 ∧ 16 ≤ asize) :
    ((σ.extend asize).shape (σ.brk + asize)).Suited := by
  have happend := proper_append hproper (b := ⟨σ.brk, asize, false, false⟩)
    (c := getSizeClass asize) rfl hasize rfl (getSizeClass_lt _)
  exact Focus.suited_coalesce (h.append happend
    (Block.suitedTo_getSizeClass (b := ⟨σ.brk, asize, false, false⟩) hasize)
    hproper.not_filed_brk) happend rfl

theorem suited_extendBulk (h : σ.Suited) (hproper : σ.Proper base)
    (hasize : asize % 8 = 0 ∧ 16 ≤ asize) :
    ((σ.extendBulk asize).shape (σ.brk + 8 * asize)).Suited := by
  have hresult := proper_extendBulk hproper hasize
  have hbound := getLowerBound_getSizeClass_lt (show 0 < asize by omega)
  have hplain : Shape.Suited ⟨σ.blocks ++ [⟨σ.brk, 8 * asize, false, true⟩],
      fileUnder σ.lists (getSizeClass asize) σ.brk, σ.brk + 8 * asize⟩ := by
    refine h.append (b := ⟨σ.brk, 8 * asize, false, true⟩)
      (proper_append hproper rfl (by unfold Block.Sized; dsimp only; omega) rfl
        (getSizeClass_lt _)) ?_ hproper.not_filed_brk
    unfold Block.SuitedTo
    rw [if_pos rfl]
    dsimp only
    omega
  unfold extendBulk at hresult ⊢
  split
  · next q hq =>
    simp only [hq] at hresult
    split_ifs at hresult ⊢ with hbulk
    · exact hplain
    · have hblocks := splitFreeLast_eq σ.blocks
      rw [hq, Option.toList_some] at hblocks
      generalize (splitFreeLast σ.blocks).1 = start at *
      have hL := hproper.simple
      have hold : Shape.Suited ⟨start ++ [q] ++ [], σ.lists, σ.brk⟩ := by
        rw [List.append_nil, ← hblocks]
        exact h
      have hexchange := hold.exchange
        [⟨q.addr, 8 * asize + q.size, false, true⟩] (σ.brk + 8 * asize) (by simpa [Focus.shape] using hresult)
        (fun d hd _ e he hmem ↦ ?_) fun e he x hx ↦ ?_
      · simpa [Focus.shape] using hexchange
      · obtain rfl := List.mem_singleton.mp hd
        rcases mem_fileUnder.mp hmem with ⟨-, rfl⟩ | hfiled
        · unfold Block.SuitedTo
          rw [if_pos rfl]
          dsimp only
          omega
        · exact absurd rfl ((mem_unfile hL he).mp hfiled).2
      · rcases mem_fileUnder.mp hx with ⟨rfl, -⟩ | hfiled
        · exact Or.inr ⟨_, List.mem_singleton_self _, rfl⟩
        · exact Or.inl ((mem_unfile hL he).mp hfiled).1
  · exact hplain

end Shape

end Operations

end SystemProgramming.MemoryLab
