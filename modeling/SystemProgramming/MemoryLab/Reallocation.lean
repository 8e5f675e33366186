import SystemProgramming.MemoryLab.Growing
import SystemProgramming.MemoryLab.Traces

/-!
# What `mm_realloc` does to its block

`mm_realloc` computes the room that would be left over as a difference of unsigned sizes. When the
block is to grow the difference wraps to a huge size, so the branch for blocks that shrink is taken
every time, and the branches that merge with the next block or move the data are never reached
(`mmRealloc_growing`). `Request.HasRoom` says when this goes well: the block is large enough as it
is, or the next one is free and the new end leaves sixteen bytes on either side of it. Elsewhere the
block runs over the next one.
-/

set_option autoImplicit false
set_option relaxedAutoImplicit false

namespace SystemProgramming.MemoryLab

open Library

/-! ### The branch that is taken -/

/-- Only bytes have changed. -/
def OnlyBytes (h h' : Heap) : Prop := ∃ m, h' = h.store m

theorem OnlyBytes.refl (h : Heap) : OnlyBytes h h := ⟨h.bytes, rfl⟩

theorem OnlyBytes.trans {h₁ h₂ h₃ : Heap} (h : OnlyBytes h₁ h₂) (h' : OnlyBytes h₂ h₃) :
    OnlyBytes h₁ h₃ := by
  obtain ⟨m, rfl⟩ := h
  obtain ⟨m', rfl⟩ := h'
  exact ⟨m', rfl⟩

/-- A program that changes nothing but bytes. -/
abbrev Writes {α : Type} (P : α → Prop) (x : HeapM α) : Prop := Within OnlyBytes P x

namespace Writes

variable {α β : Type} {P : α → Prop} {T : β → Prop} {x : HeapM α}

theorem pure {a : α} (ha : P a) : Writes P (Pure.pure a : HeapM α) := Within.pure OnlyBytes.refl ha

theorem bind {f : α → HeapM β} (hx : Writes (fun _ ↦ True) x) (hf : ∀ a, Writes T (f a)) :
    Writes T (x >>= f) :=
  Within.bind (R := OnlyBytes) (fun _ _ _ h h' ↦ h.trans h') hx fun a _ ↦ hf a

theorem getWord (p : Nat) : Writes (fun _ ↦ True) (getWord p) := by
  intro h a h' hx
  by_cases hp : h.InArena p
  · have hread : Returns (MemoryLab.getWord p) h fun _ t ↦ t = h := (returns_getWord hp _).mpr rfl
    rw [returns_iff_of_eq hx] at hread
    exact ⟨⟨h.bytes, hread⟩, trivial⟩
  · rw [getWord_eq_none hp] at hx
    exact absurd hx (by simp)

theorem putWordAt (p v : Nat) : Writes (fun _ ↦ True) (putWordAt p v) := by
  intro h a h' hx
  by_cases hp : h.InArena p
  · have hwrite : Returns (MemoryLab.putWordAt p v) h fun _ t ↦ t = h.store (putWord h.bytes p v) :=
      (returns_putWordAt hp _).mpr rfl
    rw [returns_iff_of_eq hx] at hwrite
    exact ⟨⟨_, hwrite⟩, trivial⟩
  · rw [putWordAt_eq_none hp] at hx
    exact absurd hx (by simp)

theorem getSize (p : Nat) : Writes (fun _ ↦ True) (getSize p) :=
  bind (getWord p) fun _ ↦ pure trivial

theorem getAlloc (p : Nat) : Writes (fun _ ↦ True) (getAlloc p) :=
  bind (getWord p) fun _ ↦ pure trivial

theorem getIsbulk (p : Nat) : Writes (fun _ ↦ True) (getIsbulk p) :=
  bind (getWord p) fun _ ↦ pure trivial

theorem nextBlkp (bp : Nat) : Writes (fun _ ↦ True) (nextBlkp bp) :=
  bind (getSize _) fun _ ↦ pure trivial

theorem prevBlkp (bp : Nat) : Writes (fun _ ↦ True) (prevBlkp bp) :=
  bind (getSize _) fun _ ↦ pure trivial

theorem ftrp (bp : Nat) : Writes (fun _ ↦ True) (ftrp bp) :=
  bind (getSize _) fun _ ↦ pure trivial

theorem getClassRoot (cls : Nat) : Writes (fun _ ↦ True) (getClassRoot cls) := by
  intro h a h' hx
  obtain ⟨-, rfl⟩ := Prod.mk.inj (Option.some.inj hx)
  exact ⟨OnlyBytes.refl _, trivial⟩

theorem setBoundaryTag (bp asize tag : Nat) : Writes (fun _ ↦ True) (setBoundaryTag bp asize tag) :=
  bind (putWordAt _ _) fun _ ↦ bind (ftrp bp) fun _ ↦ putWordAt _ _

theorem insertBlock (bp asize : Nat) : Writes (fun _ ↦ True) (insertBlock bp asize) :=
  bind (getClassRoot _) fun _ ↦ bind (putWordAt _ _) fun _ ↦ bind (getWord _) fun _ ↦
    bind (putWordAt _ _) fun _ ↦ bind (getWord _) fun _ ↦ bind (putWordAt _ _) fun _ ↦ putWordAt _ _

theorem removeFromList (bp : Nat) : Writes (fun _ ↦ True) (removeFromList bp) :=
  bind (getWord _) fun _ ↦ bind (getWord _) fun _ ↦ bind (putWordAt _ _) fun _ ↦
    bind (getWord _) fun _ ↦ bind (getWord _) fun _ ↦ putWordAt _ _

theorem absorbNext (bp size : Nat) : Writes (fun _ ↦ True) (absorbNext bp size) :=
  bind (nextBlkp bp) fun _ ↦ bind (getSize _) fun _ ↦ bind (removeFromList _) fun _ ↦ pure trivial

theorem absorbPrev (bp size : Nat) : Writes (fun _ ↦ True) (absorbPrev bp size) :=
  bind (prevBlkp bp) fun _ ↦ bind (removeFromList _) fun _ ↦ bind (getSize _) fun _ ↦ pure trivial

theorem coalesce (bp : Nat) : Writes (fun _ ↦ True) (coalesce bp) :=
  bind (prevBlkp bp) fun _ ↦ bind (ftrp _) fun _ ↦ bind (getAlloc _) fun _ ↦
    bind (nextBlkp bp) fun _ ↦ bind (getAlloc _) fun _ ↦ bind (getSize _) fun _ ↦
      .ite (pure trivial) (bind (removeFromList bp) fun _ ↦
        bind (.ite (absorbNext _ _) (pure trivial)) fun _ ↦
          bind (.ite (absorbPrev _ _) (pure trivial)) fun _ ↦
            bind (setBoundaryTag _ _ _) fun _ ↦ bind (insertBlock _ _) fun _ ↦ pure trivial)

end Writes

/-- A block that is to grow is treated as one that shrinks: the pointer comes back, and only bytes
have changed. -/
theorem mmRealloc_growing {h h' : Heap} {p t size q : Nat} (hp : p ≠ null) (ht : t ≠ 0)
    (hsize : ∀ Q : Nat → Heap → Prop, Returns (getSize (hdrp p)) h Q ↔ Q size h)
    (hgrow : minBlockSize ≤ subWord size (align (addWord t dsize)))
    (hret : mmRealloc p t h = some (q, h')) : q = p ∧ OnlyBytes h h' := by
  have hreturns : Returns (mmRealloc p t) h fun a b ↦ a = q ∧ b = h' := ⟨q, h', hret, rfl, rfl⟩
  rw [mmRealloc, show loopFuel = (2 ^ 32 - 1) + 1 from rfl, reallocLoop, returns_ite, if_neg hp,
    returns_ite, if_neg ht, returns_bind, hsize] at hreturns
  simp only at hreturns
  rw [returns_ite, if_pos hgrow] at hreturns
  have hwrites := hreturns.within (R := OnlyBytes) (P := fun a ↦ a = p)
    (Writes.bind (.getIsbulk _) fun _ ↦ .bind (.setBoundaryTag _ _ _) fun _ ↦
      .bind (.nextBlkp _) fun _ ↦ .bind (.getIsbulk _) fun _ ↦ .bind (.setBoundaryTag _ _ _) fun _ ↦
        .bind (.nextBlkp _) fun _ ↦ .bind (.insertBlock _ _) fun _ ↦ .bind (.nextBlkp _) fun _ ↦
          .bind (.coalesce _) fun _ ↦ .pure rfl)
  obtain ⟨a, b, -, ⟨rfl, rfl⟩, hbytes, rfl⟩ := hwrites
  exact ⟨rfl, hbytes⟩

/-! ### The contract -/

/-- What `mm_realloc` promises when it grants the pointer `q` for `p`, of `n` bytes, with `t` bytes:
the heap is sound and `q` has room for them, the first bytes have come along, and the other blocks
that are held have their sizes and their bytes, none of which is among the `t` bytes at `q`. -/
structure Session.Regranted (s : Session) (p n t q : Nat) (h' : Heap) : Prop where
  sound : ∃ σ', Session.Sound ⟨h', (q, t) :: without s.live p⟩ σ'
  data : ∀ i, i < n → i < t → h'.bytes (q + i) = s.heap.bytes (p + i)
  blockSize_eq : ∀ r k, (r, k) ∈ s.live → r ≠ p →
    Request.blockSize h' r = Request.blockSize s.heap r
  others : ∀ r k a, (r, k) ∈ s.live → r ≠ p → r ≤ a → a + 8 < r + Request.blockSize s.heap r →
    h'.bytes a = s.heap.bytes a ∧ (a < q ∨ q + t ≤ a)

/-- `mm_realloc` keeps its contract: it refuses and leaves the heap, or it grants a pointer. -/
def Session.Reallocates (s : Session) (p n t : Nat) : Prop :=
  Returns (mmRealloc p t) s.heap fun q h' ↦
    (q = null ∧ h' = s.heap) ∨ (q ≠ null ∧ s.Regranted p n t q h')

/-- A reallocation has room where its block is: the block is large enough, or the next block is free
and the new end lies in it, sixteen bytes or more from its start and from its end. -/
def Request.HasRoom (s : Session) : Request → Prop
  | realloc p t =>
    align (addWord t dsize) ≤ blockSize s.heap p ∨
      (s.heap.word (p + blockSize s.heap p - 4) &&& allocTag = 0 ∧
        blockSize s.heap p + 16 ≤ align (addWord t dsize) ∧
        align (addWord t dsize) + 16 ≤
          blockSize s.heap p + blockSize s.heap (p + blockSize s.heap p))
  | _ => True

/-- A reallocation whose new end lies in the next block, which is free, but less than sixteen bytes
from its start or its end. -/
def Request.IsTight (s : Session) (p t : Nat) : Prop :=
  s.heap.word (p + blockSize s.heap p - 4) &&& allocTag = 0 ∧
    blockSize s.heap p < align (addWord t dsize) ∧
    align (addWord t dsize) ≤ blockSize s.heap p + blockSize s.heap (p + blockSize s.heap p) ∧
    (align (addWord t dsize) < blockSize s.heap p + 16 ∨
      blockSize s.heap p + blockSize s.heap (p + blockSize s.heap p) <
        align (addWord t dsize) + 16)

section

variable {s : Session} {σ σ' : Shape} {φ : Focus} {next : Block} {rest : List Block}
  {p n t : Nat} {h' : Heap}

/-- A block that has been resized in place keeps the contract. -/
theorem Session.Resized.regranted (hr : s.Resized σ p t h' σ') (hs : s.Sound σ)
    (hp : (p, n) ∈ s.live) : s.Regranted p n t p h' := by
  have hs' := hr.sound hs
  obtain ⟨a, halloc, haddr, hroom, hmem⟩ := hr.block
  refine ⟨⟨σ', hs'⟩, fun i hin hit ↦ ?_, fun r k hrlive hne ↦ ?_,
    fun r k x hrlive hne hlow hhigh ↦ ?_⟩
  · obtain ⟨b, hb, hballoc, hbaddr, hpayload⟩ := hs.payload_of_extent hp (Nat.le_add_right p i)
      (by omega)
    exact hr.kept b hb hballoc _ hpayload fun _ ↦ by omega
  · obtain ⟨b, hb, hballoc, rfl, -⟩ := hs.accounts.owner r k hrlive
    rw [hs.blockSize_eq hb]
    exact hs'.blockSize_eq ((hmem b hballoc).mpr (Or.inl ⟨hb, hne⟩))
  · obtain ⟨b, hb, hballoc, rfl, -⟩ := hs.accounts.owner r k hrlive
    rw [hs.blockSize_eq hb] at hhigh
    refine ⟨hr.kept b hb hballoc x ⟨hlow, hhigh⟩ fun heq ↦ absurd heq hne, ?_⟩
    have hapart := hs'.heap.geometry.trichotomy ((hmem a halloc).mpr (Or.inr rfl))
      ((hmem b hballoc).mpr (Or.inl ⟨hb, hne⟩))
    rcases hapart with rfl | hafter | hbefore
    · exact absurd haddr hne
    · omega
    · omega

/-- `mm_realloc` of a block that grows into the free block behind it. -/
theorem Session.Sound.grow (hs : s.Sound σ) (hshape : φ.shape σ.brk = σ)
    (hback : φ.back = next :: rest) (htpos : 0 < t) (htlt : t < 2 ^ 31)
    (hg : Growable φ.block next (align (addWord t dsize))) :
    Returns (mmRealloc φ.block.addr t) s.heap fun q h' ↦ q = φ.block.addr ∧
      s.Resized σ φ.block.addr t h'
        ((φ.grow next rest (align (addWord t dsize))).shape σ.brk) := by
  have hproper : (φ.shape σ.brk).Proper s.heap.memStartBrk := hshape.symm ▸ hs.heap.proper
  obtain ⟨-, hroom, -⟩ := align_request htpos htlt
  refine (hs.heap.mmRealloc_grow hshape hback hg htpos rfl).mono ?_
  rintro q h' ⟨hq, hranges, hserves⟩
  refine ⟨hq, hserves.memStartBrk_eq, hserves.memMaxAddr_eq, hranges, hserves.invariant, ?_,
    fun b hb hballoc a hpayload _ ↦ hserves.kept a ⟨b, hb, hballoc, hpayload⟩⟩
  refine ⟨⟨φ.block.addr, align (addWord t dsize), true, φ.block.bulk⟩, rfl, rfl, hroom,
    fun c hcalloc ↦ ?_⟩
  rw [Focus.mem_grow hproper hback hg.free hcalloc, hshape]
  exact or_congr_left (and_congr_right fun hcmem ↦ hs.ne_block_iff hshape hcmem)

/-- The header behind a block is that of the next block, or the epilogue. -/
theorem Session.Sound.behind (hs : s.Sound σ) (hshape : φ.shape σ.brk = σ) :
    (φ.back = [] ∧ φ.block.addr + φ.block.size = σ.brk ∧
      s.heap.word (φ.block.addr + φ.block.size - 4) = 1) ∨
    ∃ next rest, φ.back = next :: rest ∧ next ∈ σ.blocks ∧
      next.addr = φ.block.addr + φ.block.size ∧
      s.heap.word (φ.block.addr + φ.block.size - 4) = next.word := by
  have hproper : (φ.shape σ.brk).Proper s.heap.memStartBrk := hshape.symm ▸ hs.heap.proper
  have htiles : Tiles (firstBlock s.heap.memStartBrk) (φ.front ++ φ.block :: φ.back) σ.brk :=
    hproper.tiles
  obtain ⟨middle, -, -, hback⟩ := tiles_append.mp htiles
  cases hsplit : φ.back with
  | nil =>
    rw [hsplit] at hback
    have hend : φ.block.addr + φ.block.size = σ.brk := hback
    exact Or.inl ⟨rfl, hend, hend ▸ hs.heap.epilogue⟩
  | cons next rest =>
    rw [hsplit] at hback
    obtain ⟨haddr, -⟩ := hback
    have hmem : next ∈ σ.blocks := by
      rw [← hshape]
      simp [Focus.shape, hsplit]
    exact Or.inr ⟨next, rest, rfl, hmem, haddr, haddr ▸ hs.heap.header next hmem⟩

/-- With room, `mm_realloc` resizes the block in place. -/
theorem Session.Sound.resized (hs : s.Sound σ) (hp : (p, n) ∈ s.live) (htpos : 0 < t)
    (htlt : t < 2 ^ 31) (hroom : (Request.realloc p t).HasRoom s) :
    Returns (mmRealloc p t) s.heap fun q h' ↦ q = p ∧ ∃ σ', s.Resized σ p t h' σ' ∧
      (σ.Settled s.heap.memStartBrk → σ'.Settled s.heap.memStartBrk) := by
  obtain ⟨φ, -, rfl, halloc, -, hshape⟩ := hs.focus hp
  obtain ⟨hasize, -, -⟩ := align_request htpos htlt
  have hb : φ.block ∈ σ.blocks := by
    rw [← hshape]
    simp [Focus.shape]
  rw [Request.HasRoom, hs.blockSize_eq hb] at hroom
  by_cases hfits : align (addWord t dsize) ≤ φ.block.size
  · refine (hs.shrink hshape halloc htpos htlt hfits).mono ?_
    rintro q h' ⟨hq, hr⟩
    refine ⟨hq, _, hr, fun hsettled ↦ ?_⟩
    exact Focus.settled_shrink (hshape.symm ▸ hsettled) halloc hasize
  · obtain ⟨hfree, hover, hunder⟩ := hroom.resolve_left hfits
    rcases hs.behind hshape with ⟨-, -, hword⟩ | ⟨next, rest, hback, hnext, haddr, hword⟩
    · rw [hword] at hfree
      exact absurd hfree (by decide)
    · have hsized := hs.heap.proper.sized next hnext
      rw [hword, show allocTag = 0x1 from rfl, Block.word_and_one hsized.1] at hfree
      have hnextfree : next.alloc = false := by simpa using hfree
      rw [← haddr, hs.blockSize_eq hnext] at hunder
      have hg : Growable φ.block next (align (addWord t dsize)) :=
        ⟨haddr, halloc, hnextfree, hasize.1, hover, hunder⟩
      refine (hs.grow hshape hback htpos htlt hg).mono ?_
      rintro q h' ⟨hq, hr⟩
      refine ⟨hq, _, hr, fun hsettled ↦ ?_⟩
      exact Focus.settled_grow (hshape.symm ▸ hsettled) hback halloc hnextfree
        ⟨hasize.1, by omega⟩ hunder

/-- A reallocation that has room keeps the contract. -/
theorem Session.Sound.reallocates (hs : s.Sound σ) (hp : (p, n) ∈ s.live) (htpos : 0 < t)
    (htlt : t < 2 ^ 31) (hroom : (Request.realloc p t).HasRoom s) : s.Reallocates p n t := by
  obtain ⟨b, hb, -, haddr, -⟩ := hs.accounts.owner p n hp
  refine (hs.resized hp htpos htlt hroom).mono ?_
  rintro q h' ⟨rfl, σ', hr, -⟩
  exact Or.inr ⟨haddr ▸ hs.ne_null hb, hr.regranted hs hp⟩

/-! ### When the contract is broken -/

/-- The free block behind the one in focus reaches up to the next allocated block, or to the
break. -/
theorem Session.Consistent.beyond (hc : s.Consistent σ) (hshape : φ.shape σ.brk = σ)
    (hback : φ.back = next :: rest) (hfree : next.alloc = false) :
    next.addr + next.size = σ.brk ∨
      ∃ c ∈ σ.blocks, c.alloc = true ∧ c.addr = next.addr + next.size := by
  let ψ : Focus := ⟨φ.front ++ [φ.block], next, rest, φ.lists⟩
  have hψ : ψ.shape σ.brk = σ := by
    rw [← hshape]
    simp [ψ, Focus.shape, hback]
  rcases hc.behind hψ with ⟨-, hend, -⟩ | ⟨c, others, hrest, hcmem, hcaddr, -⟩
  · exact Or.inl hend
  · have hsettled : (ψ.shape σ.brk).Settled s.heap.memStartBrk := hψ.symm ▸ hc.settled
    obtain ⟨-, -, hborder⟩ := coalesced_insert.mp hsettled.coalesced
    have hhead := (hborder.resolve_left (by simp [ψ, hfree])).2
    exact Or.inr ⟨c, hcmem, hhead c (by simp [hrest]), hcaddr⟩

/-- Where the contract is kept there is room, but for a tight fit: the block ends before the next
block that is held, and before the break. -/
theorem Session.Consistent.hasRoom_or_isTight (hc : s.Consistent σ) (hp : (p, n) ∈ s.live)
    (htpos : 0 < t) (htlt : t < 2 ^ 31) (h : s.Reallocates p n t) :
    (Request.realloc p t).HasRoom s ∨ Request.IsTight s p t := by
  obtain ⟨φ, -, rfl, halloc, -, hshape⟩ := hc.focus hp
  have hb : φ.block ∈ σ.blocks := by
    rw [← hshape]
    simp [Focus.shape]
  obtain ⟨hasize, -, hle⟩ := align_request htpos htlt
  rw [Request.HasRoom, Request.IsTight, hc.blockSize_eq hb]
  by_cases hfits : align (addWord t dsize) ≤ φ.block.size
  · exact Or.inl (Or.inl hfits)
  have hblock := hc.heap.geometry.block φ.block hb
  have hlt := hc.heap.brk_lt
  have hv := hc.heap.view (K := fun _ ↦ False) fun _ ha ↦ absurd ha id
  obtain ⟨q, h', hret, hcontract⟩ := h
  have hmin : minBlockSize = 16 := rfl
  obtain ⟨rfl, m, rfl⟩ := mmRealloc_growing (hc.ne_null hb) (by omega) (hv.getSize_hdrp hb)
    (by rw [subWord_of_lt (by omega) (by omega)]; omega) hret
  obtain ⟨-, ⟨σ', hs'⟩, -, -, -⟩ := hcontract.resolve_left fun hnull ↦ hc.ne_null hb hnull.1
  -- the new block ends before the others that are held
  obtain ⟨a, ha, haalloc, haaddr, hroom⟩ := hs'.accounts.owner φ.block.addr t List.mem_cons_self
  have hamod := (hs'.heap.geometry.block a ha).2.1
  have hbefore : ∀ c ∈ σ.blocks, c.alloc = true → φ.block.addr < c.addr →
      φ.block.addr + a.size ≤ c.addr := by
    intro c hcmem hcalloc hlater
    obtain ⟨k, hk⟩ := hc.accounts.held c hcmem hcalloc
    obtain ⟨d, hd, hdalloc, hdaddr, -⟩ := hs'.accounts.owner c.addr k
      (List.mem_cons_of_mem _ (mem_without.mpr ⟨hk, by dsimp only; omega⟩))
    rcases hs'.heap.geometry.trichotomy ha hd with rfl | hafter | hbefore
    · omega
    · omega
    · omega
  have hend : φ.block.addr + a.size ≤ σ.brk := by
    have hbound := (hs'.heap.geometry.block a ha).2.2.2.2
    have hbrk : σ.brk = σ'.brk := hc.heap.brk_eq.symm.trans hs'.heap.brk_eq
    omega
  rcases hc.behind hshape with ⟨-, hlast, -⟩ | ⟨next, rest, hback, hnext, haddr, hword⟩
  · omega
  · have hsized := hc.heap.proper.sized next hnext
    unfold Block.Sized at hsized
    rw [← haddr, hc.blockSize_eq hnext, haddr, hword, show allocTag = 0x1 from rfl,
      Block.word_and_one hsized.1]
    cases hfree : next.alloc with
    | true =>
      have hnextbefore := hbefore next hnext hfree (by omega)
      omega
    | false =>
      have hlimit : φ.block.addr + a.size ≤ next.addr + next.size := by
        rcases hc.beyond hshape hback hfree with hlast | ⟨c, hcmem, hcalloc, hcaddr⟩
        · omega
        · have hcbefore := hbefore c hcmem hcalloc (by omega)
          omega
      by_cases htight : φ.block.size + 16 ≤ align (addWord t dsize) ∧
          align (addWord t dsize) + 16 ≤ φ.block.size + next.size
      · exact Or.inl (Or.inr ⟨rfl, htight⟩)
      · exact Or.inr ⟨rfl, by omega, by omega, by omega⟩

end

/-! ### Runs -/

namespace Session

variable {base : Nat} {events : List Event} {s s' : Session} {σ : Shape} {p n t : Nat}

/-- Sessions in which every request has left the heap sound. -/
abbrev ReachedSound (base : Nat) : List Event → Session → Prop :=
  Run (Opened base) fun s e s' ↦ Step (fun _ _ ↦ True) s e s' ∧ ∃ σ', s'.Sound σ'

/-- Sessions in which every reallocation has had room. -/
abbrev ReachedWithRoom (base : Nat) : List Event → Session → Prop :=
  Run (Opened base) (Step fun s r ↦ r.HasRoom s)

theorem ReachedSound.sound (h : ReachedSound base events s) : ∃ σ, s.Sound σ :=
  Run.invariant (P := fun s ↦ ∃ σ, s.Sound σ)
    (fun _ hopened ↦ ⟨_, hopened.consistent.2.toSound⟩) (fun _ _ _ _ hstep ↦ hstep.2) h

theorem Step.mono {P Q : Session → Request → Prop} (h : ∀ s r, P s r → Q s r) {e : Event}
    (hstep : Step P s e s') : Step Q s e s' := by
  cases hstep with
  | request hadmitted hP hserve => exact .request hadmitted (h _ _ hP) hserve
  | write v hp hlow hhigh => exact .write v hp hlow hhigh
  | ranges rs => exact .ranges rs

/-- A step whose reallocation has room keeps the invariant. -/
theorem Step.consistent_of_hasRoom {e : Event} (hc : s.Consistent σ)
    (hstep : Step (fun s r ↦ r.HasRoom s) s e s') : ∃ σ', s'.Consistent σ' := by
  cases hstep with
  | @request r answer h' hadmitted hroom hserve =>
    cases r with
    | malloc size refused =>
      obtain ⟨σ', -, hserving⟩ := hc.of_serve hadmitted trivial hserve
      exact ⟨σ', hserving.consistent⟩
    | free p =>
      obtain ⟨σ', -, hserving⟩ := hc.of_serve hadmitted trivial hserve
      exact ⟨σ', hserving.consistent⟩
    | realloc p t =>
      obtain ⟨⟨n, hp⟩, htpos, htlt⟩ := hadmitted
      obtain ⟨b, hb, -, haddr, -⟩ := hc.accounts.owner p n hp
      have hresized := hc.resized hp htpos htlt hroom
      rw [returns_iff_of_eq (show mmRealloc p t s.heap = some (answer, h') from hserve)] at hresized
      obtain ⟨rfl, σ', hr, hsettled⟩ := hresized
      rw [Request.account, if_neg (haddr ▸ hc.ne_null hb)]
      exact ⟨σ', hr.sound hc.toSound, hr.memStartBrk_eq.symm ▸ hsettled hc.settled⟩
  | write v hp hlow hhigh => exact ⟨σ, hc.write v hp hlow hhigh⟩
  | ranges rs => exact ⟨σ, hc.ranges rs⟩

/-- Where every reallocation has had room, every request has left the heap sound. -/
theorem ReachedWithRoom.reachedSound (h : ReachedWithRoom base events s) :
    ReachedSound base events s := by
  refine Run.mono_of_invariant (P := fun s ↦ ∃ σ, s.Consistent σ)
    (fun _ hopened ↦ ⟨_, hopened.consistent.2⟩) (fun s e s' hinv hstep ↦ ?_) h
  obtain ⟨σ, hc⟩ := hinv
  obtain ⟨σ', hc'⟩ := hstep.consistent_of_hasRoom hc
  exact ⟨⟨hstep.mono fun _ _ _ ↦ trivial, σ', hc'.toSound⟩, σ', hc'⟩

theorem ReachedWithRoom.consistent (h : ReachedWithRoom base events s) : ∃ σ, s.Consistent σ :=
  Run.invariant (P := fun s ↦ ∃ σ, s.Consistent σ)
    (fun _ hopened ↦ ⟨_, hopened.consistent.2⟩)
    (fun _ _ _ ⟨_, hc⟩ hstep ↦ hstep.consistent_of_hasRoom hc) h

theorem Reached.withRoom (h : Reached base events s) : ReachedWithRoom base events s := by
  refine Run.mono (fun s e s' hstep ↦ hstep.mono fun s r hgrow ↦ ?_) h
  cases r with
  | malloc size refused => trivial
  | free p => trivial
  | realloc p t => exact Or.inl hgrow

end Session

/-- In every session whose requests have left the heap sound, a reallocation that has room keeps the
contract. Sessions in which every reallocation has had room are such sessions, and in them the
contract is kept nowhere else, but for tight fits. -/
theorem session_realloc (base : Nat) :
    (∀ events s, Session.ReachedSound base events s → ∀ p n t, (p, n) ∈ s.live → 0 < t →
      t < 2 ^ 31 → (Request.realloc p t).HasRoom s → s.Reallocates p n t) ∧
    ∀ events s, Session.ReachedWithRoom base events s → Session.ReachedSound base events s ∧
      ∀ p n t, (p, n) ∈ s.live → 0 < t → t < 2 ^ 31 → s.Reallocates p n t →
        (Request.realloc p t).HasRoom s ∨ Request.IsTight s p t := by
  refine ⟨fun events s h p n t hp htpos htlt hroom ↦ ?_,
    fun events s h ↦ ⟨h.reachedSound, fun p n t hp htpos htlt hkept ↦ ?_⟩⟩
  · obtain ⟨σ, hs⟩ := h.sound
    exact hs.reallocates hp htpos htlt hroom
  · obtain ⟨σ, hc⟩ := h.consistent
    exact hc.hasRoom_or_isTight hp htpos htlt hkept

set_option maxRecDepth 4000 in
theorem session_realloc_grown : ∃ s,
    Session.ReachedSound 4096 [.request (.malloc 600 false) 4368, .request (.malloc 600 false) 4976,
      .request (.malloc 600 false) 5584, .request (.free 4976) null] s ∧
      s.Reallocates 4368 600 700 := by
  have hfollows : ∃ b, Follows (Request.onAccount 4096) (emptyShape 4096, [])
      [(.malloc 600 false, 4368), (.malloc 600 false, 4976), (.malloc 600 false, 5584),
        (.free 4976, null)] b ∧ b.2 = [(5584, 600), (4368, 600)] ∧
      b.1.blocks = [⟨4368, 608, true, false⟩, ⟨4976, 608, false, false⟩,
        ⟨5584, 608, true, false⟩] :=
    ⟨_, ⟨_, rfl, _, rfl, _, rfl, _, rfl, rfl⟩, rfl, rfl⟩
  obtain ⟨⟨σ, live⟩, hfollows, hlive, hblocks⟩ := hfollows
  obtain ⟨s, h, -, hlive', hc⟩ := Session.exists_reached (by decide) (by decide) (by decide)
    hfollows
  dsimp only at hlive hblocks hlive' hc
  have hsize := hc.blockSize_eq (b := ⟨4368, 608, true, false⟩) (by simp [hblocks])
  have hnext := hc.blockSize_eq (b := ⟨4976, 608, false, false⟩) (by simp [hblocks])
  have hword := hc.heap.header ⟨4976, 608, false, false⟩ (by simp [hblocks])
  refine ⟨s, h.withRoom.reachedSound, (session_realloc 4096).1 _ s h.withRoom.reachedSound 4368 600
    700 (by simp [hlive', hlive]) (by decide) (by decide) (Or.inr ?_)⟩
  dsimp only at hsize hnext hword
  rw [hsize, hword, hnext]
  decide

set_option maxRecDepth 4000 in
/-- With an allocated block behind it, a block does not grow: the new block would run over it. -/
theorem session_realloc_overlap : ∃ s,
    Session.ReachedSound 4096 [.request (.malloc 600 false) 4368,
      .request (.malloc 600 false) 4976] s ∧
      (4368, 600) ∈ s.live ∧ ¬ s.Reallocates 4368 600 700 := by
  have hfollows : ∃ b, Follows (Request.onAccount 4096) (emptyShape 4096, [])
      [(.malloc 600 false, 4368), (.malloc 600 false, 4976)] b ∧
      b.2 = [(4976, 600), (4368, 600)] ∧
      b.1.blocks = [⟨4368, 608, true, false⟩, ⟨4976, 608, true, false⟩] :=
    ⟨_, ⟨_, rfl, _, rfl, rfl⟩, rfl, rfl⟩
  obtain ⟨⟨σ, live⟩, hfollows, hlive, hblocks⟩ := hfollows
  obtain ⟨s, h, -, hlive', hc⟩ := Session.exists_reached (by decide) (by decide) (by decide)
    hfollows
  dsimp only at hlive hblocks hlive' hc
  have hsize := hc.blockSize_eq (b := ⟨4368, 608, true, false⟩) (by simp [hblocks])
  have hword := hc.heap.header ⟨4976, 608, true, false⟩ (by simp [hblocks])
  dsimp only at hsize hword
  have hheld : (4368, 600) ∈ s.live := by simp [hlive', hlive]
  refine ⟨s, h.withRoom.reachedSound, hheld, fun hkept ↦ ?_⟩
  have hroom := hc.hasRoom_or_isTight hheld (by decide) (by decide) hkept
  rw [Request.HasRoom, Request.IsTight, hsize, hword] at hroom
  rcases hroom with (hfits | ⟨hfree, -⟩) | ⟨hfree, -⟩
  · exact absurd hfits (by decide)
  · exact absurd hfree (by decide)
  · exact absurd hfree (by decide)

end SystemProgramming.MemoryLab
