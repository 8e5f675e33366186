import SystemProgramming.MemoryLab.Guarantees
import SystemProgramming.MemoryLab.Plain.Requests

/-!
# Sessions of the allocators without bulk blocks

A session is the allocator with its client, as for `mm.c`, without reallocation. A step is a request
that the code serves, a byte that the client writes into the payload of a block it holds, or a change
of the caller's list of ranges.

`Variant.Consistent` is the invariant: the heap holds a shape with exact lists and coalesced blocks,
and the client holds its allocated blocks. `session_exact_fits` reads off it what the lists hold, and
when `mm_malloc` calls `mem_sbrk`.
-/

set_option autoImplicit false
set_option relaxedAutoImplicit false

namespace SystemProgramming.MemoryLab.Plain

open Library

/-- What a client may ask for. `refused` is the environment's word on whether `mem_sbrk` fails. -/
inductive Request
  | malloc (size : Nat) (refused : Bool)
  | free (p : Nat)
  deriving DecidableEq, Repr

namespace Request

/-- The client's account after the answer. -/
def account (answer : Nat) (live : List (Nat × Nat)) : Request → List (Nat × Nat)
  | malloc size _ => if answer = null then live else (answer, size) :: live
  | free p => without live p

/-- The requests a client may make: sizes from one byte on, below `2 ^ 31`, and pointers it
holds. -/
def Admitted (s : Session) : Request → Prop
  | malloc size _ => 0 < size ∧ size < 2 ^ 31
  | free p => ∃ n, (p, n) ∈ s.live

end Request

/-- What happens in a session. -/
inductive Event
  | request (r : Request) (answer : Nat)
  | write (a : Nat) (b : UInt8)
  | ranges (rs : List Range)

namespace Variant

variable (v : Variant)

/-- The code that serves a request. -/
def serve : Request → HeapM Nat
  | .malloc size refused => do
    modify fun h ↦ { h with sbrkRefused := refused }
    v.mmMalloc size
  | .free p => do
    v.mmFree p
    pure null

/-- A session begins when `mm_init` has succeeded on an empty heap in some arena at `base`. -/
def Opened (base : Nat) (s : Session) : Prop :=
  s.live = [] ∧ ∃ h ranges, h.Arena ∧ h.memStartBrk = base ∧
    v.mmInit ranges (memResetBrk h) = some (0, s.heap)

/-- The steps of sessions. -/
inductive Step : Session → Event → Session → Prop
  | request {s : Session} {r : Request} {answer : Nat} {h' : Heap} (hadmitted : r.Admitted s)
      (hserve : v.serve r s.heap = some (answer, h')) :
      Step s (.request r answer) ⟨h', r.account answer s.live⟩
  | write {s : Session} {p n a : Nat} (b : UInt8) (hp : (p, n) ∈ s.live) (hlow : p ≤ a)
      (hhigh : a + 8 < p + MemoryLab.Request.blockSize s.heap p) :
      Step s (.write a b) ⟨{ s.heap with bytes := Function.update s.heap.bytes a b }, s.live⟩
  | ranges {s : Session} (rs : List Range) :
      Step s (.ranges rs) ⟨{ s.heap with glRanges := s.heap.glRanges.map fun _ ↦ rs }, s.live⟩

/-- The sessions that can be reached. -/
abbrev Reached (base : Nat) : List Event → Session → Prop := Run (v.Opened base) v.Step

/-- `mm_malloc` calls `mem_sbrk`: `find_fit` has returned the null pointer. -/
def CallsSbrk (size : Nat) (h : Heap) : Prop :=
  size ≠ 0 ∧ ∃ found h', v.findFit (align (addWord size dsize)) h = some (found, h') ∧ found = null

/-- The heap holds a shape with exact lists, without two adjacent free blocks, and the client holds
its allocated blocks. -/
structure Consistent (s : Session) (σ : Shape) : Prop where
  heap : v.Holds s.heap σ
  coalesced : Coalesced σ.blocks
  accounts : Accounts s.live σ.blocks

end Variant

/-! ### What the client writes -/

/-- A byte is written where no word is known and no links are. -/
theorem View.write {v : Variant} {h : Heap} {W : Words} {L : Filing} (hv : View v h W L) {a : Nat}
    (x : UInt8) (hwords : ∀ p w, W p w → p + 4 ≤ a ∨ a < p)
    (hnodes : ∀ y, v.Node h.memStartBrk L y → y + 8 ≤ a ∨ a < y) :
    View v { h with bytes := Function.update h.bytes a x } W L := by
  have hkeep : ∀ p, p + 4 ≤ a ∨ a < p →
      wordAt (Function.update h.bytes a x) p = wordAt h.bytes p := fun p hp ↦
    wordAt_congr fun b hlow hhigh ↦ Function.update_of_ne (by omega) _ _
  refine hv.relink (m := Function.update h.bytes a x) (fun p w hw ↦ hkeep p (hwords p w hw)) ?_
    fun y hy ↦ ⟨hv.place y hy, hv.apart y hy⟩
  refine hv.linked.congr (fun y hy ↦ hkeep y ?_) fun y hy ↦ hkeep (y + 4) ?_
  · have hy' := hnodes y hy
    omega
  · have hy' := hnodes y hy
    omega

namespace Variant.Holds

variable {v : Variant} {h : Heap} {σ : Shape}

/-- A byte in the payload of an allocated block. -/
theorem write (hh : v.Holds h σ) {b : Block} (hb : b ∈ σ.blocks) (halloc : b.alloc = true) {a : Nat}
    (x : UInt8) (hlow : b.addr ≤ a) (hhigh : a + 8 < b.addr + b.size) :
    v.Holds { h with bytes := Function.update h.bytes a x } σ := by
  refine ⟨hh.view.write x (fun p w hw ↦ ?_) fun y hy ↦ ?_, hh.layout, hh.exact, hh.prologue_eq,
    hh.brk_eq, hh.brk_le⟩
  · have hclear := hh.layout.tags_clear hb hw
    omega
  · obtain ⟨front, back, hblocks⟩ := List.append_of_mem hb
    have hlayout := hh.layout
    have hexact := hh.exact
    rw [hblocks] at hlayout hexact
    have hclear := View.node_clear hlayout.fits ((Variant.Exact.cons_iff halloc).mp hexact) hy
    omega

end Variant.Holds

/-! ### Steps -/

namespace Variant.Consistent

variable {v : Variant} {s : Session} {σ : Shape}

theorem blockSize_eq (hc : v.Consistent s σ) {b : Block} (hb : b ∈ σ.blocks) :
    MemoryLab.Request.blockSize s.heap b.addr = b.size := by
  have hblock := hc.heap.layout.block hb
  have hlt := hc.heap.layout.brk_lt
  obtain ⟨-, hword, -⟩ := hc.heap.headed hb
  rw [MemoryLab.Request.blockSize, hword, Block.word_and_sizeMask hblock.2.1 (by omega)]

/-- A request for memory that is answered. -/
theorem malloc (hc : v.Consistent s σ) {size answer : Nat} {refused : Bool} {h' : Heap}
    (hpos : 0 < size) (hlt : size < 2 ^ 31)
    (hserve : v.serve (.malloc size refused) s.heap = some (answer, h')) :
    h'.memStartBrk = s.heap.memStartBrk ∧
      ∃ σ', v.Consistent ⟨h', Request.account answer s.live (.malloc size refused)⟩ σ' := by
  have hheap : v.Holds { s.heap with sbrkRefused := refused } σ :=
    hc.heap.congr rfl rfl rfl rfl rfl rfl
  obtain ⟨-, hroom, -⟩ := align_request hpos hlt
  have hmalloc : v.mmMalloc size { s.heap with sbrkRefused := refused } = some (answer, h') := hserve
  rcases hheap.of_mmMalloc hc.coalesced hpos hlt hmalloc with ⟨rfl, rfl⟩ | ⟨hnonnull, σ', hgrants⟩
  · refine ⟨rfl, σ, hheap, hc.coalesced, ?_⟩
    rw [Request.account, if_pos rfl]
    exact hc.accounts
  · obtain ⟨a, rfl, halloc, hsize, hmem⟩ := hgrants.block
    refine ⟨hgrants.memStartBrk_eq, σ', hgrants.holds, hgrants.coalesced, ?_⟩
    rw [Request.account, if_neg hnonnull]
    exact hc.accounts.grant halloc hgrants.fresh (hroom.trans hsize) hmem

/-- The allocated blocks after a release. -/
theorem mem_free {base brk : Nat} {φ : Focus} (hlayout : v.Layout base (φ.shape brk).blocks brk)
    {c : Block} (hc : c.alloc = true) : c ∈ (φ.free.shape brk).blocks ↔
      c ∈ (φ.shape brk).blocks ∧ c.addr ≠ φ.block.addr := by
  have hfreed : c ≠ { φ.block with alloc := false } := by
    rintro rfl
    cases hc
  have hother := fun hside ↦ hlayout.addr_ne (d := c) hside
  rw [Focus.free, Focus.mem_coalesce rfl hc]
  simp only [Focus.shape, List.mem_append, List.mem_cons, hfreed, false_or] at hother ⊢
  constructor
  · intro hside
    exact ⟨hside.imp_right Or.inr, hother hside⟩
  · rintro ⟨hfront | rfl | hback, hne⟩
    · exact Or.inl hfront
    · exact absurd rfl hne
    · exact Or.inr hback

/-- The release of a pointer that is held. -/
theorem free (hc : v.Consistent s σ) {p n : Nat} (hp : (p, n) ∈ s.live) :
    Returns (v.serve (.free p)) s.heap fun answer h' ↦ answer = null ∧
      h'.memStartBrk = s.heap.memStartBrk ∧ ∃ σ', v.Consistent ⟨h', without s.live p⟩ σ' := by
  obtain ⟨b, hb, halloc, rfl, -⟩ := hc.accounts.owner p n hp
  obtain ⟨heap, coalesced, accounts⟩ := hc
  obtain ⟨blocks, L, brk⟩ := σ
  obtain ⟨front, back, hblocks⟩ := List.append_of_mem hb
  dsimp only at hblocks
  subst hblocks
  rw [serve, returns_bind]
  refine heap.mmFree (φ := ⟨front, b, back, L⟩) halloc fun h' L' hstart hholds ↦ ?_
  rw [returns_pure]
  refine ⟨rfl, hstart, _, hholds, coalesced_free coalesced, accounts.release fun c ↦ ?_⟩
  exact mem_free (φ := ⟨front, b, back, L⟩) heap.layout

/-- A step leads to a session that is consistent as well, in the same arena. -/
theorem step {s' : Session} {e : Event} (hc : v.Consistent s σ) (hstep : v.Step s e s') :
    s'.heap.memStartBrk = s.heap.memStartBrk ∧ ∃ σ', v.Consistent s' σ' := by
  cases hstep with
  | @request r answer h' hadmitted hserve =>
    cases r with
    | malloc size refused => exact hc.malloc hadmitted.1 hadmitted.2 hserve
    | free p =>
      obtain ⟨n, hp⟩ := hadmitted
      have hfree := hc.free hp
      rw [returns_iff_of_eq hserve] at hfree
      exact hfree.2
  | write b hp hlow hhigh =>
    obtain ⟨d, hd, halloc, rfl, -⟩ := hc.accounts.owner _ _ hp
    rw [hc.blockSize_eq hd] at hhigh
    exact ⟨rfl, σ, hc.heap.write hd halloc b hlow hhigh, hc.coalesced, hc.accounts⟩
  | ranges rs => exact ⟨rfl, σ, hc.heap.congr rfl rfl rfl rfl rfl rfl, hc.coalesced, hc.accounts⟩

end Variant.Consistent

/-! ### Runs -/

variable {v : Variant} {base : Nat} {events : List Event} {s : Session}

theorem Variant.Opened.consistent (h : v.Opened base s) :
    s.heap.memStartBrk = base ∧ ∃ σ, v.Consistent s σ := by
  obtain ⟨hlive, h₀, ranges, harena, rfl, hinit⟩ := h
  have hgranted : (memResetBrk h₀).sbrkRefused = false := by
    by_contra hrefused
    have hfail : Returns (v.mmInit ranges) (memResetBrk h₀) fun r _ ↦ r = -1 := by
      rw [mmInit, returns_bind, returns_memSbrk_fail (Or.inl (by simpa using hrefused)),
        returns_bind, returns_modify, returns_ite, if_pos rfl, returns_pure]
    rw [returns_iff_of_eq hinit] at hfail
    exact absurd hfail (by decide)
  have hopened := v.returns_mmInit (h := memResetBrk h₀)
    ⟨harena.aligned, harena.nonnull, harena.size, harena.below⟩ rfl hgranted ranges
  rw [returns_iff_of_eq hinit] at hopened
  obtain ⟨-, hstart, σ, hholds, hcoalesced, hfree⟩ := hopened
  refine ⟨hstart, σ, hholds, hcoalesced, ?_⟩
  rw [hlive]
  refine ⟨List.nodup_nil, by simp, fun b hb halloc ↦ ?_⟩
  rw [hfree b hb] at halloc
  cases halloc

/-- The invariant of sessions. -/
theorem Variant.Reached.consistent (h : v.Reached base events s) :
    s.heap.memStartBrk = base ∧ ∃ σ, v.Consistent s σ := by
  refine Run.invariant (P := fun s ↦ s.heap.memStartBrk = base ∧ ∃ σ, v.Consistent s σ)
    (fun s hopened ↦ hopened.consistent) (fun s e s' hinv hstep ↦ ?_) h
  obtain ⟨hbase, σ, hc⟩ := hinv
  obtain ⟨hstart, hconsistent⟩ := hc.step hstep
  exact ⟨hstart.trans hbase, hconsistent⟩

/-! ### Exact lists -/

/-- The heap is well formed, in the words of the source: the walk of its blocks, and class lists that
are rings through their roots. -/
structure Variant.WellFormed (v : Variant) (h : Heap) (blocks : List Block) (lists : Filing) :
    Prop where
  walk : nextBlkp h.prologue h = some (v.firstBlock h.memStartBrk, h) ∧
    Walk h (v.firstBlock h.memStartBrk) blocks
  ring : ∀ c < v.sizeClassNum, ∃ root, getClassRoot c h = some (root, h) ∧
    Ring (fun x ↦ h.word x) (fun x ↦ h.word (x + 4)) root (lists c) ∧ (root :: lists c).Nodup

namespace Variant.Holds

variable {h : Heap} {σ : Shape}

/-- The walk from the block behind the prologue passes through the blocks of the shape. -/
theorem walk (hh : v.Holds h σ) : nextBlkp h.prologue h = some (v.firstBlock h.memStartBrk, h) ∧
    Walk h (v.firstBlock h.memStartBrk) σ.blocks := by
  have hle := hh.layout.tiles.le
  have hlt := hh.layout.brk_lt
  unfold Variant.firstBlock at hle
  have hprologue : Headed h (v.prologue h.memStartBrk) :=
    hh.view.headed (Variant.header_mem_tags List.mem_cons_self) (Nat.mod_self 8)
      (by unfold Variant.prologue; dsimp only; omega)
  have hepilogue : Headed h ⟨h.memBrk, 0, true, false⟩ :=
    hh.view.headed (Or.inr ⟨by rw [hh.brk_eq], rfl⟩) rfl (by rw [hh.brk_eq]; dsimp only; omega)
  refine ⟨eq_of_returns_iff fun Q ↦ ?_, walk_of_headed (hh.brk_eq ▸ hh.layout.tiles)
    (fun b hb ↦ ⟨hh.headed hb, hh.layout.sized b hb⟩) hepilogue⟩
  rw [hh.prologue_eq]
  exact hprologue.nextBlkp Q

theorem wellFormed (hh : v.Holds h σ) : v.WellFormed h σ.blocks σ.lists where
  walk := hh.walk
  ring := fun c hc ↦ ⟨_, eq_of_returns_iff fun Q ↦ hh.view.getClassRoot hc h.bytes Q,
    hh.view.linked.ring c hc, hh.view.linked.nodup c hc⟩

/-- `find_fit` finds nothing exactly if every free block is too small. -/
theorem callsSbrk_iff (hh : v.Holds h σ) {size : Nat} (hpos : 0 < size) :
    v.CallsSbrk size h ↔
      ¬ ∃ b ∈ σ.blocks, b.alloc = false ∧ align (addWord size dsize) ≤ b.size := by
  obtain ⟨found, h₁, hfind, rfl, hfinds⟩ := hh.findFit (align (addWord size dsize))
  constructor
  · rintro ⟨-, p, h', heq, rfl⟩ ⟨b, hb, hfree, hfits⟩
    rw [hfind, Option.some.injEq, Prod.mk.injEq] at heq
    rcases hfinds with ⟨-, hsmall⟩ | ⟨d, hd, haddr, -⟩
    · exact absurd (hsmall b hb hfree trivial) (Nat.not_lt.mpr hfits)
    · have hnonnull := hh.addr_pos hd
      rw [haddr, heq.1] at hnonnull
      exact absurd hnonnull (by decide)
  · intro hunfit
    refine ⟨by omega, found, h₁, hfind, ?_⟩
    rcases hfinds with ⟨hnull, -⟩ | ⟨b, hb, -, hfree, hfits⟩
    · exact hnull
    · exact absurd ⟨b, hb, hfree, hfits⟩ hunfit

end Variant.Holds

namespace Variant.Consistent

variable {σ : Shape} {size : Nat}

/-- Where `mem_sbrk` is called, its refusal is that of the request. -/
theorem serve_refused (hc : v.Consistent s σ) (hpos : 0 < size) (hcalls : v.CallsSbrk size s.heap) :
    v.serve (.malloc size true) s.heap = some (null, { s.heap with sbrkRefused := true }) := by
  have hunfit := (hc.heap.callsSbrk_iff hpos).mp hcalls
  have hheap : v.Holds { s.heap with sbrkRefused := true } σ :=
    hc.heap.congr rfl rfl rfl rfl rfl rfl
  refine eq_of_returns_iff fun Q ↦ ?_
  rw [serve, returns_bind, returns_modify]
  exact hheap.mmMalloc_refused hpos rfl
    (fun b hb hfree ↦ Nat.lt_of_not_le fun hle ↦ hunfit ⟨b, hb, hfree, hle⟩) (Or.inl rfl) Q

/-- Where it is not called, the request succeeds whatever it would answer, and the break stays. -/
theorem serve_fit (hc : v.Consistent s σ) (hpos : 0 < size) (hlt : size < 2 ^ 31)
    (hcalls : ¬ v.CallsSbrk size s.heap) (refused : Bool) :
    ∃ p h', v.serve (.malloc size refused) s.heap = some (p, h') ∧ p ≠ null ∧
      h'.memBrk = s.heap.memBrk := by
  rw [hc.heap.callsSbrk_iff hpos, not_not] at hcalls
  have hheap : v.Holds { s.heap with sbrkRefused := refused } σ :=
    hc.heap.congr rfl rfl rfl rfl rfl rfl
  obtain ⟨p, h', hmalloc, hnonnull, hbrk, -⟩ :=
    hheap.mmMalloc_fit hc.coalesced hpos hlt rfl hcalls
  exact ⟨p, h', hmalloc, hnonnull, hbrk⟩

end Variant.Consistent

/-! ### Sessions that exist -/

/-- A session can begin in every arena. -/
theorem Variant.exists_opened (v : Variant) (haligned : base % 8 = 0) (hpos : 0 < base)
    (hbelow : base + maxHeap < 2 ^ 32) : ∃ s, v.Opened base s := by
  let h : Heap := ⟨fun _ ↦ 0, base, base, base + maxHeap, false, 0, 0, none⟩
  have harena : h.Arena := ⟨haligned, hpos, rfl, hbelow⟩
  obtain ⟨r, h', hinit, rfl, -⟩ := v.returns_mmInit (h := memResetBrk h)
    ⟨haligned, hpos, rfl, hbelow⟩ rfl rfl none
  exact ⟨⟨h', []⟩, rfl, h, none, harena, rfl, hinit⟩

/-- A session goes on with a request for memory, below the end of the address space. -/
theorem Variant.Reached.malloc (h : v.Reached base events s) {size : Nat} (refused : Bool)
    (hpos : 0 < size) (hlt : size < 2 ^ 31)
    (hroom : base + maxHeap + max (align (addWord size dsize)) chunkSize < 2 ^ 32) :
    ∃ p s', v.Reached base (events ++ [.request (.malloc size refused) p]) s' := by
  obtain ⟨rfl, σ, hc⟩ := h.consistent
  have hheap : v.Holds { s.heap with sbrkRefused := refused } σ :=
    hc.heap.congr rfl rfl rfl rfl rfl rfl
  have hsize := hc.heap.view.arena.size
  have hmax := hc.heap.brk_le
  obtain ⟨p, h', hmalloc, -⟩ := hheap.mmMalloc hc.coalesced hpos hlt rfl fun _ _ ↦ by omega
  exact ⟨p, _, h.step (.request ⟨hpos, hlt⟩ hmalloc)⟩

/-! ### What holds in every session -/

/-- In every session each list holds, once each, the free blocks of its class, no two adjacent blocks
are free, and `mm_malloc` calls `mem_sbrk` exactly if no free block is large enough. Where it is
called, its refusal is that of the request; where it is not, the request succeeds whatever it would
answer, and the break stays. -/
theorem session_exact_fits (h : v.Reached base events s) :
    ∃ blocks lists, v.WellFormed s.heap blocks lists ∧
      (∀ c < v.sizeClassNum, (lists c).Nodup ∧ ∀ x, x ∈ lists c ↔
        ∃ b ∈ blocks, b.addr = x ∧ b.alloc = false ∧ v.getSizeClass b.size = c) ∧
      Coalesced blocks ∧ ∀ size, 0 < size → size < 2 ^ 31 →
        (v.CallsSbrk size s.heap ↔
          ¬ ∃ b ∈ blocks, b.alloc = false ∧ align (addWord size dsize) ≤ b.size) ∧
        (v.CallsSbrk size s.heap → v.serve (.malloc size true) s.heap =
          some (null, { s.heap with sbrkRefused := true })) ∧
        (¬ v.CallsSbrk size s.heap → ∀ refused, ∃ p h',
          v.serve (.malloc size refused) s.heap = some (p, h') ∧ p ≠ null ∧
            h'.memBrk = s.heap.memBrk) := by
  obtain ⟨-, σ, hc⟩ := h.consistent
  refine ⟨σ.blocks, σ.lists, hc.heap.wellFormed,
    fun c hc' ↦ ⟨hc.heap.view.nodup hc', hc.heap.exact c hc'⟩, hc.coalesced,
    fun size hpos hlt ↦ ⟨hc.heap.callsSbrk_iff hpos, hc.serve_refused hpos, hc.serve_fit hpos hlt⟩⟩

theorem session_exact_fits_short : ∃ p q s, Variant.mm16.Reached 4096
    [.request (.malloc 100 false) p, .request (.malloc 40 false) q] s ∧
      ∃ blocks lists, Variant.mm16.WellFormed s.heap blocks lists ∧ Coalesced blocks ∧
        (Variant.mm16.CallsSbrk 24 s.heap ↔
          ¬ ∃ b ∈ blocks, b.alloc = false ∧ align (addWord 24 dsize) ≤ b.size) := by
  obtain ⟨s₀, hopened⟩ := Variant.mm16.exists_opened (show 4096 % 8 = 0 by decide) (by decide)
    (by decide)
  obtain ⟨p, s₁, h₁⟩ := Variant.Reached.malloc (Run.start hopened) false (show 0 < 100 by decide)
    (by decide) (by decide)
  obtain ⟨q, s, h⟩ := Variant.Reached.malloc h₁ false (show 0 < 40 by decide) (by decide) (by decide)
  obtain ⟨blocks, lists, hformed, -, hcoalesced, hcalls⟩ := session_exact_fits h
  exact ⟨p, q, s, h, blocks, lists, hformed, hcoalesced, (hcalls 24 (by decide) (by decide)).1⟩

end SystemProgramming.MemoryLab.Plain
