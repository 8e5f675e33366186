import SystemProgramming.MemoryLab.Sessions

/-!
# Sessions and requests on shapes

A session represents a shape and an account. What a client may ask for is decided on these
(`Session.Represents.possible_iff`), and so is what it is answered: each step of a session is a
move of `Request.onAccount` (`Session.Step.represents`), and each of its moves is a step of every
session that represents where it starts (`Session.Reached.along`).
-/

set_option autoImplicit false
set_option relaxedAutoImplicit false

namespace SystemProgramming.MemoryLab

open Library

/-- A session represents a shape and an account, in an arena at `base`. -/
def Session.Represents (base : Nat) (s : Session) (a : Shape × List (Nat × Nat)) : Prop :=
  s.heap.memStartBrk = base ∧ s.live = a.2 ∧ s.Consistent a.1

namespace Request

/-- The requests a client may make, without growing a block, as a shape and an account have it. -/
def Possible (a : Shape × List (Nat × Nat)) : Request → Prop
  | malloc size _ => 0 < size ∧ size < 2 ^ 31
  | free p => p ∈ a.2.map Prod.fst
  | realloc p t => p ∈ a.2.map Prod.fst ∧ 0 < t ∧ t < 2 ^ 31 ∧
      align (addWord t dsize) ≤ sizeAt a.1.blocks p

instance (a : Shape × List (Nat × Nat)) : (r : Request) → Decidable (r.Possible a)
  | malloc _ _ => inferInstanceAs (Decidable (_ ∧ _))
  | free _ => inferInstanceAs (Decidable (_ ∈ _))
  | realloc _ _ => inferInstanceAs (Decidable (_ ∧ _ ∧ _ ∧ _))

/-- A request on shapes and accounts. -/
def onAccount (base : Nat) (a : Shape × List (Nat × Nat)) (r : Request) :
    Option (Nat × Shape × List (Nat × Nat)) :=
  if r.Possible a then
    (r.onShape (base + maxHeap) a.1).map fun x ↦ (x.1, x.2, r.account x.1 a.2)
  else none

end Request

variable {base : Nat} {events : List Event} {s s' : Session} {a b : Shape × List (Nat × Nat)}

theorem mem_map_fst {live : List (Nat × Nat)} {p : Nat} :
    p ∈ live.map Prod.fst ↔ ∃ n, (p, n) ∈ live := by
  simp

namespace Session

theorem Represents.possible_iff (h : s.Represents base a) (r : Request) :
    r.Possible a ↔ r.Admitted s ∧ r.NotGrowing s := by
  obtain ⟨-, hlive, hc⟩ := h
  cases r with
  | malloc size refused => simp [Request.Possible, Request.Admitted, Request.NotGrowing]
  | free p =>
    simp only [Request.Possible, Request.Admitted, Request.NotGrowing, ← hlive, mem_map_fst,
      and_true]
  | realloc p t =>
    simp only [Request.Possible, Request.Admitted, Request.NotGrowing, ← hlive, mem_map_fst]
    constructor
    · rintro ⟨⟨n, hp⟩, hpos, hlt, hfits⟩
      obtain ⟨b, hb, -, rfl, -⟩ := hc.accounts.owner p n hp
      rw [Shape.sizeAt_eq hc.settled.proper hb] at hfits
      exact ⟨⟨⟨n, hp⟩, hpos, hlt⟩, by rwa [hc.blockSize_eq hb]⟩
    · rintro ⟨⟨⟨n, hp⟩, hpos, hlt⟩, hfits⟩
      obtain ⟨b, hb, -, rfl, -⟩ := hc.accounts.owner p n hp
      rw [hc.blockSize_eq hb] at hfits
      exact ⟨⟨n, hp⟩, hpos, hlt, by rwa [Shape.sizeAt_eq hc.settled.proper hb]⟩

theorem Opened.represents (h : s.Opened base) : s.Represents base (emptyShape base, []) :=
  ⟨h.consistent.1, h.1, h.consistent.2⟩

/-- A step of a session is a move on what it represents. -/
theorem Step.represents {e : Event} (hrep : s.Represents base a)
    (hstep : Step (fun s r ↦ r.NotGrowing s) s e s') :
    Responds (Represents base) (Request.onAccount base) a s' e.shown := by
  have hpossible := hrep.possible_iff
  obtain ⟨σ, live⟩ := a
  obtain ⟨rfl, rfl, hc⟩ := hrep
  obtain ⟨hstart, -, hshown⟩ := hstep.onShape hc
  cases hstep with
  | request hadmitted hgrow hserve =>
    obtain ⟨σ', hm, hc'⟩ := hshown
    rw [hc.heap.arena.size] at hm
    refine ⟨(σ', _), ?_, hstart, rfl, hc'⟩
    rw [Request.onAccount, if_pos ((hpossible _).mpr ⟨hadmitted, hgrow⟩), hm]
    rfl
  | write v hp hlow hhigh => exact ⟨rfl, rfl, hshown⟩
  | ranges rs => exact ⟨rfl, rfl, hshown⟩

/-- A move on what a session represents is a step of the session. -/
theorem Represents.step {r : Request} {q : Nat} (hrep : s.Represents base a)
    (hmove : r.onAccount base a = some (q, b)) :
    ∃ s', Step (fun s r ↦ r.NotGrowing s) s (.request r q) s' ∧ s'.Represents base b ∧
      s'.heap.glRanges = s.heap.glRanges.map r.ranges := by
  rw [Request.onAccount] at hmove
  split_ifs at hmove with hpossible
  obtain ⟨⟨q', σ'⟩, hm, heq⟩ := Option.map_eq_some_iff.mp hmove
  obtain ⟨rfl, rfl⟩ := Prod.mk.inj heq
  obtain ⟨hadmitted, hgrow⟩ := (hrep.possible_iff r).mp hpossible
  obtain ⟨rfl, hlive, hc⟩ := hrep
  rw [← hc.heap.arena.size] at hm
  obtain ⟨q'', h', hserve, rfl, hserving⟩ := hc.serve hadmitted hgrow hm
  exact ⟨_, .request hadmitted hgrow hserve, ⟨hserving.memStartBrk_eq, by rw [hlive],
    hserving.consistent⟩, hserving.glRanges_eq⟩

/-- A byte may be written anywhere in the extent of a pointer that is held. -/
theorem Represents.write {p n x : Nat} (hrep : s.Represents base a) (v : UInt8)
    (hp : (p, n) ∈ a.2) (hlow : p ≤ x) (hhigh : x < p + n) :
    ∃ s', Step (fun s r ↦ r.NotGrowing s) s (.write x v) s' ∧ s'.Represents base a := by
  obtain ⟨hbase, hlive, hc⟩ := hrep
  rw [← hlive] at hp
  obtain ⟨b, hb, -, rfl, hroom⟩ := hc.accounts.owner p n hp
  have hwithin : x + 8 < b.addr + Request.blockSize s.heap b.addr := by
    rw [hc.blockSize_eq hb]
    omega
  exact ⟨_, .write v hp hlow hwithin, hbase, hlive, hc.write v hp hlow hwithin⟩

/-- A session goes on along every trace on what it represents. -/
theorem Reached.along {trace : List (Request × Nat)} (h : Reached base events s)
    (hrep : s.Represents base a) (hfollows : Follows (Request.onAccount base) a trace b) :
    ∃ s', Reached base (events ++ trace.map fun x ↦ .request x.1 x.2) s' ∧ s'.Represents base b :=
  Run.along (fun _ _ _ _ _ hrep hmove ↦ (hrep.step hmove).imp fun _ h ↦ ⟨h.1, h.2.1⟩) h hrep
    hfollows

/-- A session can begin in every arena, with every list of ranges. -/
theorem exists_opened (haligned : base % 8 = 0) (hpos : 0 < base)
    (hbelow : base + maxHeap < 2 ^ 32) (ranges : Option (List Range)) :
    ∃ s, Opened base s ∧ s.heap.glRanges = ranges := by
  let h : Heap := ⟨fun _ ↦ 0, base, base, base + maxHeap, false, 0, 0, none⟩
  have harena : h.Arena := ⟨haligned, hpos, rfl, hbelow⟩
  obtain ⟨r, h', hinit, rfl, -, -, hranges, -⟩ := returns_mmInit (h := memResetBrk h)
    ⟨haligned, hpos, rfl, hbelow⟩ rfl rfl ranges
  exact ⟨⟨h', []⟩, ⟨rfl, h, ranges, harena, rfl, hinit⟩, hranges⟩

/-- Every trace on shapes and accounts from the empty heap is that of a session. -/
theorem exists_reached {trace : List (Request × Nat)} (haligned : base % 8 = 0) (hpos : 0 < base)
    (hbelow : base + maxHeap < 2 ^ 32)
    (hfollows : Follows (Request.onAccount base) (emptyShape base, []) trace b) :
    ∃ s, Reached base (trace.map fun x ↦ .request x.1 x.2) s ∧ s.Represents base b := by
  obtain ⟨s, hopened, -⟩ := exists_opened haligned hpos hbelow none
  exact Reached.along (.start hopened) hopened.represents hfollows

end Session

/-- A short trace: a block of its own, a bulk block, a block cut down, a refusal, a release. -/
def shortTrace : List (Request × Nat) :=
  [(.malloc 600 false, 4368), (.malloc 100 false, 4976), (.realloc 4368 300, 4368),
    (.malloc 100000 true, null), (.free 4976, null)]

set_option maxRecDepth 4000 in
theorem exists_reached_shortTrace :
    ∃ s, Session.Reached 4096 (shortTrace.map fun x ↦ .request x.1 x.2) s := by
  have hfollows : ∃ b, Follows (Request.onAccount 4096) (emptyShape 4096, []) shortTrace b :=
    ⟨_, _, rfl, _, rfl, _, rfl, _, rfl, _, rfl, rfl⟩
  obtain ⟨b, hfollows⟩ := hfollows
  obtain ⟨s, h, -⟩ := Session.exists_reached (by decide) (by decide) (by decide) hfollows
  exact ⟨s, h⟩

end SystemProgramming.MemoryLab
