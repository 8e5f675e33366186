import Mathlib.Data.Fintype.EquivFin
import SystemProgramming.ProxyLab.Balance

/-!
# Eviction by one thread

`add_cache_block` holds `w` when it finds the cache too large, and `cache_replacement_policy` waits
for `w` again. A thread that adds different uris, one after the other and with no other thread in
the cache, gets there when the sizes add up to more than `MAX_OBJECT_SIZE`, and stays there. Before
that every call runs to its end (`cache_evicts`).
-/

set_option autoImplicit false
set_option relaxedAutoImplicit false

namespace SystemProgramming.ProxyLab

open Library

/-- The call that begins in the step. -/
def CacheEvent.made {n : Nat} : CacheEvent n → Option Call
  | call _ c => some c
  | _ => none

/-- The calls of a run. -/
def calls {n : Nat} (events : List (CacheEvent n)) : List Call := events.filterMap CacheEvent.made

/-- The current call runs to its end: without another call the thread steps only so often, and it
can step until it is in neither function. -/
def Cache.Finishes (s : Cache 1) : Prop :=
  ∃ bound, ∀ more s', Steps Cache.Step s more s' → calls more = [] → more.length ≤ bound ∧
    (s'.threads 0 = .idle ∨ ∃ e s'', s'.Step e s'' ∧ e.made = none)

/-- In every run of these calls, or of the first of them, each call runs to its end. -/
def Completes (adds : List Item) : Prop :=
  ∀ events s, Cache.Reached events s → calls events <+: adds.map .add → s.Finishes

/-- In no run of these calls the thread is before `sem_wait(&w)` while it holds `w`. -/
def NeverNests (adds : List Item) : Prop :=
  ∀ events (s : Cache 1), Cache.Reached events s → calls events <+: adds.map .add →
    ∀ item, s.threads 0 ≠ .evictW item

/-- What the contents add up to. -/
def totalLength (adds : List Item) : Int := (adds.map Item.contentLength).sum

/-! ### As long as the contents fit -/

namespace Position

/-- The item that a thread is about to insert. -/
def inserting : Position → Option Item
  | findMutex (.add item) | findW (.add item) | findPost (.add item) | probing (.add item)
  | missMutex (.add item) | missW (.add item) | missPost (.add item)
  | addW item | addTest item | addEnqueue item => some item
  | _ => none

/-- The size that is counted before the item is inserted. -/
def charged : Position → Int
  | addTest item | addEnqueue item => item.contentLength
  | _ => 0

/-- The thread adds an item, and evicts nothing. -/
def Adding : Position → Prop
  | findMutex (.find _) | findW (.find _) | findPost (.find _) | probing (.find _)
  | missMutex (.find _) | missW (.find _) | missPost (.find _) => False
  | evictW _ | evict _ | evictPost _ => False
  | _ => True

/-- How many steps are left. -/
def rank : Position → Nat
  | findMutex _ => 11
  | findW _ => 10
  | findPost _ => 9
  | probing _ => 8
  | missMutex _ => 7
  | missW _ => 6
  | missPost _ => 5
  | addW _ => 4
  | addTest _ => 3
  | addEnqueue _ => 2
  | addPost _ => 1
  | _ => 0

end Position

/-- The items before the current one are in the list, and nothing has been found in it. -/
structure Cache.Filled (s : Cache 1) (events : List (CacheEvent 1)) (before : List Item) : Prop where
  ledger : s.Ledger 0
  made : calls events = (before ++ (s.threads 0).inserting.toList).map .add
  urls : ∃ live, s.list.Linked live ∧ live.map s.list.urlAt = (before.map Item.uri).reverse ∧
    ∀ p, s.list.blocks p ≠ none → p ∈ live
  size : s.size = totalLength before + (s.threads 0).charged
  adding : (s.threads 0).Adding

theorem held_one (amount : Position → Nat) (threads : Fin 1 → Position) :
    held amount threads = amount (threads 0) := by
  simp [held]

theorem calls_append {n : Nat} (events more : List (CacheEvent n)) :
    calls (events ++ more) = calls events ++ calls more := List.filterMap_append

/-- Contents that may be cached, under different uris. -/
structure Distinct (adds : List Item) : Prop where
  uris : (adds.map Item.uri).Nodup
  nonneg : ∀ item ∈ adds, 0 ≤ item.contentLength
  content : ∀ item ∈ adds, item.contentLength ≤ maxContentSize

theorem totalLength_append (front back : List Item) :
    totalLength (front ++ back) = totalLength front + totalLength back := by
  simp [totalLength]

/-- The first contents do not add up to more than all. -/
theorem Distinct.totalLength_le {adds before : List Item} (h : Distinct adds)
    (hfirst : before <+: adds) : totalLength before ≤ totalLength adds := by
  obtain ⟨rest, rfl⟩ := hfirst
  have hrest : 0 ≤ totalLength rest := by
    refine List.sum_nonneg fun length hlength ↦ ?_
    obtain ⟨item, hitem, rfl⟩ := List.mem_map.mp hlength
    exact h.nonneg item (List.mem_append_right _ hitem)
  rw [totalLength_append]
  omega

namespace Cache.Filled

variable {s s' : Cache 1} {events : List (CacheEvent 1)} {e : CacheEvent 1} {before adds : List Item}

theorem start : (Cache.start 1).Filled [] [] where
  ledger := Ledger.start 1
  made := rfl
  urls := ⟨[], CacheList.Linked.empty, rfl, fun _ hp ↦ absurd rfl hp⟩
  size := rfl
  adding := trivial

/-- The step keeps this, and if it is no call it brings the thread nearer to its end. -/
def Advances (s : Cache 1) (events : List (CacheEvent 1)) (e : CacheEvent 1) (s' : Cache 1) : Prop :=
  (∃ before, s'.Filled (events ++ [e]) before) ∧
    (e.made = none → (s'.threads 0).rank < (s.threads 0).rank)

/-- The list stays, and the thread goes on with its item. -/
theorem move (h : s.Filled events before) {p u v : Position} (hposition : s.threads 0 = p)
    (hstep : s.Step e s') (hthreads : s'.threads = Function.update s.threads 0 u) (hu : u = v)
    (hinserting : v.inserting = p.inserting) (hadding : v.Adding) (hlist : s'.list = s.list)
    (hsize : s'.size + p.charged = s.size + v.charged) (hmade : e.made = none)
    (hhit : e.hit = 0) (hrank : v.rank < p.rank) : Advances s events e s' := by
  have hat : s'.threads 0 = v := by rw [hthreads, hu, Function.update_self]
  obtain ⟨hledger, hcalls, hurls, hsize₀, -⟩ := h
  rw [hposition] at hcalls hsize₀
  have hledger' := hledger.step hstep
  rw [hhit] at hledger'
  refine ⟨⟨before, hledger', ?_, hlist ▸ hurls, ?_, hat ▸ hadding⟩, fun _ ↦ ?_⟩
  · rw [calls_append, hcalls, hat, hinserting]
    simp [calls, hmade]
  · rw [hat]
    omega
  · rwa [hat, hposition]

/-- The next item is taken up. -/
theorem call (h : s.Filled events before) (hadds : Distinct adds) {c : Call}
    (hidle : s.threads 0 = .idle) (hstep : s.Step (.call 0 c) s')
    (hcalls : calls (events ++ [.call 0 c]) <+: adds.map .add) :
    Advances s events (.call 0 c) s' := by
  obtain ⟨hledger, hmade, hurls, hsize, -⟩ := h
  rw [hidle] at hmade hsize
  have hcall : calls (events ++ [.call 0 c]) = before.map .add ++ [c] := by
    rw [calls_append, hmade]
    simp [calls, CacheEvent.made, Position.inserting]
  obtain ⟨item, hitem, rfl⟩ : ∃ item ∈ adds, Call.add item = c := by
    have hmem : c ∈ adds.map Call.add := hcalls.subset (by rw [hcall]; simp)
    simpa using hmem
  have hbegin : (Call.add item).begin = .findMutex (.add item) :=
    if_neg (not_lt.mpr (hadds.content item hitem))
  obtain ⟨hlist, hsize', hat⟩ : s'.list = s.list ∧ s'.size = s.size ∧
      s'.threads 0 = .findMutex (.add item) := by
    cases hstep
    exact ⟨rfl, rfl, by simp [hbegin]⟩
  refine ⟨⟨before, hledger.step hstep, ?_, hlist ▸ hurls, ?_, ?_⟩,
    fun hnone ↦ absurd hnone (by simp [CacheEvent.made])⟩
  · rw [hcall, hat]
    simp [Position.inserting]
  · rw [hat, hsize']
    exact hsize
  · rw [hat]
    trivial

/-- The item comes into the list. -/
theorem enqueue (h : s.Filled events before) {item : Item} {newnode : Nat}
    (hposition : s.threads 0 = .addEnqueue item) (hnull : newnode ≠ 0)
    (hnew : s.list.blocks newnode = none) (hstep : s.Step (.enqueue 0 item.uri newnode) s')
    (hlist : s'.list = s.list.added newnode item) (hsize' : s'.size = s.size)
    (hat : s'.threads 0 = .addPost item) :
    Advances s events (.enqueue 0 item.uri newnode) s' := by
  obtain ⟨hledger, hcalls, ⟨live, hlinked, hurls, howned⟩, hsize, -⟩ := h
  rw [hposition] at hcalls hsize
  refine ⟨⟨before ++ [item], hledger.step hstep, ?_, ⟨newnode :: live, ?_, ?_, ?_⟩, ?_, ?_⟩, ?_⟩
  · rw [calls_append, hcalls, hat]
    simp [calls, CacheEvent.made, Position.inserting]
  · rw [hlist]
    exact hlinked.enqueued hnull hnew
  · rw [hlist]
    refine (hlinked.enqueued_urls hnew).trans ?_
    simp [hurls]
  · intro p hp
    by_cases hself : p = newnode
    · exact hself ▸ List.mem_cons_self
    · refine List.mem_cons_of_mem _ (howned p fun hnone ↦ hp ?_)
      simp [hlist, CacheList.added, CacheList.enqueued, hself, hnone]
  · rw [hat, hsize', totalLength_append, hsize]
    simp [Position.charged, totalLength]
  · rw [hat]
    trivial
  · intro _
    rw [hat, hposition]
    simp [Position.rank]

theorem adding_at (h : s.Filled events before) {p : Position} (hposition : s.threads 0 = p) :
    p.Adding := by
  rw [← hposition]
  exact h.adding

/-- What the thread has called is `add_cache_block`. -/
theorem adding_call (h : s.Filled events before) {c : Call} {p : Call → Position}
    (hposition : s.threads 0 = p c) (hfind : ∀ uri, ¬ (p (.find uri)).Adding) :
    ∃ item, c = .add item := by
  cases c with
  | find uri => exact absurd (h.adding_at hposition) (hfind uri)
  | add item => exact ⟨item, rfl⟩

/-- The items so far, with the current one, are the first of those that are added. -/
theorem isPrefix (h : s.Filled events before) (hcalls : calls events <+: adds.map .add) :
    before ++ (s.threads 0).inserting.toList <+: adds := by
  rw [h.made] at hcalls
  exact (List.prefix_map_iff_of_injective fun _ _ ↦ Call.add.inj).mp hcalls

/-- The current item's uri is not cached. -/
theorem not_caches (h : s.Filled events before) (hadds : Distinct adds) {item : Item}
    (hfirst : before ++ [item] <+: adds) : ¬ s.list.Caches item.uri := by
  obtain ⟨live, hlinked, hurls, -⟩ := h.urls
  obtain ⟨rest, rfl⟩ := hfirst
  rw [hlinked.caches_iff, hurls, List.mem_reverse]
  intro hin
  have hnodup := hadds.uris
  rw [List.append_assoc, List.map_append, List.nodup_append] at hnodup
  exact hnodup.2.2 _ hin item.uri (by simp) rfl

/-- As long as the contents fit, every step of the thread advances. -/
theorem step (h : s.Filled events before) (hadds : Distinct adds)
    (hfits : totalLength adds ≤ maxObjectSize) (hstep : s.Step e s')
    (hcalls : calls (events ++ [e]) <+: adds.map .add) : Advances s events e s' := by
  have hfirst := h.isPrefix ((List.prefix_append _ _).trans (calls_append events [e] ▸ hcalls))
  have hstep' := hstep
  cases hstep with
  | @call t c hposition =>
    obtain rfl : t = 0 := Subsingleton.elim t 0
    exact h.call hadds hposition hstep' hcalls
  | @findMutex t c hposition hmutex =>
    obtain rfl : t = 0 := Subsingleton.elim t 0
    obtain ⟨item, rfl⟩ := h.adding_call hposition fun _ ↦ id
    by_cases hreader : s.readcnt + 1 = 1
    · exact h.move hposition hstep' rfl (if_pos hreader) rfl trivial rfl rfl rfl rfl
        (by simp [Position.rank])
    · exact h.move hposition hstep' rfl (if_neg hreader) rfl trivial rfl rfl rfl rfl
        (by simp [Position.rank])
  | @findW t c hposition hw =>
    obtain rfl : t = 0 := Subsingleton.elim t 0
    obtain ⟨item, rfl⟩ := h.adding_call hposition fun _ ↦ id
    exact h.move hposition hstep' rfl rfl rfl trivial rfl rfl rfl rfl (by simp [Position.rank])
  | @findPost t c hposition =>
    obtain rfl : t = 0 := Subsingleton.elim t 0
    obtain ⟨item, rfl⟩ := h.adding_call hposition fun _ ↦ id
    exact h.move hposition hstep' rfl rfl rfl trivial rfl rfl rfl rfl (by simp [Position.rank])
  | @probe t c found hposition hfinds =>
    obtain rfl : t = 0 := Subsingleton.elim t 0
    obtain ⟨item, rfl⟩ := h.adding_call hposition fun _ ↦ id
    rw [hposition] at hfirst
    obtain ⟨live, hlinked, -, -⟩ := h.urls
    obtain rfl := (hlinked.finds_zero_iff hfinds).mpr (h.not_caches hadds hfirst)
    exact h.move hposition hstep' rfl (if_pos rfl) rfl trivial rfl rfl rfl rfl
      (by simp [Position.rank])
  | @missMutex t c hposition hmutex =>
    obtain rfl : t = 0 := Subsingleton.elim t 0
    obtain ⟨item, rfl⟩ := h.adding_call hposition fun _ ↦ id
    by_cases hlast : s.readcnt - 1 = 0
    · exact h.move hposition hstep' rfl (if_pos hlast) rfl trivial rfl rfl rfl rfl
        (by simp [Position.rank])
    · exact h.move hposition hstep' rfl (if_neg hlast) rfl trivial rfl rfl rfl rfl
        (by simp [Position.rank])
  | @missW t c hposition =>
    obtain rfl : t = 0 := Subsingleton.elim t 0
    obtain ⟨item, rfl⟩ := h.adding_call hposition fun _ ↦ id
    exact h.move hposition hstep' rfl rfl rfl trivial rfl rfl rfl rfl (by simp [Position.rank])
  | @missPost t c hposition =>
    obtain rfl : t = 0 := Subsingleton.elim t 0
    obtain ⟨item, rfl⟩ := h.adding_call hposition fun _ ↦ id
    exact h.move hposition hstep' rfl rfl rfl trivial rfl rfl rfl rfl
      (by simp [Position.rank, Call.missed])
  | @addW t item hposition hw =>
    obtain rfl : t = 0 := Subsingleton.elim t 0
    refine h.move hposition hstep' rfl rfl rfl trivial rfl ?_ rfl rfl (by simp [Position.rank])
    simp [Position.charged]
  | @addTest t item hposition =>
    obtain rfl : t = 0 := Subsingleton.elim t 0
    have hsmall : ¬ s.size > maxObjectSize := by
      rw [hposition] at hfirst
      have hle := hadds.totalLength_le hfirst
      have hsize := h.size
      rw [hposition] at hsize
      have hitem : s.size = totalLength (before ++ [item]) := by
        rw [hsize, totalLength_append]
        simp [Position.charged, totalLength]
      have hfirst' : totalLength (before ++ [item]) ≤ totalLength adds := hle
      omega
    exact h.move hposition hstep' rfl (if_neg hsmall) rfl trivial rfl rfl rfl rfl
      (by simp [Position.rank])
  | @addEnqueue t item newnode list hposition hnull hnew henqueue =>
    obtain rfl : t = 0 := Subsingleton.elim t 0
    obtain ⟨live, hlinked, -, -⟩ := h.urls
    rw [hlinked.enqueue_eq hnew] at henqueue
    obtain ⟨-, rfl⟩ := Prod.mk.inj (Option.some.inj henqueue)
    exact h.enqueue hposition hnull hnew hstep' rfl rfl (by simp)
  | @addPost t item hposition =>
    obtain rfl : t = 0 := Subsingleton.elim t 0
    exact h.move hposition hstep' rfl rfl rfl trivial rfl rfl rfl rfl (by simp [Position.rank])
  | @evictW t item hposition hw =>
    obtain rfl : t = 0 := Subsingleton.elim t 0
    exact absurd (h.adding_at hposition) id
  | @evict t item reduce list hposition hdequeue =>
    obtain rfl : t = 0 := Subsingleton.elim t 0
    exact absurd (h.adding_at hposition) id
  | @evictPost t item hposition =>
    obtain rfl : t = 0 := Subsingleton.elim t 0
    exact absurd (h.adding_at hposition) id

/-- `malloc` has an address to return. -/
theorem exists_new (h : s.Filled events before) :
    ∃ newnode, newnode ≠ 0 ∧ s.list.blocks newnode = none := by
  obtain ⟨live, -, -, howned⟩ := h.urls
  obtain ⟨newnode, hnew⟩ := Infinite.exists_notMem_finset (0 :: live).toFinset
  rw [List.mem_toFinset, List.mem_cons, not_or] at hnew
  exact ⟨newnode, hnew.1, by_contra fun hne ↦ hnew.2 (howned newnode hne)⟩

/-- The thread can step until it is in neither function. -/
theorem progress (h : s.Filled events before) (hbusy : s.threads 0 ≠ .idle) :
    ∃ e s', s.Step e s' ∧ e.made = none := by
  obtain ⟨live, hlinked, -, -⟩ := h.urls
  have hmutex := h.ledger.mutex
  have hreadcnt := h.ledger.readcnt
  have hw := h.ledger.w
  rw [held_one] at hmutex hreadcnt
  rw [held_one, held_one, held_one] at hw
  cases hposition : s.threads 0 with
  | idle => exact absurd hposition hbusy
  | findMutex c =>
    have hfree : s.mutex = 1 := by simpa [hposition, Position.mutex] using hmutex
    exact ⟨_, _, .findMutex hposition (by omega), rfl⟩
  | findW c =>
    have hreader : s.readcnt = 1 := by simpa [hposition, Position.reads] using hreadcnt
    have hfree : s.w + 1 = 1 + 1 := by
      simpa [hposition, hreader, Position.writes, Position.gives, Position.takes, readersPermit]
        using hw
    exact ⟨_, _, .findW hposition (by omega), rfl⟩
  | findPost c => exact ⟨_, _, .findPost hposition, rfl⟩
  | probing c =>
    obtain ⟨found, hfinds⟩ := hlinked.finds c.uri
    exact ⟨_, _, .probe hposition hfinds, rfl⟩
  | missMutex c =>
    have hfree : s.mutex = 1 := by simpa [hposition, Position.mutex] using hmutex
    exact ⟨_, _, .missMutex hposition (by omega), rfl⟩
  | missW c => exact ⟨_, _, .missW hposition, rfl⟩
  | missPost c => exact ⟨_, _, .missPost hposition, rfl⟩
  | addW item =>
    have hreader : s.readcnt = 0 := by simpa [hposition, Position.reads] using hreadcnt
    have hfree : s.w = 1 := by
      simpa [hposition, hreader, Position.writes, Position.gives, Position.takes, readersPermit]
        using hw
    exact ⟨_, _, .addW hposition (by omega), rfl⟩
  | addTest item => exact ⟨_, _, .addTest hposition, rfl⟩
  | addEnqueue item =>
    obtain ⟨newnode, hnull, hnew⟩ := h.exists_new
    exact ⟨_, _, .addEnqueue hposition hnull hnew (hlinked.enqueue_eq hnew), rfl⟩
  | addPost item => exact ⟨_, _, .addPost hposition, rfl⟩
  | evictW item => exact absurd (h.adding_at hposition) id
  | evict item => exact absurd (h.adding_at hposition) id
  | evictPost item => exact absurd (h.adding_at hposition) id

/-- Without another call the thread comes nearer to its end with every step. -/
theorem steps (h : s.Filled events before) (hadds : Distinct adds)
    (hfits : totalLength adds ≤ maxObjectSize) {more : List (CacheEvent 1)}
    (hsteps : Steps Step s more s') (hnone : calls more = [])
    (hcalls : calls events <+: adds.map .add) :
    (∃ before', s'.Filled (events ++ more) before') ∧
      more.length + (s'.threads 0).rank ≤ (s.threads 0).rank := by
  induction hsteps generalizing events before with
  | nil => exact ⟨⟨before, by rwa [List.append_nil]⟩, by simp⟩
  | @cons s t u e labels hstep hrest ih =>
    have hsplit : calls [e] = [] ∧ calls labels = [] := by
      rwa [← List.singleton_append, calls_append, List.append_eq_nil_iff] at hnone
    have hmade : e.made = none := by
      cases hcall : e.made with
      | none => rfl
      | some c => simp [calls, hcall] at hsplit
    have hcalls' : calls (events ++ [e]) <+: adds.map .add := by
      rwa [calls_append, hsplit.1, List.append_nil]
    obtain ⟨⟨before', hfilled⟩, hrank⟩ := h.step hadds hfits hstep hcalls'
    obtain ⟨hfilled', hlength⟩ := ih hfilled hsplit.2 hcalls'
    have hlower := hrank hmade
    rw [List.append_assoc, List.singleton_append] at hfilled'
    exact ⟨hfilled', by rw [List.length_cons]; omega⟩

end Cache.Filled

theorem Cache.Reached.filled {adds : List Item} (hadds : Distinct adds)
    (hfits : totalLength adds ≤ maxObjectSize) {events : List (CacheEvent 1)} {s : Cache 1}
    (h : Cache.Reached events s) (hcalls : calls events <+: adds.map .add) :
    ∃ before, s.Filled events before := by
  induction h with
  | start hinit =>
    subst hinit
    exact ⟨[], Filled.start⟩
  | @step events s s' e hrun hstep ih =>
    obtain ⟨before, hfilled⟩ := ih ((List.prefix_append _ _).trans (calls_append events [e] ▸ hcalls))
    exact (hfilled.step hadds hfits hstep hcalls).1

/-! ### When they do not -/

theorem Distinct.of_prefix {adds before : List Item} (h : Distinct adds)
    (hfirst : before <+: adds) : Distinct before where
  uris := h.uris.sublist (hfirst.sublist.map _)
  nonneg item hitem := h.nonneg item (hfirst.subset hitem)
  content item hitem := h.content item (hfirst.subset hitem)

/-- The next item is not cached yet. -/
theorem Cache.Reached.next {before : List Item} {item : Item} (hadds : Distinct (before ++ [item]))
    (hfits : totalLength before ≤ maxObjectSize) {events : List (CacheEvent 1)} {s : Cache 1}
    (h : Cache.Reached events s) (hcalls : calls events = before.map .add)
    (hidle : s.threads 0 = .idle) : s.list.Finds item.uri 0 ∧ (∃ live, s.list.Linked live) ∧
      ∃ newnode, newnode ≠ 0 ∧ s.list.blocks newnode = none := by
  obtain ⟨before', hfilled⟩ := Reached.filled (hadds.of_prefix (List.prefix_append _ _)) hfits h
    (by rw [hcalls])
  have hmade := hfilled.made
  rw [hidle, hcalls] at hmade
  obtain rfl : before = before' := by
    have hinj := List.map_injective_iff.mpr (fun _ _ ↦ Call.add.inj) hmade
    simpa [Position.inserting] using hinj
  obtain ⟨live, hlinked, -⟩ := hfilled.urls
  obtain ⟨found, hfinds⟩ := hlinked.finds item.uri
  obtain rfl := (hlinked.finds_zero_iff hfinds).mpr
    (hfilled.not_caches hadds (List.prefix_refl _))
  exact ⟨hfinds, ⟨live, hlinked⟩, hfilled.exists_new⟩

/-- The items that fit are added. -/
theorem Cache.exists_filled {before : List Item} (hadds : Distinct before)
    (hfits : totalLength before ≤ maxObjectSize) : ∃ events list,
    Cache.Reached events (⟨list, totalLength before, 0, 1, 1, fun _ ↦ .idle⟩ : Cache 1) ∧
      calls events = before.map .add := by
  induction before using List.reverseRecOn with
  | nil => exact ⟨[], .empty, .start rfl, rfl⟩
  | append_singleton before item ih =>
    have hfirst : before <+: before ++ [item] := List.prefix_append _ _
    have hbefore := hadds.of_prefix hfirst
    have hfits' := (hadds.totalLength_le hfirst).trans hfits
    obtain ⟨events, list, hreached, hcalls⟩ := ih hbefore hfits'
    obtain ⟨hfinds, ⟨live, hlinked⟩, newnode, hnull, hnew⟩ :=
      Reached.next hadds hfits' hreached hcalls rfl
    have hcontent := hadds.content item (by simp)
    have htotal : totalLength (before ++ [item]) = totalLength before + item.contentLength := by
      simp [totalLength]
    rw [htotal] at hfits ⊢
    refine ⟨_, _, hreached.append
      (Cache.add 0 item newnode hlinked rfl hcontent hfinds hfits hnull hnew), ?_⟩
    rw [calls_append, hcalls]
    simp [calls, CacheEvent.made, missing, inserting]

/-- The first item that does not fit. -/
theorem exists_overflow {adds : List Item} (h : maxObjectSize < totalLength adds) :
    ∃ before item rest, adds = before ++ item :: rest ∧ totalLength before ≤ maxObjectSize ∧
      maxObjectSize < totalLength before + item.contentLength := by
  induction adds using List.reverseRecOn with
  | nil => exact absurd h (by decide)
  | append_singleton front last ih =>
    by_cases hfront : maxObjectSize < totalLength front
    · obtain ⟨before, item, rest, rfl, hfits, hover⟩ := ih hfront
      exact ⟨before, item, rest ++ [last], by simp, hfits, hover⟩
    · rw [totalLength_append] at h
      refine ⟨front, last, [], rfl, not_lt.mp hfront, ?_⟩
      simpa [totalLength] using h

/-- The thread waits for `w`, which it holds. -/
theorem Cache.Step.not_of_evictW {s s' : Cache 1} {e : CacheEvent 1} {item : Item}
    (hposition : s.threads 0 = .evictW item) (hw : s.w = 0) : ¬ s.Step e s' := by
  intro hstep
  have hall : s.threads = fun _ ↦ .evictW item :=
    funext fun t ↦ by rw [Subsingleton.elim t 0, hposition]
  cases hstep with
  | evictW hposition' hw' => omega
  | _ => simp_all

/-- A run leads there when the contents do not fit. -/
theorem Cache.exists_stuck {adds : List Item} (hadds : Distinct adds)
    (hover : maxObjectSize < totalLength adds) : ∃ events, ∃ s : Cache 1, ∃ item,
    Cache.Reached events s ∧ calls events <+: adds.map .add ∧ s.threads 0 = .evictW item ∧
      s.w = 0 := by
  obtain ⟨before, item, rest, rfl, hfits, hitem⟩ := exists_overflow hover
  have hfirst : before ++ [item] <+: before ++ item :: rest := ⟨rest, by simp⟩
  have hnext := hadds.of_prefix hfirst
  obtain ⟨events, list, hreached, hcalls⟩ :=
    Cache.exists_filled (hnext.of_prefix (List.prefix_append _ _)) hfits
  obtain ⟨hfinds, -, -⟩ := Reached.next hnext hfits hreached hcalls rfl
  have hmiss := hreached.append (Cache.add_miss 0 item rfl (hnext.content item (by simp)) hfinds)
  have hstuck := hmiss.append
    (Cache.overflow (0 : Fin 1) item (Function.update_self _ _ _) hitem)
  refine ⟨_, _, item, hstuck, ?_, by simp, rfl⟩
  rw [calls_append, calls_append, hcalls]
  convert hfirst.map Call.add using 1
  simp [calls, CacheEvent.made, missing]

/-- With more than fits, a call is left waiting. -/
theorem not_completes {adds : List Item} (hadds : Distinct adds)
    (hover : maxObjectSize < totalLength adds) : ¬ Completes adds := by
  obtain ⟨events, s, item, hreached, hcalls, hposition, hw⟩ := Cache.exists_stuck hadds hover
  intro hcompletes
  obtain ⟨bound, hends⟩ := hcompletes events s hreached hcalls
  rcases (hends [] s .nil rfl).2 with hidle | ⟨e, s', hstep, -⟩
  · rw [hposition] at hidle
    exact absurd hidle (by simp)
  · exact Cache.Step.not_of_evictW hposition hw hstep

theorem not_neverNests {adds : List Item} (hadds : Distinct adds)
    (hover : maxObjectSize < totalLength adds) : ¬ NeverNests adds := by
  obtain ⟨events, s, item, hreached, hcalls, hposition, -⟩ := Cache.exists_stuck hadds hover
  exact fun hnever ↦ hnever events s hreached hcalls item hposition

/-- The calls of a thread that adds different uris, with no other thread in the cache, run to their
ends exactly if the contents fit into the cache, and `w` is not waited for twice exactly then. -/
theorem cache_evicts {adds : List Item} (hadds : Distinct adds) :
    (Completes adds ↔ totalLength adds ≤ maxObjectSize) ∧
      (NeverNests adds ↔ totalLength adds ≤ maxObjectSize) := by
  refine ⟨⟨fun hcompletes ↦ ?_, fun hfits events s hreached hcalls ↦ ?_⟩,
    ⟨fun hnever ↦ ?_, fun hfits events s hreached hcalls item hposition ↦ ?_⟩⟩
  · exact not_lt.mp fun hover ↦ not_completes hadds hover hcompletes
  · obtain ⟨before, hfilled⟩ := Cache.Reached.filled hadds hfits hreached hcalls
    refine ⟨(s.threads 0).rank, fun more s' hsteps hnone ↦ ?_⟩
    obtain ⟨⟨before', hfilled'⟩, hlength⟩ := hfilled.steps hadds hfits hsteps hnone hcalls
    refine ⟨by omega, ?_⟩
    by_cases hidle : s'.threads 0 = .idle
    · exact Or.inl hidle
    · exact Or.inr (hfilled'.progress hidle)
  · exact not_lt.mp fun hover ↦ not_neverNests hadds hover hnever
  · obtain ⟨before, hfilled⟩ := Cache.Reached.filled hadds hfits hreached hcalls
    exact absurd (hfilled.adding_at hposition) id

theorem cache_evicts_two : Completes [⟨[97], [], [7], 1⟩, ⟨[98], [], [7, 8], 2⟩] ∧
    NeverNests [⟨[97], [], [7], 1⟩, ⟨[98], [], [7, 8], 2⟩] := by
  have hadds : Distinct [⟨[97], [], [7], 1⟩, ⟨[98], [], [7, 8], 2⟩] :=
    ⟨by decide, by decide, by decide⟩
  have hiff := cache_evicts hadds
  exact ⟨hiff.1.mpr (by decide), hiff.2.mpr (by decide)⟩

/-- The contents at six uris, as many bytes long as may be cached. -/
def sixLargest : List Item :=
  [97, 98, 99, 100, 101, 102].map fun c ↦
    ⟨[c], [], List.replicate maxContentSize.toNat 0, maxContentSize⟩

theorem cache_evicts_six : Distinct sixLargest ∧ ¬ Completes sixLargest ∧
    ¬ NeverNests sixLargest := by
  have hadds : Distinct sixLargest := ⟨by decide, by decide, by decide⟩
  have hover : maxObjectSize < totalLength sixLargest := by decide
  exact ⟨hadds, not_completes hadds hover, not_neverNests hadds hover⟩

end SystemProgramming.ProxyLab
