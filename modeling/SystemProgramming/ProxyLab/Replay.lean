import SystemProgramming.ProxyLab.Budget
import SystemProgramming.ProxyLab.Doit

/-!
# Answers from the cache

`doit` looks for the uri in the cache. If it is not there it forwards the response of the server to
its client, and then calls `add_cache_block` with what it has written. If it is there it writes the
response and the content of the block, with nothing held but the permit that `find_cache_block` has
not given back. Nothing is ever dequeued and no block is changed but for its links, so a block holds
what some `doit` has forwarded (`cache_replays`).
-/

set_option autoImplicit false
set_option relaxedAutoImplicit false

namespace SystemProgramming.ProxyLab

open Library

/-- The bytes that are written for an item: the response and as many bytes of the content as
`contentLength` says. -/
def Item.sent (item : Item) : Bytes :=
  item.response ++ item.content.take item.contentLength.toNat

/-- What `doit` has in `response`, `contentBuffer` and `contentLength` at the end. -/
def doitItem (memory : Memory) (spill fuel : Nat) (server : List (Arrival rioBufSize)) (uri : Bytes) :
    Except Fault Item := do
  let first := rioReadlineb (rioReadinitb server) [] maxLine
  let header ← readHeader spill fuel first.rp first.usrbuf [] false none
  let content ← readContent memory spill fuel header
  return ⟨uri, header.response, bytesAt content.contentBuffer 0 content.contentLength.toNat,
    content.contentLength⟩

/-- It writes just these. -/
theorem doitResponse_eq_sent (memory : Memory) (spill fuel : Nat)
    (server : List (Arrival rioBufSize)) (uri : Bytes) :
    doitResponse memory spill fuel server =
      (doitItem memory spill fuel server uri).map Item.sent := by
  unfold doitResponse doitItem
  simp only [bind, Except.bind, pure, Except.pure]
  cases readHeader spill fuel (rioReadlineb (rioReadinitb server) [] maxLine).rp
      (rioReadlineb (rioReadinitb server) [] maxLine).usrbuf [] false none with
  | error fault => rfl
  | ok header =>
    dsimp only
    cases readContent memory spill fuel header with
    | error fault => rfl
    | ok content =>
      have htake := List.take_of_length_le
        (length_bytesAt content.contentBuffer 0 content.contentLength.toNat).le
      simp only [Except.map, Item.sent, htake]

/-! ### The threads of the proxy -/

/-- Where `doit` is: before the next request; in `find_cache_block`; before it connects to the server;
before and in `add_cache_block`; and before it writes the response and the content of a block, the
second with what it has written of the first. -/
inductive Doit
  | waiting
  | looking (uri : Bytes)
  | missed (uri : Bytes)
  | forwarded (item : Item)
  | adding (item : Item)
  | found (uri : Bytes) (block : Nat)
  | replaying (uri : Bytes) (block : Nat) (written : Bytes)

/-- Where `doit` goes on when the cache function in which it is has come to this position. -/
def Doit.after {n : Nat} (d : Doit) (e : CacheEvent n) (p : Position) : Doit :=
  if p ≠ .idle then d
  else match d, e with
    | looking uri, .probe _ _ block => found uri block
    | looking uri, _ => missed uri
    | adding _, _ => waiting
    | d, _ => d

/-- The cache and the threads, each of which runs `doit` again and again. -/
structure Proxy (n : Nat) where
  cache : Cache n
  doits : Fin n → Doit

/-- The proxy at the beginning. -/
def Proxy.start (n : Nat) : Proxy n := ⟨.start n, fun _ ↦ .waiting⟩

/-- What happens in a step. `forward` is the answer of a `doit` that has missed the cache, and
`replay` the answer of one that has not. -/
inductive ProxyEvent (n : Nat)
  | request (t : Fin n) (uri : Bytes)
  | inside (e : CacheEvent n)
  | unreachable (t : Fin n)
  | forward (t : Fin n) (item : Item)
  | add (t : Fin n)
  | respond (t : Fin n)
  | replay (t : Fin n) (uri bytes : Bytes)

/-- The steps of the threads. The answer of the server may be any item, so it may be what `doitItem`
makes of anything that arrives. -/
inductive Proxy.Step {n : Nat} : Proxy n → ProxyEvent n → Proxy n → Prop
  | request {s : Proxy n} {t : Fin n} {uri : Bytes} {cache : Cache n}
      (hdoit : s.doits t = .waiting) (hcall : s.cache.Step (.call t (.find uri)) cache) :
      Step s (.request t uri) ⟨cache, Function.update s.doits t (.looking uri)⟩
  | inside {s : Proxy n} {e : CacheEvent n} {cache : Cache n} (hmade : e.made = none)
      (hstep : s.cache.Step e cache) :
      Step s (.inside e) ⟨cache, Function.update s.doits e.thread
        ((s.doits e.thread).after e (cache.threads e.thread))⟩
  | unreachable {s : Proxy n} {t : Fin n} {uri : Bytes} (hdoit : s.doits t = .missed uri) :
      Step s (.unreachable t) { s with doits := Function.update s.doits t .waiting }
  | forward {s : Proxy n} {t : Fin n} {item : Item} (hdoit : s.doits t = .missed item.uri) :
      Step s (.forward t item) { s with doits := Function.update s.doits t (.forwarded item) }
  | add {s : Proxy n} {t : Fin n} {item : Item} {cache : Cache n}
      (hdoit : s.doits t = .forwarded item) (hcall : s.cache.Step (.call t (.add item)) cache) :
      Step s (.add t) ⟨cache, Function.update s.doits t
        ((Doit.adding item).after (.call t (.add item)) (cache.threads t))⟩
  | respond {s : Proxy n} {t : Fin n} {uri : Bytes} {block : Nat} {b : CacheBlock}
      (hdoit : s.doits t = .found uri block) (hblock : s.cache.list.blocks block = some b) :
      Step s (.respond t)
        { s with doits := Function.update s.doits t (.replaying uri block b.response) }
  | replay {s : Proxy n} {t : Fin n} {uri written : Bytes} {block : Nat} {b : CacheBlock}
      (hdoit : s.doits t = .replaying uri block written)
      (hblock : s.cache.list.blocks block = some b) :
      Step s (.replay t uri (written ++ b.content.take b.contentLength.toNat))
        { s with doits := Function.update s.doits t .waiting }

/-- The states that the threads lead to. -/
abbrev Proxy.Reached {n : Nat} (events : List (ProxyEvent n)) (s : Proxy n) : Prop :=
  Run (· = Proxy.start n) Proxy.Step events s

/-- A `doit` that has missed the cache has written the item to its client. -/
def Forwarded {n : Nat} (events : List (ProxyEvent n)) (item : Item) : Prop :=
  ∃ t, .forward t item ∈ events

/-! ### The calls -/

/-- The call in which a thread is. -/
def Position.call : Position → Option Call
  | .idle => none
  | .findMutex c | .findW c | .findPost c | .probing c | .missMutex c | .missW c | .missPost c =>
    some c
  | .addW item | .addTest item | .evictW item | .evict item | .evictPost item | .addEnqueue item
  | .addPost item => some (.add item)

/-- The call in which `doit` is. -/
def Doit.call : Doit → Option Call
  | looking uri => some (.find uri)
  | adding item => some (.add item)
  | _ => none

theorem Call.begin_call (c : Call) : c.begin = .idle ∨ c.begin.call = some c := by
  cases c with
  | find uri => exact Or.inr rfl
  | add item =>
    by_cases hlarge : item.contentLength > maxContentSize
    · exact Or.inl (if_pos hlarge)
    · right
      rw [Call.begin, if_neg hlarge]
      rfl

/-- A call of `add_cache_block` that does not return at once has a content that may be cached. -/
theorem Call.begin_small {item : Item} (h : (Call.add item).begin ≠ .idle) :
    item.contentLength ≤ maxContentSize := by
  by_contra hlarge
  exact h (if_pos (not_le.mp hlarge))

namespace Cache

variable {n : Nat} {s s' : Cache n} {e : CacheEvent n} {hits : Nat}

/-- A step within a call leaves the other threads alone, and its own thread in the call, or lets the
call return. -/
theorem Step.inside_call (hstep : s.Step e s') (hmade : e.made = none) :
    (s.threads e.thread).call ≠ none ∧ ∃ v, s'.threads = Function.update s.threads e.thread v ∧
      (v = .idle ∨ v.call = (s.threads e.thread).call) := by
  cases hstep with
  | call t c hposition => exact absurd hmade (by simp [CacheEvent.made])
  | @findMutex t c hposition hmutex =>
    rw [CacheEvent.thread, hposition]
    exact ⟨by simp [Position.call], _, rfl, Or.inr (by split_ifs <;> rfl)⟩
  | @probe t c found hposition hfinds =>
    rw [CacheEvent.thread, hposition]
    refine ⟨by simp [Position.call], _, rfl, ?_⟩
    split_ifs
    · exact Or.inr rfl
    · exact Or.inl rfl
  | @missMutex t c hposition hmutex =>
    rw [CacheEvent.thread, hposition]
    exact ⟨by simp [Position.call], _, rfl, Or.inr (by split_ifs <;> rfl)⟩
  | @missPost t c hposition =>
    rw [CacheEvent.thread, hposition]
    refine ⟨by simp [Position.call], _, rfl, ?_⟩
    cases c with
    | find uri => exact Or.inl rfl
    | add item => exact Or.inr rfl
  | @addTest t item hposition =>
    rw [CacheEvent.thread, hposition]
    exact ⟨by simp [Position.call], _, rfl, Or.inr (by split_ifs <;> rfl)⟩
  | @addPost t item hposition =>
    rw [CacheEvent.thread, hposition]
    exact ⟨by simp [Position.call], _, rfl, Or.inl rfl⟩
  | findW hposition _ | findPost hposition | missW hposition | addW hposition _
  | addEnqueue hposition _ _ _ | evictW hposition _ | evict hposition _ | evictPost hposition =>
    rw [CacheEvent.thread, hposition]
    exact ⟨by simp [Position.call], _, rfl, Or.inr rfl⟩

/-- A probe loop that lets its thread return has found a block with the uri. -/
theorem Ledger.found_item (h : s.Ledger hits) {t : Fin n} {uri url : Bytes} {block : Nat}
    (hstep : s.Step (.probe t url block) s') (hcall : (s.threads t).call = some (.find uri))
    (hidle : s'.threads t = .idle) :
    ∃ item, (s.list.blocks block).map CacheBlock.item = some item ∧ item.uri = uri := by
  obtain ⟨live, hlinked⟩ := h.linked
  cases hstep with
  | @probe _ c _ hposition hfinds =>
    rw [hposition] at hcall
    obtain rfl := Option.some.inj hcall
    have hfound : block ≠ 0 := by
      rintro rfl
      dsimp only at hidle
      rw [Function.update_self, if_pos rfl] at hidle
      cases hidle
    have hprobed := hlinked.probed hfinds
    rw [CacheList.Probed, if_neg hfound] at hprobed
    obtain ⟨-, b, hb, hurl⟩ := hprobed
    exact ⟨b.item, by rw [hb]; rfl, hurl⟩

/-- A block holds what it has held, and a new one the item of a call of `add_cache_block`. -/
theorem Ledger.item_cases (h : s.Ledger hits) (hstep : s.Step e s') :
    (∀ p item, (s.list.blocks p).map CacheBlock.item = some item →
      (s'.list.blocks p).map CacheBlock.item = some item) ∧
    ∀ p item, (s'.list.blocks p).map CacheBlock.item = some item →
      (s.list.blocks p).map CacheBlock.item = some item ∨
        ∃ t, (s.threads t).call = some (.add item) := by
  rcases h.list_cases hstep with ⟨t, item', newnode, -, hposition, -, hnew, hlist⟩ | ⟨-, hlist⟩
  · rw [hlist]
    constructor
    · intro p item hitem
      have hne : p ≠ newnode := by
        rintro rfl
        rw [hnew] at hitem
        cases hitem
      rwa [CacheList.added_item, if_neg hne]
    · intro p item hitem
      rw [CacheList.added_item] at hitem
      split_ifs at hitem with hp
      · obtain rfl := Option.some.inj hitem
        exact Or.inr ⟨t, by rw [hposition]; rfl⟩
      · exact Or.inl hitem
  · rw [hlist]
    exact ⟨fun _ _ ↦ id, fun _ _ ↦ Or.inl⟩

end Cache

/-! ### What the blocks hold -/

/-- The item has been forwarded, and its content may be cached. -/
def Cacheable {n : Nat} (events : List (ProxyEvent n)) (item : Item) : Prop :=
  Forwarded events item ∧ item.contentLength ≤ maxContentSize

/-- What `doit` adds has been forwarded, and what it has found is there. -/
def Doit.Sound {n : Nat} (events : List (ProxyEvent n)) (list : CacheList) : Doit → Prop
  | waiting | looking _ | missed _ => True
  | forwarded item => Forwarded events item
  | adding item => Cacheable events item
  | found uri block => ∃ item, (list.blocks block).map CacheBlock.item = some item ∧ item.uri = uri
  | replaying uri block written => ∃ item, (list.blocks block).map CacheBlock.item = some item ∧
    item.uri = uri ∧ written = item.response

/-- The blocks hold what has been forwarded. -/
structure Proxy.Stores {n : Nat} (s : Proxy n) (events : List (ProxyEvent n)) : Prop where
  ledger : ∃ hits, s.cache.Ledger hits
  calls : ∀ t, (s.cache.threads t).call = (s.doits t).call
  blocks : ∀ p item, (s.cache.list.blocks p).map CacheBlock.item = some item →
    Cacheable events item
  doits : ∀ t, (s.doits t).Sound events s.cache.list

section Stores

variable {n : Nat} {events : List (ProxyEvent n)} {event : ProxyEvent n} {item : Item}

theorem Forwarded.snoc (h : Forwarded events item) : Forwarded (events ++ [event]) item := by
  obtain ⟨t, ht⟩ := h
  exact ⟨t, List.mem_append_left _ ht⟩

theorem Cacheable.snoc (h : Cacheable events item) : Cacheable (events ++ [event]) item :=
  ⟨h.1.snoc, h.2⟩

theorem Doit.Sound.snoc {list list' : CacheList} {d : Doit} (h : d.Sound events list)
    (hlist : ∀ p item, (list.blocks p).map CacheBlock.item = some item →
      (list'.blocks p).map CacheBlock.item = some item) : d.Sound (events ++ [event]) list' := by
  cases d with
  | waiting | looking _ | missed _ => trivial
  | forwarded item => exact Forwarded.snoc h
  | adding item => exact Cacheable.snoc h
  | found uri block =>
    obtain ⟨item, hitem, huri⟩ := h
    exact ⟨item, hlist block item hitem, huri⟩
  | replaying uri block written =>
    obtain ⟨item, hitem, huri, hwritten⟩ := h
    exact ⟨item, hlist block item hitem, huri, hwritten⟩

namespace Proxy.Stores

variable {s s' : Proxy n}

theorem start (n : Nat) : (Proxy.start n).Stores [] where
  ledger := ⟨0, Cache.Ledger.start n⟩
  calls := fun _ ↦ rfl
  blocks := fun _ _ hitem ↦ absurd hitem (by simp [Proxy.start, Cache.start, CacheList.empty])
  doits := fun _ ↦ trivial

/-- A thread moves on in `doit`, and not in the cache. -/
theorem local_step (h : s.Stores events) {t : Fin n} {d : Doit}
    (hbefore : (s.doits t).call = none) (hafter : d.call = none)
    (hsound : d.Sound (events ++ [event]) s.cache.list) :
    Proxy.Stores { s with doits := Function.update s.doits t d } (events ++ [event]) := by
  refine ⟨h.ledger, fun t' ↦ ?_, fun p item hitem ↦ (h.blocks p item hitem).snoc, fun t' ↦ ?_⟩
  · dsimp only
    by_cases ht : t' = t
    · subst ht
      rw [Function.update_self, h.calls, hbefore, hafter]
    · rw [Function.update_of_ne ht, h.calls]
  · dsimp only
    by_cases ht : t' = t
    · subst ht
      rwa [Function.update_self]
    · rw [Function.update_of_ne ht]
      exact (h.doits t').snoc fun _ _ ↦ id

/-- A thread takes a step in the cache. -/
theorem cache_step (h : s.Stores events) {e : CacheEvent n} {cache : Cache n} {v : Position}
    (hstep : s.cache.Step e cache)
    (hthreads : cache.threads = Function.update s.cache.threads e.thread v) {d : Doit}
    (hcall : v.call = d.call)
    (hsound : d.Sound (events ++ [event]) cache.list) :
    Proxy.Stores ⟨cache, Function.update s.doits e.thread d⟩ (events ++ [event]) := by
  obtain ⟨hits, hledger⟩ := h.ledger
  obtain ⟨hkept, hnew⟩ := hledger.item_cases hstep
  refine ⟨⟨_, hledger.step hstep⟩, fun t' ↦ ?_, fun p item hitem ↦ ?_, fun t' ↦ ?_⟩
  · dsimp only
    rw [hthreads]
    by_cases ht : t' = e.thread
    · rw [ht, Function.update_self, Function.update_self, hcall]
    · rw [Function.update_of_ne ht, Function.update_of_ne ht, h.calls]
  · rcases hnew p item hitem with hold | ⟨t, hadding⟩
    · exact (h.blocks p item hold).snoc
    · have hdoit := h.doits t
      rw [h.calls] at hadding
      cases hd : s.doits t with
      | adding item' =>
        rw [hd] at hadding hdoit
        obtain rfl := Call.add.inj (Option.some.inj hadding)
        exact Cacheable.snoc hdoit
      | _ =>
        rw [hd] at hadding
        cases hadding
  · dsimp only
    by_cases ht : t' = e.thread
    · rwa [ht, Function.update_self]
    · rw [Function.update_of_ne ht]
      exact (h.doits t').snoc hkept

/-- A `doit` whose call has returned is in no call. -/
theorem calls_after (h : s.Stores events) {e : CacheEvent n}
    (hbusy : (s.cache.threads e.thread).call ≠ none) :
    ((s.doits e.thread).after e .idle).call = none := by
  have hreturn : ¬ Position.idle ≠ .idle := not_not.mpr rfl
  unfold Doit.after
  rw [if_neg hreturn]
  rw [h.calls] at hbusy
  cases hd : s.doits e.thread with
  | looking uri => cases e <;> rfl
  | adding item => rfl
  | _ =>
    rw [hd] at hbusy
    exact absurd rfl hbusy

/-- A `doit` whose call has returned a block has found one with the uri. -/
theorem sound_after (h : s.Stores events) {e : CacheEvent n} {cache : Cache n}
    (hstep : s.cache.Step e cache) (hidle : cache.threads e.thread = .idle) :
    ((s.doits e.thread).after e .idle).Sound (events ++ [event]) cache.list := by
  obtain ⟨hits, hledger⟩ := h.ledger
  have hkept := (hledger.item_cases hstep).1
  have hcalls := h.calls e.thread
  have hreturn : ¬ Position.idle ≠ .idle := not_not.mpr rfl
  unfold Doit.after
  rw [if_neg hreturn]
  cases hd : s.doits e.thread with
  | looking uri =>
    rw [hd] at hcalls
    cases e with
    | probe t url block =>
      obtain ⟨item, hitem, huri⟩ := hledger.found_item hstep hcalls hidle
      exact ⟨item, hkept block item hitem, huri⟩
    | _ => trivial
  | adding item => trivial
  | _ =>
    have hsound := h.doits e.thread
    rw [hd] at hsound
    exact hsound.snoc hkept

/-- Every step keeps it. -/
theorem step (h : s.Stores events) (hstep : s.Step event s') : s'.Stores (events ++ [event]) := by
  cases hstep with
  | @request t uri cache hdoit hcall =>
    cases hcall with
    | call _ _ hposition =>
      exact h.cache_step (.call t (.find uri) hposition) rfl rfl trivial
  | @inside e cache hmade hinside =>
    obtain ⟨hits, hledger⟩ := h.ledger
    obtain ⟨hbusy, v, hthreads, hv⟩ := hinside.inside_call hmade
    have hself : cache.threads e.thread = v := by rw [hthreads, Function.update_self]
    have hcalls := h.calls e.thread
    rw [hself]
    by_cases hidle : v = .idle
    · subst hidle
      refine h.cache_step hinside hthreads (h.calls_after hbusy).symm ?_
      exact h.sound_after hinside hself
    · unfold Doit.after
      rw [if_pos hidle]
      refine h.cache_step hinside hthreads ((hv.resolve_left hidle).trans hcalls) ?_
      exact (h.doits _).snoc (hledger.item_cases hinside).1
  | @unreachable t uri hdoit =>
    exact h.local_step (by rw [hdoit]; rfl) rfl trivial
  | @forward t item hdoit =>
    refine h.local_step (by rw [hdoit]; rfl) rfl ?_
    exact ⟨t, List.mem_append_right _ (List.mem_singleton_self _)⟩
  | @add t item cache hdoit hcall =>
    have hsound := h.doits t
    rw [hdoit] at hsound
    cases hcall with
    | call _ _ hposition =>
      dsimp only
      unfold Doit.after
      rw [Function.update_self]
      have hcall := Cache.Step.call t (.add item) hposition
      split_ifs with hidle
      · refine h.cache_step hcall rfl ?_ ⟨Forwarded.snoc hsound, Call.begin_small hidle⟩
        exact (Call.begin_call _).resolve_left hidle
      · exact h.cache_step hcall rfl (by rw [not_not.mp hidle]; rfl) trivial
  | @respond t uri block b hdoit hblock =>
    refine h.local_step (by rw [hdoit]; rfl) rfl ?_
    have hfound := h.doits t
    rw [hdoit] at hfound
    obtain ⟨item, hitem, huri⟩ := hfound
    refine ⟨item, hitem, huri, ?_⟩
    rw [hblock] at hitem
    obtain rfl := Option.some.inj hitem
    rfl
  | @replay t uri written block b hdoit hblock =>
    exact h.local_step (by rw [hdoit]; rfl) rfl trivial

end Proxy.Stores

theorem Proxy.Reached.stores {s : Proxy n} (h : Proxy.Reached events s) : s.Stores events := by
  induction h with
  | start hinit =>
    subst hinit
    exact Stores.start n
  | step hrun hstep ih => exact ih.step hstep

end Stores

/-- A `doit` that answers from the cache writes what a `doit` has written before that missed the
cache, for the same uri; and a block that has been found is not freed. -/
theorem cache_replays {n : Nat} {events : List (ProxyEvent n)} {s : Proxy n}
    (h : Proxy.Reached events s) :
    (∀ before t uri bytes after, events = before ++ .replay t uri bytes :: after →
      ∃ t' item, .forward t' item ∈ before ∧ item.uri = uri ∧ bytes = item.sent ∧
        item.contentLength ≤ maxContentSize) ∧
    ∀ t uri block, (s.doits t = .found uri block ∨
        ∃ written, s.doits t = .replaying uri block written) →
      ∃ b, s.cache.list.blocks block = some b ∧ b.url = uri := by
  constructor
  · induction h with
    | start hinit => exact fun before t uri bytes after heq ↦ absurd heq (by simp)
    | @step events s s' event hrun hstep ih =>
      intro before t uri bytes after heq
      rcases snoc_eq_append_cons heq with ⟨rfl, rfl, rfl⟩ | ⟨rest, rfl, rfl⟩
      · have hstores := Proxy.Reached.stores hrun
        cases hstep with
        | @replay _ _ written block b hdoit hblock =>
          have hsound := hstores.doits t
          rw [hdoit] at hsound
          obtain ⟨item, hitem, huri, rfl⟩ := hsound
          obtain ⟨⟨t', hforward⟩, hsmall⟩ := hstores.blocks block item hitem
          refine ⟨t', item, hforward, huri, ?_, hsmall⟩
          rw [hblock] at hitem
          obtain rfl := Option.some.inj hitem
          rfl
      · exact ih before t uri bytes rest rfl
  · intro t uri block hfound
    have hsound := h.stores.doits t
    obtain ⟨item, hitem, huri⟩ : ∃ item,
        (s.cache.list.blocks block).map CacheBlock.item = some item ∧ item.uri = uri := by
      rcases hfound with hd | ⟨written, hd⟩
      · rwa [hd] at hsound
      · rw [hd] at hsound
        obtain ⟨item, hitem, huri, -⟩ := hsound
        exact ⟨item, hitem, huri⟩
    obtain ⟨b, hb, rfl⟩ := Option.map_eq_some_iff.mp hitem
    exact ⟨b, hb, huri⟩

/-- What a thread does within a call, and where `doit` goes on after it. -/
theorem Proxy.steps_inside {n : Nat} {cache cache' : Cache n} {doits : Fin n → Doit} (t : Fin n)
    {labels : List (CacheEvent n)} (e : CacheEvent n)
    (hsteps : Steps Cache.Step cache labels cache')
    (hinside : ∀ e' ∈ labels, e'.made = none ∧ e'.thread = t) (hlast : labels.getLast? = some e) :
    Steps Proxy.Step ⟨cache, doits⟩ (labels.map .inside)
      ⟨cache', Function.update doits t ((doits t).after e (cache'.threads t))⟩ := by
  induction hsteps with
  | nil => cases hlast
  | @cons cache next last e' labels hstep hrest ih =>
    obtain ⟨hmade, rfl⟩ := hinside e' List.mem_cons_self
    have hmove := Proxy.Step.inside (s := ⟨cache, doits⟩) hmade hstep
    cases hrest with
    | nil =>
      obtain rfl := Option.some.inj hlast
      exact .cons hmove .nil
    | @cons _ next' _ e'' labels hstep' hrest' =>
      -- its next step is in the same call
      have hbusy : next.threads e'.thread ≠ .idle := by
        intro hidle
        obtain ⟨hmade', hthread⟩ := hinside e'' (by simp)
        refine (hstep'.inside_call hmade').1 ?_
        rw [hthread, hidle]
        rfl
      dsimp only at hmove
      unfold Doit.after at hmove
      rw [if_pos hbusy, Function.update_eq_self] at hmove
      refine .cons hmove (ih (fun e hmem ↦ hinside e (List.mem_cons_of_mem _ hmem)) ?_)
      rwa [List.getLast?_cons_cons] at hlast

/-- A thread of its own forwards an answer, adds it to the cache, and then answers from there. -/
theorem cache_replays_one : ∃ (before : List (ProxyEvent 1)) (s : Proxy 1),
    Proxy.Reached (before ++ [.replay 0 [97] [72, 7]]) s ∧ ∃ t item, .forward t item ∈ before ∧
      item.uri = [97] ∧ [72, 7] = item.sent ∧ item.contentLength ≤ maxContentSize := by
  let item : Item := ⟨[97], [72], [7], 1⟩
  have hmiss : Steps Proxy.Step (Proxy.start 1) _ _ := .cons (e := .request 0 item.uri)
    (.request rfl (.call 0 _ rfl)) <|
      Proxy.steps_inside 0 (.post 0)
        (Cache.find_miss (t := 0) (c := .find item.uri) rfl ⟨1, rfl⟩) (by decide) rfl
  have hadd := hmiss.append <| .cons (e := .forward 0 item) (.forward rfl) <|
    .cons (.add (t := 0) rfl (.call 0 _ rfl)) <|
      Proxy.steps_inside 0 (.post 0)
        ((Cache.find_miss (t := 0) (c := .add item) rfl ⟨1, rfl⟩).append <|
          Cache.insert 0 item 1 .empty rfl (by decide) (by decide) rfl) (by decide) rfl
  have hfind := hadd.append <| .cons (e := .request 0 item.uri)
    (.request rfl (.call 0 _ rfl)) <|
      Proxy.steps_inside 0 (.probe 0 item.uri 1)
        (Cache.find_hit (t := 0) (c := .find item.uri) rfl (by decide) ⟨1, rfl⟩) (by decide) rfl
  have hrespond := hfind.append <|
    .cons (.respond (t := 0) (b := ⟨[97], [72], [7], 1, 0, 0⟩) rfl rfl) .nil
  have hreplay := hrespond.append <|
    .cons (.replay (t := 0) (b := ⟨[97], [72], [7], 1, 0, 0⟩) rfl rfl) .nil
  have hrun : Proxy.Reached _ _ := hreplay.run rfl
  exact ⟨_, _, hrun, (cache_replays hrun).1 _ 0 [97] [72, 7] [] rfl⟩

end SystemProgramming.ProxyLab
