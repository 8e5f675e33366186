import SystemProgramming.ProxyLab.Balance

/-!
# The urls of the cached blocks

`add_cache_block` looks for the uri as a reader and inserts it as a writer, and between the two it
holds no semaphore. Another thread may insert the same uri there. A uri that a thread has looked for
in vain is in the list exactly if one has inserted it since (`Cache.Tested`), and blocks are never
taken out again, so the urls are different from each other exactly if no thread ever inserts a uri
that has been inserted since its own probe loop (`cache_uniqueUrls`).
-/

set_option autoImplicit false
set_option relaxedAutoImplicit false

namespace SystemProgramming.ProxyLab

open Library

variable {n : Nat} {events : List (CacheEvent n)} {e : CacheEvent n} {t : Fin n} {uri : Bytes}

/-- The uri has been inserted since the last probe loop of the thread. -/
def Inserted (events : List (CacheEvent n)) (t : Fin n) (uri : Bytes) : Prop :=
  ∃ before t' newnode after, events = before ++ .enqueue t' uri newnode :: after ∧
    ∀ uri' found, .probe t uri' found ∉ after

/-- No thread inserts a uri that has been inserted since its own probe loop. -/
def NoRace (events : List (CacheEvent n)) : Prop :=
  ∀ before t uri newnode after, events = before ++ .enqueue t uri newnode :: after →
    ¬ Inserted before t uri

theorem inserted_snoc : Inserted (events ++ [e]) t uri ↔
    (∃ t' newnode, e = .enqueue t' uri newnode) ∨
      Inserted events t uri ∧ ∀ uri' found, e ≠ .probe t uri' found := by
  constructor
  · rintro ⟨before, t', newnode, after, heq, hnone⟩
    rcases snoc_eq_append_cons heq with ⟨rfl, rfl, rfl⟩ | ⟨rest, rfl, rfl⟩
    · exact Or.inl ⟨t', newnode, rfl⟩
    · refine Or.inr ⟨⟨before, t', newnode, rest, rfl, fun uri' found hin ↦ ?_⟩, ?_⟩
      · exact hnone uri' found (List.mem_append_left _ hin)
      · rintro uri' found rfl
        exact hnone uri' found (by simp)
  · rintro (⟨t', newnode, rfl⟩ | ⟨⟨before, t', newnode, after, rfl, hnone⟩, hne⟩)
    · exact ⟨events, t', newnode, [], rfl, fun _ _ ↦ List.not_mem_nil⟩
    · refine ⟨before, t', newnode, after ++ [e], by simp, fun uri' found hin ↦ ?_⟩
      rcases List.mem_append.mp hin with hin | hin
      · exact hnone uri' found hin
      · exact hne uri' found (List.mem_singleton.mp hin).symm

theorem noRace_snoc : NoRace (events ++ [e]) ↔
    NoRace events ∧ ∀ t uri newnode, e = .enqueue t uri newnode → ¬ Inserted events t uri := by
  constructor
  · refine fun h ↦ ⟨?_, ?_⟩
    · rintro before t uri newnode after rfl
      exact h before t uri newnode (after ++ [e]) (by simp)
    · rintro t uri newnode rfl
      exact h events t uri newnode [] rfl
  · rintro ⟨hrace, hlast⟩ before t uri newnode after heq
    rcases snoc_eq_append_cons heq with ⟨rfl, rfl, rfl⟩ | ⟨rest, rfl, rfl⟩
    · exact hlast t uri newnode rfl
    · exact hrace before t uri newnode rest rfl

/-- The uri that a thread has looked for in vain. -/
def Position.tested : Position → Option Bytes
  | .missMutex c | .missW c | .missPost c => some c.uri
  | .addW item | .addTest item | .evictW item | .evict item | .evictPost item | .addEnqueue item =>
    some item.uri
  | _ => none

namespace Cache

variable {s s' : Cache n} {count : Nat}

/-- A step moves its own thread. The thread has looked for its uri in vain before the step, or it
does so in the step. -/
theorem Step.threads (hstep : s.Step e s') :
    ∃ v, s'.threads = Function.update s.threads e.thread v ∧ ∀ uri, v.tested = some uri →
      ((s.threads e.thread).tested = some uri ∧ ∀ t uri' found, e ≠ .probe t uri' found) ∨
        e = .probe e.thread uri 0 ∧ s.list.Finds uri 0 := by
  cases hstep with
  | @call t c hposition =>
    refine ⟨_, rfl, fun uri h ↦ ?_⟩
    rcases c.begin_cases with hbegin | ⟨c', hbegin⟩ <;> simp [hbegin, Position.tested] at h
  | @findMutex t c hposition hmutex =>
    refine ⟨_, rfl, fun uri h ↦ ?_⟩
    split_ifs at h <;> simp [Position.tested] at h
  | findW hposition hw => exact ⟨_, rfl, fun uri h ↦ absurd h (by simp [Position.tested])⟩
  | findPost hposition => exact ⟨_, rfl, fun uri h ↦ absurd h (by simp [Position.tested])⟩
  | @probe t c found hposition hfinds =>
    refine ⟨_, rfl, fun uri h ↦ Or.inr ?_⟩
    split_ifs at h with hfound
    · subst hfound
      obtain rfl := Option.some.inj h
      exact ⟨rfl, hfinds⟩
    · simp [Position.tested] at h
  | @missMutex t c hposition hmutex =>
    refine ⟨_, rfl, fun uri h ↦ Or.inl ⟨?_, by simp⟩⟩
    rw [CacheEvent.thread, hposition]
    split_ifs at h <;> exact h
  | @missW t c hposition =>
    refine ⟨_, rfl, fun uri h ↦ Or.inl ⟨?_, by simp⟩⟩
    rw [CacheEvent.thread, hposition]
    exact h
  | @missPost t c hposition =>
    refine ⟨_, rfl, fun uri h ↦ Or.inl ⟨?_, by simp⟩⟩
    rw [CacheEvent.thread, hposition]
    cases c with
    | find uri' => simp [Call.missed, Position.tested] at h
    | add item => exact h
  | @addW t item hposition hw =>
    refine ⟨_, rfl, fun uri h ↦ Or.inl ⟨?_, by simp⟩⟩
    rw [CacheEvent.thread, hposition]
    exact h
  | @addTest t item hposition =>
    refine ⟨_, rfl, fun uri h ↦ Or.inl ⟨?_, by simp⟩⟩
    rw [CacheEvent.thread, hposition]
    split_ifs at h <;> exact h
  | addEnqueue hposition hnull hnew henqueue =>
    exact ⟨_, rfl, fun uri h ↦ absurd h (by simp [Position.tested])⟩
  | addPost hposition => exact ⟨_, rfl, fun uri h ↦ absurd h (by simp [Position.tested])⟩
  | @evictW t item hposition hw =>
    refine ⟨_, rfl, fun uri h ↦ Or.inl ⟨?_, by simp⟩⟩
    rw [CacheEvent.thread, hposition]
    exact h
  | @evict t item reduce list hposition hdequeue =>
    refine ⟨_, rfl, fun uri h ↦ Or.inl ⟨?_, by simp⟩⟩
    rw [CacheEvent.thread, hposition]
    exact h
  | @evictPost t item hposition =>
    refine ⟨_, rfl, fun uri h ↦ Or.inl ⟨?_, by simp⟩⟩
    rw [CacheEvent.thread, hposition]
    exact h

/-- A step inserts a uri or leaves the list. -/
theorem Step.list (h : s.Ledger count) (hstep : s.Step e s') {live : List Nat}
    (hlinked : s.list.Linked live) :
    (∃ t item newnode, e = .enqueue t item.uri newnode ∧ s.threads t = .addEnqueue item ∧
      s'.list.Linked (newnode :: live) ∧
      (newnode :: live).map s'.list.urlAt = item.uri :: live.map s.list.urlAt) ∨
    (∀ t uri newnode, e ≠ .enqueue t uri newnode) ∧ s'.list = s.list := by
  rcases h.list_cases hstep with
    ⟨t, item, newnode, he, hposition, hnull, hnew, hlist⟩ | hstays
  · rw [hlist]
    exact Or.inl ⟨t, item, newnode, he, hposition, hlinked.enqueued hnull hnew,
      hlinked.enqueued_urls hnew⟩
  · exact Or.inr hstays

/-- A uri that a thread has looked for in vain is in the list exactly if it has been inserted
since. -/
def Tested (s : Cache n) (events : List (CacheEvent n)) : Prop :=
  ∀ t uri, (s.threads t).tested = some uri → (s.list.Caches uri ↔ Inserted events t uri)

theorem Step.caches_iff (h : s.Ledger count) (hstep : s.Step e s') (uri : Bytes) :
    s'.list.Caches uri ↔ (∃ t newnode, e = .enqueue t uri newnode) ∨ s.list.Caches uri := by
  obtain ⟨live, hlinked⟩ := h.linked
  rcases hstep.list h hlinked with ⟨t, item, newnode, rfl, -, hlinked', hurls⟩ | ⟨hne, hlist⟩
  · rw [hlinked'.caches_iff, hurls, List.mem_cons, hlinked.caches_iff]
    simp [eq_comm]
  · rw [hlist]
    refine ⟨Or.inr, fun hor ↦ hor.resolve_left ?_⟩
    rintro ⟨t, newnode, he⟩
    exact hne t uri newnode he

theorem Step.tested (h : s.Ledger count) (htested : s.Tested events) (hstep : s.Step e s') :
    s'.Tested (events ++ [e]) := by
  intro t uri ht
  rw [hstep.caches_iff h, inserted_snoc]
  refine or_congr_right ?_
  obtain ⟨v, hthreads, hv⟩ := hstep.threads
  rw [hthreads] at ht
  by_cases hself : t = e.thread
  · subst hself
    rw [Function.update_self] at ht
    rcases hv uri ht with ⟨hbefore, hne⟩ | ⟨he, hfinds⟩
    · rw [htested _ uri hbefore]
      exact ⟨fun hin ↦ ⟨hin, hne _⟩, And.left⟩
    · obtain ⟨live, hlinked⟩ := h.linked
      have hnot := (hlinked.finds_zero_iff hfinds).mp rfl
      exact ⟨fun hcaches ↦ absurd hcaches hnot, fun hin ↦ absurd he (hin.2 uri 0)⟩
  · rw [Function.update_of_ne hself] at ht
    rw [htested t uri ht]
    refine ⟨fun hin ↦ ⟨hin, ?_⟩, And.left⟩
    rintro uri' found rfl
    exact hself rfl

theorem Reached.tested (h : Cache.Reached events s) : s.Tested events := by
  induction h with
  | start hinit =>
    subst hinit
    intro t uri ht
    exact absurd ht (by simp [Cache.start, Position.tested])
  | step hrun hstep ih => exact hstep.tested (Reached.ledger hrun) ih

end Cache

/-- The urls of the blocks in the list are different from each other exactly if no thread has
inserted a uri that had been inserted since its own probe loop. -/
theorem cache_uniqueUrls {s : Cache n} (h : Cache.Reached events s) :
    s.list.UniqueUrls ↔ NoRace events := by
  induction h with
  | start hinit =>
    subst hinit
    rw [show (Cache.start n).list = .empty from rfl, CacheList.Linked.empty.uniqueUrls_iff]
    refine ⟨fun _ before t uri newnode after heq ↦ ?_, fun _ ↦ List.nodup_nil⟩
    exact absurd heq (by simp)
  | @step events s s' e hrun hstep ih =>
    have hledger := Cache.Reached.ledger hrun
    obtain ⟨live, hlinked⟩ := hledger.linked
    rw [noRace_snoc, ← ih, hlinked.uniqueUrls_iff]
    rcases hstep.list hledger hlinked with
      ⟨t, item, newnode, rfl, hposition, hlinked', hurls⟩ | ⟨hne, hlist⟩
    · have htested := Cache.Reached.tested hrun t item.uri (by rw [hposition]; rfl)
      rw [hlinked'.uniqueUrls_iff, hurls, List.nodup_cons, ← hlinked.caches_iff, htested, and_comm]
      refine and_congr_right fun _ ↦ ⟨fun hnot t' uri newnode' heq ↦ ?_, fun hnot ↦ ?_⟩
      · obtain ⟨rfl, rfl, -⟩ := CacheEvent.enqueue.inj heq
        exact hnot
      · exact hnot t item.uri newnode rfl
    · rw [hlist, hlinked.uniqueUrls_iff]
      exact ⟨fun hnodup ↦ ⟨hnodup, fun t uri newnode he ↦ absurd he (hne t uri newnode)⟩, And.left⟩

/-- Two threads insert different uris, the second while the first waits for `w`. -/
theorem cache_uniqueUrls_one : ∃ (events : List (CacheEvent 2)) (s : Cache 2),
    Cache.Reached events s ∧ .enqueue 0 [97] 1 ∈ events ∧ .enqueue 1 [98] 2 ∈ events ∧
      s.list.UniqueUrls ∧ NoRace events := by
  let first : Item := ⟨[97], [], [7], 1⟩
  let second : Item := ⟨[98], [], [8], 1⟩
  have hfirst : Steps Cache.Step (Cache.start 2) _ _ :=
    Cache.add_miss 0 first rfl (by decide) ⟨1, rfl⟩
  have hsecond := hfirst.append <| Cache.add_miss 1 second rfl (by decide) ⟨1, rfl⟩
  have htwo : (CacheList.empty.added 2 second).Linked [2] :=
    CacheList.Linked.empty.enqueued (by decide) rfl
  have hone : ((CacheList.empty.added 2 second).added 1 first).Linked [1, 2] :=
    htwo.enqueued (by decide) rfl
  have hboth := hsecond.append <|
    (Cache.insert 1 second 2 .empty rfl (by decide) (by decide) rfl).append <|
      Cache.insert 0 first 1 htwo rfl (by decide) (by decide) rfl
  have hrun : Cache.Reached _ _ := hboth.run rfl
  have hunique := hone.uniqueUrls_iff.mpr (by decide)
  exact ⟨_, _, hrun, by simp [Cache.inserting, first], by simp [Cache.inserting, second], hunique,
    (cache_uniqueUrls hrun).mp hunique⟩

/-- Two threads look for the same uri, and look again in `add_cache_block`, before either inserts
it. -/
theorem cache_uniqueUrls_twice : ∃ (events : List (CacheEvent 2)) (s : Cache 2),
    Cache.Reached events s ∧ ¬ s.list.UniqueUrls := by
  let first : Item := ⟨[97], [], [7], 1⟩
  let second : Item := ⟨[97], [], [8], 1⟩
  have hfirst : Steps Cache.Step (Cache.start 2) _ _ :=
    (Cache.lookup_miss 0 [97] rfl ⟨1, rfl⟩).append <|
      Cache.add_miss 0 first rfl (by decide) ⟨1, rfl⟩
  have hsecond := hfirst.append <|
    (Cache.lookup_miss 1 [97] rfl ⟨1, rfl⟩).append <|
      Cache.add_miss 1 second rfl (by decide) ⟨1, rfl⟩
  have hone : (CacheList.empty.added 1 first).Linked [1] :=
    CacheList.Linked.empty.enqueued (by decide) rfl
  have htwo : ((CacheList.empty.added 1 first).added 2 second).Linked [2, 1] :=
    hone.enqueued (by decide) rfl
  have hboth := hsecond.append <|
    (Cache.insert 0 first 1 .empty rfl (by decide) (by decide) rfl).append <|
      Cache.insert 1 second 2 hone rfl (by decide) (by decide) rfl
  refine ⟨_, _, hboth.run rfl, fun hunique ↦ ?_⟩
  exact absurd (htwo.uniqueUrls_iff.mp hunique) (by decide)

end SystemProgramming.ProxyLab
