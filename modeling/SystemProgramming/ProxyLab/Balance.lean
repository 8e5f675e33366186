import Mathlib.Algebra.Order.Ring.Int
import SystemProgramming.ProxyLab.Cache

/-!
# The balance of the semaphores

What the threads hold of `mutex`, of `readcnt` and of `w` follows from their positions. The
semaphores and the counter make up for it (`Cache.Ledger`), but for one share of `readcnt` for each
probe loop that has found its block: `find_cache_block` returns from the loop, and nothing gives the
share back. So the semaphores are free and `readcnt` is zero, whenever no thread is inside, exactly
if no probe loop has found its block (`cache_balanced`).

Nothing is evicted: `cache_replacement_policy` waits for `w` while its own thread holds it.
-/

set_option autoImplicit false
set_option relaxedAutoImplicit false

namespace SystemProgramming.ProxyLab

open Library

namespace Position

/-- The permits of `mutex` that a thread holds. -/
def mutex : Position → Nat
  | findW _ | findPost _ | missW _ | missPost _ => 1
  | _ => 0

/-- How often a thread is counted in `readcnt`. -/
def reads : Position → Nat
  | findW _ | findPost _ | probing _ | missMutex _ => 1
  | _ => 0

/-- The first reader has not yet taken the permit of `w` that all readers share. -/
def takes : Position → Nat
  | findW _ => 1
  | _ => 0

/-- The last reader has not yet given it back. -/
def gives : Position → Nat
  | missW _ => 1
  | _ => 0

/-- The permits of `w` that a thread holds for itself. -/
def writes : Position → Nat
  | addTest _ | evictW _ | addEnqueue _ | addPost _ => 1
  | evict _ | evictPost _ => 2
  | _ => 0

/-- The thread has taken `w` twice. -/
def Evicting : Position → Prop
  | evict _ | evictPost _ => True
  | _ => False

theorem takes_le_mutex (p : Position) : p.takes ≤ p.mutex := by
  cases p <;> simp [takes, mutex]

end Position

theorem Call.begin_cases (c : Call) : c.begin = .idle ∨ ∃ c', c.begin = .findMutex c' := by
  cases c with
  | find uri => exact Or.inr ⟨_, rfl⟩
  | add item =>
    by_cases hlarge : item.contentLength > maxContentSize
    · exact Or.inl (if_pos hlarge)
    · exact Or.inr ⟨_, if_neg hlarge⟩

/-- The permit of `w` that the readers share. -/
def readersPermit (readcnt : Int) : Nat := if 0 < readcnt then 1 else 0

/-- The probe loop has found its block. -/
def CacheEvent.hit {n : Nat} : CacheEvent n → Nat
  | probe _ _ found => if found = 0 then 0 else 1
  | _ => 0

/-- The semaphores and `readcnt` make up for what the threads hold, but for the probe loops that have
found their block; nothing is evicted; and the list is a ring through the null pointer. -/
structure Cache.Ledger {n : Nat} (s : Cache n) (hits : Nat) : Prop where
  mutex : s.mutex + held Position.mutex s.threads = 1
  readcnt : s.readcnt = held Position.reads s.threads + hits
  w : s.w + held Position.writes s.threads + held Position.gives s.threads +
    readersPermit s.readcnt = 1 + held Position.takes s.threads
  calm : ∀ t, ¬ (s.threads t).Evicting
  linked : ∃ live, s.list.Linked live

namespace Cache.Ledger

variable {n : Nat} {s s' : Cache n} {e : CacheEvent n} {hits : Nat} {t : Fin n}

theorem start (n : Nat) : (Cache.start n).Ledger 0 := by
  have hnone : ∀ amount : Position → Nat, amount .idle = 0 →
      held amount (Cache.start n).threads = 0 := fun amount h ↦ held_eq_zero fun _ ↦ h
  refine ⟨?_, ?_, ?_, fun _ h ↦ h, [], CacheList.Linked.empty⟩
  · rw [hnone Position.mutex rfl]
    rfl
  · rw [hnone Position.reads rfl]
    rfl
  · rw [hnone Position.writes rfl, hnone Position.gives rfl, hnone Position.takes rfl]
    rfl

/-- A thread moves, and gives to the semaphores and to `readcnt` what it takes from them. -/
theorem move (h : s.Ledger hits) {p u v : Position} (hposition : s.threads t = p) {hits' : Nat}
    (hthreads : s'.threads = Function.update s.threads t u) (hu : u = v)
    (hmutex : s'.mutex + v.mutex = s.mutex + p.mutex)
    (hreadcnt : s'.readcnt + p.reads + hits = s.readcnt + v.reads + hits')
    (hw : s'.w + v.writes + v.gives + readersPermit s'.readcnt + p.takes =
      s.w + p.writes + p.gives + readersPermit s.readcnt + v.takes)
    (hcalm : ¬ v.Evicting) (hlinked : ∃ live, s'.list.Linked live) : s'.Ledger hits' := by
  have hupdate : ∀ amount : Position → Nat, held amount s'.threads + amount p =
      held amount s.threads + amount v := by
    intro amount
    rw [hthreads, hu, ← hposition]
    exact held_update amount s.threads t v
  have hmutex' := hupdate Position.mutex
  have hreads' := hupdate Position.reads
  have hwrites' := hupdate Position.writes
  have hgives' := hupdate Position.gives
  have htakes' := hupdate Position.takes
  obtain ⟨hmutex₀, hreadcnt₀, hw₀, hcalm₀, -⟩ := h
  refine ⟨by omega, by omega, by omega, fun t' ↦ ?_, hlinked⟩
  rw [hthreads, hu]
  by_cases ht : t' = t
  · rwa [ht, Function.update_self]
  · rw [Function.update_of_ne ht]
    exact hcalm₀ t'

/-- A thread that is counted in `readcnt` makes it positive. -/
theorem readcnt_pos (h : s.Ledger hits) (hreads : (s.threads t).reads = 1) : 0 < s.readcnt := by
  have hle : (s.threads t).reads ≤ held Position.reads s.threads := le_held t
  rw [h.readcnt]
  omega

theorem readcnt_nonneg (h : s.Ledger hits) : 0 ≤ s.readcnt := by
  rw [h.readcnt]
  omega

/-- At most one thread is about to take the permit of `w` for the readers, and then there are
readers. -/
theorem takes_le (h : s.Ledger hits) :
    held Position.takes s.threads ≤ readersPermit s.readcnt := by
  by_cases htakes : ∃ t, (s.threads t).takes = 1
  · obtain ⟨t, ht⟩ := htakes
    have hreads : (s.threads t).reads = 1 := by
      cases hposition : s.threads t <;> simp_all [Position.takes, Position.reads]
    have hle : held Position.takes s.threads ≤ held Position.mutex s.threads :=
      held_le_held Position.takes_le_mutex
    have hmutex := h.mutex
    rw [readersPermit, if_pos (h.readcnt_pos hreads)]
    omega
  · rw [held_eq_zero]
    · exact Nat.zero_le _
    · intro t
      by_contra hne
      refine htakes ⟨t, ?_⟩
      cases hposition : s.threads t <;> simp_all [Position.takes]

/-- A thread that holds a permit of `w` for itself holds the only one. -/
theorem w_eq_zero (h : s.Ledger hits) (hwrites : 0 < (s.threads t).writes) : s.w = 0 := by
  have hle : (s.threads t).writes ≤ held Position.writes s.threads := le_held t
  have htakes := h.takes_le
  have hw := h.w
  omega

/-- Every step keeps the ledger. -/
theorem step (h : s.Ledger hits) (hstep : s.Step e s') : s'.Ledger (hits + e.hit) := by
  have hnonneg := h.readcnt_nonneg
  cases hstep with
  | @call t c hposition =>
    rcases c.begin_cases with hbegin | ⟨c', hbegin⟩
    · exact h.move hposition rfl hbegin rfl rfl rfl id h.linked
    · exact h.move hposition rfl hbegin rfl rfl rfl id h.linked
  | @findMutex t c hposition hmutex =>
    by_cases hfirst : s.readcnt + 1 = 1
    · refine h.move hposition rfl (if_pos hfirst) ?_ ?_ ?_ id h.linked
      · simp only [Position.mutex]
        omega
      · simp only [Position.reads, CacheEvent.hit]
        omega
      · simp only [Position.writes, Position.gives, Position.takes, readersPermit]
        rw [if_pos (by omega), if_neg (by omega)]
    · refine h.move hposition rfl (if_neg hfirst) ?_ ?_ ?_ id h.linked
      · simp only [Position.mutex]
        omega
      · simp only [Position.reads, CacheEvent.hit]
        omega
      · simp only [Position.writes, Position.gives, Position.takes, readersPermit]
        rw [if_pos (by omega), if_pos (by omega)]
  | findW hposition hw =>
    refine h.move hposition rfl rfl rfl rfl ?_ id h.linked
    simp only [Position.writes, Position.gives, Position.takes]
    omega
  | findPost hposition => exact h.move hposition rfl rfl rfl rfl rfl id h.linked
  | @probe t c found hposition hfinds =>
    by_cases hfound : found = 0
    · refine h.move hposition rfl (if_pos hfound) rfl ?_ rfl id h.linked
      simp [CacheEvent.hit, Position.reads, hfound]
    · refine h.move hposition rfl (if_neg hfound) rfl ?_ rfl id h.linked
      simp only [CacheEvent.hit, Position.reads, if_neg hfound]
      omega
  | @missMutex t c hposition hmutex =>
    have hpos := h.readcnt_pos (t := t) (by rw [hposition]; rfl)
    by_cases hlast : s.readcnt - 1 = 0
    · refine h.move hposition rfl (if_pos hlast) ?_ ?_ ?_ id h.linked
      · simp only [Position.mutex]
        omega
      · simp only [Position.reads, CacheEvent.hit]
        omega
      · simp only [Position.writes, Position.gives, Position.takes, readersPermit]
        rw [if_neg (by omega), if_pos hpos]
    · refine h.move hposition rfl (if_neg hlast) ?_ ?_ ?_ id h.linked
      · simp only [Position.mutex]
        omega
      · simp only [Position.reads, CacheEvent.hit]
        omega
      · simp only [Position.writes, Position.gives, Position.takes, readersPermit]
        rw [if_pos (by omega), if_pos hpos]
  | missW hposition => exact h.move hposition rfl rfl rfl rfl rfl id h.linked
  | @missPost t c hposition =>
    cases c with
    | find uri => exact h.move hposition rfl rfl rfl rfl rfl id h.linked
    | add item => exact h.move hposition rfl rfl rfl rfl rfl id h.linked
  | addW hposition hw =>
    refine h.move hposition rfl rfl rfl rfl ?_ id h.linked
    simp only [Position.writes, Position.gives, Position.takes]
    omega
  | @addTest t item hposition =>
    by_cases hsize : s.size > maxObjectSize
    · exact h.move hposition rfl (if_pos hsize) rfl rfl rfl id h.linked
    · exact h.move hposition rfl (if_neg hsize) rfl rfl rfl id h.linked
  | addEnqueue hposition hnull hnew henqueue =>
    obtain ⟨live, hlinked⟩ := h.linked
    rw [hlinked.enqueue_eq hnew] at henqueue
    obtain ⟨-, rfl⟩ := Prod.mk.inj (Option.some.inj henqueue)
    exact h.move hposition rfl rfl rfl rfl rfl id ⟨_, hlinked.enqueued hnull hnew⟩
  | addPost hposition => exact h.move hposition rfl rfl rfl rfl rfl id h.linked
  | @evictW t item hposition hw =>
    -- its own thread holds the permit
    have hzero := h.w_eq_zero (t := t) (by rw [hposition]; exact Nat.one_pos)
    omega
  | @evict t item reduce list hposition hdequeue =>
    exact absurd (by rw [hposition]; trivial) (h.calm t)
  | @evictPost t item hposition => exact absurd (by rw [hposition]; trivial) (h.calm t)

/-- A step inserts an item or leaves the list. -/
theorem list_cases (h : s.Ledger hits) (hstep : s.Step e s') :
    (∃ t item newnode, e = .enqueue t item.uri newnode ∧ s.threads t = .addEnqueue item ∧
      newnode ≠ 0 ∧ s.list.blocks newnode = none ∧ s'.list = s.list.added newnode item) ∨
    (∀ t uri newnode, e ≠ .enqueue t uri newnode) ∧ s'.list = s.list := by
  cases hstep with
  | @addEnqueue t item newnode list hposition hnull hnew henqueue =>
    obtain ⟨live, hlinked⟩ := h.linked
    rw [hlinked.enqueue_eq hnew] at henqueue
    obtain ⟨-, rfl⟩ := Prod.mk.inj (Option.some.inj henqueue)
    exact Or.inl ⟨t, item, newnode, rfl, hposition, hnull, hnew, rfl⟩
  | @evict t item reduce list hposition hdequeue =>
    exact absurd (by rw [hposition]; trivial) (h.calm t)
  | _ => exact Or.inr ⟨by simp, rfl⟩

end Cache.Ledger

/-- How many probe loops have found their block. -/
def hits {n : Nat} (events : List (CacheEvent n)) : Nat := (events.map CacheEvent.hit).sum

theorem Cache.Reached.ledger {n : Nat} {events : List (CacheEvent n)} {s : Cache n}
    (h : Cache.Reached events s) : s.Ledger (hits events) := by
  induction h with
  | start hinit =>
    subst hinit
    exact Ledger.start n
  | step hrun hstep ih =>
    rw [hits, List.map_append, List.sum_append, List.map_singleton, List.sum_singleton]
    exact ih.step hstep

/-- If the step is a probe loop, no block in the list has the uri. -/
def Cache.Misses {n : Nat} (s : Cache n) (e : CacheEvent n) : Prop :=
  ∀ t uri found, e = .probe t uri found → ¬ s.list.Caches uri

theorem Cache.Step.misses_iff {n : Nat} {s s' : Cache n} {e : CacheEvent n} {count : Nat}
    (h : s.Ledger count) (hstep : s.Step e s') : s.Misses e ↔ e.hit = 0 := by
  obtain ⟨live, hlinked⟩ := h.linked
  cases hstep with
  | @probe t c found hposition hfinds =>
    have hzero := hlinked.finds_zero_iff hfinds
    rw [CacheEvent.hit]
    constructor
    · intro hmisses
      rw [if_pos (hzero.mpr (hmisses t c.uri found rfl))]
    · rintro hhit t' uri found' heq
      obtain ⟨rfl, rfl, rfl⟩ := CacheEvent.probe.inj heq
      refine hzero.mp ?_
      by_contra hfound
      rw [if_neg hfound] at hhit
      exact absurd hhit (by decide)
  | _ => exact ⟨fun _ ↦ rfl, fun _ ↦ by simp [Cache.Misses]⟩

/-- A run without hits is one in which every probe loop misses. -/
theorem hits_eq_zero_iff {n : Nat} {events : List (CacheEvent n)} {s : Cache n}
    (h : Cache.Reached events s) : hits events = 0 ↔
      Run (· = Cache.start n) (fun s e s' ↦ s.Step e s' ∧ s.Misses e) events s := by
  constructor
  · intro hzero
    induction h with
    | start hinit => exact .start hinit
    | step hrun hstep ih =>
      rw [hits, List.map_append, List.sum_append, List.map_singleton, List.sum_singleton,
        Nat.add_eq_zero_iff] at hzero
      exact .step (ih hzero.1) ⟨hstep, (hstep.misses_iff (Cache.Reached.ledger hrun)).mpr hzero.2⟩
  · intro hmisses
    clear h
    induction hmisses with
    | start hinit => rfl
    | step hrun hstep ih =>
      have hreached : Cache.Reached _ _ := hrun.mono fun s e s' hstep ↦ hstep.1
      rw [hits, List.map_append, List.sum_append, List.map_singleton, List.sum_singleton,
        Nat.add_eq_zero_iff]
      exact ⟨ih, (hstep.1.misses_iff hreached.ledger).mp hstep.2⟩

/-- Whenever no thread is inside, the semaphores are free and `readcnt` is zero exactly if every
probe loop so far has missed. -/
theorem cache_balanced {n : Nat} {events : List (CacheEvent n)} {s : Cache n}
    (h : Cache.Reached events s) (hidle : ∀ t, s.threads t = .idle) :
    (s.readcnt = 0 ∧ s.mutex = 1 ∧ s.w = 1) ↔
      Run (· = Cache.start n) (fun s e s' ↦ s.Step e s' ∧ s.Misses e) events s := by
  have hnone : ∀ amount : Position → Nat, amount .idle = 0 → held amount s.threads = 0 :=
    fun amount hamount ↦ held_eq_zero fun t ↦ by rw [hidle t, hamount]
  obtain ⟨hmutex, hreadcnt, hw, -, -⟩ := h.ledger
  rw [hnone Position.mutex rfl] at hmutex
  rw [hnone Position.reads rfl] at hreadcnt
  rw [hnone Position.writes rfl, hnone Position.gives rfl, hnone Position.takes rfl] at hw
  rw [← hits_eq_zero_iff h]
  constructor
  · intro hbalanced
    omega
  · intro hzero
    have hno : ¬ 0 < s.readcnt := by omega
    rw [readersPermit, if_neg hno] at hw
    omega

/-- A block is added, and then two threads look for another uri at the same time. -/
theorem cache_balanced_miss : ∃ (events : List (CacheEvent 2)) (s : Cache 2),
    Cache.Reached events s ∧ .enqueue 0 [97] 1 ∈ events ∧ .probe 0 [98] 0 ∈ events ∧
      .probe 1 [98] 0 ∈ events ∧ (∀ t, s.threads t = .idle) ∧
      Run (· = Cache.start 2) (fun s e s' ↦ s.Step e s' ∧ s.Misses e) events s := by
  have hadd : Steps Cache.Step (Cache.start 2) _ _ :=
    Cache.add 0 ⟨[97], [], [7], 1⟩ 1 .empty rfl (by decide) ⟨1, rfl⟩ (by decide) (by decide) rfl
  have hlinked : (CacheList.empty.added 1 ⟨[97], [], [7], 1⟩).Linked [1] :=
    CacheList.Linked.empty.enqueued (by decide) rfl
  have hfinds := hlinked.finds_zero (show [98] ∉ _ by decide)
  have hinside := hadd.append <| .cons (.call 0 (.find [98]) rfl) <|
    .cons (.findMutex (t := 0) rfl Nat.one_pos) <| .cons (.findW (t := 0) rfl Nat.one_pos) <|
    .cons (.findPost (t := 0) rfl) <| .cons (.call 1 (.find [98]) rfl) <|
    .cons (.findMutex (t := 1) rfl Nat.one_pos) <| .cons (.findPost (t := 1) rfl) .nil
  have hout := hinside.append <| .cons (.probe (t := 0) rfl hfinds) <|
    .cons (.missMutex (t := 0) rfl Nat.one_pos) <| .cons (.missPost (t := 0) rfl) <|
    .cons (.probe (t := 1) rfl hfinds) <| .cons (.missMutex (t := 1) rfl Nat.one_pos) <|
    .cons (.missW (t := 1) rfl) <| .cons (.missPost (t := 1) rfl) .nil
  have hrun : Cache.Reached _ _ := hout.run rfl
  have hmisses := (cache_balanced hrun (Fin.forall_fin_two.mpr ⟨rfl, rfl⟩)).mp ⟨rfl, rfl, rfl⟩
  exact ⟨_, _, hrun, by simp [Cache.inserting], by simp [Call.uri], by simp [Call.uri],
    Fin.forall_fin_two.mpr ⟨rfl, rfl⟩, hmisses⟩

/-- A block is added, and then found. -/
theorem cache_balanced_hit : ∃ (events : List (CacheEvent 1)) (s : Cache 1),
    Cache.Reached events s ∧ (∀ t, s.threads t = .idle) ∧ s.readcnt = 1 ∧ s.w = 0 := by
  have hadd : Steps Cache.Step (Cache.start 1) _ _ :=
    Cache.add 0 ⟨[97], [], [7], 1⟩ 1 .empty rfl (by decide) ⟨1, rfl⟩ (by decide)
      (by decide) rfl
  have hfind := hadd.append <| Cache.lookup_hit 0 [97] 1 rfl (by decide) ⟨1, rfl⟩
  exact ⟨_, _, hfind.run rfl, fun _ ↦ rfl, rfl, rfl⟩

end SystemProgramming.ProxyLab
