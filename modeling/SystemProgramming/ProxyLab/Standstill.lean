import SystemProgramming.ProxyLab.Duplicates
import SystemProgramming.ProxyLab.Replay

/-!
# Readers, writers, and how the cache comes to a standstill

While a thread is in the probe loop no thread is about to write, and no two threads write at once
(`cache_exclusive`). For that the ledger of the semaphores is enough, together with the reader that
waits for `w` on behalf of the others: it is the only one that is counted (`Cache.Guarded`).

The permit of `w` is lost for good in two ways. The first answer from the cache keeps it for the
readers. From then on the list stays as it is: lookups go on, and whoever wants to insert waits for
ever (`proxy_sealed`). And a thread that finds `cache_size` too large keeps it for itself, as it waits
for it again. From then on not even a lookup gets through, so no later request is ever answered
(`proxy_jammed`).
-/

set_option autoImplicit false
set_option relaxedAutoImplicit false

namespace SystemProgramming.ProxyLab

open Library

/-! ### Readers and writers -/

namespace Position

/-- The thread is counted in `readcnt` and has `w` behind it. -/
def Reading : Position → Prop
  | findPost _ | probing _ | missMutex _ | missW _ => True
  | _ => False

/-- The thread holds `w` for itself. -/
def Writing (p : Position) : Prop := 0 < p.writes

end Position

/-- No thread writes while another reads or writes. -/
structure Cache.Exclusive {n : Nat} (s : Cache n) : Prop where
  readers : ∀ t u, (s.threads t).Reading → ¬ (s.threads u).Writing
  writers : ∀ t u, (s.threads t).Writing → (s.threads u).Writing → t = u

/-- The ledger, and the reader that takes `w` is the first one. -/
structure Cache.Guarded {n : Nat} (s : Cache n) (hits : Nat) : Prop where
  ledger : s.Ledger hits
  first : ∀ t c, s.threads t = .findW c → s.readcnt = 1

namespace Cache.Guarded

variable {n : Nat} {s s' : Cache n} {e : CacheEvent n} {hits : Nat} {t u : Fin n}

theorem start (n : Nat) : (Cache.start n).Guarded 0 :=
  ⟨.start n, fun _ _ h ↦ nomatch h⟩

/-- A thread that holds `mutex` is the only one. -/
theorem mutex_eq (h : s.Guarded hits) (ht : (s.threads t).mutex = 1) : s.mutex = 0 := by
  have hle : (s.threads t).mutex ≤ held Position.mutex s.threads := le_held t
  have hmutex := h.ledger.mutex
  omega

/-- A thread does not come to `sem_wait(&w)` of the first reader, and `readcnt` stays. -/
theorem first_of_move (h : s.Guarded hits) {v : Position}
    (hthreads : s'.threads = Function.update s.threads t v) (hv : ∀ c, v ≠ .findW c)
    (hreadcnt : s'.readcnt = s.readcnt) : ∀ u c, s'.threads u = .findW c → s'.readcnt = 1 := by
  intro u c hu
  rw [hthreads] at hu
  by_cases hut : u = t
  · rw [hut, Function.update_self] at hu
    exact absurd hu (hv c)
  · rw [Function.update_of_ne hut] at hu
    exact hreadcnt.trans (h.first u c hu)

/-- `mutex` is free, so no thread is at `sem_wait(&w)` of the first reader. -/
theorem not_findW (h : s.Guarded hits) (hmutex : 0 < s.mutex) (u : Fin n) (c : Call) :
    s.threads u ≠ .findW c := by
  intro hu
  have hzero := h.mutex_eq (t := u) (by rw [hu]; rfl)
  omega

/-- Every step keeps the guard. -/
theorem step (h : s.Guarded hits) (hstep : s.Step e s') : s'.Guarded (hits + e.hit) := by
  refine ⟨h.ledger.step hstep, ?_⟩
  cases hstep with
  | @call t c hposition =>
    refine h.first_of_move rfl (fun c' ↦ ?_) rfl
    rcases c.begin_cases with hbegin | ⟨c'', hbegin⟩ <;> simp [hbegin]
  | @findMutex t c hposition hmutex =>
    intro u c' hu
    dsimp only at hu ⊢
    by_cases hut : u = t
    · rw [hut, Function.update_self] at hu
      split_ifs at hu with hfirst
      exact hfirst
    · rw [Function.update_of_ne hut] at hu
      exact absurd hu (h.not_findW hmutex u c')
  | @probe t c found hposition hfinds =>
    exact h.first_of_move rfl (fun c' ↦ by split_ifs <;> simp) rfl
  | @missMutex t c hposition hmutex =>
    intro u c' hu
    dsimp only at hu
    by_cases hut : u = t
    · rw [hut, Function.update_self] at hu
      split_ifs at hu
    · rw [Function.update_of_ne hut] at hu
      exact absurd hu (h.not_findW hmutex u c')
  | @missPost t c hposition =>
    exact h.first_of_move rfl (fun c' ↦ by cases c <;> simp [Call.missed]) rfl
  | @addTest t item hposition =>
    exact h.first_of_move rfl (fun c' ↦ by split_ifs <;> simp) rfl
  | findW | findPost | missW | addW | addEnqueue | addPost | evictW | evict | evictPost =>
    exact h.first_of_move rfl (fun c' ↦ by simp) rfl

/-- While the readers have `w`, no reader is about to take it for them. -/
theorem takes_eq_zero_of_reads (h : s.Guarded hits) (hreads : (s.threads t).reads = 1)
    (htakes : (s.threads t).takes = 0) : held Position.takes s.threads = 0 := by
  refine held_eq_zero fun u ↦ ?_
  cases hposition : s.threads u with
  | findW c =>
    have hne : t ≠ u := by
      rintro rfl
      rw [hposition] at htakes
      exact absurd htakes Nat.one_ne_zero
    have hboth : (s.threads t).reads + (s.threads u).reads ≤ held Position.reads s.threads :=
      add_le_held hne
    have hone := h.first u c hposition
    have hreadcnt := h.ledger.readcnt
    have hu : (s.threads u).reads = 1 := by rw [hposition]; rfl
    omega
  | _ => rfl

theorem not_writing_of_reading (h : s.Guarded hits) (ht : (s.threads t).Reading) :
    ¬ (s.threads u).Writing := by
  intro hu
  have hwrites : (s.threads u).writes ≤ held Position.writes s.threads := le_held u
  have hgives : (s.threads t).gives ≤ held Position.gives s.threads := le_held t
  have hw := h.ledger.w
  have htakes := h.ledger.takes_le
  have hpositive : 0 < (s.threads u).writes := hu
  -- the last reader on its way out has not given `w` back, and the others are counted
  have hcounted : (s.threads t).gives = 1 ∨
      (s.threads t).reads = 1 ∧ (s.threads t).takes = 0 := by
    cases hposition : s.threads t <;>
      simp_all [Position.Reading, Position.gives, Position.reads, Position.takes]
  rcases hcounted with hgiving | ⟨hreads, hnot⟩
  · omega
  · have hnone := h.takes_eq_zero_of_reads hreads hnot
    have hpermit : readersPermit s.readcnt = 1 := if_pos (h.ledger.readcnt_pos hreads)
    omega

theorem writing_unique (h : s.Guarded hits) (ht : (s.threads t).Writing)
    (hu : (s.threads u).Writing) : t = u := by
  by_contra hne
  have hboth : (s.threads t).writes + (s.threads u).writes ≤ held Position.writes s.threads :=
    add_le_held hne
  have hw := h.ledger.w
  have htakes := h.ledger.takes_le
  have ht' : 0 < (s.threads t).writes := ht
  have hu' : 0 < (s.threads u).writes := hu
  omega

end Cache.Guarded

theorem Cache.Reached.guarded {n : Nat} {events : List (CacheEvent n)} {s : Cache n}
    (h : Cache.Reached events s) : s.Guarded (hits events) := by
  induction h with
  | start hinit =>
    subst hinit
    exact Guarded.start n
  | step hrun hstep ih =>
    rw [hits, List.map_append, List.sum_append, List.map_singleton, List.sum_singleton]
    exact ih.step hstep

/-- A step of another thread leaves a thread where it is. -/
theorem Cache.Step.threads_of_ne {n : Nat} {s s' : Cache n} {e : CacheEvent n} (hstep : s.Step e s')
    {t : Fin n} (hne : e.thread ≠ t) : s'.threads t = s.threads t := by
  obtain ⟨v, hthreads, -⟩ := hstep.threads
  rw [hthreads, Function.update_of_ne hne.symm]

/-- While a thread reads, the steps of the others leave the list as it is. -/
theorem Cache.Guarded.list_eq {n : Nat} {s s' : Cache n} {hits : Nat} {t : Fin n}
    {more : List (CacheEvent n)} (h : s.Guarded hits) (ht : (s.threads t).Reading)
    (hmore : Steps Cache.Step s more s') (hothers : ∀ e ∈ more, e.thread ≠ t) :
    s'.list = s.list := by
  induction hmore generalizing hits with
  | nil => rfl
  | @cons s s₁ s' e more hstep _ ih =>
    have hthread := hstep.threads_of_ne (hothers e List.mem_cons_self)
    have hlist : s₁.list = s.list := by
      rcases h.ledger.list_cases hstep with ⟨u, item, newnode, -, hposition, -⟩ | ⟨-, hlist⟩
      · have hwriting : (s.threads u).Writing := by
          rw [hposition]
          exact Nat.one_pos
        exact absurd hwriting (h.not_writing_of_reading ht)
      · exact hlist
    rw [ih (h.step hstep) (hthread ▸ ht) fun e' he' ↦ hothers e' (List.mem_cons_of_mem e he'), hlist]

/-- Readers and writers exclude each other, and so do two writers; and as long as a thread reads, the
others do not change the list. -/
theorem cache_exclusive {n : Nat} {events : List (CacheEvent n)} {s : Cache n}
    (h : Cache.Reached events s) : s.Exclusive ∧
    ∀ t more s', (s.threads t).Reading → Steps Cache.Step s more s' →
      (∀ e ∈ more, e.thread ≠ t) → s'.list = s.list :=
  ⟨⟨fun _ _ ht ↦ h.guarded.not_writing_of_reading ht, fun _ _ ↦ h.guarded.writing_unique⟩,
    fun _ _ _ ht ↦ h.guarded.list_eq ht⟩

/-- One thread is in the probe loop while another one calls. -/
theorem cache_exclusive_probing : ∃ (s s' : Cache 2), s.threads 0 = .probing (.find [97]) ∧
    s'.threads 1 = .findMutex (.add ⟨[98], [], [], 0⟩) ∧ s.Exclusive ∧ s'.list = s.list := by
  have hread : Steps Cache.Step (Cache.start 2) _ _ :=
    .cons (.call 0 (.find [97]) rfl) <| .cons (.findMutex (t := 0) (c := .find [97]) rfl Nat.one_pos) <|
      .cons (.findW (t := 0) (c := .find [97]) rfl Nat.one_pos) <|
      .cons (.findPost (t := 0) (c := .find [97]) rfl) .nil
  have hrun : Cache.Reached _ _ := hread.run rfl
  refine ⟨_, _, rfl, rfl, (cache_exclusive hrun).1, (cache_exclusive hrun).2 0 _ _ trivial
    (.cons (.call 1 (.add ⟨[98], [], [], 0⟩) rfl) .nil) ?_⟩
  intro e he
  obtain rfl := List.mem_singleton.mp he
  exact Fin.zero_ne_one.symm

/-! ### After an answer from the cache -/

/-- The thread can step in its call, or `mutex` is taken and its holder can. -/
def Cache.Goes {n : Nat} (s : Cache n) (t : Fin n) : Prop :=
  ∃ e s', s.Step e s' ∧ e.made = none ∧ (e.thread = t ∨ s.mutex = 0 ∧ e = .post e.thread)

/-- The readers keep `w`, and every thread is idle, looks for its block or waits for `w`. -/
structure Cache.Sealed {n : Nat} (s : Cache n) : Prop where
  w : s.w = 0
  writes : ∀ t, ¬ (s.threads t).Writing
  takes : ∀ t, (s.threads t).takes = 0
  gives : ∀ t, (s.threads t).gives = 0

namespace Cache.Guarded

variable {n : Nat} {s s' : Cache n} {e : CacheEvent n} {hits : Nat} {t u : Fin n}

/-- A hit leaves `w` with the readers. -/
theorem sealed (h : s.Guarded hits) (hhits : 0 < hits) : s.Sealed := by
  have hreadcnt := h.ledger.readcnt
  have hw := h.ledger.w
  have hpermit : readersPermit s.readcnt = 1 := if_pos (by omega)
  have htakes : ∀ t, (s.threads t).takes = 0 := by
    intro t
    cases hposition : s.threads t with
    | findW c =>
      have hone := h.first t c hposition
      have hle : (s.threads t).reads ≤ held Position.reads s.threads := le_held t
      have hreads : (s.threads t).reads = 1 := by rw [hposition]; rfl
      omega
    | _ => rfl
  have hnone : held Position.takes s.threads = 0 := held_eq_zero htakes
  refine ⟨by omega, fun t ht ↦ ?_, htakes, fun t ↦ ?_⟩
  · have hle : (s.threads t).writes ≤ held Position.writes s.threads := le_held t
    have hpos : 0 < (s.threads t).writes := ht
    omega
  · have hle : (s.threads t).gives ≤ held Position.gives s.threads := le_held t
    omega

end Cache.Guarded

namespace Cache.Sealed

variable {n : Nat} {s s' : Cache n} {e : CacheEvent n} {hits : Nat} {t : Fin n} {item : Item}

theorem list_eq (h : s.Sealed) (hledger : s.Ledger hits) (hstep : s.Step e s') :
    s'.list = s.list := by
  rcases hledger.list_cases hstep with ⟨t, item, newnode, -, hposition, -⟩ | ⟨-, hlist⟩
  · have hwriting : (s.threads t).Writing := by
      rw [hposition]
      exact Nat.one_pos
    exact absurd hwriting (h.writes t)
  · exact hlist

/-- A thread that wants to insert waits on. -/
theorem addW (h : s.Sealed) (hstep : s.Step e s') (ht : s.threads t = .addW item) :
    s'.threads t = .addW item := by
  by_cases hthread : e.thread = t
  · subst hthread
    cases hstep with
    | addW hposition hw =>
      rw [h.w] at hw
      exact absurd hw (lt_irrefl 0)
    | _ => simp_all [CacheEvent.thread]
  · rw [hstep.threads_of_ne hthread, ht]

/-- If `mutex` is taken its holder can give it back. -/
theorem post (h : s.Sealed) (hledger : s.Ledger hits) (hmutex : s.mutex = 0) :
    ∃ u s', s.Step (.post u) s' := by
  have hheld : held Position.mutex s.threads ≠ 0 := by
    have hbalance := hledger.mutex
    omega
  obtain ⟨u, hu⟩ : ∃ u, (s.threads u).mutex ≠ 0 := by
    by_contra hnone
    exact hheld (held_eq_zero fun u ↦ not_not.mp fun hu ↦ hnone ⟨u, hu⟩)
  cases hposition : s.threads u with
  | findPost c => exact ⟨u, _, .findPost hposition⟩
  | missPost c => exact ⟨u, _, .missPost hposition⟩
  | findW c =>
    have htakes := h.takes u
    rw [hposition] at htakes
    exact absurd htakes Nat.one_ne_zero
  | missW c => exact ⟨u, _, .missW hposition⟩
  | _ =>
    rw [hposition] at hu
    exact absurd rfl hu

/-- A thread that wants `mutex` gets it, from its holder if it is taken. -/
theorem goes_mutex (h : s.Sealed) (hledger : s.Ledger hits)
    (htake : 0 < s.mutex → ∃ s', s.Step (.wait t) s') : s.Goes t := by
  rcases Nat.eq_zero_or_pos s.mutex with hzero | hpos
  · obtain ⟨u, s', hstep⟩ := h.post hledger hzero
    exact ⟨.post u, s', hstep, rfl, Or.inr ⟨hzero, rfl⟩⟩
  · obtain ⟨s', hstep⟩ := htake hpos
    exact ⟨.wait t, s', hstep, rfl, Or.inl rfl⟩

/-- A lookup goes on. -/
theorem goes (h : s.Sealed) (hledger : s.Ledger hits) (t : Fin n) :
    s.threads t = .idle ∨ (∃ item, s.threads t = .addW item) ∨ s.Goes t := by
  have hwrites := h.writes t
  have htakes := h.takes t
  cases hposition : s.threads t with
  | idle => exact Or.inl rfl
  | addW item => exact Or.inr (Or.inl ⟨item, rfl⟩)
  | findMutex c =>
    exact Or.inr (Or.inr (h.goes_mutex hledger fun hmutex ↦ ⟨_, .findMutex hposition hmutex⟩))
  | missMutex c =>
    exact Or.inr (Or.inr (h.goes_mutex hledger fun hmutex ↦ ⟨_, .missMutex hposition hmutex⟩))
  | findPost c => exact Or.inr (Or.inr ⟨_, _, .findPost hposition, rfl, Or.inl rfl⟩)
  | missPost c => exact Or.inr (Or.inr ⟨_, _, .missPost hposition, rfl, Or.inl rfl⟩)
  | missW c => exact Or.inr (Or.inr ⟨_, _, .missW hposition, rfl, Or.inl rfl⟩)
  | probing c =>
    obtain ⟨live, hlinked⟩ := hledger.linked
    obtain ⟨found, hfinds⟩ := hlinked.finds c.uri
    exact Or.inr (Or.inr ⟨_, _, .probe hposition hfinds, rfl, Or.inl rfl⟩)
  | findW c =>
    rw [hposition] at htakes
    exact absurd htakes Nat.one_ne_zero
  | _ =>
    rw [hposition] at hwrites
    exact absurd (by simp [Position.Writing, Position.writes]) hwrites

end Cache.Sealed

namespace Proxy

variable {n : Nat} {s s' : Proxy n} {event : ProxyEvent n} {events more : List (ProxyEvent n)}

/-- A step of the proxy is a step in the cache or leaves it alone. -/
theorem Step.cache (hstep : s.Step event s') :
    s'.cache = s.cache ∨ ∃ e, s.cache.Step e s'.cache ∧ ∀ e', event = .inside e' → e' = e := by
  cases hstep with
  | request hdoit hcall => exact Or.inr ⟨_, hcall, nofun⟩
  | inside hmade hstep => exact Or.inr ⟨_, hstep, fun e' he ↦ (ProxyEvent.inside.inj he).symm⟩
  | add hdoit hcall => exact Or.inr ⟨_, hcall, nofun⟩
  | unreachable | forward | respond | replay => exact Or.inl rfl

/-- What the steps of the cache keep, the steps of the proxy keep. -/
theorem keeps {P : Cache n → Prop} (hkeep : ∀ c e c', P c → c.Step e c' → P c')
    (h : P s.cache) (hsteps : Steps Proxy.Step s more s') : P s'.cache := by
  induction hsteps with
  | nil => exact h
  | cons hstep _ ih =>
    rcases hstep.cache with hcache | ⟨e, hcache, -⟩
    · exact ih (hcache ▸ h)
    · exact ih (hkeep _ e _ h hcache)

end Proxy

/-- `doit` has found its block. -/
def Doit.Hit : Doit → Prop
  | found _ _ | replaying _ _ _ => True
  | _ => False

/-- `doit` has answered from the cache. -/
def ProxyEvent.Replays {n : Nat} : ProxyEvent n → Prop
  | replay _ _ _ => True
  | _ => False

/-- The hits of the probe loops, of which there is one for every `doit` that has found its block. -/
structure Proxy.Counted {n : Nat} (s : Proxy n) (events : List (ProxyEvent n)) (hits : Nat) :
    Prop where
  guarded : s.cache.Guarded hits
  doits : ∀ t, (s.doits t).Hit → 0 < hits
  answers : ∀ e ∈ events, e.Replays → 0 < hits

namespace Proxy.Counted

variable {n : Nat} {s s' : Proxy n} {event : ProxyEvent n} {events : List (ProxyEvent n)} {hits : Nat}

theorem start (n : Nat) : (Proxy.start n).Counted [] 0 :=
  ⟨.start n, fun _ ↦ False.elim, nofun⟩

/-- The thread of a step comes to a place in `doit`. -/
theorem move (h : s.Counted events hits) {hits' : Nat} {t : Fin n} {d : Doit}
    (hguarded : s'.cache.Guarded hits') (hle : hits ≤ hits')
    (hdoits : s'.doits = Function.update s.doits t d) (hd : d.Hit → 0 < hits')
    (hevent : event.Replays → 0 < hits') : s'.Counted (events ++ [event]) hits' := by
  refine ⟨hguarded, fun u hu ↦ ?_, fun e he hreplays ↦ ?_⟩
  · rw [hdoits] at hu
    by_cases hut : u = t
    · rw [hut, Function.update_self] at hu
      exact hd hu
    · rw [Function.update_of_ne hut] at hu
      exact (h.doits u hu).trans_le hle
  · rcases List.mem_append.mp he with hbefore | hlast
    · exact (h.answers e hbefore hreplays).trans_le hle
    · obtain rfl := List.mem_singleton.mp hlast
      exact hevent hreplays

theorem step (h : s.Counted events hits) (hstep : s.Step event s') :
    ∃ hits', s'.Counted (events ++ [event]) hits' := by
  cases hstep with
  | request hdoit hcall =>
    exact ⟨_, h.move (h.guarded.step hcall) (Nat.le_add_right _ _) rfl False.elim
      False.elim⟩
  | @inside e cache hmade hstep =>
    refine ⟨_, h.move (h.guarded.step hstep) (Nat.le_add_right _ _) rfl (fun hhit ↦ ?_)
      False.elim⟩
    by_cases hbefore : (s.doits e.thread).Hit
    · exact (h.doits _ hbefore).trans_le (Nat.le_add_right _ _)
    · unfold Doit.after at hhit
      split_ifs at hhit with hidle
      · exact absurd hhit hbefore
      · split at hhit
        · next t url block hdoit =>
          cases hstep with
          | @probe _ c _ hposition hfinds =>
            have hfound : block ≠ 0 := by
              rintro rfl
              dsimp only [CacheEvent.thread] at hidle
              rw [Function.update_self, if_pos rfl] at hidle
              exact hidle nofun
            rw [CacheEvent.hit, if_neg hfound]
            exact Nat.succ_pos hits
        · exact absurd hhit id
        · exact absurd hhit id
        · exact absurd hhit hbefore
  | unreachable hdoit => exact ⟨_, h.move h.guarded le_rfl rfl False.elim False.elim⟩
  | forward hdoit => exact ⟨_, h.move h.guarded le_rfl rfl False.elim False.elim⟩
  | @add t item cache hdoit hcall =>
    refine ⟨_, h.move (h.guarded.step hcall) (Nat.le_add_right _ _) rfl (fun hhit ↦ ?_)
      False.elim⟩
    unfold Doit.after at hhit
    split_ifs at hhit <;> exact absurd hhit id
  | @respond t uri block b hdoit hblock =>
    have hhit : 0 < hits := h.doits t (by rw [hdoit]; trivial)
    exact ⟨_, h.move h.guarded le_rfl rfl (fun _ ↦ hhit) False.elim⟩
  | @replay t uri written block b hdoit hblock =>
    have hhit : 0 < hits := h.doits t (by rw [hdoit]; trivial)
    exact ⟨_, h.move h.guarded le_rfl rfl False.elim fun _ ↦ hhit⟩

end Proxy.Counted

theorem Proxy.Reached.counted {n : Nat} {events : List (ProxyEvent n)} {s : Proxy n}
    (h : Proxy.Reached events s) : ∃ hits, s.Counted events hits := by
  induction h with
  | start hinit =>
    subst hinit
    exact ⟨0, Counted.start n⟩
  | step hrun hstep ih =>
    obtain ⟨hits, hcounted⟩ := ih
    exact hcounted.step hstep

/-- After an answer from the cache the list stays as it is, whoever waits for `w` to insert a block
waits for ever, and every other call goes on. -/
theorem proxy_sealed {n : Nat} {events more : List (ProxyEvent n)} {s s' : Proxy n}
    (h : Proxy.Reached events s) {t : Fin n} {uri bytes : Bytes}
    (hreplay : .replay t uri bytes ∈ events) (hmore : Steps Proxy.Step s more s') :
    s'.cache.list = s.cache.list ∧
    (∀ u item, s.cache.threads u = .addW item → s'.cache.threads u = .addW item) ∧
    ∀ u, s'.cache.threads u = .idle ∨ (∃ item, s'.cache.threads u = .addW item) ∨
      s'.cache.Goes u := by
  obtain ⟨hits, hcounted⟩ := h.counted
  have hhits : 0 < hits := hcounted.answers _ hreplay trivial
  obtain ⟨⟨hits', hhits', hguarded⟩, hlist, hwaits⟩ := Proxy.keeps
    (P := fun c ↦ (∃ hits, 0 < hits ∧ c.Guarded hits) ∧ c.list = s.cache.list ∧
      ∀ u item, s.cache.threads u = .addW item → c.threads u = .addW item)
    (fun c e c' hc hstep ↦ by
      obtain ⟨⟨hits, hhits, hguarded⟩, hlist, hwaits⟩ := hc
      have hsealed := hguarded.sealed hhits
      exact ⟨⟨_, hhits.trans_le (Nat.le_add_right _ _), hguarded.step hstep⟩,
        (hsealed.list_eq hguarded.ledger hstep).trans hlist,
        fun u item hu ↦ hsealed.addW hstep (hwaits u item hu)⟩)
    ⟨⟨hits, hhits, hcounted.guarded⟩, rfl, fun _ _ ↦ id⟩ hmore
  exact ⟨hlist, hwaits, (hguarded.sealed hhits').goes hguarded.ledger⟩

/-- A thread adds a block and then answers from the cache, and another one makes a request. -/
theorem proxy_sealed_one : ∃ (s s' : Proxy 2), s.cache.list.Finds [97] 1 ∧
    s'.doits 1 = .looking [98] ∧ s'.cache.list = s.cache.list ∧ s'.cache.Goes 1 := by
  let item : Item := ⟨[97], [72], [7], 1⟩
  have hmiss : Steps Proxy.Step (Proxy.start 2) _ _ := .cons (e := .request 0 item.uri)
    (.request rfl (.call 0 _ rfl)) <|
      Proxy.steps_inside 0 (.post 0)
        (Cache.find_miss (t := 0) (c := .find item.uri) rfl ⟨1, rfl⟩) (by decide) rfl
  have hadd := hmiss.append <| .cons (e := .forward 0 item) (.forward rfl) <|
    .cons (.add (t := 0) rfl (.call 0 _ rfl)) <|
      Proxy.steps_inside 0 (.post 0)
        ((Cache.find_miss (t := 0) (c := .add item) rfl ⟨1, rfl⟩).append <|
          Cache.insert 0 item 1 .empty rfl (by decide) (by decide) rfl) (by decide) rfl
  have hfind := hadd.append <| .cons (e := .request 0 item.uri)
    (.request rfl (.call 0 _ rfl)) <|
      Proxy.steps_inside 0 (.probe 0 item.uri 1)
        (Cache.find_hit (t := 0) (c := .find item.uri) rfl (by decide) ⟨1, rfl⟩) (by decide) rfl
  have hreplay := hfind.append <|
    .cons (.respond (t := 0) (b := ⟨[97], [72], [7], 1, 0, 0⟩) rfl rfl) <|
    .cons (.replay (t := 0) (b := ⟨[97], [72], [7], 1, 0, 0⟩) rfl rfl) .nil
  have hrun : Proxy.Reached _ _ := hreplay.run rfl
  obtain ⟨hlist, -, hgoes⟩ := proxy_sealed hrun (t := 0)
    (List.mem_append_right _ (List.mem_cons_of_mem _ List.mem_cons_self))
    (.cons (e := .request 1 [98]) (.request rfl (.call 1 _ rfl)) .nil)
  have hone := (hgoes 1).resolve_left nofun
  exact ⟨_, _, ⟨1, rfl⟩, rfl, hlist, hone.resolve_left nofun⟩

/-! ### After the cache has become too large -/

/-- What a thread can still do while another one has found the cache too large. -/
inductive Position.Jam : Position → Position → Prop
  | call (c : Call) : Jam .idle c.begin
  | first (c : Call) : Jam (.findMutex c) (.findW c)
  | leave (c : Call) : Jam (.missPost c) c.missed
  | test (item : Item) : Jam (.addTest item) (.evictW item)

/-- The thread has found the cache too large, or is about to. -/
def Position.Overfull (item : Item) (p : Position) : Prop := p = .addTest item ∨ p = .evictW item

/-- The thread has called `find_cache_block`, and does not get through. -/
def Position.Barred (c : Call) (p : Position) : Prop := p = .findMutex c ∨ p = .findW c

theorem Position.Overfull.writing {item : Item} {p : Position} (h : p.Overfull item) :
    p.Writing := by
  rcases h with rfl | rfl <;> exact Nat.one_pos

theorem Position.Overfull.jam {item : Item} {p v : Position} (h : p.Overfull item) (hjam : p.Jam v) :
    v.Overfull item := by
  rcases h with rfl | rfl
  · cases hjam
    exact Or.inr rfl
  · cases hjam

theorem Position.Barred.jam {c : Call} {p v : Position} (h : p.Barred c) (hjam : p.Jam v) :
    v.Barred c := by
  rcases h with rfl | rfl
  · cases hjam
    exact Or.inr rfl
  · cases hjam

/-- The cache is too large, and a thread holds `w` that has found it so or is about to. -/
structure Cache.Jammed {n : Nat} (s : Cache n) (t : Fin n) (item : Item) : Prop where
  guarded : ∃ hits, s.Guarded hits
  large : maxObjectSize < s.size
  overfull : (s.threads t).Overfull item

namespace Cache.Jammed

variable {n : Nat} {s s' : Cache n} {e : CacheEvent n} {t u : Fin n} {item : Item}

theorem w_eq_zero (h : s.Jammed t item) : s.w = 0 := by
  obtain ⟨hits, hguarded⟩ := h.guarded
  exact hguarded.ledger.w_eq_zero h.overfull.writing

/-- There are no readers behind `w`. -/
theorem not_reading (h : s.Jammed t item) : ¬ (s.threads u).Reading := by
  obtain ⟨hits, hguarded⟩ := h.guarded
  exact fun hu ↦ hguarded.not_writing_of_reading hu h.overfull.writing

/-- There is no other writer. -/
theorem eq_of_writing (h : s.Jammed t item) (hu : (s.threads u).Writing) : u = t := by
  obtain ⟨hits, hguarded⟩ := h.guarded
  exact hguarded.writing_unique hu h.overfull.writing

/-- If `mutex` is free no thread is counted in `readcnt`. -/
theorem readcnt_eq_zero (h : s.Jammed t item) (hmutex : 0 < s.mutex) : s.readcnt = 0 := by
  obtain ⟨hits, hguarded⟩ := h.guarded
  have hnone : held Position.takes s.threads = 0 := by
    refine held_eq_zero fun u ↦ ?_
    cases hposition : s.threads u with
    | findW c => exact absurd hposition (hguarded.not_findW hmutex u c)
    | _ => rfl
  have hwrites : (s.threads t).writes ≤ held Position.writes s.threads := le_held t
  have hpos : 0 < (s.threads t).writes := h.overfull.writing
  have hw := hguarded.ledger.w
  have hnonneg := hguarded.ledger.readcnt_nonneg
  by_contra hne
  rw [readersPermit, if_pos (by omega)] at hw
  omega

/-- What a step can be. -/
theorem step_cases (h : s.Jammed t item) (hstep : s.Step e s') :
    s'.list = s.list ∧ s'.size = s.size ∧ (∀ u uri found, e ≠ .probe u uri found) ∧
      ∃ v, s'.threads = Function.update s.threads e.thread v ∧ (s.threads e.thread).Jam v := by
  have hw := h.w_eq_zero
  cases hstep with
  | @call u c hposition =>
    exact ⟨rfl, rfl, by simp, _, rfl, by rw [CacheEvent.thread, hposition]; exact .call c⟩
  | @findMutex u c hposition hmutex =>
    refine ⟨rfl, rfl, by simp, _, rfl, ?_⟩
    rw [CacheEvent.thread, hposition, if_pos (by rw [h.readcnt_eq_zero hmutex]; rfl)]
    exact .first c
  | @missPost u c hposition =>
    exact ⟨rfl, rfl, by simp, _, rfl, by rw [CacheEvent.thread, hposition]; exact .leave c⟩
  | @addTest u item' hposition =>
    refine ⟨rfl, rfl, by simp, _, rfl, ?_⟩
    rw [CacheEvent.thread, hposition, if_pos h.large]
    exact .test item'
  | findPost hposition | probe hposition | missMutex hposition | missW hposition =>
    exact absurd (by rw [hposition]; trivial) h.not_reading
  | findW hposition hpos | addW hposition hpos | evictW hposition hpos => omega
  | @addEnqueue u item' newnode list hposition | @addPost u item' hposition
  | @evict u item' reduce list hposition | @evictPost u item' hposition =>
    -- it would be a second writer
    have hu : u = t := h.eq_of_writing (by rw [hposition]; exact Nat.succ_pos _)
    rw [hu] at hposition
    rcases h.overfull with hat | hat <;> rw [hat] at hposition <;> cases hposition

theorem step (h : s.Jammed t item) (hstep : s.Step e s') : s'.Jammed t item := by
  obtain ⟨-, hsize, -, v, hthreads, hjam⟩ := h.step_cases hstep
  obtain ⟨hits, hguarded⟩ := h.guarded
  refine ⟨⟨_, hguarded.step hstep⟩, hsize ▸ h.large, ?_⟩
  rw [hthreads]
  by_cases ht : t = e.thread
  · subst ht
    rw [Function.update_self]
    exact h.overfull.jam hjam
  · rw [Function.update_of_ne ht]
    exact h.overfull

/-- A lookup does not get through. -/
theorem barred (h : s.Jammed t item) (hstep : s.Step e s') {c : Call}
    (hu : (s.threads u).Barred c) : (s'.threads u).Barred c := by
  obtain ⟨-, -, -, v, hthreads, hjam⟩ := h.step_cases hstep
  rw [hthreads]
  by_cases ht : u = e.thread
  · subst ht
    rw [Function.update_self]
    exact hu.jam hjam
  · rw [Function.update_of_ne ht]
    exact hu

end Cache.Jammed

/-- A cache that is too large has a thread that has found it so or is about to. -/
structure Cache.Watched {n : Nat} (s : Cache n) : Prop where
  guarded : ∃ hits, s.Guarded hits
  overfull : maxObjectSize < s.size → ∃ t item, (s.threads t).Overfull item

namespace Cache.Watched

variable {n : Nat} {s s' : Cache n} {e : CacheEvent n}

theorem start (n : Nat) : (Cache.start n).Watched :=
  ⟨⟨0, .start n⟩, fun hlarge ↦ absurd hlarge (show ¬ maxObjectSize < 0 by decide)⟩

theorem jammed (h : s.Watched) (hlarge : maxObjectSize < s.size) : ∃ t item, s.Jammed t item := by
  obtain ⟨t, item, hoverfull⟩ := h.overfull hlarge
  exact ⟨t, item, h.guarded, hlarge, hoverfull⟩

theorem step (h : s.Watched) (hstep : s.Step e s') : s'.Watched := by
  obtain ⟨hits, hguarded⟩ := h.guarded
  refine ⟨⟨_, hguarded.step hstep⟩, fun hlarge' ↦ ?_⟩
  by_cases hlarge : maxObjectSize < s.size
  · obtain ⟨t, item, hjammed⟩ := h.jammed hlarge
    exact ⟨t, item, (hjammed.step hstep).overfull⟩
  · cases hstep with
    | @addW t item hposition hw => exact ⟨t, item, Or.inl (Function.update_self _ _ _)⟩
    | @evict t item reduce list hposition hdequeue =>
      exact absurd (by rw [hposition]; trivial) (hguarded.ledger.calm t)
    | _ => exact absurd hlarge' hlarge

end Cache.Watched

/-- The thread whose `doit` ends its request in the step, with an answer or without a server. -/
def ProxyEvent.answered {n : Nat} : ProxyEvent n → Option (Fin n)
  | unreachable t | forward t _ | replay t _ _ => some t
  | _ => none

namespace Proxy

variable {n : Nat} {s s' : Proxy n} {event : ProxyEvent n} {events more : List (ProxyEvent n)}
  {t u : Fin n} {item : Item} {uri : Bytes}

theorem Reached.watched (h : Proxy.Reached events s) : s.cache.Watched := by
  refine h.invariant (P := fun s ↦ s.cache.Watched) ?_ fun s e s' hwatched hstep ↦ ?_
  · rintro s rfl
    exact Cache.Watched.start n
  · exact keeps (fun _ _ _ hc hstep ↦ hc.step hstep) hwatched (.cons hstep .nil)

/-- The `doit` of the thread looks for a uri and does not get through. -/
structure Hangs (s : Proxy n) (t : Fin n) (uri : Bytes) : Prop where
  doit : s.doits t = .looking uri
  barred : (s.cache.threads t).Barred (.find uri)

theorem Hangs.step (h : s.Hangs u uri) (hjammed : s.cache.Jammed t item) (hstep : s.Step event s') :
    s'.Hangs u uri ∧ event.answered ≠ some u := by
  obtain ⟨hdoit, hbarred⟩ := h
  -- a step of another `doit`
  have hother : ∀ {t : Fin n} {d d' : Doit}, s.doits t = d → d ≠ .looking uri → t ≠ u ∧
      Function.update s.doits t d' u = .looking uri := by
    intro t d d' ht hd
    have hne : t ≠ u := by
      rintro rfl
      exact hd (ht.symm.trans hdoit)
    exact ⟨hne, by rw [Function.update_of_ne hne.symm, hdoit]⟩
  cases hstep with
  | request hdoit' hcall =>
    exact ⟨⟨(hother hdoit' nofun).2, hjammed.barred hcall hbarred⟩, nofun⟩
  | @inside e cache hmade hstep =>
    have hbarred' := hjammed.barred hstep hbarred
    refine ⟨⟨?_, hbarred'⟩, nofun⟩
    by_cases hthread : u = e.thread
    · subst hthread
      have hbusy : cache.threads e.thread ≠ .idle := by
        rcases hbarred' with hat | hat <;> exact hat ▸ nofun
      have hafter : (s.doits e.thread).after e (cache.threads e.thread) = s.doits e.thread :=
        if_pos hbusy
      dsimp only
      rw [Function.update_self, hafter, hdoit]
    · dsimp only
      rw [Function.update_of_ne hthread, hdoit]
  | add hdoit' hcall =>
    exact ⟨⟨(hother hdoit' nofun).2, hjammed.barred hcall hbarred⟩, nofun⟩
  | respond hdoit' hblock => exact ⟨⟨(hother hdoit' nofun).2, hbarred⟩, nofun⟩
  | unreachable hdoit' | forward hdoit' | replay hdoit' hblock =>
    obtain ⟨hne, hlooking⟩ := hother hdoit' nofun
    exact ⟨⟨hlooking, hbarred⟩, fun heq ↦ hne (Option.some.inj heq)⟩

/-- A request that hangs is never answered. -/
theorem Hangs.steps (h : s.Hangs u uri) (hjammed : s.cache.Jammed t item)
    (hsteps : Steps Proxy.Step s more s') : ∀ e ∈ more, e.answered ≠ some u := by
  induction hsteps with
  | nil => exact nofun
  | cons hstep _ ih =>
    obtain ⟨hhangs, hnot⟩ := h.step hjammed hstep
    have hkept := keeps (P := fun c ↦ c.Jammed t item) (fun _ _ _ hc hstep ↦ hc.step hstep) hjammed
      (.cons hstep .nil)
    exact List.forall_mem_cons.mpr ⟨hnot, ih hhangs hkept⟩

end Proxy

/-- Once `cache_size` exceeds `MAX_OBJECT_SIZE`, the list and the size stay as they are, and no later
request is ever answered. -/
theorem proxy_jammed {n : Nat} {events more : List (ProxyEvent n)} {s s' : Proxy n}
    (h : Proxy.Reached events s) (hlarge : maxObjectSize < s.cache.size)
    (hmore : Steps Proxy.Step s more s') :
    s'.cache.list = s.cache.list ∧ s'.cache.size = s.cache.size ∧
    ∀ before t uri after, more = before ++ .request t uri :: after →
      ∀ e ∈ after, e.answered ≠ some t := by
  obtain ⟨t₀, item, hjammed⟩ := h.watched.jammed hlarge
  have hkept : ∀ {more s'}, Steps Proxy.Step s more s' → s'.cache.Jammed t₀ item ∧
      s'.cache.list = s.cache.list ∧ s'.cache.size = s.cache.size := by
    intro more s' hmore
    refine Proxy.keeps (P := fun c ↦ c.Jammed t₀ item ∧ c.list = s.cache.list ∧
      c.size = s.cache.size) (fun c e c' hc hstep ↦ ?_) ⟨hjammed, rfl, rfl⟩ hmore
    obtain ⟨hlist, hsize, -⟩ := hc.1.step_cases hstep
    exact ⟨hc.1.step hstep, hlist.trans hc.2.1, hsize.trans hc.2.2⟩
  refine ⟨(hkept hmore).2.1, (hkept hmore).2.2, ?_⟩
  rintro before t uri after rfl
  obtain ⟨s₁, hbefore, hrest⟩ := hmore.split
  cases hrest with
  | @cons _ s₂ _ _ _ hstep hafter =>
    obtain ⟨hjammed₂, -, -⟩ := hkept (hbefore.append (.cons hstep .nil))
    have hhangs : s₂.Hangs t uri := by
      cases hstep with
      | request hdoit hcall =>
        refine ⟨Function.update_self _ _ _, ?_⟩
        cases hcall with
        | call _ _ hposition => exact Or.inl (Function.update_self _ _ _)
    exact hhangs.steps hjammed₂ hafter

section Alone

variable {n : Nat} (list : CacheList) (size : Int) (threads : Fin n → Position) (doits : Fin n → Doit)
  (t : Fin n) (item : Item)

/-- A `doit` that is alone in the cache misses it and forwards an answer. -/
theorem Proxy.forwards (hidle : threads t = .idle) (hwaiting : doits t = .waiting)
    (hfinds : list.Finds item.uri 0) : ∃ labels,
    Steps Proxy.Step ⟨⟨list, size, 0, 1, 1, threads⟩, doits⟩ labels
      ⟨⟨list, size, 0, 1, 1, threads⟩, Function.update doits t (.forwarded item)⟩ := by
  have hmiss := @Proxy.steps_inside n _ _ (Function.update doits t (.looking item.uri)) t _ (.post t)
    (@Cache.find_miss n list size (Function.update threads t (.findMutex (.find item.uri))) t
      (.find item.uri) (Function.update_self _ _ _) hfinds)
    (by simp [Cache.missing, CacheEvent.made, CacheEvent.thread]) rfl
  simp only [Function.update_idem, Function.update_self, Doit.after, Call.missed, ne_eq,
    not_true_eq_false, if_false] at hmiss
  rw [← hidle, Function.update_eq_self] at hmiss
  have hrequest := Steps.cons (e := .request t item.uri)
    (Proxy.Step.request (s := ⟨⟨list, size, 0, 1, 1, threads⟩, doits⟩) hwaiting (.call t _ hidle)) hmiss
  have hforward := hrequest.append <| .cons (.forward (t := t) (Function.update_self _ _ _)) .nil
  rw [Function.update_idem] at hforward
  exact ⟨_, hforward⟩

/-- It then calls `add_cache_block` with the answer. -/
theorem Proxy.adds (hidle : threads t = .idle) (hcontent : item.contentLength ≤ maxContentSize) :
    Proxy.Step ⟨⟨list, size, 0, 1, 1, threads⟩, Function.update doits t (.forwarded item)⟩ (.add t)
      ⟨⟨list, size, 0, 1, 1, Function.update threads t (.findMutex (.add item))⟩,
        Function.update doits t (.adding item)⟩ := by
  have hbegin : (Call.add item).begin = .findMutex (.add item) := if_neg (not_lt.mpr hcontent)
  have hcall := Proxy.Step.add (t := t)
    (s := ⟨⟨list, size, 0, 1, 1, threads⟩, Function.update doits t (.forwarded item)⟩)
    (Function.update_self _ _ _) (.call t (.add item) hidle)
  simp only [hbegin, Function.update_self, Function.update_idem, Doit.after, ne_eq, reduceCtorEq,
    not_false_eq_true, if_true] at hcall
  exact hcall

/-- There is room for the answer. -/
theorem Proxy.inserts {live : List Nat} (newnode : Nat) (hidle : threads t = .idle)
    (hwaiting : doits t = .waiting) (hfinds : list.Finds item.uri 0) (hlinked : list.Linked live)
    (hcontent : item.contentLength ≤ maxContentSize)
    (hsize : size + item.contentLength ≤ maxObjectSize) (hnull : newnode ≠ 0)
    (hnew : list.blocks newnode = none) : ∃ labels,
    Steps Proxy.Step ⟨⟨list, size, 0, 1, 1, threads⟩, doits⟩ labels
      ⟨⟨list.added newnode item, size + item.contentLength, 0, 1, 1, threads⟩, doits⟩ := by
  obtain ⟨labels, hforwards⟩ := Proxy.forwards list size threads doits t item hidle hwaiting hfinds
  have hadd := @Proxy.steps_inside n _ _ (Function.update doits t (.adding item)) t _ (.post t)
    ((@Cache.find_miss n list size (Function.update threads t (.findMutex (.add item))) t
      (.add item) (Function.update_self _ _ _) hfinds).append <|
        Cache.insert t item newnode hlinked (Function.update_self _ _ _) hsize hnull hnew)
    (by simp [Cache.missing, Cache.inserting, CacheEvent.made, CacheEvent.thread]) rfl
  simp only [Function.update_idem, Function.update_self, Doit.after, ne_eq,
    not_true_eq_false, if_false] at hadd
  rw [← hidle, ← hwaiting, Function.update_eq_self, Function.update_eq_self] at hadd
  have hcall := Proxy.adds list size threads doits t item hidle hcontent
  exact ⟨_, hforwards.append (.cons hcall hadd)⟩

/-- There is no room for the answer. -/
theorem Proxy.overflows (hidle : threads t = .idle) (hwaiting : doits t = .waiting)
    (hfinds : list.Finds item.uri 0) (hcontent : item.contentLength ≤ maxContentSize)
    (hsize : maxObjectSize < size + item.contentLength) : ∃ labels,
    Steps Proxy.Step ⟨⟨list, size, 0, 1, 1, threads⟩, doits⟩ labels
      ⟨⟨list, size + item.contentLength, 0, 1, 0, Function.update threads t (.evictW item)⟩,
        Function.update doits t (.adding item)⟩ := by
  obtain ⟨labels, hforwards⟩ := Proxy.forwards list size threads doits t item hidle hwaiting hfinds
  have hadd := @Proxy.steps_inside n _ _ (Function.update doits t (.adding item)) t _ (.test t)
    ((@Cache.find_miss n list size (Function.update threads t (.findMutex (.add item))) t
      (.add item) (Function.update_self _ _ _) hfinds).append <|
        Cache.overflow t item (Function.update_self _ _ _) hsize)
    (by simp [Cache.missing, CacheEvent.made, CacheEvent.thread]) rfl
  simp only [Function.update_idem, Function.update_self, Doit.after, ne_eq, reduceCtorEq,
    not_false_eq_true, if_true] at hadd
  exact ⟨_, hforwards.append (.cons (Proxy.adds list size threads doits t item hidle hcontent) hadd)⟩

end Alone

/-- A content of the greatest size that is cached. -/
def largestItem (c : UInt8) : Item := ⟨[c], [], [], maxContentSize⟩

/-- The cache with one block of this size after another. -/
def largestBlocks : Nat → CacheList
  | 0 => .empty
  | k + 1 => (largestBlocks k).added (k + 1) (largestItem (49 + UInt8.ofNat k))

/-- Five of these blocks fill the cache, and the sixth stops the proxy before a request of another
thread. -/
theorem proxy_jammed_sixth : ∃ (events : List (ProxyEvent 2)) (s s' : Proxy 2),
    Proxy.Reached events s ∧ s.cache.size = 1200000 ∧ s'.doits 1 = .looking [49] ∧
      s'.cache.list = s.cache.list := by
  have hone : (largestBlocks 1).Linked [1] := CacheList.Linked.empty.enqueued (by decide) rfl
  have htwo : (largestBlocks 2).Linked [2, 1] := hone.enqueued (by decide) rfl
  have hthree : (largestBlocks 3).Linked [3, 2, 1] := htwo.enqueued (by decide) rfl
  have hfour : (largestBlocks 4).Linked [4, 3, 2, 1] := hthree.enqueued (by decide) rfl
  obtain ⟨_, h₁⟩ := Proxy.inserts .empty 0 (fun _ : Fin 2 ↦ .idle) (fun _ ↦ .waiting) 0
    (largestItem 49) 1 rfl rfl ⟨1, rfl⟩ .empty le_rfl (by decide) (by decide) rfl
  obtain ⟨_, h₂⟩ := Proxy.inserts (largestBlocks 1) 200000 (fun _ : Fin 2 ↦ .idle) (fun _ ↦ .waiting)
    0 (largestItem 50) 2 rfl rfl ⟨2, rfl⟩ hone le_rfl (by decide) (by decide) rfl
  obtain ⟨_, h₃⟩ := Proxy.inserts (largestBlocks 2) 400000 (fun _ : Fin 2 ↦ .idle) (fun _ ↦ .waiting)
    0 (largestItem 51) 3 rfl rfl ⟨3, rfl⟩ htwo le_rfl (by decide) (by decide) rfl
  obtain ⟨_, h₄⟩ := Proxy.inserts (largestBlocks 3) 600000 (fun _ : Fin 2 ↦ .idle) (fun _ ↦ .waiting)
    0 (largestItem 52) 4 rfl rfl ⟨4, rfl⟩ hthree le_rfl (by decide) (by decide) rfl
  obtain ⟨_, h₅⟩ := Proxy.inserts (largestBlocks 4) 800000 (fun _ : Fin 2 ↦ .idle) (fun _ ↦ .waiting)
    0 (largestItem 53) 5 rfl rfl ⟨5, rfl⟩ hfour le_rfl (by decide) (by decide) rfl
  obtain ⟨_, h₆⟩ := Proxy.overflows (largestBlocks 5) 1000000 (fun _ : Fin 2 ↦ .idle)
    (fun _ ↦ .waiting) 0 (largestItem 54) rfl rfl ⟨6, rfl⟩ le_rfl (by decide)
  have hrun : Proxy.Reached _ _ :=
    (h₁.append (h₂.append (h₃.append (h₄.append (h₅.append h₆))))).run rfl
  obtain ⟨hlist, -, -⟩ := proxy_jammed hrun (by decide)
    (.cons (e := .request 1 [49]) (.request rfl (.call 1 _ rfl)) .nil)
  exact ⟨_, _, _, hrun, rfl, rfl, hlist⟩

end SystemProgramming.ProxyLab
