import SystemProgramming.ProxyLab.Eviction

/-!
# The budget of the cache

Without the semaphore calls, steps 3 and 4 of `add_cache_block` add the length of a content to
`cache_size`, call `cache_replacement_policy` as long as the cache is too large, and call `enqueue`.
The cached blocks are those that `prev` leads to from `tail`, the oldest first: `dequeue` leaves the
`next` pointer of the new last block, and no step of this loop reads it again but to free it.

A content has at most `MAX_CONTENT_SIZE` bytes, so the loop ends before it has dequeued the last
block (`cache_budget`).
-/

set_option autoImplicit false
set_option relaxedAutoImplicit false

namespace SystemProgramming.ProxyLab

open Library

/-- What a block caches. -/
def CacheBlock.item (b : CacheBlock) : Item := ⟨b.url, b.response, b.content, b.contentLength⟩

/-- The list, `cache_size`, and the item that is being inserted. -/
structure Store where
  list : CacheList
  size : Int
  pending : Option Item

/-- The cache at the beginning. -/
def Store.start : Store := ⟨.empty, 0, none⟩

/-- What happens in an insertion: the length is added, a block is dequeued, the item is enqueued. -/
inductive StoreEvent
  | add (item : Item)
  | evict
  | enqueue (item : Item) (newnode : Nat)
  deriving DecidableEq, Repr

/-- Steps 3 and 4 of `add_cache_block` without the semaphore calls. -/
inductive Store.Step : Store → StoreEvent → Store → Prop
  | add {s : Store} {item : Item} (hidle : s.pending = none)
      (hcontent : item.contentLength ≤ maxContentSize) :
      Step s (.add item) { s with size := s.size + item.contentLength, pending := some item }
  | evict {s : Store} {item : Item} {reduce : Int} {list : CacheList}
      (hpending : s.pending = some item) (hlarge : s.size > maxObjectSize)
      (hdequeue : CacheList.dequeue s.list = some (reduce, list)) :
      Step s .evict { s with list := list, size := s.size - reduce }
  | enqueue {s : Store} {item : Item} {newnode : Nat} {list : CacheList}
      (hpending : s.pending = some item) (hsmall : ¬ s.size > maxObjectSize) (hnull : newnode ≠ 0)
      (hnew : s.list.blocks newnode = none)
      (henqueue : CacheList.enqueue newnode item.uri item.response item.content item.contentLength
        s.list = some ((), list)) :
      Step s (.enqueue item newnode) { s with list := list, pending := none }

/-- The states that insertions lead to. -/
abbrev Store.Reached (events : List StoreEvent) (s : Store) : Prop :=
  Run (· = Store.start) Store.Step events s

/-- The item that a step inserts. -/
def StoreEvent.inserted : StoreEvent → Option Item
  | enqueue item _ => some item
  | _ => none

/-- The items that have been inserted, the oldest first. -/
def insertions (events : List StoreEvent) : List Item := events.filterMap StoreEvent.inserted

/-- From `tail` along `prev`, the cached blocks hold these items. -/
def CacheList.Caching (c : CacheList) (cached : List Item) : Prop :=
  ∃ live, c.Visits CacheBlock.prev c.tail live ∧
    live.map (fun p ↦ (c.blocks p).map CacheBlock.item) = cached.map some

/-- So many of the oldest items are dropped, and fewer would leave too much for the new one. -/
def EvictsFewest (cached : List Item) (item : Item) (evictions : Nat) : Prop :=
  totalLength (cached.drop evictions) + item.contentLength ≤ maxObjectSize ∧
    ∀ fewer < evictions, maxObjectSize < totalLength (cached.drop fewer) + item.contentLength

/-- The loop ends: it can only evict so often, and it comes to where the item can be enqueued. -/
def Store.Terminates (s : Store) (item : Item) (cached : List Item) : Prop :=
  (∀ evictions s', Steps Store.Step s (List.replicate evictions .evict) s' →
    evictions ≤ cached.length) ∧
  ∃ evictions s', Steps Store.Step s (List.replicate evictions .evict) s' ∧
    ∀ newnode, newnode ≠ 0 → s'.list.blocks newnode = none →
      ∃ s'', s'.Step (.enqueue item newnode) s''

/-- The new block caches the item, and the others what they have cached. -/
theorem CacheList.added_item (c : CacheList) (newnode : Nat) (item : Item) (p : Nat) :
    ((c.added newnode item).blocks p).map CacheBlock.item =
      if p = newnode then some item else (c.blocks p).map CacheBlock.item := by
  simp only [CacheList.added, enqueued]
  split_ifs
  · rfl
  · cases c.blocks p <;> rfl
  · rfl

/-! ### The list between insertions -/

/-- The cached blocks, the oldest first. The last one may have a `next` pointer to a freed block. -/
structure CacheList.Kept (c : CacheList) (live : List (Nat × Item)) : Prop where
  nodup : (0 :: live.map Prod.fst).Nodup
  holds : ∀ e ∈ live, (c.blocks e.1).map CacheBlock.item = some e.2
  tail_eq : c.tail = ringHead 0 (live.map Prod.fst)
  head_eq : c.head = ringLast 0 (live.map Prod.fst)
  links : Links c.prev c.next (live.map Prod.fst ++ [0])

namespace CacheList.Kept

variable {c : CacheList} {live : List (Nat × Item)}

theorem empty : CacheList.empty.Kept [] where
  nodup := by simp
  holds := by simp
  tail_eq := rfl
  head_eq := rfl
  links := trivial

theorem ne_zero (h : c.Kept live) {e : Nat × Item} (he : e ∈ live) : e.1 ≠ 0 := by
  intro hzero
  refine (List.nodup_cons.mp h.nodup).1 ?_
  rw [← hzero]
  exact List.mem_map_of_mem he

/-- A cached block with the pointers that it has. -/
theorem block (h : c.Kept live) {e : Nat × Item} (he : e ∈ live) :
    ∃ b, c.blocks e.1 = some b ∧ b.item = e.2 ∧ b.next = c.next e.1 ∧ b.prev = c.prev e.1 := by
  obtain ⟨b, hb, hitem⟩ := Option.map_eq_some_iff.mp (h.holds e he)
  have hne := h.ne_zero he
  refine ⟨b, hb, hitem, ?_, ?_⟩
  · rw [next, if_neg hne, hb]
    rfl
  · rw [prev, if_neg hne, hb]
    rfl

theorem owned (h : c.Kept live) {p : Nat} (hp : p ∈ live.map Prod.fst) : c.blocks p ≠ none := by
  obtain ⟨e, he, rfl⟩ := List.mem_map.mp hp
  obtain ⟨b, hb, -⟩ := h.block he
  simp [hb]

theorem caching (h : c.Kept live) : c.Caching (live.map Prod.snd) := by
  refine ⟨live.map Prod.fst, ?_, ?_⟩
  · rw [h.tail_eq]
    refine visits_of_links h.links fun p hp ↦ ?_
    obtain ⟨e, he, rfl⟩ := List.mem_map.mp hp
    obtain ⟨b, hb, -, -, hprev⟩ := h.block he
    exact ⟨h.ne_zero he, b, hb, hprev⟩
  · rw [List.map_map, List.map_map]
    exact List.map_congr_left h.holds

theorem head_mem (h : c.Kept live) : c.head = 0 ∨ c.head ∈ live.map Prod.fst := by
  rw [h.head_eq]
  exact List.mem_cons.mp (ringLast_mem 0 _)

section Enqueue

variable {newnode : Nat} {item : Item}

theorem enqueue_eq (h : c.Kept live) (hnew : c.blocks newnode = none) :
    enqueue newnode item.uri item.response item.content item.contentLength c =
      some ((), c.added newnode item) := by
  refine eq_of_returns_iff (returns_enqueue (fun hne ↦ ?_) hnew)
  exact h.owned (h.head_mem.resolve_left hne)

/-- The links that `enqueue` adds, seen from the new block. -/
theorem links_added (item : Item) {l : List Nat} (hlinks : Links c.next c.prev (0 :: l))
    (hnodup : (0 :: l).Nodup)
    (howned : ∀ p ∈ l, c.blocks p ≠ none) (hfirst : c.head = ringHead 0 l) (hnull : newnode ≠ 0)
    (hnew : c.blocks newnode = none) :
    Links (c.added newnode item).next (c.added newnode item).prev (0 :: newnode :: l) := by
  have hne : ∀ p ∈ l, p ≠ 0 ∧ p ≠ newnode := by
    intro p hp
    refine ⟨?_, ?_⟩
    · rintro rfl
      exact (List.nodup_cons.mp hnodup).1 hp
    · rintro rfl
      exact howned p hp hnew
  have hhead : c.head ≠ newnode := by
    rw [hfirst]
    intro heq
    rcases List.mem_cons.mp (ringHead_mem 0 l) with hzero | hmem
    · exact hnull (heq.symm.trans hzero)
    · exact (hne _ hmem).2 heq
  have hback : (c.added newnode item).prev newnode = 0 := by
    rw [CacheList.added, enqueued_prev hnull hhead (Or.inr (Or.inl rfl)), if_neg hhead.symm,
      if_pos rfl]
  refine ⟨?_, hback, ?_⟩
  · rw [CacheList.added, enqueued_next, if_pos rfl]
  cases l with
  | nil => trivial
  | cons y l =>
    have hy : c.head = y := hfirst
    refine ⟨?_, ?_, hlinks.tail.congr (fun z hz ↦ ?_) fun z hz ↦ ?_⟩
    · rw [CacheList.added, enqueued_next, if_neg hnull, if_pos rfl, hy]
    · rw [CacheList.added, enqueued_prev hnull hhead
        (Or.inr (Or.inr (howned y List.mem_cons_self))), if_pos hy.symm]
    · obtain ⟨hz0, hznew⟩ := hne z ((List.dropLast_sublist _).subset hz)
      rw [CacheList.added, enqueued_next, if_neg hz0, if_neg hznew]
    · have hmem : z ∈ y :: l := List.mem_cons_of_mem y hz
      have hzy : z ≠ c.head := by
        rw [hy]
        rintro rfl
        exact (List.nodup_cons.mp (List.nodup_cons.mp hnodup).2).1 hz
      rw [CacheList.added, enqueued_prev hnull hhead (Or.inr (Or.inr (howned z hmem))),
        if_neg hzy, if_neg (hne z hmem).2]

/-- The new block comes behind the others. -/
theorem added (h : c.Kept live) (hnull : newnode ≠ 0) (hnew : c.blocks newnode = none) :
    (c.added newnode item).Kept (live ++ [(newnode, item)]) := by
  have hnotin : newnode ∉ live.map Prod.fst := fun hin ↦ h.owned hin hnew
  have hhead : c.head ≠ newnode := by
    intro heq
    rcases h.head_mem with hzero | hmem
    · exact hnull (heq.symm.trans hzero)
    · exact hnotin (heq ▸ hmem)
  have hmap : (live ++ [(newnode, item)]).map Prod.fst = live.map Prod.fst ++ [newnode] := by
    simp
  refine ⟨?_, ?_, ?_, ?_, ?_⟩
  · rw [hmap, ← List.cons_append]
    refine (List.perm_append_singleton newnode _).nodup_iff.mpr (List.nodup_cons.mpr ⟨?_, h.nodup⟩)
    rw [List.mem_cons, not_or]
    exact ⟨hnull, hnotin⟩
  · intro e he
    rw [added_item]
    rcases List.mem_append.mp he with he | he
    · have hne : e.1 ≠ newnode := fun heq ↦ hnotin (heq ▸ List.mem_map_of_mem he)
      rw [if_neg hne]
      exact h.holds e he
    · rw [List.mem_singleton.mp he, if_pos rfl]
  · have htail := h.tail_eq
    have hfirst := h.head_eq
    rw [hmap]
    cases live with
    | nil => simp_all [CacheList.added, enqueued, ringHead, ringLast]
    | cons e live =>
      have hne : c.head ≠ 0 := by
        rw [hfirst]
        have hmem : ringLast 0 ((e :: live).map Prod.fst) ∈ (e :: live).map Prod.fst := by
          rw [ringLast, List.getLast?_eq_some_getLast (by simp)]
          exact List.getLast_mem _
        intro hzero
        exact (List.nodup_cons.mp h.nodup).1 (hzero ▸ hmem)
      simpa [CacheList.added, enqueued, hne, ringHead] using htail
  · rw [hmap]
    simp [CacheList.added, enqueued, ringLast]
  · have hreverse := h.links.reverse
    rw [List.reverse_append, List.reverse_singleton, List.singleton_append] at hreverse
    have hlinks := links_added item hreverse
      (List.nodup_cons.mpr ⟨by simpa using (List.nodup_cons.mp h.nodup).1,
        List.nodup_reverse.mpr (List.nodup_cons.mp h.nodup).2⟩)
      (fun p hp ↦ h.owned (List.mem_reverse.mp hp))
      (by rw [h.head_eq, ringHead, ringLast, List.head?_reverse]) hnull hnew
    have hback := hlinks.reverse
    rw [hmap]
    simpa using hback

end Enqueue

/-- `dequeue` takes the oldest block, when there is another one. -/
theorem dequeue_eq {x y : Nat × Item} {rest : List (Nat × Item)} (h : c.Kept (x :: y :: rest)) :
    dequeue c = some (x.2.contentLength, ⟨c.head, y.1, Function.update c.blocks x.1 none⟩) := by
  obtain ⟨b, hb, hitem, -, hprev⟩ := h.block (e := x) List.mem_cons_self
  have hmem : y ∈ x :: y :: rest := List.mem_cons_of_mem x List.mem_cons_self
  obtain ⟨b', hb', -, hnext, -⟩ := h.block hmem
  obtain ⟨hxy, hyx, -⟩ := h.links
  have hlength : x.2.contentLength = b.contentLength := by rw [← hitem]; rfl
  rw [hlength]
  exact eq_of_returns_iff (returns_dequeue h.tail_eq (h.ne_zero List.mem_cons_self) hb
    (hprev.trans hxy) (h.ne_zero hmem) hb' (hnext.trans hyx))

/-- The others stay in the list. -/
theorem dequeued {x y : Nat × Item} {rest : List (Nat × Item)} (h : c.Kept (x :: y :: rest)) :
    CacheList.Kept ⟨c.head, y.1, Function.update c.blocks x.1 none⟩ (y :: rest) := by
  have hblocks : ∀ p ∈ (y :: rest).map Prod.fst,
      Function.update c.blocks x.1 none p = c.blocks p := by
    intro p hp
    refine Function.update_of_ne ?_ _ _
    rintro rfl
    exact (List.nodup_cons.mp (List.nodup_cons.mp h.nodup).2).1 hp
  have hlinks : Links c.prev c.next ((y :: rest).map Prod.fst ++ [0]) := h.links.tail
  refine ⟨?_, ?_, rfl, ?_, hlinks.congr (fun p hp ↦ ?_) fun p hp ↦ ?_⟩
  · exact h.nodup.sublist ((List.sublist_cons_self _ _).cons_cons 0)
  · intro e he
    have hholds := h.holds e (List.mem_cons_of_mem x he)
    rwa [← hblocks e.1 (List.mem_map_of_mem he)] at hholds
  · rw [h.head_eq]
    simp [ringLast]
  · rw [List.dropLast_concat] at hp
    have hp0 : p ≠ 0 := by
      obtain ⟨e, he, rfl⟩ := List.mem_map.mp hp
      exact h.ne_zero (List.mem_cons_of_mem x he)
    unfold prev
    rw [if_neg hp0, if_neg hp0]
    exact congrArg (fun b ↦ (Option.map CacheBlock.prev b).getD 0) (hblocks p hp)
  · unfold next
    by_cases hp0 : p = 0
    · rw [if_pos hp0, if_pos hp0]
    · have hp' := List.mem_of_mem_tail hp
      rw [List.mem_append, List.mem_singleton] at hp'
      rw [if_neg hp0, if_neg hp0]
      exact congrArg (fun b ↦ (Option.map CacheBlock.next b).getD 0)
        (hblocks p (hp'.resolve_right hp0))

end CacheList.Kept

/-! ### The sizes -/

/-- The length that is counted before the item is inserted. -/
def Store.charged (s : Store) : Int := (s.pending.map Item.contentLength).getD 0

/-- The cached blocks are the last ones that were inserted, and `cache_size` counts them. -/
structure Store.Accounts (s : Store) (inserted : List Item) (live : List (Nat × Item)) : Prop where
  kept : s.list.Kept live
  recent : live.map Prod.snd <:+ inserted
  content : ∀ item ∈ live.map Prod.snd ++ s.pending.toList, item.contentLength ≤ maxContentSize
  size : s.size = totalLength (live.map Prod.snd) + s.charged
  idle : s.pending = none → s.size ≤ maxObjectSize

/-- What a step does to the cached blocks. -/
def StoreEvent.effect : StoreEvent → List (Nat × Item) → List (Nat × Item)
  | add _, live => live
  | evict, live => live.tail
  | enqueue item newnode, live => live ++ [(newnode, item)]

namespace Store.Accounts

variable {s s' : Store} {e : StoreEvent} {item : Item} {inserted : List Item}
  {live : List (Nat × Item)}

theorem start : Store.start.Accounts [] [] where
  kept := CacheList.Kept.empty
  recent := List.suffix_rfl
  content := by simp [Store.start]
  size := rfl
  idle _ := by decide

/-- With one block, or none, the cache is not too large. -/
theorem exists_two (h : s.Accounts inserted live) (hpending : s.pending = some item)
    (hlarge : maxObjectSize < s.size) : ∃ x y rest, live = x :: y :: rest := by
  have hcontent := h.content
  have hsize := h.size
  rw [charged, hpending, Option.map_some, Option.getD_some] at hsize
  have hitem := hcontent item (by simp [hpending])
  unfold maxObjectSize at hlarge
  unfold maxContentSize at hcontent hitem
  cases live with
  | nil =>
    have hzero : totalLength [] = 0 := rfl
    rw [List.map_nil, hzero] at hsize
    omega
  | cons x live =>
    cases live with
    | nil =>
      have hone : totalLength [x.2] = x.2.contentLength := by simp [totalLength]
      have hx := hcontent x.2 (by simp)
      rw [List.map_singleton, hone] at hsize
      omega
    | cons y rest => exact ⟨x, y, rest, rfl⟩

theorem step (h : s.Accounts inserted live) (hstep : s.Step e s') :
    s'.Accounts (inserted ++ e.inserted.toList) (e.effect live) := by
  obtain ⟨hkept, hrecent, hcontent, hsize, hidle⟩ := id h
  cases hstep with
  | @add item hpending hitem =>
    refine ⟨hkept, by simpa [StoreEvent.inserted, StoreEvent.effect] using hrecent, ?_, ?_, nofun⟩
    · intro other hother
      rcases List.mem_append.mp hother with hmem | hmem
      · exact hcontent other (List.mem_append_left _ hmem)
      · obtain rfl : other = item := by simpa using hmem
        exact hitem
    · rw [charged, hpending] at hsize
      simpa [charged, StoreEvent.effect] using hsize
  | @evict item reduce list hpending hlarge hdequeue =>
    obtain ⟨x, y, rest, rfl⟩ := h.exists_two hpending hlarge
    rw [hkept.dequeue_eq] at hdequeue
    obtain ⟨rfl, rfl⟩ := Prod.mk.inj (Option.some.inj hdequeue)
    have hsuffix : (y :: rest).map Prod.snd <:+ (x :: y :: rest).map Prod.snd :=
      List.suffix_cons _ _
    refine ⟨hkept.dequeued, ?_, ?_, ?_, fun hnone ↦ ?_⟩
    · rw [show StoreEvent.evict.inserted = none from rfl, Option.toList_none, List.append_nil]
      exact hsuffix.trans hrecent
    · intro other hother
      refine hcontent other ?_
      rcases List.mem_append.mp hother with hmem | hmem
      · exact List.mem_append_left _ (hsuffix.subset hmem)
      · exact List.mem_append_right _ hmem
    · have hcharged : charged ⟨⟨s.list.head, y.1, Function.update s.list.blocks x.1 none⟩,
          s.size - x.2.contentLength, s.pending⟩ = s.charged := rfl
      rw [hcharged]
      change s.size - _ = totalLength ((y :: rest).map Prod.snd) + _
      rw [hsize]
      simp only [totalLength, List.map_cons, List.sum_cons]
      omega
    · rw [hpending] at hnone
      exact absurd hnone (by simp)
  | @enqueue item newnode list hpending hsmall hnull hnew henqueue =>
    rw [hkept.enqueue_eq hnew] at henqueue
    obtain ⟨-, rfl⟩ := Prod.mk.inj (Option.some.inj henqueue)
    have hmap : (live ++ [(newnode, item)]).map Prod.snd = live.map Prod.snd ++ [item] := by simp
    refine ⟨hkept.added hnull hnew, ?_, ?_, ?_, fun _ ↦ not_lt.mp hsmall⟩
    · rw [StoreEvent.effect, hmap]
      obtain ⟨before, hbefore⟩ := hrecent
      refine ⟨before, ?_⟩
      rw [← List.append_assoc, hbefore]
      rfl
    · intro other hother
      rw [StoreEvent.effect, hmap, Option.toList_none, List.append_nil] at hother
      rw [hpending] at hcontent
      exact hcontent other hother
    · rw [charged, hpending] at hsize
      rw [StoreEvent.effect, hmap, totalLength_append]
      simpa [charged, totalLength] using hsize

theorem charged_eq (hpending : s.pending = some item) : s.charged = item.contentLength := by
  rw [charged, hpending]
  rfl

/-- What the loop has done so far. -/
theorem evictions (h : s.Accounts inserted live) (hpending : s.pending = some item) {count : Nat}
    (hsteps : Steps Step s (List.replicate count .evict) s') :
    s'.Accounts inserted (live.drop count) ∧ s'.pending = some item ∧ count ≤ live.length ∧
      ∀ fewer < count,
        maxObjectSize < totalLength ((live.map Prod.snd).drop fewer) + item.contentLength := by
  induction count generalizing s live with
  | zero =>
    cases hsteps
    exact ⟨h, hpending, Nat.zero_le _, fun _ hfewer ↦ absurd hfewer (Nat.not_lt_zero _)⟩
  | succ count ih =>
    rw [List.replicate_succ] at hsteps
    cases hsteps with
    | @cons _ s₁ _ _ _ hstep hrest =>
      have hfirst : s₁.Accounts (inserted ++ []) live.tail := h.step hstep
      rw [List.append_nil] at hfirst
      obtain ⟨hlarge, hpending'⟩ : maxObjectSize < s.size ∧ s₁.pending = s.pending := by
        cases hstep with
        | evict _ hlarge _ => exact ⟨hlarge, rfl⟩
      obtain ⟨x, y, rest, rfl⟩ := h.exists_two hpending hlarge
      obtain ⟨hlast, hpending'', hcount, hfewest⟩ := ih hfirst (hpending'.trans hpending) hrest
      refine ⟨hlast, hpending'', Nat.succ_le_succ hcount, ?_⟩
      intro fewer hfewer
      cases fewer with
      | zero =>
        rw [List.drop_zero, ← charged_eq hpending, ← h.size]
        exact hlarge
      | succ fewer => exact hfewest fewer (Nat.lt_of_succ_lt_succ hfewer)

/-- The loop comes to its end. -/
theorem exists_small (h : s.Accounts inserted live) (hpending : s.pending = some item) :
    ∃ count s', Steps Step s (List.replicate count .evict) s' ∧ ¬ s'.size > maxObjectSize := by
  induction live generalizing s with
  | nil =>
    refine ⟨0, s, .nil, fun hlarge ↦ ?_⟩
    obtain ⟨x, y, rest, hlive⟩ := h.exists_two hpending hlarge
    exact absurd hlive (by simp)
  | cons x live ih =>
    by_cases hlarge : s.size > maxObjectSize
    · obtain ⟨x', y, rest, hlive⟩ := h.exists_two hpending hlarge
      obtain ⟨rfl, rfl⟩ := List.cons.inj hlive
      have hstep := Step.evict hpending hlarge h.kept.dequeue_eq
      have hnext : Store.Accounts _ (inserted ++ []) (y :: rest) := h.step hstep
      rw [List.append_nil] at hnext
      obtain ⟨count, s', hsteps, hsmall⟩ := ih hnext hpending
      exact ⟨count + 1, s', .cons hstep hsteps, hsmall⟩
    · exact ⟨0, s, .nil, hlarge⟩

theorem terminates (h : s.Accounts inserted live) (hpending : s.pending = some item) :
    s.Terminates item (live.map Prod.snd) := by
  constructor
  · intro count s' hsteps
    obtain ⟨-, -, hcount, -⟩ := h.evictions hpending hsteps
    rwa [List.length_map]
  · obtain ⟨count, s', hsteps, hsmall⟩ := h.exists_small hpending
    obtain ⟨hlast, hpending', -, -⟩ := h.evictions hpending hsteps
    refine ⟨count, s', hsteps, fun newnode hnull hnew ↦ ?_⟩
    exact ⟨_, .enqueue hpending' hsmall hnull hnew (hlast.kept.enqueue_eq hnew)⟩

/-- A whole insertion. -/
theorem insertion (h : s.Accounts inserted live) {newnode count : Nat}
    (hsteps : Steps Step s (.add item :: (List.replicate count .evict ++ [.enqueue item newnode]))
      s') :
    EvictsFewest (live.map Prod.snd) item count ∧
      s'.list.Caching ((live.map Prod.snd).drop count ++ [item]) := by
  cases hsteps with
  | @cons _ s₁ _ _ _ hadd hrest =>
    have hfirst : s₁.Accounts (inserted ++ []) live := h.step hadd
    rw [List.append_nil] at hfirst
    have hpending : s₁.pending = some item := by
      cases hadd
      rfl
    obtain ⟨s₂, hloop, hlast⟩ := hrest.split
    obtain ⟨hafter, hpending₂, -, hfewest⟩ := hfirst.evictions hpending hloop
    cases hlast with
    | cons henqueue hnil =>
      cases hnil
      have hfinal := hafter.step henqueue
      have hsmall : s₂.size ≤ maxObjectSize := by
        cases henqueue with
        | enqueue _ hsmall _ _ _ => exact not_lt.mp hsmall
      refine ⟨⟨?_, hfewest⟩, ?_⟩
      · rw [hafter.size, charged_eq hpending₂, List.map_drop] at hsmall
        exact hsmall
      · rw [← List.map_drop]
        simpa [StoreEvent.effect] using hfinal.kept.caching

end Store.Accounts

theorem Store.Reached.accounts {events : List StoreEvent} {s : Store}
    (hrun : Store.Reached events s) : ∃ live, s.Accounts (insertions events) live := by
  induction hrun with
  | start hinit =>
    subst hinit
    exact ⟨[], Store.Accounts.start⟩
  | @step events s s' e _ hstep ih =>
    obtain ⟨live, hlive⟩ := ih
    refine ⟨e.effect live, ?_⟩
    have hinsertions : insertions (events ++ [e]) = insertions events ++ e.inserted.toList := by
      rw [insertions, List.filterMap_append]
      cases e <;> rfl
    rw [hinsertions]
    exact hlive.step hstep

/-- The eviction loop ends, without a `dequeue` that finds less than two blocks; `cache_size` is
what the contents of the cached blocks add up to, at most `MAX_OBJECT_SIZE`; these blocks are the
ones that were inserted last, and an insertion evicts the oldest, as few as it can. -/
theorem cache_budget {events : List StoreEvent} {s : Store} (hrun : Store.Reached events s) :
    ∃ cached, s.list.Caching cached ∧ cached <:+ insertions events ∧
      (s.pending = none → s.size = totalLength cached ∧ s.size ≤ maxObjectSize) ∧
      (∀ item, s.pending = some item →
        s.Terminates item cached ∧ (s.size > maxObjectSize → 2 ≤ cached.length)) ∧
      ∀ item newnode evictions s', Steps Store.Step s
        (.add item :: (List.replicate evictions .evict ++ [.enqueue item newnode])) s' →
          EvictsFewest cached item evictions ∧
            s'.list.Caching (cached.drop evictions ++ [item]) := by
  obtain ⟨live, h⟩ := hrun.accounts
  refine ⟨live.map Prod.snd, h.kept.caching, h.recent, fun hnone ↦ ⟨?_, h.idle hnone⟩,
    fun item hpending ↦ ⟨h.terminates hpending, fun hlarge ↦ ?_⟩,
    fun item newnode evictions s' hsteps ↦ h.insertion hsteps⟩
  · rw [h.size, Store.charged, hnone]
    exact add_zero _
  · obtain ⟨x, y, rest, rfl⟩ := h.exists_two hpending hlarge
    exact Nat.le_add_left 2 _

/-- Six contents as long as may be cached, which are too much together, and one shorter than
nothing. -/
def sevenInsertions : List StoreEvent :=
  let largest : Item := ⟨[97], [], [], maxContentSize⟩
  let negative : Item := ⟨[98], [], [], -1⟩
  [.add largest, .enqueue largest 1, .add largest, .enqueue largest 2, .add largest,
    .enqueue largest 3, .add largest, .enqueue largest 4, .add largest, .enqueue largest 5,
    .add largest, .evict, .enqueue largest 1, .add negative, .enqueue negative 6]

theorem cache_budget_seven : ∃ s, Store.Reached sevenInsertions s ∧ s.size = 999999 ∧
    ∃ cached, s.list.Caching cached ∧ cached <:+ insertions sevenInsertions ∧
      s.size = totalLength cached := by
  have hsteps : ∃ s, Steps Store.Step Store.start sevenInsertions s ∧ s.size = 999999 ∧
      s.pending = none :=
    ⟨_, .cons (.add rfl (by decide)) <| .cons (.enqueue rfl (by decide) (by decide) rfl rfl) <|
      .cons (.add rfl (by decide)) <| .cons (.enqueue rfl (by decide) (by decide) rfl rfl) <|
      .cons (.add rfl (by decide)) <| .cons (.enqueue rfl (by decide) (by decide) rfl rfl) <|
      .cons (.add rfl (by decide)) <| .cons (.enqueue rfl (by decide) (by decide) rfl rfl) <|
      .cons (.add rfl (by decide)) <| .cons (.enqueue rfl (by decide) (by decide) rfl rfl) <|
      .cons (.add rfl (by decide)) <| .cons (.evict rfl (by decide) rfl) <|
      .cons (.enqueue rfl (by decide) (by decide) rfl rfl) <|
      .cons (.add rfl (by decide)) <| .cons (.enqueue rfl (by decide) (by decide) rfl rfl) .nil,
      rfl, rfl⟩
  obtain ⟨s, hsteps, hsize, hidle⟩ := hsteps
  have hrun : Store.Reached sevenInsertions s := hsteps.run rfl
  obtain ⟨cached, hcaching, hrecent, hcounted, -⟩ := cache_budget hrun
  exact ⟨s, hrun, hsize, cached, hcaching, hrecent, (hcounted hidle).1⟩

end SystemProgramming.ProxyLab
