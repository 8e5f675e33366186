import SystemProgramming.Library.LinkedRing
import SystemProgramming.Library.Runs
import SystemProgramming.Library.StateProgram

/-!
# The list of cache blocks

The cache keeps its blocks in a doubly linked list that ends at null pointers on both sides.
`enqueue` puts a block in front; `dequeue` frees the last one. An access to a block that is not
allocated has no result. The url, the response and the content of a block are allocated and freed
with it, and are kept as values.

Seen from the null pointer, whose next block is `head` and whose previous one is `tail`, the list is
a ring, and `enqueue` keeps it one (`Linked.enqueue`). `dequeue` does not: it forgets `head` when it
frees the only block, and the `next` pointer of the new last block otherwise.
-/

set_option autoImplicit false
set_option relaxedAutoImplicit false

namespace SystemProgramming.ProxyLab

open Library

/-- The bytes of a C string or of a buffer. -/
abbrev Bytes := List UInt8

/-- A `cache_block`. Address zero is the null pointer. -/
structure CacheBlock where
  url : Bytes
  response : Bytes
  content : Bytes
  contentLength : Int
  next : Nat
  prev : Nat
  deriving DecidableEq, Repr

/-- The blocks that are allocated, and the two ends of the list. -/
structure CacheList where
  head : Nat
  tail : Nat
  blocks : Nat → Option CacheBlock

namespace CacheList

/-- No block is cached. -/
def empty : CacheList := ⟨0, 0, fun _ ↦ none⟩

/-! ### The code -/

/-- Read a block. -/
def load (p : Nat) : Program CacheList CacheBlock := do
  match (← get).blocks p with
  | some b => pure b
  | none => failure

/-- Write a block. -/
def store (p : Nat) (b : CacheBlock) : Program CacheList Unit := do
  let _ ← load p
  modify fun c ↦ { c with blocks := Function.update c.blocks p (some b) }

/-- `free`, which ignores the null pointer. -/
def free (p : Nat) : Program CacheList Unit := do
  if p ≠ 0 then
    let _ ← load p
    modify fun c ↦ { c with blocks := Function.update c.blocks p none }

/-- `enqueue`, when `malloc` returns `newnode`. -/
def enqueue (newnode : Nat) (uri response content : Bytes) (contentLength : Int) :
    Program CacheList Unit := do
  let head := (← get).head
  modify fun c ↦ { c with
    blocks := Function.update c.blocks newnode
      (some ⟨uri, response, content, contentLength, head, 0⟩) }
  if head ≠ 0 then
    let first ← load head
    store head { first with prev := newnode }
  else
    modify fun c ↦ { c with tail := newnode }
  modify fun c ↦ { c with head := newnode }

/-- `dequeue`. -/
def dequeue : Program CacheList Int := do
  let tail := (← get).tail
  if tail = 0 then
    return 0
  let last ← load tail
  if last.prev = 0 then
    free tail
    modify fun c ↦ { c with tail := 0 }
  else
    modify fun c ↦ { c with tail := last.prev }
    free (← load last.prev).next
  return last.contentLength

/-- The probe loop of `find_cache_block`, with fuel. -/
def probe (uri : Bytes) : Nat → Nat → Program CacheList Nat
  | 0, _ => failure
  | fuel + 1, p => do
    if p = 0 then
      return 0
    let b ← load p
    if b.url = uri then
      return p
    probe uri fuel b.next

section Rules

variable {c : CacheList} {p : Nat} {b : CacheBlock}

theorem returns_load (h : c.blocks p = some b) (Q : CacheBlock → CacheList → Prop) :
    Returns (load p) c Q ↔ Q b c := by
  simp [load, returns_bind, h]

theorem returns_store (h : c.blocks p ≠ none) (b : CacheBlock) (Q : Unit → CacheList → Prop) :
    Returns (store p b) c Q ↔ Q () { c with blocks := Function.update c.blocks p (some b) } := by
  obtain ⟨b', hb'⟩ := Option.ne_none_iff_exists'.mp h
  simp [store, returns_bind, returns_load hb']

theorem returns_free (hp : p ≠ 0) (h : c.blocks p ≠ none) (Q : Unit → CacheList → Prop) :
    Returns (free p) c Q ↔ Q () { c with blocks := Function.update c.blocks p none } := by
  obtain ⟨b, hb⟩ := Option.ne_none_iff_exists'.mp h
  simp [free, hp, returns_bind, returns_load hb]

end Rules

/-! ### The ring -/

/-- The pointer to the next block, at a block or at the null pointer. -/
def next (c : CacheList) (p : Nat) : Nat :=
  if p = 0 then c.head else ((c.blocks p).map CacheBlock.next).getD 0

/-- The pointer to the previous block, at a block or at the null pointer. -/
def prev (c : CacheList) (p : Nat) : Nat :=
  if p = 0 then c.tail else ((c.blocks p).map CacheBlock.prev).getD 0

/-- The live blocks, newest first, form a ring through the null pointer. -/
structure Linked (c : CacheList) (live : List Nat) : Prop where
  nodup : (0 :: live).Nodup
  owned : ∀ p ∈ live, c.blocks p ≠ none
  ring : Ring c.next c.prev 0 live

variable {c : CacheList} {live : List Nat}

theorem Linked.empty : CacheList.empty.Linked [] := by
  refine ⟨by simp, by simp, ?_⟩
  exact ⟨rfl, rfl, trivial⟩

theorem Linked.ne_zero (h : c.Linked live) {p : Nat} (hp : p ∈ live) : p ≠ 0 := by
  rintro rfl
  exact (List.nodup_cons.mp h.nodup).1 hp

theorem Linked.head_eq (h : c.Linked live) : c.head = ringHead 0 live := by
  have hnext := h.ring.next_root
  rwa [next, if_pos rfl] at hnext

theorem Linked.tail_eq (h : c.Linked live) : c.tail = ringLast 0 live := by
  have hprev := h.ring.prev_root
  rwa [prev, if_pos rfl] at hprev

theorem Linked.block (h : c.Linked live) {p : Nat} (hp : p ∈ live) :
    ∃ b, c.blocks p = some b ∧ b.next = c.next p ∧ b.prev = c.prev p := by
  obtain ⟨b, hb⟩ := Option.ne_none_iff_exists'.mp (h.owned p hp)
  have hne := h.ne_zero hp
  refine ⟨b, hb, ?_, ?_⟩
  · rw [next, if_neg hne, hb]
    rfl
  · rw [prev, if_neg hne, hb]
    rfl

/-- What `enqueue` leaves. -/
def enqueued (c : CacheList) (newnode : Nat) (uri response content : Bytes) (contentLength : Int) :
    CacheList where
  head := newnode
  tail := if c.head = 0 then newnode else c.tail
  blocks p := if p = newnode then some ⟨uri, response, content, contentLength, c.head, 0⟩
    else if p = c.head ∧ p ≠ 0 then (c.blocks p).map fun b ↦ { b with prev := newnode }
    else c.blocks p

section Enqueue

variable {newnode : Nat} {uri response content : Bytes} {contentLength : Int}

/-- `enqueue`, as long as `head` is null or points to a block. -/
theorem returns_enqueue (hhead : c.head ≠ 0 → c.blocks c.head ≠ none)
    (hnew : c.blocks newnode = none) (Q : Unit → CacheList → Prop) :
    Returns (enqueue newnode uri response content contentLength) c Q ↔
      Q () (c.enqueued newnode uri response content contentLength) := by
  simp only [enqueue, returns_bind, returns_get, returns_modify]
  by_cases hzero : c.head = 0
  · rw [if_neg (not_not.mpr hzero)]
    simp only [returns_bind, returns_modify]
    refine iff_of_eq (congrArg (Q ()) ?_)
    simp only [enqueued, hzero, mk.injEq, if_true, true_and]
    funext p
    by_cases hp : p = newnode
    · subst hp
      simp
    · rw [Function.update_of_ne hp, if_neg hp, if_neg fun hand ↦ hand.2 hand.1]
  · obtain ⟨b, hb⟩ := Option.ne_none_iff_exists'.mp (hhead hzero)
    have hne : c.head ≠ newnode := by
      intro heq
      rw [heq, hnew] at hb
      exact absurd hb (by simp)
    have hb' : Function.update c.blocks newnode
        (some ⟨uri, response, content, contentLength, c.head, 0⟩) c.head = some b := by
      rw [Function.update_of_ne hne, hb]
    rw [if_pos hzero]
    simp only [returns_bind]
    rw [returns_load hb', returns_store (by simp [hb']), returns_modify]
    refine iff_of_eq (congrArg (Q ()) ?_)
    simp only [enqueued, hzero, mk.injEq, if_false, true_and]
    funext p
    by_cases hp : p = newnode
    · subst hp
      simp [Ne.symm hne]
    · by_cases hp' : p = c.head
      · subst hp'
        simp [hp, hzero, hb]
      · simp [hp, hp']

/-- The block in front of which the new one comes is in the list. -/
theorem Linked.head_owned (h : c.Linked live) (hne : c.head ≠ 0) : c.blocks c.head ≠ none := by
  refine h.owned c.head ?_
  rw [h.head_eq] at hne ⊢
  exact (List.mem_cons.mp (ringHead_mem 0 live)).resolve_left hne

/-- The new block is the first, and the one that was first follows it. -/
theorem enqueued_next (p : Nat) :
    (c.enqueued newnode uri response content contentLength).next p =
      if p = 0 then newnode else if p = newnode then c.head else c.next p := by
  unfold next
  by_cases hzero : p = 0
  · rw [if_pos hzero, if_pos hzero]
    rfl
  rw [if_neg hzero, if_neg hzero, if_neg hzero]
  by_cases hself : p = newnode
  · simp [enqueued, hself]
  · simp only [enqueued, hself, if_false]
    split_ifs
    · cases c.blocks p <;> rfl
    · rfl

/-- The new block comes before the one that was first. -/
theorem enqueued_prev (hnull : newnode ≠ 0) (hhead : c.head ≠ newnode) {p : Nat}
    (hp : p = 0 ∨ p = newnode ∨ c.blocks p ≠ none) :
    (c.enqueued newnode uri response content contentLength).prev p =
      if p = c.head then newnode else if p = newnode then 0 else c.prev p := by
  unfold prev
  by_cases hzero : p = 0
  · subst hzero
    by_cases hempty : c.head = 0
    · simp [enqueued, hempty]
    · simp [enqueued, hempty, Ne.symm hempty, hnull.symm]
  rw [if_neg hzero, if_neg hzero]
  by_cases hself : p = newnode
  · simp [enqueued, hself, hhead.symm]
  · obtain ⟨b, hb⟩ := Option.ne_none_iff_exists'.mp ((hp.resolve_left hzero).resolve_left hself)
    by_cases hhead' : p = c.head
    · subst hhead'
      simp [enqueued, hself, hzero, hb]
    · simp [enqueued, hself, hhead', hb]

theorem Linked.enqueue_eq (h : c.Linked live) (hnew : c.blocks newnode = none) :
    enqueue newnode uri response content contentLength c =
      some ((), c.enqueued newnode uri response content contentLength) :=
  eq_of_returns_iff (returns_enqueue h.head_owned hnew)

/-- A new block is put in front of the others. -/
theorem Linked.enqueued (h : c.Linked live) (hnull : newnode ≠ 0)
    (hnew : c.blocks newnode = none) :
    (c.enqueued newnode uri response content contentLength).Linked (newnode :: live) := by
  have hnotin : newnode ∉ live := fun hin ↦ h.owned newnode hin hnew
  have hfresh : newnode ∉ 0 :: live := by
    rw [List.mem_cons, not_or]
    exact ⟨hnull, hnotin⟩
  have hnodup : (0 :: newnode :: live).Nodup := by
    refine (List.Perm.swap newnode 0 live).nodup_iff.mpr ?_
    exact List.nodup_cons.mpr ⟨hfresh, h.nodup⟩
  refine ⟨hnodup, fun p hp ↦ ?_, h.ring.pushFront h.nodup hfresh (fun p _ ↦ ?_) fun p hp ↦ ?_⟩
  · rcases List.mem_cons.mp hp with rfl | hp
    · simp [CacheList.enqueued]
    · simp only [CacheList.enqueued]
      split_ifs
      · simp
      · simpa using h.owned p hp
      · exact h.owned p hp
  · rw [show c.next 0 = c.head from if_pos rfl]
    exact enqueued_next p
  · have hhead : c.head ∈ 0 :: live := h.head_eq ▸ ringHead_mem 0 live
    rw [show c.next 0 = c.head from if_pos rfl]
    refine enqueued_prev hnull (fun heq ↦ hfresh (heq ▸ hhead)) ?_
    rcases List.mem_cons.mp hp with hself | hp
    · exact Or.inr (Or.inl hself)
    · rcases List.mem_cons.mp hp with hzero | hp
      · exact Or.inl hzero
      · exact Or.inr (Or.inr (h.owned p hp))

end Enqueue

/-! ### What a well-formed list is -/

/-- From `p` on, `field` leads over these blocks to the null pointer. -/
def Visits (c : CacheList) (field : CacheBlock → Nat) : Nat → List Nat → Prop
  | p, [] => p = 0
  | p, q :: rest => p = q ∧ q ≠ 0 ∧ ∃ b, c.blocks q = some b ∧ c.Visits field (field b) rest

/-- The pointers that the list has: its ends, and the links of its blocks. -/
def Refers (c : CacheList) (live : List Nat) (q : Nat) : Prop :=
  q = c.head ∨ q = c.tail ∨ ∃ p ∈ live, ∃ b, c.blocks p = some b ∧ (q = b.next ∨ q = b.prev)

/-- The list of the live blocks, newest first. -/
structure WellFormed (c : CacheList) (live : List Nat) : Prop where
  null : c.head = 0 ↔ c.tail = 0
  forward : c.Visits CacheBlock.next c.head live
  last : c.tail = live.getLast?.getD 0
  backward : c.Visits CacheBlock.prev c.tail live.reverse
  unfreed : ∀ q, c.Refers live q → q ≠ 0 → c.blocks q ≠ none

theorem visits_of_links {field : CacheBlock → Nat} {f g : Nat → Nat} {l : List Nat}
    (h : Links f g (l ++ [0]))
    (hfield : ∀ p ∈ l, p ≠ 0 ∧ ∃ b, c.blocks p = some b ∧ field b = f p) :
    c.Visits field (ringHead 0 l) l := by
  induction l with
  | nil => rfl
  | cons x l ih =>
    obtain ⟨hne, b, hb, hx⟩ := hfield x List.mem_cons_self
    refine ⟨rfl, hne, b, hb, ?_⟩
    have hnext : f x = ringHead 0 l := by
      cases l with
      | nil => exact h.1
      | cons y l => exact h.1
    rw [hx, hnext]
    exact ih h.tail fun p hp ↦ hfield p (List.mem_cons_of_mem x hp)

/-- The pointers of a ring are its nodes. -/
theorem Linked.refers (h : c.Linked live) {q : Nat} (hq : c.Refers live q) : q ∈ 0 :: live := by
  rcases hq with rfl | rfl | ⟨p, hp, b, hb, hq⟩
  · rw [h.head_eq]
    exact ringHead_mem 0 live
  · rw [h.tail_eq]
    exact ringLast_mem 0 live
  · obtain ⟨b', hb', hnext, hprev⟩ := h.block hp
    obtain rfl := Option.some.inj (hb.symm.trans hb')
    obtain ⟨front, back, rfl⟩ := List.append_of_mem hp
    obtain ⟨hnext', hprev'⟩ := h.ring.neighbours
    have hsublist : List.Sublist (0 :: (front ++ back)) (0 :: (front ++ p :: back)) :=
      ((List.sublist_cons_self p back).append_left front).cons_cons 0
    rcases hq with rfl | rfl
    · rw [hnext, hnext']
      exact hsublist.subset (ringHead_mem_append 0 front back)
    · rw [hprev, hprev']
      exact ringLast_mem_append 0 front (p :: back)

/-- A ring through the null pointer is a well-formed list. -/
theorem Linked.wellFormed (h : c.Linked live) : c.WellFormed live where
  null := by
    rw [h.head_eq, h.tail_eq]
    constructor
    · intro hzero
      cases live with
      | nil => rfl
      | cons x live => exact absurd hzero (h.ne_zero List.mem_cons_self)
    · intro hzero
      rcases List.eq_nil_or_concat live with rfl | ⟨front, x, rfl⟩
      · rfl
      · rw [List.concat_eq_append] at hzero h
        have hx : x = 0 := by simpa [ringLast] using hzero
        exact absurd hx (h.ne_zero (by simp))
  forward := by
    rw [h.head_eq]
    refine visits_of_links h.ring.tail fun p hp ↦ ⟨h.ne_zero hp, ?_⟩
    obtain ⟨b, hb, hnext, -⟩ := h.block hp
    exact ⟨b, hb, hnext⟩
  last := h.tail_eq
  backward := by
    rw [h.tail_eq, ringLast, ← List.head?_reverse]
    refine visits_of_links h.ring.reverse.tail fun p hp ↦ ?_
    rw [List.mem_reverse] at hp
    obtain ⟨b, hb, -, hprev⟩ := h.block hp
    exact ⟨h.ne_zero hp, b, hb, hprev⟩
  unfreed q hq hne := by
    rcases List.mem_cons.mp (h.refers hq) with rfl | hlive
    · exact absurd rfl hne
    · exact h.owned q hlive

/-- The blocks that `next` leads to from `head`. -/
inductive Reachable (c : CacheList) : Nat → Prop
  | head (hne : c.head ≠ 0) : Reachable c c.head
  | next {p : Nat} {b : CacheBlock} (hp : Reachable c p) (hb : c.blocks p = some b)
      (hne : b.next ≠ 0) : Reachable c b.next

theorem Visits.reachable {p : Nat} {rest : List Nat} (h : c.Visits CacheBlock.next p rest)
    (hp : p ≠ 0 → c.Reachable p) {q : Nat} (hq : q ∈ rest) : c.Reachable q := by
  induction rest generalizing p with
  | nil => exact absurd hq List.not_mem_nil
  | cons r rest ih =>
    obtain ⟨rfl, hne, b, hb, hrest⟩ := h
    rcases List.mem_cons.mp hq with rfl | hq
    · exact hp hne
    · exact ih hrest (.next (hp hne) hb) hq

theorem Linked.reachable_iff (h : c.Linked live) {p : Nat} : c.Reachable p ↔ p ∈ live := by
  constructor
  · intro hp
    induction hp with
    | head hne => exact (List.mem_cons.mp (h.refers (Or.inl rfl))).resolve_left hne
    | @next q b hq hb hne ih =>
      have hrefers := h.refers (Or.inr (Or.inr ⟨q, ih, b, hb, Or.inl rfl⟩))
      exact (List.mem_cons.mp hrefers).resolve_left hne
  · exact h.wellFormed.forward.reachable .head

/-! ### The urls -/

/-- The url of a block. -/
def urlAt (c : CacheList) (p : Nat) : Bytes := ((c.blocks p).map CacheBlock.url).getD []

/-- A block of the list has the url. -/
def Caches (c : CacheList) (uri : Bytes) : Prop :=
  ∃ p b, c.Reachable p ∧ c.blocks p = some b ∧ b.url = uri

/-- No two blocks of the list have the same url. -/
def UniqueUrls (c : CacheList) : Prop :=
  ∀ p q b b', c.Reachable p → c.Reachable q → c.blocks p = some b → c.blocks q = some b' →
    b.url = b'.url → p = q

theorem urlAt_eq {p : Nat} {b : CacheBlock} (hb : c.blocks p = some b) : c.urlAt p = b.url := by
  rw [urlAt, hb]
  rfl

theorem Linked.caches_iff (h : c.Linked live) {uri : Bytes} :
    c.Caches uri ↔ uri ∈ live.map c.urlAt := by
  rw [List.mem_map]
  constructor
  · rintro ⟨p, b, hp, hb, hurl⟩
    exact ⟨p, h.reachable_iff.mp hp, (urlAt_eq hb).trans hurl⟩
  · rintro ⟨p, hp, hurl⟩
    obtain ⟨b, hb, -, -⟩ := h.block hp
    exact ⟨p, b, h.reachable_iff.mpr hp, hb, (urlAt_eq hb).symm.trans hurl⟩

theorem Linked.uniqueUrls_iff (h : c.Linked live) : c.UniqueUrls ↔ (live.map c.urlAt).Nodup := by
  rw [List.nodup_map_iff_inj_on (List.nodup_cons.mp h.nodup).2]
  constructor
  · intro hunique p hp q hq hurl
    obtain ⟨b, hb, -, -⟩ := h.block hp
    obtain ⟨b', hb', -, -⟩ := h.block hq
    rw [urlAt_eq hb, urlAt_eq hb'] at hurl
    exact hunique p q b b' (h.reachable_iff.mpr hp) (h.reachable_iff.mpr hq) hb hb' hurl
  · intro hinj p q b b' hp hq hb hb' hurl
    refine hinj p (h.reachable_iff.mp hp) q (h.reachable_iff.mp hq) ?_
    rw [urlAt_eq hb, urlAt_eq hb', hurl]

/-- The url of the new block comes to the others. -/
theorem Linked.enqueued_urls (h : c.Linked live) {newnode : Nat} (hnew : c.blocks newnode = none)
    {uri response content : Bytes} {contentLength : Int} :
    (newnode :: live).map (c.enqueued newnode uri response content contentLength).urlAt =
      uri :: live.map c.urlAt := by
  rw [List.map_cons]
  congr 1
  · simp [urlAt, CacheList.enqueued]
  · refine List.map_congr_left fun p hp ↦ ?_
    have hne : p ≠ newnode := by
      rintro rfl
      exact h.owned p hp hnew
    simp only [urlAt, CacheList.enqueued, if_neg hne]
    split_ifs
    · cases c.blocks p <;> rfl
    · rfl

/-! ### The other two operations -/

/-- `dequeue` does nothing on an empty list. -/
theorem Linked.dequeue_nil (h : c.Linked []) : dequeue c = some (0, c) := by
  refine eq_of_returns_iff fun Q ↦ ?_
  have htail : c.tail = 0 := h.tail_eq
  simp [dequeue, returns_bind, htail]

/-- `dequeue`, when there is a block before the last one. -/
theorem returns_dequeue {x y : Nat} {b b' : CacheBlock} (htail : c.tail = x) (hx : x ≠ 0)
    (hb : c.blocks x = some b) (hprev : b.prev = y) (hy : y ≠ 0) (hb' : c.blocks y = some b')
    (hnext : b'.next = x) (Q : Int → CacheList → Prop) :
    Returns dequeue c Q ↔
      Q b.contentLength ⟨c.head, y, Function.update c.blocks x none⟩ := by
  have hfreed : c.blocks x ≠ none := by simp [hb]
  simp only [dequeue, returns_bind, returns_get, htail, if_neg hx]
  rw [returns_load hb, hprev, if_neg hy]
  simp only [returns_bind, returns_modify]
  rw [returns_load (by exact hb'), hnext, returns_free hx (by exact hfreed), returns_pure]

/-- `dequeue` frees the last block. -/
theorem Linked.returns_dequeue {front : List Nat} {x : Nat} (h : c.Linked (front ++ [x])) :
    Returns dequeue c fun _ c' ↦ c'.head = c.head ∧ c'.blocks = Function.update c.blocks x none := by
  have hx : x ∈ front ++ [x] := by simp
  obtain ⟨b, hb, -, hprev⟩ := h.block hx
  rw [h.ring.neighbours.2] at hprev
  have hzero := h.ne_zero hx
  have htail : c.tail = x := by
    rw [h.tail_eq]
    simp [ringLast]
  rcases List.eq_nil_or_concat front with rfl | ⟨front, y, rfl⟩
  · have hfirst : b.prev = 0 := hprev
    simp only [dequeue, returns_bind, returns_get, htail, if_neg hzero]
    rw [returns_load hb, if_pos hfirst, returns_bind, returns_free hzero (h.owned x hx),
      returns_bind, returns_modify, returns_pure]
    exact ⟨rfl, rfl⟩
  · rw [List.concat_eq_append] at h hprev
    have hy : y ∈ front ++ [y] ++ [x] := by simp
    have hy0 := h.ne_zero hy
    obtain ⟨b', hb', hnext, -⟩ := h.block hy
    rw [List.append_assoc, List.singleton_append] at h
    rw [h.ring.neighbours.1] at hnext
    have hlast : b.prev = y := by
      rw [hprev]
      simp [ringLast]
    rw [CacheList.returns_dequeue htail hzero hb hlast hy0 hb' hnext]
    exact ⟨rfl, rfl⟩

/-- Without the block that `dequeue` frees the list is not well formed: the block before it, or
`head`, still points to it. -/
theorem Linked.not_wellFormed {front : List Nat} {x : Nat} (h : c.Linked (front ++ [x]))
    {c' : CacheList} (hhead : c'.head = c.head)
    (hblocks : c'.blocks = Function.update c.blocks x none) : ¬ c'.WellFormed front := by
  intro hformed
  have hx : x ∈ front ++ [x] := by simp
  refine hformed.unfreed x ?_ (h.ne_zero hx) (by rw [hblocks, Function.update_self])
  rcases List.eq_nil_or_concat front with rfl | ⟨front, y, rfl⟩
  · refine Or.inl ?_
    rw [hhead, h.head_eq]
    rfl
  · rw [List.concat_eq_append] at h ⊢
    have hy : y ∈ front ++ [y] ++ [x] := by simp
    obtain ⟨b, hb, hnext, -⟩ := h.block hy
    have hne : y ≠ x := by
      rintro rfl
      have hnodup := (List.nodup_cons.mp h.nodup).2
      rw [List.append_assoc] at hnodup
      simp [List.nodup_append] at hnodup
    rw [List.append_assoc, List.singleton_append] at h
    rw [h.ring.neighbours.1] at hnext
    refine Or.inr (Or.inr ⟨y, by simp, b, ?_, Or.inl hnext.symm⟩)
    rw [hblocks, Function.update_of_ne hne, hb]

/-- What the probe loop returns: a block with the url, or the null pointer if there is none. -/
def Probed (c : CacheList) (rest : List Nat) (uri : Bytes) (found : Nat) : Prop :=
  if found = 0 then ∀ q ∈ rest, ∀ b, c.blocks q = some b → b.url ≠ uri
  else found ∈ rest ∧ ∃ b, c.blocks found = some b ∧ b.url = uri

/-- The probe loop ends. -/
theorem Visits.returns_probe {p : Nat} {rest : List Nat} (h : c.Visits CacheBlock.next p rest)
    (uri : Bytes) : Returns (probe uri (rest.length + 1) p) c fun _ _ ↦ True := by
  induction rest generalizing p with
  | nil =>
    have hzero : p = 0 := h
    simp [probe, hzero]
  | cons q rest ih =>
    obtain ⟨rfl, hne, b, hb, hrest⟩ := h
    rw [List.length_cons, probe, if_neg hne]
    simp only [returns_bind]
    rw [returns_load hb, returns_ite]
    split_ifs
    · rw [returns_pure]
      trivial
    · exact ih hrest

/-- Where the probe loop ends, it has changed nothing. -/
theorem Visits.probed {p fuel : Nat} {rest : List Nat} (h : c.Visits CacheBlock.next p rest)
    {uri : Bytes} {Q : Nat → CacheList → Prop} (hreturns : Returns (probe uri fuel p) c Q) :
    ∃ found, Q found c ∧ c.Probed rest uri found := by
  induction fuel generalizing p rest with
  | zero =>
    obtain ⟨found, c', hfailure, -⟩ := hreturns
    have hnone : none = some (found, c') := hfailure
    exact absurd hnone (by simp)
  | succ fuel ih =>
    cases rest with
    | nil =>
      have hzero : p = 0 := h
      subst hzero
      rw [probe, if_pos rfl, returns_pure] at hreturns
      exact ⟨0, hreturns, fun q hq ↦ absurd hq List.not_mem_nil⟩
    | cons q rest =>
      obtain ⟨rfl, hne, b, hb, hrest⟩ := h
      rw [probe, if_neg hne] at hreturns
      simp only [returns_bind] at hreturns
      rw [returns_load hb, returns_ite] at hreturns
      split_ifs at hreturns with hurl
      · rw [returns_pure] at hreturns
        refine ⟨p, hreturns, ?_⟩
        rw [Probed, if_neg hne]
        exact ⟨List.mem_cons_self, b, hb, hurl⟩
      · obtain ⟨found, hQ, hprobed⟩ := ih hrest hreturns
        refine ⟨found, hQ, ?_⟩
        unfold Probed at hprobed ⊢
        split_ifs at hprobed ⊢ with hfound
        · intro r hr b' hb'
          rcases List.mem_cons.mp hr with rfl | hr
          · rw [← Option.some.inj (hb.symm.trans hb')]
            exact hurl
          · exact hprobed r hr b' hb'
        · exact ⟨List.mem_cons_of_mem _ hprobed.1, hprobed.2⟩

/-- The probe loop from `head` ends at this address. -/
def Finds (c : CacheList) (uri : Bytes) (found : Nat) : Prop :=
  ∃ fuel, probe uri fuel c.head c = some (found, c)

theorem Linked.finds (h : c.Linked live) (uri : Bytes) : ∃ found, c.Finds uri found := by
  obtain ⟨found, c', hprobe, -⟩ := h.wellFormed.forward.returns_probe uri
  obtain ⟨found', ⟨rfl, rfl⟩, -⟩ := h.wellFormed.forward.probed
    (Q := fun a t ↦ a = found ∧ t = c') ⟨found, c', hprobe, rfl, rfl⟩
  exact ⟨found', _, hprobe⟩

theorem Linked.probed (h : c.Linked live) {uri : Bytes} {found : Nat} (hfinds : c.Finds uri found) :
    c.Probed live uri found := by
  obtain ⟨fuel, hprobe⟩ := hfinds
  obtain ⟨found', rfl, hprobed⟩ := h.wellFormed.forward.probed
    (Q := fun a _ ↦ a = found) ⟨found, c, hprobe, rfl⟩
  exact hprobed

/-- The loop ends at the null pointer exactly if no block has the url. -/
theorem Linked.finds_zero_iff (h : c.Linked live) {uri : Bytes} {found : Nat}
    (hfinds : c.Finds uri found) : found = 0 ↔ ¬ c.Caches uri := by
  have hprobed := h.probed hfinds
  unfold Probed at hprobed
  split_ifs at hprobed with hzero
  · refine ⟨fun _ ↦ ?_, fun _ ↦ hzero⟩
    rintro ⟨p, b, hp, hb, hurl⟩
    exact hprobed p (h.reachable_iff.mp hp) b hb hurl
  · refine ⟨fun h0 ↦ absurd h0 hzero, fun hnone ↦ absurd ?_ hnone⟩
    obtain ⟨hlive, b, hb, hurl⟩ := hprobed
    exact ⟨found, b, h.reachable_iff.mpr hlive, hb, hurl⟩

theorem Linked.finds_zero (h : c.Linked live) {uri : Bytes} (hnone : uri ∉ live.map c.urlAt) :
    c.Finds uri 0 := by
  obtain ⟨found, hfinds⟩ := h.finds uri
  obtain rfl := (h.finds_zero_iff hfinds).mpr (mt h.caches_iff.mp hnone)
  exact hfinds

end CacheList

/-! ### Sequences of operations -/

/-- An operation on the list. -/
inductive ListEvent
  | enqueue (newnode : Nat) (uri response content : Bytes) (contentLength : Int)
  | dequeue
  deriving DecidableEq, Repr

/-- The list, unless an access has gone wrong, and the blocks that are enqueued and not dequeued. -/
structure ListState where
  list : Option CacheList
  live : List Nat

/-- The list at the beginning. -/
def ListState.start : ListState := ⟨some .empty, []⟩

/-- The operations. `malloc` returns any address that is not in use, and the block at the tail is
the one that is dequeued. -/
inductive ListState.Step : ListState → ListEvent → ListState → Prop
  | enqueue {c : CacheList} {live : List Nat} {newnode : Nat} {uri response content : Bytes}
      {contentLength : Int} (hnull : newnode ≠ 0) (hnew : c.blocks newnode = none) :
      Step ⟨some c, live⟩ (.enqueue newnode uri response content contentLength)
        ⟨(CacheList.enqueue newnode uri response content contentLength c).map Prod.snd,
          newnode :: live⟩
  | dequeue {c : CacheList} {live : List Nat} :
      Step ⟨some c, live⟩ .dequeue ⟨(CacheList.dequeue c).map Prod.snd, live.dropLast⟩

namespace ListState

/-- No access has gone wrong, and the list is well formed. -/
def WellFormed (s : ListState) : Prop := ∃ c, s.list = some c ∧ c.WellFormed s.live

/-- A `dequeue` finds the list empty. -/
def DequeuesNone (s : ListState) (e : ListEvent) : Prop := e = .dequeue → s.live = []

/-- No access has gone wrong, and the list is a ring through the null pointer. -/
def Linked (s : ListState) : Prop := ∃ c, s.list = some c ∧ c.Linked s.live

variable {s s' : ListState} {e : ListEvent}

theorem Linked.wellFormed (h : s.Linked) : s.WellFormed := by
  obtain ⟨c, hc, hlinked⟩ := h
  exact ⟨c, hc, hlinked.wellFormed⟩

theorem Step.linked (h : s.Linked) (hstep : s.Step e s') (hnone : s.DequeuesNone e) :
    s'.Linked := by
  obtain ⟨c, hc, hlinked⟩ := h
  cases hstep with
  | enqueue hnull hnew =>
    obtain rfl := Option.some.inj hc
    exact ⟨_, by rw [hlinked.enqueue_eq hnew]; rfl, hlinked.enqueued hnull hnew⟩
  | dequeue =>
    obtain rfl := Option.some.inj hc
    obtain rfl := hnone rfl
    exact ⟨_, by rw [hlinked.dequeue_nil]; rfl, hlinked⟩

theorem Step.dequeuesNone (h : s.Linked) (hstep : s.Step e s') (hformed : s'.WellFormed) :
    s.DequeuesNone e := by
  rintro rfl
  obtain ⟨c, hc, hlinked⟩ := h
  cases hstep with
  | @dequeue c live =>
    obtain rfl := Option.some.inj hc
    rcases List.eq_nil_or_concat live with rfl | ⟨front, x, rfl⟩
    · rfl
    · rw [List.concat_eq_append] at hlinked hformed
      obtain ⟨size, c', hresult, hhead, hblocks⟩ := hlinked.returns_dequeue
      obtain ⟨c'', hc'', hformed⟩ := hformed
      rw [hresult] at hc''
      obtain rfl := Option.some.inj hc''
      rw [List.dropLast_concat] at hformed
      exact absurd hformed (hlinked.not_wellFormed hhead hblocks)

end ListState

/-- The list is well formed, and every probe ends, in every run in which `dequeue` is called on an
empty list only; and these are the only runs in which it is well formed all along. -/
theorem cache_wellFormed (events : List ListEvent) (s : ListState) :
    (Run (· = ListState.start) (fun s e s' ↦ s.Step e s' ∧ s.DequeuesNone e) events s →
      ∃ c, s.list = some c ∧ c.WellFormed s.live ∧
        ∀ uri, ∃ found, c.Finds uri found ∧ c.Probed s.live uri found) ∧
    (Run (· = ListState.start) (fun s e s' ↦ s.Step e s' ∧ s'.WellFormed) events s ↔
      Run (· = ListState.start) (fun s e s' ↦ s.Step e s' ∧ s.DequeuesNone e) events s) := by
  have hstart : ∀ s, s = ListState.start → s.Linked := by
    rintro _ rfl
    exact ⟨_, rfl, CacheList.Linked.empty⟩
  refine ⟨fun hrun ↦ ?_, fun hrun ↦ ?_, fun hrun ↦ ?_⟩
  · obtain ⟨c, hc, hlinked⟩ := Run.invariant (P := ListState.Linked) hstart
      (fun s e s' h hstep ↦ hstep.1.linked h hstep.2) hrun
    refine ⟨c, hc, hlinked.wellFormed, fun uri ↦ ?_⟩
    obtain ⟨found, hfinds⟩ := hlinked.finds uri
    exact ⟨found, hfinds, hlinked.probed hfinds⟩
  · refine hrun.mono_of_invariant (P := ListState.Linked) hstart ?_
    intro s e s' h hstep
    have hnone := hstep.1.dequeuesNone h hstep.2
    exact ⟨⟨hstep.1, hnone⟩, hstep.1.linked h hnone⟩
  · refine hrun.mono_of_invariant (P := ListState.Linked) hstart ?_
    intro s e s' h hstep
    have hlinked := hstep.1.linked h hstep.2
    exact ⟨⟨hstep.1, hlinked.wellFormed⟩, hlinked⟩

theorem cache_wellFormed_two : ∃ s,
    Run (· = ListState.start) (fun s e s' ↦ s.Step e s' ∧ s.DequeuesNone e)
      [.dequeue, .enqueue 1 [97] [] [7] 1, .enqueue 2 [98] [] [] 0] s ∧ s.live = [2, 1] ∧
      ∃ c, s.list = some c ∧ c.WellFormed [2, 1] := by
  have hrun : Run (· = ListState.start) (fun s e s' ↦ s.Step e s' ∧ s.DequeuesNone e)
      [.dequeue, .enqueue 1 [97] [] [7] 1, .enqueue 2 [98] [] [] 0] _ :=
    (Steps.cons ⟨.dequeue, fun _ ↦ rfl⟩ <| .cons ⟨.enqueue (by decide) rfl, nofun⟩ <|
      .cons ⟨.enqueue (by decide) rfl, nofun⟩ .nil).run rfl
  obtain ⟨c, hc, hformed, -⟩ := (cache_wellFormed _ _).1 hrun
  exact ⟨_, hrun, rfl, c, hc, hformed⟩

/-- The only block is dequeued, and `head` still points to it. -/
theorem cache_wellFormed_freed : ∃ s,
    Run (· = ListState.start) ListState.Step [.enqueue 1 [97] [] [7] 1, .dequeue] s ∧
      (∃ c, s.list = some c ∧ s.live = [] ∧ c.head = 1 ∧ c.tail = 0 ∧ c.blocks 1 = none) ∧
      ¬ s.WellFormed := by
  have hsteps : ∃ s, Steps ListState.Step ListState.start
      [.enqueue 1 [97] [] [7] 1, .dequeue] s ∧
      ∃ c, s.list = some c ∧ s.live = [] ∧ c.head = 1 ∧ c.tail = 0 ∧ c.blocks 1 = none :=
    ⟨_, .cons (.enqueue (by decide) rfl) <| .cons .dequeue .nil, _, rfl, rfl, rfl, rfl, rfl⟩
  obtain ⟨s, hsteps, c, hc, hlive, hhead, htail, hblocks⟩ := hsteps
  refine ⟨s, hsteps.run rfl, ⟨c, hc, hlive, hhead, htail, hblocks⟩, ?_⟩
  rintro ⟨c', hc', hformed⟩
  obtain rfl := Option.some.inj (hc.symm.trans hc')
  rw [hformed.null.mpr htail] at hhead
  exact absurd hhead (by decide)

end SystemProgramming.ProxyLab
