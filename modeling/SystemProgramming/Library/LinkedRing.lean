import Mathlib.Data.List.Nodup
import Mathlib.Logic.Function.Basic

/-!
# Circular doubly linked lists, one at a time and in families

`next` and `prev` are any two functions on the nodes; nothing is said here about where they are
stored. `Links` says that consecutive nodes of a list are linked both ways, and `Ring root l` that
`l` is the content, in `next` order, of the circular list through `root`. The three edits of such a
list are local: taking a node out (`Ring.unlink`), putting one in behind the root
(`Ring.pushFront`), and letting a new node take the place of an old one (`Ring.replace`). Each is
stated for any `next'` and `prev'` that have the edited values on the nodes of the ring.

A `RingFamily` is an indexed family of rings with no node in common. The edits of one member of the
family leave the others alone (`RingFamily.unlink`, `RingFamily.pushFront`,
`RingFamily.replace`).
-/

set_option autoImplicit false
set_option relaxedAutoImplicit false

namespace SystemProgramming.Library

variable {α ι : Type}

/-! ### Links -/

section Links

variable {next prev next' prev' : α → α}

/-- Consecutive nodes are linked both ways. -/
def Links (next prev : α → α) : List α → Prop
  | x :: y :: rest => next x = y ∧ prev y = x ∧ Links next prev (y :: rest)
  | _ => True

@[simp] theorem links_singleton (x : α) : Links next prev [x] := trivial

theorem links_cons_cons (x y : α) (rest : List α) :
    Links next prev (x :: y :: rest) ↔ next x = y ∧ prev y = x ∧ Links next prev (y :: rest) :=
  Iff.rfl

theorem Links.tail {x : α} {l : List α} (h : Links next prev (x :: l)) : Links next prev l := by
  cases l with
  | nil => trivial
  | cons y l => exact h.2.2

/-- Links of a concatenation, split at a node that both parts share. -/
theorem links_append_cons (front : List α) (x : α) (back : List α) :
    Links next prev (front ++ x :: back) ↔
      Links next prev (front ++ [x]) ∧ Links next prev (x :: back) := by
  induction front with
  | nil => simp
  | cons a front ih =>
    cases front with
    | nil => simp only [List.cons_append, List.nil_append, links_cons_cons, links_singleton,
        and_true, and_assoc]
    | cons b front =>
      simp only [List.cons_append, links_cons_cons] at ih ⊢
      rw [ih]
      simp only [and_assoc]

/-- Two adjacent nodes of a linked list. -/
theorem Links.adjacent {front back : List α} {x y : α}
    (h : Links next prev (front ++ x :: y :: back)) : next x = y ∧ prev y = x := by
  have hback := ((links_append_cons front x (y :: back)).mp h).2
  exact ⟨hback.1, hback.2.1⟩

/-- `next` is read at every node but the last and `prev` at every node but the first. -/
theorem Links.congr {l : List α} (h : Links next prev l)
    (hnext : ∀ y ∈ l.dropLast, next' y = next y) (hprev : ∀ y ∈ l.tail, prev' y = prev y) :
    Links next' prev' l := by
  induction l with
  | nil => trivial
  | cons x rest ih =>
    cases rest with
    | nil => trivial
    | cons y rest =>
      refine ⟨?_, ?_, ih h.2.2 (fun z hz ↦ hnext z ?_) fun z hz ↦ hprev z ?_⟩
      · rw [hnext x (by simp), h.1]
      · rw [hprev y (by simp), h.2.1]
      · rw [List.dropLast_cons_of_ne_nil (List.cons_ne_nil _ _)]
        exact List.mem_cons_of_mem _ hz
      · exact List.mem_cons_of_mem _ hz

/-- The links the other way. -/
theorem Links.reverse {l : List α} (h : Links next prev l) : Links prev next l.reverse := by
  induction l with
  | nil => trivial
  | cons x rest ih =>
    cases rest with
    | nil => trivial
    | cons y rest =>
      have hrest := ih h.2.2
      rw [List.reverse_cons] at hrest
      rw [List.reverse_cons, List.reverse_cons, List.append_assoc, List.singleton_append,
        links_append_cons]
      exact ⟨hrest, h.2.1, h.1, trivial⟩

end Links

/-! ### One ring -/

section Ring

variable {next prev next' prev' : α → α} {root : α}

/-- The nodes of the circular list through `root`, in `next` order. -/
def Ring (next prev : α → α) (root : α) (l : List α) : Prop :=
  Links next prev (root :: (l ++ [root]))

/-- The first node, or the root itself when the ring is empty. -/
def ringHead (root : α) (l : List α) : α := l.head?.getD root

/-- The last node, or the root itself when the ring is empty. -/
def ringLast (root : α) (l : List α) : α := l.getLast?.getD root

theorem ringHead_mem (root : α) (l : List α) : ringHead root l ∈ root :: l := by
  cases l <;> simp [ringHead]

theorem ringLast_mem (root : α) (l : List α) : ringLast root l ∈ root :: l := by
  rcases List.eq_nil_or_concat l with rfl | ⟨l, x, rfl⟩ <;> simp [ringLast]

theorem ringHead_mem_append (root : α) (front back : List α) :
    ringHead root back ∈ root :: (front ++ back) := by
  rcases List.mem_cons.mp (ringHead_mem root back) with hroot | hmem
  · rw [hroot]
    exact List.mem_cons_self
  · exact List.mem_cons_of_mem _ (List.mem_append_right _ hmem)

theorem ringLast_mem_append (root : α) (front back : List α) :
    ringLast root front ∈ root :: (front ++ back) := by
  rw [← List.cons_append]
  exact List.mem_append_left _ (ringLast_mem root front)

theorem append_root_eq (root : α) (l : List α) :
    ∃ rest, l ++ [root] = ringHead root l :: rest ∧ ∀ y ∈ rest, y ∈ root :: l.tail := by
  cases l with
  | nil => exact ⟨[], rfl, by simp⟩
  | cons x l => exact ⟨l ++ [root], rfl, by simp [or_comm]⟩

theorem root_cons_eq (root : α) (l : List α) :
    ∃ rest, root :: l = rest ++ [ringLast root l] ∧ ∀ y ∈ rest, y ∈ root :: l.dropLast := by
  rcases List.eq_nil_or_concat l with rfl | ⟨l, x, rfl⟩
  · exact ⟨[], rfl, by simp⟩
  · exact ⟨root :: l, by simp [ringLast], by simp⟩

theorem Ring.next_root {l : List α} (h : Ring next prev root l) :
    next root = ringHead root l := by
  obtain ⟨rest, hrest, -⟩ := append_root_eq root l
  unfold Ring at h
  rw [hrest] at h
  exact h.1

/-- The ring the other way. -/
theorem Ring.reverse {l : List α} (h : Ring next prev root l) : Ring prev next root l.reverse := by
  have hreverse := Links.reverse h
  rwa [List.reverse_cons, List.reverse_append, List.reverse_singleton, List.singleton_append]
    at hreverse

theorem Ring.prev_root {l : List α} (h : Ring next prev root l) :
    prev root = ringLast root l := by
  rw [h.reverse.next_root, ringHead, ringLast, List.head?_reverse]

/-- The neighbours of a node. -/
theorem Ring.neighbours {front back : List α} {x : α}
    (h : Ring next prev root (front ++ x :: back)) :
    next x = ringHead root back ∧ prev x = ringLast root front := by
  obtain ⟨rest, hrest, -⟩ := append_root_eq root back
  obtain ⟨init, hinit, -⟩ := root_cons_eq root front
  have hshape : root :: (front ++ x :: back ++ [root]) =
      init ++ ringLast root front :: x :: ringHead root back :: rest := by
    rw [List.append_assoc, List.cons_append, hrest, ← List.cons_append, hinit, List.append_assoc]
    rfl
  unfold Ring at h
  rw [hshape] at h
  have hleft := h.adjacent
  rw [show init ++ ringLast root front :: x :: ringHead root back :: rest =
    (init ++ [ringLast root front]) ++ x :: ringHead root back :: rest by simp] at h
  exact ⟨h.adjacent.1, hleft.2⟩

/-- The node before a node leads to it. -/
theorem Ring.next_prev {l : List α} (h : Ring next prev root l) {x : α} (hx : x ∈ root :: l) :
    next (prev x) = x := by
  have hmem : x ∈ l ++ [root] := by
    rcases List.mem_cons.mp hx with rfl | hx
    · simp
    · exact List.mem_append_left _ hx
  obtain ⟨front, back, hsplit⟩ := List.append_of_mem hmem
  obtain ⟨init, hinit, -⟩ := root_cons_eq root front
  unfold Ring at h
  rw [hsplit, ← List.cons_append, hinit, List.append_assoc, List.singleton_append] at h
  obtain ⟨hnext, hprev⟩ := h.adjacent
  rw [hprev, hnext]

/-- The node behind a node leads back to it. -/
theorem Ring.prev_next {l : List α} (h : Ring next prev root l) {x : α} (hx : x ∈ root :: l) :
    prev (next x) = x :=
  h.reverse.next_prev (by simpa using hx)

/-- A node to which another node leads already cannot be put in behind the root as well. -/
theorem not_pushFront_twice (next next' prev' : α → α) {root x y : α} (hx : x ≠ root)
    (hy : next y = x) (hroot : next' root = x)
    (hself : next' x = next root) (hother : y ≠ root → next' y = next y)
    (hback : ∀ z, z = root ∨ z = x ∨ z = y → prev' (next' z) = z) : False := by
  have hfirst := hback root (Or.inl rfl)
  rw [hroot] at hfirst
  by_cases hyroot : y = root
  · have hloop := hback x (Or.inr (Or.inl rfl))
    rw [hself, ← hyroot, hy, hfirst] at hloop
    exact hx hloop.symm
  · have hlead := hback y (Or.inr (Or.inr rfl))
    rw [hother hyroot, hy, hfirst] at hlead
    exact hyroot hlead.symm

/-- A ring reads the links of its own nodes only. -/
theorem Ring.congr {l : List α} (h : Ring next prev root l)
    (hnext : ∀ y ∈ root :: l, next' y = next y) (hprev : ∀ y ∈ root :: l, prev' y = prev y) :
    Ring next' prev' root l := by
  refine Links.congr h (fun y hy ↦ hnext y ?_) fun y hy ↦ hprev y ?_
  · rw [← List.cons_append, List.dropLast_concat] at hy
    exact hy
  · rw [List.tail_cons, List.mem_append, List.mem_singleton] at hy
    exact List.mem_cons.mpr hy.symm

theorem Links.of_append_right {front back : List α} (h : Links next prev (front ++ back)) :
    Links next prev back := by
  cases back with
  | nil => trivial
  | cons x back => exact ((links_append_cons front x back).mp h).2

theorem Links.of_append_left {front back : List α} (h : Links next prev (front ++ back)) :
    Links next prev front := by
  rcases List.eq_nil_or_concat front with rfl | ⟨front, x, rfl⟩
  · trivial
  · rw [List.concat_eq_append, List.append_assoc] at h
    rw [List.concat_eq_append]
    exact ((links_append_cons front x back).mp h).1

/-- Every edit of a ring is a splice: the part between `front` and `back` is exchanged for another
list, which the new links join to the last node before it and the first node behind it, and no
other link of the nodes that stay is changed. -/
theorem Ring.splice {front middle back : List α} (middle' : List α)
    (h : Ring next prev root (front ++ middle ++ back))
    (hnodup : (root :: (front ++ back)).Nodup)
    (hseam : Links next' prev' (ringLast root front :: (middle' ++ [ringHead root back])))
    (hnext : ∀ y ∈ root :: (front ++ back), y ≠ ringLast root front → next' y = next y)
    (hprev : ∀ y ∈ root :: (front ++ back), y ≠ ringHead root back → prev' y = prev y) :
    Ring next' prev' root (front ++ middle' ++ back) := by
  obtain ⟨rest, hrest, hmemRest⟩ := append_root_eq root back
  obtain ⟨init, hinit, -⟩ := root_cons_eq root front
  have hfront : Links next prev (root :: front) := by
    unfold Ring at h
    rw [List.append_assoc, List.append_assoc, ← List.cons_append] at h
    exact h.of_append_left
  have hback : Links next prev (back ++ [root]) := by
    unfold Ring at h
    rw [List.append_assoc, ← List.cons_append] at h
    exact h.of_append_right
  have hinFront : ∀ y ∈ root :: front, y ∈ root :: (front ++ back) := by
    intro y hy
    rw [← List.cons_append]
    exact List.mem_append_left _ hy
  have hinBack : ∀ y ∈ back, y ∈ root :: (front ++ back) := fun y hy ↦
    List.mem_cons_of_mem _ (List.mem_append_right _ hy)
  have hcycle : (ringHead root back :: rest).Nodup := by
    rw [← hrest]
    refine (List.perm_append_singleton root back).nodup_iff.mpr (hnodup.sublist ?_)
    exact (List.sublist_append_right front back).cons_cons root
  have hsplit : (init ++ [ringLast root front] ++ back).Nodup := by
    rwa [← hinit, List.cons_append]
  have hfront' : Links next' prev' (root :: front) := by
    refine hfront.congr (fun y hy ↦ ?_) fun y hy ↦ ?_
    · -- behind its last node the front keeps `next`
      refine hnext y (hinFront y ((List.dropLast_sublist _).subset hy)) ?_
      rintro rfl
      rw [hinit, List.dropLast_concat] at hy
      rw [List.append_assoc] at hsplit
      exact (List.nodup_append.mp hsplit).2.2 _ hy _ (by simp) rfl
    · rw [List.tail_cons] at hy
      refine hprev y (hinFront y (List.mem_cons_of_mem _ hy)) ?_
      rintro rfl
      rw [List.nodup_cons] at hnodup
      rcases List.mem_cons.mp (ringHead_mem root back) with hroot | hmem
      · exact hnodup.1 (List.mem_append_left _ (hroot ▸ hy))
      · exact (List.nodup_append.mp hnodup.2).2.2 _ hy _ hmem rfl
  have hback' : Links next' prev' (ringHead root back :: rest) := by
    rw [hrest] at hback
    refine hback.congr (fun y hy ↦ ?_) fun y hy ↦ ?_
    · rw [← hrest, List.dropLast_concat] at hy
      refine hnext y (hinBack y hy) ?_
      rintro rfl
      exact (List.nodup_append.mp hsplit).2.2 _ (by simp) _ hy rfl
    · rw [List.tail_cons] at hy
      have hmem : y ∈ root :: (front ++ back) := by
        rcases List.mem_cons.mp (hmemRest y hy) with rfl | hmem
        · exact List.mem_cons_self
        · exact hinBack y (List.mem_of_mem_tail hmem)
      refine hprev y hmem ?_
      rintro rfl
      exact (List.nodup_cons.mp hcycle).1 hy
  have hshape : root :: (front ++ middle' ++ back ++ [root]) =
      init ++ ringLast root front :: (middle' ++ ringHead root back :: rest) := by
    rw [List.append_assoc, List.append_assoc, hrest, ← List.cons_append, hinit, List.append_assoc]
    rfl
  unfold Ring
  rw [hshape, links_append_cons, ← hinit, ← List.cons_append, links_append_cons, List.cons_append]
  exact ⟨hfront', hseam, hback'⟩

variable [DecidableEq α]

/-- Taking a node out of a ring. -/
theorem Ring.unlink {front back : List α} {x : α}
    (h : Ring next prev root (front ++ x :: back)) (hnodup : (root :: (front ++ x :: back)).Nodup)
    (hnext : ∀ y ∈ root :: (front ++ x :: back),
      next' y = if y = prev x then next x else next y)
    (hprev : ∀ y ∈ root :: (front ++ x :: back),
      prev' y = if y = next x then prev x else prev y) :
    Ring next' prev' root (front ++ back) := by
  have hsublist : List.Sublist (root :: (front ++ back)) (root :: (front ++ x :: back)) :=
    ((List.sublist_cons_self x back).append_left front).cons_cons root
  obtain ⟨hnextx, hprevx⟩ := h.neighbours
  rw [hnextx, hprevx] at hnext hprev
  have hlast : ringLast root front ∈ root :: (front ++ x :: back) := ringLast_mem_append root _ _
  have hhead : ringHead root back ∈ root :: (front ++ x :: back) :=
    hsublist.subset (ringHead_mem_append root _ _)
  rw [← List.singleton_append, ← List.append_assoc] at h
  rw [← List.append_nil front]
  refine h.splice [] (hnodup.sublist hsublist) ?_ (fun y hy hne ↦ ?_) fun y hy hne ↦ ?_
  · exact ⟨by rw [hnext _ hlast, if_pos rfl], by rw [hprev _ hhead, if_pos rfl], trivial⟩
  · rw [hnext y (hsublist.subset hy), if_neg hne]
  · rw [hprev y (hsublist.subset hy), if_neg hne]

/-- Putting a new node in behind the root. -/
theorem Ring.pushFront {l : List α} {x : α} (h : Ring next prev root l)
    (hnodup : (root :: l).Nodup) (hx : x ∉ root :: l)
    (hnext : ∀ y ∈ x :: root :: l,
      next' y = if y = root then x else if y = x then next root else next y)
    (hprev : ∀ y ∈ x :: root :: l,
      prev' y = if y = next root then x else if y = x then root else prev y) :
    Ring next' prev' root (x :: l) := by
  have hroot := h.next_root
  rw [hroot] at hnext hprev
  have hne : x ≠ root := fun heq ↦ hx (heq ▸ List.mem_cons_self)
  have hhead : x ≠ ringHead root l := fun heq ↦ hx (heq ▸ ringHead_mem root l)
  have hempty : Ring next prev root ([] ++ [] ++ l) := h
  refine hempty.splice [x] hnodup ?_ (fun y hy hy' ↦ ?_)
    fun y hy hy' ↦ ?_
  · refine ⟨?_, ?_, ?_, ?_, trivial⟩
    · rw [ringLast, List.getLast?_nil, Option.getD_none, hnext root (by simp), if_pos rfl]
    · rw [hprev x (by simp), if_neg hhead, if_pos rfl]
      rfl
    · rw [hnext x (by simp), if_neg hne, if_pos rfl]
    · rw [hprev _ (List.mem_cons_of_mem _ (ringHead_mem root l)), if_pos rfl]
  · have hyx : y ≠ x := fun heq ↦ hx (heq ▸ hy)
    rw [hnext y (List.mem_cons_of_mem _ hy), if_neg (by exact hy'), if_neg hyx]
  · have hyx : y ≠ x := fun heq ↦ hx (heq ▸ hy)
    rw [hprev y (List.mem_cons_of_mem _ hy), if_neg hy', if_neg hyx]

/-- Letting a new node take the place of an old one. -/
theorem Ring.replace {front back : List α} {x z : α}
    (h : Ring next prev root (front ++ x :: back)) (hnodup : (root :: (front ++ x :: back)).Nodup)
    (hz : z ∉ root :: (front ++ x :: back))
    (hnext : ∀ y ∈ z :: root :: (front ++ x :: back),
      next' y = if y = prev x then z else if y = z then next x else next y)
    (hprev : ∀ y ∈ z :: root :: (front ++ x :: back),
      prev' y = if y = next x then z else if y = z then prev x else prev y) :
    Ring next' prev' root (front ++ z :: back) := by
  have hsublist : List.Sublist (root :: (front ++ back)) (root :: (front ++ x :: back)) :=
    ((List.sublist_cons_self x back).append_left front).cons_cons root
  obtain ⟨hnextx, hprevx⟩ := h.neighbours
  rw [hnextx, hprevx] at hnext hprev
  have hlast : ringLast root front ∈ root :: (front ++ x :: back) := ringLast_mem_append root _ _
  have hhead : ringHead root back ∈ root :: (front ++ x :: back) :=
    hsublist.subset (ringHead_mem_append root _ _)
  have hzlast : z ≠ ringLast root front := fun heq ↦ hz (heq ▸ hlast)
  have hzhead : z ≠ ringHead root back := fun heq ↦ hz (heq ▸ hhead)
  rw [← List.singleton_append, ← List.append_assoc] at h
  rw [← List.singleton_append, ← List.append_assoc]
  refine h.splice [z] (hnodup.sublist hsublist) ?_ (fun y hy hne ↦ ?_) fun y hy hne ↦ ?_
  · refine ⟨?_, ?_, ?_, ?_, trivial⟩
    · rw [hnext _ (List.mem_cons_of_mem _ hlast), if_pos rfl]
    · rw [hprev z List.mem_cons_self, if_neg hzhead, if_pos rfl]
    · rw [hnext z List.mem_cons_self, if_neg hzlast, if_pos rfl]
    · rw [hprev _ (List.mem_cons_of_mem _ hhead), if_pos rfl]
  · have hyz : y ≠ z := fun heq ↦ hz (heq ▸ hsublist.subset hy)
    rw [hnext y (List.mem_cons_of_mem _ (hsublist.subset hy)), if_neg hne, if_neg hyz]
  · have hyz : y ≠ z := fun heq ↦ hz (heq ▸ hsublist.subset hy)
    rw [hprev y (List.mem_cons_of_mem _ (hsublist.subset hy)), if_neg hne, if_neg hyz]

end Ring

/-! ### Families of rings -/

section Family

variable {next prev next' prev' : α → α} {valid : ι → Prop} {root : ι → α} {lists : ι → List α}

/-- Rings through distinct roots with no node in common, one for every valid index. -/
structure RingFamily (next prev : α → α) (valid : ι → Prop) (root : ι → α)
    (lists : ι → List α) : Prop where
  ring : ∀ i, valid i → Ring next prev (root i) (lists i)
  nodup : ∀ i, valid i → (root i :: lists i).Nodup
  disjoint : ∀ i j, valid i → valid j → i ≠ j →
    List.Disjoint (root i :: lists i) (root j :: lists j)

/-- A root or a node of some ring of the family. -/
def RingMember (valid : ι → Prop) (root : ι → α) (lists : ι → List α) (y : α) : Prop :=
  ∃ i, valid i ∧ y ∈ root i :: lists i

/-- A node lies on one ring only. -/
theorem RingFamily.index_unique (h : RingFamily next prev valid root lists) {i j : ι} {y : α}
    (hi : valid i) (hj : valid j) (hyi : y ∈ root i :: lists i) (hyj : y ∈ root j :: lists j) :
    i = j := by
  by_contra hne
  exact h.disjoint i j hi hj hne hyi hyj

/-- Rings read the links of their own nodes only. -/
theorem RingFamily.congr (h : RingFamily next prev valid root lists)
    (hnext : ∀ y, RingMember valid root lists y → next' y = next y)
    (hprev : ∀ y, RingMember valid root lists y → prev' y = prev y) :
    RingFamily next' prev' valid root lists where
  ring := fun i hi ↦ (h.ring i hi).congr (fun y hy ↦ hnext y ⟨i, hi, hy⟩)
    fun y hy ↦ hprev y ⟨i, hi, hy⟩
  nodup := h.nodup
  disjoint := h.disjoint

theorem RingFamily.neighbours_mem (h : RingFamily next prev valid root lists) {i : ι} {x : α}
    (hi : valid i) (hx : x ∈ lists i) :
    (next x ∈ root i :: lists i ∧ next x ≠ x) ∧ (prev x ∈ root i :: lists i ∧ prev x ≠ x) := by
  obtain ⟨front, back, hsplit⟩ := List.append_of_mem hx
  have hring := h.ring i hi
  have hnodup := h.nodup i hi
  rw [hsplit] at hring hnodup ⊢
  obtain ⟨hnext, hprev⟩ := hring.neighbours
  have hsublist : List.Sublist (root i :: (front ++ back)) (root i :: (front ++ x :: back)) :=
    ((List.sublist_cons_self x back).append_left front).cons_cons _
  have hfresh : x ∉ root i :: (front ++ back) := by
    have hperm : (x :: root i :: (front ++ back)).Nodup :=
      (show List.Perm ((root i :: front) ++ x :: back) _ from List.perm_middle).nodup_iff.mp hnodup
    exact (List.nodup_cons.mp hperm).1
  rw [hnext, hprev]
  exact ⟨⟨hsublist.subset (ringHead_mem_append _ _ _),
      fun heq ↦ hfresh (heq ▸ ringHead_mem_append _ _ _)⟩,
    ⟨hsublist.subset (ringLast_mem_append _ _ _),
      fun heq ↦ hfresh (heq ▸ ringLast_mem_append _ _ _)⟩⟩

/-- The links of a root or a node lead to roots or nodes. -/
theorem RingFamily.links_mem (h : RingFamily next prev valid root lists) {y : α}
    (hy : RingMember valid root lists y) :
    RingMember valid root lists (next y) ∧ RingMember valid root lists (prev y) := by
  obtain ⟨i, hi, hmem⟩ := hy
  rcases List.mem_cons.mp hmem with rfl | hmem
  · have hring := h.ring i hi
    exact ⟨⟨i, hi, hring.next_root ▸ ringHead_mem _ _⟩, i, hi, hring.prev_root ▸ ringLast_mem _ _⟩
  · obtain ⟨⟨hnext, -⟩, hprev, -⟩ := h.neighbours_mem hi hmem
    exact ⟨⟨i, hi, hnext⟩, i, hi, hprev⟩

variable [DecidableEq α]

/-- Taking a node out of the family. -/
theorem RingFamily.unlink (h : RingFamily next prev valid root lists) {i : ι} {x : α}
    (hi : valid i) (hx : x ∈ lists i)
    (hnext : ∀ y, RingMember valid root lists y →
      next' y = if y = prev x then next x else next y)
    (hprev : ∀ y, RingMember valid root lists y →
      prev' y = if y = next x then prev x else prev y) :
    RingFamily next' prev' valid root fun j ↦ (lists j).erase x := by
  obtain ⟨⟨hnextMem, -⟩, hprevMem, -⟩ := h.neighbours_mem hi hx
  have hsublist : ∀ j, List.Sublist (root j :: (lists j).erase x) (root j :: lists j) :=
    fun j ↦ List.erase_sublist.cons_cons _
  refine ⟨fun j hj ↦ ?_, fun j hj ↦ (h.nodup j hj).sublist (hsublist j), fun j k hj hk hne y hyj
    hyk ↦ h.disjoint j k hj hk hne ((hsublist j).subset hyj) ((hsublist k).subset hyk)⟩
  by_cases hij : j = i
  · subst hij
    obtain ⟨front, back, hsplit⟩ := List.append_of_mem hx
    have hring := h.ring j hj
    have hnodup := h.nodup j hj
    have hfront : x ∉ front := by
      rw [hsplit, List.nodup_cons] at hnodup
      exact fun hmem ↦ (List.nodup_append.mp hnodup.2).2.2 _ hmem _ List.mem_cons_self rfl
    have herase : (lists j).erase x = front ++ back := by
      rw [hsplit, List.erase_append_right _ hfront, List.erase_cons_head]
    rw [herase]
    rw [hsplit] at hring hnodup
    exact hring.unlink hnodup (fun y hy ↦ hnext y ⟨j, hj, hsplit ▸ hy⟩)
      fun y hy ↦ hprev y ⟨j, hj, hsplit ▸ hy⟩
  · have hout : ∀ y ∈ root j :: lists j, y ∉ root i :: lists i := fun y hy hy' ↦
      h.disjoint j i hj hi hij hy hy'
    have herase : (lists j).erase x = lists j :=
      List.erase_of_not_mem fun hmem ↦
        hout x (List.mem_cons_of_mem _ hmem) (List.mem_cons_of_mem _ hx)
    rw [herase]
    refine (h.ring j hj).congr (fun y hy ↦ ?_) fun y hy ↦ ?_
    · rw [hnext y ⟨j, hj, hy⟩, if_neg]
      exact fun heq ↦ hout y hy (heq ▸ hprevMem)
    · rw [hprev y ⟨j, hj, hy⟩, if_neg]
      exact fun heq ↦ hout y hy (heq ▸ hnextMem)

/-- Putting a new node in at the front of one ring. -/
theorem RingFamily.pushFront [DecidableEq ι] (h : RingFamily next prev valid root lists) {i : ι}
    {x : α} (hi : valid i) (hx : ¬ RingMember valid root lists x)
    (hnext : ∀ y, y = x ∨ RingMember valid root lists y →
      next' y = if y = root i then x else if y = x then next (root i) else next y)
    (hprev : ∀ y, y = x ∨ RingMember valid root lists y →
      prev' y = if y = next (root i) then x else if y = x then root i else prev y) :
    RingFamily next' prev' valid root (Function.update lists i (x :: lists i)) := by
  have hfresh : ∀ j, valid j → x ∉ root j :: lists j := fun j hj hmem ↦ hx ⟨j, hj, hmem⟩
  have hnextRoot : next (root i) ∈ root i :: lists i := by
    rw [(h.ring i hi).next_root]
    exact ringHead_mem _ _
  have hmember : ∀ j, valid j → ∀ y ∈ root j :: Function.update lists i (x :: lists i) j,
      (j = i ∧ y = x) ∨ y ∈ root j :: lists j := by
    intro j hj y hy
    by_cases hij : j = i
    · subst hij
      rw [Function.update_self] at hy
      rcases List.mem_cons.mp hy with rfl | hy
      · exact Or.inr List.mem_cons_self
      · rcases List.mem_cons.mp hy with rfl | hy
        · exact Or.inl ⟨rfl, rfl⟩
        · exact Or.inr (List.mem_cons_of_mem _ hy)
    · rw [Function.update_of_ne hij] at hy
      exact Or.inr hy
  refine ⟨fun j hj ↦ ?_, fun j hj ↦ ?_, fun j k hj hk hne y hyj hyk ↦ ?_⟩
  · by_cases hij : j = i
    · subst hij
      rw [Function.update_self]
      refine (h.ring j hj).pushFront (h.nodup j hj) (hfresh j hj) (fun y hy ↦ ?_) fun y hy ↦ ?_
      · exact hnext y ((List.mem_cons.mp hy).imp_right fun hmem ↦ ⟨j, hj, hmem⟩)
      · exact hprev y ((List.mem_cons.mp hy).imp_right fun hmem ↦ ⟨j, hj, hmem⟩)
    · rw [Function.update_of_ne hij]
      have hout : ∀ y ∈ root j :: lists j, y ∉ root i :: lists i := fun y hy hy' ↦
        h.disjoint j i hj hi hij hy hy'
      refine (h.ring j hj).congr (fun y hy ↦ ?_) fun y hy ↦ ?_
      · rw [hnext y (Or.inr ⟨j, hj, hy⟩), if_neg, if_neg]
        · exact fun heq ↦ hfresh j hj (heq ▸ hy)
        · exact fun heq ↦ hout y hy (heq ▸ List.mem_cons_self)
      · rw [hprev y (Or.inr ⟨j, hj, hy⟩), if_neg, if_neg]
        · exact fun heq ↦ hfresh j hj (heq ▸ hy)
        · exact fun heq ↦ hout y hy (heq ▸ hnextRoot)
  · by_cases hij : j = i
    · subst hij
      rw [Function.update_self]
      refine (List.Perm.swap x (root j) (lists j)).nodup_iff.mpr ?_
      exact List.nodup_cons.mpr ⟨hfresh j hj, h.nodup j hj⟩
    · rw [Function.update_of_ne hij]
      exact h.nodup j hj
  · rcases hmember j hj y hyj with ⟨hji, hjx⟩ | hyj
    · rcases hmember k hk y hyk with ⟨hki, -⟩ | hyk
      · exact hne (hji.trans hki.symm)
      · exact hfresh k hk (hjx ▸ hyk)
    · rcases hmember k hk y hyk with ⟨-, hkx⟩ | hyk
      · exact hfresh j hj (hkx ▸ hyj)
      · exact h.disjoint j k hj hk hne hyj hyk

/-- A list in which one node has been exchanged for another. -/
def exchange (x z : α) (l : List α) : List α := l.map fun y ↦ if y = x then z else y

theorem exchange_of_notMem {x z : α} {l : List α} (hx : x ∉ l) : exchange x z l = l := by
  unfold exchange
  conv_rhs => rw [← List.map_id l]
  refine List.map_congr_left fun y hy ↦ if_neg ?_
  rintro rfl
  exact hx hy

theorem mem_exchange {x z y : α} {l : List α} :
    y ∈ exchange x z l ↔ (x ∈ l ∧ y = z) ∨ (y ∈ l ∧ y ≠ x) := by
  unfold exchange
  rw [List.mem_map]
  constructor
  · rintro ⟨w, hw, rfl⟩
    by_cases hwx : w = x
    · subst hwx
      exact Or.inl ⟨hw, if_pos rfl⟩
    · rw [if_neg hwx]
      exact Or.inr ⟨hw, hwx⟩
  · rintro (⟨hx, rfl⟩ | ⟨hy, hne⟩)
    · exact ⟨x, hx, if_pos rfl⟩
    · exact ⟨y, hy, if_neg hne⟩

/-- Letting a new node take the place of an old one in the family. -/
theorem RingFamily.replace (h : RingFamily next prev valid root lists) {i : ι} {x z : α}
    (hi : valid i) (hx : x ∈ lists i) (hz : ¬ RingMember valid root lists z)
    (hnext : ∀ y, y = z ∨ RingMember valid root lists y →
      next' y = if y = prev x then z else if y = z then next x else next y)
    (hprev : ∀ y, y = z ∨ RingMember valid root lists y →
      prev' y = if y = next x then z else if y = z then prev x else prev y) :
    RingFamily next' prev' valid root fun j ↦ exchange x z (lists j) := by
  have hfresh : ∀ j, valid j → z ∉ root j :: lists j := fun j hj hmem ↦ hz ⟨j, hj, hmem⟩
  obtain ⟨⟨hnextMem, -⟩, hprevMem, -⟩ := h.neighbours_mem hi hx
  have hother : ∀ j, valid j → j ≠ i → exchange x z (lists j) = lists j := fun j hj hji ↦
    exchange_of_notMem fun hmem ↦ h.disjoint j i hj hi hji (List.mem_cons_of_mem _ hmem)
      (List.mem_cons_of_mem _ hx)
  have hmember : ∀ j, valid j → ∀ y ∈ root j :: exchange x z (lists j),
      (j = i ∧ y = z) ∨ y ∈ root j :: lists j := by
    intro j hj y hy
    rcases List.mem_cons.mp hy with rfl | hy
    · exact Or.inr List.mem_cons_self
    · rcases mem_exchange.mp hy with ⟨hxj, rfl⟩ | ⟨hyj, -⟩
      · exact Or.inl ⟨h.index_unique hj hi (List.mem_cons_of_mem _ hxj)
          (List.mem_cons_of_mem _ hx), rfl⟩
      · exact Or.inr (List.mem_cons_of_mem _ hyj)
  refine ⟨fun j hj ↦ ?_, fun j hj ↦ ?_, fun j k hj hk hne y hyj hyk ↦ ?_⟩
  · by_cases hij : j = i
    · subst hij
      obtain ⟨front, back, hsplit⟩ := List.append_of_mem hx
      have hring := h.ring j hj
      have hnodup := h.nodup j hj
      have hzj := hfresh j hj
      have hxout : x ∉ front ∧ x ∉ back := by
        rw [hsplit, List.nodup_cons] at hnodup
        obtain ⟨-, hback, hapart⟩ := List.nodup_append.mp hnodup.2
        exact ⟨fun hmem ↦ hapart _ hmem _ List.mem_cons_self rfl, (List.nodup_cons.mp hback).1⟩
      have hexchange : exchange x z (lists j) = front ++ z :: back := by
        have hfront := exchange_of_notMem (z := z) hxout.1
        have hback := exchange_of_notMem (z := z) hxout.2
        unfold exchange at hfront hback ⊢
        rw [hsplit, List.map_append, List.map_cons, hfront, hback, if_pos rfl]
      rw [hexchange]
      rw [hsplit] at hring hnodup hzj
      refine hring.replace hnodup hzj (fun y hy ↦ ?_) fun y hy ↦ ?_
      · exact hnext y ((List.mem_cons.mp hy).imp_right fun hmem ↦ ⟨j, hj, hsplit ▸ hmem⟩)
      · exact hprev y ((List.mem_cons.mp hy).imp_right fun hmem ↦ ⟨j, hj, hsplit ▸ hmem⟩)
    · rw [hother j hj hij]
      have hout : ∀ y ∈ root j :: lists j, y ∉ root i :: lists i := fun y hy hy' ↦
        h.disjoint j i hj hi hij hy hy'
      refine (h.ring j hj).congr (fun y hy ↦ ?_) fun y hy ↦ ?_
      · rw [hnext y (Or.inr ⟨j, hj, hy⟩), if_neg, if_neg]
        · exact fun heq ↦ hfresh j hj (heq ▸ hy)
        · exact fun heq ↦ hout y hy (heq ▸ hprevMem)
      · rw [hprev y (Or.inr ⟨j, hj, hy⟩), if_neg, if_neg]
        · exact fun heq ↦ hfresh j hj (heq ▸ hy)
        · exact fun heq ↦ hout y hy (heq ▸ hnextMem)
  · have hnodup := List.nodup_cons.mp (h.nodup j hj)
    have hzj := hfresh j hj
    refine List.nodup_cons.mpr ⟨fun hmem ↦ ?_, ?_⟩
    · rcases mem_exchange.mp hmem with ⟨-, heq⟩ | ⟨hroot, -⟩
      · exact hzj (heq ▸ List.mem_cons_self)
      · exact hnodup.1 hroot
    · refine hnodup.2.map_on fun a ha b hb hab ↦ ?_
      have haz : a ≠ z := fun heq ↦ hzj (heq ▸ List.mem_cons_of_mem _ ha)
      have hbz : b ≠ z := fun heq ↦ hzj (heq ▸ List.mem_cons_of_mem _ hb)
      split_ifs at hab with hax hbx hbx
      · rw [hax, hbx]
      · exact absurd hab.symm hbz
      · exact absurd hab haz
      · exact hab
  · rcases hmember j hj y hyj with ⟨hji, hjx⟩ | hyj
    · rcases hmember k hk y hyk with ⟨hki, -⟩ | hyk
      · exact hne (hji.trans hki.symm)
      · exact hfresh k hk (hjx ▸ hyk)
    · rcases hmember k hk y hyk with ⟨-, hkx⟩ | hyk
      · exact hfresh j hj (hkx ▸ hyj)
      · exact h.disjoint j k hj hk hne hyj hyk

end Family

end SystemProgramming.Library
