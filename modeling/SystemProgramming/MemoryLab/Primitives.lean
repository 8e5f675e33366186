import SystemProgramming.MemoryLab.View

/-!
# The primitives of the allocator, from view to view

`set_boundary_tag` adds a block to a view, `insert_block` files an address, `remove_from_list`
unfiles one, and the four link writes in `place` let an address take the place of another in its
list (`relinkRest`). Each is stated with the rest of the computation as `Q`, so that the proof of an
operation runs through its primitives in order. All of them change bytes only.
-/

set_option autoImplicit false
set_option relaxedAutoImplicit false

namespace SystemProgramming.MemoryLab

open Library

/-- What `insert_block` writes. -/
def linkFront (m : ByteMemory) (root x : Nat) : ByteMemory :=
  putWord (putWord (putWord (putWord m (x + 4) root) x (wordAt m root)) (wordAt m root + 4) x) root x

/-- The first link of an address after `insert_block`. -/
theorem next_linkFront {m : ByteMemory} {root x y : Nat} (hmod : root % 8 = 0 ∧ x % 8 = 0)
    (hfirst : wordAt m root % 8 = 0) (hlt : root < 2 ^ 32 ∧ x < 2 ^ 32) (hy : y % 8 = 0) :
    wordAt (linkFront m root x) y =
      if y = root then x else if y = x then wordAt m root else wordAt m y := by
  have hltf := wordAt_lt m root
  rw [linkFront, wordAt_putWord _ (by omega) (by omega) hlt.2]
  by_cases hyroot : y = root
  · rw [if_pos hyroot, if_pos hyroot]
  · rw [if_neg hyroot, if_neg hyroot, wordAt_putWord _ (by omega) (by omega) hlt.2,
      if_neg (by omega), wordAt_putWord _ (by omega) (by omega) hltf]
    by_cases hyx : y = x
    · rw [if_pos hyx, if_pos hyx]
    · rw [if_neg hyx, if_neg hyx, wordAt_putWord _ (by omega) (by omega) hlt.1, if_neg (by omega)]

/-- The second link of an address after `insert_block`. -/
theorem prev_linkFront {m : ByteMemory} {root x y : Nat} (hmod : root % 8 = 0 ∧ x % 8 = 0)
    (hfirst : wordAt m root % 8 = 0) (hlt : root < 2 ^ 32 ∧ x < 2 ^ 32) (hy : y % 8 = 0) :
    wordAt (linkFront m root x) (y + 4) =
      if y = wordAt m root then x else if y = x then root else wordAt m (y + 4) := by
  have hltf := wordAt_lt m root
  rw [linkFront, wordAt_putWord _ (by omega) (by omega) hlt.2, if_neg (by omega),
    wordAt_putWord _ (by omega) (by omega) hlt.2]
  by_cases hyfirst : y = wordAt m root
  · rw [if_pos (by omega), if_pos hyfirst]
  · rw [if_neg (by omega), if_neg hyfirst, wordAt_putWord _ (by omega) (by omega) hltf,
      if_neg (by omega), wordAt_putWord _ (by omega) (by omega) hlt.1]
    by_cases hyx : y = x
    · rw [if_pos (by omega), if_pos hyx]
    · rw [if_neg (by omega), if_neg hyx]

namespace View

variable {h : Heap} {limit : Nat} {epi : Bool} {B : List Block} {L : Filing} {K : Nat → Prop}
  {f : ByteMemory}

/-! ### Link words in a heap whose bytes have changed -/

theorem nextFree_store (hv : View h limit epi B L K f) {y : Nat}
    (hy : Linkable h.memStartBrk limit B K y) (m : ByteMemory) (Q : Nat → Heap → Prop) :
    Returns (nextFree y) (h.store m) Q ↔ Q (wordAt m y) (h.store m) := by
  obtain ⟨-, hlow, hhigh⟩ := hv.linkable_bounds hy
  exact returns_getWord_store (hv.inArena hlow (by omega)) m Q

theorem prevFree_store (hv : View h limit epi B L K f) {y : Nat}
    (hy : Linkable h.memStartBrk limit B K y) (m : ByteMemory) (Q : Nat → Heap → Prop) :
    Returns (prevFree y) (h.store m) Q ↔ Q (wordAt m (y + 4)) (h.store m) := by
  obtain ⟨-, hlow, hhigh⟩ := hv.linkable_bounds hy
  rw [prevFree, hv.addWord_wsize hy]
  exact returns_getWord_store (hv.inArena (by omega) (by omega)) m Q

theorem setNextF_store (hv : View h limit epi B L K f) {y : Nat}
    (hy : Linkable h.memStartBrk limit B K y) (v : Nat) (m : ByteMemory)
    (Q : Unit → Heap → Prop) :
    Returns (setNextF y v) (h.store m) Q ↔ Q () (h.store (putWord m y v)) := by
  obtain ⟨-, hlow, hhigh⟩ := hv.linkable_bounds hy
  exact returns_putWordAt_store (hv.inArena hlow (by omega)) v m Q

theorem setPrevF_store (hv : View h limit epi B L K f) {y : Nat}
    (hy : Linkable h.memStartBrk limit B K y) (v : Nat) (m : ByteMemory)
    (Q : Unit → Heap → Prop) :
    Returns (setPrevF y v) (h.store m) Q ↔ Q () (h.store (putWord m (y + 4) v)) := by
  obtain ⟨-, hlow, hhigh⟩ := hv.linkable_bounds hy
  rw [setPrevF, hv.addWord_wsize hy]
  exact returns_putWordAt_store (hv.inArena (by omega) (by omega)) v m Q

theorem getClassRoot_store (hv : View h limit epi B L K f) {c : Nat} (hc : c < sizeClassNum)
    (m : ByteMemory) (Q : Nat → Heap → Prop) :
    Returns (getClassRoot c) (h.store m) Q ↔ Q (classRoot h.memStartBrk c) (h.store m) := by
  have hfirst := hv.geometry.first_le
  have hlt := hv.geometry.limit_lt
  unfold firstBlock at hfirst
  unfold sizeClassNum at hc
  have hroot : addWord (h.store m).sizeClassP (dsize * c) = classRoot h.memStartBrk c := by
    change addWord h.sizeClassP (dsize * c) = _
    rw [hv.sizeClassP_eq, addWord_of_lt (by unfold dsize; omega)]
    rfl
  simp only [getClassRoot, returns_bind, returns_get, returns_pure, hroot]

/-- New links over the same tags. -/
theorem relink (hv : View h limit epi B L K f) {m : ByteMemory} {L' : Filing}
    (ht : Tagged h.memStartBrk limit epi m B K f) (hl : Linked h.memStartBrk m L')
    (hnode : ∀ x, Filed L' x → firstBlock h.memStartBrk ≤ x ∧
      Linkable h.memStartBrk limit B K x) : View (h.store m) limit epi B L' K f where
  arena := hv.arena.store m
  sizeClassP_eq := hv.sizeClassP_eq
  prologue_eq := hv.prologue_eq
  limit_le := hv.limit_le
  geometry := by
    refine { hv.geometry with node := fun x hx ↦ ?_, apart := fun x hx ↦ ?_ }
    · obtain ⟨hlow, hmod, hplace, -⟩ := hnode x hx
      have hbound : firstBlock h.memStartBrk = h.memStartBrk + 272 := rfl
      exact ⟨hmod, hlow, by omega⟩
    · obtain ⟨hlow, -, hplace, -⟩ := hnode x hx
      have hbound : firstBlock h.memStartBrk = h.memStartBrk + 272 := rfl
      rcases hplace with hroot | ⟨-, -, hB⟩
      · omega
      · exact hB
  tagged := ht
  linked := hl
  spared := fun a ha x hx ↦ (hnode x hx).2.2.2 a ha

/-! ### Lists -/

/-- `remove_from_list` of a filed address. -/
theorem removeFromList (hv : View h limit epi B L K f) {x : Nat} (hx : Filed L x)
    {Q : Unit → Heap → Prop}
    (hQ : ∀ m, View (h.store m) limit epi B (unfile L x) K f → Q () (h.store m)) :
    Returns (MemoryLab.removeFromList x) h Q := by
  obtain ⟨c, hc, hxc⟩ := hx
  obtain ⟨⟨hnextMem, -⟩, hprevMem, hprevNe⟩ := hv.linked.neighbours_mem hc hxc
  have hlx := hv.linkable_of_filed ⟨c, hc, hxc⟩
  have hln := hv.linkable ⟨c, hc, hnextMem⟩
  have hlp := hv.linkable ⟨c, hc, hprevMem⟩
  have hmodx := (hv.linkable_bounds hlx).1
  have hmodn := (hv.linkable_bounds hln).1
  have hmodp := (hv.linkable_bounds hlp).1
  have hltn := wordAt_lt h.bytes x
  have hltp := wordAt_lt h.bytes (x + 4)
  -- the two links of `x` itself are not among the words written
  have hreadNext : wordAt (putWord h.bytes (wordAt h.bytes (x + 4)) (wordAt h.bytes x)) x =
      wordAt h.bytes x := by
    rw [wordAt_putWord _ (by omega) (by omega) hltn, if_neg (Ne.symm hprevNe)]
  have hreadPrev : wordAt (putWord h.bytes (wordAt h.bytes (x + 4)) (wordAt h.bytes x)) (x + 4) =
      wordAt h.bytes (x + 4) := by
    rw [wordAt_putWord _ (by omega) (by omega) hltn, if_neg (by omega)]
  change Returns (MemoryLab.removeFromList x) (h.store h.bytes) Q
  simp only [MemoryLab.removeFromList, returns_bind, hv.prevFree_store hlx,
    hv.nextFree_store hlx, hv.setNextF_store hlp, hreadNext, hreadPrev, hv.setPrevF_store hln]
  refine hQ _ (hv.relink ?_ ?_ fun y hy ↦ ?_)
  · exact (hv.tagged.putLink hv.geometry _ hlp (Or.inl rfl)).putLink hv.geometry _ hln
      (Or.inr rfl)
  · refine hv.linked.unlink hc hxc (fun y hy ↦ ?_) fun y hy ↦ ?_
    · have hmody := (hv.linkable_bounds (hv.linkable hy)).1
      rw [wordAt_putWord _ (by omega) (by omega) hltp, if_neg (by omega),
        wordAt_putWord _ (by omega) (by omega) hltn]
    · have hmody := (hv.linkable_bounds (hv.linkable hy)).1
      rw [wordAt_putWord _ (by omega) (by omega) hltp]
      by_cases hyn : y = wordAt h.bytes x
      · rw [if_pos (by omega), if_pos hyn]
      · rw [if_neg (by omega), if_neg hyn, wordAt_putWord _ (by omega) (by omega) hltn,
          if_neg (by omega)]
  · have hfiled := ((filed_unfile hv.simple).mp hy).1
    exact ⟨(hv.geometry.node y hfiled).2.1, hv.linkable_of_filed hfiled⟩

/-- An address that may hold links and lies among the blocks is no root. -/
theorem not_ringMember {base x : Nat} (hlow : firstBlock base ≤ x) (hx : ¬ Filed L x) :
    ¬ RingMember (· < sizeClassNum) (classRoot base) L x := by
  rintro ⟨c, hc, hmem⟩
  rcases List.mem_cons.mp hmem with rfl | hmem
  · unfold firstBlock classRoot at hlow
    have hc' : c < 32 := hc
    omega
  · exact hx ⟨c, hc, hmem⟩

/-- `insert_block` of any address that may hold links. -/
theorem returns_insertBlock (hv : View h limit epi B L K f) {x : Nat} (asize : Nat)
    (hlow : firstBlock h.memStartBrk ≤ x) (hlx : Linkable h.memStartBrk limit B K x)
    (m : ByteMemory) (hlfirst : Linkable h.memStartBrk limit B K
      (wordAt m (classRoot h.memStartBrk (getSizeClass asize)))) (Q : Unit → Heap → Prop) :
    Returns (MemoryLab.insertBlock x asize) (h.store m) Q ↔
      Q () (h.store (linkFront m (classRoot h.memStartBrk (getSizeClass asize)) x)) := by
  have hc := getSizeClass_lt asize
  have hlroot := hv.linkable_of_root hc
  have hxroot : x ≠ classRoot h.memStartBrk (getSizeClass asize) := by
    unfold sizeClassNum at hc
    unfold firstBlock at hlow
    unfold classRoot
    omega
  generalize hroot : classRoot h.memStartBrk (getSizeClass asize) = root at *
  obtain ⟨hmodx, -, hhighx⟩ := hv.linkable_bounds hlx
  obtain ⟨hmodr, -, hhighr⟩ := hv.linkable_bounds hlroot
  have hlt := hv.geometry.limit_lt
  have hltf := wordAt_lt m root
  have hread₁ : wordAt (putWord m (x + 4) root) root = wordAt m root := by
    rw [wordAt_putWord _ (by omega) (by omega) (by omega), if_neg (by omega)]
  have hread₂ : wordAt (putWord (putWord m (x + 4) root) x (wordAt m root)) root =
      wordAt m root := by
    rw [wordAt_putWord _ (by omega) (by omega) hltf, if_neg (Ne.symm hxroot), hread₁]
  simp only [MemoryLab.insertBlock, returns_bind, hv.getClassRoot_store hc, hroot,
    hv.setPrevF_store hlx, hv.nextFree_store hlroot, hread₁, hv.setNextF_store hlx, hread₂,
    hv.setPrevF_store hlfirst, hv.setNextF_store hlroot]
  rfl

/-- `insert_block` leaves the tags alone. -/
theorem tagged_linkFront (hv : View h limit epi B L K f) {x root : Nat}
    (hlx : Linkable h.memStartBrk limit B K x) (hlroot : Linkable h.memStartBrk limit B K root)
    {m : ByteMemory} (ht : Tagged h.memStartBrk limit epi m B K f)
    (hlfirst : Linkable h.memStartBrk limit B K (wordAt m root)) :
    Tagged h.memStartBrk limit epi (linkFront m root x) B K f :=
  (((ht.putLink hv.geometry _ hlx (Or.inr rfl)).putLink hv.geometry _ hlx
    (Or.inl rfl)).putLink hv.geometry _ hlfirst (Or.inr rfl)).putLink hv.geometry _ hlroot
    (Or.inl rfl)

/-- The first node of a class list, or its root, may hold links. -/
theorem linkable_first (hv : View h limit epi B L K f) {c : Nat} (hc : c < sizeClassNum) :
    Linkable h.memStartBrk limit B K (wordAt h.bytes (classRoot h.memStartBrk c)) := by
  have hnext := (hv.linked.ring c hc).next_root
  exact hv.linkable ⟨c, hc, hnext ▸ ringHead_mem _ _⟩

/-- `insert_block` of an address that is not filed. -/
theorem insertBlock (hv : View h limit epi B L K f) {x : Nat} (asize : Nat)
    (hlow : firstBlock h.memStartBrk ≤ x) (hlx : Linkable h.memStartBrk limit B K x)
    (hx : ¬ Filed L x) {Q : Unit → Heap → Prop}
    (hQ : ∀ m, View (h.store m) limit epi B (fileUnder L (getSizeClass asize) x) K f →
      Q () (h.store m)) :
    Returns (MemoryLab.insertBlock x asize) h Q := by
  have hc := getSizeClass_lt asize
  have hfresh := not_ringMember hlow hx
  have hlroot := hv.linkable_of_root hc
  have hlfirst := hv.linkable_first hc
  obtain ⟨hmodx, -, hhighx⟩ := hv.linkable_bounds hlx
  obtain ⟨hmodr, -, hhighr⟩ := hv.linkable_bounds hlroot
  have hmodf := (hv.linkable_bounds hlfirst).1
  have hlt := hv.geometry.limit_lt
  change Returns (MemoryLab.insertBlock x asize) (h.store h.bytes) Q
  rw [hv.returns_insertBlock asize hlow hlx h.bytes hlfirst]
  refine hQ _ (hv.relink (hv.tagged_linkFront hlx hlroot hv.tagged hlfirst) ?_ fun y hy ↦ ?_)
  · have hmod : ∀ y, y = x ∨ RingMember (· < sizeClassNum) (classRoot h.memStartBrk) L y →
        y % 8 = 0 := by
      rintro y (rfl | hy)
      · exact hmodx
      · exact (hv.linkable_bounds (hv.linkable hy)).1
    refine hv.linked.pushFront hc hfresh (fun y hy ↦ ?_) fun y hy ↦ ?_
    · exact next_linkFront ⟨hmodr, hmodx⟩ hmodf ⟨by omega, by omega⟩ (hmod y hy)
    · exact prev_linkFront ⟨hmodr, hmodx⟩ hmodf ⟨by omega, by omega⟩ (hmod y hy)
  · rcases (filed_fileUnder hc).mp hy with rfl | hfiled
    · exact ⟨hlow, hlx⟩
    · exact ⟨(hv.geometry.node y hfiled).2.1, hv.linkable_of_filed hfiled⟩

theorem returns_nextBlkp_store (hv : View h limit epi B L K f) {b : Block} (hb : b ∈ B)
    {m : ByteMemory} (ht : Tagged h.memStartBrk limit epi m B K f) (Q : Nat → Heap → Prop) :
    Returns (nextBlkp b.addr) (h.store m) Q ↔ Q (b.addr + b.size) (h.store m) :=
  (Geometry.headed (h := h.store m) hv.geometry hv.limit_le ht hb).nextBlkp Q

/-- The address behind a block takes the block's place in its list. -/
theorem relinkRest (hv : View h limit epi B L K f) {b : Block} (hb : b ∈ B)
    (hfiled : Filed L b.addr) (hlow : firstBlock h.memStartBrk ≤ b.addr + b.size)
    (hlz : Linkable h.memStartBrk limit B K (b.addr + b.size)) (hz : ¬ Filed L (b.addr + b.size))
    {Q : Unit → Heap → Prop}
    (hQ : ∀ m, View (h.store m) limit epi B (refile L b.addr (b.addr + b.size)) K f →
      Q () (h.store m)) :
    Returns (MemoryLab.relinkRest b.addr) h Q := by
  obtain ⟨c, hc, hxc⟩ := hfiled
  obtain ⟨⟨hnextMem, -⟩, hprevMem, hprevNe⟩ := hv.linked.neighbours_mem hc hxc
  have hfresh := not_ringMember hlow hz
  have hlx := hv.linkable_of_filed ⟨c, hc, hxc⟩
  have hln := hv.linkable ⟨c, hc, hnextMem⟩
  have hlp := hv.linkable ⟨c, hc, hprevMem⟩
  have hblock := hv.geometry.block b hb
  have hrest := fun m ht Q ↦ hv.returns_nextBlkp_store hb (m := m) ht Q
  have hfiledRefile := fun y ↦ filed_refile (y := y) (z := b.addr + b.size) ⟨c, hc, hxc⟩
  have hznext : b.addr + b.size ≠ wordAt h.bytes b.addr := fun heq ↦
    hfresh ⟨c, hc, heq ▸ hnextMem⟩
  have hzprev : b.addr + b.size ≠ wordAt h.bytes (b.addr + 4) := fun heq ↦
    hfresh ⟨c, hc, heq ▸ hprevMem⟩
  generalize hx : b.addr = x at *
  generalize hzdef : x + b.size = z at *
  have hmodx := (hv.linkable_bounds hlx).1
  obtain ⟨hmodz, -, hhighz⟩ := hv.linkable_bounds hlz
  have hmodn := (hv.linkable_bounds hln).1
  have hmodp := (hv.linkable_bounds hlp).1
  have hlt := hv.geometry.limit_lt
  have hltn := wordAt_lt h.bytes x
  have hltp := wordAt_lt h.bytes (x + 4)
  generalize hnext : wordAt h.bytes x = next at *
  generalize hprev : wordAt h.bytes (x + 4) = prev at *
  -- the four memories, each with the tags of the view and the links of `x`
  have ht₁ := hv.tagged.putLink hv.geometry prev hlz (Or.inr rfl)
  have ht₂ := ht₁.putLink hv.geometry next hlz (Or.inl rfl)
  have ht₃ := ht₂.putLink hv.geometry z hlp (Or.inl rfl)
  have ht₄ := ht₃.putLink hv.geometry z hln (Or.inr rfl)
  have hnext₁ : wordAt (putWord h.bytes (z + 4) prev) x = next := by
    rw [wordAt_putWord _ (by omega) (by omega) hltp, if_neg (by omega), hnext]
  have hprev₂ : wordAt (putWord (putWord h.bytes (z + 4) prev) z next) (x + 4) = prev := by
    rw [wordAt_putWord _ (by omega) (by omega) hltn, if_neg (by omega),
      wordAt_putWord _ (by omega) (by omega) hltp, if_neg (by omega), hprev]
  have hnext₃ : wordAt (putWord (putWord (putWord h.bytes (z + 4) prev) z next) prev z) x =
      next := by
    rw [wordAt_putWord _ (by omega) (by omega) (by omega), if_neg (Ne.symm hprevNe),
      wordAt_putWord _ (by omega) (by omega) hltn, if_neg (by omega), hnext₁]
  change Returns (MemoryLab.relinkRest x) (h.store h.bytes) Q
  simp only [MemoryLab.relinkRest, returns_bind, hrest _ hv.tagged, hv.prevFree_store hlx, hprev,
    hv.setPrevF_store hlz, hrest _ ht₁, hv.nextFree_store hlx, hnext₁, hv.setNextF_store hlz,
    hprev₂, hrest _ ht₂, hv.setNextF_store hlp, hnext₃, hrest _ ht₃, hv.setPrevF_store hln]
  refine hQ _ (hv.relink ht₄ ?_ fun y hy ↦ ?_)
  · have hmod : ∀ y, y = z ∨ RingMember (· < sizeClassNum) (classRoot h.memStartBrk) L y →
        y % 8 = 0 := by
      rintro y (rfl | hy)
      · exact hmodz
      · exact (hv.linkable_bounds (hv.linkable hy)).1
    refine hv.linked.replace hc hxc hfresh (fun y hy ↦ ?_) fun y hy ↦ ?_
    · have hmody := hmod y hy
      rw [hnext, hprev, wordAt_putWord _ (by omega) (by omega) (by omega), if_neg (by omega),
        wordAt_putWord _ (by omega) (by omega) (by omega)]
      by_cases hyp : y = prev
      · rw [if_pos hyp, if_pos hyp]
      · rw [if_neg hyp, if_neg hyp, wordAt_putWord _ (by omega) (by omega) hltn]
        by_cases hyz : y = z
        · rw [if_pos hyz, if_pos hyz]
        · rw [if_neg hyz, if_neg hyz, wordAt_putWord _ (by omega) (by omega) hltp,
            if_neg (by omega)]
    · have hmody := hmod y hy
      rw [hnext, hprev, wordAt_putWord _ (by omega) (by omega) (by omega)]
      by_cases hyn : y = next
      · rw [if_pos (by omega), if_pos hyn]
      · rw [if_neg (by omega), if_neg hyn, wordAt_putWord _ (by omega) (by omega) (by omega),
          if_neg (by omega), wordAt_putWord _ (by omega) (by omega) hltn, if_neg (by omega),
          wordAt_putWord _ (by omega) (by omega) hltp]
        by_cases hyz : y = z
        · rw [if_pos (by omega), if_pos hyz]
        · rw [if_neg (by omega), if_neg hyz]
  · rcases (hfiledRefile y).mp hy with rfl | ⟨hfiled, -⟩
    · exact ⟨hlow, hlz⟩
    · exact ⟨(hv.geometry.node y hfiled).2.1, hv.linkable_of_filed hfiled⟩

/-! ### Tags -/

/-- A view without some of its blocks. -/
theorem forget {front back : List Block} (middle : List Block)
    (hv : View h limit epi (front ++ middle ++ back) L K f) :
    View h limit epi (front ++ back) L K f := by
  have hsublist : List.Sublist (front ++ back) (front ++ middle ++ back) :=
    (List.sublist_append_left front middle).append_right back
  have hmem : ∀ b ∈ front ++ back, b ∈ front ++ middle ++ back := fun b hb ↦ hsublist.subset hb
  refine { hv with geometry := ?_, tagged := ?_ }
  · exact { hv.geometry with
      block := fun b hb ↦ hv.geometry.block b (hmem b hb)
      sorted := hv.geometry.sorted.sublist hsublist
      apart := fun x hx b hb ↦ hv.geometry.apart x hx b (hmem b hb) }
  · exact { hv.tagged with
      header := fun b hb ↦ hv.tagged.header b (hmem b hb)
      footer := fun b hb ↦ hv.tagged.footer b (hmem b hb) }

/-- A word of which the view says nothing may be written. -/
theorem putClear (hv : View h limit epi B L K f) {p : Nat} (v : Nat)
    (hlow : h.memStartBrk + 268 ≤ p) (hhigh : p + 8 ≤ limit)
    (hB : ∀ b ∈ B, (p + 4 ≤ b.addr - 4 ∨ b.addr ≤ p) ∧
      (p + 4 ≤ b.addr + b.size - 8 ∨ b.addr + b.size - 4 ≤ p))
    (hL : ∀ x, Filed L x → p + 4 ≤ x ∨ x + 8 ≤ p) (hK : ∀ a, K a → a < p ∨ p + 4 ≤ a) :
    View (h.store (putWord h.bytes p v)) limit epi B L K f where
  arena := hv.arena.store _
  sizeClassP_eq := hv.sizeClassP_eq
  prologue_eq := hv.prologue_eq
  limit_le := hv.limit_le
  geometry := hv.geometry
  tagged := hv.tagged.put v
    (fun b hb ↦ by
      have hclear := hB b hb
      have hblock := hv.geometry.block b hb
      unfold firstBlock at hblock
      omega)
    (by omega) (fun _ ↦ by omega) hK
  linked := by
    have hlinks : ∀ y, RingMember (· < sizeClassNum) (classRoot h.memStartBrk) L y →
        p + 4 ≤ y ∨ y + 8 ≤ p := by
      rintro y ⟨c, hc, hmem⟩
      rcases List.mem_cons.mp hmem with rfl | hmem
      · have hc' : c < 32 := hc
        unfold classRoot
        omega
      · exact hL y ⟨c, hc, hmem⟩
    refine hv.linked.congr (fun y hy ↦ ?_) fun y hy ↦ ?_
    · have hy' := hlinks y hy
      exact wordAt_putWord_of_apart _ _ (by omega)
    · have hy' := hlinks y hy
      exact wordAt_putWord_of_apart _ _ (by omega)
  spared := hv.spared

/-- A block that fits and has its tags in memory joins the view. -/
theorem adopt {front back : List Block} {b : Block}
    (hv : View h limit epi (front ++ back) L K f)
    (hb : Fits h.memStartBrk limit front b back L K)
    (hheader : wordAt h.bytes (b.addr - 4) = b.word)
    (hfooter : wordAt h.bytes (b.addr + b.size - 8) = b.word) :
    View h limit epi (front ++ b :: back) L K f := by
  have hinsert : ∀ a ∈ front ++ b :: back, a = b ∨ a ∈ front ++ back := by
    intro a ha
    rcases List.mem_append.mp ha with hfront | hback
    · exact Or.inr (List.mem_append_left _ hfront)
    · exact (List.mem_cons.mp hback).imp_right fun hmem ↦ List.mem_append_right _ hmem
  refine { hv with geometry := ?_, tagged := ?_ }
  · refine { hv.geometry with block := fun a ha ↦ ?_, sorted := ?_, apart := fun x hx a ha ↦ ?_ }
    · rcases hinsert a ha with rfl | hmem
      · exact hb.block
      · exact hv.geometry.block a hmem
    · obtain ⟨hfront, hback, hcross⟩ := List.pairwise_append.mp hv.geometry.sorted
      refine List.pairwise_append.mpr ⟨hfront, List.pairwise_cons.mpr ⟨hb.back, hback⟩, ?_⟩
      intro a ha c hc
      rcases List.mem_cons.mp hc with rfl | hc
      · exact hb.front a ha
      · exact hcross a ha c hc
    · rcases hinsert a ha with rfl | hmem
      · exact hb.node x hx
      · exact hv.geometry.apart x hx a hmem
  · refine { hv.tagged with header := fun a ha ↦ ?_, footer := fun a ha ↦ ?_ }
    · rcases hinsert a ha with rfl | hmem
      · exact hheader
      · exact hv.tagged.header a hmem
    · rcases hinsert a ha with rfl | hmem
      · exact hfooter
      · exact hv.tagged.footer a hmem

/-- `set_boundary_tag` of a block that fits. -/
theorem setBoundaryTag {front back : List Block} {b : Block}
    (hv : View h limit epi (front ++ back) L K f)
    (hb : Fits h.memStartBrk limit front b back L K) {tag : Nat} (htag : b.tag = tag)
    {Q : Unit → Heap → Prop}
    (hQ : ∀ m, View (h.store m) limit epi (front ++ b :: back) L K f → Q () (h.store m)) :
    Returns (MemoryLab.setBoundaryTag b.addr b.size tag) h Q := by
  subst htag
  obtain ⟨hmod, hsizeMod, hsize, hlow, hhigh⟩ := hb.block
  have hlt := hv.geometry.limit_lt
  have hbase := hv.geometry.base_mod
  have hlimitMod := hv.geometry.limit_mod
  have hbound : firstBlock h.memStartBrk = h.memStartBrk + 272 := rfl
  have hword : b.word < 2 ^ 32 := Block.word_lt hsizeMod (by omega)
  have hend : subWord (addWord b.addr b.size) dsize = b.addr + b.size - 8 := by
    rw [addWord_of_lt (by omega), subWord_of_le (by unfold dsize; omega) (by omega)]
    rfl
  change Returns (MemoryLab.setBoundaryTag b.addr b.size b.tag) (h.store h.bytes) Q
  rw [returns_setBoundaryTag_store rfl (by omega) (by omega) (hv.inArena (by omega) (by omega)) hend
    (hv.inArena (by omega) (by omega))]
  -- the words written are none of the words of the view
  have happart : ∀ a ∈ front ++ back, (a.addr + a.size ≤ b.addr ∨ b.addr + b.size ≤ a.addr) ∧
      h.memStartBrk + 272 ≤ a.addr ∧ a.addr % 8 = 0 ∧ 16 ≤ a.size ∧ a.size % 8 = 0 := by
    intro a ha
    have hblock := hv.geometry.block a ha
    have hside := (List.mem_append.mp ha).imp (hb.front a) (hb.back a)
    omega
  have hheader := hv.putClear b.word (p := b.addr - 4) (by omega) (by omega)
    (fun a ha ↦ by
      have hpair := happart a ha
      omega)
    (fun x hx ↦ by
      have hplace := hb.node x hx
      have hnode := hv.geometry.node x hx
      omega)
    fun a ha ↦ by
      have hkept := (hb.kept a ha).1
      omega
  have hfooter := hheader.putClear b.word (p := b.addr + b.size - 8)
    (by change h.memStartBrk + 268 ≤ _; omega) (by omega)
    (fun a ha ↦ by
      have hpair := happart a ha
      omega)
    (fun x hx ↦ by
      have hplace := hb.node x hx
      omega)
    fun a ha ↦ by
      have hkept := (hb.kept a ha).2
      omega
  refine hQ _ (hfooter.adopt hb ?_ (wordAt_putWord_self _ _ hword))
  exact (wordAt_putWord_of_apart _ _ (by omega)).trans (wordAt_putWord_self _ _ hword)

/-- A larger heap, whose epilogue has not been written yet. -/
theorem grow (hv : View h limit epi B L K f) {limit' : Nat} (hle : limit ≤ limit')
    (hmod : limit' % 8 = 0) (hmax : limit' ≤ h.memMaxAddr) (brk : Nat) :
    View { h with memBrk := brk } limit' false B L K f where
  arena := ⟨hv.arena.aligned, hv.arena.nonnull, hv.arena.size, hv.arena.below⟩
  sizeClassP_eq := hv.sizeClassP_eq
  prologue_eq := hv.prologue_eq
  limit_le := hmax
  geometry := by
    have hbelow := hv.arena.below
    refine { hv.geometry with
      first_le := hv.geometry.first_le.trans hle, limit_mod := hmod, limit_lt := by omega,
      block := fun b hb ↦ ?_, node := fun x hx ↦ ?_ }
    · obtain ⟨hmodb, hsizeMod, hsize, hlow, hhigh⟩ := hv.geometry.block b hb
      exact ⟨hmodb, hsizeMod, hsize, hlow, hhigh.trans hle⟩
    · obtain ⟨hmodx, hlow, hhigh⟩ := hv.geometry.node x hx
      exact ⟨hmodx, hlow, hhigh.trans hle⟩
  tagged := { hv.tagged with epilogue := fun h ↦ absurd h (by simp) }
  linked := hv.linked
  spared := hv.spared

/-- Writing the epilogue. -/
theorem putEpilogue (hv : View h limit false B L K f)
    (hK : ∀ a, K a → a < limit - 4 ∨ limit ≤ a) {Q : Unit → Heap → Prop}
    (hQ : ∀ m, View (h.store m) limit true B L K f → Q () (h.store m)) :
    Returns (putWordAt (hdrp limit) (pack 0 allocTag)) h Q := by
  have hfirst := hv.geometry.first_le
  have hlimitMod := hv.geometry.limit_mod
  unfold firstBlock at hfirst
  change Returns (putWordAt (hdrp limit) (pack 0 allocTag)) (h.store h.bytes) Q
  rw [hv.hdrp_limit, returns_putWordAt_store (hv.inArena (by omega) (by omega))]
  refine hQ _ ?_
  have hput : Tagged h.memStartBrk limit false (putWord h.bytes (limit - 4) (pack 0 allocTag))
      B K f := by
    refine hv.tagged.put _ (fun b hb ↦ ?_) (by omega) (fun h ↦ absurd h (by simp)) fun a ha ↦ ?_
    · have hblock := hv.geometry.block b hb
      unfold firstBlock at hblock
      omega
    · have hspare := hK a ha
      omega
  refine ⟨hv.arena.store _, hv.sizeClassP_eq, hv.prologue_eq, hv.limit_le, hv.geometry, ?_, ?_,
    hv.spared⟩
  · exact { hput with epilogue := fun _ ↦ wordAt_putWord_self _ _ (by decide) }
  · have hbounds := fun y hy ↦ hv.linkable (y := y) hy
    refine hv.linked.congr (fun y hy ↦ ?_) fun y hy ↦ ?_
    · have hy' := hbounds y hy
      unfold Linkable firstBlock at hy'
      dsimp only [Heap.store]
      rw [wordAt_putWord_of_apart _ _ (by omega)]
    · have hy' := hbounds y hy
      unfold Linkable firstBlock at hy'
      dsimp only [Heap.store]
      rw [wordAt_putWord_of_apart _ _ (by omega)]

end View

end SystemProgramming.MemoryLab
