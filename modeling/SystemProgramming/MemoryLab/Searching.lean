import Mathlib.Data.List.Perm.Subperm
import SystemProgramming.MemoryLab.Coalescing
import SystemProgramming.MemoryLab.Requests

/-!
# `find_fit`

The search walks the rings of the classes from the class of the request on. It reads the sizes of
free blocks and their links, and returns what `Shape.fit` says (`View.findFit`). The fuel of the
inner loop is not used up, since no node is met twice.
-/

set_option autoImplicit false
set_option relaxedAutoImplicit false

namespace SystemProgramming.MemoryLab

open Library

theorem length_lt_of_nodup {l : List Nat} {n : Nat} (hnodup : l.Nodup)
    (hbound : ∀ x ∈ l, 0 < x ∧ x < n) (hpos : 0 < n) : l.length < n := by
  have hsub : 0 :: l ⊆ List.range n := by
    intro x hx
    rw [List.mem_range]
    rcases List.mem_cons.mp hx with rfl | hx
    · exact hpos
    · exact (hbound x hx).2
  have hzero : (0 :: l).Nodup :=
    List.nodup_cons.mpr ⟨fun hmem ↦ absurd (hbound 0 hmem).1 (by omega), hnodup⟩
  have hle := (List.subperm_of_subset hzero hsub).length_le
  rw [List.length_cons, List.length_range] at hle
  exact hle

namespace View

variable {h : Heap} {K : Nat → Prop} {f : ByteMemory} {σ : Shape}

/-- The inner loop of `find_fit`, in the middle of a list. -/
theorem probeList (hv : View h σ.brk true σ.blocks σ.lists K f)
    (hproper : σ.Proper h.memStartBrk) {c asize : Nat} (hc : c < sizeClassNum)
    (Q : Nat → Heap → Prop) (back : List Nat) :
    ∀ (front : List Nat) (fuel : Nat), σ.lists c = front ++ back → back.length < fuel →
      (Returns (MemoryLab.probeList asize (classRoot h.memStartBrk c) fuel
        (ringHead (classRoot h.memStartBrk c) back)) h Q ↔
        Q ((back.find? fun x ↦ asize ≤ sizeAt σ.blocks x).getD null) h) := by
  induction back with
  | nil =>
    intro front fuel hsplit hfuel
    obtain ⟨fuel, rfl⟩ := Nat.exists_eq_succ_of_ne_zero (Nat.ne_of_gt (Nat.zero_lt_of_lt hfuel))
    simp [MemoryLab.probeList, ringHead]
  | cons x back ih =>
    intro front fuel hsplit hfuel
    obtain ⟨fuel, rfl⟩ := Nat.exists_eq_succ_of_ne_zero (Nat.ne_of_gt (Nat.zero_lt_of_lt hfuel))
    have hx : x ∈ σ.lists c := by simp [hsplit]
    obtain ⟨b, hb, rfl, -⟩ := (hproper.filed x).mp ⟨c, hc, hx⟩
    have hne : b.addr ≠ classRoot h.memStartBrk c := by
      have hblock := hv.geometry.block b hb
      unfold firstBlock at hblock
      unfold classRoot sizeClassNum at *
      omega
    have hring := hv.linked.ring c hc
    rw [hsplit] at hring
    have hnext : wordAt h.bytes b.addr = ringHead (classRoot h.memStartBrk c) back :=
      hring.neighbours.1
    rw [show ringHead (classRoot h.memStartBrk c) (b.addr :: back) = b.addr from rfl,
      MemoryLab.probeList, if_neg hne, returns_bind, hv.getSize_hdrp hb, List.find?_cons,
      Shape.sizeAt_eq hproper hb, returns_ite]
    by_cases hsize : asize ≤ b.size
    · simp [hsize]
    · rw [if_neg hsize, returns_bind, hv.nextFree_eq (hv.linkable_of_filed ⟨c, hc, hx⟩), hnext,
        ih (front ++ [b.addr]) fuel (by simp [hsplit]) (by simpa using hfuel)]
      simp [hsize]

/-- The outer loop of `find_fit`. -/
theorem probeClasses (hv : View h σ.brk true σ.blocks σ.lists K f)
    (hproper : σ.Proper h.memStartBrk) {asize n : Nat} (hn : n ≤ sizeClassNum)
    (Q : Nat × Nat → Heap → Prop) :
    Returns (MemoryLab.probeClasses asize n) h Q ↔
      Q ((σ.search asize n).getD (null, sizeClassNum)) h := by
  induction n with
  | zero => exact returns_pure _ _ _
  | succ n ih =>
    have hc : sizeClassNum - (n + 1) < sizeClassNum := by omega
    have hbounds : ∀ x ∈ σ.lists (sizeClassNum - (n + 1)), 0 < x ∧ x < 2 ^ 32 := by
      intro x hx
      have hnode := hv.geometry.node x ⟨_, hc, hx⟩
      have hlt := hv.geometry.limit_lt
      unfold firstBlock at hnode
      omega
    have hlength := length_lt_of_nodup (hv.simple.nodup _ hc) hbounds (by norm_num)
    have hroot : wordAt h.bytes (classRoot h.memStartBrk (sizeClassNum - (n + 1))) =
        ringHead (classRoot h.memStartBrk (sizeClassNum - (n + 1)))
          (σ.lists (sizeClassNum - (n + 1))) := (hv.linked.ring _ hc).next_root
    simp only [MemoryLab.probeClasses, returns_bind]
    rw [hv.getClassRoot_eq hc, hv.nextFree_eq (hv.linkable_of_root hc), hroot,
      hv.probeList hproper hc _ _ [] loopFuel rfl hlength, returns_ite, Shape.search]
    rcases hfind : (σ.lists (sizeClassNum - (n + 1))).find? fun x ↦ asize ≤ sizeAt σ.blocks x with
      _ | x
    · rw [if_neg (by simp), ih (by omega)]
    · have hx := (hbounds x (List.mem_of_find?_eq_some hfind)).1
      rw [if_pos (by simp only [Option.getD_some]; unfold null; omega), returns_pure]
      rfl

/-- `find_fit`. -/
theorem findFit (hv : View h σ.brk true σ.blocks σ.lists K f) (hproper : σ.Proper h.memStartBrk)
    {asize : Nat} (Q : Nat × Nat → Heap → Prop) :
    Returns (MemoryLab.findFit asize) h Q ↔ Q ((σ.fit asize).getD (null, sizeClassNum)) h :=
  hv.probeClasses hproper (Nat.sub_le _ _) Q

end View

end SystemProgramming.MemoryLab
