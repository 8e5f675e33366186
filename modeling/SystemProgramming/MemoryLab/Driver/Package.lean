import SystemProgramming.Library.Intervals
import SystemProgramming.MemoryLab.Sessions

/-!
# What the driver relies on

`Package` collects the functions that `mm.h` declares, which the driver calls. `Contract` is an
allocator as its client sees it: a relation between the heap and the pointers that are held, the
memory that a request may take, and whether `mm_realloc` is implemented. `Package.Keeps` says that a
package keeps a contract. What is proved about the driver is proved from that, for every package.
-/

set_option autoImplicit false
set_option relaxedAutoImplicit false

namespace SystemProgramming.MemoryLab.Driver

open Library

/-- The functions of `mm.h`. -/
structure Package where
  mmInit : Option (List Range) → HeapM Int
  mmMalloc : Nat → HeapM Nat
  mmFree : Nat → HeapM Unit
  mmRealloc : Nat → Nat → HeapM Nat
  mmExit : HeapM Unit

/-- An abstract allocator. `Holds` relates a heap to the pointers that are held, with the sizes asked
for. `first` is the number of bytes that `mm_init` takes from the arena, `need` bounds what a request
takes. -/
structure Contract where
  Holds : Heap → List (Nat × Nat) → Prop
  first : Nat
  need : Nat → Nat
  Reallocates : Prop

/-- The arena is where it was, and the bytes of these payloads are what they were. -/
structure Kept (h : Heap) (live : List (Nat × Nat)) (h' : Heap) : Prop where
  memStartBrk_eq : h'.memStartBrk = h.memStartBrk
  memMaxAddr_eq : h'.memMaxAddr = h.memMaxAddr
  bytes : ∀ p n, (p, n) ∈ live → ∀ a, p ≤ a → a < p + n → h'.bytes a = h.bytes a

/-- A package keeps a contract. -/
structure Package.Keeps (pkg : Package) (c : Contract) : Prop where
  arena : ∀ {h live}, c.Holds h live → h.Arena ∧ h.memStartBrk ≤ h.memBrk ∧ h.memBrk ≤ h.memMaxAddr
  extent : ∀ {h live p n}, c.Holds h live → (p, n) ∈ live →
    p % 8 = 0 ∧ h.memStartBrk ≤ p ∧ p + n ≤ h.memBrk
  separated : ∀ {h live}, c.Holds h live → Separated live
  write : ∀ {h live p n a} (v : UInt8), c.Holds h live → (p, n) ∈ live → p ≤ a → a < p + n →
    c.Holds { h with bytes := Function.update h.bytes a v } live
  ranges : ∀ {h live} (rs : List Range), c.Holds h live →
    c.Holds { h with glRanges := h.glRanges.map fun _ ↦ rs } live
  mmInit : ∀ {h} (ranges : Option (List Range)), h.Arena → h.memBrk = h.memStartBrk →
    Returns (pkg.mmInit ranges) h fun r h' ↦ r = 0 ∧ Kept h [] h' ∧
      h'.memBrk ≤ h.memStartBrk + c.first ∧ h'.glRanges = ranges ∧ c.Holds h' []
  mmMalloc : ∀ {h live size}, c.Holds h live → 0 < size → size < 2 ^ 31 →
    h.memBrk + c.need size < 2 ^ 32 → Returns (pkg.mmMalloc size) h fun p h' ↦ Kept h live h' ∧
      h'.glRanges = h.glRanges ∧ h.memBrk ≤ h'.memBrk ∧ h'.memBrk ≤ h.memBrk + c.need size ∧
        if p = null then h.memMaxAddr < h.memBrk + c.need size else c.Holds h' ((p, size) :: live)
  mmFree : ∀ {h live p n}, c.Holds h live → (p, n) ∈ live → Returns (pkg.mmFree p) h fun _ h' ↦
    Kept h (without live p) h' ∧ h'.memBrk = h.memBrk ∧
      h'.glRanges = h.glRanges.map (fun rs ↦ removeRange rs p) ∧ c.Holds h' (without live p)
  mmRealloc : ∀ {h live p n t}, c.Holds h live → (p, n) ∈ live → 0 < t → t ≤ n →
    Returns (pkg.mmRealloc p t) h fun q h' ↦ Kept h (without live p) h' ∧ h'.memBrk = h.memBrk ∧
      h'.glRanges = h.glRanges ∧
        if q = null then ¬ c.Reallocates
        else c.Holds h' ((q, t) :: without live p) ∧ ∀ i < t, h'.bytes (q + i) = h.bytes (p + i)
  mmExit : ∀ {h live rs}, c.Holds h live → h.glRanges = some rs →
    (rs.map Range.lo).Perm (live.map Prod.fst) →
    Returns pkg.mmExit h fun _ h' ↦ h'.memStartBrk = h.memStartBrk ∧
      h'.memMaxAddr = h.memMaxAddr ∧ h'.glRanges = some []

/-! ### Payloads -/

/-- Fill so many bytes. -/
def fill (m : ByteMemory) (p : Nat) (v : UInt8) (n : Nat) : ByteMemory := fun a ↦
  if p ≤ a ∧ a < p + n then v else m a

theorem fill_succ (m : ByteMemory) (p : Nat) (v : UInt8) (n : Nat) :
    fill m p v (n + 1) = Function.update (fill m p v n) (p + n) v := by
  funext a
  unfold fill
  by_cases ha : a = p + n
  · subst ha
    rw [if_pos (by omega), Function.update_self]
  · rw [Function.update_of_ne ha]
    by_cases hin : p ≤ a ∧ a < p + n
    · rw [if_pos (by omega), if_pos hin]
    · rw [if_neg (by omega), if_neg hin]

namespace Package.Keeps

variable {pkg : Package} {c : Contract} {h : Heap} {live : List (Nat × Nat)} {p n : Nat}

/-- The client may fill a payload. -/
theorem fill (hk : pkg.Keeps c) (hh : c.Holds h live) (v : UInt8) (hp : (p, n) ∈ live) :
    ∀ k ≤ n, c.Holds { h with bytes := Driver.fill h.bytes p v k } live := by
  intro k hkn
  induction k with
  | zero =>
    have hsame : Driver.fill h.bytes p v 0 = h.bytes := funext fun a ↦ if_neg (by omega)
    rw [hsame]
    exact hh
  | succ k ih =>
    rw [fill_succ]
    exact hk.write v (ih (by omega)) hp (by omega) (by omega)

/-- What is held fits between the beginning of the heap and the break. -/
theorem total_le (hk : pkg.Keeps c) (hh : c.Holds h live) :
    totalLength live ≤ h.memBrk - h.memStartBrk :=
  (hk.separated hh).total_le fun _ _ hp ↦ (hk.extent hh hp).2

end Package.Keeps

end SystemProgramming.MemoryLab.Driver
