import Mathlib.Data.List.Basic

/-!
# Buffered input that arrives in pieces

A call of `read` brings some bytes, as many as the kernel likes but no more than the buffer holds, or
is interrupted and brings none. After the last piece it brings none for good. `Buffered.read` calls
it only when the buffer is empty and hands out at most so many bytes of the buffer. How the bytes
come in pieces and which calls are interrupted makes no difference to the stream: what is read is
its beginning, the rest is left (`Buffered.read_append`), and as long as there is more something is
read (`Buffered.read_ne_nil`).
-/

set_option autoImplicit false
set_option relaxedAutoImplicit false

namespace SystemProgramming.Library

/-- What a call of `read` brings. -/
inductive Arrival (size : Nat)
  | interrupted
  | piece (bytes : List UInt8) (hne : bytes ≠ []) (hsize : bytes.length ≤ size)

def Arrival.bytes {size : Nat} : Arrival size → List UInt8
  | interrupted => []
  | piece bytes _ _ => bytes

/-- The bytes of the buffer that are not yet read, and what the coming calls bring. -/
structure Buffered (size : Nat) where
  unread : List UInt8
  arriving : List (Arrival size)

namespace Buffered

variable {size : Nat}

/-- All bytes that are still to be read. -/
def stream (b : Buffered size) : List UInt8 := b.unread ++ b.arriving.flatMap Arrival.bytes

/-- Call `read` until it is not interrupted. -/
def refill : List (Arrival size) → Buffered size
  | [] => ⟨[], []⟩
  | .interrupted :: arriving => refill arriving
  | .piece bytes _ _ :: arriving => ⟨bytes, arriving⟩

/-- At most `n` bytes, from the buffer. -/
def read (b : Buffered size) (n : Nat) : List UInt8 × Buffered size :=
  let b := if b.unread = [] then refill b.arriving else b
  (b.unread.take n, ⟨b.unread.drop n, b.arriving⟩)

theorem stream_refill (arriving : List (Arrival size)) :
    (refill arriving).stream = arriving.flatMap Arrival.bytes := by
  induction arriving with
  | nil => rfl
  | cons arrival arriving ih =>
    cases arrival with
    | interrupted => exact ih
    | piece bytes hne hsize => rfl

theorem refill_unread_eq_nil {arriving : List (Arrival size)} (h : (refill arriving).unread = []) :
    arriving.flatMap Arrival.bytes = [] := by
  induction arriving with
  | nil => rfl
  | cons arrival arriving ih =>
    cases arrival with
    | interrupted => exact ih h
    | piece bytes hne hsize => exact absurd h hne

variable (b : Buffered size) (n : Nat)

theorem read_append : (b.read n).1 ++ (b.read n).2.stream = b.stream := by
  by_cases hempty : b.unread = []
  · have hstream : (refill b.arriving).stream = b.stream := by
      rw [stream_refill, stream, hempty, List.nil_append]
    rw [← hstream]
    simp [read, hempty, stream, ← List.append_assoc]
  · simp [read, hempty, stream, ← List.append_assoc]

theorem length_read_le : (b.read n).1.length ≤ n := List.length_take_le _ _

theorem read_ne_nil {b : Buffered size} {n : Nat} (hn : 0 < n) (hmore : b.stream ≠ []) :
    (b.read n).1 ≠ [] := by
  intro hnil
  have hunread := (List.take_eq_nil_iff.mp hnil).resolve_left (by omega)
  by_cases hempty : b.unread = []
  · rw [if_pos hempty] at hunread
    exact hmore (by rw [stream, hempty, refill_unread_eq_nil hunread]; rfl)
  · rw [if_neg hempty] at hunread
    exact hempty hunread

/-- At the end of the stream nothing is read. -/
theorem read_of_stream_nil {b : Buffered size} (h : b.stream = []) :
    (b.read n).1 = [] ∧ (b.read n).2.stream = [] := by
  have happend := read_append b n
  rw [h] at happend
  exact List.append_eq_nil_iff.mp happend

/-- One byte is the first. -/
theorem read_one {b : Buffered size} {c : UInt8} {rest : List UInt8} (h : b.stream = c :: rest) :
    (b.read 1).1 = [c] ∧ (b.read 1).2.stream = rest := by
  have happend := read_append b 1
  have hne := read_ne_nil (b := b) Nat.one_pos (by simp [h])
  have hlength := length_read_le b 1
  rw [h] at happend
  match hread : (b.read 1).1, hne with
  | [d], _ =>
    rw [hread, List.singleton_append, List.cons.injEq] at happend
    exact ⟨by rw [happend.1], happend.2⟩
  | _ :: _ :: _, _ => simp [hread] at hlength

end Buffered

end SystemProgramming.Library
