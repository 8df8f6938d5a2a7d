/-
  File:      WifiOsc/Basis/Ring.lean
  Subject:   CURSORS INTO A RING OF `n` SLOTS. A position counts without bound; its slot is the
             position modulo `n`. Nothing about a particular queue.

  * `slot_dist`: the way from one slot to the other is the difference of the positions, as long as
    they are less than a ring apart;
  * `slot_ne`: two such positions have different slots;
  * `slots`: the slots of an interval of positions, computed from the first slot and the length.
-/
import Mathlib.Data.List.Range
import Mathlib.Order.Basic

namespace Basis

variable {n a b c : Nat}

/-- **The way round the ring**, as `(b + n - a) % n` on slots computes it. -/
theorem slot_dist (hab : a ≤ b) (hba : b < a + n) : (b % n + n - a % n) % n = b - a := by
  obtain ⟨d, rfl⟩ := Nat.le.dest hab
  have hn : 0 < n := by omega
  have hd : d < n := by omega
  have ha : a % n < n := Nat.mod_lt a hn
  rw [Nat.add_sub_cancel_left, Nat.add_mod, Nat.mod_eq_of_lt hd]
  rcases Nat.lt_or_ge (a % n + d) n with h | h
  · rw [Nat.mod_eq_of_lt h, show a % n + d + n - a % n = d + n by omega, Nat.add_mod_right,
      Nat.mod_eq_of_lt hd]
  · rw [Nat.mod_eq_sub_mod h, Nat.mod_eq_of_lt (show a % n + d - n < n by omega),
      show a % n + d - n + n - a % n = d by omega, Nat.mod_eq_of_lt hd]

/-- Positions less than a ring apart have different slots. -/
theorem slot_ne (hab : a < b) (hba : b < a + n) : a % n ≠ b % n := by
  intro h
  have hd := slot_dist (Nat.le_of_lt hab) hba
  rw [← h, Nat.add_sub_cancel_left, Nat.mod_self] at hd
  omega

/-- A slot `k` steps on. -/
theorem slot_add (a k : Nat) : (a % n + k) % n = (a + k) % n := Nat.mod_add_mod a n k

/-- The `k` slots from the slot `i` on. -/
def slots (n i k : Nat) : List Nat := (List.range k).map fun j => (i + j) % n

theorem mem_slots {i : Nat} {k : Nat} (h : i ∈ slots n (a % n) k) :
    ∃ p, a ≤ p ∧ p < a + k ∧ i = p % n := by
  obtain ⟨j, hj, rfl⟩ := List.mem_map.mp h
  have hj' := List.mem_range.mp hj
  exact ⟨a + j, by omega, by omega, slot_add a j⟩

end Basis
