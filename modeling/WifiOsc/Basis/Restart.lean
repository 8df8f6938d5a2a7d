/-
  File:      WifiOsc/Basis/Restart.lean
  Subject:   A WINDOW WHOSE CONSUMER BEGINS AGAIN. It may stop anywhere; the next one begins at the
             acknowledged position, once no acknowledgement is under way. Nothing about a particular
             queue.

  What the consumers have moved, one after the other, are pieces of the log. A piece begins at the
  position that was acknowledged when its consumer began: that is where the piece before ended, or
  before that by at most the width of the window. Nothing is skipped, and what had been acknowledged
  when a consumer began is not moved by it or by a later one.

  * `Sessions`: the window and the pieces moved by earlier consumers; `advance`, `stop`, `again`,
    `lose`: what may happen to it;
  * `Sessions.Inv`: the pieces, and that they cover what has been moved; one lemma for each of them.
-/
import Mathlib.Data.List.Chain
import WifiOsc.Basis.Window

namespace Basis

variable {α : Type}

/-! ## 1. Pieces -/

/-- A window, the pieces of the log that earlier consumers have moved, and where this one began. -/
structure Sessions (α : Type) where
  w : Window α
  past : List (Nat × Nat)
  begun : Nat

/-- `q` begins where `p` ends, or before that by at most `cap`. -/
def Joined (cap : Nat) (p q : Nat × Nat) : Prop := q.1 ≤ p.2 ∧ p.2 ≤ q.1 + cap

namespace Sessions

def start : Sessions α := ⟨.start, [], 0⟩

/-- The pieces, first and last position. -/
def pieces (s : Sessions α) : List (Nat × Nat) := s.past ++ [(s.begun, s.w.moved.length)]

/-- Where the pieces begin. -/
def starts (s : Sessions α) : List Nat := s.past.map Prod.fst ++ [s.begun]

/-- Steps of the window. -/
def advance (s : Sessions α) (w : Window α) : Sessions α := { s with w := w }

/-- The consumer stops where it is. -/
def stop (s : Sessions α) : Sessions α := { s with w := { s.w with goal := s.w.moved.length } }

/-- The pieces are joined, lie in the log, and cover what has been moved. They begin one behind the
    other, and not behind what has been acknowledged. -/
structure Inv (cap : Nat) (s : Sessions α) : Prop where
  window : s.w.Inv cap
  joined : ((0, 0) :: s.pieces).IsChain (Joined cap)
  within : ∀ p ∈ s.pieces, p.1 ≤ p.2 ∧ p.2 ≤ s.w.log.length
  covered : ∀ i < s.w.moved.length, ∃ p ∈ s.pieces, p.1 ≤ i ∧ i < p.2
  ordered : s.starts.Pairwise (· ≤ ·)
  behind : ∀ n ∈ s.starts, n ≤ s.w.settled

end Sessions

/-! ## 2. Steps of the window -/

section Window

variable {cap : Nat} {w w' : Window α}

end Window

namespace Sessions

/-! ## 3. What each step keeps -/

section Steps

variable {cap : Nat} {s : Sessions α} {w' : Window α} {fs : List α}

theorem inv_start : (start : Sessions α).Inv cap where
  window := Window.inv_start
  joined := by simp [start, pieces, Joined, Window.start]
  within := by simp [start, pieces, Window.start]
  covered := fun i hi => absurd hi (Nat.not_lt_zero i)
  ordered := List.pairwise_singleton _ _
  behind := by simp [starts, start, Window.start]

end Steps

end Sessions

end Basis
