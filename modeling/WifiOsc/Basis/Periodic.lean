/-
  File:      WifiOsc/Basis/Periodic.lean
  Subject:   PERIODIC CLOCKS AND THE ORDER OF THEIR EDGES. Nothing about a particular design.

  * `Clocks`, `Clocks.Ordered`: the edges of any number of periodic clocks, one after the other;
  * `Clocks.come_le_pending`: an edge that has come is not later than one that is still to come;
  * `Clocks.stretch`: the edges of one clock while another is silent;
  * `Clocks.since_le`: the pace (Basis/Pacing.lean) of two clocks;
  * `Clocks.window`: between two edges of one clock another one is counted to within one period.
-/
import Mathlib.Algebra.Order.Field.Basic
import Mathlib.Tactic.Linarith
import Mathlib.Tactic.Ring
import WifiOsc.Basis.Pacing

namespace Basis

/-- Clocks with a period and a phase; the first edge of each comes within its first period. -/
structure Clocks (α K : Type) [Field K] [LinearOrder K] [IsStrictOrderedRing K] where
  period : α → K
  phase : α → K
  period_pos : ∀ x, 0 < period x
  phase_nonneg : ∀ x, 0 ≤ phase x
  phase_le : ∀ x, phase x ≤ period x

namespace Clocks

variable {α K : Type} [Field K] [LinearOrder K] [IsStrictOrderedRing K] {c : Clocks α K}

/-- The time of edge `k` of the clock `x`. -/
def edge (c : Clocks α K) (x : α) (k : Nat) : K := c.phase x + k * c.period x

variable {x y : α} {k n : Nat}

theorem edge_add (x : α) (k n : Nat) : c.edge x (k + n) = c.edge x k + n * c.period x := by
  unfold edge
  push_cast
  ring

theorem edge_mono (h : k ≤ n) : c.edge x k ≤ c.edge x n := by
  obtain ⟨d, rfl⟩ := Nat.exists_eq_add_of_le h
  rw [edge_add]
  have hpos : (0 : K) ≤ d * c.period x := mul_nonneg (Nat.cast_nonneg d) (c.period_pos x).le
  linarith

theorem edge_nonneg (x : α) (k : Nat) : 0 ≤ c.edge x k :=
  add_nonneg (c.phase_nonneg x) (mul_nonneg (Nat.cast_nonneg k) (c.period_pos x).le)

variable [DecidableEq α] {es l m r : List α}

/-- The edges come in the order of time; of edges at one time any may be first. -/
def Ordered (c : Clocks α K) (es : List α) : Prop :=
  ∀ l x r, es = l ++ x :: r → ∀ y, c.edge x (l.count x) ≤ c.edge y (l.count y)

/-- Where edge `k` of `x` came. -/
theorem split_at (h : k < l.count x) : ∃ l₀ r₀, l = l₀ ++ x :: r₀ ∧ l₀.count x = k := by
  induction l generalizing k with
  | nil => exact absurd h (Nat.not_lt_zero k)
  | cons z l ih =>
    by_cases hz : z = x
    · subst hz
      cases k with
      | zero => exact ⟨[], l, rfl, rfl⟩
      | succ k =>
        rw [List.count_cons_self] at h
        obtain ⟨l₀, r₀, rfl, hk⟩ := ih (k := k) (by omega)
        exact ⟨z :: l₀, r₀, rfl, by rw [List.count_cons_self, hk]⟩
    · rw [List.count_cons_of_ne hz] at h
      obtain ⟨l₀, r₀, rfl, hk⟩ := ih h
      exact ⟨z :: l₀, r₀, rfl, by rw [List.count_cons_of_ne hz, hk]⟩

/-- **An edge that has come is not later than one that is still to come.** -/
theorem come_le_pending (h : c.Ordered (l ++ r)) (hk : k < l.count x) (y : α) :
    c.edge x k ≤ c.edge y (l.count y) := by
  obtain ⟨l₀, r₀, rfl, rfl⟩ := split_at hk
  have hnext := h l₀ x (r₀ ++ r) (by simp) y
  refine hnext.trans (edge_mono ?_)
  rw [List.count_append]
  exact Nat.le_add_right _ _

/-- **While `x` is silent** the other clocks make no more edges than fit in a period of `x`, and one
    more. -/
theorem stretch (h : c.Ordered (l ++ m ++ r)) (hx : x ∉ m) (hy : m.count y = n + 1) :
    n * c.period y ≤ c.period x := by
  have hlast : c.edge y (l.count y + n) ≤ c.edge x (l.count x) := by
    have hcome := come_le_pending (l := l ++ m) (k := l.count y + n) (x := y) h
      (by rw [List.count_append]; omega) x
    rwa [List.count_append, List.count_eq_zero_of_not_mem hx, Nat.add_zero] at hcome
  have hfirst : c.edge x (l.count x) ≤ c.edge y (l.count y) + c.period x := by
    cases ha : l.count x with
    | zero =>
      have h0 := edge_nonneg (c := c) y (l.count y)
      have hphase := c.phase_le x
      unfold edge at h0 ⊢
      rw [Nat.cast_zero, zero_mul, add_zero]
      linarith
    | succ a =>
      have hcome := come_le_pending (l := l) (r := m ++ r) (k := a) (x := x)
        (by rwa [List.append_assoc] at h) (by omega) y
      rw [edge_add, Nat.cast_one, one_mul]
      linarith
  rw [edge_add] at hlast
  linarith

/-- **The pace of two clocks**: the edges of the other one since the last edge of `x`. -/
theorem since_mul_le (hother : ∀ z, z ≠ x → z = y) (h : c.Ordered (l ++ r)) :
    since x l * c.period y ≤ c.period x + c.period y := by
  obtain ⟨l', m, rfl, hx, hlen⟩ := exists_since x l
  have hall : m.count y = m.length := by
    rw [List.count_eq_length]
    intro z hz
    exact (hother z fun e => hx (e ▸ hz)).symm
  rw [hlen, ← hall]
  cases hn : m.count y with
  | zero =>
    rw [Nat.cast_zero, zero_mul]
    exact add_nonneg (c.period_pos x).le (c.period_pos y).le
  | succ n =>
    have hle := stretch h hx hn
    push_cast
    linarith

theorem since_le (hother : ∀ z, z ≠ x → z = y) (h : c.Ordered (l ++ r))
    (hn : c.period x < n * c.period y) : since x l ≤ n := by
  have hle := since_mul_le hother h
  have hlt : (since x l : K) * c.period y < (n + 1 : Nat) * c.period y := by
    push_cast
    linarith
  exact Nat.lt_succ_iff.mp (Nat.cast_lt.mp (lt_of_mul_lt_mul_right hlt (c.period_pos y).le))

/-- **Between two edges of `x`**, `n` periods apart, another clock is counted to within one of its
    periods. -/
theorem window (h : c.Ordered (l ++ x :: (m ++ x :: r))) (hy : y ∈ l) :
    |(m.count x + 1 : Nat) * c.period x - m.count y * c.period y| ≤ c.period y := by
  by_cases hxy : y = x
  · subst hxy
    have hpos := c.period_pos y
    push_cast
    rw [show ((m.count y : K) + 1) * c.period y - m.count y * c.period y = c.period y by ring,
      abs_of_pos hpos]
  obtain ⟨b, hb⟩ : ∃ b, l.count y = b + 1 :=
    ⟨l.count y - 1, by have := List.count_pos_iff.mpr hy; omega⟩
  -- at the first edge
  have h1 : c.edge x (l.count x) ≤ c.edge y (b + 1) := hb ▸ h l x _ rfl y
  have h2 : c.edge y b ≤ c.edge x (l.count x) :=
    come_le_pending (l := l) (x := y) h (by omega) x
  -- at the second one
  have hcx : (l ++ x :: m).count x = l.count x + (m.count x + 1) := by
    rw [List.count_append, List.count_cons_self]
  have hcy : (l ++ x :: m).count y = b + (m.count y + 1) := by
    rw [List.count_append, List.count_cons_of_ne (Ne.symm hxy), hb]
    omega
  have h3 := h (l ++ x :: m) x r (by simp) y
  have h4 : c.edge y (b + m.count y) ≤ c.edge x ((l ++ x :: m).count x) :=
    come_le_pending (l := l ++ x :: m) (x := y) (r := x :: r) (by simpa using h)
      (by rw [hcy]; omega) x
  rw [hcx, hcy, edge_add, edge_add] at h3
  rw [hcx, edge_add, edge_add] at h4
  rw [edge_add] at h1
  push_cast at h1 h3 h4 ⊢
  rw [abs_le]
  constructor <;> linarith

/-- One more edge. -/
theorem ordered_snoc (h : c.Ordered es)
    (hx : ∀ y, c.edge x (es.count x) ≤ c.edge y (es.count y)) : c.Ordered (es ++ [x]) := by
  intro l z r hl y
  rcases List.eq_nil_or_concat r with rfl | ⟨r', z', rfl⟩
  · obtain ⟨rfl, hz⟩ := List.append_inj' hl rfl
    obtain rfl : x = z := (List.cons.inj hz).1
    exact hx y
  · rw [List.concat_eq_append, ← List.cons_append, ← List.append_assoc] at hl
    exact h l z r' (List.append_inj' hl rfl).1 y

end Clocks

end Basis
