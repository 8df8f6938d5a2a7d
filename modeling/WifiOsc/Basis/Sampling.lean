/-
  File:      WifiOsc/Basis/Sampling.lean
  Subject:   MACHINES THAT MOVE ON EVERY n-TH EDGE, AND WAVEFORMS HELD FOR n EDGES. Nothing about
             a particular design.

  * `upTo y m`: the inputs `y 0, …, y (m - 1)`; `run_upTo_succ`, `log_upTo_succ`: one more step;
  * `Divided`: a machine whose inner machine steps on every `n`-th edge; `Divided.log_eq`: its log
    is the inner machine's log over the samples at these edges;
  * `hold n l`: every symbol of `l` held for `n` edges, and what it shows at an edge.
-/
import WifiOsc.Basis.Machine
import Mathlib.Data.List.GetD

namespace Basis

variable {σ τ ι ω α : Type}

/-! ## 1. Inputs given by a function of the step -/

/-- The inputs `y 0, …, y (m - 1)`. -/
def upTo (y : Nat → ι) (m : Nat) : List ι := (List.range m).map y

theorem upTo_succ (y : Nat → ι) (m : Nat) : upTo y (m + 1) = upTo y m ++ [y m] := by
  simp [upTo, List.range_succ]

theorem upTo_succ' (y : Nat → ι) (m : Nat) : upTo y (m + 1) = y 0 :: upTo (fun j => y (j + 1)) m := by
  simp [upTo, List.range_succ_eq_map, Function.comp_def]

theorem run_upTo_succ (M : Machine σ ι ω) (s : σ) (y : Nat → ι) (m : Nat) :
    M.run s (upTo y (m + 1)) = M.step (M.run s (upTo y m)) (y m) := by
  rw [upTo_succ, Machine.run_append, Machine.run_cons, Machine.run_nil]

theorem log_upTo_succ (M : Machine σ ι ω) (s : σ) (y : Nat → ι) (m : Nat) :
    M.log s (upTo y (m + 1)) = M.log s (upTo y m) ++ M.out (M.run s (upTo y m)) (y m) := by
  rw [upTo_succ, Machine.log_append, Machine.log_cons, Machine.log_nil, List.append_nil]

/-! ## 2. Divided clocks -/

/-- `M` moves its part `proj` as `T` does, on the edges where `wait` is 0, and `wait` runs from
    `n - 1` down to 0 and round again. -/
structure Divided (M : Machine σ ι ω) (T : Machine τ ι ω) (n : Nat) (proj : σ → τ)
    (wait : σ → Nat) : Prop where
  tick : ∀ s i, wait s = 0 → proj (M.step s i) = T.step (proj s) i ∧
    M.out s i = T.out (proj s) i ∧ wait (M.step s i) = n - 1
  idle : ∀ s i k, wait s = k + 1 → proj (M.step s i) = proj s ∧ M.out s i = [] ∧
    wait (M.step s i) = k

/-- How many ticks `len` edges bring when the first comes after `k` edges. -/
def tickCount (n k len : Nat) : Nat := (len + n - 1 - k) / n

/-- **A divided machine reads the samples at its ticks.** -/
theorem Divided.log_eq {M : Machine σ ι ω} {T : Machine τ ι ω} {n : Nat} {proj : σ → τ}
    {wait : σ → Nat} (h : Divided M T n proj wait) (hn : 0 < n) (d : ι) (xs : List ι) (s : σ)
    (hw : wait s < n) :
    M.log s xs = T.log (proj s)
      (upTo (fun j => xs.getD (wait s + n * j) d) (tickCount n (wait s) xs.length)) := by
  induction xs generalizing s with
  | nil =>
    have h0 : tickCount n (wait s) 0 = 0 := Nat.div_eq_of_lt (by omega)
    rw [List.length_nil, h0]
    rfl
  | cons x xs ih =>
    rw [Machine.log_cons]
    cases hk : wait s with
    | zero =>
      obtain ⟨hp, ho, hw'⟩ := h.tick s x hk
      have hcount : tickCount n 0 (x :: xs).length = tickCount n (n - 1) xs.length + 1 := by
        unfold tickCount
        rw [List.length_cons, show xs.length + 1 + n - 1 - 0 = xs.length + n by omega,
          show xs.length + n - 1 - (n - 1) = xs.length by omega, Nat.add_div_right _ hn]
      have hsample : (fun j => (x :: xs).getD (0 + n * (j + 1)) d) =
          fun j => xs.getD (n - 1 + n * j) d := by
        funext j
        rw [show 0 + n * (j + 1) = (n - 1 + n * j) + 1 by rw [Nat.mul_succ]; omega,
          List.getD_cons_succ]
      rw [hcount, upTo_succ', hsample, ho, ih _ (by omega), hw', hp]
      rfl
    | succ k =>
      obtain ⟨hp, ho, hw'⟩ := h.idle s x k hk
      have hcount : tickCount n (k + 1) (x :: xs).length = tickCount n k xs.length := by
        unfold tickCount
        rw [List.length_cons]
        congr 1
        omega
      have hsample : (fun j => (x :: xs).getD (k + 1 + n * j) d) =
          fun j => xs.getD (k + n * j) d := by
        funext j
        rw [Nat.add_right_comm, List.getD_cons_succ]
      rw [hcount, hsample, ho, ih _ (by omega), hw', hp]
      rfl

/-! ## 3. Held symbols -/

/-- Every symbol of `l` for `n` edges. -/
def hold (n : Nat) (l : List α) : List α := l.flatMap (List.replicate n)

@[simp] theorem length_hold (n : Nat) (l : List α) : (hold n l).length = n * l.length := by
  induction l with
  | nil => rfl
  | cons a l ih =>
    have e : hold n (a :: l) = List.replicate n a ++ hold n l := rfl
    rw [e, List.length_append, ih, List.length_replicate, List.length_cons, Nat.mul_succ, Nat.add_comm]

/-- Between the edges `n * i` and `n * (i + 1)` a held list shows its `i`-th symbol. -/
theorem getD_hold {n : Nat} (l : List α) (d : α) {i u : Nat} (hi : i < l.length)
    (hlo : n * i ≤ u) (hhi : u < n * (i + 1)) : (hold n l).getD u d = l.getD i d := by
  induction l generalizing i u with
  | nil => exact absurd hi (Nat.not_lt_zero i)
  | cons a l ih =>
    have e : hold n (a :: l) = List.replicate n a ++ hold n l := rfl
    rw [e]
    cases i with
    | zero =>
      have hu : u < n := by simpa using hhi
      rw [List.getD_append _ _ _ _ (by simpa using hu), List.getD_replicate _ hu, List.getD_cons_zero]
    | succ i =>
      have hu : n ≤ u := Nat.le_trans (Nat.le_mul_of_pos_right n (Nat.succ_pos i)) hlo
      rw [List.getD_append_right _ _ _ _ (by simpa using hu), List.length_replicate,
        List.getD_cons_succ]
      refine ih (by simpa using hi) ?_ ?_
      · rw [Nat.mul_succ] at hlo
        omega
      · rw [Nat.mul_succ] at hhi
        omega

end Basis
