/-
  File:      WifiOsc/Fpga/Div.lean
  Subject:   THE CLOCK DIVIDER `Div` (FPGA/SPI_TEST_2/Divs.v), for every even divisor.

  * `Div.wait`: how many edges of `clk_in` come before the one at which `clk_div` rises;
  * `Div.step_cases`: what an edge does to the counter;
  * **`Div.tick`**: an edge either is that rise, and the next one is N edges off, or brings it one
    edge nearer.
-/
import Mathlib.Data.BitVec

namespace WifiOsc

/-- `Div` with its parameter `N`. `clk_div` has no initial value. -/
structure Div (N : Nat) where
  cnt : BitVec 24
  clkDiv : Bool

namespace Div

variable {N : Nat} {d : Div N}

/-- One edge of `clk_in`. The test `cnt==N/2-1` is made in 32 bits. -/
def step (d : Div N) : Div N :=
  if d.cnt.toNat + 1 = N / 2 then { cnt := 0#24, clkDiv := !d.clkDiv }
  else { d with cnt := d.cnt + 1#24 }

/-- Whether `clk_div` rises at this edge. -/
def rises (d : Div N) : Bool := !d.clkDiv && d.step.clkDiv

structure PowerUp (d : Div N) : Prop where
  cnt : d.cnt = 0#24

/-- The counter is below half the divisor, and that fits. -/
structure Good (d : Div N) : Prop where
  lt : d.cnt.toNat < N / 2
  fits : N / 2 ≤ 2 ^ 24

/-- The edges of `clk_in` before the one at which `clk_div` rises. -/
def wait (d : Div N) : Nat := (if d.clkDiv then N / 2 else 0) + (N / 2 - 1 - d.cnt.toNat)

theorem good_powerUp (h : d.PowerUp) (h2 : 2 ≤ N) (hN : N / 2 ≤ 2 ^ 24) : d.Good :=
  ⟨by rw [h.cnt]; show 0 < N / 2; omega, hN⟩

/-- **One edge of `clk_in`, by its counter**: `clk_div` turns, or the counter goes on. -/
theorem step_cases (h : d.Good) :
    (d.cnt.toNat + 1 = N / 2 ∧ d.step.clkDiv = !d.clkDiv ∧ d.step.cnt.toNat = 0) ∨
      (d.cnt.toNat + 1 < N / 2 ∧ d.step.clkDiv = d.clkDiv ∧
        d.step.cnt.toNat = d.cnt.toNat + 1) := by
  have hlt := h.lt
  have hfits := h.fits
  unfold step
  split
  case isTrue hlast => exact Or.inl ⟨hlast, rfl, rfl⟩
  case isFalse hne =>
    refine Or.inr ⟨by omega, rfl, ?_⟩
    rw [BitVec.toNat_add]
    exact Nat.mod_eq_of_lt (by show d.cnt.toNat + 1 < 2 ^ 24; omega)

theorem good_step (h : d.Good) : d.step.Good := by
  refine ⟨?_, h.fits⟩
  rcases step_cases h with ⟨hlast, _, hcnt⟩ | ⟨hlt, _, hcnt⟩
  · rw [hcnt]
    omega
  · rw [hcnt]
    exact hlt

/-- The first rise comes after half the divisor or after all of it. -/
theorem wait_powerUp (h : d.PowerUp) : N / 2 - 1 ≤ d.wait := by
  unfold wait
  rw [h.cnt]
  exact Nat.le_add_left _ _

theorem wait_lt (h : d.Good) : d.wait < 2 * (N / 2) := by
  have hlt := h.lt
  unfold wait
  split <;> omega

/-- **One edge of `clk_in`**: `clk_div` rises, and will again after a whole period, or the rise is
    one edge nearer. -/
theorem tick (h : d.Good) :
    (d.rises = true ∧ d.wait = 0 ∧ d.step.wait + 1 = 2 * (N / 2)) ∨
      (d.rises = false ∧ d.wait = d.step.wait + 1) := by
  have hlt := h.lt
  rcases step_cases h with ⟨hlast, hturn, hcnt⟩ | ⟨_, hkeep, hcnt⟩
  · cases hclk : d.clkDiv with
    | false =>
      rw [hclk] at hturn
      refine Or.inl ⟨by simp [rises, hturn, hclk], ?_, ?_⟩
      · simp only [wait, hclk, Bool.false_eq_true, if_false]
        omega
      · simp only [wait, hturn, Bool.not_false, if_true, hcnt]
        omega
    | true =>
      rw [hclk] at hturn
      refine Or.inr ⟨by simp [rises, hclk], ?_⟩
      simp only [wait, hclk, hturn, Bool.not_true, Bool.false_eq_true, if_true, if_false, hcnt]
      omega
  · refine Or.inr ⟨by simp [rises, hkeep], ?_⟩
    simp only [wait, hkeep, hcnt]
    omega

/-- Before the rise. -/
theorem quiet (h : d.Good) (hpos : 1 ≤ d.wait) : d.rises = false ∧ d.wait = d.step.wait + 1 := by
  rcases tick h with ⟨_, hzero, _⟩ | hquiet
  · omega
  · exact hquiet

end Div

end WifiOsc
