/-
  File:      WifiOsc/Fpga/GetFreq.lean
  Subject:   THE EQUAL-PRECISION FREQUENCY COUNTER (`GET_FREQ_EQUAL`, FPGA/SPI_TEST_2/ADC.sv) and
             the divider that `GET_FREQ` gates it with, on any interleaving of the two clocks.

  * `Cleared`: where the counter of `clk_base` is known to be 0 outside a gate;
  * `Inside`: what the hidden counters hold inside a gate, and how far each clock has got;
    `inside_base`, `inside_test`: one edge of each clock;
  * `Gate`: the edges of one gate; `inside_gate`: the invariant through all of it;
  * **`GetFreqEqual.gate_exact`**: what is latched when the gate closes.
-/
import WifiOsc.Basis.Machine
import WifiOsc.Basis.Pacing
import WifiOsc.Fpga.Div

namespace WifiOsc

open Basis

/-! ## 1. The module -/

/-- A rising edge of `clk_base` or of `clk_test`. -/
inductive FreqEdge where
  | base | test
  deriving DecidableEq, Repr

/-- The registers of `GET_FREQ_EQUAL` and of the divider that drives `clk_en`. Only `isCount` and
    `isReady` have initial values. -/
structure GetFreqEqual (N : Nat) where
  div : Div N
  baseCount : BitVec 24
  testCount : BitVec 24
  isReady : Bool
  baseCountHide : BitVec 24
  testCountHide : BitVec 24
  isCount : Bool

namespace GetFreqEqual

variable {N : Nat}

/-- The last block, on a falling edge of `isCount`. -/
def save (en : Bool) (s : GetFreqEqual N) : GetFreqEqual N :=
  if !en then { s with isReady := false }
  else { s with testCount := s.testCountHide, baseCount := s.baseCountHide, isReady := true }

/-- An edge of `clk_base`: the divider and the second block. -/
def baseEdge (s : GetFreqEqual N) : GetFreqEqual N :=
  { s with
    div := s.div.step
    baseCountHide := if s.isCount then s.baseCountHide + 1#24 else 0#24 }

/-- An edge of `clk_test`: the first and the third block, then the last one if `isCount` falls. -/
def testEdge (en : Bool) (s : GetFreqEqual N) : GetFreqEqual N :=
  let s' := { s with
    isCount := s.div.clkDiv
    testCountHide := if s.isCount then s.testCountHide + 1#24 else 0#24 }
  if s.isCount && !s'.isCount then s'.save en else s'

def step (en : Bool) (s : GetFreqEqual N) : FreqEdge → GetFreqEqual N
  | .base => s.baseEdge
  | .test => s.testEdge en

def machine (N : Nat) (en : Bool) : Machine (GetFreqEqual N) FreqEdge Unit where
  step := step en
  out _ _ := []

/-- The registers after the edges `es`, with `en` at 1. -/
def after (s : GetFreqEqual N) (es : List FreqEdge) : GetFreqEqual N := (machine N true).run s es

structure PowerUp (s : GetFreqEqual N) : Prop where
  div : s.div.PowerUp
  isReady : s.isReady = false
  isCount : s.isCount = false

/-- The gate that the edge of `clk_test` behind `es` opens and the one behind `m` closes. -/
structure Gate (s : GetFreqEqual N) (es m : List FreqEdge) : Prop where
  closed : (s.after es).isCount = false
  opened : ∀ l r, m = l ++ r → (s.after (es ++ .test :: l)).isCount = true
  closes : (s.after (es ++ .test :: (m ++ [.test]))).isCount = false

/-! ## 2. One edge -/

variable {s s₀ : GetFreqEqual N} {h l m es : List FreqEdge} {T : Nat}

theorem after_snoc (s : GetFreqEqual N) (es : List FreqEdge) (e : FreqEdge) :
    s.after (es ++ [e]) = (s.after es).step true e :=
  Machine.run_snoc _ s es e

@[simp] theorem step_base : s.step true .base = s.baseEdge := rfl

@[simp] theorem step_test : s.step true .test = s.testEdge true := rfl

@[simp] theorem testEdge_isCount : (s.testEdge true).isCount = s.div.clkDiv := by
  unfold testEdge save
  dsimp only
  split <;> rfl

@[simp] theorem testEdge_div : (s.testEdge true).div = s.div := by
  unfold testEdge save
  dsimp only
  split <;> rfl

@[simp] theorem testEdge_baseCountHide : (s.testEdge true).baseCountHide = s.baseCountHide := by
  unfold testEdge save
  dsimp only
  split <;> rfl

@[simp] theorem testEdge_testCountHide : (s.testEdge true).testCountHide =
    if s.isCount then s.testCountHide + 1#24 else 0#24 := by
  unfold testEdge save
  dsimp only
  split <;> rfl

/-- The edge at which `isCount` falls takes both counters, its own count included. -/
theorem testEdge_closing (hcount : s.isCount = true) (hclk : s.div.clkDiv = false) :
    (s.testEdge true).testCount = s.testCountHide + 1#24 ∧
      (s.testEdge true).baseCount = s.baseCountHide ∧ (s.testEdge true).isReady = true := by
  simp [testEdge, save, hcount, hclk]

/-! ## 3. Outside a gate -/

/-- After the edges `h`: a rise of `clk_en` is an edge of `clk_base`, which clears the counter of
    `clk_base` unless a gate is open. -/
structure Cleared (s₀ : GetFreqEqual N) (h : List FreqEdge) (s : GetFreqEqual N) : Prop where
  good : s.div.Good
  risen : s.div.clkDiv = true → .base ∈ h ∨ s₀.div.clkDiv = true
  zero : s.isCount = false → s.div.clkDiv = true → .base ∈ h → s.baseCountHide = 0#24

theorem cleared_powerUp (hp : s₀.PowerUp) (h2 : 2 ≤ N) (hN : N / 2 ≤ 2 ^ 24) :
    Cleared s₀ [] s₀ :=
  ⟨Div.good_powerUp hp.div h2 hN, Or.inr, fun _ _ h => absurd h List.not_mem_nil⟩

theorem cleared_step (hI : Cleared s₀ h s) (e : FreqEdge) :
    Cleared s₀ (h ++ [e]) (s.step true e) := by
  cases e with
  | base =>
    refine ⟨Div.good_step hI.good, fun _ => Or.inl (by simp), ?_⟩
    intro hcount _ _
    have hcount' : s.isCount = false := hcount
    show (if s.isCount then s.baseCountHide + 1#24 else 0#24) = 0#24
    rw [hcount', if_neg Bool.false_ne_true]
  | test =>
    rw [step_test]
    refine ⟨by rw [testEdge_div]; exact hI.good, ?_, ?_⟩
    · rw [testEdge_div]
      intro hclk
      rcases hI.risen hclk with hb | h0
      · exact Or.inl (List.mem_append_left _ hb)
      · exact Or.inr h0
    · -- `isCount` takes the level of `clk_en`
      rw [testEdge_isCount, testEdge_div]
      intro hlow hhigh
      rw [hlow] at hhigh
      cases hhigh

theorem cleared_after (hp : s₀.PowerUp) (h2 : 2 ≤ N) (hN : N / 2 ≤ 2 ^ 24) (es : List FreqEdge) :
    Cleared s₀ es (s₀.after es) := by
  induction es using List.reverseRecOn with
  | nil => exact cleared_powerUp hp h2 hN
  | append_singleton es e ih =>
    rw [after_snoc]
    exact cleared_step ih e

/-! ## 4. Inside a gate -/

/-- The edges `l` have come since the gate was opened, and `h` altogether. While `clk_en` is high,
    its counter bounds both counts; once it is low, no edge of `clk_test` comes before the one that
    closes the gate. -/
structure Inside (T : Nat) (h l : List FreqEdge) (s : GetFreqEqual N) : Prop where
  good : s.div.Good
  isCount : s.isCount = true
  base : s.baseCountHide = BitVec.ofNat 24 (l.count .base)
  test : s.testCountHide = BitVec.ofNat 24 (l.count .test)
  phase : (s.div.clkDiv = true ∧ l.count .base ≤ s.div.cnt.toNat ∧
      l.count .test ≤ T * s.div.cnt.toNat + since .base h) ∨
    (s.div.clkDiv = false ∧ l.count .base ≤ N / 2 + s.div.cnt.toNat ∧
      l.count .test ≤ T * (N / 2) ∧ s.div.cnt.toNat + 1 ≤ since .test h)

/-- The edge that opens the gate. -/
theorem inside_open (hI : Cleared s₀ h s) (hclosed : s.isCount = false)
    (hclk : s.div.clkDiv = true) (hbase : .base ∈ h) :
    Inside T (h ++ [.test]) [] (s.testEdge true) := by
  refine ⟨by rw [testEdge_div]; exact hI.good, by rw [testEdge_isCount, hclk], ?_, ?_, Or.inl ?_⟩
  · rw [testEdge_baseCountHide, hI.zero hclosed hclk hbase]
    rfl
  · rw [testEdge_testCountHide, hclosed]
    rfl
  · rw [testEdge_div]
    exact ⟨hclk, Nat.zero_le _, Nat.zero_le _⟩

/-- An edge of `clk_test` that leaves the gate open. -/
theorem inside_test (hI : Inside T h l s) (hclk : s.div.clkDiv = true) :
    Inside T (h ++ [.test]) (l ++ [.test]) (s.testEdge true) := by
  have hbase : (l ++ [FreqEdge.test]).count .base = l.count .base := by simp
  have htest : (l ++ [FreqEdge.test]).count .test = l.count .test + 1 := by simp
  refine ⟨by rw [testEdge_div]; exact hI.good, by rw [testEdge_isCount, hclk], ?_, ?_, ?_⟩
  · rw [testEdge_baseCountHide, hI.base, hbase]
  · rw [testEdge_testCountHide, hI.isCount, if_pos rfl, hI.test, ← BitVec.ofNat_add, htest]
  · rcases hI.phase with ⟨_, hb, ht⟩ | ⟨hlow, _⟩
    · refine Or.inl ⟨by rw [testEdge_div, hclk], ?_, ?_⟩
      · rw [testEdge_div, hbase]
        exact hb
      · rw [testEdge_div, htest, since_snoc_of_ne (by decide)]
        omega
    · rw [hclk] at hlow
      cases hlow

/-- An edge of `clk_base`. `clk_en` cannot rise again: the edges of `clk_test` are too close. -/
theorem inside_base (hI : Inside T h l s) (hT : since .base h ≤ T)
    (hB : since .test h + 1 < N / 2) : Inside T (h ++ [.base]) (l ++ [.base]) s.baseEdge := by
  have hbase : (l ++ [FreqEdge.base]).count .base = l.count .base + 1 := by simp
  have htest : (l ++ [FreqEdge.base]).count .test = l.count .test := by simp
  refine ⟨Div.good_step hI.good, hI.isCount, ?_, ?_, ?_⟩
  · show (if s.isCount then s.baseCountHide + 1#24 else 0#24) = _
    rw [hI.isCount, if_pos rfl, hI.base, ← BitVec.ofNat_add, hbase]
  · show s.testCountHide = _
    rw [hI.test, htest]
  · rw [hbase, htest, since_snoc_self, since_snoc_of_ne (by decide)]
    show (s.div.step.clkDiv = true ∧ l.count .base + 1 ≤ s.div.step.cnt.toNat ∧
        l.count .test ≤ T * s.div.step.cnt.toNat + 0) ∨
      (s.div.step.clkDiv = false ∧ l.count .base + 1 ≤ N / 2 + s.div.step.cnt.toNat ∧
        l.count .test ≤ T * (N / 2) ∧ s.div.step.cnt.toNat + 1 ≤ since .test h + 1)
    rcases hI.phase with ⟨hclk, hb, ht⟩ | ⟨hclk, hb, ht, hs⟩
    · have hstep : l.count .test ≤ T * (s.div.cnt.toNat + 1) := by
        rw [Nat.mul_succ]
        omega
      rcases Div.step_cases hI.good with ⟨hlast, hturn, hcnt⟩ | ⟨_, hkeep, hcnt⟩
      · refine Or.inr ⟨by rw [hturn, hclk]; rfl, by omega, hlast ▸ hstep, by omega⟩
      · refine Or.inl ⟨by rw [hkeep, hclk], by omega, ?_⟩
        rw [hcnt]
        exact hstep
    · rcases Div.step_cases hI.good with ⟨hlast, _⟩ | ⟨_, hkeep, hcnt⟩
      · omega
      · exact Or.inr ⟨by rw [hkeep, hclk], by omega, ht, by omega⟩

/-! ## 5. A whole gate -/

/-- The edges of one gate, with those before it. -/
def gateEdges (es m : List FreqEdge) : List FreqEdge := es ++ .test :: (m ++ [.test])

/-- At most `T` edges of `clk_test` between two of `clk_base`, and fewer than half a period of
    `clk_en` the other way round. -/
structure Spaced (N T : Nat) (es : List FreqEdge) : Prop where
  base : Gaps .base T es
  test : Gaps .test (N / 2 - 1) es

theorem inside_gate (hI : Cleared s₀ es (s₀.after es)) (hclk : s₀.div.clkDiv = true → .base ∈ es)
    (hs : Spaced N T (gateEdges es m)) (hg : s₀.Gate es m) (l r : List FreqEdge)
    (hm : m = l ++ r) : Inside T (es ++ .test :: l) l (s₀.after (es ++ .test :: l)) := by
  have hopen := hg.opened [] m rfl
  rw [after_snoc, step_test, testEdge_isCount] at hopen
  have hbase : .base ∈ es := by
    rcases hI.risen hopen with hb | h0
    · exact hb
    · exact hclk h0
  induction l using List.reverseRecOn generalizing r with
  | nil =>
    rw [after_snoc]
    exact inside_open hI hg.closed hopen hbase
  | append_singleton l e ih =>
    have hm' : m = l ++ (e :: r) := by rw [hm, List.append_assoc]; rfl
    have hIl := ih (e :: r) hm'
    have hsplit : es ++ .test :: (l ++ [e]) = (es ++ .test :: l) ++ [e] := by simp
    rw [hsplit, after_snoc]
    cases e with
    | test =>
      have hnext := hg.opened (l ++ [.test]) r hm
      rw [hsplit, after_snoc, step_test, testEdge_isCount] at hnext
      exact inside_test hIl hnext
    | base =>
      have hedges : gateEdges es m = (es ++ .test :: l) ++ (.base :: (r ++ [.test])) := by
        simp [gateEdges, hm']
      have hedges' : gateEdges es m = ((es ++ .test :: l) ++ [.base]) ++ (r ++ [.test]) := by
        simp [gateEdges, hm']
      have hT : since .base (es ++ .test :: l) ≤ T :=
        Gaps.since_le (hedges ▸ hs.base) (List.mem_append_left _ hbase) (by simp)
      have hB : since .test ((es ++ .test :: l) ++ [.base]) ≤ N / 2 - 1 :=
        Gaps.since_le (hedges' ▸ hs.test) (by simp) (by simp)
      rw [since_snoc_of_ne (by decide)] at hB
      exact inside_base hIl hT (by omega)

/-- The edge that closes the gate comes after `clk_en` has fallen. -/
theorem inside_closed (hI : Inside T h l s) (hclk : s.div.clkDiv = false) :
    l.count .base ≤ 2 * (N / 2) ∧ l.count .test ≤ T * (N / 2) := by
  have hlt := hI.good.lt
  rcases hI.phase with ⟨hhigh, _⟩ | ⟨_, hb, ht, _⟩
  · rw [hclk] at hhigh
    cases hhigh
  · exact ⟨by omega, ht⟩

theorem toNat_ofNat {k : Nat} (hk : k < 2 ^ 24) : (BitVec.ofNat 24 k).toNat = k := by
  rw [BitVec.toNat_ofNat]
  exact Nat.mod_eq_of_lt hk

/-- **A gate is counted exactly**, for every even divisor that is small against the counters. -/
theorem gate_counts (hI : Cleared s₀ es (s₀.after es)) (hN : 2 * (N / 2) < 2 ^ 24)
    (hT : T * (N / 2) + 1 < 2 ^ 24) (hclk : s₀.div.clkDiv = true → .base ∈ es)
    (hs : Spaced N T (gateEdges es m)) (hg : s₀.Gate es m) :
    (s₀.after (gateEdges es m)).testCount.toNat = m.count .test + 1 ∧
      (s₀.after (gateEdges es m)).baseCount.toNat = m.count .base ∧
      (s₀.after (gateEdges es m)).isReady = true ∧
      ∀ l r, m = l ++ r →
        (s₀.after (es ++ .test :: l)).testCountHide.toNat = l.count .test ∧
          (s₀.after (es ++ .test :: l)).baseCountHide.toNat = l.count .base := by
  have hlast := inside_gate hI hclk hs hg m [] (List.append_nil m).symm
  have hedges : gateEdges es m = (es ++ .test :: m) ++ [.test] := by simp [gateEdges]
  have hlow := hg.closes
  rw [show es ++ .test :: (m ++ [.test]) = (es ++ .test :: m) ++ [.test] by simp, after_snoc,
    step_test, testEdge_isCount] at hlow
  obtain ⟨hb, ht⟩ := inside_closed hlast hlow
  obtain ⟨htest, hbase, hready⟩ := testEdge_closing hlast.isCount hlow
  rw [hedges, after_snoc, step_test]
  refine ⟨?_, ?_, hready, ?_⟩
  · rw [htest, hlast.test, ← BitVec.ofNat_add, toNat_ofNat (by omega)]
  · rw [hbase, hlast.base, toNat_ofNat (by omega)]
  · intro l r hm
    have hl := inside_gate hI hclk hs hg l r hm
    have hb' : l.count .base ≤ m.count .base := by
      rw [hm, List.count_append]
      exact Nat.le_add_right _ _
    have ht' : l.count .test ≤ m.count .test := by
      rw [hm, List.count_append]
      exact Nat.le_add_right _ _
    refine ⟨?_, ?_⟩
    · rw [hl.test, toNat_ofNat (by omega)]
    · rw [hl.base, toNat_ofNat (by omega)]

/-- **The frequency counter**, gated by `Div #(50000)`: what is latched at the end of a gate is the
    number of edges of each clock since its beginning, and no counter wraps on the way. -/
theorem gate_exact (s₀ : GetFreqEqual 50000) (hp : s₀.PowerUp) (es m : List FreqEdge)
    (hclk : s₀.div.clkDiv = true → .base ∈ es) (hbase : Gaps .base 50 (gateEdges es m))
    (htest : Gaps .test 24999 (gateEdges es m)) (hg : s₀.Gate es m) :
    (s₀.after (gateEdges es m)).testCount.toNat = m.count .test + 1 ∧
      (s₀.after (gateEdges es m)).baseCount.toNat = m.count .base ∧
      (s₀.after (gateEdges es m)).isReady = true ∧
      ∀ l r, m = l ++ r →
        (s₀.after (es ++ .test :: l)).testCountHide.toNat = l.count .test ∧
          (s₀.after (es ++ .test :: l)).baseCountHide.toNat = l.count .base :=
  gate_counts (cleared_after hp (by decide) (by decide) es) (by decide) (by decide) hclk
    ⟨hbase, htest⟩ hg

/-! ### One gate -/

theorem after_base_isCount (s : GetFreqEqual N) (k : Nat) :
    (s.after (List.replicate k .base)).isCount = s.isCount := by
  induction k with
  | zero => rfl
  | succ k ih =>
    rw [List.replicate_succ', after_snoc]
    exact ih

/-- Edges of `clk_base` up to the turn of `clk_en`. -/
theorem after_base_div (hgood : s.div.Good) (k : Nat) (hk : s.div.cnt.toNat + k < N / 2) :
    (s.after (List.replicate k .base)).div.Good ∧
      (s.after (List.replicate k .base)).div.clkDiv = s.div.clkDiv ∧
      (s.after (List.replicate k .base)).div.cnt.toNat = s.div.cnt.toNat + k := by
  induction k with
  | zero => exact ⟨hgood, rfl, rfl⟩
  | succ k ih =>
    obtain ⟨hg, hclk, hcnt⟩ := ih (by omega)
    rw [List.replicate_succ', after_snoc, step_base]
    rcases Div.step_cases hg with ⟨hlast, _⟩ | ⟨_, hkeep, hnext⟩
    · omega
    · refine ⟨Div.good_step hg, hkeep.trans hclk, hnext.trans ?_⟩
      omega

/-- The edge of `clk_base` at which `clk_en` turns. -/
theorem after_base_turn (hgood : s.div.Good) (k : Nat) (hk : s.div.cnt.toNat + k + 1 = N / 2) :
    (s.after (List.replicate (k + 1) .base)).div.Good ∧
      (s.after (List.replicate (k + 1) .base)).div.clkDiv = !s.div.clkDiv ∧
      (s.after (List.replicate (k + 1) .base)).div.cnt.toNat = 0 := by
  obtain ⟨hg, hclk, hcnt⟩ := after_base_div hgood k (by omega)
  rw [List.replicate_succ', after_snoc, step_base]
  rcases Div.step_cases hg with ⟨_, hturn, hzero⟩ | ⟨hlt, _⟩
  · exact ⟨Div.good_step hg, hturn.trans (by rw [hclk]), hzero⟩
  · omega

/-- A gate opened right after `clk_en` has risen and closed right after it has fallen. -/
theorem gate_first (hp : s.PowerUp) (hclk : s.div.clkDiv = false) {n : Nat} (hn : N / 2 = n + 2)
    (hfits : N / 2 ≤ 2 ^ 24) :
    s.Gate (List.replicate (n + 3) .base) (List.replicate (n + 1) .base) := by
  have hcnt₀ : s.div.cnt.toNat = 0 := by rw [hp.div.cnt]; rfl
  have hgood : s.div.Good := Div.good_powerUp hp.div (by omega) hfits
  obtain ⟨hg, hrise, hzero⟩ := after_base_turn hgood (n + 1) (by omega)
  obtain ⟨hg₁, hhigh, hone⟩ := after_base_div hg 1 (by omega)
  have hsplit : s.after (List.replicate (n + 3) .base) =
      (s.after (List.replicate (n + 2) .base)).after (List.replicate 1 .base) := by
    rw [List.replicate_succ']
    exact Machine.run_append _ _ _ _
  rw [← hsplit] at hg₁ hhigh hone
  rw [hrise, hclk] at hhigh
  have hopened (l : List FreqEdge) : s.after (List.replicate (n + 3) .base ++ .test :: l) =
      ((s.after (List.replicate (n + 3) .base)).testEdge true).after l :=
    Machine.run_append _ _ _ _
  refine ⟨(after_base_isCount s (n + 3)).trans hp.isCount, ?_, ?_⟩
  · intro l r hm
    have hl : l = List.replicate l.length .base :=
      (List.append_eq_replicate_iff.mp hm.symm).2.1
    rw [hl, hopened, after_base_isCount, testEdge_isCount, hhigh]
    rfl
  · obtain ⟨_, hfall, _⟩ := after_base_turn
      (s := (s.after (List.replicate (n + 3) .base)).testEdge true)
      (by rw [testEdge_div]; exact hg₁) n (by rw [testEdge_div]; omega)
    rw [hopened, after_snoc, step_test, testEdge_isCount, hfall, testEdge_div, hhigh]
    rfl

/-- Power-up in the device: every register 0. -/
def allZero : GetFreqEqual 50000 := ⟨⟨0#24, false⟩, 0#24, 0#24, false, 0#24, 0#24, false⟩

theorem gate_exact_first :
    (allZero.after
      (gateEdges (List.replicate 25001 .base) (List.replicate 24999 .base))).testCount.toNat = 1 ∧
    (allZero.after
      (gateEdges (List.replicate 25001 .base) (List.replicate 24999 .base))).baseCount.toNat
        = 24999 := by
  have hno (k : Nat) : FreqEdge.test ∉ List.replicate k FreqEdge.base := by
    intro hmem
    cases List.eq_of_mem_replicate hmem
  have hfew (a b : Nat) : Gaps FreqEdge.base 50
      (gateEdges (List.replicate a .base) (List.replicate b .base)) := by
    refine gaps_of_few ?_
    simp [gateEdges, List.countP_append, List.countP_replicate]
  have hp : allZero.PowerUp := ⟨⟨rfl⟩, rfl, rfl⟩
  have hgate := gate_first (n := 24998) hp rfl rfl (by decide)
  obtain ⟨ht, hb, _⟩ := gate_exact allZero hp (List.replicate 25001 .base)
    (List.replicate 24999 .base) (fun h => absurd h Bool.false_ne_true) (hfew 25001 24999)
    (gaps_pair (hno 25001) (hno 24999) (by rw [List.length_replicate])) hgate
  refine ⟨ht.trans ?_, hb.trans ?_⟩
  · rw [List.count_eq_zero_of_not_mem (hno 24999)]
  · rw [List.count_replicate_self]

end GetFreqEqual

end WifiOsc
