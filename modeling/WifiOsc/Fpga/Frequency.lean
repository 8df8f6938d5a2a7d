/-
  File:      WifiOsc/Fpga/Frequency.lean
  Subject:   EQUAL PRECISION. What `GET_FREQ` makes of a periodic signal, at every moment of a run.

  Both counts are taken over the same whole number of periods of the signal, so the reference clock
  is the only one that is cut off, at either end: the measured ratio is within one of its periods,
  whatever the frequency of the signal.

  `clk_div` has no initial value. Where it comes up high, a first gate may be opened before the first
  edge of `clk_base` has cleared the counter; the gate after it is good, and comes in time.

  * `Opened`, `Holds`: a gate that is open, a gate whose counts are latched;
  * `Course`: the halves of `clk_en` since power-up, and what has happened in them;
    `course_base`, `course_test`: one edge of each clock;
  * `holds_of_course`: four halves after power-up, the registers hold a gate;
    `gate_length`: which is nearly half a period of `clk_en` long;
  * `GetFreqEqual.precise`: so they hold the frequency, to within one period of `clk_base`.
-/
import WifiOsc.Basis.Periodic
import WifiOsc.Fpga.GetFreq

namespace WifiOsc

open Basis

namespace GetFreqEqual

variable {N : Nat} {s s₀ : GetFreqEqual N} {es m : List FreqEdge} {b : Nat}

/-! ## 1. Gates -/

/-- A gate has been opened, after an edge of `clk_base`, and is still open. -/
def Opened (s₀ : GetFreqEqual N) (es : List FreqEdge) : Prop :=
  ∃ es₀ m, es = es₀ ++ .test :: m ∧ .base ∈ es₀ ∧ (s₀.after es₀).isCount = false ∧
    ∀ l r, m = l ++ r → (s₀.after (es₀ ++ .test :: l)).isCount = true

/-- The registers hold what was latched at the end of a gate, `b` edges of `clk_base` ago at most. -/
def Holds (s₀ : GetFreqEqual N) (es : List FreqEdge) (b : Nat) : Prop :=
  ∃ es₀ m r, es = gateEdges es₀ m ++ r ∧ r.count .base ≤ b ∧ .base ∈ es₀ ∧ s₀.Gate es₀ m ∧
    (s₀.after es).testCount = (s₀.after (gateEdges es₀ m)).testCount ∧
    (s₀.after es).baseCount = (s₀.after (gateEdges es₀ m)).baseCount ∧
    (s₀.after es).isReady = (s₀.after (gateEdges es₀ m)).isReady

@[simp] theorem baseEdge_isCount : s.baseEdge.isCount = s.isCount := rfl

/-- Only the edge that closes a gate latches. -/
theorem testEdge_keeps (h : s.isCount = true → s.div.clkDiv = true) :
    (s.testEdge true).testCount = s.testCount ∧ (s.testEdge true).baseCount = s.baseCount ∧
      (s.testEdge true).isReady = s.isReady := by
  have hnot : (s.isCount && !s.div.clkDiv) = false := by
    cases hc : s.isCount
    · rfl
    · simp [h hc]
  simp [testEdge, hnot]

theorem holds_base (h : Holds s₀ es b) : Holds s₀ (es ++ [.base]) (b + 1) := by
  obtain ⟨es₀, m, r, rfl, hage, hb, hgate, hregs⟩ := h
  refine ⟨es₀, m, r ++ [.base], List.append_assoc _ _ _, ?_, hb, hgate, ?_⟩
  · simpa using hage
  rw [after_snoc]
  exact hregs

theorem holds_test (h : Holds s₀ es b)
    (hkeep : (s₀.after es).isCount = true → (s₀.after es).div.clkDiv = true) :
    Holds s₀ (es ++ [.test]) b := by
  obtain ⟨es₀, m, r, rfl, hage, hb, hgate, ht, hbase, hready⟩ := h
  obtain ⟨ht', hbase', hready'⟩ := testEdge_keeps hkeep
  refine ⟨es₀, m, r ++ [.test], List.append_assoc _ _ _, by simpa using hage, hb, hgate, ?_⟩
  rw [after_snoc, step_test]
  exact ⟨ht'.trans ht, hbase'.trans hbase, hready'.trans hready⟩

theorem holds_mem (h : Holds s₀ es b) : .base ∈ es := by
  obtain ⟨es₀, m, r, rfl, -, hb, -⟩ := h
  exact List.mem_append_left _ (List.mem_append_left _ hb)

/-- An edge that leaves the gate open. -/
theorem opened_snoc (h : Opened s₀ es) (e : FreqEdge)
    (he : (s₀.after (es ++ [e])).isCount = true) : Opened s₀ (es ++ [e]) := by
  obtain ⟨es₀, m, rfl, hb, hclosed, hopen⟩ := h
  refine ⟨es₀, m ++ [e], by simp, hb, hclosed, fun l r hm => ?_⟩
  rcases List.eq_nil_or_concat r with rfl | ⟨r', e', rfl⟩
  · rw [List.append_nil] at hm
    rw [← hm]
    simpa using he
  · rw [List.concat_eq_append, ← List.append_assoc] at hm
    exact hopen l r' (List.append_inj' hm rfl).1

/-- The edge that opens a gate. -/
theorem opened_new (hb : .base ∈ es) (hclosed : (s₀.after es).isCount = false)
    (he : (s₀.after (es ++ [.test])).isCount = true) : Opened s₀ (es ++ [.test]) := by
  refine ⟨es, [], rfl, hb, hclosed, fun l r hm => ?_⟩
  rw [(List.append_eq_nil_iff.mp hm.symm).1]
  exact he

/-- The edge that closes it. -/
theorem holds_close (h : Opened s₀ es) (he : (s₀.after (es ++ [.test])).isCount = false) :
    Holds s₀ (es ++ [.test]) 0 := by
  obtain ⟨es₀, m, rfl, hb, hclosed, hopen⟩ := h
  have hedges : es₀ ++ .test :: m ++ [.test] = gateEdges es₀ m := by simp [gateEdges]
  rw [hedges] at he ⊢
  exact ⟨es₀, m, [], (List.append_nil _).symm, Nat.le_refl 0, hb, ⟨hclosed, hopen, he⟩, rfl, rfl,
    rfl⟩

/-- A gate that is open was opened after an edge of `clk_base`. -/
def Sound (s₀ : GetFreqEqual N) (es : List FreqEdge) : Prop :=
  (s₀.after es).isCount = true → Opened s₀ es

/-! ## 2. The halves of clk_en -/

/-- How long ago a gate has been closed: in the high half `k` it was in the half before, in a low
    half it was in this one, or two halves ago and the next gate is still open. -/
def Recent (s₀ : GetFreqEqual N) (es : List FreqEdge) (k j b : Nat) : Prop :=
  (k % 2 = 0 ∧ b ≤ N / 2 + j) ∨
    (k % 2 = 1 ∧ (b ≤ j ∨ (s₀.after es).isCount = true ∧ b ≤ 2 * (N / 2) + j))

/-- What has happened by half `k` of `clk_en`, the even ones high: from the third one on a gate that
    is open is a good one, in the fourth one it is open until a gate has been closed. -/
inductive Stage (s₀ : GetFreqEqual N) (es : List FreqEdge) (k j : Nat) : Prop where
  | early (hk : k ≤ 1)
  | opening (hk : k = 2) (ho : Sound s₀ es)
  | closing (hk : k = 3) (hc : (s₀.after es).isCount = true) (ho : Opened s₀ es)
  | held (b : Nat) (hh : Holds s₀ es b) (ho : Sound s₀ es) (hb : Recent s₀ es k j b)

/-- The run stands in half `k` of `clk_en`, `j` edges of `clk_base` into it. The edge that turns
    `clk_en` comes after an edge of `clk_test`. -/
structure Course (s₀ : GetFreqEqual N) (es : List FreqEdge) (k j : Nat) : Prop where
  good : (s₀.after es).div.Good
  cnt : (s₀.after es).div.cnt.toNat = j
  level : (s₀.after es).div.clkDiv = decide (k % 2 = 0)
  count : es.count .base + (if s₀.div.clkDiv then 0 else N / 2) = k * (N / 2) + j
  follows : (s₀.after es).isCount = (s₀.after es).div.clkDiv ∨ j ≤ since .test es
  stage : Stage s₀ es k j

section Course

variable {k j : Nat}

theorem course_powerUp (hp : s₀.PowerUp) (h2 : 2 ≤ N) (hN : N / 2 ≤ 2 ^ 24) :
    Course s₀ [] (if s₀.div.clkDiv then 0 else 1) 0 := by
  have hzero : s₀.div.cnt.toNat = 0 := by
    rw [hp.div.cnt]
    rfl
  refine ⟨Div.good_powerUp hp.div h2 hN, hzero, ?_, ?_, Or.inr (Nat.zero_le _), .early ?_⟩
  · show s₀.div.clkDiv = _
    cases s₀.div.clkDiv <;> rfl
  · cases s₀.div.clkDiv <;> simp
  · split <;> omega

theorem sound_base (h : Sound s₀ es) : Sound s₀ (es ++ [.base]) := by
  intro hc
  have hopen : (s₀.after (es ++ [.base])).isCount = (s₀.after es).isCount := by
    rw [after_snoc]
    rfl
  exact opened_snoc (h (hopen ▸ hc)) _ hc

/-- An edge of `clk_test` after the first of `clk_base`. -/
theorem sound_test (h : Sound s₀ es) (hb : .base ∈ es) : Sound s₀ (es ++ [.test]) := by
  intro hc
  cases hopen : (s₀.after es).isCount with
  | true => exact opened_snoc (h hopen) _ hc
  | false => exact opened_new hb hopen hc

/-- An edge of `clk_base`. -/
theorem course_base (h : Course s₀ es k j) (hpace : since .test (es ++ [.base]) < N / 2) :
    ∃ k' j', Course s₀ (es ++ [.base]) k' j' := by
  have hafter : s₀.after (es ++ [.base]) = (s₀.after es).baseEdge := after_snoc s₀ es .base
  have hdiv : (s₀.after (es ++ [.base])).div = (s₀.after es).div.step := by
    rw [hafter]
    rfl
  have hopen : (s₀.after (es ++ [.base])).isCount = (s₀.after es).isCount := by
    rw [hafter]
    rfl
  have hsince : since .test (es ++ [.base]) = since .test es + 1 := since_snoc_of_ne (by decide)
  have hcount : (es ++ [FreqEdge.base]).count .base = es.count .base + 1 := by simp
  have hj := h.cnt
  have hall := h.count
  rcases Div.step_cases h.good with ⟨hlast, hturn, hcnt⟩ | ⟨hlt, hkeep, hcnt⟩
  · -- the gate follows `clk_en` before it turns
    have hfollows : (s₀.after es).isCount = decide (k % 2 = 0) := by
      rw [← h.level]
      exact h.follows.resolve_right fun hle => by omega
    refine ⟨k + 1, 0, ⟨by rw [hdiv]; exact Div.good_step h.good, by rw [hdiv, hcnt], ?_, ?_,
      Or.inr (Nat.zero_le _), ?_⟩⟩
    · rw [hdiv, hturn, h.level]
      rcases Nat.mod_two_eq_zero_or_one k with hk | hk <;> simp [Nat.add_mod, hk]
    · rw [hcount, Nat.add_mul]
      omega
    · cases h.stage with
      | early hk =>
        obtain rfl | rfl : k = 0 ∨ k = 1 := by omega
        · exact .early (Nat.le_refl 1)
        · exact .opening rfl fun hc => by
            rw [hopen, hfollows] at hc
            exact absurd hc (by decide)
      | opening hk ho =>
        subst hk
        have hc : (s₀.after (es ++ [.base])).isCount = true := by
          rw [hopen, hfollows]
          rfl
        exact .closing rfl hc (sound_base ho hc)
      | closing hk hc =>
        subst hk
        rw [hfollows] at hc
        exact absurd hc (by decide)
      | held b hh ho hb =>
        refine .held (b + 1) (holds_base hh) (sound_base ho) ?_
        unfold Recent at hb ⊢
        rw [hopen, hfollows]
        rw [hfollows, decide_eq_true_eq] at hb
        rcases hb with ⟨hk, hb⟩ | ⟨hk, hb⟩
        · exact Or.inr ⟨by omega, Or.inr ⟨by rw [hk]; rfl, by omega⟩⟩
        · exact Or.inl ⟨by omega, by omega⟩
  · refine ⟨k, j + 1, ⟨by rw [hdiv]; exact Div.good_step h.good, by rw [hdiv, hcnt, hj], ?_, ?_,
      ?_, ?_⟩⟩
    · rw [hdiv, hkeep, h.level]
    · rw [hcount]
      omega
    · rw [hopen, hdiv, hkeep, hsince]
      exact h.follows.imp_right fun hle => Nat.succ_le_succ hle
    · cases h.stage with
      | early hk => exact .early hk
      | opening hk ho => exact .opening hk (sound_base ho)
      | closing hk hc ho =>
        have hc' : (s₀.after (es ++ [.base])).isCount = true := hopen.trans hc
        exact .closing hk hc' (opened_snoc ho _ hc')
      | held b hh ho hb =>
        refine .held (b + 1) (holds_base hh) (sound_base ho) ?_
        unfold Recent at hb ⊢
        rw [hopen]
        rcases hb with ⟨hk, hb⟩ | ⟨hk, hb | ⟨hc, hb⟩⟩
        · exact Or.inl ⟨hk, by omega⟩
        · exact Or.inr ⟨hk, Or.inl (by omega)⟩
        · exact Or.inr ⟨hk, Or.inr ⟨hc, by omega⟩⟩

/-- An edge of `clk_test`: the gate takes the level of `clk_en`. -/
theorem course_test (h2 : 2 ≤ N) (h : Course s₀ es k j) : Course s₀ (es ++ [.test]) k j := by
  have hafter : s₀.after (es ++ [.test]) = (s₀.after es).testEdge true := after_snoc s₀ es .test
  have hdiv : (s₀.after (es ++ [.test])).div = (s₀.after es).div := by rw [hafter, testEdge_div]
  have hopen : (s₀.after (es ++ [.test])).isCount = (s₀.after es).div.clkDiv := by
    rw [hafter, testEdge_isCount]
  have hcount : (es ++ [FreqEdge.test]).count .base = es.count .base := by simp
  refine ⟨by rw [hdiv]; exact h.good, by rw [hdiv]; exact h.cnt, by rw [hdiv]; exact h.level,
    by rw [hcount]; exact h.count, Or.inl (by rw [hopen, hdiv]), ?_⟩
  cases h.stage with
  | early hk => exact .early hk
  | opening hk ho =>
    have hall := h.count
    subst hk
    have hb : .base ∈ es := List.count_pos_iff.mp (by split at hall <;> omega)
    exact .opening rfl (sound_test ho hb)
  | closing hk hc ho =>
    subst hk
    have hlow : (s₀.after (es ++ [.test])).isCount = false := by
      rw [hopen, h.level]
      rfl
    refine .held 0 (holds_close ho hlow) (fun hc' => ?_) (Or.inr ⟨rfl, Or.inl (Nat.zero_le j)⟩)
    rw [hlow] at hc'
    cases hc'
  | held b hh ho hb =>
    have hsound := sound_test ho (holds_mem hh)
    have hopen' : (s₀.after (es ++ [.test])).isCount = decide (k % 2 = 0) := by rw [hopen, h.level]
    by_cases hkeep : (s₀.after es).isCount = true → (s₀.after es).div.clkDiv = true
    · refine .held b (holds_test hh hkeep) hsound ?_
      rw [h.level, decide_eq_true_eq] at hkeep
      rcases hb with hb | ⟨hk, hb | ⟨hc, -⟩⟩
      · exact Or.inl hb
      · exact Or.inr ⟨hk, Or.inl hb⟩
      · have := hkeep hc
        omega
    · obtain ⟨hc, hlow⟩ := Classical.not_imp.mp hkeep
      refine .held 0 (holds_close (ho hc) (hopen.trans (Bool.eq_false_iff.mpr hlow))) hsound ?_
      rw [h.level, decide_eq_true_eq] at hlow
      exact Or.inr ⟨by omega, Or.inl (Nat.zero_le j)⟩

/-- Every run, as long as edges of `clk_test` come often enough. -/
theorem course_run (hp : s₀.PowerUp) (h2 : 2 ≤ N) (hN : N / 2 ≤ 2 ^ 24)
    (hpace : ∀ l r, es = l ++ r → since .test l < N / 2) : ∃ k j, Course s₀ es k j := by
  induction es using List.reverseRecOn with
  | nil => exact ⟨_, _, course_powerUp hp h2 hN⟩
  | append_singleton es e ih =>
    obtain ⟨k, j, h⟩ := ih fun l r hl => hpace l (r ++ [e]) (by rw [hl, List.append_assoc])
    cases e with
    | base => exact course_base h (hpace _ [] (List.append_nil _).symm)
    | test => exact ⟨k, j, course_test h2 h⟩

/-- **Four halves after power-up the registers hold a gate**, and it is less than three halves old. -/
theorem holds_of_course (h : Course s₀ es k j) (hlong : 4 * (N / 2) ≤ es.count .base) :
    ∃ b < 3 * (N / 2), Holds s₀ es b := by
  have hall := h.count
  have hlt := h.good.lt
  have hk : 4 ≤ k := by
    by_contra hk
    have hle : k * (N / 2) ≤ 3 * (N / 2) := Nat.mul_le_mul_right _ (by omega)
    rw [h.cnt] at hlt
    omega
  rw [h.cnt] at hlt
  cases h.stage with
  | early hk' | opening hk' | closing hk' => omega
  | held b hh ho hb =>
    refine ⟨b, ?_, hh⟩
    rcases hb with ⟨-, hb⟩ | ⟨-, hb | ⟨-, hb⟩⟩ <;> omega

/-- **A gate is nearly half a period of `clk_en` long**: it misses the edges of `clk_base` that came
    before the first edge of `clk_test`. -/
theorem gate_length (h2 : 2 ≤ N) (hp : s₀.PowerUp) (hN : N / 2 ≤ 2 ^ 24) (hg : s₀.Gate es m)
    (hpace : ∀ l r, gateEdges es m = l ++ r → since .test l < N / 2) :
    N / 2 ≤ m.count .base + since .test es := by
  obtain ⟨k, j, h⟩ : ∃ k j, Course s₀ es k j := course_run hp h2 hN fun l r hl =>
    hpace l (r ++ .test :: (m ++ [.test])) (by rw [gateEdges, hl, List.append_assoc])
  have hopened := hg.opened [] m rfl
  have hcloses := hg.closes
  obtain ⟨k', j', h'⟩ : ∃ k j, Course s₀ (es ++ .test :: m) k j := course_run hp h2 hN fun l r hl =>
    hpace l (r ++ [.test]) (by rw [← List.append_assoc, ← hl, gateEdges]; simp)
  rw [after_snoc, step_test, testEdge_isCount, h.level] at hopened
  rw [show es ++ .test :: (m ++ [.test]) = (es ++ .test :: m) ++ [.test] by simp, after_snoc,
    step_test, testEdge_isCount, h'.level] at hcloses
  have hj : j ≤ since .test es := h.follows.resolve_left fun he => by
    rw [hg.closed, h.level, hopened] at he
    cases he
  by_contra hshort
  -- so `clk_en` has not turned in between
  have hcount := h.count
  have hcount' := h'.count
  rw [List.count_append, List.count_cons_of_ne (by decide)] at hcount'
  have hlt' := h'.good.lt
  rw [h'.cnt] at hlt'
  have hsame : k' = k := by
    have hpos : 0 < N / 2 := by omega
    have hk : (k * (N / 2) + (j + m.count .base)) / (N / 2) = k := by
      rw [Nat.mul_comm, Nat.mul_add_div hpos, Nat.div_eq_of_lt (by omega), Nat.add_zero]
    have hk' : (k' * (N / 2) + j') / (N / 2) = k' := by
      rw [Nat.mul_comm, Nat.mul_add_div hpos, Nat.div_eq_of_lt hlt', Nat.add_zero]
    rw [← hk, ← hk']
    congr 1
    omega
  rw [hsame, hopened] at hcloses
  cases hcloses

end Course

/-! ## 3. Periodic clocks -/

section Precise

variable {K : Type} [Field K] [LinearOrder K] [IsStrictOrderedRing K]

theorem other_of_ne_test : ∀ z : FreqEdge, z ≠ .test → z = .base
  | .base, _ => rfl
  | .test, h => absurd rfl h

theorem other_of_ne_base : ∀ z : FreqEdge, z ≠ .base → z = .test
  | .base, h => absurd rfl h
  | .test, _ => rfl

/-- **Equal precision.** A periodic signal with more than a 50th and less than 24999 times the period
    of `clk_base`: in every run from power-up, from the 100000th edge of `clk_base` on, the
    registers hold the counts of a gate that was closed less than 75000 edges ago. `test_count`
    periods of the signal and `base_count` periods of `clk_base` differ by at most one period of
    `clk_base`, and a gate is as long as 24999 of these, but for one period of the signal. -/
theorem precise (c : Clocks FreqEdge K) (s₀ : GetFreqEqual 50000) (hp : s₀.PowerUp)
    (es : List FreqEdge) (ho : c.Ordered es) (hbase : c.period .base < 50 * c.period .test)
    (htest : c.period .test < 24999 * c.period .base) (hlong : 100000 ≤ es.count .base) :
    let s := s₀.after es
    ∃ es₀ m r, es = gateEdges es₀ m ++ r ∧ r.count .base < 75000 ∧ s₀.Gate es₀ m ∧
      s.isReady = true ∧ s.testCount.toNat = m.count .test + 1 ∧
      s.baseCount.toNat = m.count .base ∧
      |s.testCount.toNat * c.period .test - s.baseCount.toNat * c.period .base| ≤
        c.period .base ∧
      24999 * c.period .base ≤ s.baseCount.toNat * c.period .base + c.period .test := by
  intro s
  have hpaceT : ∀ l r, es = l ++ r → since .test l ≤ 24999 := fun l r hl =>
    Clocks.since_le other_of_ne_test (hl ▸ ho) (by exact_mod_cast htest)
  have hpaceB : ∀ l r, es = l ++ r → since .base l ≤ 50 := fun l r hl =>
    Clocks.since_le other_of_ne_base (hl ▸ ho) (by exact_mod_cast hbase)
  obtain ⟨k, j, hcourse⟩ := course_run (N := 50000) hp (by decide) (by decide) fun l r hl =>
    Nat.lt_succ_of_le (hpaceT l r hl)
  obtain ⟨b, hb, es₀, m, r, rfl, hage, hmem, hgate, htc, hbc, hready⟩ :=
    holds_of_course hcourse hlong
  have hcounts := gate_counts (cleared_after hp (by decide) (by decide) es₀) (by decide) (by decide)
    (fun _ => hmem) ⟨(gaps_of_since hpaceB).left, (gaps_of_since hpaceT).left⟩ hgate
  obtain ⟨ht, hbn, hr, -⟩ := hcounts
  have htest' : s.testCount.toNat = m.count .test + 1 := by rw [← ht, ← htc]
  have hbase' : s.baseCount.toNat = m.count .base := by rw [← hbn, ← hbc]
  refine ⟨es₀, m, r, rfl, by omega, hgate, hready.trans hr, htest', hbase', ?_, ?_⟩
  · rw [htest', hbase']
    refine Clocks.window (r := r) ?_ hmem
    simpa [gateEdges] using ho
  · have hlength := gate_length (by decide) hp (by decide) hgate fun l r' hl =>
      Nat.lt_succ_of_le (hpaceT l (r' ++ r) (by rw [hl, List.append_assoc]))
    have hmiss := Clocks.since_mul_le (l := es₀) (r := .test :: (m ++ [.test]) ++ r)
      other_of_ne_test (by simpa [gateEdges] using ho)
    have hcast : (25000 : K) ≤ m.count .base + since .test es₀ := by exact_mod_cast hlength
    have hmul := mul_le_mul_of_nonneg_right hcast (c.period_pos .base).le
    rw [hbase']
    linarith

end Precise

/-- Two clocks in step, an edge of `clk_base` first. -/
def inStep : Clocks FreqEdge ℚ where
  period _ := 1
  phase _ := 0
  period_pos _ := one_pos
  phase_nonneg _ := le_refl 0
  phase_le _ := zero_le_one

def pairs (n : Nat) : List FreqEdge := (List.replicate n [.base, .test]).flatten

theorem inStep_ordered (n : Nat) :
    inStep.Ordered (pairs n) ∧ (pairs n).count .base = n ∧ (pairs n).count .test = n := by
  induction n with
  | zero => exact ⟨fun l x r hl => by simp [pairs] at hl, rfl, rfl⟩
  | succ n ih =>
    obtain ⟨ho, hb, ht⟩ := ih
    have hpairs : pairs (n + 1) = pairs n ++ [.base] ++ [.test] := by
      simp [pairs, List.replicate_succ', List.flatten_append]
    rw [hpairs]
    refine ⟨Clocks.ordered_snoc (Clocks.ordered_snoc ho ?_) ?_, by simp [hb], by simp [ht]⟩
    · intro y
      cases y <;> simp [Clocks.edge, inStep, hb, ht]
    · intro y
      cases y <;> simp [Clocks.edge, inStep, hb, ht]

/-- A signal in step with `clk_base`. -/
theorem precise_inStep :
    let s := allZero.after (pairs 100000)
    ∃ es₀ m r, pairs 100000 = gateEdges es₀ m ++ r ∧ r.count .base < 75000 ∧ allZero.Gate es₀ m ∧
      s.isReady = true ∧ s.testCount.toNat = m.count .test + 1 ∧
      s.baseCount.toNat = m.count .base ∧
      |s.testCount.toNat * inStep.period .test - s.baseCount.toNat * inStep.period .base| ≤
        inStep.period .base ∧
      24999 * inStep.period .base ≤
        s.baseCount.toNat * inStep.period .base + inStep.period .test :=
  precise inStep allZero ⟨⟨rfl⟩, rfl, rfl⟩ (pairs 100000) (inStep_ordered _).1
    (by norm_num [inStep]) (by norm_num [inStep]) (inStep_ordered 100000).2.1.ge

end GetFreqEqual

end WifiOsc
