/-
  File:      WifiOsc/Basis/Crossing.lean
  Subject:   A FIFO BETWEEN TWO CLOCKS. Words go in at the edges of one clock and come out at those
             of another; each side knows the other's count some edges late. Nothing about a
             particular design.

  * `gray`, `mix`: a count that changes while it is read, bit by bit; `mix_gray_succ`: in Gray code
    it is read as it was before or as it is after;
  * `Crossing`: the FIFO with counters that do not wrap around; `Crossing.Ordered`: who can be behind
    whom, `ordered_step`: over one step;
  * `Crossing.Kept`: while the reader has stopped and the writer goes on;
  * `Crossing.Drained`: what a reader finds who had seen everything up to `B`, with at most two words
    left, when it reads on after more words have come; `Drained.pull`: one more read;
  * `shown`: the words it gets from the third read on.
-/
import Mathlib.Data.BitVec
import Mathlib.Data.List.Basic

namespace Basis

/-! ## 1. A count that is read while it changes -/

section Bits

variable {w : Nat} {a x y : BitVec w}

/-- The Gray code. -/
def gray (x : BitVec w) : BitVec w := x ^^^ x >>> 1

theorem gray_xor (x y : BitVec w) : gray (x ^^^ y) = gray x ^^^ gray y := by
  simp only [gray, BitVec.ushiftRight_xor_distrib]
  ac_rfl

theorem eq_zero_of_gray (h : gray x = 0#w) : x = 0#w := by
  have hshift : x = x >>> 1 := BitVec.xor_eq_zero_iff.mp h
  have hhalf : x.toNat = x.toNat / 2 := by
    have hnat := congrArg BitVec.toNat hshift
    rwa [BitVec.toNat_ushiftRight, Nat.shiftRight_eq_div_pow, Nat.pow_one] at hnat
  refine BitVec.eq_of_toNat_eq ?_
  rw [BitVec.toNat_zero]
  omega

theorem gray_injective (h : gray x = gray y) : x = y := by
  refine BitVec.xor_eq_zero_iff.mp (eq_zero_of_gray ?_)
  rw [gray_xor, h, BitVec.xor_self]

theorem getLsbD_gray (x : BitVec w) (i : Nat) :
    (gray x).getLsbD i = (x.getLsbD i ^^ x.getLsbD (i + 1)) := by
  rw [gray, BitVec.getLsbD_xor, BitVec.getLsbD_ushiftRight, Nat.add_comm]

/-- The carry into bit `i` when 1 is added. -/
def carries (x : BitVec w) : Nat → Bool
  | 0 => true
  | i + 1 => carries x i && x.getLsbD i

theorem carry_eq_carries (hw : 0 < w) (i : Nat) :
    BitVec.carry (i + 1) x 1#w false = carries x (i + 1) := by
  induction i with
  | zero => simp [BitVec.carry_succ, carries, hw]
  | succ i ih =>
    have hnext : carries x (i + 1 + 1) = (carries x (i + 1) && x.getLsbD (i + 1)) := rfl
    rw [BitVec.carry_succ, ih, BitVec.getLsbD_one, decide_eq_false (Nat.succ_ne_zero i),
      Bool.and_false, hnext]
    cases carries x (i + 1) <;> cases x.getLsbD (i + 1) <;> rfl

theorem getLsbD_succ {i : Nat} (hi : i < w) :
    (x + 1#w).getLsbD i = (x.getLsbD i ^^ carries x i) := by
  have hw : 0 < w := Nat.zero_lt_of_lt hi
  rw [BitVec.getLsbD_add hi, BitVec.getLsbD_one, decide_eq_true hw, Bool.true_and]
  cases i with
  | zero => simp [carries]
  | succ i =>
    rw [carry_eq_carries hw, decide_eq_false (Nat.succ_ne_zero i), Bool.false_xor]

/-- The bit of the Gray code that the next count changes: the lowest one that is clear in the count,
    or the top one. -/
def turns (x : BitVec w) (i : Nat) : Bool := carries x i && (!x.getLsbD i || decide (w ≤ i + 1))

theorem getLsbD_gray_succ {i : Nat} (hi : i < w) :
    (gray (x + 1#w)).getLsbD i = ((gray x).getLsbD i ^^ turns x i) := by
  rw [getLsbD_gray, getLsbD_gray, getLsbD_succ hi, turns]
  by_cases htop : w ≤ i + 1
  · rw [BitVec.getLsbD_of_ge _ _ htop, BitVec.getLsbD_of_ge x _ htop, decide_eq_true htop]
    simp
  · rw [getLsbD_succ (Nat.lt_of_not_le htop), decide_eq_false htop, carries]
    cases carries x i <;> cases x.getLsbD i <;> cases x.getLsbD (i + 1) <;> rfl

theorem carries_of_le {i j : Nat} (h : carries x j = true) (hij : i < j) :
    carries x i = true ∧ x.getLsbD i = true := by
  induction j with
  | zero => exact absurd hij (Nat.not_lt_zero i)
  | succ j ih =>
    simp only [carries, Bool.and_eq_true] at h
    rcases Nat.lt_succ_iff_lt_or_eq.mp hij with hlt | rfl
    · exact ih h.1 hlt
    · exact h

/-- It is one bit. -/
theorem turns_unique {i j : Nat} (hi : turns x i = true) (hj : turns x j = true) (hiw : i < w)
    (hjw : j < w) : i = j := by
  have hnot : ∀ {i j : Nat}, turns x i = true → turns x j = true → j < w → ¬ i < j := by
    intro i j hi hj hjw hlt
    simp only [turns, Bool.and_eq_true] at hi hj
    obtain ⟨-, hset⟩ := carries_of_le hj.1 hlt
    rw [hset, decide_eq_false (by omega)] at hi
    exact absurd hi.2 Bool.false_ne_true
  exact Nat.le_antisymm (Nat.le_of_not_lt (hnot hj hi hiw)) (Nat.le_of_not_lt (hnot hi hj hjw))

/-- Each bit is read before or after the change. -/
def mix (sel old new : BitVec w) : BitVec w := (old &&& ~~~sel) ||| (new &&& sel)

theorem getLsbD_mix (sel a b : BitVec w) {i : Nat} (hi : i < w) :
    (mix sel a b).getLsbD i = if sel.getLsbD i then b.getLsbD i else a.getLsbD i := by
  simp only [mix, BitVec.getLsbD_or, BitVec.getLsbD_and, BitVec.getLsbD_not, hi, decide_true,
    Bool.true_and]
  cases sel.getLsbD i <;> simp

theorem mix_self (sel : BitVec w) : mix sel a a = a := by
  refine BitVec.eq_of_getLsbD_eq fun i hi => ?_
  rw [getLsbD_mix sel a a hi, ite_self]

/-- **A count that is read while it changes**, bit by bit and in Gray code, is read as it was before
    or as it is after. -/
theorem mix_gray_succ (sel x : BitVec w) :
    mix sel (gray x) (gray (x + 1#w)) = gray x ∨
      mix sel (gray x) (gray (x + 1#w)) = gray (x + 1#w) := by
  by_cases hsel : ∃ i < w, turns x i = true ∧ sel.getLsbD i = true
  · obtain ⟨i, hi, hturn, hs⟩ := hsel
    refine Or.inr (BitVec.eq_of_getLsbD_eq fun j hj => ?_)
    rw [getLsbD_mix _ _ _ hj]
    split
    · rfl
    · next hno =>
      -- a bit that has not been read after the change has none
      have hstay : turns x j = false := by
        by_contra hturn'
        obtain rfl := turns_unique hturn (by simpa using hturn') hi hj
        exact hno hs
      rw [getLsbD_gray_succ hj, hstay, Bool.xor_false]
  · refine Or.inl (BitVec.eq_of_getLsbD_eq fun j hj => ?_)
    rw [getLsbD_mix _ _ _ hj]
    split
    · next hs =>
      have hstay : turns x j = false := by
        by_contra hturn
        exact hsel ⟨j, hj, by simpa using hturn, hs⟩
      rw [getLsbD_gray_succ hj, hstay, Bool.xor_false]
    · rfl

end Bits

/-! ## 2. The FIFO -/

variable {α : Type}

/-- `hist`: all words written; `d`: how many of them the writer shows, one edge late; `g1`, `g2`,
    `g3`: what it knows of the reader's count, the oldest last. `r`: words read; `s1`, `s2`: what the
    reader knows of the writer's count. -/
structure Crossing (α : Type) where
  hist : List α
  d : Nat
  g1 : Nat
  g2 : Nat
  g3 : Nat
  r : Nat
  s1 : Nat
  s2 : Nat
  q : α

/-- Which of the two clocks rises, and what is asked for; where both do, whether each side's first
    register sees the other's count after the step already. -/
structure CrossingIn (α : Type) where
  rdclk : Bool
  rdreq : Bool
  wrclk : Bool
  wrreq : Bool
  data : α
  newRd : Bool
  newWr : Bool

namespace Crossing

/-- A word is read unless all that the reader knows of have been. -/
def pops (c : Crossing α) (i : CrossingIn α) : Bool := i.rdclk && i.rdreq && decide (c.r < c.s2)

/-- A word is written unless, for all the writer knows, `room` words are there. -/
def pushes (room : Nat) (c : Crossing α) (i : CrossingIn α) : Bool :=
  i.wrclk && i.wrreq && decide (c.hist.length < c.g2 + room)

def step (room : Nat) (c : Crossing α) (i : CrossingIn α) : Crossing α where
  hist := if c.pushes room i then c.hist ++ [i.data] else c.hist
  d := if i.wrclk then c.hist.length else c.d
  g1 := if i.wrclk then (if c.pops i && i.newRd then c.r + 1 else c.r) else c.g1
  g2 := if i.wrclk then c.g1 else c.g2
  g3 := if i.wrclk then c.g2 else c.g3
  r := if c.pops i then c.r + 1 else c.r
  s1 := if i.rdclk then (if i.wrclk && i.newWr then c.hist.length else c.d) else c.s1
  s2 := if i.rdclk then c.s1 else c.s2
  q := if c.pops i then c.hist[c.r]?.getD c.q else c.q

/-- **Each side is behind the other**, so the reader never goes too far, and no word is overwritten
    before it has been read. -/
structure Ordered (room : Nat) (c : Crossing α) : Prop where
  g3 : c.g3 ≤ c.g2
  g2 : c.g2 ≤ c.g1
  g1 : c.g1 ≤ c.r
  r : c.r ≤ c.s2
  s2 : c.s2 ≤ c.s1
  s1 : c.s1 ≤ c.d
  d : c.d ≤ c.hist.length
  late : c.hist.length ≤ c.d + 1
  room : c.hist.length ≤ c.g2 + room

section Step

variable {room : Nat} {c : Crossing α} {i : CrossingIn α}

theorem length_step : (c.step room i).hist.length =
    c.hist.length + if c.pushes room i then 1 else 0 := by
  simp only [step]
  split <;> simp

theorem pops_iff : c.pops i = true ↔ i.rdclk = true ∧ i.rdreq = true ∧ c.r < c.s2 := by
  simp only [pops, Bool.and_eq_true, decide_eq_true_eq, and_assoc]

theorem pushes_iff : c.pushes room i = true ↔
    i.wrclk = true ∧ i.wrreq = true ∧ c.hist.length < c.g2 + room := by
  simp only [pushes, Bool.and_eq_true, decide_eq_true_eq, and_assoc]

/-- The counts never go back, and what one side shows the other is not ahead of them. -/
theorem counts_step : c.r ≤ (c.step room i).r ∧
    c.hist.length ≤ (c.step room i).hist.length ∧ (i.wrclk = true → c.r ≤ (c.step room i).g1) ∧
    (i.wrclk = true → (c.step room i).g1 ≤ (c.step room i).r) := by
  refine ⟨?_, ?_, fun hclk => ?_, fun hclk => ?_⟩
  · simp only [step]
    split <;> omega
  · rw [length_step]
    exact Nat.le_add_right _ _
  · simp only [step, hclk, if_true]
    split <;> omega
  · simp only [step, hclk, if_true]
    cases c.pops i <;> cases i.newRd <;> simp

theorem ordered_step (h : c.Ordered room) : (c.step room i).Ordered room := by
  obtain ⟨h3, h2, h1, hr, hs2, hs1, hd, hlate, hroom⟩ := h
  obtain ⟨hr', hlen', hold, hnew⟩ := @counts_step α room c i
  have hg2 : (c.step room i).g2 = if i.wrclk then c.g1 else c.g2 := rfl
  have hd' : (c.step room i).d = if i.wrclk then c.hist.length else c.d := rfl
  have hs2' : (c.step room i).s2 = if i.rdclk then c.s1 else c.s2 := rfl
  have hs1' : (c.step room i).s1 ≤ (c.step room i).d ∧ c.s1 ≤ (c.step room i).s1 := by
    simp only [step]
    cases i.rdclk <;> cases i.wrclk <;> cases i.newWr <;> simp <;> omega
  have hpop : (c.step room i).r ≤ (c.step room i).s2 := by
    rw [hs2', show (c.step room i).r = if c.pops i then c.r + 1 else c.r from rfl]
    by_cases hp : c.pops i = true
    · obtain ⟨hclk, -, hlt⟩ := pops_iff.mp hp
      rw [if_pos hp, if_pos hclk]
      omega
    · rw [if_neg hp]
      split <;> omega
  have hpush : (c.step room i).hist.length ≤ (c.step room i).d + 1 ∧
      (c.step room i).hist.length ≤ c.g2 + room := by
    rw [length_step, hd']
    by_cases hp : c.pushes room i = true
    · obtain ⟨hclk, -, hlt⟩ := pushes_iff.mp hp
      rw [if_pos hp, if_pos hclk]
      omega
    · rw [if_neg hp]
      split <;> omega
  cases hwr : i.wrclk with
  | true =>
    have hg3 : (c.step room i).g3 = c.g2 := by simp only [step, hwr, if_true]
    have hg1 := hold hwr
    rw [hwr, if_pos rfl] at hg2 hd'
    refine ⟨?_, ?_, hnew hwr, hpop, ?_, hs1'.1, ?_, hpush.1, ?_⟩
    · rw [hg3, hg2]
      exact h2
    · rw [hg2]
      exact h1.trans hg1
    · rw [hs2']
      split <;> omega
    · rw [hd']
      exact hlen'
    · rw [hg2]
      omega
  | false =>
    have hg3 : (c.step room i).g3 = c.g3 := by
      simp only [step, hwr, Bool.false_eq_true, if_false]
    have hg1 : (c.step room i).g1 = c.g1 := by
      simp only [step, hwr, Bool.false_eq_true, if_false]
    rw [hwr, if_neg Bool.false_ne_true] at hg2 hd'
    refine ⟨?_, ?_, ?_, hpop, ?_, hs1'.1, ?_, hpush.1, ?_⟩
    · rw [hg3, hg2]
      exact h3
    · rw [hg2, hg1]
      exact h2
    · rw [hg1]
      exact h1.trans hr'
    · rw [hs2']
      split <;> omega
    · rw [hd']
      exact hd.trans hlen'
    · rw [hg2]
      exact hpush.2

end Step

/-! ## 3. While nothing is read -/

/-- The reader has stopped, at most two words behind the `B` that it knows of, and the writer knows
    how far it has come. -/
structure Kept (B : Nat) (c : Crossing α) : Prop where
  known : c.r ≤ B ∧ B ≤ c.r + 2
  s1 : c.s1 = B
  s2 : c.s2 = B
  g1 : c.g1 = c.r
  g2 : c.g2 = c.r

section Kept

variable {room B : Nat} {c : Crossing α} {i : CrossingIn α}

theorem pops_of_not (hrd : i.rdclk = false) : c.pops i = false := by
  simp only [pops, hrd, Bool.false_and]

/-- The writer goes on, as long as there is room. -/
theorem Kept.write (h : Kept B c) (hrd : i.rdclk = false) (hroom : c.hist.length < c.r + room) :
    Kept B (c.step room i) ∧ (c.step room i).r = c.r ∧
      (c.step room i).hist = c.hist ++ (if i.wrclk && i.wrreq then [i.data] else []) ∧
      (c.step room i).d = (if i.wrclk then c.hist.length else c.d) ∧
      (c.step room i).g3 = if i.wrclk then c.r else c.g3 := by
  obtain ⟨hknown, hs1, hs2, hg1, hg2⟩ := h
  have hpop := pops_of_not (c := c) hrd
  have hpush : c.pushes room i = (i.wrclk && i.wrreq) := by
    rw [pushes, decide_eq_true (by omega), Bool.and_true]
  have hr : (c.step room i).r = c.r := by simp only [step, hpop, Bool.false_eq_true, if_false]
  refine ⟨⟨by rw [hr]; exact hknown, ?_, ?_, ?_, ?_⟩, hr, ?_, rfl, ?_⟩
  · simpa only [step, hrd, Bool.false_eq_true, if_false] using hs1
  · simpa only [step, hrd, Bool.false_eq_true, if_false] using hs2
  · simp only [step, hpop, Bool.false_and, Bool.false_eq_true, if_false, hg1, ite_self]
  · simp only [step, hpop, Bool.false_eq_true, if_false, hg1, hg2, ite_self]
  · simp only [step, hpush]
    split <;> simp
  · simp only [step, hg2]

/-- Once the writer has seen the last read, one edge of its clock later it has seen it twice. -/
theorem Kept.start (hs1 : c.s1 = c.hist.length) (hs2 : c.s2 = c.hist.length)
    (hr : c.r ≤ c.hist.length ∧ c.hist.length ≤ c.r + 2) (hg1 : c.g1 = c.r)
    (hrd : i.rdclk = false) (hwr : i.wrclk = true) (hno : c.pushes room i = false) :
    Kept c.hist.length (c.step room i) ∧ (c.step room i).hist = c.hist ∧
      (c.step room i).g3 = c.g2 := by
  have hpop := pops_of_not (c := c) hrd
  have hr' : (c.step room i).r = c.r := by simp only [step, hpop, Bool.false_eq_true, if_false]
  refine ⟨⟨by rw [hr']; exact hr, ?_, ?_, ?_, ?_⟩, ?_, ?_⟩
  · simpa only [step, hrd, Bool.false_eq_true, if_false] using hs1
  · simpa only [step, hrd, Bool.false_eq_true, if_false] using hs2
  · simp only [step, hwr, hpop, Bool.false_and, Bool.false_eq_true, if_false, if_true]
  · simp only [step, hwr, hpop, Bool.false_eq_true, if_false, if_true, hg1]
  · simp only [step, hno, Bool.false_eq_true, if_false]
  · simp only [step, hwr, if_true]

end Kept

/-! ## 4. Reading on -/

/-- The reader had read `R` words and knew of `B`, at most two more; then more words came, and since
    then it has read `k` times. Its first two reads still find what it knew of. -/
structure Drained (R B k : Nat) (c : Crossing α) : Prop where
  known : R ≤ B ∧ B ≤ R + 2
  more : B < c.hist.length
  r : c.r = min (min (R + k) (B + (k - 2))) c.hist.length
  s1 : c.s1 = if k = 0 then B else c.hist.length
  s2 : c.s2 = if k ≤ 1 then B else c.hist.length
  q : ∀ j, k = j + 3 → c.hist[min (B + j) (c.hist.length - 1)]? = some c.q

section Drained

variable {room R B k : Nat} {c : Crossing α} {i : CrossingIn α}

theorem Drained.start (hs1 : c.s1 = B) (hs2 : c.s2 = B) (hr : c.r = R) (hle : R ≤ B ∧ B ≤ R + 2)
    (hmore : B < c.hist.length) : Drained R B 0 c where
  known := hle
  more := hmore
  r := by omega
  s1 := hs1
  s2 := hs2
  q _ hj := by omega

/-- While nothing is written and nothing read. -/
theorem Drained.hold (h : Drained R B k c) (hrd : i.rdclk = false)
    (hwr : c.pushes room i = false) : Drained R B k (c.step room i) := by
  have hpop : c.pops i = false := by simp only [pops, hrd, Bool.false_and]
  have hhist : (c.step room i).hist = c.hist := by simp only [step, hwr, Bool.false_eq_true, if_false]
  obtain ⟨hknown, hmore, hr, hs1, hs2, hq⟩ := h
  refine ⟨hknown, by rw [hhist]; exact hmore, ?_, ?_, ?_, ?_⟩
  · rw [hhist]
    simpa only [step, hpop, Bool.false_eq_true, if_false] using hr
  · rw [hhist]
    simpa only [step, hrd, Bool.false_eq_true, if_false] using hs1
  · rw [hhist]
    simpa only [step, hrd, Bool.false_eq_true, if_false] using hs2
  · rw [hhist]
    simpa only [step, hpop, Bool.false_eq_true, if_false] using hq

/-- **One more read**, when the writer shows all that it has written. -/
theorem Drained.pull (h : Drained R B k c) (hrd : i.rdclk = true) (hreq : i.rdreq = true)
    (hwr : c.pushes room i = false) (hd : c.d = c.hist.length) :
    Drained R B (k + 1) (c.step room i) := by
  have hhist : (c.step room i).hist = c.hist := by simp only [step, hwr, Bool.false_eq_true, if_false]
  have hs1' : (c.step room i).s1 = c.hist.length := by
    simp only [step, hrd, if_true, hd, ite_self]
  have hs2' : (c.step room i).s2 = c.s1 := by simp only [step, hrd, if_true]
  have hr' : (c.step room i).r = if c.r < c.s2 then c.r + 1 else c.r := by
    simp only [step, pops, hrd, hreq, Bool.true_and, decide_eq_true_eq]
  obtain ⟨hknown, hmore, hr, hs1, hs2, hq⟩ := h
  refine ⟨hknown, by rw [hhist]; exact hmore, ?_, ?_, ?_, fun j hj => ?_⟩
  · rw [hr', hhist, hr, hs2]
    by_cases hk : k ≤ 1
    · rw [if_pos hk]
      split <;> omega
    · rw [if_neg hk]
      split <;> omega
  · rw [hs1', hhist, if_neg (Nat.succ_ne_zero k)]
  · rw [hs2', hs1, hhist]
    by_cases hk : k = 0
    · rw [if_pos hk, if_pos (by omega)]
    · rw [if_neg hk, if_neg (by omega)]
  · rw [hhist]
    have hk : k = j + 2 := by omega
    have hq' : (c.step room i).q = if c.r < c.s2 then c.hist[c.r]?.getD c.q else c.q := by
      simp only [step, pops, hrd, hreq, Bool.true_and, decide_eq_true_eq]
    rw [if_neg (by omega)] at hs2
    rw [hq', hs2]
    by_cases hlt : c.r < c.hist.length
    · -- a word is left
      have hidx : min (B + j) (c.hist.length - 1) = c.r := by omega
      rw [if_pos hlt, hidx, List.getElem?_eq_getElem hlt, Option.getD_some]
    · rw [if_neg hlt]
      obtain ⟨j', hj'⟩ : ∃ j', j = j' + 1 := ⟨j - 1, by omega⟩
      have hidx : min (B + j) (c.hist.length - 1) = min (B + j') (c.hist.length - 1) := by omega
      rw [hidx]
      exact hq j' (by omega)

/-- What is left once as many words have been asked for as there were, up to the first two. -/
theorem Drained.left (h : Drained R B k c) (hk : c.hist.length ≤ R + k) (h2 : 2 ≤ k) :
    c.s1 = c.hist.length ∧ c.s2 = c.hist.length ∧ c.hist.length ≤ c.r + 2 := by
  obtain ⟨hknown, hmore, hr, hs1, hs2, -⟩ := h
  rw [if_neg (by omega)] at hs1 hs2
  exact ⟨hs1, hs2, by omega⟩

end Drained

/-- `n` words that the reader gets from the third read on, after `k` reads before these; once nothing
    is left it goes on getting the last one. -/
def shown (ws : List α) (k n : Nat) : List α :=
  (List.range n).filterMap fun j => ws[min (k + j) (ws.length - 1)]?

section Shown

variable {R B k n : Nat} {c : Crossing α} {ws : List α}

theorem Drained.shown_succ (h : Drained R B (k + (n + 3)) c) (hws : c.hist.drop B = ws) :
    shown ws k (n + 1) = shown ws k n ++ [c.q] := by
  have hmore := h.more
  have hlen : ws.length = c.hist.length - B := by rw [← hws, List.length_drop]
  have hword : ws[min (k + n) (ws.length - 1)]? = some c.q := by
    rw [← h.q (k + n) (by omega), ← hws, List.getElem?_drop, List.length_drop]
    congr 1
    omega
  rw [shown, shown, List.range_succ, List.filterMap_append]
  simp [hword]

theorem shown_prefix {m : Nat} (h : m ≤ n) : shown ws k m <+: shown ws k n := by
  obtain ⟨d, rfl⟩ := Nat.exists_eq_add_of_le h
  rw [shown, shown, List.range_add, List.filterMap_append]
  exact List.prefix_append _ _

/-- With no reads before, and no more words than there are, these are the first ones. -/
theorem shown_zero (h : n ≤ ws.length) : shown ws 0 n = ws.take n := by
  induction n with
  | zero => rfl
  | succ n ih =>
    have hidx : min (0 + n) (ws.length - 1) = n := by omega
    rw [List.take_add_one, ← ih (by omega), shown, shown, List.range_succ, List.filterMap_append]
    simp only [List.filterMap_cons, List.filterMap_nil, hidx]
    cases ws[n]? <;> rfl

end Shown

end Crossing

end Basis
