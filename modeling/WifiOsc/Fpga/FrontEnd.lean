/-
  File:      WifiOsc/Fpga/FrontEnd.lean
  Subject:   NO SIGNAL KEEPS THE SCOPE WAITING. `ADC_TRIGGER`, `ADC_TRIGGER_I` on the 1 MHz clock and
             the capture path of Fpga/Scope.lean, as ADC and main.sv connect them: nothing is free
             but the samples, `ack` and the two registers of the host.

  While a capture is awaited the trigger turns at most twice before the capture begins, and where it
  does not turn, `is_ingore` comes up; it may be down again before the control has read it, but only
  where the trigger has turned meanwhile.

  * `frontEnd`: the machine, at every edge of `CLK_200M`;
  * `AdcTriggerI.pending`: the edges that `is_ingore` is away, `pending_step`;
  * `FrontEnd.captureIn`: the edges that a capture is away; `awaiting_step`: one edge;
  * `FrontEnd.frameIn`: the edges that a frame is away; `quiet_step`: one edge;
  * `frame_due`: from every state of every run in which nothing is being sent, a frame is begun.
-/
import WifiOsc.Basis.Pipe
import WifiOsc.Fpga.Div
import WifiOsc.Fpga.ScopeFrames
import WifiOsc.Fpga.Trigger

namespace WifiOsc

open Basis

/-! ## 1. The front end -/

/-- `DELAY` of `ADC_TRIGGER_I`. -/
def ignoreDelay : BitVec 32 := 100000#32

/-- `mainClk` divides `CLK_200M` for `ADC_TRIGGER_I`; `trigger` is a register of `adc_clk`. -/
structure FrontEnd where
  trigger : Bool
  auto : AdcTriggerI
  mainClk : Div 200
  scope : Scope

/-- The registers of the host, the samples and `ack`; and, where two clocks rise with one edge, whether
    a register of the one is read after the other has changed it. -/
structure FrontIn where
  adcEnU : Bool
  adcFreq : BitVec 16
  data : Byte
  ack : Bool
  seesTrigger : Bool
  seesIgnore : Bool
  skew : Skew Sample

namespace FrontEnd

def trigger' (s : FrontEnd) (i : FrontIn) : Bool :=
  if s.scope.cap.div.rises i.adcFreq then adcTrigger 150#8 100#8 s.trigger i.data else s.trigger

def auto' (s : FrontEnd) (i : FrontIn) : AdcTriggerI :=
  if s.mainClk.rises then
    s.auto.step ignoreDelay (if i.seesTrigger then s.trigger' i else s.trigger)
  else s.auto

def scopeIn (s : FrontEnd) (i : FrontIn) : ScopeIn where
  isIngore := if i.seesIgnore then (s.auto' i).isIngore else s.auto.isIngore
  trigger := s.trigger
  data := i.data
  ack := i.ack
  skew := i.skew
  adcEnU := i.adcEnU
  adcFreq := i.adcFreq

def step (s : FrontEnd) (i : FrontIn) : FrontEnd where
  trigger := s.trigger' i
  auto := s.auto' i
  mainClk := s.mainClk.step
  scope := WifiOsc.scope.step s.scope (s.scopeIn i)

/-- The registers of the triggers have no initial value. -/
structure PowerUp (s : FrontEnd) : Prop where
  mainClk : s.mainClk.PowerUp
  scope : s.scope.PowerUp

end FrontEnd

def frontEnd : Machine FrontEnd FrontIn ScopeEvent where
  step := FrontEnd.step
  out s i := scope.out s.scope (s.scopeIn i)

/-! ## 2. The automatic trigger -/

namespace AdcTriggerI

variable {DELAY : BitVec 32} {a : AdcTriggerI} {t : Bool}

/-- Edges until `is_ingore` is up, if the trigger stays at `t`. -/
def pending (DELAY : BitVec 32) (a : AdcTriggerI) (t : Bool) : Nat :=
  if a.triggerSave ≠ t then DELAY.toNat + 2
  else if a.isIngore = true ∧ DELAY ≤ a.counter then 0
  else DELAY.toNat - a.counter.toNat + 1

theorem pending_le : a.pending DELAY t ≤ DELAY.toNat + 2 := by
  unfold pending
  split
  · exact Nat.le_refl _
  · split <;> omega

/-- At zero it is up, and stays up. -/
theorem ignore_of_pending (h : a.pending DELAY t = 0) :
    a.isIngore = true ∧ (a.step DELAY t).isIngore = true := by
  unfold pending at h
  split at h
  · omega
  case isFalse hsave =>
    split at h
    case isTrue hup =>
      have hsame : a.triggerSave = t := by simpa using hsave
      simp [step, hsame, hup.1, hup.2]
    case isFalse => omega

/-- **One edge with the trigger at `t`.** -/
theorem pending_step : (a.step DELAY t).pending DELAY t ≤ a.pending DELAY t - 1 := by
  by_cases hsave : a.triggerSave = t
  · by_cases hfull : DELAY ≤ a.counter
    · simp [step, pending, hsave, hfull]
    · have hlt : a.counter.toNat < DELAY.toNat := by
        rw [BitVec.le_def] at hfull
        omega
      have hinc : (a.counter + 1#32).toNat = a.counter.toNat + 1 := by
        have hD := DELAY.isLt
        rw [BitVec.toNat_add, BitVec.toNat_ofNat]
        omega
      simp only [step, pending, hsave, hfull, hinc, bne_self_eq_false, Bool.false_eq_true,
        if_false, false_and, and_false, ne_eq, not_true_eq_false]
      omega
  · have hdiff : (a.triggerSave != t) = true := by simpa using hsave
    simp [step, pending, hsave, hdiff]

end AdcTriggerI

/-! ## 3. Until a capture begins -/

namespace FrontEnd

/-- The edges of `CLK_200M` in one of `adc_clk`. -/
def adcPeriod (adcFreq : BitVec 16) : Nat := 2 * (adcFreq.toNat + 1)

/-- Edges until the control reads `is_ingore` up, if the trigger stays as it is. -/
def ignoreIn (adcFreq : BitVec 16) (s : FrontEnd) : Nat :=
  if s.auto.pending ignoreDelay s.trigger = 0 then s.scope.cap.div.wait adcFreq + 1
  else adcPeriod adcFreq + s.mainClk.wait + 1 +
    200 * (s.auto.pending ignoreDelay s.trigger - 1)

/-- The most that `ignoreIn` can be. -/
def ignoreMax (adcFreq : BitVec 16) : Nat := adcPeriod adcFreq + 200 * (ignoreDelay.toNat + 2)

/-- Edges until a capture begins, by what the control still has to see: with the trigger high in
    `IDLE` a turn, an edge of `adc_clk`, a turn and another edge; or `is_ingore` in place of a turn. -/
def captureIn (adcFreq : BitVec 16) (s : FrontEnd) : Nat :=
  match s.scope.cap.fifo.currentState, s.trigger with
  | .idle, true => s.ignoreIn adcFreq + (ignoreMax adcFreq + 2 * adcPeriod adcFreq)
  | .idle, false => s.scope.cap.div.wait adcFreq + 1 + (ignoreMax adcFreq + adcPeriod adcFreq)
  | .waitTrigger, false => s.ignoreIn adcFreq + adcPeriod adcFreq
  | .waitTrigger, true => s.scope.cap.div.wait adcFreq + 1
  | .saving, _ | .saveLen, _ | .sending, _ => 0

section Awaiting

variable {adcFreq : BitVec 16} {s : FrontEnd} {i : FrontIn}

theorem wait_lt_period : s.scope.cap.div.wait adcFreq + 1 ≤ adcPeriod adcFreq := DivC.wait_lt

theorem ignoreIn_pos : 1 ≤ s.ignoreIn adcFreq := by
  unfold ignoreIn
  split <;> omega

theorem ignoreIn_le (hg : s.mainClk.Good) : s.ignoreIn adcFreq ≤ ignoreMax adcFreq := by
  have hwait : s.mainClk.wait < 200 := Div.wait_lt hg
  have hle : s.auto.pending ignoreDelay s.trigger ≤ ignoreDelay.toNat + 2 := AdcTriggerI.pending_le
  have hp := @wait_lt_period adcFreq s
  unfold ignoreIn ignoreMax
  generalize s.auto.pending ignoreDelay s.trigger = p at hle ⊢
  generalize ignoreDelay.toNat = n at hle ⊢
  split <;> omega

/-- Between two rises of `adc_clk` the trigger stands. -/
theorem trigger'_of_wait {w : Nat} (hw : s.scope.cap.div.wait i.adcFreq = w + 1) :
    s.trigger' i = s.trigger := by
  unfold trigger'
  rw [(DivC.wait_succ hw).1, if_neg Bool.false_ne_true]

/-- **While the trigger stands**, `is_ingore` comes nearer, or is read. -/
theorem ignoreIn_step (hg : s.mainClk.Good) (ht : s.trigger' i = s.trigger) :
    (s.scope.cap.div.wait i.adcFreq = 0 ∧ (s.scopeIn i).isIngore = true) ∨
      (s.step i).ignoreIn i.adcFreq < s.ignoreIn i.adcFreq := by
  have hauto : s.auto' i =
      if s.mainClk.rises then s.auto.step ignoreDelay s.trigger else s.auto := by
    unfold auto'
    rw [ht, ite_self]
  have htrig : (s.step i).trigger = s.trigger := ht
  have hpend : (s.step i).auto.pending ignoreDelay s.trigger ≤
      s.auto.pending ignoreDelay s.trigger - (if s.mainClk.rises then 1 else 0) := by
    show (s.auto' i).pending ignoreDelay s.trigger ≤ _
    rw [hauto]
    split
    · exact AdcTriggerI.pending_step
    · exact Nat.le_refl _
  by_cases h0 : s.auto.pending ignoreDelay s.trigger = 0
  · obtain ⟨hup, hstay⟩ := AdcTriggerI.ignore_of_pending h0
    cases hw : s.scope.cap.div.wait i.adcFreq with
    | zero =>
      refine Or.inl ⟨rfl, ?_⟩
      show (if i.seesIgnore then (s.auto' i).isIngore else s.auto.isIngore) = true
      rw [hauto, hup]
      split
      · split
        · exact hstay
        · exact hup
      · rfl
    | succ w =>
      have hwait' : (s.step i).scope.cap.div.wait i.adcFreq = w := (DivC.wait_succ hw).2
      refine Or.inr ?_
      rw [ignoreIn, htrig, if_pos (by omega), ignoreIn, if_pos h0, hw, hwait']
      omega
  · refine Or.inr ?_
    have hp := @wait_lt_period i.adcFreq (s.step i)
    have hmain : (s.step i).mainClk = s.mainClk.step := rfl
    rw [ignoreIn, htrig, ignoreIn, if_neg h0, hmain]
    rcases Div.tick hg with ⟨hr, hzero, hwait⟩ | ⟨hr, hwait⟩
    · rw [hr, if_pos rfl] at hpend
      split <;> omega
    · rw [hr, if_neg Bool.false_ne_true] at hpend
      split <;> omega

/-- The control awaits a capture. -/
def Awaits (s : FrontEnd) : Prop :=
  s.scope.cap.fifo.currentState = .idle ∨ s.scope.cap.fifo.currentState = .waitTrigger

theorem captureIn_pos (h : s.Awaits) : 1 ≤ s.captureIn adcFreq := by
  have hpos := @ignoreIn_pos adcFreq s
  rcases h with h | h <;> cases ht : s.trigger <;> simp only [captureIn, h, ht] <;> omega

theorem captureIn_le (hg : s.mainClk.Good) :
    s.captureIn adcFreq ≤ 2 * (ignoreMax adcFreq + adcPeriod adcFreq) := by
  have hle := @ignoreIn_le adcFreq s hg
  have hp := @wait_lt_period adcFreq s
  unfold captureIn
  split <;> omega

/-- At a rise of `adc_clk` the control reads the trigger from before it. -/
theorem awaiting_rise (h : s.Awaits) (hw : s.scope.cap.div.wait i.adcFreq = 0)
    (hign : ¬ (s.scopeIn i).isIngore = true) :
    (s.step i).scope.cap.fifo.currentState =
      if s.trigger = false then .waitTrigger
      else if s.scope.cap.fifo.currentState = .idle then .idle else .saving := by
  have hread : (s.scope.controlIn (s.scopeIn i)).isIngore = false :=
    Bool.eq_false_iff.mpr hign
  have htrig : (s.scope.controlIn (s.scopeIn i)).trigger = s.trigger := rfl
  show (WifiOsc.scope.step s.scope (s.scopeIn i)).cap.fifo.currentState = _
  rw [(scope_rise (i := s.scopeIn i) (DivC.wait_zero hw).1).1, AdcFifoControl.step_currentState]
  rcases h with h | h <;> cases ht : s.trigger <;>
    simp [AdcFifoControl.nextState, h, hread, htrig, ht]

/-- **One edge while a capture is awaited**: it begins, or is one edge nearer. -/
theorem awaiting_step (hg : s.mainClk.Good) (h : s.Awaits) :
    (s.step i).scope.cap.fifo.currentState = .saving ∨
      ((s.step i).Awaits ∧ (s.step i).captureIn i.adcFreq < s.captureIn i.adcFreq) := by
  have hle := @ignoreIn_le i.adcFreq (s.step i) (Div.good_step hg)
  have hpos := @ignoreIn_pos i.adcFreq s
  have hp := @wait_lt_period i.adcFreq (s.step i)
  have htrig : (s.step i).trigger = s.trigger' i := rfl
  cases hw : s.scope.cap.div.wait i.adcFreq with
  | succ w =>
    obtain ⟨hr, hwait⟩ := DivC.wait_succ hw
    have hctl' : (s.step i).scope.cap.fifo = s.scope.cap.fifo :=
      (scope_between (i := s.scopeIn i) hr).1
    have hwait' : (s.step i).scope.cap.div.wait i.adcFreq = w := hwait
    have hstand : s.trigger' i = s.trigger := trigger'_of_wait hw
    have hnear : (s.step i).ignoreIn i.adcFreq < s.ignoreIn i.adcFreq :=
      (ignoreIn_step hg hstand).resolve_left fun h0 => by omega
    refine Or.inr ⟨?_, ?_⟩
    · unfold Awaits
      rw [hctl']
      exact h
    · unfold captureIn
      rw [hctl', htrig, hstand, hw, hwait']
      rcases h with h | h <;> cases s.trigger <;> simp only [h] <;> omega
  | zero =>
    by_cases hign : (s.scopeIn i).isIngore = true
    · refine Or.inl ?_
      show (WifiOsc.scope.step s.scope (s.scopeIn i)).cap.fifo.currentState = _
      rw [(scope_rise (i := s.scopeIn i) (DivC.wait_zero hw).1).1, AdcFifoControl.step_currentState]
      rcases h with h | h <;> simp [AdcFifoControl.nextState, h, Scope.controlIn, hign]
    have hnear : s.trigger' i = s.trigger →
        (s.step i).ignoreIn i.adcFreq < s.ignoreIn i.adcFreq :=
      fun ht => (ignoreIn_step hg ht).resolve_left fun h0 => hign h0.2
    have hnext := awaiting_rise h hw hign
    cases ht : s.trigger with
    | false =>
      -- `WAIT_TRIGGER`, where only a high trigger is missing
      rw [if_pos ht] at hnext
      rw [ht] at hnear
      refine Or.inr ⟨Or.inr hnext, ?_⟩
      unfold captureIn
      rw [hnext, htrig, ht]
      rcases h with h | h <;> rw [h] <;> cases ht' : s.trigger' i
      · show _ + _ < _ + 1 + (_ + _)
        omega
      · show _ + 1 < _ + 1 + (_ + _)
        omega
      · have := hnear ht'
        show _ + _ < _ + _
        omega
      · show _ + 1 < _ + _
        omega
    | true =>
      rw [if_neg (by rw [ht]; exact Bool.noConfusion)] at hnext
      rcases h with h | h
      · rw [if_pos h] at hnext
        rw [ht] at hnear
        refine Or.inr ⟨Or.inl hnext, ?_⟩
        unfold captureIn
        rw [hnext, h, htrig, ht]
        cases ht' : s.trigger' i with
        | true =>
          have := hnear ht'
          show _ + _ < _ + _
          omega
        | false =>
          show _ + 1 + _ < _ + _
          omega
      · rw [if_neg (by rw [h]; decide)] at hnext
        exact Or.inl hnext

end Awaiting

/-! ## 4. Until a frame is begun -/

/-- The most edges from the beginning of a capture to that of its frame: 3002 words, and the edges of
    `adc_clk` around them. -/
def savingMax (adcFreq : BitVec 16) : Nat := 3006 * adcPeriod adcFreq

/-- Edges until the sender leaves `IDLE`. -/
def frameIn (adcFreq : BitVec 16) (s : FrontEnd) : Nat :=
  match s.scope.cap.fifo.currentState with
  | .idle | .waitTrigger => s.captureIn adcFreq + savingMax adcFreq
  | .saving =>
      (3001 - s.scope.fifo.fill + if s.scope.cap.fifo.isW then 0 else 1) *
        adcPeriod adcFreq + 3 * adcPeriod adcFreq + s.scope.cap.div.wait adcFreq + 1
  | .saveLen => 2 * adcPeriod adcFreq + s.scope.cap.div.wait adcFreq + 1
  | .sending =>
      if s.scope.cap.tx.currentState = .idle then
        if s.scope.cap.fifo.isFull then 1 else s.scope.cap.div.wait adcFreq + 2
      else
        2 * (ignoreMax adcFreq + adcPeriod adcFreq) + savingMax adcFreq +
          s.scope.cap.div.wait adcFreq + 1

/-- Nothing is being sent. -/
structure Quiet (s : FrontEnd) : Prop where
  mainClk : s.mainClk.Good
  clear : s.scope.cap.tx.CounterClear
  phase : ∃ (c : Crossing Sample) (j : Nat) (part : List ScopeEvent), s.scope.fifo.Models c ∧
    ScopePhase s.scope c j part
  tx : s.scope.cap.tx.currentState = .idle ∨ s.scope.cap.tx.currentState = .delay3

section Quiet

open FPGA2AR9331

variable {adcFreq : BitVec 16} {s : FrontEnd} {i : FrontIn} {c : Crossing Sample} {B : Nat}
  {ws : List Sample}

/-- The sender stays where it is, comes back to `IDLE`, or begins a frame. -/
theorem quiet_tx (hen : i.adcEnU = true)
    (h : s.scope.cap.tx.currentState = .idle ∨ s.scope.cap.tx.currentState = .delay3) :
    ScopeEvent.leave ∈ frontEnd.out s i ∨
      ((s.step i).scope.cap.tx.currentState = .idle ∨
        (s.step i).scope.cap.tx.currentState = .delay3) := by
  have htx : (s.step i).scope.cap.tx = s.scope.tx' (s.scopeIn i) := rfl
  have hrst : (s.scopeIn i).adcEnU = true := hen
  rcases h with h | h
  · cases hf : s.scope.cap.fifo.isFull with
    | false =>
      refine Or.inr (Or.inl ?_)
      simp [htx, tx'_eq, nextState, Scope.txIn, h, hf, hrst]
    | true =>
      have hne : (s.scope.tx' (s.scopeIn i)).currentState ≠ .idle := by
        simp [tx'_eq, nextState, Scope.txIn, h, hf, hrst]
      refine Or.inl ?_
      show _ ∈ Scope.out s.scope (s.scopeIn i)
      rw [Scope.out, Scope.acts, if_pos (And.intro h hne)]
      simp
  · refine Or.inr ?_
    by_cases hd : delayLen ≤ s.scope.cap.tx.delayCounter
    · exact Or.inl (by simp [htx, tx'_eq, nextState, Scope.txIn, h, hd, hrst])
    · exact Or.inr (by simp [htx, tx'_eq, nextState, Scope.txIn, h, hd, hrst])

/-- A capture that begins has a frame within `savingMax`. -/
theorem frameIn_saving (h : s.scope.cap.fifo.currentState = .saving) :
    s.frameIn adcFreq ≤ savingMax adcFreq := by
  have hp := @wait_lt_period adcFreq s
  have hmul : (3001 - s.scope.fifo.fill + if s.scope.cap.fifo.isW then 0 else 1) *
      adcPeriod adcFreq ≤ 3002 * adcPeriod adcFreq :=
    Nat.mul_le_mul_right _ (by split <;> omega)
  simp only [frameIn, h, savingMax]
  omega

theorem frameIn_awaits (h : s.Awaits) :
    s.frameIn adcFreq = s.captureIn adcFreq + savingMax adcFreq := by
  rcases h with h | h <;> simp only [frameIn, h]

/-- **While a capture is awaited** its frame comes nearer. -/
theorem frameIn_awaiting (hg : s.mainClk.Good) (h : s.Awaits) :
    (s.step i).frameIn i.adcFreq < s.frameIn i.adcFreq := by
  have hpos := @captureIn_pos i.adcFreq s h
  rw [frameIn_awaits h]
  rcases @awaiting_step s i hg h with hsave | ⟨haw, hlt⟩
  · have := @frameIn_saving i.adcFreq _ hsave
    omega
  · rw [frameIn_awaits haw]
    omega

/-- While the words are written. -/
theorem frameIn_writing (h : Filling s.scope c B ws) (hm : s.scope.fifo.Models c)
    (hc : s.scope.cap.fifo.currentState = .saving) (hlen : c.hist.length ≤ c.r + 3000) :
    (s.step i).frameIn i.adcFreq < s.frameIn i.adcFreq := by
  have hne : s.scope.cap.fifo.currentState ≠ .sending := by simp [hc]
  obtain ⟨-, c', hm', -, hr', hlen', -⟩ :=
    filling_step h hm (by omega) (notFull_step (i := s.scopeIn i) h.notFull hne)
  have hfill := Dcfifo.toNat_fill hm
  have hfill' : (s.step i).scope.fifo.fill = c'.hist.length - c'.r := Dcfifo.toNat_fill hm'
  have hp := @wait_lt_period i.adcFreq (s.step i)
  have hwrites : s.scope.writes (s.scopeIn i) =
      (s.scope.cap.div.rises i.adcFreq && s.scope.cap.fifo.isW) := rfl
  rw [hwrites] at hlen'
  cases hw : s.scope.cap.div.wait i.adcFreq with
  | succ w =>
    obtain ⟨hr, hwait⟩ := DivC.wait_succ hw
    have hctl : (s.step i).scope.cap.fifo = s.scope.cap.fifo :=
      (scope_between (i := s.scopeIn i) hr).1
    have hwait' : (s.step i).scope.cap.div.wait i.adcFreq = w := hwait
    rw [hr, Bool.false_and, if_neg Bool.false_ne_true, Nat.add_zero] at hlen'
    have hsame : (s.step i).scope.fifo.fill = s.scope.fifo.fill := by omega
    simp only [frameIn, hctl, hc, hwait', hw, hsame]
    omega
  | zero =>
    obtain ⟨hr, -⟩ := DivC.wait_zero hw
    have hctl : (s.step i).scope.cap.fifo =
        s.scope.cap.fifo.step adcLen (s.scope.controlIn (s.scopeIn i)) :=
      (scope_rise (i := s.scopeIn i) hr).1
    have hon : (s.step i).scope.cap.fifo.isW = true := by
      rw [hctl]
      simp [AdcFifoControl.step, hc]
    rw [hr, Bool.true_and] at hlen'
    have hless : 3001 - (s.step i).scope.fifo.fill + 1 ≤
        3001 - s.scope.fifo.fill + if s.scope.cap.fifo.isW then 0 else 1 := by
      obtain ⟨-, -, -, hr2, hs2, hs1, hd, -⟩ := hm.order
      split at hlen'
      · next hW =>
        rw [if_pos hW]
        omega
      · next hW =>
        rw [if_neg hW]
        omega
    have hmul := Nat.mul_le_mul_right (adcPeriod i.adcFreq) hless
    rw [Nat.add_mul, Nat.one_mul] at hmul
    have hbefore : s.frameIn i.adcFreq =
        (3001 - s.scope.fifo.fill + if s.scope.cap.fifo.isW then 0 else 1) *
          adcPeriod i.adcFreq + 3 * adcPeriod i.adcFreq + 0 + 1 := by
      simp only [frameIn, hc, hw]
    rw [hbefore]
    have hnext : (s.step i).scope.cap.fifo.currentState = .saving ∨
        (s.step i).scope.cap.fifo.currentState = .saveLen := by
      rw [hctl, AdcFifoControl.step_currentState, AdcFifoControl.nextState, hc]
      dsimp only
      split
      · exact Or.inr rfl
      · exact Or.inl rfl
    rcases hnext with hnext | hnext
    · simp only [frameIn, hnext, hon, if_true, Nat.add_zero]
      omega
    · simp only [frameIn, hnext]
      omega

/-- In `SAVE_LEN` the sender is back in `IDLE`. -/
theorem frameIn_saveLen (h : Filling s.scope c B ws) (hm : s.scope.fifo.Models c)
    (hc : s.scope.cap.fifo.currentState = .saveLen) (hlen : c.hist.length = c.r + 3001) :
    (s.step i).frameIn i.adcFreq < s.frameIn i.adcFreq := by
  have hp := @wait_lt_period i.adcFreq (s.step i)
  cases hw : s.scope.cap.div.wait i.adcFreq with
  | succ w =>
    obtain ⟨hr, hwait⟩ := DivC.wait_succ hw
    have hctl : (s.step i).scope.cap.fifo = s.scope.cap.fifo :=
      (scope_between (i := s.scopeIn i) hr).1
    have hwait' : (s.step i).scope.cap.div.wait i.adcFreq = w := hwait
    simp only [frameIn, hctl, hc, hwait', hw]
    omega
  | zero =>
    obtain ⟨hr, -⟩ := DivC.wait_zero hw
    have hidle : (s.step i).scope.cap.tx.currentState = .idle :=
      saveLen_idle (i := s.scopeIn i) h hm hlen
    have hctl : (s.step i).scope.cap.fifo =
        s.scope.cap.fifo.step adcLen (s.scope.controlIn (s.scopeIn i)) :=
      (scope_rise (i := s.scopeIn i) hr).1
    have hnext : (s.step i).scope.cap.fifo.currentState = .sending := by
      rw [hctl, AdcFifoControl.step_currentState, AdcFifoControl.nextState, hc]
    have hnot : (s.step i).scope.cap.fifo.isFull = false := by
      rw [hctl]
      simp [AdcFifoControl.step, hc]
    simp only [frameIn, hnext, hidle, hnot, hc, hw, if_true, Bool.false_eq_true, if_false]
    omega

/-- A frame that is offered is begun once `isFull` is up. -/
theorem frameIn_offered {k : Nat} (h : Held s.scope c ws k) (hen : i.adcEnU = true)
    (ht : s.scope.cap.tx.currentState = .idle)
    (hidle' : (s.step i).scope.cap.tx.currentState = .idle) :
    (s.step i).frameIn i.adcFreq < s.frameIn i.adcFreq := by
  have hc := h.control
  have hrst : (s.scopeIn i).adcEnU = true := hen
  have hnext : (s.scope.tx' (s.scopeIn i)).currentState = .idle := hidle'
  have hf : s.scope.cap.fifo.isFull = false := by
    cases hf : s.scope.cap.fifo.isFull with
    | false => rfl
    | true =>
      rw [tx'_eq, FPGA2AR9331.step_currentState, nextState, ht] at hnext
      simp [Scope.txIn, hf, hrst] at hnext
  obtain ⟨hsend, -⟩ := sending_step (i := s.scopeIn i) hc h.off
    fun _ => not_isWait (by rw [hnext]; decide)
  have hsend' : (s.step i).scope.cap.fifo.currentState = .sending := hsend
  simp only [frameIn, hsend', hidle', hc, ht, hf, if_true, Bool.false_eq_true, if_false]
  cases hw : s.scope.cap.div.wait i.adcFreq with
  | succ w =>
    have hwait : (s.step i).scope.cap.div.wait i.adcFreq = w := (DivC.wait_succ hw).2
    rw [hwait]
    split <;> omega
  | zero =>
    have hctl : (s.step i).scope.cap.fifo =
        s.scope.cap.fifo.step adcLen (s.scope.controlIn (s.scopeIn i)) :=
      (scope_rise (i := s.scopeIn i) (DivC.wait_zero hw).1).1
    have hfull : (s.step i).scope.cap.fifo.isFull = true := by
      rw [hctl]
      simp [AdcFifoControl.step, hc]
    rw [if_pos hfull]
    omega

/-- After a frame the control reads `clear`. -/
theorem frameIn_clearing {k : Nat} (hg : s.mainClk.Good) (h : Held s.scope c ws k)
    (hen : i.adcEnU = true) (hf : s.scope.cap.fifo.isFull = true)
    (ht : s.scope.cap.tx.currentState = .delay3) (hr : s.scope.cap.tx.rClk = false)
    (hcount : s.scope.cap.tx.delayCounter.toNat < 2000) :
    (s.step i).frameIn i.adcFreq < s.frameIn i.adcFreq := by
  have hc := h.control
  have hbefore : s.frameIn i.adcFreq =
      2 * (ignoreMax i.adcFreq + adcPeriod i.adcFreq) + savingMax i.adcFreq +
        s.scope.cap.div.wait i.adcFreq + 1 := by
    simp [frameIn, hc, ht]
  rw [hbefore]
  cases hw : s.scope.cap.div.wait i.adcFreq with
  | succ w =>
    obtain ⟨hr, hwait⟩ := DivC.wait_succ hw
    have hctl : (s.step i).scope.cap.fifo = s.scope.cap.fifo :=
      (scope_between (i := s.scopeIn i) hr).1
    have hwait' : (s.step i).scope.cap.div.wait i.adcFreq = w := hwait
    simp only [frameIn, hctl, hc, hf, hwait', if_true]
    split <;> omega
  | zero =>
    obtain ⟨hstay, -⟩ := delay_tx (i := s.scopeIn i) hen ht hr hcount
    have hclear : (s.scope.tx' (s.scopeIn i)).isWait = true := by
      rw [isWait, beq_iff_eq]
      exact hstay
    have hctl : (s.step i).scope.cap.fifo =
        s.scope.cap.fifo.step adcLen (s.scope.controlIn (s.scopeIn i)) :=
      (scope_rise (i := s.scopeIn i) (DivC.wait_zero hw).1).1
    have hidle : (s.step i).scope.cap.fifo.currentState = .idle := by
      rw [hctl, AdcFifoControl.step_currentState]
      simp [AdcFifoControl.nextState, Scope.controlIn, hc, hclear]
    have hle := @captureIn_le i.adcFreq (s.step i) (Div.good_step hg)
    rw [frameIn_awaits (Or.inl hidle)]
    omega

/-- What the path needs of the host at an edge. -/
def Allows (s : FrontEnd) (i : FrontIn) : Prop := s.scope.Allows (s.scopeIn i)

/-- **One edge with nothing being sent** and `adc_en_u` high: a frame is begun, or is one edge
    nearer. -/
theorem quiet_step (h : Quiet s) (ha : s.Allows i) (hen : i.adcEnU = true) :
    ScopeEvent.leave ∈ frontEnd.out s i ∨
      (Quiet (s.step i) ∧ (s.step i).frameIn i.adcFreq < s.frameIn i.adcFreq) := by
  obtain ⟨hg, hclear, ⟨c, j, part, hm, hphase⟩, htx⟩ := h
  rcases quiet_tx (i := i) hen htx with hleave | htx'
  · exact Or.inl hleave
  have hnext : ∃ (c' : Crossing Sample) (j' : Nat) (part' : List ScopeEvent),
      (s.step i).scope.fifo.Models c' ∧ ScopePhase (s.step i).scope c' j' part' := by
    cases scopePhase_step ha hclear hm hphase with
    | same c' j' hm' h' => exact ⟨c', j', _, hm', h'⟩
    | ended c' _ hm' h' => exact ⟨c', 0, [], hm', h'⟩
  refine Or.inr ⟨⟨Div.good_step hg, scope_counterClear hclear, hnext, htx'⟩, ?_⟩
  cases hphase with
  | waiting B ws h hc => exact frameIn_awaiting hg hc
  | saving B ws h hc hlen => exact frameIn_writing h hm hc hlen
  | saveLen B ws h hc hlen => exact frameIn_saveLen h hm hc hlen
  | offered ws k j l h hl ht hr =>
    refine frameIn_offered h hen ht (htx'.resolve_right fun hd => ?_)
    have hrst : (s.scopeIn i).adcEnU = true := hen
    have hnext : (s.scope.tx' (s.scopeIn i)).currentState = .delay3 := hd
    rw [tx'_eq, FPGA2AR9331.step_currentState, nextState, ht] at hnext
    cases hf : s.scope.cap.fifo.isFull <;> simp [Scope.txIn, hf, hrst] at hnext
  | frame ws k j n m l h hl hf ht =>
    obtain ⟨hidle, hdelay⟩ := sends_ne ht
    exact absurd htx (by simp [hidle, hdelay])
  | clearing ws k j l h hl hf ht hr hclk => exact frameIn_clearing hg h hen hf ht hr (by omega)
  | spent j part h hc => exact frameIn_awaiting hg (Or.inl hc)

theorem frameIn_le (h : Quiet s) :
    s.frameIn adcFreq ≤
      2 * (ignoreMax adcFreq + adcPeriod adcFreq) + savingMax adcFreq + adcPeriod adcFreq := by
  have hp := @wait_lt_period adcFreq s
  have hle := @captureIn_le adcFreq s h.mainClk
  cases hc : s.scope.cap.fifo.currentState with
  | idle => rw [frameIn_awaits (Or.inl hc)]; omega
  | waitTrigger => rw [frameIn_awaits (Or.inr hc)]; omega
  | saving => have := @frameIn_saving adcFreq s hc; omega
  | saveLen =>
    simp only [frameIn, hc, savingMax]
    omega
  | sending =>
    simp only [frameIn, hc, savingMax]
    split
    · split <;> omega
    · omega

end Quiet

end FrontEnd

/-! ## 5. Every run -/

open FrontEnd

/-- The invariant of the path, and a divider that keeps its pace. -/
theorem frontEnd_inv {s : FrontEnd} (h : s.PowerUp) {is : List FrontIn}
    (ha : frontEnd.Throughout FrontEnd.Allows s is) :
    (frontEnd.run s is).mainClk.Good ∧ ScopeInv (frontEnd.run s is).scope (frontEnd.log s is) :=
  frontEnd.inv_log_of (C := FrontEnd.Allows) (I := fun s l => s.mainClk.Good ∧ ScopeInv s.scope l)
    (fun _ _ _ ha hI => ⟨Div.good_step hI.1, scopeInv_step ha hI.2⟩)
    ⟨Div.good_powerUp h.mainClk (by decide) (by decide), scopeInv_powerUp h.scope⟩ ha

/-- **No signal keeps the scope waiting.** In every run from power-up in which the host keeps to
    adc_freq ≤ 499, whatever it does with `adc_en_u` as long as a reset lasts for 1001 edges, and
    whatever the samples are, constant or not: where nothing is being sent, and from there on
    `adc_en_u` stays high and adc_freq the same, a frame is begun within two delays of the automatic
    trigger and the time of 3011 samples: 200 ms, and 15 ms more where the samples come slowest. -/
theorem frame_due (s : FrontEnd) (h : s.PowerUp) (is later : List FrontIn)
    (ha : frontEnd.Throughout FrontEnd.Allows s (is ++ later)) (adcFreq : BitVec 16)
    (hon : ∀ i ∈ later, i.adcEnU = true ∧ i.adcFreq = adcFreq)
    (htx : (frontEnd.run s is).scope.cap.tx.currentState = .idle ∨
      (frontEnd.run s is).scope.cap.tx.currentState = .delay3)
    (hlen : 40000800 + 3011 * (2 * (adcFreq.toNat + 1)) < later.length) :
    ScopeEvent.leave ∈ frontEnd.log (frontEnd.run s is) later := by
  obtain ⟨hbefore, hlater⟩ := frontEnd.throughout_append.mp ha
  obtain ⟨hg, hinv⟩ := frontEnd_inv h hbefore
  obtain ⟨-, part, j, c, -, -, hm, hphase, -⟩ := hinv.rounds
  have hquiet : Quiet (frontEnd.run s is) := ⟨hg, hinv.clear, ⟨c, j, part, hm, hphase⟩, htx⟩
  have hmax : ignoreMax adcFreq = adcPeriod adcFreq + 20000400 := rfl
  have hsaving : savingMax adcFreq = 3006 * (2 * (adcFreq.toNat + 1)) := rfl
  have hperiod : adcPeriod adcFreq = 2 * (adcFreq.toNat + 1) := rfl
  have hle := @frameIn_le adcFreq _ hquiet
  rw [hmax, hsaving, hperiod] at hle
  have hlt : frameIn adcFreq (frontEnd.run s is) < later.length := by omega
  obtain ⟨o, ho, rfl⟩ := frontEnd.due (I := Quiet)
    (C := fun s i => s.Allows i ∧ i.adcEnU = true ∧ i.adcFreq = adcFreq)
    (E := fun o => o = ScopeEvent.leave)
    (fun s i hs hi => by
      obtain ⟨hallow, hen, rfl⟩ := hi
      rcases quiet_step hs hallow hen with hleave | hnext
      · exact Or.inl ⟨_, hleave, rfl⟩
      · exact Or.inr hnext)
    hquiet (frontEnd.throughout_and hlater hon) hlt
  exact ho

section Host

variable {s : FrontEnd} {is : List FrontIn}

/-- Before the host has switched the sender on. -/
theorem standby (ht : s.scope.cap.tx.currentState = .idle) (hlow : s.scope.low = 0)
    (hoff : ∀ i ∈ is, i.adcEnU = false ∧ i.adcFreq.toNat ≤ 499) :
    frontEnd.Throughout FrontEnd.Allows s is ∧
      (frontEnd.run s is).scope.cap.tx.currentState = .idle ∧ (frontEnd.run s is).scope.low = 0 := by
  induction is generalizing s with
  | nil => exact ⟨trivial, ht, hlow⟩
  | cons i is ih =>
    obtain ⟨hen, hfreq⟩ := hoff i List.mem_cons_self
    have hrst : (s.scopeIn i).adcEnU = false := hen
    have hidle : (s.step i).scope.cap.tx.currentState = .idle := (scope_off hrst).1
    have hzero : (s.step i).scope.low = 0 := by
      simp [FrontEnd.step, scope, Scope.step, hrst, ht, hlow]
    obtain ⟨hall, hrun⟩ := ih hidle hzero fun j hj => hoff j (List.mem_cons_of_mem i hj)
    exact ⟨⟨⟨hfreq, fun _ => Or.inl hlow⟩, hall⟩, hrun⟩

/-- And after it. -/
theorem switched_on (hlow : s.scope.low = 0)
    (hon : ∀ i ∈ is, i.adcEnU = true ∧ i.adcFreq.toNat ≤ 499) :
    frontEnd.Throughout FrontEnd.Allows s is := by
  induction is generalizing s with
  | nil => trivial
  | cons i is ih =>
    obtain ⟨hen, hfreq⟩ := hon i List.mem_cons_self
    exact ⟨⟨hfreq, fun _ => Or.inl hlow⟩,
      ih (low_on hen) fun j hj => hon j (List.mem_cons_of_mem i hj)⟩

end Host

/-- No signal at all, from power-up with the registers at 0; the host switches the sender on after
    a second. -/
theorem frame_due_silent :
    let off := List.replicate 200000000 (⟨false, 0, 0, true, true, true, ⟨0, 0, ⟨0, 0⟩⟩⟩ : FrontIn)
    let on := List.replicate 41000000 (⟨true, 9, 0, true, true, true, ⟨0, 0, ⟨0, 0⟩⟩⟩ : FrontIn)
    ScopeEvent.leave ∈ frontEnd.log (frontEnd.run ⟨false, .powerUp, ⟨0, false⟩, restScope⟩ off) on := by
  intro off on
  have hoff : ∀ i ∈ off, i.adcEnU = false ∧ i.adcFreq.toNat ≤ 499 := by
    intro i hi
    rw [List.eq_of_mem_replicate hi]
    exact ⟨rfl, Nat.zero_le 499⟩
  have hon : ∀ i ∈ on, i.adcEnU = true ∧ i.adcFreq = 9 := by
    intro i hi
    rw [List.eq_of_mem_replicate hi]
    exact ⟨rfl, rfl⟩
  obtain ⟨hall, hidle, hlow⟩ := standby (s := ⟨false, .powerUp, ⟨0, false⟩, restScope⟩) rfl rfl hoff
  refine frame_due _ ⟨⟨rfl⟩, restScope_powerUp⟩ off on (frontEnd.throughout_append.mpr ⟨hall, ?_⟩) 9 hon
    (Or.inl hidle) ?_
  · exact switched_on hlow fun i hi => ⟨(hon i hi).1, by rw [(hon i hi).2]; decide⟩
  · rw [List.length_replicate]
    decide

end WifiOsc
