/-
  File:      WifiOsc/Fpga/Capture.lean
  Subject:   CAPTURE AND SEND. `ADC_FIFO_CONTROL` (FPGA/SPI_TEST_2/ADC.sv) on the clock that `Div_c`
             (Divs.v) divides, `FPGA2AR9331` on the base clock, connected as main.sv connects them:
             `en` is `isFull`, `clear` is `isWAIT`.

  The sender holds `isWAIT` for 2001 clocks. The capture side has to see it at one of its rising
  edges, and drops `isFull` at the next one. `adc_clk` has a period of 2 (adc_freq + 1) clocks, so
  both edges fall into the 2001 clocks exactly when adc_freq ≤ 499.

  * `capture`: the pair at every base edge, with what is observed there;
  * `Stale`: what is known while nothing has been saved since the last frame began;
    `stale_step`: one edge;
  * `sent_once`: up to adc_freq = 499 no capture is sent twice;
  * `resend`: for every larger adc_freq a run that sends a capture twice; `resendRun`: one at 500;
  * `sentOnce_iff`: the two together.
-/
import WifiOsc.Basis.Machine
import WifiOsc.Fpga.Sender
import Mathlib.Data.List.Chain
import Mathlib.Tactic.IntervalCases

namespace WifiOsc

open Basis

/-! ## 1. The divider -/

/-- `Div_c`. `clk_div` has no initial value. -/
structure DivC where
  cnt : BitVec 16
  clkDiv : Bool
  deriving DecidableEq, Repr

namespace DivC

def step (d : DivC) (divStep : BitVec 16) : DivC :=
  if divStep ≤ d.cnt then ⟨0#16, !d.clkDiv⟩ else ⟨d.cnt + 1#16, d.clkDiv⟩

/-- Is the next edge of the base clock a rising edge of `clk_div`? -/
def rises (d : DivC) (divStep : BitVec 16) : Bool := !d.clkDiv && (d.step divStep).clkDiv

/-- Base edges before the next one that raises `clk_div`. -/
def wait (d : DivC) (divStep : BitVec 16) : Nat :=
  divStep.toNat - d.cnt.toNat + if d.clkDiv then divStep.toNat + 1 else 0

variable {d : DivC} {divStep : BitVec 16}

theorem wait_lt : d.wait divStep < 2 * (divStep.toNat + 1) := by
  unfold wait
  split <;> omega

theorem cnt_succ (h : ¬ divStep ≤ d.cnt) : (d.cnt + 1#16).toNat = d.cnt.toNat + 1 := by
  rw [BitVec.le_def] at h
  have := divStep.isLt
  rw [BitVec.toNat_add, BitVec.toNat_ofNat]
  omega

theorem wait_zero (h : d.wait divStep = 0) :
    d.rises divStep = true ∧ (d.step divStep).wait divStep = 2 * divStep.toNat + 1 := by
  have hlow : d.clkDiv = false := by
    cases hc : d.clkDiv
    · rfl
    · simp [wait, hc] at h
  have hle : divStep ≤ d.cnt := by
    rw [BitVec.le_def]
    simp [wait, hlow] at h
    omega
  refine ⟨by simp [rises, step, hle, hlow], ?_⟩
  simp only [step, if_pos hle, wait, hlow, BitVec.toNat_ofNat, Bool.not_false, if_true]
  omega

theorem wait_succ {k : Nat} (h : d.wait divStep = k + 1) :
    d.rises divStep = false ∧ (d.step divStep).wait divStep = k := by
  by_cases hle : divStep ≤ d.cnt
  · have hle' := BitVec.le_def.mp hle
    cases hc : d.clkDiv with
    | false =>
      simp only [wait, hc, Bool.false_eq_true, if_false] at h
      omega
    | true =>
      refine ⟨by simp [rises, hc], ?_⟩
      simp only [wait, hc, if_true] at h
      simp only [step, if_pos hle, wait, hc, BitVec.toNat_ofNat, Bool.not_true,
        Bool.false_eq_true, if_false]
      omega
  · have hlt : d.cnt.toNat < divStep.toNat := by
      rw [BitVec.le_def] at hle
      omega
    refine ⟨by simp [rises, step, hle], ?_⟩
    simp only [wait] at h
    simp only [step, if_neg hle, wait, cnt_succ hle]
    omega

end DivC

/-! ## 2. The capture side -/

inductive FifoState where
  | idle | waitTrigger | saving | saveLen | sending
  deriving DecidableEq, Repr

/-- `ADC_FIFO_CONTROL` without the FIFO itself, whose fill level is an input. -/
structure AdcFifoControl where
  currentState : FifoState
  isW : Bool
  isFull : Bool
  len : BitVec 32
  deriving DecidableEq, Repr

/-- What `ADC_FIFO_CONTROL` reads at an edge of its clock; `lenCache` is `wrusedw`. -/
structure AdcFifoIn where
  isIngore : Bool
  trigger : Bool
  clear : Bool
  lenCache : BitVec 32

namespace AdcFifoControl

/-- `len` has no initial value. -/
def powerUp (len : BitVec 32) : AdcFifoControl := ⟨.idle, true, false, len⟩

def nextState (LEN : BitVec 32) (a : AdcFifoControl) (i : AdcFifoIn) : FifoState :=
  match a.currentState with
  | .idle => if i.isIngore then .saving else if !i.trigger then .waitTrigger else .idle
  | .waitTrigger => if i.trigger || i.isIngore then .saving else .waitTrigger
  | .saving => if LEN - 2#32 < i.lenCache then .saveLen else .saving
  | .saveLen => .sending
  | .sending => if i.clear then .idle else .sending

/-- One rising edge of its clock. -/
def step (LEN : BitVec 32) (a : AdcFifoControl) (i : AdcFifoIn) : AdcFifoControl :=
  let a' := { a with currentState := a.nextState LEN i }
  match a.currentState with
  | .idle | .waitTrigger => { a' with isW := false, isFull := false }
  | .saving => { a' with isW := true, isFull := false }
  | .saveLen => { a' with isW := false, isFull := false, len := i.lenCache }
  | .sending => { a' with isW := false, isFull := true }

@[simp] theorem step_currentState (LEN : BitVec 32) (a : AdcFifoControl) (i : AdcFifoIn) :
    (a.step LEN i).currentState = a.nextState LEN i := by
  cases ha : a.currentState <;> simp [step, ha]

/-- `isFull` is up in `SENDING`, and for one more edge after it. -/
def FullState (a : AdcFifoControl) : Prop :=
  a.isFull = true → a.currentState = .sending ∨ a.currentState = .idle

theorem fullState_step (LEN : BitVec 32) (a : AdcFifoControl) (i : AdcFifoIn) :
    (a.step LEN i).FullState := by
  intro h
  cases ha : a.currentState with
  | sending =>
    cases hc : i.clear
    · exact Or.inl (by simp [nextState, ha, hc])
    · exact Or.inr (by simp [nextState, ha, hc])
  | idle | waitTrigger | saving | saveLen => simp [step, ha] at h

end AdcFifoControl

/-! ## 3. The pair on the base clock -/

/-- What the outside decides at a base edge. -/
structure CaptureIn where
  isIngore : Bool
  trigger : Bool
  lenCache : BitVec 32
  dataIn : Byte
  ack : Bool

structure Capture where
  div : DivC
  fifo : AdcFifoControl
  tx : FPGA2AR9331

/-- `leave`: the sender leaves `IDLE`. `saving`: the capture side is in `SAVING`. -/
inductive CaptureEvent where
  | leave | saving
  deriving DecidableEq

/-- The parameter of the instance in main.sv. -/
def adcLen : BitVec 32 := 3000#32

/-- The sender's inputs at a base edge. -/
def Capture.txIn (s : Capture) (i : CaptureIn) : Ar9331In :=
  ⟨true, s.fifo.isFull, i.dataIn, s.fifo.len, i.ack⟩

/-- One base edge. `adc_clk` is a register of the base clock, so its edge comes after it: the
    capture side reads the `isWAIT` that this base edge has produced, and the sender the `isFull`
    from before. -/
def capture (adcFreq : BitVec 16) : Machine Capture CaptureIn CaptureEvent where
  step s i :=
    let tx' := s.tx.step (s.txIn i)
    { div := s.div.step adcFreq
      fifo :=
        if s.div.rises adcFreq then
          s.fifo.step adcLen ⟨i.isIngore, i.trigger, tx'.isWait, i.lenCache⟩
        else s.fifo
      tx := tx' }
  out s i :=
    let tx' := s.tx.step (s.txIn i)
    let fifo' :=
      if s.div.rises adcFreq then
        s.fifo.step adcLen ⟨i.isIngore, i.trigger, tx'.isWait, i.lenCache⟩
      else s.fifo
    (if s.tx.currentState = .idle ∧ tx'.currentState ≠ .idle then [.leave] else []) ++
      (if fifo'.currentState = .saving then [.saving] else [])

/-- Power-up: the divider in any phase, the registers without initial value as they may be. -/
structure Capture.PowerUp (s : Capture) : Prop where
  fifo : s.fifo = AdcFifoControl.powerUp s.fifo.len
  tx : s.tx.currentState = .idle

/-- **Each capture is sent at most once**: the capture side has been in `SAVING` between any two
    departures of the sender from `IDLE`. -/
def SentOnce (l : List CaptureEvent) : Prop := l.IsChain fun a b => a = .leave → b ≠ .leave

theorem sentOnce_append {l l' : List CaptureEvent} :
    SentOnce (l ++ l') ↔ SentOnce l ∧ SentOnce l' ∧
      (l.getLast? = some .leave → l'.head? ≠ some .leave) := by
  rw [SentOnce, List.isChain_append]
  refine and_congr_right fun _ => and_congr_right fun _ => ⟨fun h e e' => ?_, fun h a ha b hb => ?_⟩
  · exact h _ e _ e' rfl rfl
  · rintro rfl rfl
    exact h ha hb

/-! ## 4. One edge -/

section Edge

variable {adcFreq : BitVec 16} {s : Capture} {i : CaptureIn}

@[simp] theorem capture_step_tx : ((capture adcFreq).step s i).tx = s.tx.step (s.txIn i) := rfl

/-- Between two rising edges of its clock the capture side stands still. -/
theorem capture_step_fifo {k : Nat} (h : s.div.wait adcFreq = k + 1) :
    ((capture adcFreq).step s i).fifo = s.fifo ∧
      ((capture adcFreq).step s i).div.wait adcFreq = k := by
  obtain ⟨hr, hw⟩ := DivC.wait_succ h
  exact ⟨by simp [capture, hr], hw⟩

/-- What the capture side reads at a rising edge of its clock. -/
def Capture.fifoIn (s : Capture) (i : CaptureIn) : AdcFifoIn :=
  ⟨i.isIngore, i.trigger, (s.tx.step (s.txIn i)).isWait, i.lenCache⟩

theorem capture_step_rise (h : s.div.wait adcFreq = 0) :
    ((capture adcFreq).step s i).fifo = s.fifo.step adcLen (s.fifoIn i) ∧
      ((capture adcFreq).step s i).div.wait adcFreq = 2 * adcFreq.toNat + 1 := by
  obtain ⟨hr, hw⟩ := DivC.wait_zero h
  exact ⟨by simp [capture, Capture.fifoIn, hr], hw⟩

/-- The sender leaves `IDLE` exactly when it finds `isFull` up there. -/
theorem capture_out : (capture adcFreq).out s i =
    (if s.tx.currentState = .idle ∧ s.fifo.isFull = true then [.leave] else []) ++
      (if ((capture adcFreq).step s i).fifo.currentState = .saving then [.saving] else []) := by
  show (if s.tx.currentState = .idle ∧ (s.tx.step (s.txIn i)).currentState ≠ .idle then _ else _) ++
    _ = _
  congr 1
  by_cases hs : s.tx.currentState = .idle
  · cases hf : s.fifo.isFull <;>
      simp [hs, FPGA2AR9331.nextState, Capture.txIn, hf]
  · simp [hs]

end Edge

/-! ## 5. While nothing has been saved since the last frame began -/

/-- The capture side has taken its frame back: `isFull` is down, and it comes up only after
    `SAVING`. -/
def AdcFifoControl.Released (a : AdcFifoControl) : Prop :=
  (a.currentState = .idle ∨ a.currentState = .waitTrigger) ∧ a.isFull = false

/-- From `IDLE` or `WAIT_TRIGGER`, unless to `SAVING`. -/
theorem released_step {a : AdcFifoControl} {LEN : BitVec 32} {i : AdcFifoIn}
    (h : a.currentState = .idle ∨ a.currentState = .waitTrigger)
    (hsave : (a.step LEN i).currentState ≠ .saving) : (a.step LEN i).Released := by
  refine ⟨?_, by rcases h with h | h <;> simp [AdcFifoControl.step, h]⟩
  rw [AdcFifoControl.step_currentState] at hsave ⊢
  rcases h with h | h <;> cases hi : i.isIngore <;> cases ht : i.trigger <;>
    simp_all [AdcFifoControl.nextState]

/-- A frame is on its way, and in `DELAY_3` fewer than `B` edges lie between its beginning and the
    next rising edge of the capture side's clock, `w` edges ahead. -/
def Window (B w : Nat) (tx : FPGA2AR9331) : Prop :=
  tx.currentState = .sendStartSave ∨ tx.Sending ∨
    tx.currentState = .delay3 ∧ tx.delayCounter.toNat + w < B

/-- Nothing has been saved since the sender last left `IDLE`: the capture side has one rising edge
    to leave `SENDING` and a second one to drop `isFull`. -/
inductive Stale (adcFreq : BitVec 16) (s : Capture) : Prop where
  | released (hf : s.fifo.Released)
  | sending (hf : s.fifo.currentState = .sending)
      (ht : Window (2 * (adcFreq.toNat + 1)) (s.div.wait adcFreq) s.tx)
  | cleared (hf : s.fifo.currentState = .idle)
      (ht : Window (4 * (adcFreq.toNat + 1)) (s.div.wait adcFreq) s.tx)

/-- A window shorter than the delay does not close at an edge. -/
theorem window_step {B w : Nat} {tx : FPGA2AR9331} (h : Window B w tx) (hclear : tx.CounterClear)
    {i : Ar9331In} (hrst : i.rstN = true) (hB : B ≤ 2000) :
    (tx.step i).Sending ∨ (tx.step i).currentState = .delay3 ∧
      ((tx.step i).delayCounter.toNat = 0 ∨ (tx.step i).delayCounter.toNat + w ≤ B) := by
  rcases h with hs | hs | ⟨hs, hw⟩
  · rcases FPGA2AR9331.nextState_cases (s := tx) hrst with ⟨h', _⟩ | ⟨_, h'⟩ | ⟨h', _⟩ | ⟨h', _⟩
    · rw [hs] at h'
      cases h'
    · exact Or.inl h'
    · exact absurd hs h'.2.1
    · rw [hs] at h'
      cases h'
  · rcases FPGA2AR9331.nextState_cases (s := tx) hrst with ⟨h', _⟩ | ⟨h', _⟩ | ⟨_, h'⟩ | ⟨h', _⟩
    · exact absurd h' hs.1
    · exact absurd h' hs.2.1
    · refine h'.imp_right fun hd => ⟨hd, Or.inl ?_⟩
      rw [FPGA2AR9331.delayCounter_sending hrst hs, hclear hs]
      rfl
    · exact absurd h' hs.2.2
  · have hlt : ¬ FPGA2AR9331.delayLen ≤ tx.delayCounter := by
      rw [BitVec.le_def]
      show ¬ 2000 ≤ _
      omega
    refine Or.inr ⟨by simp [FPGA2AR9331.nextState, hrst, hs, hlt], Or.inr ?_⟩
    rw [FPGA2AR9331.delayCounter_delay3 hrst hs, BitVec.toNat_add, BitVec.toNat_ofNat]
    omega

section Edge

variable {adcFreq : BitVec 16} {s : Capture} {i : CaptureIn}

/-- Between two rising edges of the capture side's clock. -/
theorem window_wait {B k : Nat} (h : Window B (k + 1) s.tx) (hclear : s.tx.CounterClear)
    (hB : B ≤ 2000) (hk : k < B) : Window B k ((capture adcFreq).step s i).tx := by
  rcases window_step h hclear (i := s.txIn i) rfl hB with h' | ⟨h', h0 | hw⟩
  · exact Or.inr (Or.inl h')
  · exact Or.inr (Or.inr ⟨h', by rw [capture_step_tx, h0]; omega⟩)
  · exact Or.inr (Or.inr ⟨h', by rw [capture_step_tx]; omega⟩)

/-- **One edge without `SAVING`.** The sender does not leave `IDLE`, and the state stays stale. -/
theorem stale_step (hfreq : adcFreq.toNat ≤ 499) (h : Stale adcFreq s)
    (hclear : s.tx.CounterClear)
    (hsave : ((capture adcFreq).step s i).fifo.currentState ≠ .saving) :
    Stale adcFreq ((capture adcFreq).step s i) := by
  cases hw : s.div.wait adcFreq with
  | succ k =>
    have hk : s.div.wait adcFreq < 2 * (adcFreq.toNat + 1) := DivC.wait_lt
    obtain ⟨hfifo, hwait⟩ := capture_step_fifo (i := i) hw
    cases h with
    | released hf => exact .released (by rw [hfifo]; exact hf)
    | sending hf ht =>
      rw [hw] at ht
      exact .sending (by rw [hfifo]; exact hf)
        (by rw [hwait]; exact window_wait ht hclear (by omega) (by omega))
    | cleared hf ht =>
      rw [hw] at ht
      exact .cleared (by rw [hfifo]; exact hf)
        (by rw [hwait]; exact window_wait ht hclear (by omega) (by omega))
  | zero =>
    obtain ⟨hfifo, hwait⟩ := capture_step_rise (i := i) hw
    rw [hfifo] at hsave
    cases h with
    | released hf => exact .released (by rw [hfifo]; exact released_step hf.1 hsave)
    | cleared hf _ => exact .released (by rw [hfifo]; exact released_step (Or.inl hf) hsave)
    | sending hf ht =>
      rw [hw] at ht
      rcases window_step ht hclear (i := s.txIn i) rfl (by omega) with h' | ⟨h', hc⟩
      · -- `clear` is down
        have hnot : (s.tx.step (s.txIn i)).isWait = false := by
          simpa [FPGA2AR9331.isWait] using h'.2.2
        refine .sending ?_ (Or.inr (Or.inl h'))
        rw [hfifo]
        simp [AdcFifoControl.nextState, hf, Capture.fifoIn, hnot]
      · have hyes : (s.tx.step (s.txIn i)).isWait = true := by
          simpa [FPGA2AR9331.isWait] using h'
        refine .cleared ?_ (Or.inr (Or.inr ⟨h', ?_⟩))
        · rw [hfifo]
          simp [AdcFifoControl.nextState, hf, Capture.fifoIn, hyes]
        · rw [hwait, capture_step_tx]
          omega

/-- While the state is stale the sender does not leave `IDLE`. -/
theorem stale_out (h : Stale adcFreq s) :
    ¬ (s.tx.currentState = .idle ∧ s.fifo.isFull = true) := by
  rintro ⟨ht, hfull⟩
  cases h with
  | released hf =>
    rw [hf.2] at hfull
    cases hfull
  | sending _ hw | cleared _ hw =>
    rcases hw with h' | h' | ⟨h', _⟩
    · rw [ht] at h'
      cases h'
    · exact h'.1 ht
    · rw [ht] at h'
      cases h'

/-- **A frame begins**: from here on the state is stale. -/
theorem leave_stale (hfull : s.fifo.FullState) (ht : s.tx.currentState = .idle)
    (hen : s.fifo.isFull = true)
    (hsave : ((capture adcFreq).step s i).fifo.currentState ≠ .saving) :
    Stale adcFreq ((capture adcFreq).step s i) := by
  have htx : (s.tx.step (s.txIn i)).currentState = .sendStartSave := by
    simp [FPGA2AR9331.nextState, Capture.txIn, ht, hen]
  cases hw : s.div.wait adcFreq with
  | succ k =>
    obtain ⟨hfifo, _⟩ := capture_step_fifo (i := i) hw
    rcases hfull hen with hf | hf
    · exact .sending (by rw [hfifo]; exact hf) (Or.inl htx)
    · exact .cleared (by rw [hfifo]; exact hf) (Or.inl htx)
  | zero =>
    obtain ⟨hfifo, _⟩ := capture_step_rise (i := i) hw
    rcases hfull hen with hf | hf
    · have hnot : (s.tx.step (s.txIn i)).isWait = false := by
        rw [FPGA2AR9331.isWait, htx]
        rfl
      refine .sending ?_ (Or.inl htx)
      rw [hfifo]
      simp [AdcFifoControl.nextState, hf, Capture.fifoIn, hnot]
    · rw [hfifo] at hsave
      exact .released (by rw [hfifo]; exact released_step (Or.inl hf) hsave)

end Edge

/-! ## 6. Every run -/

/-- What holds after any number of edges, `l` being what was observed. -/
structure CaptureInv (adcFreq : BitVec 16) (s : Capture) (l : List CaptureEvent) : Prop where
  full : s.fifo.FullState
  clear : s.tx.CounterClear
  once : SentOnce l
  stale : l.getLast? = some .leave → Stale adcFreq s

theorem captureInv_step {adcFreq : BitVec 16} (hfreq : adcFreq.toNat ≤ 499) (s : Capture)
    (l : List CaptureEvent) (i : CaptureIn) (h : CaptureInv adcFreq s l) :
    CaptureInv adcFreq ((capture adcFreq).step s i) (l ++ (capture adcFreq).out s i) where
  full := by
    cases hw : s.div.wait adcFreq with
    | succ k => rw [(capture_step_fifo hw).1]; exact h.full
    | zero => rw [(capture_step_rise hw).1]; exact AdcFifoControl.fullState_step _ _ _
  clear := FPGA2AR9331.counterClear_step rfl h.clear
  once := by
    rw [sentOnce_append]
    refine ⟨h.once, ?_, fun hl => ?_⟩
    · rw [capture_out]
      split <;> split <;> simp [SentOnce]
    · rw [capture_out, if_neg (stale_out (h.stale hl))]
      split <;> simp
  stale := by
    rw [capture_out]
    by_cases hsave : ((capture adcFreq).step s i).fifo.currentState = .saving
    · rw [if_pos hsave, ← List.append_assoc, List.getLast?_append]
      simp
    · rw [if_neg hsave, List.append_nil]
      by_cases hen : s.tx.currentState = .idle ∧ s.fifo.isFull = true
      · exact fun _ => leave_stale h.full hen.1 hen.2 hsave
      · rw [if_neg hen, List.append_nil]
        exact fun hl => stale_step hfreq (h.stale hl) h.clear hsave

/-- **Up to adc_freq = 499 no capture is sent twice**, whatever the phase and the inputs. -/
theorem sent_once {adcFreq : BitVec 16} (hfreq : adcFreq.toNat ≤ 499) {s : Capture}
    (h : s.PowerUp) (is : List CaptureIn) : SentOnce ((capture adcFreq).log s is) := by
  have h0 : CaptureInv adcFreq s [] :=
    { full := by
        intro hf
        rw [h.fifo] at hf
        cases hf
      clear := fun hs => absurd h.tx hs.1
      once := List.isChain_nil
      stale := fun hl => by cases hl }
  exact ((capture adcFreq).inv_log (captureInv_step hfreq) h0 is).once

/-! ## 7. A capture sent twice -/

section Resend

variable {adcFreq : BitVec 16}

/-- The sender in `IDLE`. -/
def restTx : FPGA2AR9331 := ⟨.idle, false, 0, 0, none, none, false⟩

/-- The sender waits in `IDLE`, the capture side is `a`, its next rising edge `w` edges ahead. -/
structure Resting (adcFreq : BitVec 16) (a : AdcFifoControl) (w : Nat) (s : Capture) : Prop where
  tx : s.tx = restTx
  fifo : s.fifo = a
  wait : s.div.wait adcFreq = w

/-- The sender is `t`, busy with a frame, the capture side is `a`. -/
structure Busy (adcFreq : BitVec 16) (a : AdcFifoControl) (t : FPGA2AR9331) (w : Nat)
    (s : Capture) : Prop where
  tx : s.tx = t
  fifo : s.fifo = a
  wait : s.div.wait adcFreq = w

/-- The inputs of the first part of the run: no trigger, `ack` low. -/
def restIn (isIngore : Bool) (lenCache : BitVec 32) : CaptureIn := ⟨isIngore, false, lenCache, 0, false⟩

theorem resting_tx {a : AdcFifoControl} {w : Nat} {s : Capture} (h : Resting adcFreq a w s)
    (hfull : a.isFull = false) (isIngore : Bool) (lenCache : BitVec 32) :
    s.tx.step (s.txIn (restIn isIngore lenCache)) = restTx := by
  rw [Capture.txIn, h.tx, h.fifo, hfull]
  rfl

/-- With `isFull` down the sender waits for the next rising edge of the capture side's clock and
    past it. -/
theorem resting_rise {a : AdcFifoControl} {w : Nat} {s : Capture} (h : Resting adcFreq a w s)
    (hfull : a.isFull = false) (isIngore : Bool) (lenCache : BitVec 32) :
    ∃ l s', (capture adcFreq).Path s l s' ∧
      Resting adcFreq (a.step adcLen ⟨isIngore, false, false, lenCache⟩)
        (2 * adcFreq.toNat + 1) s' := by
  have hrest := resting_tx h hfull isIngore lenCache
  induction w generalizing s with
  | zero =>
    obtain ⟨hfifo, hwait⟩ := capture_step_rise (i := restIn isIngore lenCache) h.wait
    refine ⟨_, (capture adcFreq).step s (restIn isIngore lenCache), Machine.Path.edge s _, hrest,
      ?_, hwait⟩
    rw [hfifo, h.fifo, Capture.fifoIn, hrest]
    rfl
  | succ w ih =>
    obtain ⟨hfifo, hwait⟩ := capture_step_fifo (i := restIn isIngore lenCache) h.wait
    have h' : Resting adcFreq a w ((capture adcFreq).step s (restIn isIngore lenCache)) :=
      ⟨hrest, hfifo.trans h.fifo, hwait⟩
    obtain ⟨l, s', hp, hs'⟩ := ih h' (resting_tx h' hfull isIngore lenCache)
    exact ⟨_, s', (Machine.Path.edge s _).trans hp, hs'⟩

/-- The capture side with a frame of length 1 to send. -/
def offering : AdcFifoControl := ⟨.sending, false, true, 1#32⟩

/-- From power-up, with `adc_clk` about to rise four times, a frame of length 1 is offered. -/
theorem reach_offering {w : Nat} {s : Capture} {len : BitVec 32}
    (h : Resting adcFreq (AdcFifoControl.powerUp len) w s) :
    ∃ l s', (capture adcFreq).Path s l s' ∧
      Resting adcFreq offering (2 * adcFreq.toNat + 1) s' := by
  obtain ⟨l1, s1, p1, h1⟩ := resting_rise h rfl true 0
  obtain ⟨l2, s2, p2, h2⟩ := resting_rise h1 rfl true adcLen
  obtain ⟨l3, s3, p3, h3⟩ := resting_rise h2 rfl true 1
  obtain ⟨l4, s4, p4, h4⟩ := resting_rise h3 rfl true 1
  exact ⟨_, s4, ((p1.trans p2).trans p3).trans p4, h4⟩

/-- The sender's inputs while a frame of length 1 is offered. -/
def offeringIn (ack : Bool) : Ar9331In := ⟨true, true, 0, 1#32, ack⟩

/-- One edge between two rising edges: the capture side stands still and nothing is observed. -/
theorem busy_step {t : FPGA2AR9331} {w : Nat} {s : Capture}
    (h : Busy adcFreq offering t (w + 1) s) (ht : t.currentState ≠ .idle) (ack : Bool) :
    (capture adcFreq).out s ⟨false, false, 0, 0, ack⟩ = [] ∧
      Busy adcFreq offering (t.step (offeringIn ack)) w
        ((capture adcFreq).step s ⟨false, false, 0, 0, ack⟩) := by
  obtain ⟨hfifo, hwait⟩ := capture_step_fifo (i := ⟨false, false, 0, 0, ack⟩) h.wait
  have htx : s.txIn ⟨false, false, 0, 0, ack⟩ = offeringIn ack := by
    rw [Capture.txIn, h.fifo]
    rfl
  refine ⟨?_, by rw [capture_step_tx, h.tx, htx], hfifo.trans h.fifo, hwait⟩
  rw [capture_out, hfifo, h.fifo, h.tx, if_neg fun h' => ht h'.1]
  rfl

/-- The values of `ack` that take a frame of length 1 from the header to `DELAY_2`. -/
def shortAcks : List Bool := List.replicate 7 false ++ List.replicate 4 true ++ List.replicate 2 false

/-- The sender `n` edges after it left `IDLE`, `ack` as in `shortAcks`. -/
def shortTx (n : Nat) : FPGA2AR9331 :=
  (shortAcks.take n).foldl (fun t ack => t.step (offeringIn ack)) restTx

/-- The sender in `DELAY_2` at the end of a frame of length 1. -/
def endTx : FPGA2AR9331 := shortTx 13

theorem shortTx_step : ∀ n < 13,
    (shortTx n).step (offeringIn (shortAcks.getD n false)) = shortTx (n + 1) := by
  decide

theorem shortTx_busy : ∀ n < 13, (shortTx (n + 1)).currentState ≠ .idle := by
  decide

/-- **The frame begins**, observed as a departure from `IDLE`. -/
theorem offering_leave {w : Nat} {s : Capture} (h : Resting adcFreq offering (w + 1) s) :
    ∃ s', (capture adcFreq).Path s [.leave] s' ∧ Busy adcFreq offering (shortTx 1) w s' := by
  obtain ⟨hfifo, hwait⟩ := capture_step_fifo (i := restIn false 0) h.wait
  have hout : (capture adcFreq).out s (restIn false 0) = [.leave] := by
    rw [capture_out, hfifo, h.fifo, h.tx]
    rfl
  refine ⟨(capture adcFreq).step s (restIn false 0), hout ▸ Machine.Path.edge s _, ?_,
    hfifo.trans h.fifo, hwait⟩
  rw [capture_step_tx, Capture.txIn, h.tx, h.fifo]
  rfl

/-- It runs to `DELAY_2` and waits there for the next rising edge of the capture side's clock. -/
theorem busy_end {w : Nat} {s : Capture} (h : Busy adcFreq offering (shortTx 1) (w + 12) s) :
    ∃ s', (capture adcFreq).Path s [] s' ∧ Busy adcFreq offering endTx 0 s' := by
  obtain ⟨s1, p1, h1⟩ := Machine.Path.silent (M := capture adcFreq) (N := 12)
    (D := fun n s => Busy adcFreq offering (shortTx (n + 1)) (w + 12 - n) s)
    (fun n hn s hs => by
      have hw : w + 12 - n = w + 12 - (n + 1) + 1 := by omega
      rw [hw] at hs
      obtain ⟨ho, hb⟩ := busy_step hs (shortTx_busy n (by omega)) (shortAcks.getD (n + 1) false)
      rw [shortTx_step (n + 1) (by omega)] at hb
      exact ⟨_, ho, hb⟩) h
  obtain ⟨s2, p2, h2⟩ := Machine.Path.silent (M := capture adcFreq) (N := w)
    (D := fun n s => Busy adcFreq offering endTx (w - n) s)
    (fun n hn s hs => by
      have hw : w - n = w - (n + 1) + 1 := by omega
      rw [hw] at hs
      obtain ⟨ho, hb⟩ := busy_step hs (by decide) false
      exact ⟨_, ho, hb⟩) h1
  exact ⟨s2, p1.trans p2, by simpa using h2⟩

/-- `n` edges into `DELAY_3`, which began right after a rising edge of the capture side's clock:
    `isFull` is still up, and comes down only two of its periods later. -/
structure Delaying (adcFreq : BitVec 16) (n : Nat) (s : Capture) : Prop where
  state : s.tx.currentState = .delay3
  counter : s.tx.delayCounter.toNat = n
  full : s.fifo.isFull = true
  clock : (s.fifo.currentState = .sending ∧ s.div.wait adcFreq + n = 2 * adcFreq.toNat) ∨
    (s.fifo.currentState = .idle ∧ s.div.wait adcFreq + n = 4 * adcFreq.toNat + 2)

/-- Past the rising edge and into `DELAY_3`. -/
theorem end_delaying {s : Capture} (h : Busy adcFreq offering endTx 0 s) :
    ∃ s', (capture adcFreq).Path s [] s' ∧ Delaying adcFreq 0 s' := by
  obtain ⟨hfifo, hwait⟩ := capture_step_rise (i := restIn false 0) h.wait
  have htx : s.tx.step (s.txIn (restIn false 0)) = endTx := by
    rw [Capture.txIn, h.tx, h.fifo]
    rfl
  have hfifo' : ((capture adcFreq).step s (restIn false 0)).fifo = offering := by
    rw [hfifo, h.fifo, Capture.fifoIn, htx]
    rfl
  have hout : (capture adcFreq).out s (restIn false 0) = [] := by
    rw [capture_out, hfifo', h.tx]
    rfl
  obtain ⟨ho, hb⟩ := busy_step (t := endTx) (w := 2 * adcFreq.toNat)
    ⟨htx, hfifo', hwait⟩ (by decide) true
  refine ⟨_, (hout ▸ Machine.Path.edge s (restIn false 0)).trans (ho ▸ Machine.Path.edge _ _), ?_⟩
  refine ⟨by rw [hb.tx]; decide, by rw [hb.tx]; decide, by rw [hb.fifo]; rfl, Or.inl ⟨?_, ?_⟩⟩
  · rw [hb.fifo]
    rfl
  · rw [hb.wait]
    rfl

/-- The capture side at an edge of `DELAY_3`: `isFull` stays up, and nothing is saved. -/
theorem delaying_edge {n : Nat} {s : Capture} (h : Delaying adcFreq n s)
    (hfreq : 500 ≤ adcFreq.toNat) (hn : n ≤ 2000) (i : CaptureIn) :
    ((capture adcFreq).step s i).fifo.isFull = true ∧ (capture adcFreq).out s i = [] ∧
      ((s.tx.step (s.txIn i)).isWait = true →
        (((capture adcFreq).step s i).fifo.currentState = .sending ∧
            ((capture adcFreq).step s i).div.wait adcFreq + (n + 1) = 2 * adcFreq.toNat) ∨
          (((capture adcFreq).step s i).fifo.currentState = .idle ∧
            ((capture adcFreq).step s i).div.wait adcFreq + (n + 1) = 4 * adcFreq.toNat + 2)) := by
  have hnot : ¬ (s.tx.currentState = .idle ∧ s.fifo.isFull = true) := by
    intro h'
    rw [h.state] at h'
    cases h'.1
  rw [capture_out, if_neg hnot]
  cases hw : s.div.wait adcFreq with
  | succ k =>
    obtain ⟨hfifo, hwait⟩ := capture_step_fifo (i := i) hw
    rw [hfifo, hwait]
    refine ⟨h.full, ?_, fun _ => ?_⟩
    · rcases h.clock with ⟨hf, _⟩ | ⟨hf, _⟩ <;> simp [hf]
    · exact h.clock.imp (fun ⟨hf, e⟩ => ⟨hf, by omega⟩) fun ⟨hf, e⟩ => ⟨hf, by omega⟩
  | zero =>
    obtain ⟨hfifo, hwait⟩ := capture_step_rise (i := i) hw
    rw [hfifo, hwait, AdcFifoControl.step_currentState]
    rcases h.clock with ⟨hf, e⟩ | ⟨_, e⟩
    · -- the only rising edge of `adc_clk` in these 2001
      refine ⟨by simp [AdcFifoControl.step, hf], ?_, fun hwt => Or.inr ⟨?_, by omega⟩⟩
      · cases hc : (s.fifoIn i).clear <;> simp [AdcFifoControl.nextState, hf, hc]
      · simp [AdcFifoControl.nextState, hf, Capture.fifoIn, hwt]
    · omega

theorem delaying_step {n : Nat} {s : Capture} (h : Delaying adcFreq n s)
    (hfreq : 500 ≤ adcFreq.toNat) (hn : n < 2000) (i : CaptureIn) :
    (capture adcFreq).out s i = [] ∧ Delaying adcFreq (n + 1) ((capture adcFreq).step s i) := by
  obtain ⟨hfull, hout, hclock⟩ := delaying_edge h hfreq (by omega) i
  have hlt : ¬ FPGA2AR9331.delayLen ≤ s.tx.delayCounter := by
    rw [BitVec.le_def, h.counter]
    show ¬ 2000 ≤ n
    omega
  have hstate : (s.tx.step (s.txIn i)).currentState = .delay3 := by
    simp [FPGA2AR9331.nextState, Capture.txIn, h.state, hlt]
  refine ⟨hout, hstate, ?_, hfull, hclock (by rw [FPGA2AR9331.isWait, hstate]; rfl)⟩
  rw [capture_step_tx, FPGA2AR9331.delayCounter_delay3 rfl h.state, BitVec.toNat_add, h.counter,
    BitVec.toNat_ofNat]
  omega

/-- **The delay ends with `isFull` still up**: the same capture is sent again. -/
theorem delaying_leave {s : Capture} (h : Delaying adcFreq 2000 s) (hfreq : 500 ≤ adcFreq.toNat) :
    ∃ l s', (capture adcFreq).Path s (.leave :: l) s' := by
  obtain ⟨hfull, hout, _⟩ := delaying_edge h hfreq (Nat.le_refl _) (restIn false 0)
  have hle : FPGA2AR9331.delayLen ≤ s.tx.delayCounter := by
    rw [BitVec.le_def, h.counter]
    exact Nat.le_refl _
  have hstate : (s.tx.step (s.txIn (restIn false 0))).currentState = .idle := by
    simp [FPGA2AR9331.nextState, Capture.txIn, h.state, hle]
  have hp := (hout ▸ Machine.Path.edge s (restIn false 0)).trans
    (Machine.Path.edge ((capture adcFreq).step s (restIn false 0)) (restIn false 0))
  rw [capture_out (s := (capture adcFreq).step s (restIn false 0)), if_pos ⟨hstate, hfull⟩,
    List.nil_append] at hp
  exact ⟨_, _, hp⟩

/-- **For every larger adc_freq a capture can be sent twice.** -/
theorem resend (hfreq : 500 ≤ adcFreq.toNat) (div : DivC) (len : BitVec 32) :
    ∃ is, ¬ SentOnce ((capture adcFreq).log ⟨div, AdcFifoControl.powerUp len, restTx⟩ is) := by
  obtain ⟨l1, s1, p1, h1⟩ := @reach_offering adcFreq _
    ⟨div, AdcFifoControl.powerUp len, restTx⟩ _ ⟨rfl, rfl, rfl⟩
  obtain ⟨s2, p2, h2⟩ := offering_leave h1
  obtain ⟨s3, p3, h3⟩ := busy_end (w := 2 * adcFreq.toNat - 12)
    (by rwa [Nat.sub_add_cancel (by omega)])
  obtain ⟨s4, p4, h4⟩ := end_delaying h3
  obtain ⟨s5, p5, h5⟩ := Machine.Path.silent (N := 2000)
    (fun n hn s hs => ⟨restIn false 0, delaying_step hs hfreq hn _⟩) h4
  obtain ⟨l6, s6, p6⟩ := delaying_leave h5 hfreq
  obtain ⟨is, _, hlog⟩ := ((((p1.trans p2).trans p3).trans p4).trans p5).trans p6
  refine ⟨is, ?_⟩
  intro hsent
  simp only [List.append_nil] at hlog
  rw [hlog, sentOnce_append] at hsent
  exact hsent.2.2 (by simp) (by simp)

end Resend

/-! ## 8. When each capture is sent at most once -/

/-- **adc_freq ≤ 499 is exactly the condition** under which no run, from any phase and with any
    inputs, sends a capture twice. -/
theorem sentOnce_iff (adcFreq : BitVec 16) :
    (∀ s : Capture, s.PowerUp → ∀ is, SentOnce ((capture adcFreq).log s is)) ↔
      adcFreq.toNat ≤ 499 := by
  refine ⟨fun h => ?_, fun hfreq s hs is => sent_once hfreq hs is⟩
  by_contra hlarge
  obtain ⟨is, his⟩ := @resend adcFreq (by omega) ⟨0, false⟩ 0
  exact his (h _ ⟨rfl, rfl⟩ is)

/-- A run at adc_freq = 500, a sampling clock of just under 200 kHz: four rising edges of `adc_clk`
    to offer a frame of length 1, the `ack`s that take it to `DELAY_2`, the next rising edge, and
    one more change of `ack` that is held for the 2001 clocks of `DELAY_3`. -/
def resendRun : List CaptureIn :=
  List.replicate 1003 ⟨true, false, 3000#32, 0, false⟩ ++
    List.replicate 2012 ⟨true, false, 1#32, 0, false⟩ ++
    List.replicate 4 ⟨true, false, 1#32, 0, true⟩ ++
    List.replicate 991 ⟨true, false, 1#32, 0, false⟩ ++
    List.replicate 2003 ⟨true, false, 1#32, 0, true⟩

/-- Power-up with the divider about to toggle. -/
def resendStart : Capture := ⟨⟨500#16, false⟩, AdcFifoControl.powerUp 0, restTx⟩

theorem resendRun_sent_twice :
    resendStart.PowerUp ∧ ¬ SentOnce ((capture 500#16).log resendStart resendRun) := by
  refine ⟨⟨rfl, rfl⟩, ?_⟩
  unfold SentOnce
  decide +kernel

end WifiOsc
