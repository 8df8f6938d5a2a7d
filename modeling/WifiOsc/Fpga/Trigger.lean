/-
  File:      WifiOsc/Fpga/Trigger.lean
  Subject:   THE TRIGGER. `ADC_TRIGGER` and `ADC_TRIGGER_I` (FPGA/SPI_TEST_2/ADC.sv), and
             `ADC_TRIGGER` in front of `ADC_FIFO_CONTROL`.

  `ADC_TRIGGER` is a comparator with hysteresis, `ADC_TRIGGER_I` asks for a capture without a
  trigger once the trigger has stood still for long enough.

  * `ignoreInv_run`: the registers of `ADC_TRIGGER_I` as functions of the waveform;
  * `isIngore_window`: its output is up exactly after DELAY + 2 equal samples, and its counter
    stays within DELAY;
  * `lowInv_run`: while the trigger is low, no sample has been above `max` since one below `min`;
  * `capture_after_crossing`: a capture begins with the third sample after a rising crossing.
-/
import WifiOsc.Basis.History
import WifiOsc.Basis.Sampling
import WifiOsc.Fpga.Capture

namespace WifiOsc

open Basis

/-! ## 1. The automatic trigger -/

/-- `ADC_TRIGGER_I`. -/
structure AdcTriggerI where
  counter : BitVec 32
  triggerSave : Bool
  isIngore : Bool
  deriving DecidableEq, Repr

namespace AdcTriggerI

/-- All registers 0. -/
def powerUp : AdcTriggerI := ⟨0#32, false, false⟩

def step (DELAY : BitVec 32) (a : AdcTriggerI) (trigger : Bool) : AdcTriggerI :=
  if a.triggerSave != trigger then
    { triggerSave := trigger, counter := 0#32, isIngore := false }
  else if DELAY ≤ a.counter then { a with isIngore := true }
  else { a with counter := a.counter + 1#32, isIngore := false }

def machine (DELAY : BitVec 32) : Machine AdcTriggerI Bool Unit where
  step := step DELAY
  out _ _ := []

/-- The state after edge `n`, when edge `k` samples `t k`, `k = 1, 2, …`. -/
def after (DELAY : BitVec 32) (t : Nat → Bool) (n : Nat) : AdcTriggerI :=
  (machine DELAY).run powerUp (upTo (fun k => t (k + 1)) n)

/-- The registers after `n` edges of the waveform `t`: the last sample, and for how long it has
    not changed, up to DELAY. -/
structure IgnoreInv (DELAY : BitVec 32) (t : Nat → Bool) (n : Nat) (a : AdcTriggerI) : Prop where
  save : a.triggerSave = t n
  count : a.counter.toNat = min (steady t n) DELAY.toNat
  ignore : a.isIngore = true ↔ DELAY.toNat + 1 ≤ steady t n

variable {DELAY : BitVec 32} {t : Nat → Bool} {n : Nat} {a : AdcTriggerI}

theorem after_succ : after DELAY t (n + 1) = (after DELAY t n).step DELAY (t (n + 1)) :=
  run_upTo_succ _ _ _ n

theorem ignoreInv_step (h : IgnoreInv DELAY t n a) :
    IgnoreInv DELAY t (n + 1) (a.step DELAY (t (n + 1))) := by
  obtain ⟨hs, hc, _⟩ := h
  unfold step
  by_cases ht : t (n + 1) = t n
  · rw [if_neg (by simp [hs, ht])]
    by_cases hd : DELAY ≤ a.counter
    · rw [if_pos hd]
      have hfull : DELAY.toNat ≤ steady t n := by
        rw [BitVec.le_def, hc] at hd
        omega
      refine ⟨hs.trans ht.symm, ?_, ?_⟩
      · rw [hc, steady_succ_of_eq ht]
        omega
      · rw [steady_succ_of_eq ht]
        exact ⟨fun _ => Nat.succ_le_succ hfull, fun _ => rfl⟩
    · rw [if_neg hd]
      have hlt : steady t n < DELAY.toNat := by
        rw [BitVec.le_def, hc] at hd
        omega
      refine ⟨hs.trans ht.symm, ?_, ?_⟩
      · have hD := DELAY.isLt
        rw [steady_succ_of_eq ht, BitVec.toNat_add, hc, BitVec.toNat_ofNat]
        omega
      · rw [steady_succ_of_eq ht]
        refine ⟨nofun, ?_⟩
        intro hle
        omega
  · rw [if_pos (by simpa [hs] using Ne.symm ht)]
    refine ⟨rfl, ?_, ?_⟩
    · rw [steady_succ_of_ne ht]
      simp
    · rw [steady_succ_of_ne ht]
      exact ⟨nofun, nofun⟩

theorem ignoreInv_run (h0 : t 0 = false) : ∀ n, IgnoreInv DELAY t n (after DELAY t n) := by
  intro n
  induction n with
  | zero => exact ⟨h0.symm, by simp [after, upTo, powerUp], by simp [after, upTo, powerUp]⟩
  | succ n ih =>
    rw [after_succ]
    exact ignoreInv_step ih

/-- **After edge `n`, `is_ingore` is up if and only if the last DELAY + 2 samples are equal**, the
    sample 0 before the first edge included, and `counter` has not passed DELAY. -/
theorem isIngore_window (DELAY : BitVec 32) (t : Nat → Bool) (h0 : t 0 = false) (n : Nat) :
    ((after DELAY t n).isIngore = true ↔ DELAY.toNat + 1 ≤ n ∧
      ∀ j, n - (DELAY.toNat + 1) ≤ j → j ≤ n → t j = t n) ∧
    (after DELAY t n).counter.toNat ≤ DELAY.toNat := by
  obtain ⟨_, hc, hi⟩ := @ignoreInv_run DELAY t h0 n
  refine ⟨hi.trans le_steady_iff, ?_⟩
  rw [hc]
  exact Nat.min_le_right _ _

/-- High for the samples 3 to 7. -/
def pulse (n : Nat) : Bool := 3 ≤ n && n ≤ 7

/-- With DELAY = 2 the fourth sample of the pulse brings `is_ingore` up, not the third. -/
theorem isIngore_window_pulse :
    (after 2#32 pulse 6).isIngore = true ∧ (after 2#32 pulse 5).isIngore ≠ true ∧
      (after 2#32 pulse 6).counter.toNat ≤ 2 := by
  have h := fun n => isIngore_window 2#32 pulse rfl n
  refine ⟨(h 6).1.mpr ⟨by decide, ?_⟩, fun hup => ?_, (h 6).2⟩
  · intro j hlo hhi
    have hj : 3 ≤ j := hlo
    interval_cases j <;> rfl
  · have := ((h 5).1.mp hup).2 2 (by decide) (by decide)
    cases this

end AdcTriggerI

/-! ## 2. The comparator in front of the capture side -/

/-- `ADC_TRIGGER`, one edge of its clock. -/
def adcTrigger (max min : Byte) (trigger : Bool) (data : Byte) : Bool :=
  if max < data then true else if data < min then false else trigger

/-- `ADC_TRIGGER` and `ADC_FIFO_CONTROL` on one clock. -/
structure Triggered where
  trigger : Bool
  fifo : AdcFifoControl
  deriving DecidableEq, Repr

/-- What comes from outside at an edge. -/
structure TriggeredIn where
  data : Byte
  clear : Bool
  lenCache : BitVec 32

/-- Both registers change at once: the capture side reads the trigger from before the edge. The log
    is what the FIFO is given to write. -/
def triggered (max min : Byte) (LEN : BitVec 32) : Machine Triggered TriggeredIn Byte where
  step s i :=
    { trigger := adcTrigger max min s.trigger i.data
      fifo := s.fifo.step LEN ⟨false, s.trigger, i.clear, i.lenCache⟩ }
  out s i := if s.fifo.isW then [i.data] else []

theorem AdcFifoControl.nextState_waitTrigger {a : AdcFifoControl} {LEN : BitVec 32} {i : AdcFifoIn}
    (h : a.nextState LEN i = .waitTrigger) : i.isIngore = false ∧ i.trigger = false := by
  cases hs : a.currentState with
  | idle | waitTrigger =>
    cases hi : i.isIngore <;> cases ht : i.trigger <;> simp_all [AdcFifoControl.nextState]
  | saving | sending =>
    simp only [AdcFifoControl.nextState, hs] at h
    split at h <;> cases h
  | saveLen =>
    simp only [AdcFifoControl.nextState, hs] at h
    cases h

theorem AdcFifoControl.nextState_saving {a : AdcFifoControl} {LEN : BitVec 32} {i : AdcFifoIn}
    (h : a.nextState LEN i = .saving) (hi : i.isIngore = false) (hn : a.currentState ≠ .saving) :
    a.currentState = .waitTrigger ∧ i.trigger = true := by
  cases hs : a.currentState with
  | idle | waitTrigger => cases ht : i.trigger <;> simp_all [AdcFifoControl.nextState]
  | saving => exact absurd hs hn
  | sending =>
    simp only [AdcFifoControl.nextState, hs] at h
    split at h <;> cases h
  | saveLen =>
    simp only [AdcFifoControl.nextState, hs] at h
    cases h

namespace Triggered

/-- `trigger` has no initial value. -/
def powerUp (trigger : Bool) (len : BitVec 32) : Triggered := ⟨trigger, .powerUp len⟩

section Run

variable {max min : Byte} {LEN : BitVec 32}

/-- The state before edge `n`, `n = 0, 1, …`. -/
def before (max min : Byte) (LEN : BitVec 32) (s : Triggered) (i : Nat → TriggeredIn) (n : Nat) :
    Triggered :=
  (triggered max min LEN).run s (upTo i n)

variable {s : Triggered} {i : Nat → TriggeredIn} {n : Nat}

theorem before_succ : before max min LEN s i (n + 1) =
    (triggered max min LEN).step (before max min LEN s i n) (i n) :=
  run_upTo_succ _ _ _ n

theorem trigger_succ : (before max min LEN s i (n + 1)).trigger =
    adcTrigger max min (before max min LEN s i n).trigger (i n).data := by
  rw [before_succ]
  rfl

theorem state_succ : (before max min LEN s i (n + 1)).fifo.currentState =
    (before max min LEN s i n).fifo.nextState LEN
      ⟨false, (before max min LEN s i n).trigger, (i n).clear, (i n).lenCache⟩ := by
  rw [before_succ]
  exact AdcFifoControl.step_currentState _ _ _

/-- The samples above `max`. -/
def Above (max : Byte) (i : Nat → TriggeredIn) (n : Nat) : Prop := max < (i n).data

/-- The samples below `min`. -/
def Below (min : Byte) (i : Nat → TriggeredIn) (n : Nat) : Prop := (i n).data < min

/-- **While the trigger is low** no sample has been above `max` since the last one below `min`, or
    since power-up with the trigger low. -/
theorem lowInv_run (n : Nat) (h : (before max min LEN s i n).trigger = false) :
    QuietSince (Below min i) (Above max i) (s.trigger = false) n := by
  induction n with
  | zero => exact quietSince_zero h
  | succ n ih =>
    rw [trigger_succ, adcTrigger] at h
    by_cases hmax : max < (i n).data
    · rw [if_pos hmax] at h
      cases h
    rw [if_neg hmax] at h
    by_cases hmin : (i n).data < min
    · exact quietSince_of_lo hmin
    · rw [if_neg hmin] at h
      exact quietSince_succ (ih h) hmax

/-- The trigger rises at samples above `max` only. -/
theorem trigger_rises (h0 : (before max min LEN s i n).trigger = false)
    (h1 : (before max min LEN s i (n + 1)).trigger = true) : Above max i n := by
  rw [trigger_succ, adcTrigger, h0] at h1
  by_cases hmax : max < (i n).data
  · exact hmax
  · rw [if_neg hmax] at h1
    split at h1 <;> cases h1

/-- `WAIT_TRIGGER` is entered, and kept, with the trigger low. -/
theorem waiting_low (h : (before max min LEN s i (n + 1)).fifo.currentState = .waitTrigger) :
    (before max min LEN s i n).trigger = false := by
  rw [state_succ] at h
  exact (AdcFifoControl.nextState_waitTrigger h).2

/-- Without `isIngore`, a capture begins in `WAIT_TRIGGER` with the trigger up. -/
theorem saving_entered (h : (before max min LEN s i (n + 1)).fifo.currentState = .saving)
    (hn : (before max min LEN s i n).fifo.currentState ≠ .saving) :
    (before max min LEN s i n).fifo.currentState = .waitTrigger ∧
      (before max min LEN s i n).trigger = true := by
  rw [state_succ] at h
  exact AdcFifoControl.nextState_saving h rfl hn

/-- The write enable follows the state by one edge. -/
theorem isW_succ_of_waitTrigger
    (h : (before max min LEN s i n).fifo.currentState = .waitTrigger) :
    (before max min LEN s i (n + 1)).fifo.isW = false := by
  rw [before_succ]
  simp [triggered, AdcFifoControl.step, h]

theorem isW_succ_of_saving (h : (before max min LEN s i n).fifo.currentState = .saving) :
    (before max min LEN s i (n + 1)).fifo.isW = true := by
  rw [before_succ]
  simp [triggered, AdcFifoControl.step, h]

/-- What the FIFO is given to write at the `m` edges from edge `n` on. -/
def written (max min : Byte) (LEN : BitVec 32) (s : Triggered) (i : Nat → TriggeredIn)
    (n m : Nat) : List Byte :=
  (triggered max min LEN).log (before max min LEN s i n) (upTo (fun k => i (n + k)) m)

theorem written_succ (m : Nat) : written max min LEN s i n (m + 1) =
    (if (before max min LEN s i n).fifo.isW then [(i n).data] else []) ++
      written max min LEN s i (n + 1) m := by
  have hin : (fun k => i (n + (k + 1))) = fun k => i (n + 1 + k) := by
    funext k
    rw [Nat.add_assoc, Nat.add_comm 1 k]
  unfold written
  rw [upTo_succ', Machine.log_cons, before_succ, hin]
  rfl

/-- **A capture begins with the third sample after a rising crossing.** If `ADC_FIFO_CONTROL`
    enters `SAVING` at step `n + 1`, then the sample before (`n - 1`, here `c`) is above `max`; none
    since the last one below `min`, or since power-up with the trigger low, was; and the first word
    that the FIFO is given in this capture is sample `n + 2`. -/
theorem capture_after_crossing (max min : Byte) (LEN : BitVec 32)
    (trigger : Bool) (len : BitVec 32) (i : Nat → TriggeredIn) (n : Nat)
    (hsave : (before max min LEN (powerUp trigger len) i (n + 1)).fifo.currentState = .saving)
    (hnew : (before max min LEN (powerUp trigger len) i n).fifo.currentState ≠ .saving) :
    ∃ c, n = c + 1 ∧ Above max i c ∧
      (∀ m, LastBefore (Below min i) m c → ∀ j, m < j → j < c → ¬ Above max i j) ∧
      ((∀ j, j < c → ¬ Below min i j) → trigger = false ∧ ∀ j, j < c → ¬ Above max i j) ∧
      ∀ m, 2 ≤ m → (written max min LEN (powerUp trigger len) i (n + 1) m).head? =
        some (i (n + 2)).data := by
  obtain ⟨hwait, hhigh⟩ := saving_entered hsave hnew
  cases n with
  | zero => cases hwait
  | succ c =>
    have hlow := waiting_low hwait
    have hquiet := lowInv_run c hlow
    refine ⟨c, rfl, trigger_rises hlow hhigh, fun m hm => hquiet.of_last hm, hquiet.of_never, ?_⟩
    intro m hm
    obtain ⟨m, rfl⟩ := Nat.exists_eq_add_of_le' hm
    rw [written_succ, isW_succ_of_waitTrigger hwait, written_succ, isW_succ_of_saving hsave]
    rfl

/-- The trigger falls with the first sample, and a sample between the thresholds does not matter. -/
def curveInput (n : Nat) : TriggeredIn :=
  ⟨match n with
    | 0 => 5#8
    | 1 => 15#8
    | 2 => 12#8
    | n + 3 => BitVec.ofNat 8 (30 + n), false, 0#32⟩

/-- Thresholds 10 and 20, the trigger high at power-up: sample 3 is above, and sample 6, which is 33,
    is the first one stored. -/
theorem capture_after_crossing_curve :
    (before 20#8 10#8 3000#32 (powerUp true 0#32) curveInput 5).fifo.currentState = .saving ∧
    (before 20#8 10#8 3000#32 (powerUp true 0#32) curveInput 4).fifo.currentState ≠ .saving ∧
    ∃ c, 4 = c + 1 ∧ Above 20#8 curveInput c ∧
      (∀ m, LastBefore (Below 10#8 curveInput) m c →
        ∀ j, m < j → j < c → ¬ Above 20#8 curveInput j) ∧
      ((∀ j, j < c → ¬ Below 10#8 curveInput j) →
        true = false ∧ ∀ j, j < c → ¬ Above 20#8 curveInput j) ∧
      ∀ m, 2 ≤ m → (written 20#8 10#8 3000#32 (powerUp true 0#32) curveInput 5 m).head? =
        some 33#8 :=
  ⟨by decide, by decide,
    capture_after_crossing 20#8 10#8 3000#32 true 0#32 curveInput 4 (by decide) (by decide)⟩

end Run

end Triggered

end WifiOsc
