/-
  File:      WifiOsc/Fpga/CaptureLength.lean
  Subject:   THE RECORDED LENGTH. `ADC_FIFO_CONTROL` with its FIFO: every word that is written, every
             word that the reader takes, and `len_cache` as the fill level.

  `isW` follows the state by one edge, so the last word of a capture is written at the edge of
  `SAVE_LEN`, which records the fill level from before it; and `isW` is up at power-up, so the first
  edge of all writes a word.

  * `Filled`: the control and the words in the FIFO, each with the capture it was written in;
  * `FillInv`, `fillInv_run`: how full the FIFO can be in each state;
  * `recorded_one_short`: at every entry into `SENDING` the FIFO holds one word more than `len`;
  * `fresh_after_first`: from the second capture on, every word in the FIFO is of that capture.
-/
import WifiOsc.Basis.Sampling
import WifiOsc.Fpga.Capture

namespace WifiOsc

open Basis

/-! ## 1. The control with its FIFO -/

/-- A word in the FIFO, and how often `SAVING` had been entered when it was written. -/
structure Word where
  data : Byte
  capture : Nat
  deriving DecidableEq, Repr

/-- `captures` counts the entries into `SAVING`; the hardware has no such register. -/
structure Filled where
  control : AdcFifoControl
  store : List Word
  captures : Nat
  deriving DecidableEq, Repr

/-- What comes from outside at an edge of `clk`; `pops` is how many words the reader asks for between
    this edge and the one before. -/
structure FilledIn where
  data : Byte
  isIngore : Bool
  trigger : Bool
  clear : Bool
  pops : Nat

namespace Filled

/-- What is in the FIFO right before the edge: words leave it only while `isFull` is up. -/
def unread (s : Filled) (i : FilledIn) : List Word :=
  if s.control.isFull then s.store.drop i.pops else s.store

/-- What the control reads at the edge. -/
def controlIn (s : Filled) (i : FilledIn) : AdcFifoIn :=
  ⟨i.isIngore, i.trigger, i.clear, BitVec.ofNat 32 (s.unread i).length⟩

def step (LEN : BitVec 32) (s : Filled) (i : FilledIn) : Filled :=
  let control' := s.control.step LEN (s.controlIn i)
  { control := control'
    store := s.unread i ++ if s.control.isW then [⟨i.data, s.captures⟩] else []
    captures :=
      if control'.currentState = .saving ∧ s.control.currentState ≠ .saving then s.captures + 1
      else s.captures }

def machine (LEN : BitVec 32) : Machine Filled FilledIn Unit where
  step := step LEN
  out _ _ := []

/-- Power-up: the FIFO is empty. -/
def powerUp (len : BitVec 32) : Filled := ⟨.powerUp len, [], 0⟩

/-- The state before edge `n`, `n = 0, 1, …`. -/
def before (LEN : BitVec 32) (s : Filled) (i : Nat → FilledIn) (n : Nat) : Filled :=
  (machine LEN).run s (upTo i n)

theorem before_succ (LEN : BitVec 32) (s : Filled) (i : Nat → FilledIn) (n : Nat) :
    before LEN s i (n + 1) = (before LEN s i n).step LEN (i n) :=
  run_upTo_succ _ _ _ n

/-- The reader has emptied the FIFO whenever it asserts `clear` in `SENDING`. -/
def Emptied (LEN : BitVec 32) (s : Filled) (i : Nat → FilledIn) : Prop :=
  ∀ n, (before LEN s i n).control.currentState = .sending → (i n).clear = true →
    (before LEN s i n).unread (i n) = []

/-- `SENDING` is entered at step `n + 1`. -/
def EntersSending (LEN : BitVec 32) (s : Filled) (i : Nat → FilledIn) (n : Nat) : Prop :=
  (before LEN s i n).control.currentState ≠ .sending ∧
    (before LEN s i (n + 1)).control.currentState = .sending

/-- **What the sender relies on**: `len` words are there, all of the current capture. -/
structure Exact (s : Filled) : Prop where
  len : s.control.len.toNat = s.store.length
  fresh : ∀ w ∈ s.store, w.capture = s.captures

/-! ## 2. One edge -/

section Edge

variable {LEN : BitVec 32} {s : Filled} {i : FilledIn}

@[simp] theorem step_control : (s.step LEN i).control = s.control.step LEN (s.controlIn i) := rfl

@[simp] theorem step_store : (s.step LEN i).store =
    s.unread i ++ if s.control.isW then [⟨i.data, s.captures⟩] else [] := rfl

/-- Words leave the FIFO and at most one enters it. -/
theorem length_step_le :
    (s.step LEN i).store.length ≤ (s.unread i).length + if s.control.isW then 1 else 0 := by
  rw [step_store, List.length_append]
  split <;> simp

theorem length_unread_le : (s.unread i).length ≤ s.store.length := by
  unfold unread
  split
  · rw [List.length_drop]
    exact Nat.sub_le _ _
  · exact Nat.le_refl _

theorem nextState_of_waiting {a : AdcFifoControl} {c : AdcFifoIn}
    (h : a.currentState = .idle ∨ a.currentState = .waitTrigger) :
    a.nextState LEN c = .idle ∨ a.nextState LEN c = .waitTrigger ∨
      a.nextState LEN c = .saving := by
  rcases h with h | h <;> cases hi : c.isIngore <;> cases ht : c.trigger <;>
    simp [AdcFifoControl.nextState, h, hi, ht]

theorem isW_of_waiting {a : AdcFifoControl} {c : AdcFifoIn}
    (h : a.currentState = .idle ∨ a.currentState = .waitTrigger) :
    (a.step LEN c).isW = false := by
  rcases h with h | h <;> simp [AdcFifoControl.step, h]

/-- The threshold, read from the fill level. -/
theorem nextState_of_saving (hs : s.control.currentState = .saving) (h2 : 2#32 ≤ LEN)
    (hlen : (s.unread i).length < 2 ^ 32) :
    s.control.nextState LEN (s.controlIn i) =
      if LEN.toNat - 2 < (s.unread i).length then .saveLen else .saving := by
  have hle : LEN - 2#32 < BitVec.ofNat 32 (s.unread i).length ↔
      LEN.toNat - 2 < (s.unread i).length := by
    rw [BitVec.lt_def, BitVec.toNat_sub_of_le h2, BitVec.toNat_ofNat (s.unread i).length,
      Nat.mod_eq_of_lt hlen]
    rfl
  simp only [AdcFifoControl.nextState, hs, controlIn, hle]

/-! ## 3. How full the FIFO is -/

/-- How full the FIFO is in each state, and where `isW` and `isFull` are up. -/
structure FillInv (LEN : BitVec 32) (s : Filled) : Prop where
  waiting : s.control.currentState = .idle ∨ s.control.currentState = .waitTrigger →
    s.store.length + (if s.control.isW then 1 else 0) ≤ 1
  saving : s.control.currentState = .saving → s.store.length + 1 ≤ LEN.toNat
  saveLen : s.control.currentState = .saveLen →
    s.control.isW = true ∧ s.control.isFull = false ∧ s.store.length ≤ LEN.toNat
  sending : s.control.currentState = .sending → s.control.isW = false

theorem FillInv.of_waiting
    (hs : s.control.currentState = .idle ∨ s.control.currentState = .waitTrigger)
    (h : s.store.length + (if s.control.isW then 1 else 0) ≤ 1) : FillInv LEN s := by
  rcases hs with hs | hs <;>
    exact ⟨fun _ => h, fun h' => by simp [hs] at h', fun h' => by simp [hs] at h',
      fun h' => by simp [hs] at h'⟩

theorem FillInv.of_saving (hs : s.control.currentState = .saving)
    (h : s.store.length + 1 ≤ LEN.toNat) : FillInv LEN s :=
  ⟨fun h' => by simp [hs] at h', fun _ => h, fun h' => by simp [hs] at h',
    fun h' => by simp [hs] at h'⟩

theorem FillInv.of_saveLen (hs : s.control.currentState = .saveLen)
    (h : s.control.isW = true ∧ s.control.isFull = false ∧ s.store.length ≤ LEN.toNat) :
    FillInv LEN s :=
  ⟨fun h' => by simp [hs] at h', fun h' => by simp [hs] at h', fun _ => h,
    fun h' => by simp [hs] at h'⟩

theorem FillInv.of_sending (hs : s.control.currentState = .sending)
    (h : s.control.isW = false) : FillInv LEN s :=
  ⟨fun h' => by simp [hs] at h', fun h' => by simp [hs] at h', fun h' => by simp [hs] at h',
    fun _ => h⟩

theorem fillInv_step (h2 : 2#32 ≤ LEN) (h : FillInv LEN s)
    (hread : s.control.currentState = .sending → i.clear = true → s.unread i = []) :
    FillInv LEN (s.step LEN i) := by
  have hun := @length_unread_le s i
  have hlen := @length_step_le LEN s i
  have hLEN : 2 ≤ LEN.toNat := BitVec.le_def.mp h2
  have hlt := LEN.isLt
  have hnext : (s.step LEN i).control.currentState = s.control.nextState LEN (s.controlIn i) :=
    AdcFifoControl.step_currentState _ _ _
  cases hs : s.control.currentState with
  | idle | waitTrigger =>
    have hw : s.control.currentState = .idle ∨ s.control.currentState = .waitTrigger := by
      simp [hs]
    have hfill := h.waiting hw
    have hW : (s.step LEN i).control.isW = false := isW_of_waiting hw
    rcases @nextState_of_waiting LEN _ (s.controlIn i) hw with hn | hn | hn
    · refine .of_waiting (Or.inl (hnext.trans hn)) ?_
      rw [hW, if_neg Bool.false_ne_true]
      omega
    · refine .of_waiting (Or.inr (hnext.trans hn)) ?_
      rw [hW, if_neg Bool.false_ne_true]
      omega
    · exact .of_saving (hnext.trans hn) (by omega)
  | saving =>
    have hfill := h.saving hs
    rw [nextState_of_saving hs h2 (by omega)] at hnext
    have hone : (s.step LEN i).store.length ≤ (s.unread i).length + 1 := by
      split at hlen <;> omega
    by_cases hthr : LEN.toNat - 2 < (s.unread i).length
    · rw [if_pos hthr] at hnext
      have hW : (s.step LEN i).control.isW = true := by simp [AdcFifoControl.step, hs]
      have hF : (s.step LEN i).control.isFull = false := by simp [AdcFifoControl.step, hs]
      exact .of_saveLen hnext ⟨hW, hF, by omega⟩
    · rw [if_neg hthr] at hnext
      exact .of_saving hnext (by omega)
  | saveLen =>
    have hnext' : s.control.nextState LEN (s.controlIn i) = .sending := by
      simp [AdcFifoControl.nextState, hs]
    exact .of_sending (hnext.trans hnext') (by simp [AdcFifoControl.step, hs])
  | sending =>
    have hW : (s.step LEN i).control.isW = false := by simp [AdcFifoControl.step, hs]
    cases hc : i.clear with
    | true =>
      have hempty : (s.step LEN i).store = [] := by simp [hread hs hc, h.sending hs]
      have hnext' : s.control.nextState LEN (s.controlIn i) = .idle := by
        simp [AdcFifoControl.nextState, hs, controlIn, hc]
      refine .of_waiting (Or.inl (hnext.trans hnext')) ?_
      rw [hempty, hW]
      exact Nat.zero_le 1
    | false =>
      have hnext' : s.control.nextState LEN (s.controlIn i) = .sending := by
        simp [AdcFifoControl.nextState, hs, controlIn, hc]
      exact .of_sending (hnext.trans hnext') hW

/-- **The edge of `SAVE_LEN` records the fill level and writes one more word.** -/
theorem saveLen_step (h : FillInv LEN s) (hs : s.control.currentState = .saveLen) :
    (s.step LEN i).store.length = (s.step LEN i).control.len.toNat + 1 := by
  obtain ⟨hW, hF, hlen⟩ := h.saveLen hs
  have hlt := LEN.isLt
  have hun : s.unread i = s.store := by simp [unread, hF]
  have hrec : (s.step LEN i).control.len = BitVec.ofNat 32 s.store.length := by
    simp [AdcFifoControl.step, hs, controlIn, hun]
  rw [hrec, BitVec.toNat_ofNat, Nat.mod_eq_of_lt (by omega)]
  simp [hun, hW]

/-! ## 4. Which captures the words are of -/

/-- Only the word of the very first edge can be older than the capture it is stored with. -/
structure FreshInv (s : Filled) : Prop where
  waiting : s.control.currentState = .idle ∨ s.control.currentState = .waitTrigger →
    s.captures = 0 ∨ s.store = [] ∧ s.control.isW = false
  capturing : ¬ (s.control.currentState = .idle ∨ s.control.currentState = .waitTrigger) →
    s.captures = 1 ∨ ∀ w ∈ s.store, w.capture = s.captures

theorem mem_unread {w : Word} (h : w ∈ s.unread i) : w ∈ s.store := by
  unfold unread at h
  split at h
  · exact List.mem_of_mem_drop h
  · exact h

theorem mem_step_store {w : Word} (h : w ∈ (s.step LEN i).store) :
    w ∈ s.store ∨ s.control.isW = true ∧ w.capture = s.captures := by
  rw [step_store, List.mem_append] at h
  rcases h with h | h
  · exact Or.inl (mem_unread h)
  · split at h
    · next hW => exact Or.inr ⟨hW, by rw [List.mem_singleton.mp h]⟩
    · cases h

theorem captures_step_of_waiting
    (hs : s.control.currentState = .idle ∨ s.control.currentState = .waitTrigger) :
    (s.step LEN i).captures =
      if (s.step LEN i).control.currentState = .saving then s.captures + 1 else s.captures := by
  rcases hs with hs | hs <;> simp [step, hs]

theorem captures_step_of_capturing
    (hs : ¬ (s.control.currentState = .idle ∨ s.control.currentState = .waitTrigger)) :
    (s.step LEN i).captures = s.captures := by
  cases hst : s.control.currentState with
  | idle | waitTrigger => simp [hst] at hs
  | saving => simp [step, hst]
  | saveLen => simp [step, hst, AdcFifoControl.nextState]
  | sending => cases hc : i.clear <;> simp [step, hst, AdcFifoControl.nextState, controlIn, hc]

theorem freshInv_step (hfill : FillInv LEN s) (h : FreshInv s)
    (hread : s.control.currentState = .sending → i.clear = true → s.unread i = []) :
    FreshInv (s.step LEN i) := by
  have hnext : (s.step LEN i).control.currentState = s.control.nextState LEN (s.controlIn i) :=
    AdcFifoControl.step_currentState _ _ _
  by_cases hw : s.control.currentState = .idle ∨ s.control.currentState = .waitTrigger
  · have hW : (s.step LEN i).control.isW = false := isW_of_waiting hw
    have hcap := @captures_step_of_waiting LEN s i hw
    rcases h.waiting hw with h0 | ⟨he, hoff⟩
    · refine ⟨fun hw' => Or.inl ?_, fun hc' => Or.inl ?_⟩
      · rw [hcap, h0, if_neg]
        rcases hw' with hw' | hw' <;> simp only [hw'] <;> nofun
      · rw [hcap, h0, if_pos]
        rcases @nextState_of_waiting LEN _ (s.controlIn i) hw with hn | hn | hn
        · exact absurd (Or.inl (hnext.trans hn)) hc'
        · exact absurd (Or.inr (hnext.trans hn)) hc'
        · exact hnext.trans hn
    · have hempty : (s.step LEN i).store = [] := by
        refine List.eq_nil_iff_forall_not_mem.mpr ?_
        intro w hm
        rcases mem_step_store hm with hm | ⟨hon, _⟩
        · rw [he] at hm
          cases hm
        · rw [hoff] at hon
          cases hon
      refine ⟨fun _ => Or.inr ⟨hempty, hW⟩, fun _ => Or.inr ?_⟩
      intro w hm
      rw [hempty] at hm
      cases hm
  · have hcap := @captures_step_of_capturing LEN s i hw
    refine ⟨fun hw' => Or.inr ?_, fun _ => ?_⟩
    · -- back to waiting is a `clear` in `SENDING`
      cases hst : s.control.currentState with
      | idle | waitTrigger => simp [hst] at hw
      | saving =>
        simp only [hnext, AdcFifoControl.nextState, hst] at hw'
        split at hw' <;> simp at hw'
      | saveLen => simp [AdcFifoControl.nextState, hst] at hw'
      | sending =>
        cases hc : i.clear with
        | false => simp [AdcFifoControl.nextState, hst, controlIn, hc] at hw'
        | true =>
          refine ⟨by simp [hread hst hc, hfill.sending hst], ?_⟩
          simp [AdcFifoControl.step, hst]
    · rw [hcap]
      refine (h.capturing hw).imp_right ?_
      intro hall w hm
      rcases mem_step_store hm with hm | ⟨_, he⟩
      · exact hall w hm
      · exact he

end Edge

/-! ## 5. Every run -/

section Run

variable {LEN : BitVec 32} {len : BitVec 32} {i : Nat → FilledIn}

theorem fillInv_run (h2 : 2#32 ≤ LEN) (hread : Emptied LEN (powerUp len) i) (n : Nat) :
    FillInv LEN (before LEN (powerUp len) i n) := by
  induction n with
  | zero => exact ⟨fun _ => Nat.le_refl 1, nofun, nofun, nofun⟩
  | succ n ih =>
    rw [before_succ]
    exact fillInv_step h2 ih (hread n)

theorem entersSending_saveLen {s : Filled} {n : Nat} (h : EntersSending LEN s i n) :
    (before LEN s i n).control.currentState = .saveLen := by
  obtain ⟨hne, hs⟩ := h
  rw [before_succ, step_control, AdcFifoControl.step_currentState] at hs
  cases hst : (before LEN s i n).control.currentState with
  | saveLen => rfl
  | sending => exact absurd hst hne
  | idle | waitTrigger =>
    have hw : (before LEN s i n).control.currentState = .idle ∨
        (before LEN s i n).control.currentState = .waitTrigger := by simp [hst]
    rcases @nextState_of_waiting LEN _ ((before LEN s i n).controlIn (i n)) hw with hn | hn | hn <;>
      rw [hn] at hs <;> cases hs
  | saving =>
    simp only [AdcFifoControl.nextState, hst] at hs
    split at hs <;> cases hs

/-- **At every entry into `SENDING` the FIFO holds one word more than `len` says**: no capture is
    exact. -/
theorem recorded_one_short (LEN : BitVec 32) (h2 : 2#32 ≤ LEN) (_h4000 : LEN ≤ 4000#32)
    (len : BitVec 32) (i : Nat → FilledIn) (hread : Emptied LEN (powerUp len) i) (n : Nat)
    (hn : EntersSending LEN (powerUp len) i n) :
    (before LEN (powerUp len) i (n + 1)).store.length =
        (before LEN (powerUp len) i (n + 1)).control.len.toNat + 1 ∧
      ¬ Exact (before LEN (powerUp len) i (n + 1)) := by
  have hone : (before LEN (powerUp len) i (n + 1)).store.length =
      (before LEN (powerUp len) i (n + 1)).control.len.toNat + 1 := by
    rw [before_succ]
    exact saveLen_step (fillInv_run h2 hread n) (entersSending_saveLen hn)
  refine ⟨hone, ?_⟩
  intro h
  have hlen := h.len
  omega

/-- **From the second capture on** every word in the FIFO is of the capture in progress. -/
theorem fresh_after_first (h2 : 2#32 ≤ LEN) (hread : Emptied LEN (powerUp len) i) (n : Nat) :
    FreshInv (before LEN (powerUp len) i n) := by
  induction n with
  | zero => exact ⟨fun _ => Or.inl rfl, fun h => absurd (Or.inl rfl) h⟩
  | succ n ih =>
    rw [before_succ]
    exact freshInv_step (fillInv_run h2 hread n) ih (hread n)

end Run

/-- A capture that is read whole before the next one begins, with LEN = 3. -/
def readOnce (n : Nat) : FilledIn := ⟨BitVec.ofNat 8 n, true, false, n == 8, if n == 7 then 4 else 0⟩

/-- The second capture: four words, all of them of this capture, and `len` is 3. -/
theorem recorded_one_short_second :
    Emptied 3#32 (powerUp 0#32) readOnce ∧ EntersSending 3#32 (powerUp 0#32) readOnce 14 ∧
      (before 3#32 (powerUp 0#32) readOnce 15).store =
        [⟨11#8, 2⟩, ⟨12#8, 2⟩, ⟨13#8, 2⟩, ⟨14#8, 2⟩] ∧
      (before 3#32 (powerUp 0#32) readOnce 15).store.length =
        (before 3#32 (powerUp 0#32) readOnce 15).control.len.toNat + 1 ∧
      ¬ Exact (before 3#32 (powerUp 0#32) readOnce 15) := by
  have hread : Emptied 3#32 (powerUp 0#32) readOnce := by
    intro n _ hc
    obtain rfl : n = 8 := beq_iff_eq.mp hc
    decide
  have henter : EntersSending 3#32 (powerUp 0#32) readOnce 14 := by
    constructor <;> decide
  exact ⟨hread, henter, by decide,
    recorded_one_short 3#32 (by decide) (by decide) 0#32 readOnce hread 14 henter⟩

/-- A capture that begins at once and is never read. -/
def unreadInput (_ : Nat) : FilledIn := ⟨7#8, true, false, false, 0⟩

/-- **The capture is not exact**, with LEN = 2: `len` is 1, and the FIFO holds the word of the very
    first edge and one of the capture. -/
theorem unreadInput_not_exact :
    Emptied 2#32 (powerUp 0#32) unreadInput ∧ EntersSending 2#32 (powerUp 0#32) unreadInput 2 ∧
      (before 2#32 (powerUp 0#32) unreadInput 3).control.len = 1#32 ∧
      (before 2#32 (powerUp 0#32) unreadInput 3).store = [⟨7#8, 0⟩, ⟨7#8, 1⟩] ∧
      ¬ Exact (before 2#32 (powerUp 0#32) unreadInput 3) := by
  refine ⟨(fun _ _ hc => nomatch hc), ⟨by decide, by decide⟩, by decide, by decide, ?_⟩
  intro h
  have hlen := h.len
  revert hlen
  decide

end Filled

end WifiOsc
