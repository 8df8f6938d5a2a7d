/-
  File:      WifiOsc/Fpga/Sender.lean
  Subject:   THE FRAME SENDER OF THE FPGA, `FPGA2AR9331` (FPGA/SPI_TEST_2/FPGA2AR9331.sv).
             Definitions and what one edge can do.

  The three `always` blocks are `nextState` (combinational), `output` (registers) and `step`, which
  puts them together. `clk_out` and `data_out` are three-state outputs: `none` is high impedance.
  `delay_counter` is assigned with `=`, every other register with `<=`; `nextState` reads all of
  them as they stand before the edge. `status` mirrors the state register and drives nothing here.
-/
import WifiOsc.Fpga.Uart

namespace WifiOsc

/-! ## 1. The module -/

inductive Ar9331State where
  | idle | sendStartSave | sendStart | sendStart2 | sendStart3
  | sendIng0 | sendIng1 | sendIng2 | sendIng3 | sendIng4
  | sendEnd | delay1 | delay2 | delay3
  deriving DecidableEq, Repr

/-- `FPGA2AR9331`. Only `current_state` has an initial value. -/
structure FPGA2AR9331 where
  currentState : Ar9331State
  ackSave : Bool
  len : BitVec 32
  delayCounter : BitVec 32
  clkOut : Option Bool
  dataOut : Option Byte
  rClk : Bool
  deriving DecidableEq, Repr

/-- The inputs at an edge of `clk`. -/
structure Ar9331In where
  rstN : Bool
  en : Bool
  dataIn : Byte
  lenIn : BitVec 32
  ack : Bool

namespace FPGA2AR9331

/-- `DELAY_LEN`. -/
def delayLen : BitVec 32 := 2000#32

/-- The first byte of a frame. -/
def header : Byte := 54#8

def isWait (s : FPGA2AR9331) : Bool := s.currentState == .delay3

/-- The second block. -/
def nextState (s : FPGA2AR9331) (i : Ar9331In) : Ar9331State :=
  if !i.rstN then .idle
  else
    match s.currentState with
    | .idle => if i.en then .sendStartSave else .idle
    | .sendStartSave => .sendStart
    | .sendStart => .sendStart2
    | .sendStart2 => .sendStart3
    | .sendStart3 => .sendIng0
    | .sendIng0 => .sendIng1
    | .sendIng1 => if i.ack != s.ackSave then .sendIng2 else .sendIng1
    | .sendIng2 => .sendIng3
    | .sendIng3 => .sendIng4
    | .sendIng4 => if s.len = 0#32 then .sendEnd else .sendIng0
    | .sendEnd => if i.ack != s.ackSave then .delay1 else .sendEnd
    | .delay1 => .delay2
    | .delay2 => if i.ack != s.ackSave then .delay3 else .delay2
    | .delay3 => if delayLen ≤ s.delayCounter then .idle else .delay3

/-- The third block. -/
def output (s : FPGA2AR9331) (i : Ar9331In) : FPGA2AR9331 :=
  if !i.rstN then { s with clkOut := none, ackSave := i.ack, dataOut := none, rClk := false }
  else
    match s.currentState with
    | .idle => { s with ackSave := i.ack, dataOut := none }
    | .sendStartSave =>
        { s with ackSave := i.ack, dataOut := some header, delayCounter := 0, rClk := true }
    | .sendStart => { s with len := i.lenIn, clkOut := some true, rClk := false }
    | .sendStart2 => { s with rClk := true }
    | .sendStart3 => { s with rClk := false }
    | .sendIng0 => { s with rClk := true }
    | .sendIng1 => { s with rClk := false }
    | .sendIng2 =>
        { s with
          ackSave := i.ack
          len := s.len - 1#32
          clkOut := s.clkOut.map not
          dataOut := some i.dataIn }
    | .delay1 => { s with dataOut := none, ackSave := i.ack }
    | .delay3 => { s with delayCounter := s.delayCounter + 1#32, clkOut := some false }
    | .sendIng3 | .sendIng4 | .sendEnd | .delay2 => s

/-- One edge of `clk`. -/
def step (s : FPGA2AR9331) (i : Ar9331In) : FPGA2AR9331 :=
  { s.output i with currentState := s.nextState i }

@[simp] theorem step_currentState (s : FPGA2AR9331) (i : Ar9331In) :
    (s.step i).currentState = s.nextState i := rfl

/-! ## 2. The delay counter -/

/-- A frame is on its way: the header has been loaded and `DELAY_3` is still to come. -/
def Sending (s : FPGA2AR9331) : Prop :=
  s.currentState ≠ .idle ∧ s.currentState ≠ .sendStartSave ∧ s.currentState ≠ .delay3

/-- The counter is cleared with the header and stays so until `DELAY_3`. -/
def CounterClear (s : FPGA2AR9331) : Prop := s.Sending → s.delayCounter = 0#32

section Edge

variable {s : FPGA2AR9331} {i : Ar9331In}

/-- What the state register can do at an edge. -/
theorem nextState_cases (hrst : i.rstN = true) :
    (s.currentState = .idle ∧ s.nextState i = if i.en then .sendStartSave else .idle) ∨
    (s.currentState = .sendStartSave ∧ (s.step i).Sending) ∨
    (s.Sending ∧ ((s.step i).Sending ∨ s.nextState i = .delay3)) ∨
    (s.currentState = .delay3 ∧
      s.nextState i = if delayLen ≤ s.delayCounter then .idle else .delay3) := by
  cases hs : s.currentState with
  | idle => exact Or.inl ⟨rfl, by simp [nextState, hrst, hs]⟩
  | sendStartSave => exact Or.inr (Or.inl ⟨rfl, by simp [Sending, nextState, hrst, hs]⟩)
  | delay3 => exact Or.inr (Or.inr (Or.inr ⟨rfl, by simp [nextState, hrst, hs]⟩))
  | sendIng1 | sendEnd =>
    refine Or.inr (Or.inr (Or.inl ⟨by simp [Sending, hs], Or.inl ?_⟩))
    by_cases ha : i.ack = s.ackSave <;> simp [Sending, nextState, hrst, hs, ha]
  | delay2 =>
    refine Or.inr (Or.inr (Or.inl ⟨by simp [Sending, hs], ?_⟩))
    by_cases ha : i.ack = s.ackSave <;> simp [Sending, nextState, hrst, hs, ha]
  | sendIng4 =>
    refine Or.inr (Or.inr (Or.inl ⟨by simp [Sending, hs], Or.inl ?_⟩))
    by_cases hl : s.len = 0#32 <;> simp [Sending, nextState, hrst, hs, hl]
  | sendStart | sendStart2 | sendStart3 | sendIng0 | sendIng2 | sendIng3 | delay1 =>
    exact Or.inr (Or.inr (Or.inl ⟨by simp [Sending, hs],
      Or.inl (by simp [Sending, nextState, hrst, hs])⟩))

theorem delayCounter_sending (hrst : i.rstN = true) (h : s.Sending) :
    (s.step i).delayCounter = s.delayCounter := by
  obtain ⟨h1, h2, h3⟩ := h
  cases hs : s.currentState <;> simp_all [step, output]

theorem delayCounter_save (hrst : i.rstN = true) (h : s.currentState = .sendStartSave) :
    (s.step i).delayCounter = 0#32 := by
  simp [step, output, hrst, h]

theorem delayCounter_delay3 (hrst : i.rstN = true) (h : s.currentState = .delay3) :
    (s.step i).delayCounter = s.delayCounter + 1#32 := by
  simp [step, output, hrst, h]

theorem counterClear_step (hrst : i.rstN = true) (h : s.CounterClear) :
    (s.step i).CounterClear := by
  intro hs
  rcases nextState_cases (s := s) hrst with ⟨_, hn⟩ | ⟨hsave, _⟩ | ⟨hsend, _⟩ | ⟨_, hn⟩
  · obtain ⟨h1, h2, _⟩ := hs
    rw [step_currentState, hn] at h1 h2
    split at h1 <;> simp_all
  · exact delayCounter_save hrst hsave
  · rw [delayCounter_sending hrst hsend, h hsend]
  · obtain ⟨h1, _, h3⟩ := hs
    rw [step_currentState, hn] at h1 h3
    split at h1 <;> simp_all

end Edge

end FPGA2AR9331

end WifiOsc
