/-
  File:      WifiOsc/Fpga/Uart.lean
  Subject:   THE SERIAL PORT OF THE FPGA (FPGA/SPI_TEST_2/UART.sv) and the register block of
             main.sv that it writes. Definitions and their small lemmas.

  Every `reg` of the source is a field, every `always @(posedge ..)` block is a `step` that reads
  the old fields and returns the new ones (the source assigns with `<=` throughout), every
  `assign` is a function of the fields. Registers keep their width; a concatenation `{a, b}` is
  `a ++ b`, and `.setWidth` is the assignment to a target of that width. A state register is an
  inductive type with one constructor for each named state: the other codes of its width are
  reached from no named state.
-/
import Mathlib.Data.BitVec
import Mathlib.Data.Fintype.Pi
import Mathlib.Logic.Function.Basic

namespace WifiOsc

abbrev Byte := BitVec 8

/-- `x[i] <= b` on a register of `w` bits. -/
def setBit {w : Nat} (x : BitVec w) (i : Nat) (b : Bool) : BitVec w :=
  if b then x ||| BitVec.twoPow w i else x &&& ~~~BitVec.twoPow w i

theorem getLsbD_setBit {w : Nat} (x : BitVec w) (i j : Nat) (b : Bool) (hj : j < w) :
    (setBit x i b).getLsbD j = if j = i then b else x.getLsbD j := by
  unfold setBit
  by_cases h : j = i
  · subst h
    cases b <;> simp [hj]
  · have h' : i ≠ j := fun e => h e.symm
    cases b
    · simp [h, hj]
    · simp [h, h']

/-! ## 1. The baud generator -/

def clkInput : Nat := 25000000
def uartBaud : Nat := 115200
def rxAccMax : Nat := clkInput / (uartBaud * 16)
def txAccMax : Nat := clkInput / uartBaud

/-- `UART_BAUD_GEN`: the two accumulators (`$clog2` of the bounds is 4 and 8). -/
structure UartBaudGen where
  rxAcc : BitVec 4
  txAcc : BitVec 8
  deriving DecidableEq, Repr

namespace UartBaudGen

def rxEn (g : UartBaudGen) : Bool := g.rxAcc == 0#4
def txEn (g : UartBaudGen) : Bool := g.txAcc == 0#8

def step (g : UartBaudGen) : UartBaudGen where
  rxAcc := if g.rxAcc = BitVec.ofNat 4 rxAccMax then 0 else g.rxAcc + 1#4
  txAcc := if g.txAcc = BitVec.ofNat 8 txAccMax then 0 else g.txAcc + 1#8

end UartBaudGen

/-- Clocks until an accumulator that returns to 0 behind `max` is 0. Above `max` it runs on to the
    end of its width. -/
def accWait {w : Nat} (max : Nat) (a : BitVec w) : Nat :=
  if a.toNat = 0 then 0 else if a.toNat ≤ max then max + 1 - a.toNat else 2 ^ w - a.toNat

section Accumulator

variable {w max : Nat} (a : BitVec w)

theorem accWait_lt (h : 2 ^ w ≤ 2 * max + 1) : accWait max a < max + 1 := by
  have hlt := a.isLt
  unfold accWait
  generalize 2 ^ w = n at h hlt ⊢
  split <;> [skip; split] <;> omega

/-- **One clock of an accumulator.** -/
theorem accWait_step (hmax : max < 2 ^ w) :
    (accWait max a = 0 → a = 0#w ∧
      accWait max (if a = BitVec.ofNat w max then 0#w else a + 1#w) = max) ∧
    ∀ k, accWait max a = k + 1 → a ≠ 0#w ∧
      accWait max (if a = BitVec.ofNat w max then 0#w else a + 1#w) = k := by
  have hlt := a.isLt
  have hzero : a = 0#w ↔ a.toNat = 0 := by
    rw [← BitVec.toNat_inj]
    rfl
  have hnext : (if a = BitVec.ofNat w max then 0#w else a + 1#w).toNat =
      if a.toNat = max ∨ a.toNat + 1 = 2 ^ w then 0 else a.toNat + 1 := by
    have hend : a = BitVec.ofNat w max ↔ a.toNat = max := by
      rw [← BitVec.toNat_inj, BitVec.toNat_ofNat, Nat.mod_eq_of_lt hmax]
    by_cases hm : a.toNat = max
    · rw [if_pos (hend.mpr hm), if_pos (Or.inl hm)]
      rfl
    · rw [if_neg fun h => hm (hend.mp h), BitVec.toNat_add, BitVec.toNat_ofNat, Nat.add_mod_mod]
      by_cases hw : a.toNat + 1 = 2 ^ w
      · rw [if_pos (Or.inr hw), hw, Nat.mod_self]
      · rw [if_neg fun h => h.elim hm hw, Nat.mod_eq_of_lt (by omega)]
  rw [ne_eq, hzero]
  unfold accWait
  rw [hnext]
  generalize a.toNat = n at hlt ⊢
  generalize 2 ^ w = m at hmax hlt ⊢
  refine ⟨fun h => ?_, fun k h => ?_⟩
  · obtain rfl : n = 0 := by
      split at h <;> [assumption; (split at h <;> omega)]
    refine ⟨rfl, ?_⟩
    by_cases hend : 0 = max ∨ 0 + 1 = m
    · rw [if_pos hend, if_pos rfl]
      omega
    · rw [if_neg hend, if_neg (Nat.succ_ne_zero 0), if_pos (by omega)]
      omega
  · have h0 : n ≠ 0 := by
      rintro rfl
      cases h
    rw [if_neg h0] at h
    refine ⟨h0, ?_⟩
    by_cases hend : n = max ∨ n + 1 = m
    · -- at the bound, or at the end of its width
      rw [if_pos hend, if_pos rfl]
      split at h <;> omega
    · rw [if_neg hend, if_neg (Nat.succ_ne_zero n)]
      split at h <;> split <;> omega

end Accumulator

/-! ## 2. The transmitter -/

inductive TxState where
  | idle | start | data | stop
  deriving DecidableEq, Repr

/-- `UART_TXD`. -/
structure UartTxd where
  txd : Bool
  data : Byte
  bitpos : BitVec 3
  state : TxState
  deriving DecidableEq, Repr

namespace UartTxd

/-- The values of the `initial` block and of the declarations. -/
def powerUp : UartTxd := ⟨true, 0, 0, .idle⟩

def txdBusy (t : UartTxd) : Bool := t.state != .idle

def step (t : UartTxd) (din : Byte) (wrEn clken : Bool) : UartTxd :=
  match t.state with
  | .idle => if wrEn then { t with state := .start, data := din, bitpos := 0 } else t
  | .start => if clken then { t with txd := false, state := .data } else t
  | .data =>
      if clken then
        { t with
          state := if t.bitpos = 7#3 then .stop else .data
          bitpos := if t.bitpos = 7#3 then t.bitpos else t.bitpos + 1#3
          txd := t.data.getLsbD t.bitpos.toNat }
      else t
  | .stop => if clken then { t with txd := true, state := .idle } else t

end UartTxd

/-! ## 3. The receiver -/

inductive RxState where
  | start | data | stop
  deriving DecidableEq, Repr

/-- `UART_RXD`. -/
structure UartRxd where
  rdy : Bool
  data : Byte
  state : RxState
  sample : BitVec 4
  bitpos : BitVec 4
  scratch : Byte
  deriving DecidableEq, Repr

namespace UartRxd

def powerUp : UartRxd := ⟨false, 0, .start, 0, 0, 0⟩

/-- One edge of `clk` with `clk_en` high. -/
def tick (u : UartRxd) (rxd rdyClr : Bool) : UartRxd :=
  match u.state with
  | .start =>
      -- the last assignment to `sample` and the ones to the other registers win over the count
      { u with
        rdy := if rdyClr then false else u.rdy
        sample :=
          if u.sample = 15#4 then 0 else if !rxd || u.sample != 0#4 then u.sample + 1#4 else u.sample
        state := if u.sample = 15#4 then .data else .start
        bitpos := if u.sample = 15#4 then 0 else u.bitpos
        scratch := if u.sample = 15#4 then 0 else u.scratch }
  | .data =>
      { u with
        sample := u.sample + 1#4
        scratch :=
          if u.sample = 8#4 then setBit u.scratch (u.bitpos.extractLsb 2 0).toNat rxd else u.scratch
        bitpos := if u.sample = 8#4 then u.bitpos + 1#4 else u.bitpos
        state := if u.bitpos = 8#4 ∧ u.sample = 15#4 then .stop else .data }
  | .stop =>
      if u.sample = 15#4 ∨ (8#4 ≤ u.sample ∧ rxd = false) then
        { u with state := .start, data := u.scratch, rdy := true, sample := 0 }
      else { u with sample := u.sample + 1#4 }

def step (u : UartRxd) (rxd rdyClr clkEn : Bool) : UartRxd :=
  if clkEn then u.tick rxd rdyClr else u

end UartRxd

/-! ## 4. Bytes to register writes -/

/-- `UART2REG`. `reg_save` has no initial value in the source. -/
structure UART2REG where
  ready : Bool
  regSave : BitVec 32
  deriving DecidableEq, Repr

namespace UART2REG

def address (u : UART2REG) (din : Byte) : Byte :=
  (u.regSave.extractLsb 31 25 ++ din.extractLsb 7 7).setWidth 8

def subAddress (u : UART2REG) (din : Byte) : Byte :=
  (u.regSave.extractLsb 23 17 ++ din.extractLsb 6 6).setWidth 8

def data (u : UART2REG) (din : Byte) : BitVec 16 :=
  (u.regSave.extractLsb 15 9 ++ din.extractLsb 5 5 ++ u.regSave.extractLsb 7 1 ++
    din.extractLsb 4 4).setWidth 16

/-- One rising edge of `rdy_in`. -/
def step (u : UART2REG) (din : Byte) : UART2REG :=
  if din.extractLsb 3 0 = 0xf#4 then { u with ready := true }
  else { ready := false, regSave := (u.regSave.extractLsb 23 0 ++ din).setWidth 32 }

end UART2REG

/-- The registers main.sv lets the host write. `dac_data` and `adc_freq` have no initial value. -/
structure RegBlock where
  dacData : Fin 8 → BitVec 12
  adcFreq : Fin 2 → BitVec 16
  adcEnU : Bool
  deriving DecidableEq

/-- The block `always@(posedge uart2reg_ready)` of main.sv. -/
def RegBlock.write (r : RegBlock) (address subAddress : Byte) (data : BitVec 16) : RegBlock where
  dacData :=
    if address = 0xff#8 then
      Function.update r.dacData (subAddress.extractLsb 2 0).toFin (data.extractLsb 11 0)
    else r.dacData
  adcFreq :=
    if address = 0xfe#8 then
      Function.update r.adcFreq (subAddress.extractLsb 0 0).toFin (data.extractLsb 15 0)
    else r.adcFreq
  adcEnU := if address = 0x00#8 then data.getLsbD 0 else r.adcEnU

/-! ## 5. Registers to bytes -/

inductive SendState where
  | idle | saveingData | sendingStart | sendingAdd | sendingEnd
  deriving DecidableEq, Repr

/-- `REG2UART`. `data` and `dout` have no initial value. -/
structure REG2UART where
  currentState : SendState
  counter : BitVec 4
  data : Fin 8 → Byte
  dout : Byte
  oEn : Bool
  isBusy : Bool
  deriving DecidableEq

namespace REG2UART

/-- The eight bytes the state `SAVEING_DATA` stores. -/
def saveData (address : Byte) (regs : BitVec 48) : Fin 8 → Byte
  | 0 => (address.extractLsb 7 1 ++ 0#1).setWidth 8
  | 1 => (regs.extractLsb 47 41 ++ 0#1).setWidth 8
  | 2 => (regs.extractLsb 39 33 ++ 0#1).setWidth 8
  | 3 => (regs.extractLsb 31 25 ++ 0#1).setWidth 8
  | 4 => (regs.extractLsb 23 17 ++ 0#1).setWidth 8
  | 5 => (regs.extractLsb 15 9 ++ 0#1).setWidth 8
  | 6 => (regs.extractLsb 7 1 ++ 0#1).setWidth 8
  | 7 => (address.extractLsb 0 0 ++ regs.extractLsb 40 40 ++ regs.extractLsb 32 32 ++
      regs.extractLsb 24 24 ++ regs.extractLsb 16 16 ++ regs.extractLsb 8 8 ++
      regs.extractLsb 0 0 ++ 1#1).setWidth 8

/-- The combinational block: `en` is the request, `busy` the transmitter's. -/
def nextState (r : REG2UART) (en busy : Bool) : SendState :=
  match r.currentState with
  | .idle => if en then .saveingData else .idle
  | .saveingData => .sendingStart
  | .sendingStart => if busy then .sendingAdd else .sendingStart
  | .sendingAdd => .sendingEnd
  | .sendingEnd => if busy then .sendingEnd else if 8#4 ≤ r.counter then .idle else .sendingStart

/-- One edge of `clk`. An index of `data` beyond 7 (never read: `counter` is below 8 in
    `SENDING_START`) is taken modulo 8. -/
def step (r : REG2UART) (en : Bool) (address : Byte) (regs : BitVec 48) (busy : Bool) :
    REG2UART :=
  let r' := { r with currentState := r.nextState en busy }
  match r.currentState with
  | .idle => { r' with oEn := false, counter := 0, isBusy := false }
  | .saveingData => { r' with data := saveData address regs, counter := 0, isBusy := true }
  | .sendingStart => { r' with oEn := true, dout := r.data (Fin.ofNat 8 r.counter.toNat) }
  | .sendingAdd => { r' with oEn := false, counter := r.counter + 1#4 }
  | .sendingEnd => r'

end REG2UART

end WifiOsc
