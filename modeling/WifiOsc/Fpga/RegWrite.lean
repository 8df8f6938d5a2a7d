/-
  File:      WifiOsc/Fpga/RegWrite.lean
  Subject:   HOST-TO-FPGA REGISTER WRITES: `UART2REG` and the register block of main.sv as one
             machine over the received bytes.

  `UART2REG` keeps the last four bytes that are no flag byte; a byte whose low half is `1111`
  raises `ready`, and the rising edge of `ready` clocks the register block. The host sends a
  write as four bytes with bit 0 cleared and a flag byte that carries the four missing bits.

  * `RegWrite.encode`: the five bytes of a write; `RegBlock.apply`: what a write is for;
  * `feed_shift`, `feed_flag`: what one byte does, by its kind;
  * `feed_encode`: the five bytes of one write, from ANY state of the path;
  * `hostPort_writes`: a list of writes after any prior stream.
-/
import WifiOsc.Basis.Machine
import WifiOsc.Fpga.Uart
import Mathlib.Tactic.IntervalCases

namespace WifiOsc

open Basis

/-! ## 1. A write and its bytes -/

/-- A register write: address, sub-address and sixteen bits of data. -/
structure RegWrite where
  address : Byte
  subAddress : Byte
  data : BitVec 16
  deriving DecidableEq

namespace RegWrite

/-- The fifth byte: the four low bits that the others leave out, then `1111`. -/
def flagByte (w : RegWrite) : Byte :=
  (w.address.extractLsb 0 0 ++ w.subAddress.extractLsb 0 0 ++ w.data.extractLsb 8 8 ++
    w.data.extractLsb 0 0 ++ 0xf#4).setWidth 8

/-- The first four bytes: address, sub-address and data with bit 0 of each byte cleared. -/
def body (w : RegWrite) : List Byte :=
  [w.address &&& 0xFE#8, w.subAddress &&& 0xFE#8, w.data.extractLsb 15 8 &&& 0xFE#8,
    w.data.extractLsb 7 0 &&& 0xFE#8]

/-- The five bytes of a write. -/
def encode (w : RegWrite) : List Byte := w.body ++ [w.flagByte]

end RegWrite

/-- **What a write is for**: the register it names takes the data, no other register moves. -/
def RegBlock.apply (r : RegBlock) (w : RegWrite) : RegBlock :=
  if w.address = 0xff#8 then
    { r with
      dacData := Function.update r.dacData ⟨w.subAddress.toNat % 8, Nat.mod_lt _ (Nat.succ_pos 7)⟩
        (BitVec.ofNat 12 (w.data.toNat % 4096)) }
  else if w.address = 0xfe#8 then
    { r with adcFreq := Function.update r.adcFreq (Fin.ofNat 2 w.subAddress.toNat) w.data }
  else if w.address = 0x00#8 then { r with adcEnU := w.data.getLsbD 0 }
  else r

/-- The register block of main.sv does what a write is for. -/
theorem write_eq_apply (r : RegBlock) (w : RegWrite) :
    r.write w.address w.subAddress w.data = r.apply w := by
  have hsub : (w.subAddress.extractLsb 2 0).toFin =
      (⟨w.subAddress.toNat % 8, Nat.mod_lt _ (Nat.succ_pos 7)⟩ : Fin 8) := by
    apply Fin.ext
    simp
  have hbit : (w.subAddress.extractLsb 0 0).toFin = Fin.ofNat 2 w.subAddress.toNat := by
    apply Fin.ext
    simp
  have hdata : w.data.extractLsb 11 0 = BitVec.ofNat 12 (w.data.toNat % 4096) := by
    apply BitVec.eq_of_toNat_eq
    simp
  have hword : w.data.extractLsb 15 0 = w.data := by
    apply BitVec.eq_of_toNat_eq
    simp [w.data.isLt]
  unfold RegBlock.write RegBlock.apply
  rw [hsub, hbit, hdata, hword]
  by_cases h1 : w.address = 0xff#8
  · simp [h1]
  · by_cases h2 : w.address = 0xfe#8
    · simp [h2]
    · by_cases h3 : w.address = 0x00#8
      · simp [h3]
      · simp [h1, h2, h3]

/-! ## 2. The receive path -/

/-- `UART2REG` and the register block it clocks. -/
structure HostPort where
  u2r : UART2REG
  regs : RegBlock
  deriving DecidableEq

/-- One rising edge of `rdy_in`: does `ready` rise on it? -/
def HostPort.rises (h : HostPort) (din : Byte) : Bool :=
  !h.u2r.ready && (h.u2r.step din).ready

/-- What the taps of `UART2REG` show after the edge, `din` being held. -/
def HostPort.taps (h : HostPort) (din : Byte) : RegWrite :=
  let u := h.u2r.step din
  ⟨u.address din, u.subAddress din, u.data din⟩

/-- The path over received bytes. It emits one entry for each byte: the write that the register
    block is clocked with, or `none` where `ready` does not rise. -/
def hostPort : Machine HostPort Byte (Option RegWrite) where
  step h din :=
    { u2r := h.u2r.step din
      regs :=
        if h.rises din then
          h.regs.write (h.taps din).address (h.taps din).subAddress (h.taps din).data
        else h.regs }
  out h din := [if h.rises din then some (h.taps din) else none]

/-- Power-up: `ready` and `adc_en_u` have an initial value, the others come up as they may. -/
def HostPort.powerUp (regSave : BitVec 32) (dacData : Fin 8 → BitVec 12)
    (adcFreq : Fin 2 → BitVec 16) : HostPort :=
  ⟨⟨false, regSave⟩, ⟨dacData, adcFreq, false⟩⟩

/-! ## 3. One byte -/

/-- A byte whose low half is not `1111` is shifted in; no register is touched. -/
theorem feed_shift (h : HostPort) {b : Byte} (hb : b.extractLsb 3 0 ≠ 0xf#4) :
    hostPort.step h b =
        ⟨⟨false, (h.u2r.regSave.extractLsb 23 0 ++ b).setWidth 32⟩, h.regs⟩ ∧
      hostPort.out h b = [none] := by
  have hs : h.u2r.step b = ⟨false, (h.u2r.regSave.extractLsb 23 0 ++ b).setWidth 32⟩ := by
    simp only [UART2REG.step, if_neg hb]
  simp [hostPort, HostPort.rises, hs]

/-- A flag byte that follows another byte clocks the register block with the taps. -/
theorem feed_flag (h : HostPort) {b : Byte} (hb : b.extractLsb 3 0 = 0xf#4)
    (hr : h.u2r.ready = false) :
    hostPort.step h b =
        ⟨⟨true, h.u2r.regSave⟩, h.regs.write (h.taps b).address (h.taps b).subAddress (h.taps b).data⟩ ∧
      hostPort.out h b = [some (h.taps b)] := by
  have hs : h.u2r.step b = ⟨true, h.u2r.regSave⟩ := by
    simp only [UART2REG.step, if_pos hb]
  simp [hostPort, HostPort.rises, hs, hr]

theorem low_cleared (x : Byte) : (x &&& 0xFE#8).extractLsb 3 0 ≠ 0xf#4 := by
  intro h
  have h0 := congrArg (fun v => v.getLsbD 0) h
  simp at h0

theorem low_flagByte (w : RegWrite) : w.flagByte.extractLsb 3 0 = 0xf#4 := by
  unfold RegWrite.flagByte
  apply BitVec.eq_of_getLsbD_eq
  intro i hi
  simp only [BitVec.getLsbD_extractLsb, BitVec.getLsbD_setWidth, BitVec.getLsbD_append]
  interval_cases i <;> simp

/-! ## 4. One write -/

/-- Four bytes shifted into the history. -/
def history (r : BitVec 32) (b0 b1 b2 b3 : Byte) : BitVec 32 :=
  let sh (r : BitVec 32) (b : Byte) : BitVec 32 := (r.extractLsb 23 0 ++ b).setWidth 32
  sh (sh (sh (sh r b0) b1) b2) b3

section Taps

variable (w : RegWrite) (r : BitVec 32) (ready : Bool) (b0 b1 b2 b3 : Byte)

theorem address_history :
    UART2REG.address ⟨ready, history r (w.address &&& 0xFE#8) b1 b2 b3⟩ w.flagByte = w.address := by
  unfold UART2REG.address history RegWrite.flagByte
  apply BitVec.eq_of_getLsbD_eq
  intro i hi
  simp only [BitVec.getLsbD_extractLsb, BitVec.getLsbD_setWidth, BitVec.getLsbD_append]
  interval_cases i <;> simp

theorem subAddress_history :
    UART2REG.subAddress ⟨ready, history r b0 (w.subAddress &&& 0xFE#8) b2 b3⟩ w.flagByte =
      w.subAddress := by
  unfold UART2REG.subAddress history RegWrite.flagByte
  apply BitVec.eq_of_getLsbD_eq
  intro i hi
  simp only [BitVec.getLsbD_extractLsb, BitVec.getLsbD_setWidth, BitVec.getLsbD_append]
  interval_cases i <;> simp

theorem data_history :
    UART2REG.data ⟨ready, history r b0 b1 (w.data.extractLsb 15 8 &&& 0xFE#8)
      (w.data.extractLsb 7 0 &&& 0xFE#8)⟩ w.flagByte = w.data := by
  unfold UART2REG.data history RegWrite.flagByte
  apply BitVec.eq_of_getLsbD_eq
  intro i hi
  simp only [BitVec.getLsbD_extractLsb, BitVec.getLsbD_setWidth, BitVec.getLsbD_append]
  interval_cases i <;> simp

end Taps

/-- Four bytes that are no flag byte fill the history. -/
theorem feed_four (h : HostPort) {b0 b1 b2 b3 : Byte} (h0 : b0.extractLsb 3 0 ≠ 0xf#4)
    (h1 : b1.extractLsb 3 0 ≠ 0xf#4) (h2 : b2.extractLsb 3 0 ≠ 0xf#4)
    (h3 : b3.extractLsb 3 0 ≠ 0xf#4) :
    hostPort.run h [b0, b1, b2, b3] = ⟨⟨false, history h.u2r.regSave b0 b1 b2 b3⟩, h.regs⟩ ∧
      hostPort.log h [b0, b1, b2, b3] = [none, none, none, none] := by
  constructor
  · simp only [Machine.run_cons, Machine.run_nil, (feed_shift _ h0).1, (feed_shift _ h1).1,
      (feed_shift _ h2).1, (feed_shift _ h3).1]
    rfl
  · simp only [Machine.log_cons, Machine.log_nil, (feed_shift _ h0).2, (feed_shift _ h1).2,
      (feed_shift _ h2).2, (feed_shift _ h3).2]
    rfl

/-- **The five bytes of one write, from any state**: `ready` rises on the fifth byte only, with
    the write on the taps, and the registers move as the write says. -/
theorem feed_encode (h : HostPort) (w : RegWrite) :
    (hostPort.run h w.encode).regs = h.regs.apply w ∧
      hostPort.log h w.encode = [none, none, none, none, some w] := by
  obtain ⟨hrun, hlog⟩ : hostPort.run h w.body = ⟨⟨false, _⟩, h.regs⟩ ∧ hostPort.log h w.body = _ :=
    feed_four h (low_cleared w.address) (low_cleared w.subAddress)
      (low_cleared (w.data.extractLsb 15 8)) (low_cleared (w.data.extractLsb 7 0))
  obtain ⟨hstep, hout⟩ := feed_flag _ (low_flagByte w) (congrArg (·.u2r.ready) hrun)
  have htaps : (hostPort.run h w.body).taps w.flagByte = w := by
    rw [hrun]
    simp only [HostPort.taps, UART2REG.step, if_pos (low_flagByte w), address_history,
      subAddress_history, data_history]
  rw [htaps] at hstep hout
  rw [RegWrite.encode, Machine.run_append, Machine.log_append, Machine.run_cons, Machine.run_nil,
    Machine.log_cons, Machine.log_nil, hlog, hout, hstep]
  exact ⟨by rw [hrun]; exact write_eq_apply h.regs w, rfl⟩

/-! ## 5. A list of writes -/

/-- **The writes of a list, from any state of the path.** -/
theorem feed_writes (h : HostPort) (ws : List RegWrite) :
    (hostPort.run h (ws.flatMap RegWrite.encode)).regs = ws.foldl RegBlock.apply h.regs ∧
      hostPort.log h (ws.flatMap RegWrite.encode) =
        ws.flatMap fun w => [none, none, none, none, some w] := by
  induction ws generalizing h with
  | nil => exact ⟨rfl, rfl⟩
  | cons w ws ih =>
    obtain ⟨hregs, hlog⟩ := feed_encode h w
    obtain ⟨ihregs, ihlog⟩ := ih (hostPort.run h w.encode)
    rw [List.flatMap_cons, Machine.run_append, Machine.log_append, hlog, ihlog, ihregs, hregs]
    exact ⟨rfl, rfl⟩

/-- **Register writes after any prior stream**: from power-up, whatever bytes came before, the
    bytes of the writes `ws` raise `ready` once for each write, on its fifth byte, with the write
    on the taps; and the registers end as the writes, in order, leave them. -/
theorem hostPort_writes (regSave : BitVec 32) (dacData : Fin 8 → BitVec 12)
    (adcFreq : Fin 2 → BitVec 16) (prior : List Byte) (ws : List RegWrite) :
    let h0 := HostPort.powerUp regSave dacData adcFreq
    let h := hostPort.run h0 prior
    hostPort.log h0 (prior ++ ws.flatMap RegWrite.encode) =
        hostPort.log h0 prior ++ ws.flatMap (fun w => [none, none, none, none, some w]) ∧
      (hostPort.run h0 (prior ++ ws.flatMap RegWrite.encode)).regs =
        ws.foldl RegBlock.apply h.regs := by
  intro h0 h
  obtain ⟨hregs, hlog⟩ := feed_writes h ws
  rw [Machine.log_append, Machine.run_append]
  exact ⟨by rw [hlog], hregs⟩

end WifiOsc
