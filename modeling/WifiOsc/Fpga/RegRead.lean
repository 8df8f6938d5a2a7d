/-
  File:      WifiOsc/Fpga/RegRead.lean
  Subject:   FPGA-TO-HOST REGISTER PACKETS: `REG2UART` driving `UART_TXD`, as module `UART`
             connects them (`dout` to `din`, `o_en` to `wr_en`, `txd_busy` to `busy`).

  Two state machines shake hands: `REG2UART` raises a registered enable and waits for a
  combinational busy that answers two edges later. The transmitter needs ten ticks for a byte,
  so it is still busy when the enable has fallen again, however close the ticks come.

  * `rest`: what the transmitter has still to put on the wire; `ticks_conserved`: ticks sent so
    far and still to send are the frames of the accepted bytes, for every input;
  * `Pass`: how far a pass has come; `pass_step`: what one edge does to it;
  * `regPort_pass`: a whole pass.
-/
import WifiOsc.Basis.Machine
import WifiOsc.Fpga.Packet

namespace WifiOsc

open Basis

/-! ## 1. The two modules on one clock -/

/-- What the outside decides at an edge. -/
structure RegPortIn where
  en : Bool
  address : Byte
  regs : BitVec 48
  clken : Bool

structure RegPort where
  r : REG2UART
  t : UartTxd

/-- What is seen at an edge: a byte taken by the idle transmitter, a tick of the busy one with
    the value `txd` takes. -/
inductive RegPortEvent where
  | accepted (b : Byte)
  | tick (txd : Bool)

namespace RegPortEvent

def byte? : RegPortEvent → Option Byte
  | accepted b => some b
  | tick _ => none

def tick? : RegPortEvent → Option Bool
  | accepted _ => none
  | tick v => some v

end RegPortEvent

/-- The bytes accepted in a log, and the values at its ticks. -/
def acceptedBytes (l : List RegPortEvent) : List Byte := l.filterMap RegPortEvent.byte?
def tickValues (l : List RegPortEvent) : List Bool := l.filterMap RegPortEvent.tick?

def regPort : Machine RegPort RegPortIn RegPortEvent where
  step s i :=
    { r := s.r.step i.en i.address i.regs s.t.txdBusy
      t := s.t.step s.r.dout s.r.oEn i.clken }
  out s i :=
    if s.t.state = .idle then (if s.r.oEn then [.accepted s.r.dout] else [])
    else if i.clken then [.tick (s.t.step s.r.dout s.r.oEn i.clken).txd] else []

/-- Power-up: `data`, `dout` and `isBusy` come up as they may. -/
def RegPort.powerUp (data : Fin 8 → Byte) (dout : Byte) (isBusy : Bool) : RegPort :=
  ⟨⟨.idle, 7, data, dout, false, isBusy⟩, UartTxd.powerUp⟩

/-! ## 2. The transmitter -/

/-- A byte on the wire: a start bit, the data bits from bit 0 up, a stop bit. -/
def uartFrame (b : Byte) : List Bool := false :: (List.ofFn fun i : Fin 8 => b.getLsbD i) ++ [true]

/-- What the transmitter has still to send. -/
def UartTxd.rest (t : UartTxd) : List Bool :=
  match t.state with
  | .idle => []
  | .start => uartFrame t.data
  | .data => (uartFrame t.data).drop (t.bitpos.toNat + 1)
  | .stop => [true]

theorem rest_idle {t : UartTxd} (h : t.state = .idle) : t.rest = [] := by
  simp [UartTxd.rest, h]

theorem uartFrame_drop (b : Byte) (p : BitVec 3) :
    (uartFrame b).drop (p.toNat + 1) =
      b.getLsbD p.toNat :: (if p = 7#3 then [true] else (uartFrame b).drop ((p + 1#3).toNat + 1)) := by
  obtain ⟨p⟩ := p
  fin_cases p <;> rfl

/-- The transmitter waits for its first tick with the bit counter at 0. -/
def UartTxd.Armed (t : UartTxd) : Prop := t.state = .start → t.bitpos = 0#3

theorem armed_step {t : UartTxd} (h : t.Armed) (din : Byte) (wrEn clken : Bool) :
    (t.step din wrEn clken).Armed := by
  obtain ⟨txd, data, bitpos, state⟩ := t
  cases state with
  | idle => cases wrEn <;> simp [UartTxd.Armed, UartTxd.step]
  | start => cases clken <;> simp_all [UartTxd.Armed, UartTxd.step]
  | data =>
    cases clken
    · simp [UartTxd.Armed, UartTxd.step]
    · by_cases hp : bitpos = 7#3 <;> simp [UartTxd.Armed, UartTxd.step, hp]
  | stop => cases clken <;> simp [UartTxd.Armed, UartTxd.step]

/-- **Ticks are conserved at every edge**: what was sent and what is still to send are what was
    pending and the frames of what was accepted. -/
theorem ticks_conserved_step (s : RegPort) (i : RegPortIn) (h : s.t.Armed) :
    tickValues (regPort.out s i) ++ (regPort.step s i).t.rest =
      s.t.rest ++ (acceptedBytes (regPort.out s i)).flatMap uartFrame := by
  obtain ⟨r, txd, data, bitpos, state⟩ := s
  cases state with
  | idle =>
    cases ho : r.oEn <;>
      simp [regPort, UartTxd.step, UartTxd.rest, tickValues, acceptedBytes, ho,
        RegPortEvent.tick?, RegPortEvent.byte?]
  | start =>
    have hb : bitpos = 0#3 := h rfl
    subst hb
    cases hc : i.clken <;>
      simp [regPort, UartTxd.step, UartTxd.rest, tickValues, acceptedBytes, hc,
        RegPortEvent.tick?, RegPortEvent.byte?, uartFrame]
  | data =>
    cases hc : i.clken
    · simp [regPort, UartTxd.step, UartTxd.rest, tickValues, acceptedBytes, hc]
    · have hd := uartFrame_drop data bitpos
      by_cases hp : bitpos = 7#3 <;>
        simp_all [regPort, UartTxd.step, UartTxd.rest, tickValues, acceptedBytes,
          RegPortEvent.tick?, RegPortEvent.byte?]
  | stop =>
    cases hc : i.clken <;>
      simp [regPort, UartTxd.step, UartTxd.rest, tickValues, acceptedBytes, hc,
        RegPortEvent.tick?, RegPortEvent.byte?]

theorem tickValues_append (l l' : List RegPortEvent) :
    tickValues (l ++ l') = tickValues l ++ tickValues l' := List.filterMap_append

theorem acceptedBytes_append (l l' : List RegPortEvent) :
    acceptedBytes (l ++ l') = acceptedBytes l ++ acceptedBytes l' := List.filterMap_append

/-- **Ticks are conserved over every run.** -/
theorem ticks_conserved {s : RegPort} (h : s.t.Armed) (is : List RegPortIn) :
    tickValues (regPort.log s is) ++ (regPort.run s is).t.rest =
      s.t.rest ++ (acceptedBytes (regPort.log s is)).flatMap uartFrame := by
  have hinv := regPort.inv_log
    (I := fun s' l => s'.t.Armed ∧
      tickValues l ++ s'.t.rest = s.t.rest ++ (acceptedBytes l).flatMap uartFrame)
    (fun s' l i hI => ⟨armed_step hI.1 _ _ _, by
      rw [tickValues_append, acceptedBytes_append, List.flatMap_append, List.append_assoc,
        ticks_conserved_step s' i hI.1, ← List.append_assoc, hI.2, List.append_assoc]⟩)
    (s := s) (l := []) ⟨h, by simp [tickValues, acceptedBytes]⟩ is
  exact hinv.2

/-! ## 3. One pass -/

/-- Nothing is being sent and nothing is requested. -/
def RegPort.Quiet (s : RegPort) : Prop :=
  s.t.state = .idle ∧ s.t.Armed ∧ s.r.oEn = false

/-- How far a pass over the bytes `bs` has come, and what has been accepted in it. -/
inductive Pass (b : Fin 8 → Byte) : RegPort → List Byte → Prop where
  /-- `SENDING_START` before the transmitter has answered: the enable is about to rise, or it is up
      with the byte on `dout`. -/
  | offer (s : RegPort) (hr : s.r.currentState = .sendingStart) (hd : s.r.data = b)
      (hc : s.r.counter.toNat < 8) (ht : s.t.state = .idle) (ha : s.t.Armed)
      (ho : s.r.oEn = true → s.r.dout = b (Fin.ofNat 8 s.r.counter.toNat)) :
      Pass b s ((List.ofFn b).take s.r.counter.toNat)
  /-- `SENDING_START` in the one edge after the byte was taken. -/
  | taken (s : RegPort) (hr : s.r.currentState = .sendingStart) (hd : s.r.data = b)
      (hc : s.r.counter.toNat < 8) (ht : s.t.state = .start) (ha : s.t.Armed) :
      Pass b s ((List.ofFn b).take (s.r.counter.toNat + 1))
  /-- `SENDING_ADD`: at most one tick has come since, so the enable still meets a busy
      transmitter. -/
  | add (s : RegPort) (hr : s.r.currentState = .sendingAdd) (hd : s.r.data = b)
      (hc : s.r.counter.toNat < 8) (ht : s.t.state = .start ∨ s.t.state = .data)
      (ha : s.t.Armed) : Pass b s ((List.ofFn b).take (s.r.counter.toNat + 1))
  /-- `SENDING_END`: the enable is down; the transmitter works on its own. -/
  | wait (s : RegPort) (hr : s.r.currentState = .sendingEnd) (hd : s.r.data = b)
      (hc : s.r.counter.toNat ≤ 8) (ho : s.r.oEn = false) (ha : s.t.Armed) :
      Pass b s ((List.ofFn b).take s.r.counter.toNat)
  /-- Back in `IDLE`. -/
  | done (s : RegPort) (hr : s.r.currentState = .idle) (hq : s.Quiet) : Pass b s (List.ofFn b)

/-- A pass that is back in `IDLE` has sent everything. -/
theorem pass_idle {bs : Fin 8 → Byte} {s : RegPort} {acc : List Byte} (h : Pass bs s acc)
    (hr : s.r.currentState = .idle) : s.Quiet ∧ acc = List.ofFn bs := by
  cases h with
  | done _ hq => exact ⟨hq, rfl⟩
  | _ => simp_all

theorem take_ofFn_succ (bs : Fin 8 → Byte) {c : Nat} (hc : c < 8) :
    (List.ofFn bs).take c ++ [bs (Fin.ofNat 8 c)] = (List.ofFn bs).take (c + 1) := by
  have hlen : c < (List.ofFn bs).length := by simpa using hc
  rw [List.take_add_one, List.getElem?_eq_getElem hlen, List.getElem_ofFn]
  congr 2
  exact congrArg bs (Fin.ext (Nat.mod_eq_of_lt hc))

section Edge

variable (s : RegPort) (i : RegPortIn)

@[simp] theorem regPort_step_r :
    (regPort.step s i).r = s.r.step i.en i.address i.regs s.t.txdBusy := rfl

@[simp] theorem regPort_step_t : (regPort.step s i).t = s.t.step s.r.dout s.r.oEn i.clken := rfl

/-- A busy transmitter takes no byte. -/
theorem accepted_busy {s : RegPort} (h : s.t.state ≠ .idle) :
    acceptedBytes (regPort.out s i) = [] := by
  cases hc : i.clken <;> simp [regPort, h, hc, acceptedBytes, RegPortEvent.byte?]

/-- An idle transmitter takes a byte when the enable is up. -/
theorem accepted_idle {s : RegPort} (h : s.t.state = .idle) :
    acceptedBytes (regPort.out s i) = if s.r.oEn then [s.r.dout] else [] := by
  cases ho : s.r.oEn <;> simp [regPort, h, ho, acceptedBytes, RegPortEvent.byte?]

theorem txdBusy_idle {t : UartTxd} (h : t.state = .idle) : t.txdBusy = false := by
  simp [UartTxd.txdBusy, h]

theorem txdBusy_ne {t : UartTxd} (h : t.state ≠ .idle) : t.txdBusy = true := by
  simpa [UartTxd.txdBusy] using h

/-- One edge after a byte was taken the transmitter has seen at most its first tick. -/
theorem step_of_start {t : UartTxd} (h : t.state = .start) (din : Byte) (wrEn clken : Bool) :
    (t.step din wrEn clken).state = .start ∨ (t.step din wrEn clken).state = .data := by
  cases clken <;> simp [UartTxd.step, h]

/-- `SENDING_START` while the transmitter is idle, and once it is busy. -/
theorem sendingStart_idle {s : RegPort} (hr : s.r.currentState = .sendingStart)
    (ht : s.t.state = .idle) : (regPort.step s i).r =
      { s.r with oEn := true, dout := s.r.data (Fin.ofNat 8 s.r.counter.toNat) } := by
  simp [REG2UART.step, REG2UART.nextState, hr, txdBusy_idle ht]

theorem sendingStart_busy {s : RegPort} (hr : s.r.currentState = .sendingStart)
    (ht : s.t.state ≠ .idle) : (regPort.step s i).r =
      { s.r with
        currentState := .sendingAdd, oEn := true
        dout := s.r.data (Fin.ofNat 8 s.r.counter.toNat) } := by
  simp [REG2UART.step, REG2UART.nextState, hr, txdBusy_ne ht]

theorem sendingAdd_any {s : RegPort} (hr : s.r.currentState = .sendingAdd) :
    (regPort.step s i).r =
      { s.r with currentState := .sendingEnd, oEn := false, counter := s.r.counter + 1#4 } := by
  simp [REG2UART.step, REG2UART.nextState, hr]

/-- `SENDING_END` while the transmitter is busy, and once it is idle. -/
theorem sendingEnd_busy {s : RegPort} (hr : s.r.currentState = .sendingEnd)
    (ht : s.t.state ≠ .idle) : (regPort.step s i).r = s.r := by
  have h : (regPort.step s i).r = { s.r with currentState := .sendingEnd } := by
    simp [REG2UART.step, REG2UART.nextState, hr, txdBusy_ne ht]
  rw [h, ← hr]

theorem sendingEnd_idle {s : RegPort} (hr : s.r.currentState = .sendingEnd)
    (ht : s.t.state = .idle) : (regPort.step s i).r =
      { s.r with currentState := if 8 ≤ s.r.counter.toNat then .idle else .sendingStart } := by
  simp [REG2UART.step, REG2UART.nextState, hr, txdBusy_idle ht, BitVec.le_def]

end Edge

/-- **What one edge of a pass does.** -/
theorem pass_step {bs : Fin 8 → Byte} {s : RegPort} {acc : List Byte} (i : RegPortIn)
    (hidle : s.r.currentState ≠ .idle) (h : Pass bs s acc) :
    Pass bs (regPort.step s i) (acc ++ acceptedBytes (regPort.out s i)) := by
  have harm : s.t.Armed → (regPort.step s i).t.Armed := fun ha => armed_step ha _ _ _
  cases h with
  | offer hr hd hc ht ha ho =>
    have hstep := sendingStart_idle i hr ht
    rw [accepted_idle i ht]
    cases hen : s.r.oEn with
    | false =>
      -- the enable rises: the byte is on `dout` from the next edge on
      have h' := Pass.offer (b := bs) (regPort.step s i) (by rw [hstep]; exact hr)
        (by rw [hstep]; exact hd) (by rw [hstep]; exact hc) (by simp [UartTxd.step, ht, hen])
        (harm ha) (fun _ => by rw [hstep, ← hd])
      rw [hstep] at h'
      simpa using h'
    | true =>
      -- the byte is taken: the transmitter is busy from the next edge on
      have h' := Pass.taken (b := bs) (regPort.step s i) (by rw [hstep]; exact hr)
        (by rw [hstep]; exact hd) (by rw [hstep]; exact hc) (by simp [UartTxd.step, ht, hen])
        (harm ha)
      rw [hstep] at h'
      rw [if_pos rfl, ho hen, take_ofFn_succ bs hc]
      exact h'
  | taken hr hd hc ht ha =>
    have hne : s.t.state ≠ .idle := by simp [ht]
    have hstep := sendingStart_busy i hr hne
    rw [accepted_busy i hne, List.append_nil]
    have h' := Pass.add (b := bs) (regPort.step s i) (by rw [hstep]) (by rw [hstep]; exact hd)
      (by rw [hstep]; exact hc) (step_of_start ht _ _ _) (harm ha)
    rwa [hstep] at h'
  | add hr hd hc ht ha =>
    have hne : s.t.state ≠ .idle := by rcases ht with ht | ht <;> simp [ht]
    have hstep := sendingAdd_any i hr
    have hcount : (s.r.counter + 1#4).toNat = s.r.counter.toNat + 1 := by
      rw [BitVec.toNat_add]
      exact Nat.mod_eq_of_lt (by simp; omega)
    rw [accepted_busy i hne, List.append_nil]
    have h' := Pass.wait (b := bs) (regPort.step s i) (by rw [hstep]) (by rw [hstep]; exact hd)
      (by rw [hstep]; simp only [hcount]; omega) (by rw [hstep]) (harm ha)
    rw [hstep] at h'
    simpa only [hcount] using h'
  | wait hr hd hc ho ha =>
    by_cases ht : s.t.state = .idle
    · have hstep := sendingEnd_idle i hr ht
      have hidle' : (regPort.step s i).t.state = .idle := by simp [UartTxd.step, ht, ho]
      rw [accepted_idle i ht, ho]
      by_cases h8 : 8 ≤ s.r.counter.toNat
      · -- the eighth byte has gone out
        rw [if_pos h8] at hstep
        have hall : (List.ofFn bs).take s.r.counter.toNat = List.ofFn bs :=
          List.take_of_length_le (by simpa using h8)
        rw [hall]
        simpa using Pass.done (b := bs) (regPort.step s i) (by rw [hstep])
          ⟨hidle', harm ha, by rw [hstep]; exact ho⟩
      · rw [if_neg h8] at hstep
        have h' := Pass.offer (b := bs) (regPort.step s i) (by rw [hstep])
          (by rw [hstep]; exact hd) (by rw [hstep]; exact Nat.lt_of_not_le h8) hidle' (harm ha)
          (fun h => by rw [hstep] at h; rw [ho] at h; cases h)
        rw [hstep] at h'
        simpa using h'
    · have hstep := sendingEnd_busy i hr ht
      rw [accepted_busy i ht, List.append_nil]
      have h' := Pass.wait (b := bs) (regPort.step s i) (by rw [hstep]; exact hr)
        (by rw [hstep]; exact hd) (by rw [hstep]; exact hc) (by rw [hstep]; exact ho) (harm ha)
      rwa [hstep] at h'
  | done hr hq => exact absurd hr hidle

/-! ## 4. Whole runs -/

/-- Every state of a run from power-up is between passes, stores a packet or is in a pass. -/
def RegPort.Inv (s : RegPort) : Prop :=
  (s.r.currentState = .idle ∧ s.Quiet) ∨ (s.r.currentState = .saveingData ∧ s.Quiet) ∨
    ∃ bs acc, Pass bs s acc

/-- The edge that stores a packet begins a pass. -/
theorem pass_begin {s : RegPort} (i : RegPortIn) (hr : s.r.currentState = .saveingData)
    (hq : s.Quiet) :
    Pass (REG2UART.saveData i.address i.regs) (regPort.step s i)
      (acceptedBytes (regPort.out s i)) := by
  obtain ⟨ht, ha, ho⟩ := hq
  have hstep : (regPort.step s i).r =
      { s.r with
        currentState := .sendingStart, data := REG2UART.saveData i.address i.regs, counter := 0
        isBusy := true } := by
    simp [REG2UART.step, REG2UART.nextState, hr]
  rw [accepted_idle i ht, ho]
  have h' := Pass.offer (b := REG2UART.saveData i.address i.regs) (regPort.step s i)
    (by rw [hstep]) (by rw [hstep]) (by rw [hstep]; simp) (by simp [UartTxd.step, ht, ho])
    (armed_step ha _ _ _) (fun h => by rw [hstep] at h; rw [ho] at h; cases h)
  rw [hstep] at h'
  exact h'

/-- An edge in `IDLE` changes nothing on the wire. -/
theorem quiet_idle_step {s : RegPort} (i : RegPortIn) (hr : s.r.currentState = .idle)
    (hq : s.Quiet) :
    (regPort.step s i).Quiet ∧ ((regPort.step s i).r.currentState = .idle ∨
      (regPort.step s i).r.currentState = .saveingData) := by
  obtain ⟨ht, ha, ho⟩ := hq
  refine ⟨⟨by simp [UartTxd.step, ht, ho], armed_step ha _ _ _, by simp [REG2UART.step, hr]⟩, ?_⟩
  cases he : i.en <;> simp [REG2UART.step, REG2UART.nextState, hr, he]

theorem regPort_inv_step (s : RegPort) (i : RegPortIn) (h : s.Inv) : (regPort.step s i).Inv := by
  rcases h with ⟨hr, hq⟩ | ⟨hr, hq⟩ | ⟨bs, acc, hp⟩
  · rcases quiet_idle_step i hr hq with ⟨hq', hi | hs⟩
    · exact Or.inl ⟨hi, hq'⟩
    · exact Or.inr (Or.inl ⟨hs, hq'⟩)
  · exact Or.inr (Or.inr ⟨_, _, pass_begin i hr hq⟩)
  · by_cases hr : s.r.currentState = .idle
    · obtain ⟨hq, _⟩ := pass_idle hp hr
      rcases quiet_idle_step i hr hq with ⟨hq', hi | hs⟩
      · exact Or.inl ⟨hi, hq'⟩
      · exact Or.inr (Or.inl ⟨hs, hq'⟩)
    · exact Or.inr (Or.inr ⟨_, _, pass_step i hr hp⟩)

theorem regPort_inv (data : Fin 8 → Byte) (dout : Byte) (isBusy : Bool) (is : List RegPortIn) :
    (regPort.run (RegPort.powerUp data dout isBusy) is).Inv :=
  regPort.inv_run regPort_inv_step (Or.inl ⟨rfl, rfl, fun h => (by cases h), rfl⟩) is

/-- In the state that stores a packet the transmitter is idle. -/
theorem quiet_of_saveingData {s : RegPort} (h : s.Inv) (hr : s.r.currentState = .saveingData) :
    s.Quiet := by
  rcases h with ⟨hr', _⟩ | ⟨_, hq⟩ | ⟨bs, acc, hp⟩
  · rw [hr] at hr'
    cases hr'
  · exact hq
  · cases hp <;> simp_all

/-- **A whole pass.** From any state reached from power-up that is about to store a packet, through
    any edges up to the first return to `IDLE`: the transmitter accepts exactly the eight bytes of
    the packet present at the storing edge, in order, and the values of `txd` at its ticks are the
    frames of these bytes. The bytes are the address and the six bytes of `regs` with bit 0 cleared,
    and the flag byte. -/
theorem regPort_pass (data : Fin 8 → Byte) (dout : Byte) (isBusy : Bool) (before : List RegPortIn)
    (i : RegPortIn) (later : List RegPortIn) :
    let s := regPort.run (RegPort.powerUp data dout isBusy) before
    s.r.currentState = .saveingData →
    (∀ n < later.length, (regPort.run s (i :: later.take n)).r.currentState ≠ .idle) →
    (regPort.run s (i :: later)).r.currentState = .idle →
    acceptedBytes (regPort.log s (i :: later)) = Packet.encode ⟨i.address, i.regs⟩ ∧
      tickValues (regPort.log s (i :: later)) =
        (Packet.encode ⟨i.address, i.regs⟩).flatMap uartFrame ∧
      ∃ flags, Packet.Laid ⟨i.address, i.regs⟩ (acceptedBytes (regPort.log s (i :: later))) flags := by
  intro s hr hfirst hend
  have hq : s.Quiet := quiet_of_saveingData (regPort_inv data dout isBusy before) hr
  have hpass := regPort.inv_log_until
    (I := fun s' l => Pass (REG2UART.saveData i.address i.regs) s' (acceptedBytes l))
    (P := fun s' => s'.r.currentState = .idle)
    (fun s' l j hs hI => by
      rw [acceptedBytes_append]
      exact pass_step j hs hI)
    (s := regPort.step s i) (l := regPort.out s i) (pass_begin i hr hq) later hfirst
  obtain ⟨hq', hacc⟩ := pass_idle hpass hend
  have hticks := ticks_conserved hq.2.1 (i :: later)
  have h0 : s.t.rest = [] := rest_idle hq.1
  have h1 : (regPort.run s (i :: later)).t.rest = [] := rest_idle hq'.1
  rw [h0, h1, List.append_nil, List.nil_append] at hticks
  have hall : acceptedBytes (regPort.log s (i :: later)) = Packet.encode ⟨i.address, i.regs⟩ := hacc
  refine ⟨hall, by rw [hticks, hall], ?_⟩
  rw [hall]
  exact ⟨_, encode_laid _⟩

/-- A pass with a tick at every clock, `address` and `regs` changing after the storing edge. -/
theorem regPort_pass_fast :
    let s := regPort.run (RegPort.powerUp (fun _ => 0) 0 false) [⟨true, 0, 0, true⟩]
    let later := List.replicate 104 (⟨true, 0xff, 7, true⟩ : RegPortIn)
    acceptedBytes (regPort.log s (⟨true, 0xc3, 0x010203040506, true⟩ :: later)) =
      [0xc2, 0x00, 0x02, 0x02, 0x04, 0x04, 0x06, 0xd5] :=
  (regPort_pass (fun _ => 0) 0 false [⟨true, 0, 0, true⟩] ⟨true, 0xc3, 0x010203040506, true⟩
    (List.replicate 104 ⟨true, 0xff, 7, true⟩) (by decide) (by decide) (by decide)).1

end WifiOsc
