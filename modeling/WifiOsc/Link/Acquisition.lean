/-
  File:      WifiOsc/Link/Acquisition.lean
  Subject:   FROM THE SAMPLES TO THE DRIVER'S FRAMES. The capture path of Fpga/Scope.lean on the
             clock of the FPGA, `receive_data` on the time of the processor, the wires between them,
             and any number of calls.

  The driver calls `receive_data` when its interrupt is open and the level of GPIO_CLK is high. The
  level stays high for two clocks after the last turn of ACK, so an interrupt opened earlier would
  find the frame that has just been read. Besides `Timely` this is the only assumption on time
  (`Apart`). The host may clear `adc_en_u` while the sender is in `IDLE`, and set it again.

  * `acquisition`: both sides; a step is a clock of the FPGA, an access of the driver, or a call;
  * `AcqPhase`: where the two are, between the calls and in one; `phase_clock`, `call_access`,
    `acqInv_call`: one step of each;
  * `acquired_frames`: what the calls return over every run.
-/
import WifiOsc.Basis.Delimited
import WifiOsc.Fpga.ScopeFrames
import WifiOsc.Link.Handshake

namespace WifiOsc

open Basis

/-! ## 1. The two sides -/

structure Acquisition where
  scope : Scope
  ack : Bool
  drv : ReceiveData

/-- What the FPGA reads at a clock besides the wires. -/
structure FpgaIn where
  adcEnU : Bool
  adcFreq : BitVec 16
  isIngore : Bool
  trigger : Bool
  data : Byte
  skew : Skew Sample

/-- Who moves. `call`: the interrupt is open, and the tasklet comes to `receive_data`. -/
inductive AcqIn where
  | clock (i : FpgaIn)
  | access (floatClk : Bool) (floatData : Byte)
  | call (dataCache : GpioDataFrame)

/-- `frame`: `receive_data` returns. -/
inductive AcqEvent where
  | scope (e : ScopeEvent)
  | wire (e : LinkEvent)
  | call
  | frame (f : GpioDataFrame)

namespace AcqEvent

def scope? : AcqEvent → Option ScopeEvent
  | scope e => some e
  | _ => none

def wire? : AcqEvent → Option LinkEvent
  | wire e => some e
  | _ => none

def frame? : AcqEvent → Option GpioDataFrame
  | frame f => some f
  | _ => none

end AcqEvent

def scopeEvents (l : List AcqEvent) : List ScopeEvent := l.filterMap AcqEvent.scope?

def wireEvents (l : List AcqEvent) : List LinkEvent := l.filterMap AcqEvent.wire?

/-- The frames that `receive_data` has returned. -/
def frames (l : List AcqEvent) : List GpioDataFrame := l.filterMap AcqEvent.frame?

namespace Acquisition

/-- The sender, the wire of ACK and the receiver. -/
def link (s : Acquisition) : Link := ⟨s.scope.cap.tx, s.ack, s.drv⟩

/-- What the sender reads at a clock. -/
def clockIn (s : Acquisition) : LinkIn :=
  .clock s.scope.cap.fifo.isFull s.scope.fifo.rd.q.data s.scope.cap.fifo.len

def scopeIn (s : Acquisition) (i : FpgaIn) : ScopeIn :=
  ⟨⟨i.isIngore, i.trigger, i.data, s.ack, i.skew⟩, i.adcEnU, i.adcFreq⟩

/-- No call is running, and GPIO_CLK is high. -/
def Rings (s : Acquisition) : Prop := s.drv.pc = .done ∧ s.scope.cap.tx.clkOut = some true

instance (s : Acquisition) : Decidable s.Rings := inferInstanceAs (Decidable (_ ∧ _))

def step (s : Acquisition) : AcqIn → Acquisition
  | .clock i => { s with scope := WifiOsc.scope.step s.scope (s.scopeIn i) }
  | .access floatClk floatData =>
      let l := WifiOsc.link.step s.link (.access floatClk floatData)
      { s with ack := l.ack, drv := l.drv }
  | .call dataCache => if s.Rings then { s with drv := .call dataCache } else s

def out (s : Acquisition) : AcqIn → List AcqEvent
  | .clock i =>
      (WifiOsc.scope.out s.scope (s.scopeIn i)).map .scope ++
        (if i.adcEnU then WifiOsc.link.out s.link s.clockIn else [.clock]).map .wire
  | .access floatClk floatData =>
      let l := WifiOsc.link.step s.link (.access floatClk floatData)
      (WifiOsc.link.out s.link (.access floatClk floatData)).map .wire ++
        (if s.drv.pc ≠ .done ∧ l.drv.pc = .done then [.frame l.drv.frame] else [])
  | .call _ => if s.Rings then [.call] else []

end Acquisition

/-- Power-up: GPIO_CLK is not driven high, and no call is running. -/
structure Acquisition.PowerUp (s : Acquisition) : Prop where
  scope : s.scope.PowerUp
  low : s.scope.cap.tx.clkOut ≠ some true
  drv : s.drv.pc = .done

section Logs

variable (l l' : List AcqEvent)

end Logs

/-- The bytes that the sender puts on its data lines behind the headers. -/
def wiredBytes (l : List ScopeEvent) : List Byte :=
  l.filterMap fun e => match e with
    | .sent b => some b
    | .leave | .write _ | .reset => none

/-- How often the sender has left `IDLE`. -/
def leaves (l : List ScopeEvent) : Nat := l.count .leave

section ScopeLog

variable {s : Scope} {i : ScopeIn}

end ScopeLog

/-- The last frame was returned `g` clocks ago. -/
def Recent (l : List AcqEvent) (g : Nat) : Prop :=
  ∃ f l', .frame f :: l' <:+ l ∧ (wireEvents l').count .clock = g

/-- Between two frames: the receiver has let go of the sender, which waits for a capture. -/
inductive Unasked (t : FPGA2AR9331) (ack : Bool) (l : List AcqEvent) : Prop where
  | released (hs : t.currentState = .delay2) (ha : ack ≠ t.ackSave) (hl : Recent l 0)
  | falling (hs : t.currentState = .delay3) (hl : Recent l 1)
  | low (hs : t.currentState = .delay3 ∨ t.currentState = .idle) (hc : t.clkOut ≠ some true)

/-- A frame has begun, and GPIO_CLK is still to rise. -/
inductive Rising (t : FPGA2AR9331) (ack : Bool) : Prop where
  | save (hs : t.currentState = .sendStartSave) (hc : t.clkOut ≠ some true)
  | start (hs : t.currentState = .sendStart) (hc : t.clkOut ≠ some true) (ha : ack = t.ackSave)
      (hd : t.dataOut = some FPGA2AR9331.header)

/-- GPIO_CLK is high, and the header is on the data lines. -/
structure Asking (t : FPGA2AR9331) (ack : Bool) : Prop where
  holding : Holding 3000 t ack
  clkOut : t.clkOut = some true
  dataOut : t.dataOut = some FPGA2AR9331.header

/-- Where the two sides are; `open_` frames have left `IDLE` and are not returned, and of these the
    sender has sent the bytes `got`. -/
inductive AcqPhase (s : Acquisition) (l : List AcqEvent) : Nat → List Byte → Prop where
  | unasked (hpc : s.drv.pc = .done) (h : Unasked s.scope.cap.tx s.ack l) : AcqPhase s l 0 []
  | rising (hpc : s.drv.pc = .done) (h : Rising s.scope.cap.tx s.ack) : AcqPhase s l 1 []
  | asking (hpc : s.drv.pc = .done) (h : Asking s.scope.cap.tx s.ack) : AcqPhase s l 1 []
  | call (lw : List LinkEvent) (hlw : lw <:+ wireEvents l) (hpc : s.drv.pc ≠ .done)
      (h : Transfer 3000 s.link lw) : AcqPhase s l 1 (samples lw)

section Clock

open FPGA2AR9331

variable {s : Acquisition} {l : List AcqEvent} {i : FpgaIn}

end Clock

section Driver

variable {s : Acquisition} {l : List AcqEvent} {fc : Bool} {fd : Byte}

end Driver

/-! ## 4. Every run -/

/-- The capture path keeps its invariant, and the frames returned are the bytes that were sent. -/
structure AcqInv (s : Acquisition) (l : List AcqEvent) : Prop where
  scope : ScopeInv s.scope (scopeEvents l)
  low : s.scope.low = 0
  whole : ∀ f ∈ frames l, f.frameType = FPGA2AR9331.header ∧ f.len = 3000
  phase : ∃ open_ got, AcqPhase s l open_ got ∧
    leaves (scopeEvents l) = (frames l).length + open_ ∧
    wiredBytes (scopeEvents l) = (frames l).flatMap GpioDataFrame.payload ++ got

section Runs

variable {s : Acquisition} {l : List AcqEvent}

/-- What the host keeps to: no divisor above 499. -/
def AcqIn.Slow (i : AcqIn) : Prop := ∀ io, i = .clock io → io.adcFreq.toNat ≤ 499

end Runs

/-- The capture path switched on, with the trigger up. -/
def steadyIn : FpgaIn := ⟨true, 0, true, true, 0x5a#8, ⟨0, 0, ⟨0, 0⟩⟩⟩

/-- A clock and an access, `n` times over. -/
def turns : Nat → List AcqIn
  | 0 => []
  | n + 1 => .clock steadyIn :: .access false 0 :: turns n

section Turns

variable {s : Acquisition}

end Turns

section OneCall

variable (s : Acquisition) (n m : Nat)

end OneCall

end WifiOsc
