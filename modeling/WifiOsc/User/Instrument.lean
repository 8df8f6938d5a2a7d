/-
  File:      WifiOsc/User/Instrument.lean
  Subject:   THE WHOLE INSTRUMENT. The board with `receive_data` on the time of the FPGA and of the
             processor (Link/Acquisition.lean), and the driver's handlers, the sending thread and the
             connections (User/Broadcast.lean), each with the other in place of what it assumed about
             it.

  The handlers were modelled with frames that come whole onto an abstract line. Here the line is the
  level of GPIO_CLK and `receive_data` puts byte after byte into its slot; the frame is known when it
  returns. So the abstract run is made with the frames that the run is going to return.

  * `instrument`: all parts, one step at a time; `Settled`: what is assumed about the interrupt;
  * `Station.seen`: what the instrument has of a station; `station_seen`: the steps that do not see
    the difference;
  * `InstrumentSim`: the abstract station that belongs to a state; `instrument_step`: one step of it.
-/
import WifiOsc.Driver.Stored
import WifiOsc.Link.Acquisition
import WifiOsc.User.Broadcast

namespace WifiOsc

open Basis

/-! ## 1. The parts together -/

/-- `line` of the driver is the level of GPIO_CLK; `offered`, `calls` and the number in `receiving`
    are not used. -/
structure Instrument where
  acq : Acquisition
  station : Station

inductive InstrumentIn where
  /-- A clock of the FPGA. -/
  | clock (i : FpgaIn)
  /-- A GPIO access of `receive_data`. -/
  | access (floatClk : Bool) (floatData : Byte)
  | irqHandler
  /-- A step of the tasklet outside `receive_data`. -/
  | tasklet (ok : Bool)
  /-- A step of `netlink_recv_msg`, of the sending thread or of a `connectTcp` thread. -/
  | station (e : StationEvent)

inductive InstrumentEvent where
  | acq (e : AcqEvent)
  | irqHandler

def InstrumentEvent.acq? : InstrumentEvent → Option AcqEvent
  | acq e => some e
  | irqHandler => none

def acqEvents (l : List InstrumentEvent) : List AcqEvent := l.filterMap InstrumentEvent.acq?

/-- GPIO_CLK. -/
def Acquisition.level (s : Acquisition) : Bool := s.scope.cap.tx.clkOut == some true

/-- `receive_data` has made an access: its slot is what it has made of it, and it may return. -/
def Driver.reads (d : Driver) (r : ReceiveData) : Driver :=
  match d.tk with
  | .receiving pos _ =>
      { d.writeSlot pos r.frame with tk := if r.pc = .done then .received pos else d.tk }
  | _ => d

def Station.withDriver (s : Station) (d : Driver) : Station := { s with sys := { s.sys with d := d } }

/-- The steps that leave the tasklet and the hardware alone. -/
def SysEvent.free : SysEvent → Bool
  | .driver .recv => true
  | .driver _ => false
  | .deliver | .start | .take | .fetch | .forward _ | .ack | .quit => true

def StationEvent.free : StationEvent → Bool
  | .sys e => e.free
  | .forward | .thread _ => true

namespace Instrument

variable (σ : Setting)

def next (s : Instrument) : InstrumentIn → Option Instrument
  | .clock i =>
      let acq := Acquisition.step s.acq (.clock i)
      some ⟨acq, s.station.withDriver { s.station.sys.d with line := acq.level }⟩
  | .access floatClk floatData =>
      let acq := Acquisition.step s.acq (.access floatClk floatData)
      some ⟨acq, s.station.withDriver (s.station.sys.d.reads acq.drv)⟩
  | .irqHandler =>
      (s.station.next σ (.sys (.driver .irqHandler))).map fun st => { s with station := st }
  | .tasklet ok =>
      match s.station.sys.d.tk with
      | .call pos =>
          some ⟨{ s.acq with drv := .call (s.station.sys.d.q.dataspace pos) },
            s.station.withDriver { s.station.sys.d with tk := .receiving pos none }⟩
      | .receiving _ _ => none
      | _ =>
          (s.station.next σ (.sys (.driver (.tasklet emptyFrame ok)))).map fun st =>
            { s with station := st }
  | .station e =>
      if e.free then (s.station.next σ e).map fun st => { s with station := st } else none

def out (s : Instrument) : InstrumentIn → List InstrumentEvent
  | .clock i => (Acquisition.out s.acq (.clock i)).map .acq
  | .access floatClk floatData => (Acquisition.out s.acq (.access floatClk floatData)).map .acq
  | .irqHandler => if (s.next σ .irqHandler).isSome then [.irqHandler] else []
  | .tasklet _ =>
      match s.station.sys.d.tk with
      | .call _ => [.acq .call]
      | _ => []
  | .station _ => []

end Instrument

/-- What the host keeps to, as in Link/Acquisition.lean. -/
def InstrumentIn.Slow (i : InstrumentIn) : Prop := ∀ io, i = .clock io → io.adcFreq.toNat ≤ 499

structure Instrument.PowerUp (s : Instrument) : Prop where
  acq : s.acq.PowerUp
  station : ∃ dataspace descriptors, s.station = Station.init dataspace descriptors

/-- The frame on the line is not named. -/
def TaskletPc.unnamed : TaskletPc → TaskletPc
  | .receiving pos _ => .receiving pos none
  | .idle => .idle
  | .start => .start
  | .call pos => .call pos
  | .received pos => .received pos
  | .setFull pos => .setFull pos
  | .notify pos => .notify pos
  | .enable => .enable

/-- What the instrument has of a driver, when the level is `b`. -/
def Driver.seen (b : Bool) (d : Driver) : Driver :=
  { d with line := b, offered := [], calls := [], tk := d.tk.unnamed }

def System.seen (b : Bool) (s : System) : System := { s with d := s.d.seen b }

def Station.seen (b : Bool) (s : Station) : Station := { s with sys := s.sys.seen b }

section Seen

variable {σ : Setting} {b : Bool} {d d' : Driver}

variable {s : System}

end Seen

/-! ## 3. The simulation -/

/-- GPIO_CLK is high for a frame whose call is still to come. -/
def Acquisition.Asks (s : Acquisition) : Prop := s.drv.pc = .done ∧ Asking s.scope.cap.tx s.ack

/-- **The station behind the instrument**: to it a frame comes whole, as what `F` says, when the
    sender asks for its call, and has left the line when it is called. -/
structure InstrumentSim (σ : Setting) (F : Nat → GpioDataFrame) (s : Instrument)
    (l : List InstrumentEvent) (t : Station) : Prop where
  reach : t.Reachable σ
  view : s.station = t.seen s.acq.level
  acq : AcqInv s.acq (acqEvents l)
  reading : t.sys.d.tk.reading = true ↔ s.acq.drv.pc ≠ .done
  line : t.sys.d.line = true ↔ s.acq.Asks
  offered : t.sys.d.offered = (List.range ((frames (acqEvents l)).length +
    (t.sys.d.line || t.sys.d.tk.reading).toNat)).map F

section Sim

variable {σ : Setting} {F : Nat → GpioDataFrame} {s : Instrument} {l : List InstrumentEvent}
  {t : Station}

/-- What holds of the driver on its own. -/
theorem InstrumentSim.driver (hsp : σ.spurious = false) (h : InstrumentSim σ F s l t) :
    TokenInv t.sys.d ∧ FrameInv t.sys.d := by
  have hdrv := driver_reachable hsp (stationInv_reachable h.reach).sys
  exact ⟨token_inv hdrv, frame_inv hdrv⟩

/-- Only what the board shows of a log is of interest. -/
theorem InstrumentSim.congr {l' : List InstrumentEvent} (h : InstrumentSim σ F s l t)
    (hl : acqEvents l' = acqEvents l) : InstrumentSim σ F s l' t := by
  obtain ⟨hreach, hview, hacq, hreading, hline, hoffered⟩ := h
  rw [← hl] at hacq hoffered
  exact ⟨hreach, hview, hacq, hreading, hline, hoffered⟩

end Sim

end WifiOsc
