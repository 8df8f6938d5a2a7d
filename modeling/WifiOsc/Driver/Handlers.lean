/-
  File:      WifiOsc/Driver/Handlers.lean
  Subject:   THE THREE HANDLERS OF THE DRIVER: `irq_handler`, `tasklet_handler` and
             `netlink_recv_msg` (gpio_interrupt.c), interleaved. Definitions and what one step can do.

  `irq_handler` is one step and may come between any two others. The sections under `w_lock` are one
  step each in the tasklet; in `netlink_recv_msg` the section is cut where `irq_handler` could see a
  difference, and the tasklet's sections wait for its end (`inSection`). The statements outside the
  lock are steps of their own. What the driver reads from the hardware is `line` (the level of
  GPIO_CLK) and the frame on it; a frame is offered on a low line, and the line falls once
  `receive_data` has read it.

  * `DriverEvent`, `Driver.next`: the steps, `none` where one is not possible;
  * `Driver.sends`: the notification a step hands to netlink;
  * `Driver.stored`, `Driver.calls`: what has happened, for statements only; no step reads them.
-/
import WifiOsc.Basis.Machine
import WifiOsc.Driver.Sequeue

namespace WifiOsc

open Basis

/-! ## 1. State -/

/-- Where `tasklet_handler` is. `pos` is its local variable. -/
inductive TaskletPc where
  | idle
  /-- Before the first section. -/
  | start
  /-- The queue is not full: before the call of `receive_data`. -/
  | call (pos : Nat)
  /-- In `receive_data`; `frame` is the number of the frame it found on the line. -/
  | receiving (pos : Nat) (frame : Option Nat)
  /-- Before the second section. -/
  | received (pos : Nat)
  /-- The queue is full: before `data_stream.full = true`. -/
  | setFull (pos : Nat)
  /-- Before the third section. -/
  | notify (pos : Nat)
  /-- Before register 5 is set. -/
  | enable
  deriving DecidableEq

/-- Is `receive_data` running? -/
@[simp] def TaskletPc.reading : TaskletPc → Bool
  | .receiving _ _ => true
  | .idle | .start | .call _ | .received _ | .setFull _ | .notify _ | .enable => false

/-- Where `netlink_recv_msg` is, with the code of its message. -/
inductive RecvPc where
  | idle
  /-- `send_pid` is set: before the comparisons. -/
  | begun (code : Int)
  /-- Before the section of a start message. -/
  | lockStart (code : Int)
  /-- Before the section of an acknowledgement; `dif` is `front_dif`. -/
  | lockAck (code dif : Int)
  /-- In a section, `hasSend` cleared and the queue cut. -/
  | clearFull (code : Int)
  | testIrq (code : Int)
  | clearIrq (code : Int)
  | schedule (code : Int)
  /-- In a section, before its end. -/
  | unlock (code : Int)
  deriving DecidableEq

/-- Is a section under `w_lock` open? -/
@[simp] def RecvPc.inSection : RecvPc → Bool
  | .clearFull _ | .testIrq _ | .clearIrq _ | .schedule _ | .unlock _ => true
  | .idle | .begun _ | .lockStart _ | .lockAck _ _ => false

structure Driver where
  q : FrameSequeue
  full : Bool
  irq : Bool
  hasSend : Bool
  sendPid : Nat
  /-- GPIO_CLK in register 5. -/
  enabled : Bool
  /-- The tasklet is scheduled. -/
  sched : Bool
  tk : TaskletPc
  rv : RecvPc
  line : Bool
  /-- The frames the FPGA has offered, the last one on the line while it is high. -/
  offered : List GpioDataFrame
  /-- For each call of `receive_data` the number of the frame on the line, if it was high. -/
  calls : List (Option Nat)
  /-- The frames that have been put into the queue. -/
  stored : List GpioDataFrame

namespace Driver

/-- After `gpio_interrupt_init`. -/
def init (dataspace : Nat → GpioDataFrame) : Driver where
  q := .setNull dataspace
  full := false
  irq := false
  hasSend := false
  sendPid := 0
  enabled := true
  sched := false
  tk := .idle
  rv := .idle
  line := false
  offered := []
  calls := []
  stored := []

/-- The number of the frame on the line. -/
def onLine (d : Driver) : Option Nat := if d.line then some (d.offered.length - 1) else none

end Driver

/-! ## 2. Steps -/

inductive DriverEvent where
  /-- The FPGA offers the next frame. -/
  | offer (f : GpioDataFrame)
  /-- The line falls: the frame on it has been read. -/
  | fall
  | irqHandler
  /-- The next step of the tasklet. `junk`: what `receive_data` leaves in its slot if it found no
      frame; `ok`: netlink can allocate and deliver. -/
  | tasklet (junk : GpioDataFrame) (ok : Bool)
  /-- `receive_data` has written a part of its slot. -/
  | scribble (f : GpioDataFrame)
  /-- User space writes into a slot of the shared queue. -/
  | touch (pos : Nat) (f : GpioDataFrame)
  /-- A netlink message arrives. -/
  | arrive (code : Int) (pid : Nat)
  /-- The next step of `netlink_recv_msg`. -/
  | recv
  /-- The tasklet is scheduled from elsewhere. -/
  | spurious

namespace Driver

/-- `*slot = f`. -/
def writeSlot (d : Driver) (pos : Nat) (f : GpioDataFrame) : Driver :=
  { d with q := { d.q with dataspace := Function.update d.q.dataspace pos f } }

/-- `tasklet_handler`. -/
def taskletStep (d : Driver) (junk : GpioDataFrame) : Option Driver :=
  match d.tk with
  | .idle => if d.sched then some { d with sched := false, tk := .start } else none
  | .start =>
      if d.rv.inSection then none
      else some { d with tk := if d.q.full then .setFull d.q.rear else .call d.q.rear }
  | .call pos => some { d with tk := .receiving pos d.onLine, calls := d.calls ++ [d.onLine] }
  | .receiving pos frame =>
      if d.line then none
      else
        some { d.writeSlot pos ((frame.bind fun k => d.offered[k]?).getD junk) with
          tk := .received pos }
  | .received pos =>
      if d.rv.inSection then none
      else
        some { d with
          q := d.q.store pos, stored := d.stored ++ [d.q.dataspace pos], tk := .notify pos }
  | .setFull pos => some { d with full := true, tk := .notify pos }
  | .notify _ =>
      if d.rv.inSection then none else some { d with hasSend := true, tk := .enable }
  | .enable => some { d with enabled := true, tk := .idle }

/-- `netlink_recv_msg`, after `send_pid` is set. -/
def recvStep (d : Driver) : Option Driver :=
  match d.rv with
  | .idle => none
  | .begun code =>
      if code = codeStart then some { d with rv := .lockStart code }
      else if code = codeEnd then some { d with sendPid := 0, rv := .idle }
      else if code < streamLen then some { d with rv := .lockAck code (d.q.frontDif code) }
      else some { d with rv := .idle }
  | .lockStart code => some { d with hasSend := false, rv := .clearFull code }
  | .lockAck code dif =>
      some { d with hasSend := false, q := d.q.cut code dif, rv := .clearFull code }
  | .clearFull code => some { d with full := false, rv := .testIrq code }
  | .testIrq code => some { d with rv := if d.irq then .clearIrq code else .unlock code }
  | .clearIrq code => some { d with irq := false, rv := .schedule code }
  | .schedule code => some { d with sched := true, rv := .unlock code }
  | .unlock _ => some { d with rv := .idle }

/-- `irq_handler`, which runs while its interrupt is enabled and the line is high. -/
def irqStep (d : Driver) : Option Driver :=
  if d.enabled && d.line then
    some (if d.full then { d with enabled := false, irq := true }
      else { d with enabled := false, sched := true })
  else none

/-- One step of the driver or of what it is connected to. -/
def next (d : Driver) : DriverEvent → Option Driver
  | .offer f =>
      if d.line || d.tk.reading then none
      else some { d with line := true, offered := d.offered ++ [f] }
  | .fall => if d.line && d.tk.reading then some { d with line := false } else none
  | .irqHandler => d.irqStep
  | .tasklet junk _ => d.taskletStep junk
  | .scribble f =>
      match d.tk with
      | .receiving pos _ => some (d.writeSlot pos f)
      | _ => none
  | .touch pos f => some (d.writeSlot pos f)
  | .arrive code pid =>
      if d.rv = .idle then some { d with sendPid := pid, rv := .begun code } else none
  | .recv => d.recvStep
  | .spurious => some { d with sched := true }

/-- The position a step hands to netlink, if it does: `netlink_send_signal(pos, send_pid)`. -/
def sends (d : Driver) : DriverEvent → Option Nat
  | .tasklet _ ok =>
      match d.tk with
      | .notify pos => if !d.hasSend && d.sendPid != 0 && ok then some pos else none
      | _ => none
  | _ => none

end Driver

/-! ## 3. What a step can do -/

/-- The steps, one constructor for each branch of the source. -/
inductive DriverStep (d : Driver) : DriverEvent → Driver → Prop where
  | offer (f : GpioDataFrame) (hl : d.line = false) (hr : d.tk.reading = false) :
      DriverStep d (.offer f) { d with line := true, offered := d.offered ++ [f] }
  | fall (hl : d.line = true) (hr : d.tk.reading = true) :
      DriverStep d .fall { d with line := false }
  | irqFull (he : d.enabled = true) (hl : d.line = true) (hf : d.full = true) :
      DriverStep d .irqHandler { d with enabled := false, irq := true }
  | irqSched (he : d.enabled = true) (hl : d.line = true) (hf : d.full = false) :
      DriverStep d .irqHandler { d with enabled := false, sched := true }
  | run {junk : GpioDataFrame} {ok : Bool} (ht : d.tk = .idle) (hs : d.sched = true) :
      DriverStep d (.tasklet junk ok) { d with sched := false, tk := .start }
  | readFull {junk : GpioDataFrame} {ok : Bool} (ht : d.tk = .start)
      (hv : d.rv.inSection = false) (hf : d.q.full = true) :
      DriverStep d (.tasklet junk ok) { d with tk := .setFull d.q.rear }
  | readFree {junk : GpioDataFrame} {ok : Bool} (ht : d.tk = .start)
      (hv : d.rv.inSection = false) (hf : d.q.full = false) :
      DriverStep d (.tasklet junk ok) { d with tk := .call d.q.rear }
  | call {junk : GpioDataFrame} {ok : Bool} {pos : Nat} (ht : d.tk = .call pos) :
      DriverStep d (.tasklet junk ok)
        { d with tk := .receiving pos d.onLine, calls := d.calls ++ [d.onLine] }
  | receive {junk : GpioDataFrame} {ok : Bool} {pos : Nat} {frame : Option Nat}
      (ht : d.tk = .receiving pos frame) (hl : d.line = false) :
      DriverStep d (.tasklet junk ok)
        { d.writeSlot pos ((frame.bind fun k => d.offered[k]?).getD junk) with tk := .received pos }
  | store {junk : GpioDataFrame} {ok : Bool} {pos : Nat} (ht : d.tk = .received pos)
      (hv : d.rv.inSection = false) :
      DriverStep d (.tasklet junk ok)
        { d with
          q := d.q.store pos, stored := d.stored ++ [d.q.dataspace pos], tk := .notify pos }
  | setFull {junk : GpioDataFrame} {ok : Bool} {pos : Nat} (ht : d.tk = .setFull pos) :
      DriverStep d (.tasklet junk ok) { d with full := true, tk := .notify pos }
  | notify {junk : GpioDataFrame} {ok : Bool} {pos : Nat} (ht : d.tk = .notify pos)
      (hv : d.rv.inSection = false) :
      DriverStep d (.tasklet junk ok) { d with hasSend := true, tk := .enable }
  | enable {junk : GpioDataFrame} {ok : Bool} (ht : d.tk = .enable) :
      DriverStep d (.tasklet junk ok) { d with enabled := true, tk := .idle }
  | scribble {pos : Nat} {frame : Option Nat} (f : GpioDataFrame)
      (ht : d.tk = .receiving pos frame) : DriverStep d (.scribble f) (d.writeSlot pos f)
  | touch (pos : Nat) (f : GpioDataFrame) : DriverStep d (.touch pos f) (d.writeSlot pos f)
  | arrive (code : Int) (pid : Nat) (hv : d.rv = .idle) :
      DriverStep d (.arrive code pid) { d with sendPid := pid, rv := .begun code }
  | begunStart {code : Int} (hv : d.rv = .begun code) (hc : code = codeStart) :
      DriverStep d .recv { d with rv := .lockStart code }
  | begunEnd {code : Int} (hv : d.rv = .begun code) (hc : code = codeEnd) :
      DriverStep d .recv { d with sendPid := 0, rv := .idle }
  | begunAck {code : Int} (hv : d.rv = .begun code) (hc : code < streamLen) :
      DriverStep d .recv { d with rv := .lockAck code (d.q.frontDif code) }
  | begunOther {code : Int} (hv : d.rv = .begun code) (hs : code ≠ codeStart)
      (he : code ≠ codeEnd) (hc : ¬ code < streamLen) : DriverStep d .recv { d with rv := .idle }
  | lockStart {code : Int} (hv : d.rv = .lockStart code) :
      DriverStep d .recv { d with hasSend := false, rv := .clearFull code }
  | lockAck {code dif : Int} (hv : d.rv = .lockAck code dif) :
      DriverStep d .recv { d with hasSend := false, q := d.q.cut code dif, rv := .clearFull code }
  | clearFull {code : Int} (hv : d.rv = .clearFull code) :
      DriverStep d .recv { d with full := false, rv := .testIrq code }
  | testIrq {code : Int} (hv : d.rv = .testIrq code) (hi : d.irq = true) :
      DriverStep d .recv { d with rv := .clearIrq code }
  | testNoIrq {code : Int} (hv : d.rv = .testIrq code) (hi : d.irq = false) :
      DriverStep d .recv { d with rv := .unlock code }
  | clearIrq {code : Int} (hv : d.rv = .clearIrq code) :
      DriverStep d .recv { d with irq := false, rv := .schedule code }
  | schedule {code : Int} (hv : d.rv = .schedule code) :
      DriverStep d .recv { d with sched := true, rv := .unlock code }
  | unlock {code : Int} (hv : d.rv = .unlock code) : DriverStep d .recv { d with rv := .idle }
  | spurious : DriverStep d .spurious { d with sched := true }

section Cases

variable {d d' : Driver} {e : DriverEvent}

theorem tasklet_cases {junk : GpioDataFrame} {ok : Bool} (h : d.taskletStep junk = some d') :
    DriverStep d (.tasklet junk ok) d' := by
  unfold Driver.taskletStep at h
  cases ht : d.tk with
  | idle =>
    rw [ht] at h
    cases hs : d.sched <;> simp only [hs, if_true, if_false, Bool.false_eq_true, reduceCtorEq,
      Option.some.injEq] at h
    subst h
    exact .run ht hs
  | start =>
    rw [ht] at h
    cases hv : d.rv.inSection <;> simp only [hv, if_true, if_false, Bool.false_eq_true, reduceCtorEq,
      Option.some.injEq] at h
    subst h
    cases hf : d.q.full
    · exact .readFree ht hv hf
    · exact .readFull ht hv hf
  | call pos =>
    rw [ht] at h
    cases h
    exact .call ht
  | receiving pos frame =>
    rw [ht] at h
    cases hl : d.line <;> simp only [hl, if_true, if_false, Bool.false_eq_true, reduceCtorEq,
      Option.some.injEq] at h
    subst h
    exact .receive ht hl
  | received pos =>
    rw [ht] at h
    cases hv : d.rv.inSection <;> simp only [hv, if_true, if_false, Bool.false_eq_true, reduceCtorEq,
      Option.some.injEq] at h
    subst h
    exact .store ht hv
  | setFull pos =>
    rw [ht] at h
    cases h
    exact .setFull ht
  | notify pos =>
    rw [ht] at h
    cases hv : d.rv.inSection <;> simp only [hv, if_true, if_false, Bool.false_eq_true, reduceCtorEq,
      Option.some.injEq] at h
    subst h
    exact .notify ht hv
  | enable =>
    rw [ht] at h
    cases h
    exact .enable ht

theorem recv_cases (h : d.recvStep = some d') : DriverStep d .recv d' := by
  unfold Driver.recvStep at h
  cases hv : d.rv with
  | idle =>
    rw [hv] at h
    cases h
  | begun code =>
    rw [hv] at h
    dsimp only at h
    by_cases hs : code = codeStart
    · rw [if_pos hs] at h
      cases h
      exact .begunStart hv hs
    · rw [if_neg hs] at h
      by_cases he : code = codeEnd
      · rw [if_pos he] at h
        cases h
        exact .begunEnd hv he
      · rw [if_neg he] at h
        by_cases hc : code < streamLen
        · rw [if_pos hc] at h
          cases h
          exact .begunAck hv hc
        · rw [if_neg hc] at h
          cases h
          exact .begunOther hv hs he hc
  | lockStart code =>
    rw [hv] at h
    cases h
    exact .lockStart hv
  | lockAck code dif =>
    rw [hv] at h
    cases h
    exact .lockAck hv
  | clearFull code =>
    rw [hv] at h
    cases h
    exact .clearFull hv
  | testIrq code =>
    rw [hv] at h
    dsimp only at h
    by_cases hi : d.irq = true
    · rw [if_pos hi] at h
      cases h
      exact .testIrq hv hi
    · rw [if_neg hi] at h
      cases h
      exact .testNoIrq hv (Bool.eq_false_iff.mpr hi)
  | clearIrq code =>
    rw [hv] at h
    cases h
    exact .clearIrq hv
  | schedule code =>
    rw [hv] at h
    cases h
    exact .schedule hv
  | unlock code =>
    rw [hv] at h
    cases h
    exact .unlock hv

/-- **What a step can do.** -/
theorem next_cases (h : d.next e = some d') : DriverStep d e d' := by
  cases e with
  | offer f =>
    by_cases hb : (d.line || d.tk.reading) = true
    · simp only [Driver.next, if_pos hb, reduceCtorEq] at h
    · simp only [Driver.next, if_neg hb, Option.some.injEq] at h
      subst h
      obtain ⟨hl, hr⟩ := Bool.or_eq_false_iff.mp (Bool.eq_false_iff.mpr hb)
      exact .offer f hl hr
  | fall =>
    by_cases hb : (d.line && d.tk.reading) = true
    · simp only [Driver.next, if_pos hb, Option.some.injEq] at h
      subst h
      obtain ⟨hl, hr⟩ := Bool.and_eq_true_iff.mp hb
      exact .fall hl hr
    · simp only [Driver.next, if_neg hb, reduceCtorEq] at h
  | irqHandler =>
    change d.irqStep = some d' at h
    unfold Driver.irqStep at h
    by_cases hel : (d.enabled && d.line) = true
    · rw [if_pos hel] at h
      obtain ⟨he, hl⟩ := Bool.and_eq_true_iff.mp hel
      by_cases hf : d.full = true
      · rw [if_pos hf] at h
        cases h
        exact .irqFull he hl hf
      · rw [if_neg hf] at h
        cases h
        exact .irqSched he hl (Bool.eq_false_iff.mpr hf)
    · rw [if_neg hel] at h
      cases h
  | tasklet junk ok => exact tasklet_cases h
  | scribble f =>
    cases ht : d.tk <;> simp only [Driver.next, ht, reduceCtorEq, Option.some.injEq] at h
    subst h
    exact .scribble f ht
  | touch pos f =>
    cases h
    exact .touch pos f
  | arrive code pid =>
    by_cases hv : d.rv = .idle
    · simp only [Driver.next, if_pos hv, Option.some.injEq] at h
      subst h
      exact .arrive code pid hv
    · simp [Driver.next, hv] at h
  | recv => exact recv_cases h
  | spurious =>
    cases h
    exact .spurious

/-- Each branch is a step. -/
theorem next_of_step (h : DriverStep d e d') : d.next e = some d' := by
  cases h with
  | @begunAck code hv hc =>
    have hs : code ≠ codeStart := fun h => absurd (h ▸ hc) (by decide)
    have he : code ≠ codeEnd := fun h => absurd (h ▸ hc) (by decide)
    simp [Driver.next, Driver.recvStep, hv, hs, he, hc]
  | begunEnd hv hc =>
    have hs : codeEnd ≠ codeStart := by decide
    simp [Driver.next, Driver.recvStep, hv, hc, hs]
  | _ => simp_all [Driver.next, Driver.taskletStep, Driver.recvStep, Driver.irqStep]

end Cases

end WifiOsc
