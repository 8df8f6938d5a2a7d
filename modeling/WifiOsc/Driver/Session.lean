/-
  File:      WifiOsc/Driver/Session.lean
  Subject:   DRIVER AND USER THREAD. The handlers of Driver/Handlers.lean, the thread
             `Udp_sendThread_t` (LINUX/package/dso_mthread/src/dso_test_user.c), and netlink between
             them as two FIFOs.

  The thread reads `front`, sends 0xffff, and then for each notification forwards the slots up to it
  and sends back how far it has come. `sendUdp_t` clears the first byte of the slot it sends, if
  there is a socket to send to. A session may end (0xfffe) and another one begin.

  Notifications carry a number of their own, and the acknowledgement of a notification carries the
  same number: `tag`, `cur`, `sent`, `acked`, `active` and `forwarded` are for statements only; no
  step of the driver or of the thread reads them.

  * `System`, `System.next`, `SysStep`: states and steps;
  * `System.Outstanding`: a notification is sent, not acknowledged, and on its way to be;
  * `SessionInv`: the newest one is, while `hasSend` is up in a session;
  * `no_lost_wakeup`: the driver never stops for good.
-/
import WifiOsc.Driver.Runs

namespace WifiOsc

open Basis

/-! ## 1. States -/

/-- What may happen besides: sessions that end, foreign scheduling of the tasklet, failing sends. -/
structure Setting where
  /-- The user's netlink address. -/
  pid : Nat
  pid_pos : 0 < pid
  quits : Bool
  spurious : Bool
  fails : Bool

/-- A notification. -/
structure Note where
  pos : Nat
  tag : Nat
  deriving DecidableEq

/-- A message to the driver; `tag` is the notification it acknowledges. -/
structure Msg where
  code : Int
  tag : Option Nat
  deriving DecidableEq

/-- Where `Udp_sendThread_t` is. -/
inductive UserPc where
  | off
  /-- In `netlink_recv_signal`. -/
  | waiting
  /-- In the loop, with `count` slots still to forward for the notification `tag`. -/
  | forwarding (tag count : Nat)
  /-- `last_front` has moved on: before `sendUdp_t`, with `slot` in `data_frame_t`. -/
  | sending (tag count slot : Nat)
  deriving DecidableEq

structure System where
  d : Driver
  user : UserPc
  /-- `last_front`. -/
  lastFront : Nat
  /-- Notifications on their way to the user, oldest first. -/
  up : List Note
  /-- Messages on their way to the driver, oldest first. -/
  down : List Msg
  /-- The notification acknowledged by the message that `netlink_recv_msg` works on. -/
  cur : Option Nat
  /-- How many notifications have been sent. -/
  sent : Nat
  /-- The notifications acknowledged so far. -/
  acked : List Nat
  /-- 0xffff has been processed, and no 0xfffe since. -/
  active : Bool
  /-- The frames the user has forwarded, as it found them in their slots. -/
  forwarded : List GpioDataFrame

def System.init (dataspace : Nat → GpioDataFrame) : System where
  d := .init dataspace
  user := .off
  lastFront := 0
  up := []
  down := []
  cur := none
  sent := 0
  acked := []
  active := false
  forwarded := []

/-! ## 2. Steps -/

/-- The code of the message in work. -/
def RecvPc.code : RecvPc → Int
  | .idle => 0
  | .begun code | .lockStart code | .lockAck code _ | .clearFull code | .testIrq code
  | .clearIrq code | .schedule code | .unlock code => code

inductive SysEvent where
  /-- A step of the driver or of the hardware. -/
  | driver (e : DriverEvent)
  /-- The oldest message reaches the driver. -/
  | deliver
  /-- A session begins. -/
  | start
  /-- The user receives a notification. -/
  | take
  /-- The user turns to the next slot. -/
  | fetch
  /-- It forwards the slot; `live`: to at least one socket. -/
  | forward (live : Bool)
  /-- The user sends back its position. -/
  | ack
  /-- The session ends. -/
  | quit

/-- `(rear+Stream_Len-last_front)%(Stream_Len)`. -/
def loopCount (rear lastFront : Nat) : Nat := (rear + streamLen - lastFront) % streamLen

/-- `data_frame_t->data[0] = 0x00`. -/
def clearFirst (f : GpioDataFrame) : GpioDataFrame := { f with data := Function.update f.data 0 0 }

@[simp] theorem clearFirst_clearFirst (f : GpioDataFrame) : clearFirst (clearFirst f) = clearFirst f := by
  simp [clearFirst]

/-- The driver's own events; messages and writes of the user come through the user. -/
def Setting.allows (σ : Setting) : DriverEvent → Bool
  | .tasklet _ ok => ok || σ.fails
  | .spurious => σ.spurious
  | .arrive _ _ | .touch _ _ => false
  | .offer _ | .fall | .irqHandler | .scribble _ | .recv => true

namespace System

/-- A step of the driver, with what it sends. -/
def handOver (s : System) (e : DriverEvent) (d' : Driver) : System :=
  { s with
    d := d'
    up := s.up ++ ((s.d.sends e).map fun pos => ⟨pos, s.sent⟩).toList
    sent := s.sent + (s.d.sends e).toList.length }

/-- `netlink_recv_msg` returns from a message of the given code. -/
def finish (s : System) (d' : Driver) (code : Int) : System :=
  { s with
    d := d'
    acked := s.acked ++ s.cur.toList
    cur := none
    active := if code = codeStart then true else if code = codeEnd then false else s.active }

def next (σ : Setting) (s : System) : SysEvent → Option System
  | .driver e =>
      if σ.allows e then
        (s.d.next e).map fun d' =>
          match e with
          | .recv => if d'.rv = .idle then s.finish d' s.d.rv.code else s.handOver .recv d'
          | e => s.handOver e d'
      else none
  | .deliver =>
      match s.down with
      | [] => none
      | m :: rest =>
          (s.d.next (.arrive m.code σ.pid)).map fun d' =>
            { s with d := d', down := rest, cur := m.tag }
  | .start =>
      match s.user with
      | .off =>
          some { s with
            user := .waiting, lastFront := s.d.q.front, down := s.down ++ [⟨codeStart, none⟩] }
      | _ => none
  | .take =>
      match s.user, s.up with
      | .waiting, n :: rest =>
          some { s with user := .forwarding n.tag (loopCount n.pos s.lastFront), up := rest }
      | _, _ => none
  | .fetch =>
      match s.user with
      | .forwarding tag (count + 1) =>
          some { s with
            user := .sending tag count s.lastFront, lastFront := (s.lastFront + 1) % streamLen }
      | _ => none
  | .forward live =>
      match s.user with
      | .sending tag count slot =>
          let f := s.d.q.dataspace slot
          some { s with
            d := if live then s.d.writeSlot slot (clearFirst f) else s.d
            user := .forwarding tag count, forwarded := s.forwarded ++ [f] }
      | _ => none
  | .ack =>
      match s.user with
      | .forwarding tag 0 =>
          some { s with user := .waiting, down := s.down ++ [⟨s.lastFront, some tag⟩] }
      | _ => none
  | .quit =>
      if σ.quits ∧ s.user ≠ .off then
        some { s with user := .off, down := s.down ++ [⟨codeEnd, none⟩] }
      else none

end System

/-! ## 3. What a step can do -/

inductive SysStep (σ : Setting) (s : System) : System → Prop where
  | driver (e : DriverEvent) (d' : Driver) (ha : σ.allows e = true) (h : DriverStep s.d e d')
      (hret : e = .recv → d'.rv ≠ .idle) : SysStep σ s (s.handOver e d')
  | return_ (d' : Driver) (h : DriverStep s.d .recv d') (hret : d'.rv = .idle) :
      SysStep σ s (s.finish d' s.d.rv.code)
  | deliver (m : Msg) (rest : List Msg) (hd : s.down = m :: rest) (hv : s.d.rv = .idle) :
      SysStep σ s { s with
        d := { s.d with sendPid := σ.pid, rv := .begun m.code }, down := rest, cur := m.tag }
  | start (hu : s.user = .off) :
      SysStep σ s { s with
        user := .waiting, lastFront := s.d.q.front, down := s.down ++ [⟨codeStart, none⟩] }
  | take (n : Note) (rest : List Note) (hu : s.user = .waiting) (hup : s.up = n :: rest) :
      SysStep σ s { s with
        user := .forwarding n.tag (loopCount n.pos s.lastFront), up := rest }
  | fetch (tag count : Nat) (hu : s.user = .forwarding tag (count + 1)) :
      SysStep σ s { s with
        user := .sending tag count s.lastFront, lastFront := (s.lastFront + 1) % streamLen }
  | forward (live : Bool) (tag count slot : Nat) (hu : s.user = .sending tag count slot) :
      SysStep σ s { s with
        d := if live then s.d.writeSlot slot (clearFirst (s.d.q.dataspace slot)) else s.d
        user := .forwarding tag count
        forwarded := s.forwarded ++ [s.d.q.dataspace slot] }
  | ack (tag : Nat) (hu : s.user = .forwarding tag 0) :
      SysStep σ s { s with user := .waiting, down := s.down ++ [⟨s.lastFront, some tag⟩] }
  | quit (hq : σ.quits = true) (hu : s.user ≠ .off) :
      SysStep σ s { s with user := .off, down := s.down ++ [⟨codeEnd, none⟩] }

/-- A step of the driver: the last one of `netlink_recv_msg`, or any other. -/
theorem next_driver_cases {σ : Setting} {s s' : System} {e : DriverEvent}
    (h : s.next σ (.driver e) = some s') :
    σ.allows e = true ∧ ∃ d', DriverStep s.d e d' ∧
      ((e = .recv ∧ d'.rv = .idle ∧ s' = s.finish d' s.d.rv.code) ∨
        ((e = .recv → d'.rv ≠ .idle) ∧ s' = s.handOver e d')) := by
  by_cases ha : σ.allows e = true
  · simp only [System.next, if_pos ha] at h
    obtain ⟨d', hd, rfl⟩ := Option.map_eq_some_iff.mp h
    refine ⟨ha, d', next_cases hd, ?_⟩
    cases e with
    | recv =>
      by_cases hret : d'.rv = .idle
      · exact Or.inl ⟨rfl, hret, if_pos hret⟩
      · exact Or.inr ⟨fun _ => hret, if_neg hret⟩
    | _ => exact Or.inr ⟨nofun, rfl⟩
  · simp only [System.next, if_neg ha, reduceCtorEq] at h

/-- A message is taken up between two calls of `netlink_recv_msg`. -/
theorem next_deliver_cases {σ : Setting} {s s' : System} (h : s.next σ .deliver = some s') :
    ∃ m rest, s.down = m :: rest ∧ s.d.rv = .idle ∧
      s' = { s with
        d := { s.d with sendPid := σ.pid, rv := .begun m.code }, down := rest, cur := m.tag } := by
  cases hd : s.down with
  | nil => simp only [System.next, hd, reduceCtorEq] at h
  | cons m rest =>
    simp only [System.next, hd] at h
    obtain ⟨d', hd', rfl⟩ := Option.map_eq_some_iff.mp h
    cases next_cases hd' with
    | arrive _ _ hv => exact ⟨m, rest, rfl, hv, rfl⟩

theorem sysNext_cases {σ : Setting} {s s' : System} {e : SysEvent} (h : s.next σ e = some s') :
    SysStep σ s s' := by
  cases e with
  | driver e =>
    obtain ⟨ha, d', hstep, ⟨rfl, hret, rfl⟩ | ⟨hret, rfl⟩⟩ := next_driver_cases h
    · exact .return_ d' hstep hret
    · exact .driver e d' ha hstep hret
  | deliver =>
    obtain ⟨m, rest, hd, hv, rfl⟩ := next_deliver_cases h
    exact .deliver m rest hd hv
  | start =>
    cases hu : s.user <;> simp only [System.next, hu, reduceCtorEq, Option.some.injEq] at h
    subst h
    exact .start hu
  | take =>
    cases hu : s.user <;> cases hup : s.up <;>
      simp only [System.next, hu, hup, reduceCtorEq, Option.some.injEq] at h
    subst h
    exact .take _ _ hu hup
  | fetch =>
    cases hu : s.user with
    | forwarding tag count =>
      cases count with
      | zero => simp only [System.next, hu, reduceCtorEq] at h
      | succ count =>
        simp only [System.next, hu, Option.some.injEq] at h
        subst h
        exact .fetch tag count hu
    | off | waiting | sending => simp only [System.next, hu, reduceCtorEq] at h
  | forward live =>
    cases hu : s.user <;> simp only [System.next, hu, reduceCtorEq, Option.some.injEq] at h
    subst h
    exact .forward live _ _ _ hu
  | ack =>
    cases hu : s.user with
    | forwarding tag count =>
      cases count with
      | succ count => simp only [System.next, hu, reduceCtorEq] at h
      | zero =>
        simp only [System.next, hu, Option.some.injEq] at h
        subst h
        exact .ack tag hu
    | off | waiting | sending => simp only [System.next, hu, reduceCtorEq] at h
  | quit =>
    by_cases hq : σ.quits ∧ s.user ≠ .off
    · simp only [System.next, if_pos hq, Option.some.injEq] at h
      subst h
      exact .quit hq.1 hq.2
    · simp only [System.next, if_neg hq, reduceCtorEq] at h

/-! ## 4. Runs -/

def System.Step (σ : Setting) (s s' : System) : Prop := ∃ e, s.next σ e = some s'

/-- The states the system can come to after the driver is loaded. -/
def System.Reachable (σ : Setting) (s : System) : Prop :=
  ∃ dataspace, Relation.ReflTransGen (System.Step σ) (System.init dataspace) s

theorem system_inv {σ : Setting} {I : System → Prop} (h0 : ∀ dataspace, I (System.init dataspace))
    (hstep : ∀ s s', I s → SysStep σ s s' → I s') {s : System} (h : s.Reachable σ) : I s := by
  obtain ⟨dataspace, h⟩ := h
  exact reach_inv (fun s s' hI ⟨_, he⟩ => hstep s s' hI (sysNext_cases he)) (h0 dataspace) h

/-- The state after a list of events, if all of them are possible. -/
def System.runs (σ : Setting) (s : System) : List SysEvent → Option System
  | [] => some s
  | e :: es => (s.next σ e).bind fun s' => s'.runs σ es

theorem system_reaches {σ : Setting} {s s' : System} {es : List SysEvent}
    (h : s.runs σ es = some s') : Relation.ReflTransGen (System.Step σ) s s' := by
  induction es generalizing s with
  | nil =>
    cases h
    exact .refl
  | cons e es ih =>
    obtain ⟨s1, h1, h2⟩ := Option.bind_eq_some_iff.mp h
    exact .head ⟨e, h1⟩ (ih h2)

/-- Every step of the system is a step of the driver, or leaves the driver alone. -/
theorem sysStep_driver {σ : Setting} {s s' : System} (hs : SysStep σ s s') :
    s'.d = s.d ∨ ∃ e, (e = .spurious → σ.spurious = true) ∧ DriverStep s.d e s'.d := by
  cases hs with
  | driver e d' ha h hret =>
    refine Or.inr ⟨e, fun he => ?_, h⟩
    subst he
    exact ha
  | return_ d' h hret => exact Or.inr ⟨.recv, (by cases ·), h⟩
  | deliver m rest hd hv => exact Or.inr ⟨.arrive m.code σ.pid, (by cases ·), .arrive _ _ hv⟩
  | forward live tag count slot hu =>
    cases live with
    | true => exact Or.inr ⟨.touch _ _, (by cases ·), .touch _ _⟩
    | false => exact Or.inl rfl
  | start | take | fetch | ack | quit => exact Or.inl rfl

/-- What holds of the driver on its own holds of it in the system. -/
theorem driver_reachable {σ : Setting} (hσ : σ.spurious = false) {s : System}
    (h : s.Reachable σ) : s.d.Reachable := by
  refine system_inv (I := fun s => s.d.Reachable) (fun dataspace => ⟨dataspace, .refl⟩) ?_ h
  rintro s s' ⟨dataspace, hr⟩ hs
  rcases sysStep_driver hs with he | ⟨e, hsp, hd⟩
  · exact ⟨dataspace, he ▸ hr⟩
  · refine ⟨dataspace, hr.tail ⟨e, fun he => ?_, next_of_step hd⟩⟩
    rw [hsp he] at hσ
    cases hσ

/-! ## 5. What is under way -/

/-- The notifications the user has taken and not answered. -/
def UserPc.tags : UserPc → List Nat
  | .forwarding tag _ | .sending tag _ _ => [tag]
  | .off | .waiting => []

/-- The way of a notification, from the end: acknowledged, in work, on its way back, at the user, on
    its way there. -/
def System.tags (s : System) : List Nat :=
  s.acked ++ s.cur.toList ++ s.down.filterMap Msg.tag ++ s.user.tags ++ s.up.map Note.tag

/-- A code the user sends. -/
def Code (code : Int) : Prop := code = codeStart ∨ code = codeEnd ∨ (0 ≤ code ∧ code < 64)

theorem code_idle : Code RecvPc.idle.code := Or.inr (Or.inr ⟨Int.le_refl 0, by decide⟩)

/-- The notification will be answered, or the session will end. -/
def System.InFlight (s : System) (tag : Nat) : Prop :=
  (∃ n ∈ s.up, n.tag = tag) ∨ tag ∈ s.user.tags ∨ (∃ m ∈ s.down, m.tag = some tag) ∨
    s.cur = some tag ∨ (∃ m ∈ s.down, m.code = codeEnd) ∨ s.d.rv.code = codeEnd

/-- Sent, not acknowledged, and not forgotten either. -/
structure System.Outstanding (s : System) (tag : Nat) : Prop where
  sent : tag < s.sent
  open_ : tag ∉ s.acked
  inFlight : s.InFlight tag

section Session

variable {σ : Setting} {s s' : System} {d d' : Driver} {e : DriverEvent}

/-! ## 6. Steps of the driver, seen from the system -/

theorem handOver_quiet (h : s.d.sends e = none) : s.handOver e d' = { s with d := d' } := by
  simp [System.handOver, h]

theorem handOver_sends {pos : Nat} (h : s.d.sends e = some pos) :
    s.handOver e d' =
      { s with d := d', up := s.up ++ [⟨pos, s.sent⟩], sent := s.sent + 1 } := by
  simp [System.handOver, h]

/-- A notification is sent in the third section of the tasklet only. -/
theorem sends_cases {pos : Nat} (h : d.sends e = some pos) (hs : DriverStep d e d') :
    d.tk = .notify pos ∧ d.hasSend = false ∧ d.sendPid ≠ 0 ∧ d.rv.inSection = false ∧
      d' = { d with hasSend := true, tk := .enable } := by
  cases hs <;> simp_all [Driver.sends]

/-- `hasSend` goes up together with a notification, if there is someone to send it to. -/
theorem hasSend_up (hs : DriverStep d e d') (ha : σ.allows e = true) (hσ : σ.fails = false)
    (hpid : d.sendPid ≠ 0) (hquiet : d.sends e = none) (hup : d'.hasSend = true) :
    d.hasSend = true := by
  cases hs with
  | notify ht hv =>
    simp_all [Driver.sends, Setting.allows]
  | lockStart hv | lockAck hv => cases hup
  | _ => exact hup

/-- Until it returns, `netlink_recv_msg` works on one message. -/
theorem code_kept (hs : DriverStep d e d') (ha : σ.allows e = true)
    (hret : e = .recv → d'.rv ≠ .idle) :
    d'.rv.code = d.rv.code ∧ (d'.rv = .idle ↔ d.rv = .idle) := by
  cases hs <;> simp_all [Setting.allows, RecvPc.code, Driver.writeSlot]

/-- It returns from a section, from an end message, or from a code nobody sends. -/
theorem return_cases (hs : DriverStep d .recv d') (hret : d'.rv = .idle) :
    (d.rv.inSection = true ∧ d' = { d with rv := .idle }) ∨
      (d.rv.code = codeEnd ∧ d' = { d with sendPid := 0, rv := .idle }) ∨ ¬ Code d.rv.code := by
  cases hs with
  | unlock hv => exact Or.inl ⟨by simp [hv], rfl⟩
  | begunEnd hv hc => exact Or.inr (Or.inl ⟨by simpa [hv, RecvPc.code] using hc, rfl⟩)
  | @begunOther code hv hs he hc =>
    refine Or.inr (Or.inr fun h => ?_)
    rw [hv] at h
    rcases h with h | h | ⟨_, h⟩
    · exact hs h
    · exact he h
    · exact hc h
  | _ => cases hret

/-! ## 7. The invariant -/

@[simp] theorem mem_tags {tag : Nat} : tag ∈ s.tags ↔
    tag ∈ s.acked ∨ s.cur = some tag ∨ (∃ m ∈ s.down, m.tag = some tag) ∨ tag ∈ s.user.tags ∨
      ∃ n ∈ s.up, n.tag = tag := by
  simp [System.tags]

/-- A notification goes its way, or is the one just sent. -/
theorem tags_step (hs : SysStep σ s s') :
    s.sent ≤ s'.sent ∧ ∀ tag ∈ s'.tags, tag ∈ s.tags ∨ tag = s.sent ∧ s'.sent = s.sent + 1 := by
  cases hs with
  | driver e d' ha h hret =>
    cases hsend : s.d.sends e with
    | none =>
      rw [handOver_quiet hsend]
      exact ⟨Nat.le_refl _, fun tag ht => Or.inl ht⟩
    | some pos =>
      rw [handOver_sends hsend]
      refine ⟨Nat.le_succ _, ?_⟩
      intro tag ht
      simp only [mem_tags, List.mem_append, List.mem_singleton] at ht ⊢
      grind
  | return_ d' h hret =>
    refine ⟨Nat.le_refl _, fun tag ht => Or.inl ?_⟩
    simp only [mem_tags, System.finish, List.mem_append, Option.mem_toList] at ht ⊢
    grind
  | deliver m rest hd hv =>
    refine ⟨Nat.le_refl _, fun tag ht => Or.inl ?_⟩
    simp only [mem_tags, hd, List.mem_cons] at ht ⊢
    grind
  | start hu | quit hq hu =>
    refine ⟨Nat.le_refl _, fun tag ht => Or.inl ?_⟩
    simp only [mem_tags, List.mem_append, List.mem_singleton, UserPc.tags] at ht ⊢
    grind
  | take n rest hu hup =>
    refine ⟨Nat.le_refl _, fun tag ht => Or.inl ?_⟩
    simp only [mem_tags, hup, List.mem_cons, UserPc.tags] at ht ⊢
    grind
  | fetch tag count hu | forward live tag count slot hu =>
    refine ⟨Nat.le_refl _, fun tag ht => Or.inl ?_⟩
    simp only [mem_tags, hu, UserPc.tags] at ht ⊢
    exact ht
  | ack tag hu =>
    refine ⟨Nat.le_refl _, fun tag ht => Or.inl ?_⟩
    simp only [mem_tags, hu, List.mem_append, List.mem_singleton, UserPc.tags] at ht ⊢
    grind

/-- The codes on their way and in work, and the positions they come from. -/
structure CodeInv (s : System) : Prop where
  down : ∀ m ∈ s.down, Code m.code
  code : Code s.d.rv.code
  ack : ∀ code dif, s.d.rv = .lockAck code dif → code < 64
  front : s.d.q.front < 64
  lastFront : s.lastFront < 64

theorem ack_kept (hs : DriverStep d e d') (h : ∀ code dif, d.rv = .lockAck code dif → code < 64) :
    ∀ code dif, d'.rv = .lockAck code dif → code < 64 := by
  cases hs with
  | begunAck hv hc =>
    rintro _ _ ⟨⟩
    exact hc
  | _ => simp_all [Driver.writeSlot]

theorem front_kept (hs : DriverStep d e d') (hcode : Code d.rv.code)
    (hack : ∀ code dif, d.rv = .lockAck code dif → code < 64) (hf : d.q.front < 64) :
    d'.q.front < 64 := by
  cases hs with
  | @lockAck code dif hv =>
    rw [hv] at hcode
    change Code code at hcode
    have hlt := hack code dif hv
    have h0 : 0 ≤ code := by
      rcases hcode with rfl | rfl | ⟨h, _⟩
      · decide
      · decide
      · exact h
    show toU16 code < 64
    unfold toU16
    omega
  | _ => exact hf

theorem codes_step (h : CodeInv s) (hs : SysStep σ s s') : CodeInv s' := by
  obtain ⟨hdown, hcode, hack, hfront, hlast⟩ := h
  have hpush : ∀ m, Code m.code → ∀ m' ∈ s.down ++ [m], Code m'.code := by
    intro m hm m' hm'
    rcases List.mem_append.mp hm' with h | h
    · exact hdown m' h
    · exact List.mem_singleton.mp h ▸ hm
  cases hs with
  | driver e d' ha h hret =>
    exact ⟨hdown, (code_kept h ha hret).1 ▸ hcode, ack_kept h hack, front_kept h hcode hack hfront,
      hlast⟩
  | return_ d' h hret =>
    refine ⟨hdown, ?_, ack_kept h hack, front_kept h hcode hack hfront, hlast⟩
    show Code d'.rv.code
    rw [hret]
    exact code_idle
  | deliver m rest hd hv =>
    rw [hd] at hdown
    exact ⟨fun m' hm' => hdown m' (List.mem_cons_of_mem _ hm'), hdown m List.mem_cons_self,
      (fun _ _ h => by cases h), hfront, hlast⟩
  | start hu => exact ⟨hpush _ (Or.inl rfl), hcode, hack, hfront, hfront⟩
  | take n rest hu hup => exact ⟨hdown, hcode, hack, hfront, hlast⟩
  | fetch tag count hu => exact ⟨hdown, hcode, hack, hfront, Nat.mod_lt _ (Nat.succ_pos 63)⟩
  | forward live tag count slot hu =>
    cases live with
    | true => exact ⟨hdown, hcode, hack, hfront, hlast⟩
    | false => exact ⟨hdown, hcode, hack, hfront, hlast⟩
  | ack tag hu =>
    have hlt : (s.lastFront : Int) < 64 := by exact_mod_cast hlast
    exact ⟨hpush _ (Or.inr (Or.inr ⟨Int.natCast_nonneg _, hlt⟩)), hcode, hack, hfront, hlast⟩
  | quit hq hu => exact ⟨hpush _ (Or.inr (Or.inl rfl)), hcode, hack, hfront, hlast⟩

/-- What is said about the one message in work, and about the newest notification. -/
structure SessionInv (s : System) : Prop where
  tags : ∀ tag ∈ s.tags, tag < s.sent
  cur : s.d.rv = .idle → s.cur = none
  pid : s.active = true ∨ s.d.rv ≠ .idle → s.d.sendPid ≠ 0
  newest : s.active = true → s.d.hasSend = true → s.Outstanding (s.sent - 1)

/-- The part of it that does not ask whether a send has failed. -/
structure WayInv (s : System) : Prop where
  tags : ∀ tag ∈ s.tags, tag < s.sent
  cur : s.d.rv = .idle → s.cur = none
  pid : s.active = true ∨ s.d.rv ≠ .idle → s.d.sendPid ≠ 0

theorem pid_kept (hs : DriverStep d e d') (ha : σ.allows e = true)
    (hret : e = .recv → d'.rv ≠ .idle) : d'.sendPid = d.sendPid := by
  cases hs <;> simp_all [Setting.allows, Driver.writeSlot]

/-- `netlink_recv_msg` returns. -/
def System.Returned (s s' : System) : Prop :=
  ∃ d', DriverStep s.d .recv d' ∧ d'.rv = .idle ∧ s' = s.finish d' s.d.rv.code

theorem tags_lt (h : WayInv s) (hs : SysStep σ s s') : ∀ tag ∈ s'.tags, tag < s'.sent := by
  intro tag ht
  obtain ⟨hle, hcases⟩ := tags_step hs
  rcases hcases tag ht with hold | ⟨rfl, hsent⟩
  · exact Nat.lt_of_lt_of_le (h.tags tag hold) hle
  · omega

/-- A message has been worked on: after a section `send_pid` stands, after an end message there is no
    session. -/
theorem pid_return (hc : CodeInv s) (h : WayInv s) (hret : s.Returned s') (hact : s'.active = true) :
    s'.d.sendPid ≠ 0 ∧ s.d.rv.inSection = true ∧ s'.d.hasSend = s.d.hasSend := by
  obtain ⟨d', hs, hidle, rfl⟩ := hret
  rcases return_cases hs hidle with ⟨hsec, rfl⟩ | ⟨hcode, rfl⟩ | hcode
  · have hrv : s.d.rv ≠ .idle := fun hi => by simp [hi] at hsec
    exact ⟨h.pid (Or.inr hrv), hsec, rfl⟩
  · simp [System.finish, hcode, codeEnd, codeStart] at hact
  · exact absurd hc.code hcode

theorem way_step (hc : CodeInv s) (h : WayInv s) (hs : SysStep σ s s') : WayInv s' := by
  have htags := tags_lt h hs
  cases hs with
  | driver e d' ha hd hret =>
    obtain ⟨-, hidle⟩ := code_kept hd ha hret
    refine ⟨htags, fun hv => h.cur (hidle.mp hv), ?_⟩
    intro hor
    show d'.sendPid ≠ 0
    rw [pid_kept hd ha hret]
    exact h.pid (hor.imp id fun hv hi => hv (hidle.mpr hi))
  | return_ d' hd hret =>
    refine ⟨htags, fun _ => rfl, ?_⟩
    intro hor
    rcases hor with hact | hrv
    · exact (pid_return hc h ⟨d', hd, hret, rfl⟩ hact).1
    · exact absurd hret hrv
  | deliver m rest hd hv => exact ⟨htags, (fun hv => by cases hv), fun _ => σ.pid_pos.ne'⟩
  | forward live tag count slot hu =>
    cases live with
    | true => exact ⟨htags, h.cur, h.pid⟩
    | false => exact ⟨htags, h.cur, h.pid⟩
  | start hu | take n rest hu hup | fetch tag count hu | ack tag hu | quit hq hu =>
    exact ⟨htags, h.cur, h.pid⟩

/-! ## 8. What stays under way -/

/-- A notification under way stays under way, until its message has been worked on. -/
theorem inFlight_driver {tag : Nat} (h : s.InFlight tag) (hcode : d'.rv.code = s.d.rv.code) :
    System.InFlight { s with d := d' } tag := by
  unfold System.InFlight at h ⊢
  rw [hcode]
  exact h

/-- Where netlink hands a message over, a notification moves along. -/
theorem inFlight_deliver {tag : Nat} {m : Msg} {rest : List Msg} (hd : s.down = m :: rest)
    (hv : s.d.rv = .idle) (hcur : s.cur = none) (h : s.InFlight tag) (hcode : d'.rv.code = m.code) :
    System.InFlight { s with d := d', down := rest, cur := m.tag } tag := by
  have hidle : RecvPc.code .idle ≠ codeEnd := by decide
  simp only [System.InFlight, hd, hcur, hcode, hv] at h ⊢
  grind

theorem inFlight_handOver {tag : Nat} (h : s.InFlight tag) (hcode : d'.rv.code = s.d.rv.code) :
    (s.handOver e d').InFlight tag := by
  cases hsend : s.d.sends e with
  | none =>
    rw [handOver_quiet hsend]
    exact inFlight_driver h hcode
  | some pos =>
    rw [handOver_sends hsend]
    refine (inFlight_driver h hcode).imp_left ?_
    exact fun ⟨n, hn, ht⟩ => ⟨n, List.mem_append_left _ hn, ht⟩

/-- **What is outstanding stays so**, but for the return of `netlink_recv_msg`. -/
theorem outstanding_step (h : WayInv s) (hs : SysStep σ s s') :
    s.Returned s' ∨ ∀ tag, s.Outstanding tag → s'.Outstanding tag := by
  have hsent := (tags_step hs).1
  have hkeep : s'.acked = s.acked → (∀ tag, s.InFlight tag → s'.InFlight tag) →
      ∀ tag, s.Outstanding tag → s'.Outstanding tag := fun hacked hfl tag ho =>
    ⟨Nat.lt_of_lt_of_le ho.sent hsent, hacked ▸ ho.open_, hfl tag ho.inFlight⟩
  cases hs with
  | driver e d' ha hd hret =>
    exact Or.inr (hkeep rfl fun tag hfl => inFlight_handOver hfl (code_kept hd ha hret).1)
  | return_ d' hd hret => exact Or.inl ⟨d', hd, hret, rfl⟩
  | deliver m rest hd hv =>
    exact Or.inr (hkeep rfl fun tag hfl => inFlight_deliver hd hv (h.cur hv) hfl rfl)
  | start hu =>
    refine Or.inr (hkeep rfl fun tag hfl => ?_)
    simp only [System.InFlight, hu, List.mem_append, List.mem_singleton, UserPc.tags] at hfl ⊢
    grind
  | take n rest hu hup =>
    refine Or.inr (hkeep rfl fun tag hfl => ?_)
    simp only [System.InFlight, hu, hup, UserPc.tags] at hfl ⊢
    grind
  | fetch tag count hu =>
    refine Or.inr (hkeep rfl fun tag hfl => ?_)
    simp only [System.InFlight, hu, UserPc.tags] at hfl ⊢
    exact hfl
  | forward live tag count slot hu =>
    cases live <;>
    · refine Or.inr (hkeep rfl fun tag hfl => ?_)
      simp only [System.InFlight, hu, UserPc.tags] at hfl ⊢
      exact hfl
  | ack tag hu =>
    refine Or.inr (hkeep rfl fun tag hfl => ?_)
    simp only [System.InFlight, hu, List.mem_append, List.mem_singleton, UserPc.tags] at hfl ⊢
    grind
  | quit hq hu =>
    refine Or.inr (hkeep rfl fun tag _ => ?_)
    have hmem : (⟨codeEnd, none⟩ : Msg) ∈ s.down ++ [⟨codeEnd, none⟩] :=
      List.mem_append_right _ List.mem_cons_self
    exact Or.inr (Or.inr (Or.inr (Or.inr (Or.inl ⟨_, hmem, rfl⟩))))

/-- The notification just sent is outstanding. -/
theorem outstanding_sent (h : WayInv s) {pos : Nat} (hsend : s.d.sends e = some pos) :
    (s.handOver e d').Outstanding s.sent := by
  rw [handOver_sends hsend]
  refine ⟨Nat.lt_succ_self _, fun hmem => ?_, Or.inl ⟨⟨pos, s.sent⟩, by simp, rfl⟩⟩
  exact Nat.lt_irrefl _ (h.tags s.sent (by simpa using Or.inl hmem))

/-- A step hands something over, returns from `netlink_recv_msg`, or leaves the flags alone. -/
theorem sysStep_flags (hs : SysStep σ s s') :
    (∃ e d', σ.allows e = true ∧ DriverStep s.d e d' ∧ s' = s.handOver e d') ∨ s.Returned s' ∨
      (s'.sent = s.sent ∧ s'.d.hasSend = s.d.hasSend ∧ s'.active = s.active) := by
  cases hs with
  | driver e d' ha hd hret => exact Or.inl ⟨e, d', ha, hd, rfl⟩
  | return_ d' hd hret => exact Or.inr (Or.inl ⟨d', hd, hret, rfl⟩)
  | forward live tag count slot hu => cases live <;> exact Or.inr (Or.inr ⟨rfl, rfl, rfl⟩)
  | deliver | start | take | fetch | ack | quit => exact Or.inr (Or.inr ⟨rfl, rfl, rfl⟩)

/-- After the return of `netlink_recv_msg`, `hasSend` is down in a session. -/
theorem hasSend_return (hc : CodeInv s) (hf : FlagInv s.d) (h : WayInv s) (hret : s.Returned s')
    (hact : s'.active = true) : s'.d.hasSend = false := by
  obtain ⟨-, hsec, hsend⟩ := pid_return hc h hret hact
  exact hsend.trans (hf.section_ hsec)

/-! ## 9. Where no send fails -/

theorem session_step (hσ : σ.fails = false) (hc : CodeInv s) (hf : FlagInv s.d) (h : SessionInv s)
    (hs : SysStep σ s s') : SessionInv s' := by
  have hway : WayInv s := ⟨h.tags, h.cur, h.pid⟩
  obtain ⟨htags, hcur, hpid⟩ := way_step hc hway hs
  refine ⟨htags, hcur, hpid, ?_⟩
  intro hact hup
  rcases outstanding_step hway hs with hret | hkeep
  · rw [hasSend_return hc hf hway hret hact] at hup
    cases hup
  rcases sysStep_flags hs with ⟨e, d', ha, hd, rfl⟩ | hret | ⟨hsent, hsend, hactive⟩
  · cases hsends : s.d.sends e with
    | some pos =>
      have hnew : (s.handOver e d').Outstanding s.sent := outstanding_sent hway hsends
      rw [handOver_sends hsends] at hnew ⊢
      exact hnew
    | none =>
      have hact' : s.active = true := hact
      have hup' := hasSend_up hd ha hσ (h.pid (Or.inl hact')) hsends hup
      have hsent : (s.handOver e d').sent = s.sent := by rw [handOver_quiet hsends]
      rw [hsent]
      exact hkeep _ (h.newest hact' hup')
  · rw [hasSend_return hc hf hway hret hact] at hup
    cases hup
  · rw [hsent]
    exact hkeep _ (h.newest (hactive ▸ hact) (hsend ▸ hup))

theorem flag_sysStep (hf : FlagInv s.d) (hs : SysStep σ s s') : FlagInv s'.d := by
  rcases sysStep_driver hs with he | ⟨e, -, hd⟩
  · exact he ▸ hf
  · exact flag_step hf hd

theorem codes_init (dataspace : Nat → GpioDataFrame) : CodeInv (System.init dataspace) :=
  ⟨by simp [System.init], code_idle, (fun _ _ h => by cases h), Nat.succ_pos 63, Nat.succ_pos 63⟩

theorem way_init (dataspace : Nat → GpioDataFrame) : WayInv (System.init dataspace) :=
  ⟨by simp [System.init, UserPc.tags], fun _ => rfl, by simp [System.init, Driver.init]⟩

theorem session_inv (hσ : σ.fails = false) (h : s.Reachable σ) : SessionInv s := by
  have hinv : FlagInv s.d ∧ CodeInv s ∧ SessionInv s := by
    refine system_inv (I := fun s => FlagInv s.d ∧ CodeInv s ∧ SessionInv s)
      (fun dataspace => ⟨flag_init dataspace, codes_init dataspace, ?_⟩) ?_ h
    · obtain ⟨htags, hcur, hpid⟩ := way_init dataspace
      exact ⟨htags, hcur, hpid, fun h => by cases h⟩
    · intro s s' ⟨hf, hc, hI⟩ hs
      exact ⟨flag_sysStep hf hs, codes_step hc hs, session_step hσ hc hf hI hs⟩
  exact hinv.2.2

/-! ## 10. No lost wake-up -/

/-- **No lost wake-up**, in every run, with any number of sessions. Outside the section of
    `netlink_recv_msg`: if the interrupt is off and the tasklet neither scheduled nor running, `irq`
    and `full` are up, and in a session there is a notification that was sent, is not acknowledged,
    and is on its way to be. And at the end of the section of each message that wakes it, the
    interrupt is on, or the tasklet is scheduled or running. -/
theorem no_lost_wakeup (hsp : σ.spurious = false) (hσ : σ.fails = false) (h : s.Reachable σ) :
    (s.d.rv.inSection = false → s.d.enabled = false → s.d.sched = false → s.d.tk = .idle →
      s.d.irq = true ∧ s.d.full = true ∧ (s.active = true → ∃ tag, s.Outstanding tag)) ∧
    ∀ code, s.d.rv = .unlock code →
      s.d.enabled = true ∨ s.d.sched = true ∨ s.d.tk ≠ .idle := by
  have hd := driver_reachable hsp h
  refine ⟨fun hsec hen hsch htk => ?_, fun code hv => unlock_wakes hd hv⟩
  obtain ⟨hirq, hfull, hsend⟩ := off_flags hd hsec hen hsch htk
  exact ⟨hirq, hfull, fun hact => ⟨_, (session_inv hσ h).newest hact hsend⟩⟩

/-- Sessions that end, and nothing else out of the ordinary. -/
def Setting.sessions : Setting := ⟨1, Nat.one_pos, true, false, false⟩

/-- A frame of two bytes. -/
def twoBytes (b : Byte) : GpioDataFrame := ⟨2, 54, fun _ => b⟩

/-- A frame comes and is read and stored, and notified of where nothing is under way. -/
def frameRead (b : Byte) : List SysEvent :=
  [.driver (.offer (twoBytes b)), .driver .irqHandler] ++
    List.replicate 3 (.driver (.tasklet emptyFrame true)) ++ [.driver .fall] ++
    List.replicate 4 (.driver (.tasklet emptyFrame true))

/-- A message reaches the driver and is worked on. -/
def messageRead : List SysEvent := .deliver :: List.replicate 5 (.driver .recv)

/-- The user's start message is worked on, and the first frame is read and notified. -/
def firstNote : List SysEvent := .start :: messageRead ++ frameRead 1

/-- The ring is filled, and one more frame is offered: the tasklet leaves it, and the interrupt turns
    itself off. -/
def ringFilled : List SysEvent :=
  firstNote ++ (List.range 62).flatMap (fun k => frameRead (BitVec.ofNat 8 (k + 2))) ++
    [.driver (.offer (twoBytes 64)), .driver .irqHandler] ++
    List.replicate 5 (.driver (.tasklet emptyFrame true)) ++ [.driver .irqHandler]

theorem no_lost_wakeup_ringFilled :
    ∃ s, (System.init fun _ => emptyFrame).runs .sessions ringFilled = some s ∧
      s.d.enabled = false ∧ s.d.sched = false ∧ s.d.tk = .idle ∧ s.d.q.len = 63 ∧
      s.d.irq = true ∧ s.d.full = true ∧ (∃ tag, s.Outstanding tag) ∧
      ∀ code, s.d.rv = .unlock code →
        s.d.enabled = true ∨ s.d.sched = true ∨ s.d.tk ≠ .idle := by
  have hrun : ((System.init fun _ => emptyFrame).runs .sessions ringFilled).map (fun s =>
      (s.d.enabled, s.d.sched, decide (s.d.tk = .idle), s.d.rv.inSection, s.active, s.d.q.len)) =
      some (false, false, true, false, true, 63) := by decide +kernel
  obtain ⟨s, hs, he⟩ := Option.map_eq_some_iff.mp hrun
  simp only [Prod.mk.injEq, decide_eq_true_eq] at he
  obtain ⟨hen, hsch, htk, hsec, hact, hlen⟩ := he
  obtain ⟨hoff, hwake⟩ := no_lost_wakeup rfl rfl ⟨_, system_reaches hs⟩
  obtain ⟨hirq, hfull, hout⟩ := hoff hsec hen hsch htk
  exact ⟨s, hs, hen, hsch, htk, hlen, hirq, hfull, hout hact, hwake⟩

end Session

end WifiOsc
