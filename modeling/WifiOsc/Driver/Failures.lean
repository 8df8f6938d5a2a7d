/-
  File:      WifiOsc/Driver/Failures.lean
  Subject:   SENDS THAT FAIL. `tasklet_handler` raises `hasSend` before it calls
             `netlink_send_signal`, and does not look at what comes back.

  * `Truthful`: in a session, `hasSend` means that a notification is outstanding;
  * `LosesSend`: the step sends in a session, and the send fails; `truthful_step`: it is the only
    step that can break `Truthful`, and does so exactly when nothing else is outstanding;
  * `truthful_iff`: the same for whole runs, with any settings;
  * `lostSend_silent`: the first notification of a session is lost.
-/
import WifiOsc.Driver.Session

namespace WifiOsc

open Basis

namespace System

/-- **`hasSend` is truthful**: in a session and outside the sections of `netlink_recv_msg` it is up
    only while a notification is sent, not acknowledged, and on its way to be. -/
def Truthful (s : System) : Prop :=
  s.active = true → s.d.rv.inSection = false → s.d.hasSend = true → ∃ tag, s.Outstanding tag

/-- In a session, with `hasSend` down, the tasklet's send fails. -/
def LosesSend (s : System) (e : SysEvent) : Prop :=
  ∃ junk pos, e = .driver (.tasklet junk false) ∧ s.d.tk = .notify pos ∧ s.d.hasSend = false ∧
    s.active = true

/-- If a send fails in a session, another notification is outstanding. -/
def SendCovered (s : System) (e : SysEvent) : Prop := s.LosesSend e → ∃ tag, s.Outstanding tag

/-- What the steps below rely on; it holds whether sends fail or not. -/
structure FailInv (s : System) : Prop where
  flags : FlagInv s.d
  codes : CodeInv s
  way : WayInv s

end System

section Failures

variable {σ : Setting} {s s' : System} {d d' : Driver} {e : DriverEvent}

theorem failInv_init (dataspace : Nat → GpioDataFrame) : (System.init dataspace).FailInv :=
  ⟨flag_init dataspace, codes_init dataspace, way_init dataspace⟩

theorem failInv_step (s : System) (e : SysEvent) (s' : System) (h : s.FailInv)
    (hs : s.next σ e = some s') : s'.FailInv :=
  have hstep := sysNext_cases hs
  ⟨flag_sysStep h.flags hstep, codes_step h.codes hstep, way_step h.codes h.way hstep⟩

/-- `hasSend` goes up in the third section of the tasklet only. -/
theorem hasSend_rises (hs : DriverStep d e d') (h0 : d.hasSend = false) (h1 : d'.hasSend = true) :
    ∃ junk ok pos, e = .tasklet junk ok ∧ d.tk = .notify pos := by
  cases hs with
  | @notify junk ok pos ht hv => exact ⟨junk, ok, pos, rfl, ht⟩
  | lockStart hv | lockAck hv => cases h1
  | _ =>
    have h1' : d.hasSend = true := h1
    rw [h0] at h1'
    cases h1'

/-- A step of the driver, as an event of the system. -/
theorem next_driver (h : s.next σ (.driver e) = some s') :
    ∃ d', DriverStep s.d e d' ∧ (s' = s.handOver e d' ∨ e = .recv ∧ s.Returned s') := by
  obtain ⟨_, d', hstep, ⟨rfl, hret, hs'⟩ | ⟨_, hs'⟩⟩ := next_driver_cases h
  · exact ⟨d', hstep, Or.inr ⟨rfl, d', hstep, hret, hs'⟩⟩
  · exact ⟨d', hstep, Or.inl hs'⟩

/-- Every other event leaves the flags alone. -/
theorem next_other {e : SysEvent} (h : s.next σ e = some s') (hne : ∀ e', e ≠ .driver e') :
    s'.d.hasSend = s.d.hasSend ∧ s'.active = s.active := by
  cases e with
  | driver e' => exact absurd rfl (hne e')
  | deliver =>
    obtain ⟨m, rest, _, _, rfl⟩ := next_deliver_cases h
    exact ⟨rfl, rfl⟩
  | forward live =>
    cases hu : s.user <;> simp only [System.next, hu, reduceCtorEq, Option.some.injEq] at h
    subst h
    cases live <;> exact ⟨rfl, rfl⟩
  | start | take | fetch | ack | quit =>
    simp only [System.next] at h
    split at h <;> first | (cases h; exact ⟨rfl, rfl⟩) | cases h

/-- What is outstanding after a send that failed was so before. -/
theorem outstanding_lost {tag : Nat} (hsend : s.d.sends e = none)
    (hcode : d'.rv.code = s.d.rv.code) (h : (s.handOver e d').Outstanding tag) :
    s.Outstanding tag := by
  rw [handOver_quiet hsend] at h
  refine ⟨h.sent, h.open_, ?_⟩
  have hfl := h.inFlight
  unfold System.InFlight at hfl ⊢
  rwa [hcode] at hfl

/-- **One step** keeps `hasSend` truthful exactly when it is not a failing send with nothing else
    outstanding. -/
theorem truthful_step (s : System) (e : SysEvent) (s' : System) (h : s.FailInv) (ht : s.Truthful)
    (hs : s.next σ e = some s') : s'.Truthful ↔ s.SendCovered e := by
  have hstep := sysNext_cases hs
  refine ⟨fun htr hlose => ?_, fun hcov hact hsec hup => ?_⟩
  · obtain ⟨junk, pos, rfl, hnotify, h0, hact⟩ := hlose
    obtain ⟨d', hd, hs'⟩ := next_driver hs
    have hquiet : s.d.sends (.tasklet junk false) = none := by
      simp [Driver.sends, hnotify]
    rcases hs' with rfl | ⟨he, _⟩
    · cases hd with
      | notify ht' hv =>
        obtain ⟨tag, ho⟩ := htr hact hv rfl
        refine ⟨tag, outstanding_lost hquiet ?_ ho⟩
        rfl
      | run ht' | readFull ht' | readFree ht' | call ht' | receive ht' | store ht' | setFull ht'
      | enable ht' =>
        rw [hnotify] at ht'
        cases ht'
    · cases he
  · rcases outstanding_step h.way hstep with hret | hkeep
    · rw [hasSend_return h.codes h.flags h.way hret hact] at hup
      cases hup
    -- what was outstanding still is: so it is enough that something was
    have hfrom : (∃ tag, s.Outstanding tag) → ∃ tag, s'.Outstanding tag := by
      intro hsome
      obtain ⟨tag, ho⟩ := hsome
      exact ⟨tag, hkeep tag ho⟩
    have hold : s.active = true → s.d.hasSend = true → ∃ tag, s'.Outstanding tag := by
      intro hact' hup'
      refine hfrom (ht hact' ?_ hup')
      cases hsec' : s.d.rv.inSection with
      | false => rfl
      | true =>
        rw [h.flags.section_ hsec'] at hup'
        cases hup'
    by_cases hdriver : ∃ e', e = .driver e'
    · obtain ⟨e', rfl⟩ := hdriver
      rcases next_driver hs with ⟨d', hd, rfl | ⟨_, hret⟩⟩
      · have hact' : s.active = true := hact
        cases hsend : s.d.sends e' with
        | some pos => exact ⟨s.sent, outstanding_sent h.way hsend⟩
        | none =>
          cases h0 : s.d.hasSend with
          | true => exact hold hact' h0
          | false =>
            obtain ⟨junk, ok, pos, rfl, hnotify⟩ := hasSend_rises hd h0 hup
            cases ok with
            | true =>
              have hpid := h.way.pid (Or.inl hact')
              simp [Driver.sends, hnotify, h0, hpid] at hsend
            | false => exact hfrom (hcov ⟨junk, pos, rfl, hnotify, h0, hact'⟩)
      · rw [hasSend_return h.codes h.flags h.way hret hact] at hup
        cases hup
    · obtain ⟨hsend, hactive⟩ := next_other hs fun e' he => hdriver ⟨e', he⟩
      exact hold (hactive ▸ hact) (hsend ▸ hup)

/-- **`hasSend` is truthful in every state of a run if and only if**, whenever a send fails in a
    session, another notification is outstanding then. -/
theorem truthful_iff (σ : Setting) (dataspace : Nat → GpioDataFrame) (es : List SysEvent) :
    Always (System.next σ) System.Truthful (System.init dataspace) es ↔
      Each (System.next σ) System.SendCovered (System.init dataspace) es :=
  always_iff_each failInv_step truthful_step (failInv_init dataspace) fun hact => by cases hact

/-- Sends may fail. -/
def Setting.failing : Setting := ⟨1, Nat.one_pos, false, false, true⟩

/-- The user's start message is worked on, the first frame is read, and its notification fails. -/
def lostSend : List SysEvent :=
  [.start, .deliver] ++ List.replicate 5 (.driver .recv) ++
    [.driver (.offer emptyFrame), .driver .irqHandler] ++
    List.replicate 3 (.driver (.tasklet emptyFrame true)) ++ [.driver .fall] ++
    List.replicate 2 (.driver (.tasklet emptyFrame true)) ++
    [.driver (.tasklet emptyFrame false)]

/-- **One lost send silences the driver**: `hasSend` is up in a session in which no notification has
    ever been sent. -/
theorem lostSend_silent :
    (∃ s, Runs (System.next .failing) (System.init fun _ => emptyFrame) lostSend s ∧
      s.active = true ∧ s.d.rv.inSection = false ∧ s.d.hasSend = true ∧ s.sent = 0) ∧
    ¬ Always (System.next .failing) System.Truthful (System.init fun _ => emptyFrame) lostSend := by
  have hrun : ∃ s, Runs (System.next .failing) (System.init fun _ => emptyFrame) lostSend s ∧
      s.active = true ∧ s.d.rv.inSection = false ∧ s.d.hasSend = true ∧ s.sent = 0 := by
    refine ⟨_, ⟨_, rfl, _, rfl, _, rfl, _, rfl, _, rfl, _, rfl, _, rfl, _, rfl, _, rfl, _, rfl, _,
      rfl, _, rfl, _, rfl, _, rfl, _, rfl, _, rfl, rfl⟩, rfl, rfl, rfl, rfl⟩
  refine ⟨hrun, ?_⟩
  intro h
  obtain ⟨s, hr, hact, hsec, hup, hsent⟩ := hrun
  obtain ⟨tag, ho⟩ := h.last hr hact hsec hup
  have hlt := ho.sent
  rw [hsent] at hlt
  exact Nat.not_lt_zero tag hlt

end Failures

end WifiOsc
