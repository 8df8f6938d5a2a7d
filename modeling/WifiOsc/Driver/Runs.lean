/-
  File:      WifiOsc/Driver/Runs.lean
  Subject:   EVERY RUN OF THE HANDLERS, with any hardware and any messages.

  There is one right to run the tasklet: the enabled interrupt, the scheduled or running tasklet, the
  flag `irq`, or `netlink_recv_msg` on its way from that flag to `tasklet_schedule`. Each step hands
  it on. Until `receive_data` is called it also means that the frame is still on the line.

  * `Driver.tokens`, `token_step`: exactly one such right;
  * `FrameInv`, `receive_data_reads_each_frame_once`: no call without a frame, no frame without a
    call, none with two;
  * `FlagInv`: what `full` and `hasSend` say between the sections;
  * `queue_kept_iff_honest`: the queue under messages of any kind.
-/
import WifiOsc.Driver.Handlers

namespace WifiOsc

open Basis

/-! ## 1. Runs -/

/-- One step, of anyone but a foreign scheduler of the tasklet. -/
def Driver.Step (d d' : Driver) : Prop := ∃ e, e ≠ .spurious ∧ d.next e = some d'

/-- The states the driver can come to after it is loaded. -/
def Driver.Reachable (d : Driver) : Prop :=
  ∃ dataspace, Relation.ReflTransGen Driver.Step (Driver.init dataspace) d

theorem reachable_inv {I : Driver → Prop} (h0 : ∀ dataspace, I (Driver.init dataspace))
    (hstep : ∀ d e d', I d → e ≠ .spurious → DriverStep d e d' → I d') {d : Driver}
    (h : d.Reachable) : I d := by
  obtain ⟨dataspace, h⟩ := h
  exact reach_inv (fun d d' hI ⟨e, he, hs⟩ => hstep d e d' hI he (next_cases hs)) (h0 dataspace) h

/-- The state after a list of events, if all of them are possible. -/
def Driver.runs (d : Driver) : List DriverEvent → Option Driver
  | [] => some d
  | e :: es => (d.next e).bind fun d' => d'.runs es

theorem reaches_of_runs {d d' : Driver} {es : List DriverEvent} (h : d.runs es = some d')
    (he : ∀ e ∈ es, e ≠ .spurious) : Relation.ReflTransGen Driver.Step d d' := by
  induction es generalizing d with
  | nil =>
    cases h
    exact .refl
  | cons e es ih =>
    obtain ⟨d1, h1, h2⟩ := Option.bind_eq_some_iff.mp h
    exact .head ⟨e, he e List.mem_cons_self, h1⟩
      (ih h2 fun e' he' => he e' (List.mem_cons_of_mem _ he'))

/-! ## 2. One right to run the tasklet -/

/-- Is `netlink_recv_msg` about to schedule the tasklet? -/
@[simp] def RecvPc.scheduling : RecvPc → Bool
  | .schedule _ => true
  | .idle | .begun _ | .lockStart _ | .lockAck _ _ | .clearFull _ | .testIrq _ | .clearIrq _
  | .unlock _ => false

/-- Is the tasklet running? -/
@[simp] def TaskletPc.running : TaskletPc → Bool
  | .idle => false
  | .start | .call _ | .receiving _ _ | .received _ | .setFull _ | .notify _ | .enable => true

/-- Is it still to call `receive_data`, or to find the queue full? -/
@[simp] def TaskletPc.before : TaskletPc → Bool
  | .start | .call _ => true
  | .idle | .receiving _ _ | .received _ | .setFull _ | .notify _ | .enable => false

def Driver.tokens (d : Driver) : Nat :=
  d.enabled.toNat + d.sched.toNat + d.tk.running.toNat + d.irq.toNat + d.rv.scheduling.toNat

/-- The right has not yet led to a call of `receive_data`. -/
def Driver.waiting (d : Driver) : Bool :=
  d.sched || d.irq || d.rv.scheduling || d.tk.before

structure TokenInv (d : Driver) : Prop where
  one : d.tokens = 1
  clearing : ∀ code, d.rv = .clearIrq code → d.irq = true
  line : d.waiting = true → d.line = true

theorem reading_iff {t : TaskletPc} : t.reading = true ↔ ∃ pos frame, t = .receiving pos frame := by
  cases t <;> simp

section Token

variable {d d' : Driver} {e : DriverEvent}

theorem tokens_step (h : TokenInv d) (he : e ≠ .spurious) (hs : DriverStep d e d') :
    d'.tokens = 1 := by
  have hone := h.one
  have hclear := h.clearing
  unfold Driver.tokens at hone ⊢
  cases hs with
  | spurious => exact absurd rfl he
  | _ => simp_all [Driver.writeSlot] <;> omega

/-- Only `netlink_recv_msg` clears `irq`, and then it is past its test. -/
theorem clearing_step (h : TokenInv d) (hs : DriverStep d e d') :
    ∀ code, d'.rv = .clearIrq code → d'.irq = true := by
  have hclear := h.clearing
  cases hs <;> simp_all [Driver.writeSlot]

/-- While the line falls the tasklet runs, and nobody else has the right. -/
theorem waiting_fall (h : TokenInv d) (hr : d.tk.reading = true) : d.waiting = false := by
  have hone := h.one
  obtain ⟨pos, frame, ht⟩ := reading_iff.mp hr
  unfold Driver.tokens at hone
  cases hsch : d.sched <;> cases hirq : d.irq <;> cases hrv : d.rv.scheduling <;>
    simp_all [Driver.waiting]

theorem line_step (h : TokenInv d) (he : e ≠ .spurious) (hs : DriverStep d e d') :
    d'.waiting = true → d'.line = true := by
  have hline := h.line
  have hclear := h.clearing
  intro hw
  cases hs with
  | spurious => exact absurd rfl he
  | fall hl hr =>
    have := waiting_fall h hr
    rw [show ({ d with line := false } : Driver).waiting = d.waiting from rfl, this] at hw
    cases hw
  | _ => simp_all [Driver.waiting, Driver.writeSlot]

theorem token_step (h : TokenInv d) (he : e ≠ .spurious) (hs : DriverStep d e d') : TokenInv d' :=
  ⟨tokens_step h he hs, clearing_step h hs, line_step h he hs⟩

theorem token_init (dataspace : Nat → GpioDataFrame) : TokenInv (Driver.init dataspace) where
  one := rfl
  clearing := fun _ h => by cases h
  line := by simp [Driver.waiting, Driver.init]

/-- **Exactly one right to run the tasklet**, in every reachable state. -/
theorem token_inv (h : d.Reachable) : TokenInv d :=
  reachable_inv token_init (fun _ _ _ hI he hs => token_step hI he hs) h

end Token

/-! ## 3. Frames -/

/-- How many frames are no longer offered. -/
def Driver.gone (d : Driver) : Nat := d.offered.length - if d.line then 1 else 0

/-- The calls of `receive_data` have found the frames `0, 1, …` on the line, each once: those no
    longer offered, and the one being read. -/
structure FrameInv (d : Driver) : Prop where
  calls : d.calls = (List.range d.calls.length).map some
  count : d.calls.length + d.line.toNat =
    d.offered.length + (d.tk.reading && d.line).toNat
  pos : d.line = true → 0 < d.offered.length

section Frames

variable {d d' : Driver} {e : DriverEvent}

/-- The call of `receive_data` finds the next frame. -/
theorem call_onLine (h : FrameInv d) (hl : d.line = true) (hr : d.tk.reading = false) :
    d.onLine = some d.calls.length := by
  have hcount := h.count
  rw [hl, hr] at hcount
  simp only [Bool.toNat_true, Bool.false_and, Bool.toNat_false, Nat.add_zero] at hcount
  rw [Driver.onLine, if_pos hl, ← hcount, Nat.add_sub_cancel]

theorem frame_step (ht : TokenInv d) (h : FrameInv d) (hs : DriverStep d e d') : FrameInv d' := by
  obtain ⟨hcalls, hcount, hpos⟩ := h
  cases hs with
  | offer f hl hr =>
    rw [hl, hr] at hcount
    refine ⟨hcalls, ?_, fun _ => by simp⟩
    show d.calls.length + 1 = (d.offered ++ [f]).length + (d.tk.reading && true).toNat
    rw [hr, List.length_append]
    exact congrArg (· + 1) hcount
  | fall hl hr =>
    rw [hl, hr] at hcount
    refine ⟨hcalls, ?_, fun h => by cases h⟩
    show d.calls.length + 0 = d.offered.length + (d.tk.reading && false).toNat
    rw [Bool.and_false]
    exact Nat.succ.inj hcount
  | call htk =>
    have hl : d.line = true := ht.line (by simp [Driver.waiting, htk])
    have hr : d.tk.reading = false := by simp [htk]
    have hfind := call_onLine ⟨hcalls, hcount, hpos⟩ hl hr
    refine ⟨?_, ?_, hpos⟩
    · show d.calls ++ [d.onLine] = (List.range (d.calls ++ [d.onLine]).length).map some
      rw [List.length_append, List.length_singleton, List.range_succ, List.map_append,
        List.map_singleton, ← hcalls, hfind]
    · simp only [hl, hr, Bool.toNat_true, Bool.false_and, Bool.toNat_false, Nat.add_zero] at hcount
      simp [hl, hcount]
  | _ =>
    refine ⟨hcalls, ?_, hpos⟩
    clear hcalls
    simp_all [Driver.writeSlot]

theorem frame_inv (h : d.Reachable) : FrameInv d := by
  have h2 := reachable_inv (I := fun d => TokenInv d ∧ FrameInv d)
    (fun ds => ⟨token_init ds, rfl, rfl, fun h => by cases h⟩)
    (fun _ _ _ hI he hs => ⟨token_step hI.1 he hs, frame_step hI.1 hI.2 hs⟩) h
  exact h2.2

/-- **Each frame is read by exactly one call of `receive_data`.** Under every interleaving and every
    sequence of messages: `receive_data` is called on a high line only, and the frames its calls have
    found there are all frames no longer offered and the one being read, in order and each once. -/
theorem receive_data_reads_each_frame_once (h : d.Reachable) :
    (∀ pos, d.tk = .call pos → d.line = true) ∧
      d.calls =
        (List.range (d.gone + if d.tk.reading = true ∧ d.line = true then 1 else 0)).map some := by
  refine ⟨fun pos hpos => (token_inv h).line (by simp [Driver.waiting, hpos]), ?_⟩
  obtain ⟨hcalls, hcount, hpos⟩ := frame_inv h
  rw [hcalls]
  congr 2
  clear hcalls
  unfold Driver.gone
  generalize d.tk.reading = reading at hcount ⊢
  generalize d.line = line at hcount hpos ⊢
  cases line <;> cases reading <;> simp at hcount hpos ⊢ <;> omega

/-- An empty frame. -/
def emptyFrame : GpioDataFrame := ⟨0, 0, fun _ => 0⟩

/-- One frame offered, and the tasklet in the midst of reading it. -/
def readingFirst : List DriverEvent :=
  [.offer emptyFrame, .irqHandler] ++ List.replicate 3 (.tasklet emptyFrame true)

theorem receive_data_reads_first_frame :
    ∃ d, (Driver.init fun _ => emptyFrame).runs readingFirst = some d ∧
      ((∀ pos, d.tk = .call pos → d.line = true) ∧
        d.calls = (List.range
          (d.gone + if d.tk.reading = true ∧ d.line = true then 1 else 0)).map some) := by
  obtain ⟨d, hd⟩ : ∃ d, (Driver.init fun _ => emptyFrame).runs readingFirst = some d := ⟨_, rfl⟩
  have he : ∀ e ∈ readingFirst, e ≠ .spurious := by simp [readingFirst]
  exact ⟨d, hd, receive_data_reads_each_frame_once ⟨_, reaches_of_runs hd he⟩⟩

end Frames

/-! ## 4. Flags -/

/-- What the flags say between the statements that set and clear them. -/
structure FlagInv (d : Driver) : Prop where
  irq : d.irq = true → d.full = true ∨ ∃ code, d.rv = .testIrq code ∨ d.rv = .clearIrq code
  full : d.full = true →
    d.hasSend = true ∨ (∃ pos, d.tk = .notify pos) ∨ ∃ code, d.rv = .clearFull code
  section_ : d.rv.inSection = true → d.hasSend = false

section Flags

variable {d d' : Driver} {e : DriverEvent}

theorem flag_init (dataspace : Nat → GpioDataFrame) : FlagInv (Driver.init dataspace) where
  irq := fun h => by cases h
  full := fun h => by cases h
  section_ := fun h => by cases h

theorem flag_step (h : FlagInv d) (hs : DriverStep d e d') : FlagInv d' := by
  obtain ⟨hirq, hfull, hsec⟩ := h
  cases hs <;> refine ⟨?_, ?_, ?_⟩ <;> simp_all [Driver.writeSlot]

theorem flag_inv (h : d.Reachable) : FlagInv d :=
  reachable_inv flag_init (fun _ _ _ hI _ hs => flag_step hI hs) h

/-- **Nothing is lost**: when the interrupt is off and the tasklet neither scheduled nor running, `irq`
    remembers the frame on the line, and `full` and `hasSend` say who will come back for it. -/
theorem off_flags (h : d.Reachable) (hsec : d.rv.inSection = false) (hen : d.enabled = false)
    (hsch : d.sched = false) (htk : d.tk = .idle) :
    d.irq = true ∧ d.full = true ∧ d.hasSend = true := by
  have hone := (token_inv h).one
  obtain ⟨hirq, hfull, _⟩ := flag_inv h
  have hrv : d.rv.scheduling = false := by
    cases hv : d.rv <;> simp_all
  have hi : d.irq = true := by
    cases hi : d.irq <;> simp_all [Driver.tokens]
  have hf : d.full = true := by
    rcases hirq hi with hf | ⟨code, hv | hv⟩
    · exact hf
    · simp [hv] at hsec
    · simp [hv] at hsec
  refine ⟨hi, hf, ?_⟩
  rcases hfull hf with hs | ⟨pos, ht⟩ | ⟨code, hv⟩
  · exact hs
  · simp [htk] at ht
  · simp [hv] at hsec

/-- **A message wakes the tasklet**: at the end of its section the interrupt is on or the tasklet is
    scheduled or running. -/
theorem unlock_wakes (h : d.Reachable) {code : Int} (hv : d.rv = .unlock code) :
    d.enabled = true ∨ d.sched = true ∨ d.tk ≠ .idle := by
  have hone := (token_inv h).one
  obtain ⟨hirq, hfull, hsec⟩ := flag_inv h
  by_contra hoff
  obtain ⟨hen, hsch, htk⟩ : d.enabled = false ∧ d.sched = false ∧ d.tk = .idle := by
    refine ⟨?_, ?_, ?_⟩
    · exact Bool.eq_false_iff.mpr fun h => hoff (Or.inl h)
    · exact Bool.eq_false_iff.mpr fun h => hoff (Or.inr (Or.inl h))
    · exact Classical.byContradiction fun h => hoff (Or.inr (Or.inr h))
  have hi : d.irq = true := by
    cases hi : d.irq <;> simp_all [Driver.tokens]
  -- the section has cleared `full` and holds back the tasklet's notification
  have hf : d.full = true := by simpa [hv] using hirq hi
  have hs : d.hasSend = false := hsec (by simp [hv])
  simpa [hv, htk, hs] using hfull hf

end Flags

/-! ## 5. The queue -/

/-- One step in which a message that enters its section carries an honest code. -/
def Driver.HonestStep (d d' : Driver) : Prop :=
  ∃ e, d.next e = some d' ∧ (e = .recv → ∀ code dif, d.rv = .lockAck code dif → Honest d.q code)

/-- The queue, and the local variables that were read off it. -/
structure QueueInv (d : Driver) : Prop where
  valid : d.q.Valid
  pos : ∀ pos, (d.tk = .call pos ∨ (∃ frame, d.tk = .receiving pos frame) ∨ d.tk = .received pos) →
    pos = d.q.rear ∧ d.q.full = false
  dif : ∀ code dif, d.rv = .lockAck code dif → dif = d.q.frontDif code ∧ code < streamLen

section Queue

variable {d d' : Driver} {e : DriverEvent}

theorem queue_init (dataspace : Nat → GpioDataFrame) : QueueInv (Driver.init dataspace) where
  valid := FrameSequeue.valid_setNull dataspace
  pos := fun pos h => by rcases h with h | ⟨_, h⟩ | h <;> cases h
  dif := fun _ _ h => by cases h

/-- A message, as it enters its section. -/
theorem cut_kept_iff (h : QueueInv d) {code dif : Int} (hv : d.rv = .lockAck code dif) :
    Kept d.q (d.q.cut code dif) ↔ Honest d.q code := by
  obtain ⟨rfl, hlt⟩ := h.dif code dif hv
  rw [← netlinkRecv_cut hlt]
  exact kept_iff h.valid code

theorem queue_cut (h : QueueInv d) {code dif : Int} (hv : d.rv = .lockAck code dif)
    (hc : Honest d.q code) :
    (d.q.cut code dif).Valid ∧ (d.q.full = false → (d.q.cut code dif).full = false) := by
  have hkept := (cut_kept_iff h hv).mpr hc
  refine ⟨hkept.1, ?_⟩
  intro hfull
  have hle := kept_len h.valid hkept rfl
  have h63 : d.q.len ≠ 63 := by
    intro e
    rw [h.valid.full_iff.mpr e] at hfull
    cases hfull
  have := h.valid.len
  rw [Bool.eq_false_iff, Ne, hkept.1.full_iff]
  omega

theorem queue_step (h : QueueInv d) (hs : DriverStep d e d')
    (hc : e = .recv → ∀ code dif, d.rv = .lockAck code dif → Honest d.q code) : QueueInv d' := by
  obtain ⟨hvalid, hpos, hdif⟩ := h
  cases hs with
  | readFree ht hv hf =>
    refine ⟨hvalid, fun pos hp => ?_, hdif⟩
    rcases hp with hp | ⟨_, hp⟩ | hp <;> cases hp
    exact ⟨rfl, hf⟩
  | call ht =>
    refine ⟨hvalid, fun pos hp => ?_, hdif⟩
    rcases hp with hp | ⟨_, hp⟩ | hp <;> cases hp
    exact hpos _ (Or.inl ht)
  | receive ht hl =>
    refine ⟨⟨hvalid.1, hvalid.2, hvalid.3, hvalid.4, hvalid.5⟩, fun pos hp => ?_, hdif⟩
    rcases hp with hp | ⟨_, hp⟩ | hp <;> cases hp
    exact hpos _ (Or.inr (Or.inl ⟨_, ht⟩))
  | scribble f ht | touch pos f =>
    exact ⟨⟨hvalid.1, hvalid.2, hvalid.3, hvalid.4, hvalid.5⟩, hpos, hdif⟩
  | store ht hv =>
    obtain ⟨rfl, hf⟩ := hpos _ (Or.inr (Or.inr ht))
    refine ⟨(hvalid.store hf).1, fun pos hp => ?_, hdif⟩
    rcases hp with hp | ⟨_, hp⟩ | hp <;> cases hp
  | lockAck hv =>
    have hcut := queue_cut ⟨hvalid, hpos, hdif⟩ hv (hc rfl _ _ hv)
    refine ⟨hcut.1, fun pos hp => ?_, fun _ _ h => by cases h⟩
    obtain ⟨hrear, hf⟩ := hpos pos hp
    exact ⟨hrear, hcut.2 hf⟩
  | begunAck hv hlt =>
    refine ⟨hvalid, hpos, ?_⟩
    intro code dif h
    cases h
    exact ⟨rfl, hlt⟩
  | run ht hsch | readFull ht hv hf | setFull ht | notify ht hv | enable ht =>
    refine ⟨hvalid, fun pos hp => ?_, hdif⟩
    rcases hp with hp | ⟨_, hp⟩ | hp <;> cases hp
  | arrive code pid hv | begunStart hv hcode | begunEnd hv hcode | begunOther hv h1 h2 h3
  | lockStart hv | clearFull hv | testIrq hv hi | testNoIrq hv hi | clearIrq hv | schedule hv
  | unlock hv =>
    exact ⟨hvalid, hpos, fun _ _ h => by cases h⟩
  | offer f hl hr | fall hl hr | irqFull he hl hf | irqSched he hl hf | spurious =>
    exact ⟨hvalid, hpos, hdif⟩

theorem queue_inv {dataspace : Nat → GpioDataFrame}
    (h : Relation.ReflTransGen Driver.HonestStep (Driver.init dataspace) d) : QueueInv d :=
  reach_inv (fun _ _ hI ⟨_, hs, hc⟩ => queue_step hI (next_cases hs) hc) (queue_init dataspace) h

/-- From the beginning of a section to the return of `netlink_recv_msg`. -/
theorem section_runs {code : Int} (hv : d.rv = .clearFull code) :
    ∃ n d', d.runs (List.replicate n .recv) = some d' ∧ d'.rv = .idle ∧ d'.q = d.q := by
  cases hi : d.irq with
  | false =>
    refine ⟨3, { d with full := false, rv := .idle }, ?_, rfl, rfl⟩
    simp [Driver.runs, Driver.next, Driver.recvStep, List.replicate, hv, hi]
  | true =>
    refine ⟨5, { d with full := false, irq := false, sched := true, rv := .idle }, ?_, rfl, rfl⟩
    simp [Driver.runs, Driver.next, Driver.recvStep, List.replicate, hv, hi]

/-- **A message that arrives runs through as `netlinkRecv` says**, when nothing else moves. -/
theorem recv_runs (hv : d.rv = .idle) (code : Int) (pid : Nat) :
    ∃ n d', d.runs (.arrive code pid :: List.replicate n .recv) = some d' ∧ d'.rv = .idle ∧
      d'.q = netlinkRecv d.q code := by
  have harrive : ∀ es, d.runs (.arrive code pid :: es) =
      ({ d with sendPid := pid, rv := .begun code } : Driver).runs es := by
    intro es
    simp [Driver.runs, Driver.next, hv]
  unfold netlinkRecv
  by_cases hs : code = codeStart
  · obtain ⟨n, d', hr, hidle, hq⟩ := @section_runs
      { d with sendPid := pid, hasSend := false, rv := .clearFull code } code rfl
    refine ⟨n + 2, d', ?_, hidle, by rw [if_pos hs, hq]⟩
    rw [harrive, ← hr]
    simp [Driver.runs, Driver.next, Driver.recvStep, List.replicate_succ, hs]
  · rw [if_neg hs]
    by_cases he : code = codeEnd
    · refine ⟨1, { d with sendPid := 0, rv := .idle }, ?_, rfl, by rw [if_pos he]⟩
      have hne : codeEnd ≠ codeStart := he ▸ hs
      rw [harrive]
      simp [Driver.runs, Driver.next, Driver.recvStep, he, hne]
    · rw [if_neg he]
      by_cases hc : code < streamLen
      · obtain ⟨n, d', hr, hidle, hq⟩ := @section_runs
          { d with
            sendPid := pid, hasSend := false, q := d.q.cut code (d.q.frontDif code)
            rv := .clearFull code } code rfl
        refine ⟨n + 2, d', ?_, hidle, by rw [if_pos hc, hq]⟩
        rw [harrive, ← hr]
        simp [Driver.runs, Driver.next, Driver.recvStep, List.replicate_succ, hs, he, hc]
      · refine ⟨1, { d with sendPid := pid, rv := .idle }, ?_, rfl, by rw [if_neg hc]⟩
        rw [harrive]
        simp [Driver.runs, Driver.next, Driver.recvStep, hs, he, hc]

/-- **Which codes the driver may be sent.** A message that arrives runs through as `netlinkRecv` says;
    from any valid queue it keeps the queue valid and moves `front` forward within the stored frames
    if and only if its code is honest. In every run in which each message is honest when it enters
    its section, the queue is valid in every state, and the same holds of the next message there. -/
theorem queue_kept_iff_honest (hv : d.rv = .idle) (hq : d.q.Valid) (code : Int) (pid : Nat) :
    (∃ n d', d.runs (.arrive code pid :: List.replicate n .recv) = some d' ∧ d'.rv = .idle ∧
      d'.q = netlinkRecv d.q code) ∧
    (Kept d.q (netlinkRecv d.q code) ↔ Honest d.q code) ∧
    ∀ dataspace d', Relation.ReflTransGen Driver.HonestStep (Driver.init dataspace) d' →
      d'.q.Valid ∧ ∀ code dif, d'.rv = .lockAck code dif →
        (Kept d'.q (d'.q.cut code dif) ↔ Honest d'.q code) := by
  refine ⟨recv_runs hv code pid, kept_iff hq code, ?_⟩
  intro dataspace d' h
  have hinv := queue_inv h
  exact ⟨hinv.valid, fun code dif hcut => cut_kept_iff hinv hcut⟩

/-- A queue of seven frames that runs over the end of the ring. -/
def loadedDriver : Driver :=
  { Driver.init fun _ => emptyFrame with q := ⟨fun _ => emptyFrame, 60, 3, 7, 64⟩ }

/-- Position 2 leaves one frame and position 3 none; position 4 is ahead of `rear`. -/
theorem queue_kept_iff_loaded :
    Kept loadedDriver.q (netlinkRecv loadedDriver.q 2) ∧
    Kept loadedDriver.q (netlinkRecv loadedDriver.q 3) ∧
    ¬ Kept loadedDriver.q (netlinkRecv loadedDriver.q 4) ∧
    ∃ n d', loadedDriver.runs (.arrive 2 1 :: List.replicate n .recv) = some d' ∧
      d'.rv = .idle ∧ d'.q.front = 2 ∧ d'.q.len = 1 := by
  have hv : loadedDriver.q.Valid := ⟨by decide, by decide, by decide, by decide, rfl⟩
  have hkept := fun code => (queue_kept_iff_honest (d := loadedDriver) rfl hv code 1).2.1
  obtain ⟨n, d', hrun, hidle, hq⟩ := (queue_kept_iff_honest (d := loadedDriver) rfl hv 2 1).1
  refine ⟨(hkept 2).mpr ?_, (hkept 3).mpr ?_, fun h => absurd ((hkept 4).mp h) ?_,
    n, d', hrun, hidle, by rw [hq]; rfl, by rw [hq]; rfl⟩
  all_goals
    unfold Honest loadedDriver
    decide

/-- The code -1, sent to the driver right after it is loaded, takes `front` out of the ring. -/
theorem minus_one_not_kept :
    (Driver.init fun _ => emptyFrame).Reachable ∧ (Driver.init fun _ => emptyFrame).q.Valid ∧
      ¬ Kept (Driver.init fun _ => emptyFrame).q
        (netlinkRecv (Driver.init fun _ => emptyFrame).q (-1)) := by
  refine ⟨⟨_, .refl⟩, FrameSequeue.valid_setNull _, ?_⟩
  intro h
  have hfront : (netlinkRecv (Driver.init fun _ => emptyFrame).q (-1)).front = 65535 := rfl
  have := h.1.front
  omega

end Queue

end WifiOsc
