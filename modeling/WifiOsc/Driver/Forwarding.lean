/-
  File:      WifiOsc/Driver/Forwarding.lean
  Subject:   DRIVER AND USER THREAD REFINE A WINDOW. One session, any interleaving, no message lost
             on its way: the ring of 64 slots with the cursors `rear`, `front`, `last_front`, the
             notifications and the acknowledgements is `Window` with the cap 63, all positions taken
             modulo 64.

  A notification carries `rear` as it was before the frame was stored, and a start message can put
  a second one on the way; what they have in common is that their positions do not fall from the
  one to the next. So the way `(rear + 64 - last_front) % 64` the user computes is the difference
  of the positions, and never reaches the slot in work.

  * `System.pendingSlots`: the slots the user has still to forward for what was sent to it;
  * `Sim`: the system and its window; `sim_step`: each step is a step of the window, or none;
  * `forwarded_prefix_of_stored`: what is forwarded is the beginning of what is stored.
-/
import WifiOsc.Basis.Ring
import WifiOsc.Basis.Window
import WifiOsc.Driver.Session

namespace WifiOsc

open Basis

/-! ## 1. What is still to be forwarded -/

/-- The slots of the notifications in turn, from `lastFront` on. -/
def noteSlots : Nat → List Note → List Nat
  | _, [] => []
  | lastFront, n :: rest =>
      slots streamLen lastFront (loopCount n.pos lastFront) ++
        noteSlots ((lastFront + loopCount n.pos lastFront) % streamLen) rest

/-- `len` in the loop. -/
def UserPc.count : UserPc → Nat
  | .off | .waiting => 0
  | .forwarding _ count | .sending _ count _ => count

/-- The slot in `data_frame_t`, until it is sent. -/
def UserPc.inHand : UserPc → List Nat
  | .sending _ _ slot => [slot]
  | .off | .waiting | .forwarding _ _ => []

/-- The slots still to be forwarded, for all notifications already sent. -/
def System.pendingSlots (s : System) : List Nat :=
  s.user.inHand ++ slots streamLen s.lastFront s.user.count ++
    noteSlots ((s.lastFront + s.user.count) % streamLen) s.up

/-! ## 2. The window -/

/-- The local variable `pos`. -/
def TaskletPc.pos : TaskletPc → Option Nat
  | .call pos | .receiving pos _ | .received pos | .setFull pos | .notify pos => some pos
  | .idle | .start | .enable => none

/-- Does the tasklet have a slot of its own? -/
def TaskletPc.filling : TaskletPc → Bool
  | .call _ | .receiving _ _ | .received _ => true
  | .idle | .start | .setFull _ | .notify _ | .enable => false

/-- The acknowledgement in work, until its section. -/
@[simp] def RecvPc.ack : RecvPc → List Int
  | .begun code => if code < streamLen then [code] else []
  | .lockAck code _ => [code]
  | .idle | .lockStart _ | .clearFull _ | .testIrq _ | .clearIrq _ | .schedule _ | .unlock _ => []

/-- The acknowledgements not yet settled, oldest first. -/
def System.acks (s : System) : List Int :=
  s.d.rv.ack ++ (s.down.map Msg.code).filter fun code => code < (streamLen : Int)

/-- The counters, and the frames that are not yet forwarded. -/
structure QueueSim (q : FrameSequeue) (w : Window GpioDataFrame) : Prop where
  front : q.front = w.settled % 64
  rear : q.rear = w.log.length % 64
  len : q.len + w.settled = w.log.length
  lenMax : q.lenMax = 64
  slots : ∀ p, w.moved.length ≤ p → p < w.log.length → w.log[p]? = some (q.dataspace (p % 64))

/-- The tasklet has noted a position; while it has a slot, that is the end of the log. -/
structure TaskSim (t : TaskletPc) (w : Window GpioDataFrame) : Prop where
  pos : ∀ pos, t.pos = some pos → pos = w.pos % 64
  filling : t.filling = true → w.pos = w.log.length ∧ w.log.length < w.settled + 63

structure UserSim (s : System) (w : Window GpioDataFrame) : Prop where
  forwarded : s.forwarded = w.moved
  lastFront : s.lastFront = (w.moved.length + s.user.inHand.length) % 64
  goal : w.goal = w.moved.length + s.user.inHand.length + s.user.count
  slot : ∀ slot ∈ s.user.inHand, slot = w.moved.length % 64
  off : s.user = .off → w.moved = []
  up : s.up.map Note.pos = w.notes.map (· % 64)

/-- **The system and its window.** -/
structure Sim (s : System) (w : Window GpioDataFrame) : Prop where
  inv : w.Inv 63
  queue : QueueSim s.d.q w
  task : TaskSim s.d.tk w
  user : UserSim s w
  stored : s.d.stored = w.log
  acks : s.acks = w.acks.map fun a => ((a % 64 : Nat) : Int)
  dif : ∀ code dif, s.d.rv = .lockAck code dif → dif = s.d.q.frontDif code

section Queue

variable {q : FrameSequeue} {w : Window GpioDataFrame}

theorem QueueSim.valid (h : QueueSim q w) (hI : w.Inv 63) : q.Valid := by
  have hbound := hI.bound
  obtain ⟨hfront, hrear, hlen, hmax, -⟩ := h
  exact ⟨by omega, by omega, by omega, by omega, hmax⟩

theorem QueueSim.free (h : QueueSim q w) (hI : w.Inv 63) (hfull : q.full = false) :
    w.log.length < w.settled + 63 := by
  have hbound := hI.bound
  have hlen := h.len
  have h63 : q.len ≠ 63 := by
    intro e
    rw [(h.valid hI).full_iff.mpr e] at hfull
    cases hfull
  omega

/-- A write into a slot that holds no frame to be forwarded. -/
theorem QueueSim.write (h : QueueSim q w) {slot : Nat} (f : GpioDataFrame)
    (hslot : ∀ p, w.moved.length ≤ p → p < w.log.length → p % 64 ≠ slot) :
    QueueSim { q with dataspace := Function.update q.dataspace slot f } w := by
  refine ⟨h.front, h.rear, h.len, h.lenMax, ?_⟩
  intro p hp hlt
  rw [h.slots p hp hlt]
  exact congrArg some (Function.update_of_ne (hslot p hp hlt) f q.dataspace).symm

/-- The tasklet's slot is free. -/
theorem slot_free (hI : w.Inv 63) (hlt : w.log.length < w.settled + 63) {p : Nat}
    (hp : w.moved.length ≤ p) (hp' : p < w.log.length) : p % 64 ≠ w.log.length % 64 := by
  obtain ⟨-, -, -, hset, -⟩ := sorted_line.mp hI.sorted
  exact slot_ne hp' (by omega)

theorem QueueSim.produce (h : QueueSim q w) (hI : w.Inv 63) (hlt : w.log.length < w.settled + 63)
    {pos : Nat} (hpos : pos = w.log.length % 64) :
    QueueSim (q.store pos) { w with log := w.log ++ [q.dataspace pos] } := by
  obtain ⟨hfront, hrear, hlen, hmax, hslots⟩ := id h
  have hfull : q.full = false := by
    rw [Bool.eq_false_iff, Ne, (h.valid hI).full_iff]
    omega
  obtain rfl : pos = q.rear := hpos.trans hrear.symm
  obtain ⟨hv, hr, hl⟩ := (h.valid hI).store hfull
  refine ⟨hfront, ?_, ?_, hmax, fun p hp hp' => ?_⟩
  · rw [hr, hrear, List.length_append]
    exact slot_add _ 1
  · rw [hl, List.length_append]
    show q.len + 1 + w.settled = w.log.length + 1
    omega
  · rcases Nat.lt_or_ge p w.log.length with hlog | hlog
    · rw [List.getElem?_append_left hlog]
      exact hslots p hp hlog
    · obtain rfl : p = w.log.length := by
        have : p < w.log.length + 1 := by simpa using hp'
        omega
      rw [List.getElem?_concat_length, hrear]
      rfl

/-- `front_dif` is the difference of the positions. -/
theorem QueueSim.settle (h : QueueSim q w) (hI : w.Inv 63) {p : Nat} {rest : List Nat}
    (hp : w.acks = p :: rest) :
    QueueSim (q.cut ((p % 64 : Nat) : Int) (q.frontDif ((p % 64 : Nat) : Int)))
      { w with acks := rest, settled := p } := by
  obtain ⟨-, -, hacks, -, hgoal, -, hpos, hlog⟩ := sorted_line.mp hI.sorted
  have hset := hacks p (hp ▸ List.mem_cons_self)
  have hbound := hI.bound
  obtain ⟨hfront, hrear, hlen, hmax, hslots⟩ := id h
  have hdist : (p % 64 + 64 - w.settled % 64) % 64 = p - w.settled := slot_dist hset.1 (by omega)
  obtain ⟨-, hf, hl⟩ := @cut_within q ((p % 64 : Nat) : Int) (h.valid hI) (by omega)
    (by omega) (by omega)
  refine ⟨?_, hrear, ?_, hmax, hslots⟩
  · rw [hf, Int.toNat_natCast]
  · rw [hl]
    show q.len - _ + p = w.log.length
    omega

end Queue

/-! ## 3. Steps of the driver -/

section Steps

variable {σ : Setting} {s s' : System} {d' : Driver} {e : DriverEvent} {w : Window GpioDataFrame}

/-- Some steps of the window lead to one that belongs to `s'`. -/
def Follows (w : Window GpioDataFrame) (s' : System) : Prop :=
  ∃ w', Relation.ReflTransGen (WindowStep 63) w w' ∧ Sim s' w'

theorem follows_one {w' : Window GpioDataFrame} (hs : WindowStep 63 w w') (hI : w.Inv 63)
    (h : w'.Inv 63 → Sim s' w') : Follows w s' :=
  ⟨w', .single hs, h (windowStep_inv hI hs)⟩

/-- A step of the driver that the window does not see. -/
theorem sim_driver (h : Sim s w) (hq : QueueSim d'.q w) (ht : TaskSim d'.tk w)
    (hst : d'.stored = s.d.stored) (hack : d'.rv.ack = s.d.rv.ack)
    (hdif : ∀ code dif, d'.rv = .lockAck code dif → dif = d'.q.frontDif code) :
    Follows w { s with d := d' } := by
  refine ⟨w, .refl, h.inv, hq, ht, { h.user with }, hst.trans h.stored, ?_, hdif⟩
  show d'.rv.ack ++ _ = _
  rw [hack]
  exact h.acks

theorem task_idle {t : TaskletPc} (hp : t.pos = none) (hf : t.filling = false) : TaskSim t w where
  pos := by
    intro pos h
    rw [hp] at h
    cases h
  filling := by
    intro h
    rw [hf] at h
    cases h

/-- `pos = rear`, under the lock. -/
theorem sim_note (h : Sim s w) {t : TaskletPc} (hp : t.pos = some s.d.q.rear)
    (hf : t.filling = true → s.d.q.full = false) :
    Follows w { s with d := { s.d with tk := t } } := by
  refine follows_one .note h.inv fun hI' =>
    ⟨hI', { h.queue with }, ⟨?_, ?_⟩, { h.user with }, h.stored, h.acks, h.dif⟩
  · intro pos hpos
    obtain rfl : s.d.q.rear = pos := Option.some.inj (hp.symm.trans hpos)
    exact h.queue.rear
  · intro hfill
    exact ⟨rfl, h.queue.free h.inv (hf hfill)⟩

/-- The tasklet writes into its slot. -/
theorem sim_write (h : Sim s w) {pos : Nat} {t : TaskletPc} (f : GpioDataFrame)
    (hpos : s.d.tk.pos = some pos) (hfill : s.d.tk.filling = true) (ht : t.pos = some pos) :
    Follows w { s with d := { s.d.writeSlot pos f with tk := t } } := by
  obtain ⟨hend, hlt⟩ := h.task.filling hfill
  have hslot : pos = w.log.length % 64 := hend ▸ h.task.pos pos hpos
  refine sim_driver h (h.queue.write f ?_) ⟨?_, fun _ => ⟨hend, hlt⟩⟩ rfl rfl h.dif
  · intro p hp hp'
    exact hslot ▸ slot_free h.inv hlt hp hp'
  · intro p hp
    exact h.task.pos p (hpos.trans (ht.symm.trans hp))

theorem sim_store (h : Sim s w) {pos : Nat} (ht : s.d.tk = .received pos) :
    Follows w { s with d := { s.d with
      q := s.d.q.store pos, stored := s.d.stored ++ [s.d.q.dataspace pos]
      tk := .notify pos } } := by
  obtain ⟨hend, hlt⟩ := h.task.filling (by rw [ht]; rfl)
  have hpos : pos = w.pos % 64 := h.task.pos pos (by rw [ht]; rfl)
  have hq := h.queue.produce h.inv hlt (hend ▸ hpos)
  refine follows_one (.produce (s.d.q.dataspace pos) hlt) h.inv fun hI' =>
    ⟨hI', hq, ⟨?_, fun h => by cases h⟩, { h.user with }, ?_, h.acks, h.dif⟩
  · intro p hp
    cases hp
    exact hpos
  · exact congrArg (· ++ [s.d.q.dataspace pos]) h.stored

/-- An acknowledgement enters its section. -/
theorem sim_settle (h : Sim s w) {code dif : Int} (hv : s.d.rv = .lockAck code dif) :
    Follows w { s with d := { s.d with
      hasSend := false, q := s.d.q.cut code dif, rv := .clearFull code } } := by
  obtain rfl := h.dif code dif hv
  have hacks := h.acks
  rw [System.acks, hv] at hacks
  cases hw : w.acks with
  | nil => simp [hw] at hacks
  | cons p rest =>
    rw [hw] at hacks
    obtain ⟨rfl, hrest⟩ := List.cons.inj hacks
    have hset : w.settled ≤ p := by
      obtain ⟨-, -, hacks, -⟩ := sorted_line.mp h.inv.sorted
      exact (hacks p (hw ▸ List.mem_cons_self)).1
    have hq := h.queue.settle h.inv hw
    refine follows_one (.settle p rest hw) h.inv fun hI' =>
      ⟨hI', hq, ⟨h.task.pos, ?_⟩, { h.user with }, h.stored, hrest, fun _ _ h => by cases h⟩
    intro hf
    obtain ⟨hend, hlt⟩ := h.task.filling hf
    exact ⟨hend, Nat.lt_of_lt_of_le hlt (Nat.add_le_add_right hset 63)⟩

/-- Each step of the driver, without the notification it may send. -/
theorem sim_quiet (h : Sim s w) (hs : DriverStep s.d e d') (ha : σ.allows e = true) :
    Follows w { s with d := d' } := by
  have hq := h.queue
  have ht := h.task
  cases hs with
  | offer | fall | irqFull | irqSched | spurious => exact sim_driver h hq ht rfl rfl h.dif
  | run | notify | enable => exact sim_driver h hq (task_idle rfl rfl) rfl rfl h.dif
  | readFull => exact sim_note h rfl fun h => by cases h
  | readFree _ _ hf => exact sim_note h rfl fun _ => hf
  | call htk =>
    rw [htk] at ht
    exact sim_driver h hq ⟨ht.pos, ht.filling⟩ rfl rfl h.dif
  | receive htk => exact sim_write h _ (by rw [htk]; rfl) (by rw [htk]; rfl) rfl
  | scribble f htk => exact sim_write h f (by rw [htk]; rfl) (by rw [htk]; rfl) (by rw [htk]; rfl)
  | store htk => exact sim_store h htk
  | setFull htk =>
    rw [htk] at ht
    exact sim_driver h hq ⟨ht.pos, fun h => by cases h⟩ rfl rfl h.dif
  | begunStart hv hc =>
    exact sim_driver h hq ht rfl (by simp [hv, hc, codeStart, streamLen]) fun _ _ h => by cases h
  | begunEnd hv hc =>
    exact sim_driver h hq ht rfl (by simp [hv, hc, codeEnd, streamLen]) fun _ _ h => by cases h
  | begunAck hv hc =>
    refine sim_driver h hq ht rfl (by simp [hv, hc]) ?_
    intro _ _ h
    cases h
    rfl
  | begunOther hv _ _ hc =>
    exact sim_driver h hq ht rfl (by simp [hv, hc]) fun _ _ h => by cases h
  | lockAck hv => exact sim_settle h hv
  | lockStart hv | clearFull hv | testIrq hv | testNoIrq hv | clearIrq hv | schedule hv
  | unlock hv =>
    exact sim_driver h hq ht rfl (by simp [hv]) fun _ _ h => by cases h
  | touch | arrive => cases ha

/-- The notification carries the position noted before the frame was stored. -/
theorem sim_send (h : Sim s w) {pos : Nat} (htk : s.d.tk = .notify pos) :
    Follows w { s with
      d := { s.d with hasSend := true, tk := .enable }, up := s.up ++ [⟨pos, s.sent⟩]
      sent := s.sent + 1 } := by
  have hpos := h.task.pos pos (by rw [htk]; rfl)
  have hup : (s.up ++ [(⟨pos, s.sent⟩ : Note)]).map Note.pos = (w.notes ++ [w.pos]).map (· % 64) := by
    simp [h.user.up, hpos]
  exact follows_one .send h.inv fun hI' =>
    ⟨hI', { h.queue with }, task_idle rfl rfl, { h.user with up := hup }, h.stored, h.acks, h.dif⟩

/-! ## 4. Steps of the user -/

theorem sim_deliver (h : Sim s w) {m : Msg} {rest : List Msg} (hd : s.down = m :: rest)
    (hv : s.d.rv = .idle) :
    Follows w { s with
      d := { s.d with sendPid := σ.pid, rv := .begun m.code }, down := rest, cur := m.tag } := by
  refine ⟨w, .refl, h.inv, h.queue, h.task, { h.user with }, h.stored, ?_, fun _ _ h => by cases h⟩
  rw [← h.acks]
  simp only [System.acks, hd, hv, RecvPc.ack, List.map_cons, List.nil_append, List.filter_cons]
  by_cases hc : m.code < streamLen <;> simp [hc]

theorem sim_start (h : Sim s w) (hu : s.user = .off) :
    Follows w { s with
      user := .waiting, lastFront := s.d.q.front, down := s.down ++ [⟨codeStart, none⟩] } := by
  have hset : w.settled = w.moved.length := by
    obtain ⟨-, -, -, hle, -⟩ := sorted_line.mp h.inv.sorted
    rw [h.user.off hu] at hle ⊢
    exact Nat.le_zero.mp hle
  have hgoal := h.user.goal
  rw [hu] at hgoal
  refine ⟨w, .refl, h.inv, h.queue, h.task, ⟨h.user.forwarded, ?_, hgoal, nofun, nofun,
    h.user.up⟩, h.stored, ?_, h.dif⟩
  · exact h.queue.front.trans (by rw [hset]; rfl)
  · rw [← h.acks]
    simp [System.acks, codeStart, streamLen]

/-- The way the user computes is the difference of the positions. -/
theorem loopCount_pos (hI : w.Inv 63) {a p : Nat} (hset : w.settled ≤ a) (hap : a ≤ p)
    (hp : p ≤ w.log.length) : loopCount (p % 64) (a % 64) = p - a := by
  have hbound := hI.bound
  exact slot_dist hap (by omega)

theorem sim_take (h : Sim s w) {n : Note} {rest : List Note} (hu : s.user = .waiting)
    (hup : s.up = n :: rest) :
    Follows w { s with user := .forwarding n.tag (loopCount n.pos s.lastFront), up := rest } := by
  obtain ⟨hfor, hlast, hgoal, -, -, hnotes⟩ := h.user
  rw [hu] at hlast hgoal
  cases hw : w.notes with
  | nil => simp [hup, hw] at hnotes
  | cons p ps =>
    rw [hup, hw] at hnotes
    obtain ⟨hpos, hrest⟩ := List.cons.inj hnotes
    obtain ⟨-, -, -, hset, hmg, hnote, -, hlog⟩ := sorted_line.mp h.inv.sorted
    obtain ⟨hgp, hpp⟩ := hnote p (hw ▸ List.mem_cons_self)
    have hmp := hmg.trans hgp
    have hcount : loopCount n.pos s.lastFront = p - w.moved.length := by
      rw [hpos, hlast]
      exact loopCount_pos h.inv hset hmp (hpp.trans hlog)
    have hgoal' : p = w.moved.length + 0 + loopCount n.pos s.lastFront := by omega
    exact follows_one (.take p ps hw hgoal) h.inv fun hI' =>
      ⟨hI', { h.queue with }, { h.task with },
        ⟨hfor, hlast, hgoal', nofun, nofun, hrest⟩,
        h.stored, h.acks, h.dif⟩

theorem sim_fetch (h : Sim s w) {tag count : Nat} (hu : s.user = .forwarding tag (count + 1)) :
    Follows w { s with
      user := .sending tag count s.lastFront, lastFront := (s.lastFront + 1) % streamLen } := by
  obtain ⟨hfor, hlast, hgoal, -, -, hup⟩ := h.user
  rw [hu] at hlast hgoal
  refine ⟨w, .refl, h.inv, h.queue, h.task, ⟨hfor, ?_, ?_, ?_, nofun, hup⟩, h.stored,
    h.acks, h.dif⟩
  · show (s.lastFront + 1) % 64 = (w.moved.length + 1) % 64
    rw [hlast]
    exact slot_add _ 1
  · show w.goal = w.moved.length + 1 + count
    rw [hgoal]
    show w.moved.length + 0 + (count + 1) = _
    omega
  · intro slot hslot
    exact (List.mem_singleton.mp hslot).trans hlast

/-- The frame in hand is the next one of the log. -/
theorem inHand_frame (h : Sim s w) {tag count slot : Nat} (hu : s.user = .sending tag count slot) :
    slot = w.moved.length % 64 ∧ w.moved.length < w.goal ∧
      w.log[w.moved.length]? = some (s.d.q.dataspace slot) := by
  have hgoal := h.user.goal
  rw [hu] at hgoal
  have hlt : w.moved.length < w.goal := by
    rw [hgoal]
    show _ < w.moved.length + 1 + count
    omega
  have hmem : slot ∈ s.user.inHand := hu ▸ List.mem_singleton_self slot
  have hslot : slot = w.moved.length % 64 := h.user.slot slot hmem
  obtain ⟨-, -, -, -, -, -, hpos, hlog⟩ := sorted_line.mp h.inv.sorted
  exact ⟨hslot, hlt, hslot ▸ h.queue.slots _ (Nat.le_refl _) (by omega)⟩

theorem QueueSim.advance {q : FrameSequeue} (h : QueueSim q w) (x : GpioDataFrame) :
    QueueSim q { w with moved := w.moved ++ [x] } := by
  have hlen : (w.moved ++ [x]).length = w.moved.length + 1 := List.length_append
  refine ⟨h.front, h.rear, h.len, h.lenMax, ?_⟩
  intro p hp
  exact h.slots p (Nat.le_of_succ_le (hlen.symm.le.trans hp))

/-- What the socket gets is written over a frame that is already forwarded. -/
theorem QueueSim.clear {q : FrameSequeue} (h : QueueSim q w) (hI : w.Inv 63) (x f : GpioDataFrame) :
    QueueSim { q with dataspace := Function.update q.dataspace (w.moved.length % 64) f }
      { w with moved := w.moved ++ [x] } := by
  obtain ⟨-, -, -, hset, -⟩ := sorted_line.mp hI.sorted
  have hbound := hI.bound
  have hlen : (w.moved ++ [x]).length = w.moved.length + 1 := List.length_append
  refine (h.advance x).write f ?_
  intro p hp hp'
  have hmp : w.moved.length < p := Nat.lt_of_succ_le (hlen.symm.le.trans hp)
  have hpl : p < w.log.length := hp'
  exact (slot_ne hmp (by omega)).symm

/-- The frame forwarded is the one in the log, and no other is touched. -/
theorem sim_forward (h : Sim s w) {live : Bool} {tag count slot : Nat}
    (hu : s.user = .sending tag count slot) :
    Follows w { s with
      d := if live then s.d.writeSlot slot (clearFirst (s.d.q.dataspace slot)) else s.d
      user := .forwarding tag count, forwarded := s.forwarded ++ [s.d.q.dataspace slot] } := by
  obtain ⟨hslot, hlt, hframe⟩ := inHand_frame h hu
  obtain ⟨hfor, hlast, hgoal, -, -, hup⟩ := h.user
  rw [hu] at hlast hgoal
  have hlen : (w.moved ++ [s.d.q.dataspace slot]).length = w.moved.length + 1 := List.length_append
  have huser : UserSim { s with
      user := .forwarding tag count, forwarded := s.forwarded ++ [s.d.q.dataspace slot] }
      { w with moved := w.moved ++ [s.d.q.dataspace slot] } := by
    refine ⟨congrArg (· ++ _) hfor, ?_, ?_, nofun, nofun, hup⟩
    · show s.lastFront = ((w.moved ++ [_]).length + 0) % 64
      rw [hlen]
      exact hlast
    · show w.goal = (w.moved ++ [_]).length + 0 + count
      rw [hlen]
      exact hgoal
  refine follows_one (.move _ hlt hframe) h.inv ?_
  intro hI'
  cases live with
  | true =>
    have hq := h.queue.clear h.inv (s.d.q.dataspace slot) (clearFirst (s.d.q.dataspace slot))
    rw [← hslot] at hq
    exact ⟨hI', hq, { h.task with }, { huser with }, h.stored, h.acks, h.dif⟩
  | false =>
    exact ⟨hI', h.queue.advance _, { h.task with }, { huser with }, h.stored, h.acks, h.dif⟩

theorem sim_ack (h : Sim s w) {tag : Nat} (hu : s.user = .forwarding tag 0) :
    Follows w { s with user := .waiting, down := s.down ++ [⟨s.lastFront, some tag⟩] } := by
  obtain ⟨hfor, hlast, hgoal, -, -, hup⟩ := h.user
  rw [hu] at hlast hgoal
  have hnew : ([(s.lastFront : Int)].filter fun code => code < (streamLen : Int)) =
      [((w.moved.length % 64 : Nat) : Int)] := by
    have hlt : (s.lastFront : Int) < streamLen := by
      show (s.lastFront : Int) < 64
      omega
    rw [List.filter_cons_of_pos (by simpa using hlt), List.filter_nil]
    exact congrArg (fun n : Nat => [(n : Int)]) hlast
  refine follows_one .ack h.inv fun hI' => ⟨hI', { h.queue with }, { h.task with },
    ⟨hfor, hlast, hgoal, nofun, nofun, hup⟩, h.stored, ?_, h.dif⟩
  show s.d.rv.ack ++ ((s.down ++ [(⟨s.lastFront, some tag⟩ : Msg)]).map Msg.code).filter _ =
    (w.acks ++ [w.moved.length]).map _
  rw [List.map_append, List.map_append, ← h.acks, List.filter_append, ← List.append_assoc]
  exact congrArg (s.acks ++ ·) hnew

/-! ## 5. Every run -/

/-- **Each step of the system is a step of the window, or none.** -/
theorem sim_step (hσ : σ.quits = false) (h : Sim s w) (hs : SysStep σ s s') : Follows w s' := by
  cases hs with
  | driver e d' ha hd hret =>
    cases hsend : s.d.sends e with
    | none =>
      rw [handOver_quiet hsend]
      exact sim_quiet h hd ha
    | some pos =>
      obtain ⟨htk, -, -, -, rfl⟩ := sends_cases hsend hd
      rw [handOver_sends hsend]
      exact sim_send h htk
  | return_ d' hd hret =>
    obtain ⟨w', hw, h'⟩ := sim_quiet (σ := σ) h hd rfl
    exact ⟨w', hw, h'.inv, h'.queue, h'.task, { h'.user with }, h'.stored, h'.acks, h'.dif⟩
  | deliver m rest hd hv => exact sim_deliver h hd hv
  | start hu => exact sim_start h hu
  | take n rest hu hup => exact sim_take h hu hup
  | fetch tag count hu => exact sim_fetch h hu
  | forward live tag count slot hu => exact sim_forward h hu
  | ack tag hu => exact sim_ack h hu
  | quit hq hu =>
    rw [hσ] at hq
    cases hq

theorem sim_init (dataspace : Nat → GpioDataFrame) : Sim (System.init dataspace) Window.start where
  inv := Window.inv_start
  queue := ⟨rfl, rfl, rfl, rfl, fun p _ hp => absurd hp (Nat.not_lt_zero p)⟩
  task := task_idle rfl rfl
  user := ⟨rfl, rfl, rfl, nofun, fun _ => rfl, rfl⟩
  stored := rfl
  acks := rfl
  dif := fun _ _ h => by cases h

/-- **The system refines the window**: every run is a run of the window. -/
theorem sim_reachable (hσ : σ.quits = false) (h : s.Reachable σ) :
    ∃ w, Relation.ReflTransGen (WindowStep 63) Window.start w ∧ Sim s w := by
  obtain ⟨dataspace, hr⟩ := h
  exact reach_sim (fun s s' w hsim ⟨_, he⟩ => sim_step hσ hsim (sysNext_cases he))
    (sim_init dataspace) hr

/-- The slots of the notifications are those of positions not yet forwarded. -/
theorem mem_noteSlots (hI : w.Inv 63) {up : List Note} {ps : List Nat} {a i : Nat}
    (hup : up.map Note.pos = ps.map (· % 64)) (hsort : ps.Pairwise (· ≤ ·))
    (hset : w.settled ≤ a) (hps : ∀ p ∈ ps, a ≤ p ∧ p ≤ w.log.length)
    (hi : i ∈ noteSlots (a % 64) up) : ∃ p, a ≤ p ∧ p < w.log.length ∧ i = p % 64 := by
  induction up generalizing ps a with
  | nil => cases hi
  | cons n up ih =>
    cases ps with
    | nil => cases hup
    | cons p ps =>
      obtain ⟨hpos, hrest⟩ := List.cons.inj hup
      obtain ⟨hfirst, hsort'⟩ := List.pairwise_cons.mp hsort
      obtain ⟨hap, hpl⟩ := hps p List.mem_cons_self
      have hcount : loopCount n.pos (a % 64) = p - a := by
        rw [hpos]
        exact loopCount_pos hI hset hap hpl
      have hend : (a % 64 + (p - a)) % 64 = p % 64 := by
        rw [slot_add, Nat.add_sub_cancel' hap]
      rw [noteSlots, hcount, List.mem_append] at hi
      rcases hi with hi | hi
      · obtain ⟨k, hak, hkp, rfl⟩ := mem_slots hi
        exact ⟨k, hak, by omega, rfl⟩
      · change i ∈ noteSlots ((a % 64 + (p - a)) % 64) up at hi
        rw [hend] at hi
        have hps' : ∀ q ∈ ps, p ≤ q ∧ q ≤ w.log.length := fun q hq =>
          ⟨hfirst q hq, (hps q (List.mem_cons_of_mem _ hq)).2⟩
        obtain ⟨k, hpk, hkl, hk⟩ := ih hrest hsort' (hset.trans hap) hps' hi
        exact ⟨k, hap.trans hpk, hkl, hk⟩

/-- The slots still to be forwarded hold frames of the log that are not yet moved. -/
theorem mem_pendingSlots (h : Sim s w) {i : Nat} (hi : i ∈ s.pendingSlots) :
    ∃ p, w.moved.length ≤ p ∧ p < w.log.length ∧ i = p % 64 := by
  obtain ⟨hI, -, -, ⟨-, hlast, hgoal, hslot, -, hup⟩, -, -, -⟩ := h
  obtain ⟨-, hsort, -, hset, hmg, hnote, hgp, hlog⟩ := sorted_line.mp hI.sorted
  have hend : (s.lastFront + s.user.count) % streamLen = w.goal % 64 := by
    show (s.lastFront + s.user.count) % 64 = _
    rw [hlast, slot_add, hgoal]
  rw [System.pendingSlots, hend, List.mem_append, List.mem_append] at hi
  rcases hi with (hi | hi) | hi
  · have := List.length_pos_of_mem hi
    exact ⟨w.moved.length, Nat.le_refl _, by omega, hslot i hi⟩
  · rw [hlast] at hi
    obtain ⟨p, hp, hp', rfl⟩ := mem_slots hi
    exact ⟨p, by omega, by omega, rfl⟩
  · obtain ⟨p, hp, hp', hk⟩ := mem_noteSlots hI hup hsort (hset.trans hmg)
      (fun p hp => ⟨(hnote p hp).1, (hnote p hp).2.trans hlog⟩) hi
    exact ⟨p, hmg.trans hp, hp', hk⟩

/-- **Nothing is lost, doubled or replaced between tasklet and sockets**, in every run of one
    session. What the user has forwarded is the beginning of what the tasklet has stored; the slot
    of the tasklet, until its frame is stored, is none that the user has still to forward for a
    notification already sent; and the queue is valid. -/
theorem forwarded_prefix_of_stored (hσ : σ.quits = false) (h : s.Reachable σ) :
    s.forwarded <+: s.d.stored ∧
      (∀ pos, (∃ frame, s.d.tk = .receiving pos frame) ∨ s.d.tk = .received pos →
        pos ∉ s.pendingSlots) ∧
      s.d.q.Valid := by
  obtain ⟨w, hw, hsim⟩ := sim_reachable hσ h
  have hI := window_inv hw
  refine ⟨?_, fun pos htk hmem => ?_, hsim.queue.valid hI⟩
  · rw [hsim.user.forwarded, hsim.stored]
    exact hI.beginning
  · obtain ⟨hpos, hfill⟩ : s.d.tk.pos = some pos ∧ s.d.tk.filling = true := by
      rcases htk with ⟨frame, htk⟩ | htk <;> rw [htk] <;> exact ⟨rfl, rfl⟩
    obtain ⟨hend, hlt⟩ := hsim.task.filling hfill
    obtain ⟨p, hp, hp', rfl⟩ := mem_pendingSlots hsim hmem
    exact slot_free hI hlt hp hp' (hend ▸ hsim.task.pos _ hpos)

/-- One session, and nothing out of the ordinary. -/
def Setting.single : Setting := ⟨1, Nat.one_pos, false, false, false⟩

/-- After the first frame and its acknowledgement a second frame, whose notification lets the user
    forward the first. -/
def firstForward : List SysEvent :=
  firstNote ++ [.take, .ack] ++ messageRead ++ frameRead 2 ++ [.take, .fetch, .forward true]

/-- It sends its position back, and is notified of the third frame. -/
def secondForward : List SysEvent :=
  firstForward ++ [.ack] ++ messageRead ++ frameRead 3 ++ [.take, .fetch, .forward true]

/-- The tasklet reads the fourth frame meanwhile. -/
theorem forwarded_prefix_secondForward :
    ∃ s, (System.init fun _ => emptyFrame).runs .single
        (secondForward ++ (frameRead 4).take 5) = some s ∧
      s.forwarded.map GpioDataFrame.payload = [[1, 1], [2, 2]] ∧
      s.d.stored.map GpioDataFrame.payload = [[1, 1], [2, 2], [3, 3]] ∧
      s.forwarded <+: s.d.stored ∧
      (∀ pos, (∃ frame, s.d.tk = .receiving pos frame) ∨ s.d.tk = .received pos →
        pos ∉ s.pendingSlots) ∧
      s.d.q.Valid := by
  obtain ⟨s, hs, hfor, hst⟩ : ∃ s, (System.init fun _ => emptyFrame).runs .single
      (secondForward ++ (frameRead 4).take 5) = some s ∧
      s.forwarded.map GpioDataFrame.payload = [[1, 1], [2, 2]] ∧
      s.d.stored.map GpioDataFrame.payload = [[1, 1], [2, 2], [3, 3]] := ⟨_, rfl, rfl, rfl⟩
  exact ⟨s, hs, hfor, hst, forwarded_prefix_of_stored rfl ⟨_, system_reaches hs⟩⟩

end Steps

end WifiOsc
