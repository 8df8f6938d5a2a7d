/-
  File:      WifiOsc/Driver/ReceiveSafe.lean
  Subject:   WHAT `receive_data` DOES AT MOST (LINUX/test_gpio_interrupt/src/gpio_interrupt.c),
             whatever the pins show: its reads, its waits, its writes and its turns of ACK.

  * `ReceiveOp`, `receiveOps`: the operations of a call, in order;
  * `waitReads`: the reads of each iteration of the outer loop, the last one first; `writes`: the
    elements of `data` that are written;
  * `Sound`: the invariant of both loops; `sound_step`: one access;
  * **`receive_safe`**: a whole call, over every sequence of words.
-/
import WifiOsc.Basis.Machine
import WifiOsc.Driver.DataLines

namespace WifiOsc

open Basis

/-! ## 1. The operations of a call -/

/-- A read of the pins, a turn of ACK, a write to `data`; `wait` is `timer = 0`, with which an
    iteration of the outer loop begins. -/
inductive ReceiveOp where
  | read
  | ack
  | write (i : Nat) (b : Byte)
  | wait
  deriving DecidableEq, Repr

/-- The turn of ACK and the write for the word last read. -/
def ReceiveData.storeOps (r : ReceiveData) : List ReceiveOp :=
  [.ack, .write r.dataLen (gpio2Data r.dataTemp)]

/-- What an access does, up to the next one. -/
def ReceiveData.ops (r : ReceiveData) : List ReceiveOp :=
  match r.pc with
  | .firstRead | .poll => [.read]
  | .firstAck => [.ack, .wait]
  | .dataAck => r.storeOps ++ if gpioDataLenMax ≤ r.dataLen + 1 then [] else [.wait]
  | .timeoutAck => [.ack]
  | .done => []

/-- A call over the words `w 0, w 1, …`, one access at a step. -/
def receiver (w : Nat → BitVec 32) : Machine Receiving Unit ReceiveOp where
  step s _ := s.access w
  out s _ := s.call.ops

/-- The operations of a whole call. -/
def receiveOps (w : Nat → BitVec 32) (frame : GpioDataFrame) : List ReceiveOp :=
  (receiver w).log (.start frame) (List.replicate ReceiveData.opsMax ())

theorem receiver_run (w : Nat → BitVec 32) (s : Receiving) (n : Nat) :
    (receiver w).run s (List.replicate n ()) = (Receiving.access w)^[n] s := by
  induction n generalizing s with
  | zero => rfl
  | succ n ih =>
    rw [List.replicate_succ, Machine.run_cons, ih, Function.iterate_succ_apply]
    rfl

/-- The reads of each iteration of the outer loop, the last one first. -/
def waitReads (l : List ReceiveOp) : List Nat :=
  l.foldl
    (fun ws op =>
      match op, ws with
      | .wait, ws => 0 :: ws
      | .read, n :: ws => (n + 1) :: ws
      | .read, [] => []
      | .ack, ws => ws
      | .write _ _, ws => ws)
    []

/-- What is written to `data`, in order. -/
def writes (l : List ReceiveOp) : List (Nat × Byte) :=
  l.filterMap fun
    | .write i b => some (i, b)
    | .read | .ack | .wait => none

/-- The last wait has made 200 reads: the way out of `if(timer ==200)`. -/
def LeavesByTimeout (l : List ReceiveOp) : Prop := (waitReads l).head? = some 200

section Ops

variable {l : List ReceiveOp} {n : Nat} {ws : List Nat}

@[simp] theorem waitReads_wait : waitReads (l ++ [.wait]) = 0 :: waitReads l := by simp [waitReads]

@[simp] theorem waitReads_ack : waitReads (l ++ [.ack]) = waitReads l := by simp [waitReads]

@[simp] theorem waitReads_write (i : Nat) (b : Byte) : waitReads (l ++ [.write i b]) = waitReads l := by
  simp [waitReads]

theorem waitReads_read (h : waitReads l = n :: ws) : waitReads (l ++ [.read]) = (n + 1) :: ws := by
  unfold waitReads at h ⊢
  rw [List.foldl_append, h]
  rfl

@[simp] theorem writes_append (l l' : List ReceiveOp) :
    writes (l ++ l') = writes l ++ writes l' :=
  List.filterMap_append

end Ops

/-! ## 2. The invariant of the loops -/

/-- Inside the outer loop: the current wait has made `timer` reads, each earlier one has led to a
    byte, and ACK has turned once more often. -/
structure Looping (r : ReceiveData) (l : List ReceiveOp) : Prop where
  waits : ∃ ws, waitReads l = r.timer :: ws ∧ ws.length = r.dataLen ∧ ∀ n ∈ ws, n ≤ 200
  acks : l.count .ack = r.dataLen + 1
  room : r.dataLen < gpioDataLenMax
  reads : l.count .read = 1 + (waitReads l).sum

/-- After the return. -/
structure Returned (r : ReceiveData) (l : List ReceiveOp) : Prop where
  len : r.frame.len = r.dataLen
  acks : (LeavesByTimeout l → l.count .ack = r.dataLen + 2) ∧
    (¬ LeavesByTimeout l → r.dataLen = gpioDataLenMax ∧ l.count .ack = r.dataLen + 1)
  room : r.dataLen ≤ gpioDataLenMax
  waits : (waitReads l).length ≤ gpioDataLenMax
  each : ∀ n ∈ waitReads l, n ≤ 200
  reads : l.count .read = 1 + (waitReads l).sum

/-- What holds before each access, after the operations `l`. -/
structure Sound (r : ReceiveData) (l : List ReceiveOp) : Prop where
  writes : writes l = (List.range r.dataLen).map fun i => (i, r.frame.data i)
  phase : match r.pc with
    | .firstRead => l = [] ∧ r.dataLen = 0
    | .firstAck => l = [.read] ∧ r.dataLen = 0 ∧ r.dataTemp &&& gpioClk = r.clkBit
    | .poll => Looping r l ∧ r.timer < 200
    | .dataAck => Looping r l ∧ r.timer < 200 ∧ r.dataTemp &&& gpioClk = r.clkBit
    | .timeoutAck => Looping r l ∧ r.timer = 200
    | .done => Returned r l

variable {r : ReceiveData} {l : List ReceiveOp} {word : BitVec 32}

theorem sound_call (frame : GpioDataFrame) : Sound (.call frame) [] := ⟨rfl, rfl, rfl⟩

/-- One more read of the current wait. -/
theorem looping_read (h : Looping r l) {r' : ReceiveData} (ht : r'.timer = r.timer + 1)
    (hlen : r'.dataLen = r.dataLen) : Looping r' (l ++ [.read]) := by
  obtain ⟨⟨ws, hws, hl, hall⟩, ha, hroom, hr⟩ := h
  have hws' := waitReads_read hws
  refine ⟨⟨ws, by rw [hws', ht], by rw [hlen, hl], hall⟩, ?_, by rw [hlen]; exact hroom, ?_⟩
  · rw [List.count_append, ha, hlen]
    rfl
  · rw [List.count_append, hr, hws', hws, List.sum_cons, List.sum_cons, List.count_singleton_self]
    omega

theorem sound_poll (hp : r.pc = .poll) (h : Sound r l) :
    Sound (r.step word) (l ++ r.ops) := by
  obtain ⟨hw, hphase⟩ := h
  rw [hp] at hphase
  obtain ⟨hloop, ht⟩ := hphase
  have hops : r.ops = [.read] := by rw [ReceiveData.ops, hp]
  have hw' : writes (l ++ [.read]) = (List.range r.dataLen).map fun i => (i, r.frame.data i) := by
    rw [writes_append, hw]
    exact List.append_nil _
  rw [hops]
  rcases Nat.lt_or_ge (r.timer + 1) 200 with hlt | hge
  · by_cases hsame : word &&& gpioClk = r.clkBit
    · rw [ReceiveData.step_wait hp hsame hlt]
      exact ⟨hw', looping_read hloop rfl rfl, hlt⟩
    · rw [ReceiveData.step_turn hp hsame hlt]
      exact ⟨hw', looping_read hloop rfl rfl, hlt, rfl⟩
  · have hlast : r.timer + 1 = 200 := Nat.le_antisymm ht hge
    rw [ReceiveData.step_timeout hp hlast]
    exact ⟨hw', looping_read hloop hlast.symm rfl, rfl⟩

/-- A wait that begins after a byte, or after the header. -/
theorem looping_wait {l' : List ReceiveOp} (hall : ∀ n ∈ waitReads l', n ≤ 200)
    (hlen : (waitReads l').length = r.dataLen) (ha : l'.count .ack = r.dataLen + 1)
    (hroom : r.dataLen < gpioDataLenMax) (hr : l'.count .read = 1 + (waitReads l').sum)
    (ht : r.timer = 0) : Looping r (l' ++ [.wait]) := by
  refine ⟨⟨waitReads l', by rw [waitReads_wait, ht], hlen, hall⟩, ?_, hroom, ?_⟩
  · rw [List.count_append, ha]
    rfl
  · rw [List.count_append, hr, waitReads_wait, List.sum_cons, Nat.zero_add]
    rfl

/-- What is written is appended. -/
theorem writes_stored (hw : writes l = (List.range r.dataLen).map fun i => (i, r.frame.data i)) :
    writes (l ++ r.storeOps) = (List.range (r.dataLen + 1)).map fun i =>
      (i, Function.update r.frame.data r.dataLen (gpio2Data r.dataTemp) i) := by
  have hpairs : (fun i => (i, Function.update r.frame.data r.dataLen (gpio2Data r.dataTemp) i)) =
      Function.update (fun i => (i, r.frame.data i)) r.dataLen
        (r.dataLen, gpio2Data r.dataTemp) :=
    funext (Function.apply_update (fun i x => (i, x)) r.frame.data r.dataLen _)
  rw [writes_append, hw, hpairs, map_range_update]
  rfl

theorem sound_dataAck (hp : r.pc = .dataAck) (h : Sound r l) :
    Sound (r.step word) (l ++ r.ops) := by
  obtain ⟨hw, hphase⟩ := h
  rw [hp] at hphase
  obtain ⟨⟨⟨ws, hws, hl, hall⟩, ha, hroom, hr⟩, ht, hsame⟩ := hphase
  have hw' := writes_stored hw
  have hwaits : waitReads (l ++ r.storeOps) = r.timer :: ws := by
    rw [← hws, ReceiveData.storeOps, List.append_cons, waitReads_write, waitReads_ack]
  have hacks : (l ++ r.storeOps).count .ack = r.dataLen + 1 + 1 := by
    rw [List.count_append, ha]
    rfl
  have hreads : (l ++ r.storeOps).count .read = 1 + (r.timer :: ws).sum := by
    rw [List.count_append, hr, hws]
    rfl
  have hlen : (r.timer :: ws).length = r.dataLen + 1 := congrArg (· + 1) hl
  have hall' : ∀ n ∈ r.timer :: ws, n ≤ 200 := by
    intro n hn
    rcases List.mem_cons.mp hn with rfl | hn
    · exact Nat.le_of_lt ht
    · exact hall n hn
  rcases Nat.lt_or_ge (r.dataLen + 1) gpioDataLenMax with hlt | hge
  · have hops : r.ops = r.storeOps ++ [.wait] := by
      simp only [ReceiveData.ops, hp, if_neg (Nat.not_le_of_lt hlt)]
    rw [hops, ← List.append_assoc, ReceiveData.step_dataAck hp hsame hlt]
    refine ⟨?_, ?_, Nat.succ_pos 199⟩
    · rw [writes_append, hw']
      exact List.append_nil _
    · rw [← hwaits] at hlen hall' hreads
      exact looping_wait hall' hlen hacks hlt hreads rfl
  · -- the last byte there is room for: no wait follows
    have hfull : r.dataLen + 1 = gpioDataLenMax := Nat.le_antisymm hroom hge
    have hops : r.ops = r.storeOps := by
      simp only [ReceiveData.ops, hp, if_pos hge, List.append_nil]
    have hnot : ¬ LeavesByTimeout (l ++ r.storeOps) := by
      unfold LeavesByTimeout
      rw [hwaits]
      intro e
      exact Nat.ne_of_lt ht (Option.some.inj e)
    rw [hops, ReceiveData.step_full hp hfull]
    refine ⟨by rw [hw', hfull], rfl, ⟨fun h => absurd h hnot, fun _ => ⟨rfl, ?_⟩⟩, Nat.le_refl _,
      ?_, ?_, ?_⟩
    · rw [hacks, hfull]
    · rw [hwaits, hlen]
      exact hroom
    · rw [hwaits]
      exact hall'
    · rw [hwaits]
      exact hreads

theorem sound_timeoutAck (hp : r.pc = .timeoutAck) (h : Sound r l) :
    Sound (r.step word) (l ++ r.ops) := by
  obtain ⟨hw, hphase⟩ := h
  rw [hp] at hphase
  obtain ⟨⟨⟨ws, hws, hl, hall⟩, ha, hroom, hr⟩, ht⟩ := hphase
  have hops : r.ops = [.ack] := by rw [ReceiveData.ops, hp]
  have hwaits : waitReads (l ++ [.ack]) = 200 :: ws := by rw [waitReads_ack, hws, ht]
  have htime : LeavesByTimeout (l ++ [.ack]) := by
    unfold LeavesByTimeout
    rw [hwaits]
    rfl
  rw [hops, ReceiveData.step_timeoutAck hp]
  refine ⟨?_, rfl, ⟨fun _ => ?_, fun h => absurd htime h⟩, Nat.le_of_lt hroom, ?_, ?_, ?_⟩
  · rw [writes_append, hw]
    exact List.append_nil _
  · rw [List.count_append, ha]
    rfl
  · rw [hwaits, List.length_cons, hl]
    exact hroom
  · rw [hwaits]
    intro n hn
    rcases List.mem_cons.mp hn with rfl | hn
    · exact Nat.le_refl 200
    · exact hall n hn
  · rw [List.count_append, hr, waitReads_ack]
    rfl

/-- **One access keeps the invariant.** -/
theorem sound_step (h : Sound r l) (word : BitVec 32) : Sound (r.step word) (l ++ r.ops) := by
  cases hp : r.pc with
  | firstRead =>
    obtain ⟨hw, hphase⟩ := h
    rw [hp] at hphase
    obtain ⟨rfl, hlen⟩ := hphase
    rw [ReceiveData.ops, hp, ReceiveData.step_firstRead hp]
    exact ⟨by rw [hlen]; rfl, rfl, hlen, rfl⟩
  | firstAck =>
    obtain ⟨hw, hphase⟩ := h
    rw [hp] at hphase
    obtain ⟨rfl, hlen, hsame⟩ := hphase
    rw [ReceiveData.ops, hp, ReceiveData.step_firstAck hp hsame]
    refine ⟨by rw [hlen]; rfl, ?_, Nat.succ_pos 199⟩
    have hnone : ∀ n ∈ waitReads [.read, .ack], n ≤ 200 := fun n hn => absurd hn List.not_mem_nil
    exact looping_wait hnone hlen.symm (by rw [hlen]; rfl) (by rw [hlen]; exact Nat.succ_pos 3999)
      rfl rfl
  | poll => exact sound_poll hp h
  | dataAck => exact sound_dataAck hp h
  | timeoutAck => exact sound_timeoutAck hp h
  | done =>
    have hsame : r.step word = r := by simp only [ReceiveData.step, hp]
    rw [hsame, ReceiveData.ops, hp, List.append_nil]
    exact h

theorem Sound.returned (h : Sound r l) (hd : r.pc = .done) : Returned r l := by
  have hphase := h.phase
  rw [hd] at hphase
  exact hphase

/-! ## 3. A whole call -/

theorem sound_receive (w : Nat → BitVec 32) (frame : GpioDataFrame) :
    Sound (receive w frame).call (receiveOps w frame) := by
  have hall (is : List Unit) : Sound ((receiver w).run (.start frame) is).call
      ([] ++ (receiver w).log (.start frame) is) :=
    @Machine.inv_log _ _ _ (receiver w) (fun s l => Sound s.call l)
      (fun s _ _ h => sound_step h (w s.reads)) _ _ (sound_call frame) is
  have h := hall (List.replicate ReceiveData.opsMax ())
  rw [receiver_run, List.nil_append] at h
  unfold receive receiveOps
  exact h

theorem waitTurn_eq_none {c : Nat → Bool} {k : Nat} (h : ∀ m, k < m → m < k + 200 → c m = c k) :
    waitTurn c k = none := by
  refine List.find?_range'_eq_none.mpr fun m hlo hhi => ?_
  have hsame := h m hlo (by omega)
  simpa using hsame

/-- **`receive_data` on any hardware.** It returns; each iteration of the outer loop makes at most
    200 reads, and there are at most 4000 of them; `data[0], …, data[len-1]` are written once each, in
    order; ACK turns `len + 2` times before a return by timeout and `len + 1` times before one by
    length; a clock that first turns at the 200th read of a wait stores nothing. -/
theorem receive_safe (w : Nat → BitVec 32) (frame : GpioDataFrame) :
    (receive w frame).call.pc = .done ∧
      (waitReads (receiveOps w frame)).length ≤ 4000 ∧
      (∀ n ∈ waitReads (receiveOps w frame), n ≤ 200) ∧
      (receiveOps w frame).count .read = 1 + (waitReads (receiveOps w frame)).sum ∧
      (receive w frame).call.frame.len ≤ 4000 ∧
      writes (receiveOps w frame) = (List.range (receive w frame).call.frame.len).map
        (fun i => (i, (receive w frame).call.frame.data i)) ∧
      (LeavesByTimeout (receiveOps w frame) →
        (receiveOps w frame).count .ack = (receive w frame).call.frame.len + 2) ∧
      (¬ LeavesByTimeout (receiveOps w frame) →
        (receive w frame).call.frame.len = 4000 ∧
          (receiveOps w frame).count .ack = (receive w frame).call.frame.len + 1) ∧
      ∀ k s, Receiving.Leads w (.start frame) s → Receiving.Waits w k 0 s →
        (∀ m, k < m → m < k + 200 → clkPin (w m) = clkPin (w k)) →
        clkPin (w (k + 200)) ≠ clkPin (w k) →
        (receive w frame).call.frame = { s.call.frame with len := s.call.dataLen } ∧
          (receive w frame).acks = s.acks ++ [k + 201] := by
  have hd := @receive_done w frame
  have hw := (sound_receive w frame).writes
  obtain ⟨hlen, hacks, hroom, hwaits, heach, hreads⟩ := (sound_receive w frame).returned hd
  rw [← hlen] at hw hacks hroom
  refine ⟨hd, hwaits, heach, hreads, hroom, hw, hacks.1, hacks.2, ?_⟩
  intro k s hl hk hsame _
  obtain ⟨s', hl', hd', hf, ha⟩ := hk.timeout (waitTurn_eq_none hsame)
  rw [receive_eq (hl.trans hl') hd']
  exact ⟨hf, ha⟩

/-- The clock turns at the 200th read of the first wait, and nothing is stored. -/
theorem late_turn_stores_nothing :
    (receive (fun k => if k < 200 then 0#32 else gpioClk) blankFrame).call.frame.len = 0 := by
  obtain ⟨s, hl, hk, hlen, _⟩ :=
    Receiving.start_leads (fun k => if k < 200 then 0#32 else gpioClk) blankFrame
  have hsafe := receive_safe (fun k => if k < 200 then 0#32 else gpioClk) blankFrame
  obtain ⟨hf, _⟩ := hsafe.2.2.2.2.2.2.2.2 0 s hl hk (by
    intro m _ hm
    have hm' : m < 200 := by omega
    simp [hm']) (by decide)
  rw [hf]
  exact hlen

end WifiOsc
