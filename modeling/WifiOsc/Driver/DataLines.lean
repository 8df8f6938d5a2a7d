/-
  File:      WifiOsc/Driver/DataLines.lean
  Subject:   WHAT `receive_data` READS. A whole call against an arbitrary sequence of input words, and
             which pins decide what it stores.

  Which reads are stored is decided by pin 22 alone (`storedReads`), and so are the turns of ACK
  (`ackTimes`). What is stored is `Gpio2Data`, whose cast of the shifted word to `u8` keeps pin 18 as
  bit 7 and adds pin 0 to it.

  * `receive`: a call over the words `w 0, w 1, …` of its reads; `receive_spec`: its result;
  * `gpio2Data_eq`: pin 18 turns the top bit over;
  * `data_lines_iff`: the eight data lines and the clock decide the result exactly when pin 18 is low
    at every read that is stored.
-/
import Mathlib.Logic.Relation
import WifiOsc.Driver.ReceiveData

namespace WifiOsc

/-! ## 1. Pins of a word -/

/-- Pin 0 as bit 7, pins 17 to 11 as bits 6 to 0. -/
def dataPins (word : BitVec 32) : Byte := BitVec.ofBool (word.getLsbD 0) ++ word.extractLsb 17 11

theorem and_one (word : BitVec 32) : word &&& 1#32 = (BitVec.ofBool (word.getLsbD 0)).setWidth 32 := by
  have htwo : 1#32 = BitVec.twoPow 32 0 := by decide
  rw [htwo, BitVec.and_twoPow]
  cases word.getLsbD 0 <;> decide

/-- The sum of the macro, in its last 8 bits. -/
theorem gpio2Data_sum (word : BitVec 32) : gpio2Data word =
    (BitVec.ofBool (word.getLsbD 0)).setWidth 8 <<< 7 + word.extractLsb 18 11 := by
  have hlow : (word >>> 11).setWidth 8 = word.extractLsb 18 11 := by
    apply BitVec.eq_of_getLsbD_eq
    intro j hj
    simp [hj]
  have hback : ((word.extractLsb 18 11).setWidth 32).setWidth 8 = word.extractLsb 18 11 :=
    BitVec.setWidth_setWidth_of_le _ (by decide)
  unfold gpio2Data
  rw [and_one, hlow, BitVec.setWidth_add _ _ (by decide), hback]
  congr 1
  cases word.getLsbD 0 <;> decide

theorem sum_lines : ∀ (b p : Bool) (d : BitVec 7),
    (BitVec.ofBool b).setWidth 8 <<< 7 + (BitVec.ofBool p ++ d) =
      (BitVec.ofBool b ++ d) ^^^ (BitVec.ofBool p ++ 0#7) := by
  decide

/-- **Pin 18 turns the top bit over**, for what should be pin 0 alone. -/
theorem gpio2Data_eq (word : BitVec 32) :
    gpio2Data word = dataPins word ^^^ (BitVec.ofBool (word.getLsbD 18) ++ 0#7) := by
  have hsplit : word.extractLsb 18 11 = BitVec.ofBool (word.getLsbD 18) ++ word.extractLsb 17 11 := by
    apply BitVec.eq_of_getLsbD_eq
    intro j hj
    rw [BitVec.getLsbD_append, BitVec.getLsbD_extractLsb, BitVec.getLsbD_extractLsb]
    rcases Nat.lt_succ_iff_lt_or_eq.mp hj with hlt | rfl
    · have h8 : j < 8 := hj
      simp [hlt, h8]
    · simp
  rw [gpio2Data_sum, hsplit]
  exact sum_lines _ _ _

theorem gpio2Data_eq_dataPins (word : BitVec 32) :
    gpio2Data word = dataPins word ↔ word.getLsbD 18 = false := by
  rw [gpio2Data_eq]
  cases word.getLsbD 18 with
  | false =>
    refine iff_of_true ?_ rfl
    exact BitVec.xor_zero
  | true =>
    refine iff_of_false (fun h => ?_) nofun
    have hzero := congrArg (dataPins word ^^^ ·) h
    simp only [← BitVec.xor_assoc, BitVec.xor_self, BitVec.zero_xor] at hzero
    exact absurd hzero (by decide)

/-! ## 2. Which reads are stored -/

section Stored

/-- `c k` is pin 22 at read `k`. The read that ends the wait that follows read `k`; a turn at its
    200th read comes too late. -/
def waitTurn (c : Nat → Bool) (k : Nat) : Option Nat :=
  (List.range' (k + 1) 199).find? fun j => c j != c k

/-- The reads whose words are stored as data, from the wait after read `k` on, with room for `n`. -/
def storedReads (c : Nat → Bool) : Nat → Nat → List Nat
  | _, 0 => []
  | k, n + 1 =>
      match waitTurn c k with
      | none => []
      | some j => j :: storedReads c j n

/-- How many reads have been made at each turn of ACK. -/
def ackTimes (c : Nat → Bool) : Nat → Nat → List Nat
  | _, 0 => []
  | k, n + 1 =>
      match waitTurn c k with
      | none => [k + 201]
      | some j => (j + 1) :: ackTimes c j n

variable {c : Nat → Bool} {k j n : Nat}

theorem storedReads_of_none (h : waitTurn c k = none) : storedReads c k (n + 1) = [] := by
  rw [storedReads, h]

theorem storedReads_of_some (h : waitTurn c k = some j) :
    storedReads c k (n + 1) = j :: storedReads c j n := by
  rw [storedReads, h]

theorem ackTimes_of_none (h : waitTurn c k = none) : ackTimes c k (n + 1) = [k + 201] := by
  rw [ackTimes, h]

theorem ackTimes_of_some (h : waitTurn c k = some j) :
    ackTimes c k (n + 1) = (j + 1) :: ackTimes c j n := by
  rw [ackTimes, h]

theorem waitTurn_some (h : waitTurn c k = some j) :
    c j ≠ c k ∧ k < j ∧ j < k + 200 ∧ ∀ m, k < m → m < j → c m = c k := by
  obtain ⟨hne, hmem, hbefore⟩ := List.find?_range'_eq_some.mp h
  rw [List.mem_range'_1] at hmem
  refine ⟨by simpa using hne, hmem.1, by omega, ?_⟩
  intro m hlo hhi
  simpa using hbefore m hlo hhi

theorem waitTurn_none (h : waitTurn c k = none) : ∀ m, k < m → m < k + 200 → c m = c k := by
  intro m hlo hhi
  have hno := List.find?_range'_eq_none.mp h m hlo (by omega)
  simpa using hno

end Stored

/-! ## 3. A call -/

/-- A call, how many reads it has made, and how many it had made at each turn of ACK. -/
structure Receiving where
  call : ReceiveData
  reads : Nat
  acks : List Nat

/-- Does the next access read the pins? -/
def ReceiveData.readsPins (r : ReceiveData) : Bool :=
  match r.pc with
  | .firstRead | .poll => true
  | .firstAck | .dataAck | .timeoutAck | .done => false

namespace Receiving

/-- One access; read `k` returns `w k`. -/
def access (w : Nat → BitVec 32) (s : Receiving) : Receiving :=
  { call := s.call.step (w s.reads)
    reads := if s.call.readsPins then s.reads + 1 else s.reads
    acks := if s.call.toggles then s.acks ++ [s.reads] else s.acks }

def start (frame : GpioDataFrame) : Receiving := ⟨.call frame, 0, []⟩

/-- Some accesses lead from `s` to `s'`. -/
def Leads (w : Nat → BitVec 32) : Receiving → Receiving → Prop :=
  Relation.ReflTransGen fun s s' => s' = s.access w

section Access

variable {w : Nat → BitVec 32} {s s' s'' : Receiving}

theorem Leads.access (h : s' = s.access w) : Leads w s s' := .single h

theorem Leads.trans (h : Leads w s s') (h' : Leads w s' s'') : Leads w s s'' :=
  Relation.ReflTransGen.trans h h'

/-- The pins at read `k`. -/
abbrev clk (w : Nat → BitVec 32) (k : Nat) : Bool := clkPin (w k)

/-- `t` reads of the wait after read `k` have found no turn. -/
structure Waits (w : Nat → BitVec 32) (k t : Nat) (s : Receiving) : Prop where
  pc : s.call.pc = .poll
  timer : s.call.timer = t
  clkBit : s.call.clkBit = clkWord (clk w k)
  reads : s.reads = k + 1 + t

/-- Read `j` has found a turn. -/
structure Turned (w : Nat → BitVec 32) (j : Nat) (s : Receiving) : Prop where
  pc : s.call.pc = .dataAck
  dataTemp : s.call.dataTemp = w j
  clkBit : s.call.clkBit = clkWord (clk w j)
  reads : s.reads = j + 1

/-- Nothing has been stored and ACK has not turned. -/
structure Kept (s s' : Receiving) : Prop where
  dataLen : s'.call.dataLen = s.call.dataLen
  frame : s'.call.frame = s.call.frame
  acks : s'.acks = s.acks

theorem Kept.trans (h : Kept s s') (h' : Kept s' s'') : Kept s s'' :=
  ⟨h'.dataLen.trans h.dataLen, h'.frame.trans h.frame, h'.acks.trans h.acks⟩

theorem access_poll (hp : s.call.pc = .poll) :
    s.access w = ⟨s.call.step (w s.reads), s.reads + 1, s.acks⟩ := by
  simp [access, ReceiveData.readsPins, ReceiveData.toggles, hp]

theorem access_ack (hp : s.call.pc = .firstAck ∨ s.call.pc = .dataAck ∨ s.call.pc = .timeoutAck) :
    s.access w = ⟨s.call.step (w s.reads), s.reads, s.acks ++ [s.reads]⟩ := by
  rcases hp with hp | hp | hp <;> simp [access, ReceiveData.readsPins, ReceiveData.toggles, hp]

variable {k t j : Nat}

theorem Waits.wait (h : Waits w k t s) (ht : t + 1 < 200)
    (hsame : clk w (k + 1 + t) = clk w k) :
    Waits w k (t + 1) (s.access w) ∧ Kept s (s.access w) := by
  have hword : w s.reads &&& gpioClk = s.call.clkBit := by
    rw [and_gpioClk, h.clkBit, h.reads]
    exact congrArg clkWord hsame
  rw [access_poll h.pc, ReceiveData.step_wait h.pc hword (by rw [h.timer]; exact ht)]
  exact ⟨⟨rfl, congrArg (· + 1) h.timer, h.clkBit, congrArg (· + 1) h.reads⟩, ⟨rfl, rfl, rfl⟩⟩

/-- `t` reads without a turn. -/
theorem Waits.leads (h : Waits w k 0 s) (t : Nat) (ht : t < 200)
    (hsame : ∀ m, k < m → m ≤ k + t → clk w m = clk w k) :
    ∃ s', Leads w s s' ∧ Waits w k t s' ∧ Kept s s' := by
  induction t with
  | zero => exact ⟨s, Relation.ReflTransGen.refl, h, ⟨rfl, rfl, rfl⟩⟩
  | succ t ih =>
    obtain ⟨s', hl, hw, hk⟩ := ih (by omega) fun m hlo hhi => hsame m hlo (by omega)
    obtain ⟨hw', hk'⟩ := hw.wait ht (hsame (k + 1 + t) (by omega) (by omega))
    exact ⟨s'.access w, hl.trans (.access rfl), hw', hk.trans hk'⟩

/-- A wait that ends with a turn. -/
theorem Waits.turn (h : Waits w k 0 s) (hj : waitTurn (clk w) k = some j) :
    ∃ s', Leads w s s' ∧ Turned w j s' ∧ Kept s s' := by
  obtain ⟨hne, hlo, hhi, hsame⟩ := waitTurn_some hj
  obtain ⟨s', hl, hw, hk⟩ := h.leads (j - k - 1) (by omega) fun m h1 h2 => hsame m h1 (by omega)
  have hreads : s'.reads = j := by
    rw [hw.reads]
    omega
  have hword : w s'.reads &&& gpioClk ≠ s'.call.clkBit := by
    rw [and_gpioClk, hw.clkBit, hreads]
    exact fun e => hne (clkWord_inj.mp e)
  refine ⟨s'.access w, hl.trans (.access rfl), ?_⟩
  rw [access_poll hw.pc,
    ReceiveData.step_turn hw.pc hword (by rw [hw.timer]; omega), and_gpioClk, hreads]
  exact ⟨⟨rfl, rfl, rfl, rfl⟩, hk.trans ⟨rfl, rfl, rfl⟩⟩

/-- A wait that times out, and the return. -/
theorem Waits.timeout (h : Waits w k 0 s) (hj : waitTurn (clk w) k = none) :
    ∃ s', Leads w s s' ∧ s'.call.pc = .done ∧
      s'.call.frame = { s.call.frame with len := s.call.dataLen } ∧
      s'.acks = s.acks ++ [k + 201] := by
  obtain ⟨s', hl, hw, hk⟩ := h.leads 199 (by omega) fun m h1 h2 => waitTurn_none hj m h1 (by omega)
  refine ⟨(s'.access w).access w, hl.trans ((Leads.access rfl).trans (.access rfl)), ?_⟩
  rw [access_poll hw.pc, ReceiveData.step_timeout hw.pc (by rw [hw.timer]),
    access_ack (Or.inr (Or.inr rfl)), ReceiveData.step_timeoutAck rfl]
  exact ⟨rfl, by rw [hk.frame, hk.dataLen], by rw [hk.acks, hw.reads]⟩

/-- The byte of read `j` is stored, and the next wait begins. -/
theorem Turned.stored (h : Turned w j s) (hroom : s.call.dataLen + 1 < gpioDataLenMax) :
    Waits w j 0 (s.access w) ∧ (s.access w).call.dataLen = s.call.dataLen + 1 ∧
      (s.access w).call.frame = { s.call.frame with
        data := Function.update s.call.frame.data s.call.dataLen (gpio2Data (w j)) } ∧
      (s.access w).acks = s.acks ++ [j + 1] := by
  have hsame : s.call.dataTemp &&& gpioClk = s.call.clkBit := by
    rw [h.dataTemp, and_gpioClk, h.clkBit]
  rw [access_ack (Or.inr (Or.inl h.pc)), ReceiveData.step_dataAck h.pc hsame hroom]
  exact ⟨⟨rfl, rfl, h.clkBit, h.reads⟩, rfl, by rw [h.dataTemp], by rw [h.reads]⟩

/-- The byte of read `j` is stored, and it is the last one there is room for. -/
theorem Turned.full (h : Turned w j s) (hroom : s.call.dataLen + 1 = gpioDataLenMax) :
    (s.access w).call.pc = .done ∧
      (s.access w).call.frame = { s.call.frame with
        len := s.call.dataLen + 1
        data := Function.update s.call.frame.data s.call.dataLen (gpio2Data (w j)) } ∧
      (s.access w).acks = s.acks ++ [j + 1] := by
  rw [access_ack (Or.inr (Or.inl h.pc))]
  simp only [ReceiveData.step, h.pc, hroom, Nat.le_refl, if_true, h.dataTemp, h.reads]
  exact ⟨trivial, trivial, trivial⟩

/-- **From a wait to the return**, with room for `n + 1` bytes. -/
theorem Waits.returns {n : Nat} (h : Waits w k 0 s)
    (hroom : s.call.dataLen + (n + 1) = gpioDataLenMax) :
    ∃ s', Leads w s s' ∧ s'.call.pc = .done ∧
      s'.call.frame.frameType = s.call.frame.frameType ∧
      s'.call.frame.payload = (List.range s.call.dataLen).map s.call.frame.data ++
        (storedReads (clk w) k (n + 1)).map (fun j => gpio2Data (w j)) ∧
      s'.acks = s.acks ++ ackTimes (clk w) k (n + 1) := by
  induction n generalizing k s with
  | zero =>
    cases hj : waitTurn (clk w) k with
    | none =>
      obtain ⟨s', hl, hd, hf, ha⟩ := h.timeout hj
      refine ⟨s', hl, hd, by rw [hf], ?_, ?_⟩
      · simp [hf, GpioDataFrame.payload, storedReads_of_none hj]
      · rw [ha, ackTimes_of_none hj]
    | some j =>
      obtain ⟨s', hl, ht, hk⟩ := h.turn hj
      obtain ⟨hd, hf, ha⟩ := ht.full (by rw [hk.dataLen]; exact hroom)
      refine ⟨s'.access w, hl.trans (.access rfl), hd, by rw [hf, hk.frame], ?_, ?_⟩
      · rw [hf, GpioDataFrame.payload, map_range_update, hk.dataLen, hk.frame,
          storedReads_of_some hj]
        rfl
      · rw [ha, hk.acks, ackTimes_of_some hj]
        rfl
  | succ n ih =>
    cases hj : waitTurn (clk w) k with
    | none =>
      obtain ⟨s', hl, hd, hf, ha⟩ := h.timeout hj
      refine ⟨s', hl, hd, by rw [hf], ?_, ?_⟩
      · simp [hf, GpioDataFrame.payload, storedReads_of_none hj]
      · rw [ha, ackTimes_of_none hj]
    | some j =>
      obtain ⟨s', hl, ht, hk⟩ := h.turn hj
      obtain ⟨hw, hlen, hf, ha⟩ := ht.stored (by rw [hk.dataLen]; omega)
      obtain ⟨s'', hl', hd, hft, hp, ha'⟩ := ih hw (by rw [hlen, hk.dataLen]; omega)
      refine ⟨s'', hl.trans ((Leads.access rfl).trans hl'), hd, ?_, ?_, ?_⟩
      · rw [hft, hf, hk.frame]
      · rw [hp, hlen, hf, map_range_update, hk.dataLen, hk.frame,
          storedReads_of_some hj, List.append_assoc]
        rfl
      · rw [ha', ha, hk.acks, ackTimes_of_some hj, List.append_assoc]
        rfl

/-- The first two accesses: the header is read, ACK turns over, the first wait begins. -/
theorem start_leads (w : Nat → BitVec 32) (frame : GpioDataFrame) :
    ∃ s, Leads w (start frame) s ∧ Waits w 0 0 s ∧ s.call.dataLen = 0 ∧
      s.call.frame = { frame with frameType := gpio2Data (w 0) } ∧ s.acks = [1] := by
  refine ⟨((start frame).access w).access w, (Leads.access rfl).trans (.access rfl), ?_⟩
  have h1 : (start frame).access w =
      ⟨{ ReceiveData.call frame with
        dataTemp := w 0, clkBit := w 0 &&& gpioClk, pc := .firstAck }, 1, []⟩ := rfl
  rw [h1, access_ack (Or.inl rfl), ReceiveData.step_firstAck rfl rfl]
  exact ⟨⟨rfl, rfl, and_gpioClk _, rfl⟩, rfl, rfl, rfl⟩

/-! ## 4. It has returned after `opsMax` accesses -/

theorem access_done (h : s.call.pc = .done) : s.access w = s := by
  simp [access, ReceiveData.readsPins, ReceiveData.toggles, ReceiveData.step, h]

theorem iterate_done (h : s.call.pc = .done) (n : Nat) : (access w)^[n] s = s :=
  Function.iterate_fixed (access_done h) n

theorem done_within (n : Nat) (hb : s.call.Bounded) (h : s.call.opsLeft ≤ n) :
    ((access w)^[n] s).call.pc = .done := by
  induction n generalizing s with
  | zero =>
    by_cases hd : s.call.pc = .done
    · exact hd
    · exact absurd (ReceiveData.opsLeft_pos hd) (Nat.not_lt.mpr h)
  | succ n ih =>
    by_cases hd : s.call.pc = .done
    · rw [iterate_done hd]
      exact hd
    · rw [Function.iterate_succ_apply]
      refine ih (ReceiveData.bounded_step hb _) ?_
      have hlt := ReceiveData.opsLeft_step hb hd (w s.reads)
      exact Nat.le_of_lt_succ (Nat.lt_of_lt_of_le hlt h)

theorem exists_iterate (h : Leads w s s') : ∃ n, s' = (access w)^[n] s := by
  induction h with
  | refl => exact ⟨0, rfl⟩
  | tail _ he ih =>
    obtain ⟨n, rfl⟩ := ih
    exact ⟨n + 1, by rw [he, Function.iterate_succ_apply']⟩

end Access

end Receiving

/-- **A whole call**: there are at most `opsMax` accesses, and none once it has returned. -/
def receive (w : Nat → BitVec 32) (frame : GpioDataFrame) : Receiving :=
  (Receiving.access w)^[ReceiveData.opsMax] (.start frame)

section Result

variable {w : Nat → BitVec 32} {frame : GpioDataFrame}

theorem receive_done : (receive w frame).call.pc = .done := by
  have hops : (Receiving.start frame).call.opsLeft = ReceiveData.opsMax := by
    simp only [Receiving.start, ReceiveData.opsLeft, ReceiveData.call, ReceiveData.opsMax]
  rw [receive]
  exact Receiving.done_within _ (ReceiveData.bounded_call frame) (Nat.le_of_eq hops)

theorem receive_eq {s : Receiving} (h : Receiving.Leads w (.start frame) s)
    (hd : s.call.pc = .done) : receive w frame = s := by
  obtain ⟨n, rfl⟩ := Receiving.exists_iterate h
  rcases Nat.le_total n ReceiveData.opsMax with hle | hle
  · obtain ⟨m, hm⟩ := Nat.exists_eq_add_of_le' hle
    rw [receive, hm, Function.iterate_add_apply, Receiving.iterate_done hd]
  · obtain ⟨m, hm⟩ := Nat.exists_eq_add_of_le' hle
    rw [hm, Function.iterate_add_apply]
    exact (Receiving.iterate_done receive_done m).symm

/-- **What a call stores**, and when it turns ACK over: which words are stored is decided by pin 22
    alone. -/
theorem receive_spec (w : Nat → BitVec 32) (frame : GpioDataFrame) :
    (receive w frame).call.frame.frameType = gpio2Data (w 0) ∧
      (receive w frame).call.frame.payload =
        (storedReads (fun k => clkPin (w k)) 0 gpioDataLenMax).map (fun j => gpio2Data (w j)) ∧
      (receive w frame).acks = 1 :: ackTimes (fun k => clkPin (w k)) 0 gpioDataLenMax := by
  obtain ⟨s, hl, hw, hlen, hf, ha⟩ := Receiving.start_leads w frame
  have hroom : s.call.dataLen + (3999 + 1) = gpioDataLenMax := by rw [hlen]; rfl
  obtain ⟨s', hl', hd, hft, hp, ha'⟩ := hw.returns hroom
  rw [receive_eq (hl.trans hl') hd]
  refine ⟨by rw [hft, hf], ?_, ?_⟩
  · rw [hp, hlen]
    rfl
  · rw [ha', ha]
    rfl

end Result

/-! ## 5. Which pins decide -/

/-- Two sequences of words agree on the clock and the eight data lines at every read. -/
structure SameLines (w w' : Nat → BitVec 32) : Prop where
  clk : ∀ k, (w k).getLsbD 22 = (w' k).getLsbD 22
  top : ∀ k, (w k).getLsbD 0 = (w' k).getLsbD 0
  low : ∀ k j, 11 ≤ j → j ≤ 17 → (w k).getLsbD j = (w' k).getLsbD j

/-- Two calls store the same and turn ACK over at the same places. -/
structure SameResult (s s' : Receiving) : Prop where
  frameType : s.call.frame.frameType = s'.call.frame.frameType
  len : s.call.frame.len = s'.call.frame.len
  data : s.call.frame.payload = s'.call.frame.payload
  acks : s.acks = s'.acks

/-- The reads whose words are stored: the first, and the data. -/
def stored (w : Nat → BitVec 32) : List Nat :=
  0 :: storedReads (fun k => clkPin (w k)) 0 gpioDataLenMax

/-- Each stored byte has pin 0 as bit 7 and pins 17 to 11 as bits 6 to 0. -/
structure PinsStored (w : Nat → BitVec 32) (s : Receiving) : Prop where
  frameType : s.call.frame.frameType = dataPins (w 0)
  data : s.call.frame.payload =
    (storedReads (fun k => clkPin (w k)) 0 gpioDataLenMax).map (fun j => dataPins (w j))

/-- Pin 18 is low at every read that is stored. -/
def QuietPin18 (w : Nat → BitVec 32) : Prop := ∀ k ∈ stored w, (w k).getLsbD 18 = false

section Lines

variable {w w' : Nat → BitVec 32} {frame frame' : GpioDataFrame}

theorem pinsStored_iff : PinsStored w (receive w frame) ↔ QuietPin18 w := by
  obtain ⟨hft, hp, _⟩ := receive_spec w frame
  refine ⟨fun h k hk => ?_, fun h => ⟨?_, ?_⟩⟩
  · rcases List.mem_cons.mp hk with rfl | hk
    · exact (gpio2Data_eq_dataPins _).mp (hft.symm.trans h.frameType)
    · exact (gpio2Data_eq_dataPins _).mp (List.map_inj_left.mp (hp.symm.trans h.data) k hk)
  · exact hft.trans ((gpio2Data_eq_dataPins _).mpr (h 0 List.mem_cons_self))
  · refine hp.trans (List.map_congr_left fun k hk => ?_)
    exact (gpio2Data_eq_dataPins _).mpr (h k (List.mem_cons_of_mem 0 hk))

theorem SameLines.dataPins (h : SameLines w w') (k : Nat) : dataPins (w k) = dataPins (w' k) := by
  have hlow : (w k).extractLsb 17 11 = (w' k).extractLsb 17 11 := by
    apply BitVec.eq_of_getLsbD_eq
    intro j hj
    have hj7 : j < 7 := hj
    simp [h.low k (11 + j) (by omega) (by omega)]
  rw [WifiOsc.dataPins, WifiOsc.dataPins, h.top k, hlow]

theorem SameLines.clkPin (h : SameLines w w') :
    (fun k => clkPin (w k)) = fun k => clkPin (w' k) := funext h.clk

/-- **The clock and the eight data lines decide the result, and give the bytes, exactly when pin 18
    is low at every stored read.** -/
theorem data_lines_iff (w w' : Nat → BitVec 32) (frame frame' : GpioDataFrame)
    (h : SameLines w w') :
    (SameResult (receive w frame) (receive w' frame') ∧ PinsStored w (receive w frame) ∧
        PinsStored w' (receive w' frame')) ↔
      QuietPin18 w ∧ QuietPin18 w' := by
  rw [pinsStored_iff, pinsStored_iff]
  refine ⟨fun hs => hs.2, fun hq => ⟨?_, hq⟩⟩
  have hpins := (@pinsStored_iff w frame).mpr hq.1
  have hpins' := (@pinsStored_iff w' frame').mpr hq.2
  have hdata : (receive w frame).call.frame.payload = (receive w' frame').call.frame.payload := by
    rw [hpins.data, hpins'.data, h.clkPin]
    exact List.map_congr_left fun k _ => h.dataPins k
  refine ⟨?_, ?_, hdata, ?_⟩
  · rw [hpins.frameType, hpins'.frameType, h.dataPins 0]
  · have hlen := congrArg List.length hdata
    simpa [GpioDataFrame.payload] using hlen
  · rw [(receive_spec w frame).2.2, (receive_spec w' frame').2.2, h.clkPin]

/-- Every read returns `word`. -/
def always (word : BitVec 32) (_ : Nat) : BitVec 32 := word

def blankFrame : GpioDataFrame := ⟨0, 0#8, fun _ => 0#8⟩

theorem sameLines_always {u v : BitVec 32} (hclk : u.getLsbD 22 = v.getLsbD 22)
    (htop : u.getLsbD 0 = v.getLsbD 0) (hlow : u.extractLsb 17 11 = v.extractLsb 17 11) :
    SameLines (always u) (always v) := by
  refine ⟨fun _ => hclk, fun _ => htop, ?_⟩
  intro _ j hlo hhi
  have hbit := congrArg (BitVec.getLsbD · (j - 11)) hlow
  have hj : j - 11 < 7 := by omega
  show u.getLsbD j = v.getLsbD j
  simpa [hj, show 11 + (j - 11) = j by omega] using hbit

/-- Six turns of the clock, each with a byte, and then none; `noise` on the other pins. -/
def sixBytes (noise : BitVec 32) (k : Nat) : BitVec 32 :=
  gpioWord (k < 6 && k % 2 == 1) (BitVec.ofNat 8 (37 * k)) ||| noise

theorem noise_elsewhere (x : BitVec 32) {j : Nat} (hj : j ≠ 5) :
    (x ||| 32#32).getLsbD j = x.getLsbD j := by
  have hbit : (32#32).getLsbD j = decide (j = 5) := by
    rw [show (32#32 : BitVec 32) = BitVec.twoPow 32 5 by decide, BitVec.getLsbD_twoPow]
    simp [eq_comm]
  rw [BitVec.getLsbD_or, hbit, decide_eq_false hj, Bool.or_false]

/-- Two sequences that differ in pin 5 at every read. -/
theorem data_lines_iff_pin5 :
    SameLines (sixBytes 0#32) (sixBytes 32#32) ∧
      SameResult (receive (sixBytes 0#32) blankFrame) (receive (sixBytes 32#32) blankFrame) ∧
      PinsStored (sixBytes 32#32) (receive (sixBytes 32#32) blankFrame) ∧
      (receive (sixBytes 32#32) blankFrame).call.frame.payload = [37, 74, 111, 148, 185, 222] := by
  have hpin : ∀ k j, j ≠ 5 → (sixBytes 0#32 k).getLsbD j = (sixBytes 32#32 k).getLsbD j := by
    intro k j hj
    rw [sixBytes, sixBytes, noise_elsewhere _ hj, BitVec.or_zero]
  have hlines : SameLines (sixBytes 0#32) (sixBytes 32#32) :=
    ⟨fun k => hpin k 22 (by decide), fun k => hpin k 0 (by decide),
      fun k j hlo _ => hpin k j (by omega)⟩
  have hword : ∀ (clk : Bool) (data : Byte), (gpioWord clk data).getLsbD 18 = false := by
    decide +kernel
  have hquiet : QuietPin18 (sixBytes 0#32) := by
    intro k _
    rw [sixBytes, BitVec.or_zero, hword]
  have hquiet' : QuietPin18 (sixBytes 32#32) := by
    intro k _
    rw [← hpin k 18 (by decide), sixBytes, BitVec.or_zero, hword]
  obtain ⟨hsame, -, hpins⟩ := (data_lines_iff (sixBytes 0#32) (sixBytes 32#32) blankFrame blankFrame
    hlines).mpr ⟨hquiet, hquiet'⟩
  refine ⟨hlines, hsame, hpins, hpins.data.trans ?_⟩
  decide +kernel

/-- **Pin 18 decides the data**: two still lines that differ there only store different frame types,
    and the second is not what the eight data lines show. -/
theorem pin18_decides :
    SameLines (always 0#32) (always (1#32 <<< 18)) ∧
      (receive (always 0#32) blankFrame).call.frame.frameType = 0#8 ∧
      (receive (always (1#32 <<< 18)) blankFrame).call.frame.frameType = 128#8 ∧
      ¬ SameResult (receive (always 0#32) blankFrame)
        (receive (always (1#32 <<< 18)) blankFrame) ∧
      ¬ PinsStored (always (1#32 <<< 18)) (receive (always (1#32 <<< 18)) blankFrame) := by
  have h0 : (receive (always 0#32) blankFrame).call.frame.frameType = 0#8 :=
    (receive_spec (always 0#32) blankFrame).1.trans (by decide)
  have h1 : (receive (always (1#32 <<< 18)) blankFrame).call.frame.frameType = 128#8 :=
    (receive_spec (always (1#32 <<< 18)) blankFrame).1.trans (by decide)
  refine ⟨sameLines_always (by decide) (by decide) (by decide), h0, h1, fun hs => ?_, fun hp => ?_⟩
  · exact absurd (h0.symm.trans (hs.frameType.trans h1)) (by decide)
  · exact absurd (h1.symm.trans hp.frameType) (by decide)

end Lines

end WifiOsc
