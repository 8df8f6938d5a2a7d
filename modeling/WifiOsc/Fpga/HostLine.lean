/-
  File:      WifiOsc/Fpga/HostLine.lean
  Subject:   REGISTER WRITES OVER THE WIRE: `UART_RXD`, `UART2REG` and the register block of
             main.sv on one line.

  Nothing but a high line brings the receiver back to its waiting state: it has no reset and no
  check of its start bit, so noise, a break or a frame cut short may leave it anywhere in a frame.
  160 ticks of a high line are enough from every state it can reach.

  * `boardPort`: the line in, the register writes out;
  * `RxPhase`: how many ticks of a high line a state is away from waiting; `phase_any`, `phase_high`;
  * `frames_after`: the bytes delivered after any waveform and a high line;
  * `wire_writes`: the register writes of the host, after any waveform and a high line.
-/
import WifiOsc.Basis.Pipe
import WifiOsc.Fpga.RegWrite
import WifiOsc.Fpga.UartRx

namespace WifiOsc

open Basis

/-! ## 1. The board's side of the line -/

/-- `UART_RXD` on the line, and `UART2REG` on the rising edges of `rdy`. -/
def boardPort : Machine (RxPort × HostPort) Bool (Option RegWrite) := rxPort.pipe hostPort

/-! ## 2. Back to waiting -/

/-- At most `n` ticks of a high line until the receiver waits for a start bit. -/
inductive RxPhase (u : UartRxd) : Nat → Prop where
  | waiting {n : Nat} (h : Waiting u) : RxPhase u n
  | starting {n : Nat} (k : Nat) (h : Starting k u) (hn : 160 ≤ n + k) : RxPhase u n
  | reading {n : Nat} (y : Nat → Bool) (k : Nat) (h : Reading y k u) (hn : 144 ≤ n + k) : RxPhase u n
  | stopping {n : Nat} (b : Byte) (k : Nat) (h : Stopping b k u) (hn : 16 ≤ n + k) : RxPhase u n

theorem phase_zero {u : UartRxd} (h : RxPhase u 0) : Waiting u := by
  cases h with
  | waiting h => exact h
  | starting k h hn => exact absurd h.lt (by omega)
  | reading y k h hn => exact absurd h.lt (by omega)
  | stopping b k h hn => exact absurd h.lt (by omega)

/-- The line may show anything at a tick of the data bits: only what has been read is fixed. -/
theorem reading_shows {u : UartRxd} {y : Nat → Bool} {k : Nat} (h : Reading y k u) (rxd : Bool) :
    Reading (Function.update y k rxd) k u where
  state := h.state
  sample := h.sample
  bitpos := h.bitpos
  lt := h.lt
  rdy := h.rdy
  scratch j hj := by
    rw [h.scratch j hj]
    by_cases hlt : 16 * j + 8 < k
    · rw [Function.update_of_ne (by omega)]
    · simp [hlt]

/-- A tick of the data bits, whatever the line shows. -/
theorem reading_any {u : UartRxd} {y : Nat → Bool} {k : Nat} (h : Reading y k u) (rxd : Bool) :
    (k < 127 → ∃ y', Reading y' (k + 1) (u.tick rxd true)) ∧
      (k = 127 → ∃ b, Stopping b 0 (u.tick rxd true)) := by
  have h' := reading_shows h rxd
  have hy : Function.update y k rxd k = rxd := Function.update_self k rxd y
  refine ⟨fun hk => ?_, fun hk => ?_⟩
  · have hstep := (reading_tick h' hk).1
    rw [hy] at hstep
    exact ⟨_, hstep⟩
  · subst hk
    have hstep := (reading_end h' (b := (u.tick rxd true).scratch) fun j hj => by
      have hread := reading_scratch h' hj
      rw [hy, decide_eq_true (by omega), Bool.true_and] at hread
      exact hread).1
    rw [hy] at hstep
    exact ⟨_, hstep⟩

/-- **Any tick leaves the receiver at most 160 high ticks from waiting.** -/
theorem phase_any {u : UartRxd} (h : RxPhase u 160) (rxd : Bool) : RxPhase (u.tick rxd true) 160 := by
  cases h with
  | waiting h =>
    cases rxd with
    | false => exact .starting 1 (waiting_low h).1 (by omega)
    | true => exact .waiting (waiting_high h).1
  | starting k h hn =>
    have hlt := h.lt
    by_cases hk : k < 15
    · exact .starting (k + 1) (starting_tick h rxd hk).1 (by omega)
    · have h15 : k = 15 := by omega
      subst h15
      exact .reading (fun _ => true) 0 (starting_end h rxd _).1 (by omega)
  | reading y k h hn =>
    have hlt := h.lt
    by_cases hk : k < 127
    · obtain ⟨y', h'⟩ := (reading_any h rxd).1 hk
      exact .reading y' (k + 1) h' (by omega)
    · obtain ⟨b, h'⟩ := (reading_any h rxd).2 (by omega)
      exact .stopping b 0 h' (by omega)
  | stopping b k h hn =>
    have hlt := h.lt
    by_cases hend : k = 15 ∨ (8 ≤ k ∧ rxd = false)
    · exact .waiting (stopping_end h rxd hend).1
    · have hgo : k < 8 ∨ rxd = true := by
        rcases Nat.lt_or_ge k 8 with h8 | h8
        · exact Or.inl h8
        · exact Or.inr (by simpa using fun e => hend (Or.inr ⟨h8, e⟩))
      exact .stopping b (k + 1) (stopping_tick h rxd (by omega) hgo).1 (by omega)

/-- **A tick of a high line brings it one closer.** -/
theorem phase_high {u : UartRxd} {n : Nat} (h : RxPhase u (n + 1)) : RxPhase (u.tick true true) n := by
  cases h with
  | waiting h => exact .waiting (waiting_high h).1
  | starting k h hn =>
    have hlt := h.lt
    by_cases hk : k < 15
    · exact .starting (k + 1) (starting_tick h true hk).1 (by omega)
    · have h15 : k = 15 := by omega
      subst h15
      exact .reading (fun _ => true) 0 (starting_end h true _).1 (by omega)
  | reading y k h hn =>
    have hlt := h.lt
    by_cases hk : k < 127
    · obtain ⟨y', h'⟩ := (reading_any h true).1 hk
      exact .reading y' (k + 1) h' (by omega)
    · obtain ⟨b, h'⟩ := (reading_any h true).2 (by omega)
      exact .stopping b 0 h' (by omega)
  | stopping b k h hn =>
    have hlt := h.lt
    by_cases hk : k = 15
    · exact .waiting (stopping_end h true (Or.inl hk)).1
    · exact .stopping b (k + 1) (stopping_tick h true (by omega) (Or.inr rfl)).1 (by omega)

/-- The receiver of a run is never further than 160 high ticks from waiting. -/
theorem phase_run {s : RxPort} (h : RxPhase s.rx 160) (line : List Bool) :
    RxPhase (rxPort.run s line).rx 160 := by
  refine rxPort.inv_run (I := fun s => RxPhase s.rx 160) (fun s rxd hs => ?_) h line
  show RxPhase (s.rx.step rxd true s.baud.rxEn) 160
  cases hen : s.baud.rxEn with
  | false => exact hs
  | true => exact phase_any hs rxd

/-! ## 3. Frames after any waveform -/

theorem upTo_congr {ι : Type} {y y' : Nat → ι} {m : Nat} (h : ∀ j < m, y j = y' j) :
    upTo y m = upTo y' m :=
  List.map_congr_left fun j hj => h j (List.mem_range.mp hj)

/-- 160 ticks of a high line, or more. -/
theorem waits_from {u : UartRxd} {y : Nat → Bool} (h : RxPhase u 160) {m : Nat} (hm : 160 ≤ m)
    (hhigh : ∀ j < m, y j = true) : Waiting (rxAt u y m) := by
  have hcount : ∀ n, n ≤ 160 → RxPhase (rxAt u y n) (160 - n) := by
    intro n hn
    induction n with
    | zero => exact h
    | succ n ih =>
      have hph := ih (by omega)
      rw [show 160 - n = 160 - (n + 1) + 1 by omega] at hph
      rw [rxAt_succ, hhigh n (by omega)]
      exact phase_high hph
  obtain ⟨n, rfl⟩ := Nat.exists_eq_add_of_le hm
  exact (waits (phase_zero (hcount 160 (Nat.le_refl _))) fun j _ hj => hhigh j hj).1

/-- **Frames after any waveform.** From any state of the receiver, when the line has been high for
    2240 clocks: the frames that follow are delivered, and nothing else once they begin. -/
theorem frames_after {s : RxPort} (h : RxPhase s.rx 160) (idle : Nat) (fs : List RxFrame) (tail : Nat)
    (hidle : 2240 ≤ idle) (htail : 112 ≤ tail) :
    rxPort.log s (rxLine idle fs tail) =
      rxPort.log s (List.replicate idle true) ++ fs.map RxFrame.byte := by
  have hk : s.baud.wait < 14 := wait_lt s.baud
  set line : Nat → Bool := fun t => (rxLine idle fs tail).getD t true with hline
  set y : Nat → Bool := fun j => line (s.baud.wait + 14 * j) with hy
  set m := tickCount 14 s.baud.wait idle with hm
  have hm' : m = (idle + 14 - 1 - s.baud.wait) / 14 := hm
  have hhigh : ∀ j < m, y j = true := fun j hj => rxLine_idle idle fs tail (by omega)
  -- what the high line delivers is what was on its way before it
  have hbefore : rxPort.log s (List.replicate idle true) = deliveredAt s.rx y m := by
    rw [rxPort_divided.log_eq (by omega) true _ s hk, List.length_replicate]
    refine congrArg (rxTick.log s.rx) (upTo_congr fun j hj => ?_)
    rw [hhigh j hj, getD_replicate_true]
  have hready : Ready s.rx line s.baud.wait idle m (deliveredAt s.rx y m) :=
    ⟨by omega, by omega, Or.inl ⟨waits_from h (by omega) hhigh, rfl⟩⟩
  obtain ⟨m', hready'⟩ := frames_received hk fs hready fun u hu => rxLine_frames idle fs tail hu
  have hsoon := hready'.soon
  rw [hbefore, rxPort_divided.log_eq (by omega) true _ s hk]
  refine ready_idle hready' (fun t h1 _ => rxLine_tail idle fs tail h1) ?_
  show m' + 8 ≤ tickCount 14 s.baud.wait (rxLine idle fs tail).length
  rw [length_rxLine]
  unfold tickCount
  omega

/-! ## 4. Writes over the wire -/

/-- Power-up, with everything that has no initial value as it may be. -/
def BoardPort.powerUp (baud : UartBaudGen) (regSave : BitVec 32) (dacData : Fin 8 → BitVec 12)
    (adcFreq : Fin 2 → BitVec 16) : RxPort × HostPort :=
  (RxPort.powerUp baud, HostPort.powerUp regSave dacData adcFreq)

/-- The writes shown by the log of their bytes. -/
theorem fifth_bytes (ws : List RegWrite) :
    (ws.flatMap fun w => [none, none, none, none, some w]).filterMap id = ws := by
  induction ws with
  | nil => rfl
  | cons w ws ih =>
    rw [List.flatMap_cons, List.filterMap_append, ih]
    rfl

/-- The bytes of the frames, after what the line carried before. -/
theorem bytes_after (baud : UartBaudGen) (noise : List Bool) (idle tail : Nat) (fs : List RxFrame)
    (hidle : 2240 ≤ idle) (htail : 112 ≤ tail) :
    rxPort.log (RxPort.powerUp baud) (noise ++ rxLine idle fs tail) =
      rxPort.log (RxPort.powerUp baud) (noise ++ List.replicate idle true) ++
        fs.map RxFrame.byte := by
  have hphase : RxPhase (rxPort.run (RxPort.powerUp baud) noise).rx 160 :=
    phase_run (.waiting ⟨rfl, rfl⟩) noise
  rw [rxPort.log_append, rxPort.log_append, frames_after hphase idle fs tail hidle htail,
    List.append_assoc]

/-- The registers after the frames of `ws`. -/
theorem regs_after (baud : UartBaudGen) (regSave : BitVec 32) (dacData : Fin 8 → BitVec 12)
    (adcFreq : Fin 2 → BitVec 16) (noise : List Bool) (idle tail : Nat) (fs : List RxFrame)
    (ws : List RegWrite) (hidle : 2240 ≤ idle) (htail : 112 ≤ tail)
    (hfs : fs.map RxFrame.byte = ws.flatMap RegWrite.encode) :
    let s0 := BoardPort.powerUp baud regSave dacData adcFreq
    (boardPort.run s0 (noise ++ rxLine idle fs tail)).2.regs =
      ws.foldl RegBlock.apply (boardPort.run s0 (noise ++ List.replicate idle true)).2.regs := by
  intro s0
  set h0 := HostPort.powerUp regSave dacData adcFreq with hh0
  have hruns : ∀ is, (boardPort.run s0 is).2 =
      hostPort.run h0 (rxPort.log (RxPort.powerUp baud) is) :=
    fun is => congrArg Prod.snd (rxPort.pipe_run hostPort (RxPort.powerUp baud) h0 is)
  rw [hruns, hruns, bytes_after baud noise idle tail fs hidle htail, hfs, hostPort.run_append]
  exact (feed_writes _ ws).1

/-- **Register writes over the wire.** From power-up, after any waveform at all, when the line has
    been high for 2240 clocks: frames that carry the bytes of the writes `ws`, each of its own bit
    period from 215 to 238 clocks and with any gap, raise `ready` once for each write, in order,
    and leave the registers as these writes do. -/
theorem wire_writes (baud : UartBaudGen) (regSave : BitVec 32) (dacData : Fin 8 → BitVec 12)
    (adcFreq : Fin 2 → BitVec 16) (noise : List Bool) (idle tail : Nat) (fs : List RxFrame)
    (ws : List RegWrite) (hidle : 2240 ≤ idle) (htail : 112 ≤ tail)
    (hfs : fs.map RxFrame.byte = ws.flatMap RegWrite.encode) :
    let s0 := BoardPort.powerUp baud regSave dacData adcFreq
    let before := noise ++ List.replicate idle true
    let line := noise ++ rxLine idle fs tail
    (boardPort.log s0 line).filterMap id = (boardPort.log s0 before).filterMap id ++ ws ∧
      (boardPort.run s0 line).2.regs =
        ws.foldl RegBlock.apply (boardPort.run s0 before).2.regs := by
  intro s0 before line
  refine ⟨?_, regs_after baud regSave dacData adcFreq noise idle tail fs ws hidle htail hfs⟩
  set h0 := HostPort.powerUp regSave dacData adcFreq with hh0
  have hlogs : ∀ is, boardPort.log s0 is = hostPort.log h0 (rxPort.log (RxPort.powerUp baud) is) :=
    fun is => rxPort.pipe_log hostPort (RxPort.powerUp baud) h0 is
  obtain ⟨_, hlog⟩ :=
    feed_writes (hostPort.run h0 (rxPort.log (RxPort.powerUp baud) before)) ws
  rw [hlogs, hlogs, bytes_after baud noise idle tail fs hidle htail, hfs, hostPort.log_append, hlog,
    List.filterMap_append, fifth_bytes]

/-- A break on the line, and then one write to a DAC register at 217 clocks a bit. -/
theorem wire_writes_dac :
    let w : RegWrite := ⟨0xff, 3, 0x0abc⟩
    let s0 := BoardPort.powerUp ⟨5, 0⟩ 0 (fun _ => 0) fun _ => 0
    let before := List.replicate 3000 false ++ List.replicate 2240 true
    let line := List.replicate 3000 false ++
      rxLine 2240 (w.encode.map fun b => ⟨b, 217, 0, by decide, by decide⟩) 112
    (boardPort.log s0 line).filterMap id = (boardPort.log s0 before).filterMap id ++ [w] ∧
      (boardPort.run s0 line).2.regs = [w].foldl RegBlock.apply (boardPort.run s0 before).2.regs :=
  wire_writes ⟨5, 0⟩ 0 (fun _ => 0) (fun _ => 0) (List.replicate 3000 false) 2240 112
    ((RegWrite.encode ⟨0xff, 3, 0x0abc⟩).map fun b => ⟨b, 217, 0, by decide, by decide⟩)
    [⟨0xff, 3, 0x0abc⟩] (by decide) (by decide) (by decide)

end WifiOsc
