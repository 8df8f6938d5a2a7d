/-
  File:      WifiOsc/Fpga/UartRx.lean
  Subject:   RECEPTION WITH CLOCK MISMATCH: `UART_RXD` on the ticks of `UART_BAUD_GEN`, a line
             that carries 8N1 frames of any bit period from 215 to 238 clocks.

  A tick comes every 14 clocks. The receiver counts ticks from the first low one, so bit `j` is
  read at the tick 24 + 16 j of a frame; that tick falls between 336 + 224 j and 363 + 224 j clocks
  after the falling edge: up to 13 clocks for the phase, and 14 more when the low line is first
  seen in the second half of the stop bit before, which re-arms the receiver one tick late. Both
  ends of the range of periods are sharp for these windows.

  * `rxPort`, `rxTick`: the receiver at the clock and at the tick; `rxPort_divided`: the first is
    the second on a divided clock;
  * `Starting`, `Reading`, `Stopping`: the three phases, by the number of ticks in them;
  * `reads_byte`: 144 ticks from the first low one;
  * `frame_received`: a whole frame, from one `Ready` state to the next;
  * `rxLine`, `rxPort_frames`: any number of frames from power-up.
-/
import WifiOsc.Basis.Sampling
import WifiOsc.Fpga.RegRead

namespace WifiOsc

open Basis

/-! ## 1. The receiver and its clock -/

structure RxPort where
  baud : UartBaudGen
  rx : UartRxd
  deriving DecidableEq

/-- `data` at the edge where `rdy` rises. -/
def rises (u u' : UartRxd) : List Byte := if !u.rdy && u'.rdy then [u'.data] else []

/-- The receiver at every clock, `rdy_clr` tied to 1 as in main.sv. -/
def rxPort : Machine RxPort Bool Byte where
  step s rxd := ⟨s.baud.step, s.rx.step rxd true s.baud.rxEn⟩
  out s rxd := rises s.rx (s.rx.step rxd true s.baud.rxEn)

/-- The receiver at every tick. -/
def rxTick : Machine UartRxd Bool Byte where
  step u rxd := u.tick rxd true
  out u rxd := rises u (u.tick rxd true)

/-- Power-up, the baud generator in any phase. -/
def RxPort.powerUp (baud : UartBaudGen) : RxPort := ⟨baud, UartRxd.powerUp⟩

/-- Clocks until the next tick. -/
def UartBaudGen.wait (g : UartBaudGen) : Nat := accWait rxAccMax g.rxAcc

theorem wait_lt (g : UartBaudGen) : g.wait < 14 := accWait_lt g.rxAcc (by decide)

theorem wait_step (g : UartBaudGen) :
    (g.wait = 0 → g.rxEn = true ∧ g.step.wait = 13) ∧
      ∀ k, g.wait = k + 1 → g.rxEn = false ∧ g.step.wait = k := by
  rw [UartBaudGen.rxEn, beq_iff_eq, beq_eq_false_iff_ne]
  exact accWait_step g.rxAcc (by decide)

theorem rxPort_divided : Divided rxPort rxTick 14 RxPort.rx (fun s => s.baud.wait) where
  tick s i h := by
    obtain ⟨hen, hw⟩ := (wait_step s.baud).1 h
    exact ⟨by simp [rxPort, rxTick, UartRxd.step, hen], by simp [rxPort, rxTick, UartRxd.step, hen],
      hw⟩
  idle s i k h := by
    obtain ⟨hen, hw⟩ := (wait_step s.baud).2 k h
    refine ⟨by simp [rxPort, UartRxd.step, hen], ?_, hw⟩
    cases hr : s.rx.rdy <;> simp [rxPort, UartRxd.step, hen, rises, hr]

/-! ## 2. One tick in each phase -/

theorem ofNat4_eq (n m : Nat) : BitVec.ofNat 4 n = BitVec.ofNat 4 m ↔ n % 16 = m % 16 := by
  rw [← BitVec.toNat_inj, BitVec.toNat_ofNat, BitVec.toNat_ofNat]

/-- Waiting for a start bit. `rdy` may still be up from the frame before. -/
structure Waiting (u : UartRxd) : Prop where
  state : u.state = .start
  sample : u.sample = 0#4

/-- `n` ticks into the start bit. -/
structure Starting (n : Nat) (u : UartRxd) : Prop where
  state : u.state = .start
  sample : u.sample = BitVec.ofNat 4 n
  pos : 0 < n
  lt : n < 16
  rdy : u.rdy = false

/-- `n` ticks into the data bits, which have shown `y 0, y 1, …`: bit `j` is read at tick
    `16 j + 8`. -/
structure Reading (y : Nat → Bool) (n : Nat) (u : UartRxd) : Prop where
  state : u.state = .data
  sample : u.sample = BitVec.ofNat 4 n
  bitpos : u.bitpos = BitVec.ofNat 4 ((n + 7) / 16)
  lt : n < 128
  rdy : u.rdy = false
  scratch : ∀ j < 8, u.scratch.getLsbD j = (decide (16 * j + 8 < n) && y (16 * j + 8))

/-- `n` ticks into the stop bit, the byte `b` assembled. -/
structure Stopping (b : Byte) (n : Nat) (u : UartRxd) : Prop where
  state : u.state = .stop
  sample : u.sample = BitVec.ofNat 4 n
  lt : n < 16
  rdy : u.rdy = false
  scratch : u.scratch = b

theorem rises_of_not {u u' : UartRxd} (h : u'.rdy = false) : rises u u' = [] := by
  simp [rises, h]

section Tick

variable {u : UartRxd}

/-- A high line keeps the receiver waiting. -/
theorem waiting_high (h : Waiting u) : Waiting (u.tick true true) ∧ rxTick.out u true = [] := by
  have hn : (u.tick true true).rdy = false := by simp [UartRxd.tick, h.state]
  exact ⟨⟨by simp [UartRxd.tick, h.state, h.sample], by simp [UartRxd.tick, h.state, h.sample]⟩,
    rises_of_not hn⟩

/-- A low line starts the count. -/
theorem waiting_low (h : Waiting u) :
    Starting 1 (u.tick false true) ∧ rxTick.out u false = [] := by
  have hn : (u.tick false true).rdy = false := by simp [UartRxd.tick, h.state]
  exact ⟨⟨by simp [UartRxd.tick, h.state, h.sample], by simp [UartRxd.tick, h.state, h.sample],
    by omega, by omega, hn⟩, rises_of_not hn⟩

/-- The count runs to 15 whatever the line shows. -/
theorem starting_tick {n : Nat} (h : Starting n u) (rxd : Bool) (hn : n < 15) :
    Starting (n + 1) (u.tick rxd true) ∧ rxTick.out u rxd = [] := by
  have hne : BitVec.ofNat 4 n ≠ 15#4 := by
    intro e
    have := (ofNat4_eq n 15).mp e
    omega
  have hne0 : BitVec.ofNat 4 n ≠ 0#4 := by
    intro e
    have := (ofNat4_eq n 0).mp e
    have := h.pos
    omega
  have hr : (u.tick rxd true).rdy = false := by simp [UartRxd.tick, h.state]
  exact ⟨⟨by simp [UartRxd.tick, h.state, h.sample, hne],
    by simp [UartRxd.tick, h.state, h.sample, hne, hne0, ← BitVec.ofNat_add], by omega, by omega, hr⟩,
    rises_of_not hr⟩

/-- At 15 the data bits begin. -/
theorem starting_end (h : Starting 15 u) (rxd : Bool) (y : Nat → Bool) :
    Reading y 0 (u.tick rxd true) ∧ rxTick.out u rxd = [] := by
  have hr : (u.tick rxd true).rdy = false := by simp [UartRxd.tick, h.state]
  exact ⟨⟨by simp [UartRxd.tick, h.state, h.sample], by simp [UartRxd.tick, h.state, h.sample],
    by simp [UartRxd.tick, h.state, h.sample], by omega, hr,
    fun j _ => by simp [UartRxd.tick, h.state, h.sample]⟩, rises_of_not hr⟩

/-- What the scratch register holds after a tick of the data bits. -/
theorem reading_scratch {y : Nat → Bool} {n : Nat} (h : Reading y n u) {j : Nat} (hj : j < 8) :
    (u.tick (y n) true).scratch.getLsbD j = (decide (16 * j + 8 < n + 1) && y (16 * j + 8)) := by
  have hlt := h.lt
  by_cases h8 : n % 16 = 8
  · -- the tick reads bit `n / 16`
    have he : BitVec.ofNat 4 n = 8#4 := (ofNat4_eq n 8).mpr h8
    have hpos : ((BitVec.ofNat 4 ((n + 7) / 16)).extractLsb 2 0).toNat = n / 16 := by
      simp only [BitVec.extractLsb_toNat, BitVec.toNat_ofNat]
      omega
    have htick : (u.tick (y n) true).scratch = setBit u.scratch (n / 16) (y n) := by
      simp only [UartRxd.tick, h.state, h.sample, if_pos he, h.bitpos, hpos]
    rw [htick, getLsbD_setBit _ _ _ _ hj]
    by_cases hjn : j = n / 16
    · have hn : n = 16 * j + 8 := by omega
      rw [if_pos hjn, hn]
      simp
    · rw [if_neg hjn, h.scratch j hj]
      congr 1
      exact decide_eq_decide.mpr (by omega)
  · have hne : BitVec.ofNat 4 n ≠ 8#4 := fun e => h8 ((ofNat4_eq n 8).mp e)
    have htick : (u.tick (y n) true).scratch = u.scratch := by
      simp [UartRxd.tick, h.state, h.sample, hne]
    rw [htick, h.scratch j hj]
    congr 1
    exact decide_eq_decide.mpr (by omega)

theorem reading_tick {y : Nat → Bool} {n : Nat} (h : Reading y n u) (hn : n < 127) :
    Reading y (n + 1) (u.tick (y n) true) ∧ rxTick.out u (y n) = [] := by
  have hr : (u.tick (y n) true).rdy = false := by simp [UartRxd.tick, h.state, h.rdy]
  have hstate : (u.tick (y n) true).state = .data := by
    have : ¬ (BitVec.ofNat 4 ((n + 7) / 16) = 8#4 ∧ BitVec.ofNat 4 n = 15#4) := fun ⟨e1, e2⟩ => by
      have := (ofNat4_eq _ 8).mp e1
      have := (ofNat4_eq _ 15).mp e2
      omega
    simp only [UartRxd.tick, h.state, h.sample, h.bitpos, if_neg this]
  have hbit : (u.tick (y n) true).bitpos = BitVec.ofNat 4 ((n + 1 + 7) / 16) := by
    by_cases h8 : n % 16 = 8
    · have he : BitVec.ofNat 4 n = 8#4 := (ofNat4_eq n 8).mpr h8
      simp only [UartRxd.tick, h.state, h.sample, h.bitpos, if_pos he, ← BitVec.ofNat_add]
      congr 1
      omega
    · have hne : BitVec.ofNat 4 n ≠ 8#4 := fun e => h8 ((ofNat4_eq n 8).mp e)
      simp only [UartRxd.tick, h.state, h.sample, h.bitpos, if_neg hne]
      congr 1
      omega
  exact ⟨⟨hstate, by simp only [UartRxd.tick, h.state, h.sample, ← BitVec.ofNat_add], hbit, by omega, hr,
    fun j hj => reading_scratch h hj⟩, rises_of_not hr⟩

/-- The last data tick: the byte read is the one the line has shown. -/
theorem reading_end {y : Nat → Bool} (h : Reading y 127 u) {b : Byte}
    (hb : ∀ j < 8, b.getLsbD j = y (16 * j + 8)) :
    Stopping b 0 (u.tick (y 127) true) ∧ rxTick.out u (y 127) = [] := by
  have hr : (u.tick (y 127) true).rdy = false := by simp [UartRxd.tick, h.state, h.rdy]
  refine ⟨⟨by simp [UartRxd.tick, h.state, h.sample, h.bitpos],
    by simp [UartRxd.tick, h.state, h.sample], by omega, hr, ?_⟩, rises_of_not hr⟩
  apply BitVec.eq_of_getLsbD_eq
  intro j hj
  rw [reading_scratch h hj, hb j hj, decide_eq_true (by omega), Bool.true_and]

/-- The stop bit goes on through its first half, and through its second while the line is high. -/
theorem stopping_tick {b : Byte} {n : Nat} (h : Stopping b n u) (rxd : Bool) (hn : n < 15)
    (hgo : n < 8 ∨ rxd = true) :
    Stopping b (n + 1) (u.tick rxd true) ∧ rxTick.out u rxd = [] := by
  have hstop : ¬ (BitVec.ofNat 4 n = 15#4 ∨ 8#4 ≤ BitVec.ofNat 4 n ∧ rxd = false) := by
    rintro (e | ⟨e, e'⟩)
    · have := (ofNat4_eq n 15).mp e
      omega
    · rw [BitVec.le_def, BitVec.toNat_ofNat, BitVec.toNat_ofNat] at e
      rcases hgo with hgo | hgo
      · omega
      · rw [hgo] at e'
        cases e'
  have htick : u.tick rxd true = { u with sample := u.sample + 1#4 } := by
    simp only [UartRxd.tick, h.state, h.sample, if_neg hstop]
  have hr : (u.tick rxd true).rdy = false := by rw [htick]; exact h.rdy
  refine ⟨?_, rises_of_not hr⟩
  rw [htick]
  refine ⟨h.state, ?_, by omega, h.rdy, h.scratch⟩
  show u.sample + 1#4 = BitVec.ofNat 4 (n + 1)
  rw [h.sample, ← BitVec.ofNat_add]

/-- It ends at 15, or in its second half at the first low line: the byte is delivered. -/
theorem stopping_end {b : Byte} {n : Nat} (h : Stopping b n u) (rxd : Bool)
    (hend : n = 15 ∨ (8 ≤ n ∧ rxd = false)) :
    Waiting (u.tick rxd true) ∧ rxTick.out u rxd = [b] := by
  have hstop : BitVec.ofNat 4 n = 15#4 ∨ 8#4 ≤ BitVec.ofNat 4 n ∧ rxd = false := by
    refine hend.imp (fun e => by rw [e]) fun ⟨e, e'⟩ => ⟨?_, e'⟩
    have := h.lt
    rw [BitVec.le_def, BitVec.toNat_ofNat, BitVec.toNat_ofNat]
    omega
  have htick : u.tick rxd true =
      { u with state := .start, data := u.scratch, rdy := true, sample := 0 } := by
    simp only [UartRxd.tick, h.state, h.sample, if_pos hstop]
  refine ⟨by rw [htick]; exact ⟨rfl, rfl⟩, ?_⟩
  show rises u (u.tick rxd true) = [b]
  rw [htick]
  simp [rises, h.rdy, h.scratch]

end Tick

/-! ## 3. Many ticks -/

section Ticks

variable (u0 : UartRxd) (y : Nat → Bool)

/-- The receiver after `m` ticks, and the bytes it has delivered by then. -/
def rxAt (m : Nat) : UartRxd := rxTick.run u0 (upTo y m)
def deliveredAt (m : Nat) : List Byte := rxTick.log u0 (upTo y m)

theorem rxAt_succ (m : Nat) : rxAt u0 y (m + 1) = (rxAt u0 y m).tick (y m) true :=
  run_upTo_succ rxTick u0 y m

theorem deliveredAt_succ (m : Nat) :
    deliveredAt u0 y (m + 1) = deliveredAt u0 y m ++ rxTick.out (rxAt u0 y m) (y m) :=
  log_upTo_succ rxTick u0 y m

variable {u0 y}

/-- While the line stays high the receiver waits. -/
theorem waits {m n : Nat} (h : Waiting (rxAt u0 y m)) (hhigh : ∀ j, m ≤ j → j < m + n → y j = true) :
    Waiting (rxAt u0 y (m + n)) ∧ deliveredAt u0 y (m + n) = deliveredAt u0 y m := by
  induction n with
  | zero => exact ⟨h, rfl⟩
  | succ n ih =>
    obtain ⟨hw, hd⟩ := ih fun j h1 h2 => hhigh j h1 (by omega)
    have hy : y (m + n) = true := hhigh (m + n) (by omega) (by omega)
    obtain ⟨hw', ho⟩ := waiting_high hw
    rw [← Nat.add_assoc, rxAt_succ, deliveredAt_succ, hy, ho, hd, List.append_nil]
    exact ⟨hw', rfl⟩

/-- Sixteen ticks from the first low one the data bits begin. -/
theorem starts {m : Nat} (h : Waiting (rxAt u0 y m)) (hlow : y m = false) :
    Reading (fun j => y (m + 16 + j)) 0 (rxAt u0 y (m + 16)) ∧
      deliveredAt u0 y (m + 16) = deliveredAt u0 y m := by
  have hcount : ∀ n, n < 15 → Starting (n + 1) (rxAt u0 y (m + 1 + n)) ∧
      deliveredAt u0 y (m + 1 + n) = deliveredAt u0 y m := by
    intro n hn
    induction n with
    | zero =>
      obtain ⟨hs, ho⟩ := waiting_low h
      rw [Nat.add_zero, rxAt_succ, deliveredAt_succ, hlow, ho, List.append_nil]
      exact ⟨hs, rfl⟩
    | succ n ih =>
      obtain ⟨hs, hd⟩ := ih (by omega)
      obtain ⟨hs', ho⟩ := starting_tick hs (y (m + 1 + n)) (by omega)
      rw [← Nat.add_assoc, rxAt_succ, deliveredAt_succ, ho, hd, List.append_nil]
      exact ⟨hs', rfl⟩
  obtain ⟨hs, hd⟩ := hcount 14 (by omega)
  obtain ⟨hr, ho⟩ := starting_end hs (y (m + 15)) fun j => y (m + 16 + j)
  rw [show m + 16 = m + 15 + 1 from rfl, rxAt_succ, deliveredAt_succ, ho, hd, List.append_nil]
  exact ⟨hr, rfl⟩

/-- **144 ticks from the first low one** the byte is assembled from the samples 24, 40, …, 136. -/
theorem reads_byte {m : Nat} (h : Waiting (rxAt u0 y m)) (hlow : y m = false) {b : Byte}
    (hb : ∀ j < 8, b.getLsbD j = y (m + 24 + 16 * j)) :
    Stopping b 0 (rxAt u0 y (m + 144)) ∧ deliveredAt u0 y (m + 144) = deliveredAt u0 y m := by
  obtain ⟨h0, hd0⟩ := starts h hlow
  have hcount : ∀ n, n < 128 → Reading (fun j => y (m + 16 + j)) n (rxAt u0 y (m + 16 + n)) ∧
      deliveredAt u0 y (m + 16 + n) = deliveredAt u0 y m := by
    intro n hn
    induction n with
    | zero => exact ⟨h0, hd0⟩
    | succ n ih =>
      obtain ⟨hr, hd⟩ := ih (by omega)
      obtain ⟨hr', ho⟩ := reading_tick hr (by omega)
      rw [← Nat.add_assoc, rxAt_succ, deliveredAt_succ, ho, hd, List.append_nil]
      exact ⟨hr', rfl⟩
  obtain ⟨hr, hd⟩ := hcount 127 (by omega)
  obtain ⟨hs, ho⟩ := reading_end hr (b := b) fun j hj => by
    rw [hb j hj]
    congr 1
    omega
  rw [show m + 144 = m + 16 + 127 + 1 from rfl, rxAt_succ, deliveredAt_succ, ho, hd, List.append_nil]
  exact ⟨hs, rfl⟩

/-- The first half of the stop bit passes. -/
theorem stops_half {m : Nat} {b : Byte} (h : Stopping b 0 (rxAt u0 y m)) :
    Stopping b 8 (rxAt u0 y (m + 8)) ∧ deliveredAt u0 y (m + 8) = deliveredAt u0 y m := by
  have hcount : ∀ n, n ≤ 8 → Stopping b n (rxAt u0 y (m + n)) ∧
      deliveredAt u0 y (m + n) = deliveredAt u0 y m := by
    intro n hn
    induction n with
    | zero => exact ⟨h, rfl⟩
    | succ n ih =>
      obtain ⟨hs, hd⟩ := ih (by omega)
      obtain ⟨hs', ho⟩ := stopping_tick hs (y (m + n)) (by omega) (Or.inl (by omega))
      rw [← Nat.add_assoc, rxAt_succ, deliveredAt_succ, ho, hd, List.append_nil]
      exact ⟨hs', rfl⟩
  exact hcount 8 (Nat.le_refl 8)

/-- **The second half of the stop bit**, up to any later tick, when the line is high from the
    second tick on: the receiver is still in the stop bit or has delivered the byte and waits. -/
theorem stops {m n n0 : Nat} {b : Byte} (h : Stopping b n0 (rxAt u0 y m)) (h8 : 8 ≤ n0)
    (hhigh : ∀ j, m < j → j < m + n → y j = true) :
    (Stopping b (n0 + n) (rxAt u0 y (m + n)) ∧ deliveredAt u0 y (m + n) = deliveredAt u0 y m) ∨
      (Waiting (rxAt u0 y (m + n)) ∧
        deliveredAt u0 y (m + n) = deliveredAt u0 y m ++ [b]) := by
  induction n with
  | zero => exact Or.inl ⟨h, rfl⟩
  | succ n ih =>
    rw [← Nat.add_assoc, ← Nat.add_assoc, rxAt_succ, deliveredAt_succ]
    rcases ih fun j h1 h2 => hhigh j h1 (by omega) with ⟨hs, hd⟩ | ⟨hw, hd⟩
    · by_cases hend : n0 + n = 15 ∨ (8 ≤ n0 + n ∧ y (m + n) = false)
      · obtain ⟨hw, ho⟩ := stopping_end hs _ hend
        exact Or.inr ⟨hw, by rw [ho, hd]⟩
      · have hy : y (m + n) = true := by simpa using fun e => hend (Or.inr ⟨by omega, e⟩)
        have hlt := hs.lt
        obtain ⟨hs', ho⟩ := stopping_tick hs (y (m + n)) (by omega) (Or.inr hy)
        exact Or.inl ⟨hs', by rw [ho, hd, List.append_nil]⟩
    · cases n with
      | zero =>
        -- nothing is delivered before the first of these ticks
        have e : (rxAt u0 y m).state = .start := hw.state
        rw [h.state] at e
        cases e
      | succ n =>
        have hy : y (m + (n + 1)) = true := hhigh (m + (n + 1)) (by omega) (by omega)
        rw [hy]
        obtain ⟨hw', ho⟩ := waiting_high hw
        exact Or.inr ⟨hw', by rw [ho, hd, List.append_nil]⟩

end Ticks

/-! ## 4. Frames on the line -/

/-- An 8N1 frame: its own bit period, within 215 to 238 clocks, and `gap` clocks of a high line
    beyond the stop bit. -/
structure RxFrame where
  byte : Byte
  period : Nat
  gap : Nat
  lo : 215 ≤ period
  hi : period ≤ 238

/-- The line, clock by clock: start bit, eight data bits from bit 0 up, stop bit, gap. -/
def RxFrame.wave (f : RxFrame) : List Bool :=
  hold f.period (uartFrame f.byte) ++ List.replicate f.gap true

namespace RxFrame

variable (f : RxFrame)

theorem length_uartFrame (b : Byte) : (uartFrame b).length = 10 := by simp [uartFrame]

theorem length_wave : f.wave.length = f.period * 10 + f.gap := by
  simp [wave, length_uartFrame]

/-- Symbol `i` of the frame is on the line between `i` and `i + 1` periods. -/
theorem wave_symbol {i u : Nat} (hi : i < 10) (hlo : f.period * i ≤ u)
    (hhi : u < f.period * (i + 1)) : f.wave.getD u true = (uartFrame f.byte).getD i true := by
  have hlen : u < (hold f.period (uartFrame f.byte)).length := by
    rw [length_hold, length_uartFrame]
    exact Nat.lt_of_lt_of_le hhi (Nat.mul_le_mul_left _ hi)
  rw [wave, List.getD_append _ _ _ _ hlen,
    getD_hold _ _ (by rw [length_uartFrame]; exact hi) hlo hhi]

theorem wave_start {u : Nat} (hu : u < f.period) : f.wave.getD u true = false :=
  f.wave_symbol (i := 0) (by omega) (by omega) (by omega)

theorem wave_bit {j u : Nat} (hj : j < 8) (hlo : f.period * (j + 1) ≤ u)
    (hhi : u < f.period * (j + 1 + 1)) : f.wave.getD u true = f.byte.getLsbD j := by
  rw [f.wave_symbol (by omega) hlo hhi]
  interval_cases j <;> rfl

theorem wave_high {u : Nat} (hlo : f.period * 9 ≤ u) : f.wave.getD u true = true := by
  by_cases hs : u < f.period * 10
  · exact f.wave_symbol (i := 9) (by omega) hlo hs
  · have hlen : (hold f.period (uartFrame f.byte)).length ≤ u := by
      rw [length_hold, length_uartFrame]
      omega
    rw [wave, List.getD_append_right _ _ _ _ hlen, List.getD_eq_getElem?_getD,
      List.getElem?_replicate]
    split <;> rfl

end RxFrame

/-! ## 5. One frame -/

section Frames

variable {u0 : UartRxd} {line : Nat → Bool} {k : Nat}

/-- Between frames: `m` is the first tick at or after the clock `τ`; either everything in `done` has
    been delivered, or its last byte waits for the end of its stop bit. Ticks come at the clocks
    `k, k + 14, …`. -/
structure Ready (u0 : UartRxd) (line : Nat → Bool) (k τ m : Nat) (done : List Byte) : Prop where
  first : τ ≤ k + 14 * m
  soon : k + 14 * m < τ + 14
  rx : (Waiting (rxAt u0 (fun j => line (k + 14 * j)) m) ∧
      deliveredAt u0 (fun j => line (k + 14 * j)) m = done) ∨
    ∃ b n, 8 ≤ n ∧ Stopping b n (rxAt u0 (fun j => line (k + 14 * j)) m) ∧
      deliveredAt u0 (fun j => line (k + 14 * j)) m ++ [b] = done

/-- At a start bit the count begins at most 27 clocks after the falling edge. -/
theorem ready_start {τ m : Nat} {done : List Byte} (h : Ready u0 line k τ m done)
    (hlow : ∀ u < 28, line (τ + u) = false) :
    ∃ m', τ ≤ k + 14 * m' ∧ k + 14 * m' ≤ τ + 27 ∧
      Waiting (rxAt u0 (fun j => line (k + 14 * j)) m') ∧ line (k + 14 * m') = false ∧
      deliveredAt u0 (fun j => line (k + 14 * j)) m' = done := by
  have hat : ∀ j, τ ≤ k + 14 * j → k + 14 * j < τ + 28 → line (k + 14 * j) = false := by
    intro j h1 h2
    have := hlow (k + 14 * j - τ) (by omega)
    rwa [Nat.add_sub_cancel' h1] at this
  have h1 := h.first
  have h2 := h.soon
  rcases h.rx with ⟨hw, hd⟩ | ⟨b, n, hn, hs, hd⟩
  · exact ⟨m, h1, by omega, hw, hat m h1 (by omega), hd⟩
  · -- the low line ends the stop bit before; the count begins one tick later
    have hy : line (k + 14 * m) = false := hat m h1 (by omega)
    obtain ⟨hw, ho⟩ := stopping_end hs false (Or.inr ⟨hn, rfl⟩)
    refine ⟨m + 1, by omega, by omega, ?_, hat (m + 1) (by omega) (by omega), ?_⟩
    · rw [rxAt_succ, hy]
      exact hw
    · rw [deliveredAt_succ, hy, ho, hd]

/-- **A frame is received**: from `Ready` at its falling edge to `Ready` at its end. -/
theorem frame_received (hk : k < 14) (f : RxFrame) {τ m : Nat} {done : List Byte}
    (h : Ready u0 line k τ m done)
    (hline : ∀ u < f.wave.length, line (τ + u) = f.wave.getD u true) :
    ∃ m', Ready u0 line k (τ + f.wave.length) m' (done ++ [f.byte]) := by
  have hlo := f.lo
  have hhi := f.hi
  have hlen := f.length_wave
  have hat : ∀ j, τ ≤ k + 14 * j → k + 14 * j < τ + f.wave.length →
      line (k + 14 * j) = f.wave.getD (k + 14 * j - τ) true := by
    intro j h1 h2
    have := hline (k + 14 * j - τ) (by omega)
    rwa [Nat.add_sub_cancel' h1] at this
  obtain ⟨m', h1, h2, hw, hy, hd⟩ := ready_start h fun u hu => by
    rw [hline u (by omega)]
    exact f.wave_start (by omega)
  -- every sample falls into its bit, whatever the phase and the period
  have hbits : ∀ j < 8, f.byte.getLsbD j = line (k + 14 * (m' + 24 + 16 * j)) := by
    intro j hj
    rw [hat _ (by omega) (by omega)]
    refine (f.wave_bit hj ?_ ?_).symm <;> interval_cases j <;> omega
  obtain ⟨hs, hd'⟩ := reads_byte hw hy hbits
  obtain ⟨hs8, hd8⟩ := stops_half hs
  -- the first tick after the frame
  obtain ⟨m2, hm1, hm2⟩ : ∃ m2, τ + f.wave.length ≤ k + 14 * m2 ∧
      k + 14 * m2 < τ + f.wave.length + 14 :=
    ⟨(τ + f.wave.length + 13 - k) / 14, by omega, by omega⟩
  obtain ⟨n, rfl⟩ : ∃ n, m2 = m' + 144 + 8 + n := ⟨m2 - (m' + 144 + 8), by omega⟩
  have hhigh : ∀ j, m' + 144 + 8 < j → j < m' + 144 + 8 + n → line (k + 14 * j) = true := by
    intro j hj1 hj2
    rw [hat j (by omega) (by omega)]
    exact f.wave_high (by omega)
  refine ⟨m' + 144 + 8 + n, hm1, hm2, ?_⟩
  rcases stops hs8 (Nat.le_refl 8) hhigh with ⟨hs', hd''⟩ | ⟨hw', hd''⟩
  · exact Or.inr ⟨f.byte, 8 + n, by omega, hs', by rw [hd'', hd8, hd', hd]⟩
  · exact Or.inl ⟨hw', by rw [hd'', hd8, hd', hd]⟩

/-! ## 6. Any number of frames -/

/-- **Frames in a row.** -/
theorem frames_received (hk : k < 14) (fs : List RxFrame) {τ m : Nat} {done : List Byte}
    (h : Ready u0 line k τ m done)
    (hline : ∀ u < (fs.flatMap RxFrame.wave).length,
      line (τ + u) = (fs.flatMap RxFrame.wave).getD u true) :
    ∃ m', Ready u0 line k (τ + (fs.flatMap RxFrame.wave).length) m'
      (done ++ fs.map RxFrame.byte) := by
  induction fs generalizing τ m done with
  | nil => exact ⟨m, by simpa using h⟩
  | cons f fs ih =>
    have hcons : (f :: fs).flatMap RxFrame.wave = f.wave ++ fs.flatMap RxFrame.wave := rfl
    rw [hcons, List.length_append] at hline ⊢
    obtain ⟨m1, h1⟩ := frame_received hk f h fun u hu => by
      rw [hline u (by omega), List.getD_append _ _ _ _ hu]
    obtain ⟨m2, h2⟩ := ih h1 fun u hu => by
      rw [Nat.add_assoc, hline _ (by omega), List.getD_append_right _ _ _ _ (by omega),
        Nat.add_sub_cancel_left]
    exact ⟨m2, by simpa [Nat.add_assoc] using h2⟩

/-- From power-up, over an idle line. -/
theorem ready_powerUp (hk : k < 14) {idle : Nat} (hline : ∀ t < idle, line t = true) :
    Ready UartRxd.powerUp line k idle ((idle + 13 - k) / 14) [] where
  first := by omega
  soon := by omega
  rx := by
    have h := @waits UartRxd.powerUp (fun j => line (k + 14 * j)) 0 ((idle + 13 - k) / 14)
      ⟨rfl, rfl⟩ fun j _ hj => hline _ (by omega)
    rw [Nat.zero_add] at h
    exact Or.inl ⟨h.1, h.2⟩

/-- Eight ticks of a high line deliver what is still waiting. -/
theorem ready_idle {τ m M : Nat} {done : List Byte} (h : Ready u0 line k τ m done)
    (hline : ∀ t, τ ≤ t → t < k + 14 * M → line t = true) (hM : m + 8 ≤ M) :
    deliveredAt u0 (fun j => line (k + 14 * j)) M = done := by
  have hfirst := h.first
  obtain ⟨n, rfl⟩ : ∃ n, M = m + n := ⟨M - m, by omega⟩
  rcases h.rx with ⟨hw, hd⟩ | ⟨b, n0, hn0, hs, hd⟩
  · rw [(waits hw fun j h1 h2 => hline _ (by omega) (by omega)).2, hd]
  · rcases stops hs hn0 (n := n) fun j h1 h2 => hline _ (by omega) (by omega) with
      ⟨hs', _⟩ | ⟨_, hd'⟩
    · have := hs'.lt
      omega
    · rw [hd', hd]

end Frames

/-- The whole line: idle, the frames, and high again. -/
def rxLine (idle : Nat) (fs : List RxFrame) (tail : Nat) : List Bool :=
  List.replicate idle true ++ fs.flatMap RxFrame.wave ++ List.replicate tail true

section Line

variable (idle : Nat) (fs : List RxFrame) (tail : Nat)

theorem length_rxLine :
    (rxLine idle fs tail).length = idle + (fs.flatMap RxFrame.wave).length + tail := by
  rw [rxLine, List.length_append, List.length_append, List.length_replicate, List.length_replicate]

theorem getD_replicate_true (n t : Nat) : (List.replicate n true).getD t true = true := by
  rw [List.getD_eq_getElem?_getD, List.getElem?_replicate]
  split <;> rfl

theorem rxLine_idle {t : Nat} (ht : t < idle) : (rxLine idle fs tail).getD t true = true := by
  have hlt : t < (List.replicate idle true).length := by rwa [List.length_replicate]
  rw [rxLine, List.append_assoc, List.getD_append _ _ _ _ hlt, getD_replicate_true]

theorem rxLine_frames {u : Nat} (hu : u < (fs.flatMap RxFrame.wave).length) :
    (rxLine idle fs tail).getD (idle + u) true = (fs.flatMap RxFrame.wave).getD u true := by
  have hle : (List.replicate idle true).length ≤ idle + u := by
    rw [List.length_replicate]
    exact Nat.le_add_right _ _
  rw [rxLine, List.append_assoc, List.getD_append_right _ _ _ _ hle, List.length_replicate,
    Nat.add_sub_cancel_left, List.getD_append _ _ _ _ hu]

theorem rxLine_tail {t : Nat} (ht : idle + (fs.flatMap RxFrame.wave).length ≤ t) :
    (rxLine idle fs tail).getD t true = true := by
  have hle : (List.replicate idle true ++ fs.flatMap RxFrame.wave).length ≤ t := by
    rwa [List.length_append, List.length_replicate]
  rw [rxLine, List.getD_append_right _ _ _ _ hle, getD_replicate_true]

/-- Eight ticks after the last frame everything has been delivered. -/
theorem rxLine_delivered (baud : UartBaudGen) (htail : 112 ≤ tail) :
    rxPort.log (RxPort.powerUp baud) (rxLine idle fs tail) = fs.map RxFrame.byte := by
  have hk : baud.wait < 14 := wait_lt baud
  obtain ⟨m, hready⟩ := frames_received hk fs
    (@ready_powerUp (fun t => (rxLine idle fs tail).getD t true) _ hk _
      fun t ht => rxLine_idle idle fs tail ht)
    fun u hu => rxLine_frames idle fs tail hu
  have hsoon := hready.soon
  rw [rxPort_divided.log_eq (by omega) true _ (RxPort.powerUp baud) hk]
  refine ready_idle hready (fun t h1 _ => rxLine_tail idle fs tail h1) ?_
  show m + 8 ≤ tickCount 14 baud.wait (rxLine idle fs tail).length
  rw [length_rxLine]
  unfold tickCount
  omega

end Line

/-- **Reception with clock mismatch.** From power-up in any phase of the baud generator, over an
    idle line, any list of frames, each of its own bit period from 215 to 238 clocks and with any
    gap, and a line that then stays high: what has been delivered is at any time a prefix of the
    frames' bytes, and from 112 clocks after the last frame on `rdy` has risen exactly once for
    each frame, in order, with `data` equal to the frame's byte. -/
theorem rxPort_frames (baud : UartBaudGen) (idle tail : Nat) (fs : List RxFrame) :
    (∀ n, rxPort.log (RxPort.powerUp baud) ((rxLine idle fs tail).take n) <+:
        fs.map RxFrame.byte) ∧
      (112 ≤ tail →
        rxPort.log (RxPort.powerUp baud) (rxLine idle fs tail) = fs.map RxFrame.byte) := by
  refine ⟨fun n => ?_, rxLine_delivered idle fs tail baud⟩
  -- a longer tail delivers everything, and its log begins with this one
  have hall := rxLine_delivered idle fs (tail + 112) baud (by omega)
  have hline : rxLine idle fs (tail + 112) = rxLine idle fs tail ++ List.replicate 112 true := by
    simp only [rxLine, List.append_assoc, List.replicate_append_replicate]
  rw [hline, ← List.take_append_drop n (rxLine idle fs tail), List.append_assoc,
    Machine.log_append] at hall
  exact ⟨_, hall⟩

end WifiOsc
