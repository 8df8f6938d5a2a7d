/-
  File:      WifiOsc/Fpga/TxLine.lean
  Subject:   TELEMETRY OVER THE WIRE: `REG2UART` and `UART_TXD` on the ticks of `UART_BAUD_GEN`, as
             module `UART` connects them, and the line they drive.

  The transmitter moves on every 218th clock only, but takes a byte at any clock: what it puts on
  the line is 8N1 frames of 218 clocks a bit, each begun at the first tick after its byte was taken.
  A receiver of the same make on the line delivers these bytes, whatever the phase of its own baud
  generator, and is at most two bytes behind: one on the line, one in its stop bit.

  * `txPort`: the transmit side at every clock; `txPort_level`: `txd` is held between ticks;
  * `txPort_spaced`: the values of `txd` at its ticks are the frames of the accepted bytes;
  * `txPort_line`: the line, clock by clock; `line_received`: what a receiver makes of it;
  * `PacketInv`: the accepted bytes are the stream of the stored packets;
  * `telemetry`: the host decodes the stored packets, in order, and none is lost.
-/
import WifiOsc.Basis.Pipe
import WifiOsc.Fpga.UartRx

namespace WifiOsc

open Basis

/-! ## 1. The transmit side and its clock -/

/-- What the outside decides at an edge. -/
structure TxPortIn where
  en : Bool
  address : Byte
  regs : BitVec 48

structure TxPort where
  baud : UartBaudGen
  port : RegPort

/-- What is seen at an edge: the line, `txd` after a tick, a byte taken by the transmitter, a packet
    stored by `REG2UART`. -/
inductive TxEvent where
  | level (txd : Bool)
  | moved (txd : Bool)
  | accepted (b : Byte)
  | stored (k : Packet)
  deriving DecidableEq

namespace TxEvent

def level? : TxEvent → Option Bool
  | level v => some v
  | _ => none

def moved? : TxEvent → Option Bool
  | moved v => some v
  | _ => none

def accepted? : TxEvent → Option Byte
  | accepted b => some b
  | _ => none

def stored? : TxEvent → Option Packet
  | stored k => some k
  | _ => none

end TxEvent

/-- The inputs of `REG2UART` and `UART_TXD` at an edge. -/
def TxPort.edge (s : TxPort) (i : TxPortIn) : RegPortIn := ⟨i.en, i.address, i.regs, s.baud.txEn⟩

def txPort : Machine TxPort TxPortIn TxEvent where
  step s i := ⟨s.baud.step, regPort.step s.port (s.edge i)⟩
  out s i :=
    [.level s.port.t.txd] ++
      (if s.baud.txEn then [.moved (regPort.step s.port (s.edge i)).t.txd] else []) ++
      (acceptedBytes (regPort.out s.port (s.edge i))).map .accepted ++
      (if s.port.r.currentState = .saveingData then [.stored ⟨i.address, i.regs⟩] else [])

/-- Power-up, the baud generator in any phase. -/
def TxPort.powerUp (baud : UartBaudGen) (data : Fin 8 → Byte) (dout : Byte) (isBusy : Bool) :
    TxPort :=
  ⟨baud, RegPort.powerUp data dout isBusy⟩

/-- Clocks until the next tick. -/
def UartBaudGen.txWait (g : UartBaudGen) : Nat := accWait txAccMax g.txAcc

theorem txWait_lt (g : UartBaudGen) : g.txWait < 218 := accWait_lt g.txAcc (by decide)

theorem txWait_step (g : UartBaudGen) :
    (g.txWait = 0 → g.txEn = true ∧ g.step.txWait = 217) ∧
      ∀ k, g.txWait = k + 1 → g.txEn = false ∧ g.step.txWait = k := by
  rw [UartBaudGen.txEn, beq_iff_eq, beq_eq_false_iff_ne]
  exact accWait_step g.txAcc (by decide)

/-- What a log shows of the line, of the ticks, of the bytes and of the packets. -/
def lineLevels (l : List TxEvent) : List Bool := l.filterMap TxEvent.level?
def tickLevels (l : List TxEvent) : List Bool := l.filterMap TxEvent.moved?
def takenBytes (l : List TxEvent) : List Byte := l.filterMap TxEvent.accepted?
def storedPackets (l : List TxEvent) : List Packet := l.filterMap TxEvent.stored?

section Out

variable (s : TxPort) (i : TxPortIn)

theorem lineLevels_out : lineLevels (txPort.out s i) = [s.port.t.txd] := by
  simp only [lineLevels, txPort, List.filterMap_append, List.filterMap_map, Function.comp_def,
    TxEvent.level?]
  cases s.baud.txEn <;> by_cases hs : s.port.r.currentState = .saveingData <;>
    simp [hs, List.filterMap_cons, TxEvent.level?]

theorem tickLevels_out : tickLevels (txPort.out s i) =
    if s.baud.txEn then [(txPort.step s i).port.t.txd] else [] := by
  simp only [tickLevels, txPort, List.filterMap_append, List.filterMap_map, Function.comp_def,
    TxEvent.moved?]
  cases s.baud.txEn <;> by_cases hs : s.port.r.currentState = .saveingData <;>
    simp [hs, List.filterMap_cons, TxEvent.moved?]

theorem takenBytes_out :
    takenBytes (txPort.out s i) = acceptedBytes (regPort.out s.port (s.edge i)) := by
  simp only [takenBytes, txPort, List.filterMap_append, List.filterMap_map, Function.comp_def,
    TxEvent.accepted?]
  cases s.baud.txEn <;> by_cases hs : s.port.r.currentState = .saveingData <;>
    simp [hs, List.filterMap_cons, TxEvent.accepted?]

theorem storedPackets_out : storedPackets (txPort.out s i) =
    if s.port.r.currentState = .saveingData then [⟨i.address, i.regs⟩] else [] := by
  simp only [storedPackets, txPort, List.filterMap_append, List.filterMap_map, Function.comp_def,
    TxEvent.stored?]
  cases s.baud.txEn <;> by_cases hs : s.port.r.currentState = .saveingData <;>
    simp [hs, List.filterMap_cons, TxEvent.stored?]

end Out

/-- Between two ticks the transmitter changes nothing but what it is about to send. -/
theorem txd_held {t : UartTxd} (din : Byte) (wrEn : Bool) : (t.step din wrEn false).txd = t.txd := by
  obtain ⟨txd, data, bitpos, state⟩ := t
  cases state <;> cases wrEn <;> rfl

/-- **`txd` is a register behind a divided clock.** -/
theorem txPort_level : Level txPort 218 (fun s => s.port.t.txd) (fun s => s.baud.txWait)
    TxEvent.level? TxEvent.moved? where
  seen := lineLevels_out
  tick s i h := by
    obtain ⟨hen, hw⟩ := (txWait_step s.baud).1 h
    refine ⟨hw, ?_⟩
    have hout := tickLevels_out s i
    rw [if_pos hen] at hout
    exact hout
  idle s i k h := by
    obtain ⟨hen, hw⟩ := (txWait_step s.baud).2 k h
    refine ⟨?_, hw, ?_⟩
    · show (s.port.t.step s.port.r.dout s.port.r.oEn s.baud.txEn).txd = s.port.t.txd
      rw [hen]
      exact txd_held _ _
    · have hout := tickLevels_out s i
      rw [hen] at hout
      exact hout

/-! ## 2. What is on the line -/

/-- The bit counter waits at 0, and the line is high until the first tick of a frame. -/
structure UartTxd.Resting (t : UartTxd) : Prop where
  armed : t.Armed
  high : t.state = .idle ∨ t.state = .start → t.txd = true

theorem txdResting_step {t : UartTxd} (h : t.Resting) (din : Byte) (wrEn clken : Bool) :
    (t.step din wrEn clken).Resting where
  armed := armed_step h.armed din wrEn clken
  high := by
    obtain ⟨txd, data, bitpos, state⟩ := t
    have hhigh := h.high
    cases state with
    | idle => cases wrEn <;> simp_all [UartTxd.step]
    | start => cases clken <;> simp_all [UartTxd.step]
    | data =>
      cases clken
      · simp [UartTxd.step]
      · by_cases hp : bitpos = 7#3 <;> simp [UartTxd.step, hp]
    | stop => cases clken <;> simp [UartTxd.step]

/-- The ticks so far and still to come are the frames of the accepted bytes, with the line high
    between them. -/
structure SpacedInv (s : TxPort) (l : List TxEvent) : Prop where
  resting : s.port.t.Resting
  spaced : Spaced uartFrame true (takenBytes l) (tickLevels l ++ s.port.t.rest)

theorem spaced_step (s : TxPort) (l : List TxEvent) (i : TxPortIn) (h : SpacedInv s l) :
    SpacedInv (txPort.step s i) (l ++ txPort.out s i) where
  resting := txdResting_step h.resting _ _ _
  spaced := by
    have hsp := h.spaced
    have htaken : takenBytes (l ++ txPort.out s i) =
        takenBytes l ++ acceptedBytes (regPort.out s.port (s.edge i)) := by
      rw [← takenBytes_out]
      exact List.filterMap_append
    have htick : tickLevels (l ++ txPort.out s i) = tickLevels l ++
        if s.baud.txEn then [(txPort.step s i).port.t.txd] else [] := by
      rw [← tickLevels_out]
      exact List.filterMap_append
    rw [htaken, htick]
    by_cases hidle : s.port.t.state = .idle
    · -- a tick of the idle transmitter leaves the line high; a byte may be taken beside it
      have hrest : s.port.t.rest = [] := rest_idle hidle
      have hhigh : s.port.t.txd = true := h.resting.high (Or.inl hidle)
      have htxd : (txPort.step s i).port.t.txd = true := by
        rw [← hhigh]
        show (s.port.t.step s.port.r.dout s.port.r.oEn s.baud.txEn).txd = s.port.t.txd
        cases ho : s.port.r.oEn <;> simp [UartTxd.step, hidle]
      rw [hrest, List.append_nil] at hsp
      have hline : Spaced uartFrame true (takenBytes l)
          (tickLevels l ++ if s.baud.txEn then [true] else []) := by
        cases s.baud.txEn
        · simpa using hsp
        · exact hsp.rest
      rw [htxd, accepted_idle _ hidle]
      cases ho : s.port.r.oEn with
      | false =>
        have hrest' : (txPort.step s i).port.t.rest = [] := by
          simp [txPort, UartTxd.step, UartTxd.rest, hidle, ho]
        rw [hrest']
        simpa using hline
      | true =>
        have hrest' : (txPort.step s i).port.t.rest = uartFrame s.port.r.dout := by
          simp [txPort, UartTxd.step, UartTxd.rest, hidle, ho]
        rw [hrest']
        exact hline.word s.port.r.dout
    · -- the busy transmitter takes nothing, and its ticks come off what is pending
      have hcons := ticks_conserved_step s.port (s.edge i) h.resting.armed
      have hticks : tickValues (regPort.out s.port (s.edge i)) =
          if s.baud.txEn then [(txPort.step s i).port.t.txd] else [] := by
        cases hen : s.baud.txEn <;>
          simp [regPort, hidle, tickValues, RegPortEvent.tick?, TxPort.edge, hen, txPort]
      have hrest : (if s.baud.txEn then [(txPort.step s i).port.t.txd] else []) ++
          (txPort.step s i).port.t.rest = s.port.t.rest := by
        rw [accepted_busy _ hidle, List.flatMap_nil, List.append_nil] at hcons
        rw [← hticks]
        exact hcons
      rw [accepted_busy _ hidle, List.append_nil, List.append_assoc, hrest]
      exact hsp

/-- **The values of `txd` at its ticks are the frames of the accepted bytes.** -/
theorem txPort_spaced (baud : UartBaudGen) (data : Fin 8 → Byte) (dout : Byte) (isBusy : Bool)
    (is : List TxPortIn) :
    SpacedInv (txPort.run (TxPort.powerUp baud data dout isBusy) is)
      (txPort.log (TxPort.powerUp baud data dout isBusy) is) := by
  refine txPort.inv_log spaced_step (l := []) ⟨⟨fun h => ?_, fun _ => rfl⟩, ?_⟩ is
  · cases h
  · exact .nil

/-- A byte and the ticks of a high line after it, as a frame of 218 clocks a bit. -/
def txFrame (f : Byte × Nat) : RxFrame := ⟨f.1, 218, 218 * f.2, by omega, by omega⟩

theorem hold_append {α : Type} (n : Nat) (l l' : List α) :
    hold n (l ++ l') = hold n l ++ hold n l' :=
  List.flatMap_append

theorem hold_replicate {α : Type} (n k : Nat) (a : α) :
    hold n (List.replicate k a) = List.replicate (n * k) a := by
  induction k with
  | zero => rfl
  | succ k ih =>
    rw [List.replicate_succ', hold_append, ih, Nat.mul_succ, ← List.replicate_append_replicate]
    exact congrArg (_ ++ ·) (List.append_nil _)

/-- Held for 218 clocks each, the symbols of spaced frames are the waves of these frames. -/
theorem hold_frames (fs : List (Byte × Nat)) :
    hold 218 (fs.flatMap fun f => uartFrame f.1 ++ List.replicate f.2 true) =
      (fs.map txFrame).flatMap RxFrame.wave := by
  induction fs with
  | nil => rfl
  | cons f fs ih =>
    rw [List.flatMap_cons, hold_append, hold_append, hold_replicate, ih]
    rfl

/-- **The line**: high, then a frame of 218 clocks a bit for each accepted byte, in order. What is on
    the line so far ends at most twelve bit times before the end of the last of these. -/
theorem txPort_line (baud : UartBaudGen) (data : Fin 8 → Byte) (dout : Byte) (isBusy : Bool)
    (is : List TxPortIn) :
    let l := txPort.log (TxPort.powerUp baud data dout isBusy) is
    ∃ (idle : Nat) (fs : List (Byte × Nat)), fs.map Prod.fst = takenBytes l ∧
      lineLevels l <+: rxLine idle (fs.map txFrame) 0 ∧
      (rxLine idle (fs.map txFrame) 0).length ≤ (lineLevels l).length + 218 * 11 := by
  intro l
  set s' := txPort.run (TxPort.powerUp baud data dout isBusy) is with hs'
  obtain ⟨idle, fs, hbytes, hticks⟩ := (txPort_spaced baud data dout isBusy is).spaced.exists_gaps
  have hheld : lineLevels l ++ List.replicate (s'.baud.txWait + 1) s'.port.t.txd =
      List.replicate (baud.txWait + 1) true ++ hold 218 (tickLevels l) :=
    txPort_level.held (by omega) (TxPort.powerUp baud data dout isBusy) is
  -- the ticks still to come complete the last frame
  have hall : lineLevels l ++ (List.replicate (s'.baud.txWait + 1) s'.port.t.txd ++
      hold 218 s'.port.t.rest) =
        rxLine (baud.txWait + 1 + 218 * idle) (fs.map txFrame) 0 := by
    rw [← List.append_assoc, hheld, List.append_assoc, ← hold_append, hticks, hold_append,
      hold_replicate, hold_frames, ← List.append_assoc, List.replicate_append_replicate, rxLine,
      List.replicate_zero, List.append_nil]
  have hrest : s'.port.t.rest.length ≤ 10 := by
    unfold UartTxd.rest
    split <;> simp [uartFrame]
    omega
  have hwait := txWait_lt s'.baud
  refine ⟨baud.txWait + 1 + 218 * idle, fs, hbytes, ⟨_, hall⟩, ?_⟩
  rw [← hall, List.length_append, List.length_append, List.length_replicate, length_hold]
  omega

/-! ## 3. A receiver on the line -/

theorem log_mono {σ ι ω : Type} (M : Machine σ ι ω) (s : σ) {is js : List ι} (h : is <+: js) :
    M.log s is <+: M.log s js := by
  obtain ⟨ks, rfl⟩ := h
  rw [M.log_append]
  exact List.prefix_append _ _

theorem wave_low (f : RxFrame) : List.replicate 28 false <+: f.wave := by
  have hlo := f.lo
  refine ⟨List.replicate (f.period - 28) false ++
    (hold f.period (uartFrame f.byte).tail ++ List.replicate f.gap true), ?_⟩
  rw [← List.append_assoc, List.replicate_append_replicate, Nat.add_sub_cancel' (by omega),
    ← List.append_assoc]
  rfl

/-- The first 28 clocks of the next start bit deliver every frame before it. -/
theorem delivered_by_next (baud : UartBaudGen) (idle : Nat) (fs : List RxFrame) :
    fs.map RxFrame.byte <+: rxPort.log (RxPort.powerUp baud)
      (rxLine idle fs 0 ++ List.replicate 28 false) := by
  have hk : baud.wait < 14 := wait_lt baud
  set xs := rxLine idle fs 0 ++ List.replicate 28 false with hxs
  have hlen : (rxLine idle fs 0).length = idle + (fs.flatMap RxFrame.wave).length := by
    rw [length_rxLine, Nat.add_zero]
  have hline : ∀ u < (rxLine idle fs 0).length, xs.getD u true = (rxLine idle fs 0).getD u true :=
    fun u hu => List.getD_append _ _ _ _ hu
  have hstart : Ready UartRxd.powerUp (fun t => xs.getD t true) baud.wait idle
      ((idle + 13 - baud.wait) / 14) [] :=
    ready_powerUp hk fun t ht => by
      show xs.getD t true = true
      rw [hline t (by omega)]
      exact rxLine_idle idle fs 0 ht
  obtain ⟨m, hready⟩ := frames_received hk fs hstart fun u hu => by
    show xs.getD (idle + u) true = _
    rw [hline _ (by omega)]
    exact rxLine_frames idle fs 0 hu
  obtain ⟨m', h1, h2, -, -, hd⟩ := ready_start hready fun u hu => by
    show xs.getD (idle + (fs.flatMap RxFrame.wave).length + u) true = false
    rw [hxs, List.getD_append_right _ _ _ _ (by omega), hlen, Nat.add_sub_cancel_left,
      List.getD_replicate _ hu]
  have hxlen : xs.length = idle + (fs.flatMap RxFrame.wave).length + 28 := by
    rw [hxs, List.length_append, hlen, List.length_replicate]
  rw [rxPort_divided.log_eq (by omega) true _ (RxPort.powerUp baud) hk]
  -- the tick `m'` falls into these clocks
  have hcount : m' ≤ tickCount 14 baud.wait xs.length := by
    unfold tickCount
    omega
  obtain ⟨n, hn⟩ := Nat.exists_eq_add_of_le hcount
  have hd' : rxTick.log UartRxd.powerUp (upTo (fun j => xs.getD (baud.wait + 14 * j) true) m') =
      fs.map RxFrame.byte := hd
  rw [← hd']
  refine log_mono rxTick _ ?_
  show upTo _ m' <+: upTo _ (tickCount 14 baud.wait xs.length)
  rw [hn, upTo, upTo, List.range_add, List.map_append]
  exact List.prefix_append _ _

/-- **A receiver on the line**, its baud generator in any phase: at any time it has delivered the
    accepted bytes, in order, but for at most the last two. -/
theorem line_received (baud baud' : UartBaudGen) (data : Fin 8 → Byte) (dout : Byte)
    (isBusy : Bool) (is : List TxPortIn) :
    let l := txPort.log (TxPort.powerUp baud data dout isBusy) is
    let got := rxPort.log (RxPort.powerUp baud') (lineLevels l)
    got <+: takenBytes l ∧ (takenBytes l).length ≤ got.length + 2 := by
  intro l got
  obtain ⟨idle, fs, hbytes, hpre, hlen⟩ := txPort_line baud data dout isBusy is
  have hmap : (fs.map txFrame).map RxFrame.byte = takenBytes l := by
    rw [List.map_map, ← hbytes]
    rfl
  refine ⟨?_, ?_⟩
  · have hlong : rxLine idle (fs.map txFrame) 0 <+: rxLine idle (fs.map txFrame) 112 := by
      refine ⟨List.replicate 112 true, ?_⟩
      simp [rxLine]
    rw [← hmap, ← rxLine_delivered idle (fs.map txFrame) 112 baud' (Nat.le_refl 112)]
    exact log_mono rxPort _ (hpre.trans hlong)
  · by_cases h2 : fs.length ≤ 2
    · rw [← hmap, List.length_map, List.length_map]
      omega
    · -- all but the last two frames, and the start bit of the next, are on the line
      have hsplit : fs.map txFrame = (fs.map txFrame).take (fs.length - 2) ++
          (fs.map txFrame).drop (fs.length - 2) := (List.take_append_drop _ _).symm
      set before := (fs.map txFrame).take (fs.length - 2) with hbefore
      obtain ⟨f, g, hfg⟩ : ∃ f g, (fs.map txFrame).drop (fs.length - 2) = [f, g] := by
        refine List.length_eq_two.mp ?_
        rw [List.length_drop, List.length_map]
        omega
      have hperiod : ∀ h ∈ [f, g], h.period = 218 := by
        intro h hmem
        rw [← hfg] at hmem
        obtain ⟨x, -, rfl⟩ := List.mem_map.mp (List.mem_of_mem_drop hmem)
        rfl
      have hf : f.period = 218 := hperiod f (by simp)
      have hg : g.period = 218 := hperiod g (by simp)
      have hwave : rxLine idle (fs.map txFrame) 0 =
          rxLine idle before 0 ++ (f.wave ++ g.wave) := by
        rw [hsplit, hfg]
        simp [rxLine]
      have hstart : rxLine idle before 0 ++ List.replicate 28 false <+:
          rxLine idle (fs.map txFrame) 0 := by
        rw [hwave, List.prefix_append_right_inj]
        exact (wave_low f).trans (List.prefix_append _ _)
      have hshort : (rxLine idle before 0 ++ List.replicate 28 false).length ≤
          (lineLevels l).length := by
        have hlen' : (rxLine idle (fs.map txFrame) 0).length ≤ (lineLevels l).length + 218 * 11 :=
          hlen
        rw [hwave] at hlen'
        simp only [List.length_append, List.length_replicate, f.length_wave, g.length_wave, hf, hg]
          at hlen' ⊢
        omega
      have hon := List.prefix_of_prefix_length_le hstart hpre hshort
      have hgot := ((delivered_by_next baud' idle before).trans (log_mono rxPort _ hon)).length_le
      have hcount : (before.map RxFrame.byte).length = fs.length - 2 := by
        rw [List.length_map, hbefore, List.length_take, List.length_map]
        omega
      rw [← hmap, List.length_map, List.length_map]
      show fs.length ≤ got.length + 2
      have : (before.map RxFrame.byte).length ≤ got.length := hgot
      omega

/-! ## 4. Packets -/

/-- The accepted bytes are the stream of the stored packets, the last of which may still be going
    out. -/
inductive PacketInv : TxPort → List TxEvent → Prop where
  | between (s : TxPort) (l : List TxEvent)
      (hr : s.port.r.currentState = .idle ∨ s.port.r.currentState = .saveingData)
      (hq : s.port.Quiet) (hl : takenBytes l = packetStream (storedPackets l)) : PacketInv s l
  | within (s : TxPort) (l : List TxEvent) (ks : List Packet) (k : Packet) (acc : List Byte)
      (hp : Pass (REG2UART.saveData k.address k.regs) s.port acc)
      (hk : storedPackets l = ks ++ [k]) (hl : takenBytes l = packetStream ks ++ acc) :
      PacketInv s l

theorem takenBytes_append (l l' : List TxEvent) :
    takenBytes (l ++ l') = takenBytes l ++ takenBytes l' := List.filterMap_append

theorem storedPackets_append (l l' : List TxEvent) :
    storedPackets (l ++ l') = storedPackets l ++ storedPackets l' := List.filterMap_append

theorem packetStream_snoc (ks : List Packet) (k : Packet) :
    packetStream (ks ++ [k]) = packetStream ks ++ k.encode := by
  simp [packetStream]

theorem length_packetStream (ks : List Packet) : (packetStream ks).length = 8 * ks.length := by
  simp [packetStream, Nat.mul_comm]

/-- An edge in `IDLE`. -/
theorem packetInv_idle {s : TxPort} {l : List TxEvent} (i : TxPortIn)
    (hr : s.port.r.currentState = .idle) (hq : s.port.Quiet)
    (hl : takenBytes l = packetStream (storedPackets l)) :
    PacketInv (txPort.step s i) (l ++ txPort.out s i) := by
  obtain ⟨hq', hr'⟩ := quiet_idle_step (s.edge i) hr hq
  have htaken : takenBytes (txPort.out s i) = [] := by
    rw [takenBytes_out, accepted_idle _ hq.1, hq.2.2]
    rfl
  have hstored : storedPackets (txPort.out s i) = [] := by
    rw [storedPackets_out, hr]
    rfl
  refine .between _ _ hr' hq' ?_
  rw [takenBytes_append, storedPackets_append, htaken, hstored, List.append_nil, List.append_nil, hl]

theorem packetInv_step (s : TxPort) (l : List TxEvent) (i : TxPortIn) (h : PacketInv s l) :
    PacketInv (txPort.step s i) (l ++ txPort.out s i) := by
  cases h with
  | between hr hq hl =>
    rcases hr with hr | hr
    · exact packetInv_idle i hr hq hl
    · -- the packet on the inputs is stored, and its pass begins
      have hstored : storedPackets (txPort.out s i) = [⟨i.address, i.regs⟩] := by
        rw [storedPackets_out, if_pos hr]
      have hpass := pass_begin (s.edge i) hr hq
      rw [← takenBytes_out] at hpass
      refine .within _ _ (storedPackets l) ⟨i.address, i.regs⟩ _ hpass ?_ ?_
      · rw [storedPackets_append, hstored]
      · rw [takenBytes_append, hl]
  | within ks k acc hp hk hl =>
    by_cases hr : s.port.r.currentState = .idle
    · obtain ⟨hq, hacc⟩ := pass_idle hp hr
      refine packetInv_idle i hr hq ?_
      rw [hl, hk, packetStream_snoc, hacc]
      rfl
    · have hpass := pass_step (s.edge i) hr hp
      rw [← takenBytes_out] at hpass
      have hstored : storedPackets (txPort.out s i) = [] := by
        rw [storedPackets_out, if_neg]
        intro hs
        cases hp <;> simp_all
      refine .within _ _ ks k _ hpass ?_ ?_
      · rw [storedPackets_append, hstored, List.append_nil, hk]
      · rw [takenBytes_append, hl, List.append_assoc]

/-- What a pass has sent is a beginning of its packet. -/
theorem pass_prefix {b : Fin 8 → Byte} {s : RegPort} {acc : List Byte} (h : Pass b s acc) :
    acc <+: List.ofFn b := by
  cases h with
  | done => exact List.prefix_refl _
  | _ => exact List.take_prefix _ _

/-- **The accepted bytes are a beginning of the stream of the stored packets**, and only the last
    packet may be incomplete. -/
theorem accepted_stream (baud : UartBaudGen) (data : Fin 8 → Byte) (dout : Byte) (isBusy : Bool)
    (is : List TxPortIn) :
    let l := txPort.log (TxPort.powerUp baud data dout isBusy) is
    takenBytes l <+: packetStream (storedPackets l) ∧
      8 * (storedPackets l).length ≤ (takenBytes l).length + 8 := by
  intro l
  have hinv : PacketInv _ l := txPort.inv_log packetInv_step (l := [])
    (.between (TxPort.powerUp baud data dout isBusy) [] (Or.inl rfl)
      ⟨rfl, fun h => (by cases h), rfl⟩ rfl) is
  cases hinv with
  | between hr hq hl => exact ⟨by rw [hl], by rw [hl, length_packetStream]; omega⟩
  | within ks k acc hp hk hl =>
    refine ⟨?_, ?_⟩
    · rw [hl, hk, packetStream_snoc, List.prefix_append_right_inj]
      exact pass_prefix hp
    · rw [hl, hk, List.length_append, List.length_append, length_packetStream,
        List.length_singleton]
      omega

/-- A beginning of a packet stream is decoded to its whole packets. -/
theorem decodeStream_take {bs : List Byte} {ks : List Packet} (h : bs <+: packetStream ks) :
    decodeStream bs = (ks.map Packet.fields).take (bs.length / 8) := by
  obtain ⟨rest, hrest⟩ := h
  have hle : bs.length ≤ 8 * ks.length := by
    have hlen := congrArg List.length hrest
    rw [List.length_append, length_packetStream] at hlen
    omega
  -- the groups of `bs` are the first groups of the whole stream
  have hgroups : groups 8 bs = (groups 8 (packetStream ks)).take (bs.length / 8) := by
    unfold groups
    rw [← List.map_take, List.take_range, Nat.min_eq_left, ← hrest]
    · refine List.map_congr_left fun j hj => ?_
      have hj' : j < bs.length / 8 := List.mem_range.mp hj
      rw [List.drop_append_of_le_length (by omega), List.take_append_of_le_length]
      rw [List.length_drop]
      omega
    · rw [← hrest]
      refine Nat.div_le_div_right ?_
      rw [List.length_append]
      omega
  rw [decodeStream, hgroups, List.map_take, ← decodeStream_packetStream]
  rfl

/-- **Telemetry end to end.** From power-up, both baud generators in any phase, whatever requests,
    addresses and register values the inputs show: what the decoder makes of the bytes that a
    receiver on the line has delivered are the fields of the packets stored so far, in order, from
    the first one on, and at most the last two of them are still on their way. -/
theorem telemetry (baud baud' : UartBaudGen) (data : Fin 8 → Byte) (dout : Byte) (isBusy : Bool)
    (is : List TxPortIn) :
    let l := txPort.log (TxPort.powerUp baud data dout isBusy) is
    let got := rxPort.log (RxPort.powerUp baud') (lineLevels l)
    decodeStream got = ((storedPackets l).map Packet.fields).take (got.length / 8) ∧
      (storedPackets l).length ≤ got.length / 8 + 2 := by
  intro l got
  obtain ⟨hgot, hlate⟩ := line_received baud baud' data dout isBusy is
  obtain ⟨hstream, hlast⟩ := accepted_stream baud data dout isBusy is
  refine ⟨decodeStream_take (hgot.trans hstream), ?_⟩
  have h1 : (takenBytes l).length ≤ got.length + 2 := hlate
  have h2 : 8 * (storedPackets l).length ≤ (takenBytes l).length + 8 := hlast
  omega

/-! ## 5. Freshness -/

/-- Edges until the transmitter is idle again, when it takes no further byte. -/
def UartTxd.due (t : UartTxd) (wait : Nat) : Nat :=
  match t.state with
  | .idle => 0
  | .start => wait + 1 + 218 * 9
  | .data => wait + 1 + 218 * (8 - t.bitpos.toNat)
  | .stop => wait + 1

theorem due_le (t : UartTxd) {wait : Nat} (h : wait < 218) : t.due wait ≤ 2180 := by
  unfold UartTxd.due
  split <;> omega

/-- The busy transmitter comes one edge closer to being idle. -/
theorem due_step {t : UartTxd} (g : UartBaudGen) (hbusy : t.state ≠ .idle) (ha : t.Armed)
    (din : Byte) (wrEn : Bool) :
    (t.step din wrEn g.txEn).due g.step.txWait < t.due g.txWait := by
  obtain ⟨txd, data, bitpos, state⟩ := t
  have hpos : 0 < (UartTxd.due ⟨txd, data, bitpos, state⟩ g.txWait) := by
    cases state <;> simp_all [UartTxd.due]
  cases hw : g.txWait with
  | zero =>
    obtain ⟨hen, hw'⟩ := (txWait_step g).1 hw
    rw [hen, hw']
    cases state with
    | idle => exact absurd rfl hbusy
    | start =>
      have hb : bitpos = 0#3 := ha rfl
      simp [UartTxd.step, UartTxd.due, hb]
    | data =>
      have hp := bitpos.isLt
      by_cases h7 : bitpos = 7#3
      · simp [UartTxd.step, UartTxd.due, h7]
      · have hne : bitpos.toNat ≠ 7 := fun e => h7 (BitVec.eq_of_toNat_eq e)
        have hsucc : (bitpos + 1#3).toNat = bitpos.toNat + 1 := by
          rw [BitVec.toNat_add]
          exact Nat.mod_eq_of_lt (by simp; omega)
        simp only [UartTxd.step, UartTxd.due, if_true, if_neg h7, hsucc]
        omega
    | stop => simp [UartTxd.step, UartTxd.due]
  | succ k =>
    obtain ⟨hen, hw'⟩ := (txWait_step g).2 k hw
    rw [hen, hw']
    cases state with
    | idle => exact absurd rfl hbusy
    | start => simp [UartTxd.step, UartTxd.due]
    | data => simp [UartTxd.step, UartTxd.due]
    | stop => simp [UartTxd.step, UartTxd.due]

/-- Edges, at most, until the edge that stores a packet, while the enable is up. A byte takes at most
    2183 of them. -/
def TxPort.due (s : TxPort) : Nat :=
  match s.port.r.currentState with
  | .idle => 1
  | .saveingData => 0
  | .sendingStart =>
      (if s.port.t.state = .idle then (if s.port.r.oEn then 1 else 2) + 2180
        else s.port.t.due s.baud.txWait) + 2183 * (7 - s.port.r.counter.toNat) + 2
  | .sendingAdd => s.port.t.due s.baud.txWait + 2183 * (7 - s.port.r.counter.toNat) + 2
  | .sendingEnd => s.port.t.due s.baud.txWait + 2183 * (8 - s.port.r.counter.toNat) + 2

theorem due_bound (s : TxPort) : s.due < 19647 := by
  have htx := due_le s.port.t (txWait_lt s.baud)
  unfold TxPort.due
  split <;> [omega; omega; skip; omega; skip]
  · split <;> [(split <;> omega); omega]
  · omega

/-- **Every edge stores a packet or comes closer to one.** -/
theorem packet_due_step (s : TxPort) (i : TxPortIn) (h : s.port.Inv) (hen : i.en = true) :
    (∃ o ∈ txPort.out s i, o = .stored ⟨i.address, i.regs⟩) ∨
      ((txPort.step s i).port.Inv ∧ (txPort.step s i).due < s.due) := by
  have hinv : (txPort.step s i).port.Inv := regPort_inv_step s.port (s.edge i) h
  have hr' : (txPort.step s i).port.r = (regPort.step s.port (s.edge i)).r := rfl
  have ht' : (txPort.step s i).port.t =
      s.port.t.step s.port.r.dout s.port.r.oEn s.baud.txEn := rfl
  have hbusy : s.port.t.state ≠ .idle → s.port.t.Armed →
      (txPort.step s i).port.t.due (txPort.step s i).baud.txWait < s.port.t.due s.baud.txWait :=
    fun hne ha => due_step s.baud hne ha _ _
  rcases h with ⟨hr, hq⟩ | ⟨hr, hq⟩ | ⟨bs, acc, hp⟩
  · refine Or.inr ⟨hinv, ?_⟩
    have hnext : (txPort.step s i).port.r.currentState = .saveingData := by
      rw [hr']
      simp [REG2UART.step, REG2UART.nextState, hr, TxPort.edge, hen]
    simp [TxPort.due, hnext, hr]
  · refine Or.inl ⟨_, ?_, rfl⟩
    simp [txPort, hr]
  · refine Or.inr ⟨hinv, ?_⟩
    cases hp with
    | offer hr hd hc ht ha ho =>
      have hstep := sendingStart_idle (s.edge i) hr ht
      rw [← hr'] at hstep
      cases hoe : s.port.r.oEn with
      | false =>
        have htn : (txPort.step s i).port.t.state = .idle := by
          rw [ht', hoe]
          simp [UartTxd.step, ht]
        simp [TxPort.due, hstep, hr, htn, ht, hoe]
      | true =>
        -- the byte is taken: all ten ticks are ahead
        have htn : (txPort.step s i).port.t.state = .start := by
          rw [ht', hoe]
          simp [UartTxd.step, ht]
        have hle := due_le (txPort.step s i).port.t (txWait_lt (txPort.step s i).baud)
        simp only [TxPort.due, hstep, hr, htn, ht, hoe, if_true, reduceCtorEq, if_false]
        omega
    | taken hr hd hc ht ha =>
      have hne : s.port.t.state ≠ .idle := by simp [ht]
      have hstep := sendingStart_busy (s.edge i) hr hne
      rw [← hr'] at hstep
      have hlt := hbusy hne ha
      simp only [TxPort.due, hstep, hr, ht, reduceCtorEq, if_false]
      omega
    | add hr hd hc ht ha =>
      have hne : s.port.t.state ≠ .idle := by rcases ht with ht | ht <;> simp [ht]
      have hstep := sendingAdd_any (s.edge i) hr
      rw [← hr'] at hstep
      have hcount : (s.port.r.counter + 1#4).toNat = s.port.r.counter.toNat + 1 := by
        rw [BitVec.toNat_add]
        exact Nat.mod_eq_of_lt (by simp; omega)
      have hlt := hbusy hne ha
      simp only [TxPort.due, hstep, hr, hcount]
      omega
    | wait hr hd hc ho ha =>
      by_cases ht : s.port.t.state = .idle
      · have hstep := sendingEnd_idle (s.edge i) hr ht
        rw [← hr'] at hstep
        have htn : (txPort.step s i).port.t.state = .idle := by
          rw [ht', ho]
          simp [UartTxd.step, ht]
        have h0 : s.port.t.due s.baud.txWait = 0 := by simp [UartTxd.due, ht]
        by_cases h8 : 8 ≤ s.port.r.counter.toNat
        · rw [if_pos h8] at hstep
          simp only [TxPort.due, hstep, hr]
          omega
        · rw [if_neg h8] at hstep
          simp only [TxPort.due, hstep, hr, htn, ho, if_true, Bool.false_eq_true, if_false, h0]
          omega
      · have hstep := sendingEnd_busy (s.edge i) hr ht
        rw [← hr'] at hstep
        have hlt := hbusy ht ha
        simp only [TxPort.due, hstep, hr]
        omega
    | done hr hq =>
      have hnext : (txPort.step s i).port.r.currentState = .saveingData := by
        rw [hr']
        simp [REG2UART.step, REG2UART.nextState, hr, TxPort.edge, hen]
      simp [TxPort.due, hnext, hr]

/-- While the enable is up, a packet is stored within any 19647 edges. -/
theorem packet_due {s : TxPort} {is : List TxPortIn} (h : s.port.Inv) (hen : ∀ i ∈ is, i.en = true)
    (hlen : 19647 ≤ is.length) : 0 < (storedPackets (txPort.log s is)).length := by
  obtain ⟨o, ho, k, rfl⟩ := txPort.due (I := fun s => s.port.Inv) (C := fun _ i => i.en = true)
    (E := fun o => ∃ k, o = .stored k) (m := TxPort.due)
    (fun s i hI hC => (packet_due_step s i hI hC).imp_left fun ⟨o, ho, e⟩ => ⟨o, ho, _, e⟩)
    h (txPort.throughout_of_mem fun _ => hen) (Nat.lt_of_lt_of_le (due_bound s) hlen)
  exact List.length_pos_of_mem (List.mem_filterMap.mpr ⟨_, ho, rfl⟩)

theorem storedPackets_log_append (s : TxPort) (is js : List TxPortIn) :
    storedPackets (txPort.log s (is ++ js)) =
      storedPackets (txPort.log s is) ++ storedPackets (txPort.log (txPort.run s is) js) := by
  rw [txPort.log_append, storedPackets_append]

/-- Any number of packets, in as many such stretches of edges. -/
theorem packets_due {s : TxPort} {is : List TxPortIn} (n : Nat) (h : s.port.Inv)
    (hen : ∀ i ∈ is, i.en = true) (hlen : 19647 * n ≤ is.length) :
    n ≤ (storedPackets (txPort.log s is)).length := by
  induction n generalizing s is with
  | zero => exact Nat.zero_le _
  | succ n ih =>
    have hsplit := storedPackets_log_append s (is.take 19647) (is.drop 19647)
    rw [List.take_append_drop] at hsplit
    have hfirst : 0 < (storedPackets (txPort.log s (is.take 19647))).length :=
      packet_due h (fun i hi => hen i (List.mem_of_mem_take hi)) (by rw [List.length_take]; omega)
    have hinv : (txPort.run s (is.take 19647)).port.Inv :=
      txPort.inv_run (I := fun s => s.port.Inv) (fun s i hI => regPort_inv_step s.port (s.edge i) hI)
        h _
    have hrest : n ≤ (storedPackets (txPort.log (txPort.run s (is.take 19647))
        (is.drop 19647))).length :=
      ih hinv (fun i hi => hen i (List.mem_of_mem_drop hi)) (by rw [List.length_drop]; omega)
    rw [hsplit, List.length_append]
    omega

/-- A stored packet shows the inputs at one of the edges. -/
theorem mem_storedPackets {s : TxPort} {is : List TxPortIn} {k : Packet}
    (h : k ∈ storedPackets (txPort.log s is)) : ∃ i ∈ is, k = ⟨i.address, i.regs⟩ := by
  induction is generalizing s with
  | nil => cases h
  | cons i is ih =>
    rw [Machine.log_cons, storedPackets_append, List.mem_append, storedPackets_out] at h
    rcases h with h | h
    · split at h
      · exact ⟨i, List.mem_cons_self, List.mem_singleton.mp h⟩
      · cases h
    · obtain ⟨j, hj, hk⟩ := ih h
      exact ⟨j, List.mem_cons_of_mem i hj, hk⟩

/-- **Freshness.** From power-up, after any run, when the enable has been up for 58941 edges the last
    packet the host has decoded shows the inputs at one of these edges. -/
theorem telemetry_fresh (baud baud' : UartBaudGen) (data : Fin 8 → Byte) (dout : Byte)
    (isBusy : Bool) (before last : List TxPortIn) (hen : ∀ i ∈ last, i.en = true)
    (hlen : 58941 ≤ last.length) :
    let l := txPort.log (TxPort.powerUp baud data dout isBusy) (before ++ last)
    ∃ i ∈ last, (decodeStream (rxPort.log (RxPort.powerUp baud') (lineLevels l))).getLast? =
      some (Packet.fields ⟨i.address, i.regs⟩) := by
  intro l
  set got := rxPort.log (RxPort.powerUp baud') (lineLevels l) with hgotdef
  set s := txPort.run (TxPort.powerUp baud data dout isBusy) before with hs
  have hinv : s.port.Inv := txPort.inv_run (I := fun s => s.port.Inv)
    (fun s i hI => regPort_inv_step s.port (s.edge i) hI)
    (Or.inl ⟨rfl, rfl, fun h => (by cases h), rfl⟩) before
  have hthree := packets_due 3 hinv hen (by omega)
  set s0 := TxPort.powerUp baud data dout isBusy with hs0
  have hsplit : storedPackets l = storedPackets (txPort.log s0 before) ++
      storedPackets (txPort.log s last) := storedPackets_log_append s0 before last
  obtain ⟨hgot, hlate⟩ := line_received baud baud' data dout isBusy (before ++ last)
  obtain ⟨hstream, hlast⟩ := accepted_stream baud data dout isBusy (before ++ last)
  have hpre : got <+: packetStream (storedPackets l) := hgot.trans hstream
  have h1 : (takenBytes l).length ≤ got.length + 2 := hlate
  have h2 : 8 * (storedPackets l).length ≤ (takenBytes l).length + 8 := hlast
  have h3 : got.length ≤ 8 * (storedPackets l).length := by
    rw [← length_packetStream]
    exact hpre.length_le
  -- the last packet decoded is one of the last two but two stored, so it is one of `last`
  have htotal : (storedPackets l).length = (storedPackets (txPort.log s0 before)).length +
      (storedPackets (txPort.log s last)).length := by rw [hsplit, List.length_append]
  have hlt : got.length / 8 - 1 < (storedPackets l).length := by omega
  have hge : (storedPackets (txPort.log s0 before)).length ≤ got.length / 8 - 1 := by omega
  have hmem : (storedPackets l)[got.length / 8 - 1] ∈ storedPackets (txPort.log s last) := by
    simp only [hsplit]
    rw [List.getElem_append_right hge]
    exact List.getElem_mem _
  obtain ⟨i, hi, hk⟩ := mem_storedPackets hmem
  refine ⟨i, hi, ?_⟩
  rw [← hk, decodeStream_take hpre, List.getLast?_eq_getElem?, List.length_take, List.length_map,
    Nat.min_eq_left (by omega), List.getElem?_take_of_lt (by omega), List.getElem?_map,
    List.getElem?_eq_getElem hlt]
  rfl

/-- main.sv ties the enable and the address; registers that stay as they are are what is decoded. -/
theorem telemetry_fresh_constant :
    let last := List.replicate 58941 (⟨true, 0xc3, 0x010203040506⟩ : TxPortIn)
    let l := txPort.log (TxPort.powerUp ⟨0, 0⟩ (fun _ => 0) 0 false) ([⟨true, 0xc3, 0⟩] ++ last)
    ∃ i ∈ last, (decodeStream (rxPort.log (RxPort.powerUp ⟨3, 0⟩) (lineLevels l))).getLast? =
      some (Packet.fields ⟨i.address, i.regs⟩) :=
  telemetry_fresh ⟨0, 0⟩ ⟨3, 0⟩ (fun _ => 0) 0 false [⟨true, 0xc3, 0⟩]
    (List.replicate 58941 ⟨true, 0xc3, 0x010203040506⟩)
    (fun i hi => by rw [List.eq_of_mem_replicate hi]) (by rw [List.length_replicate])

end WifiOsc
