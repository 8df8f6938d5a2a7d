/-
  File:      WifiOsc/Fpga/UartBlock.lean
  Subject:   THE SERIAL PORT IN VHDL (`UART_RXD` and `UART_TXD`, FPGA/UART/UART_RX_TX.vhd), on the
             edges of `bclk`. Definitions, and the timetable of a byte on either side.

  A variable of the process is a field that the same edge reads again; a signal takes its value
  after the edge. `T` is `txds` after every edge. Variables and signals without an initial value
  are arbitrary at power-up.

  * `VhdlRxd.step`, `VhdlTxd.step`: the two processes;
  * `Reading y m`: where the receiver stands `m` edges after it has taken a start bit, when it has
    sampled `y` since; `reading_step`: one edge, `reading_last`: the edge that raises `R_ready`;
  * `Sending b n`: where the transmitter stands `n` edges after it has taken the byte `b`;
    `sending_step`: one edge; `Sending.line`: what it shows then; `stop_step`: the way back.
-/
import WifiOsc.Basis.Machine
import WifiOsc.Fpga.Uart

namespace WifiOsc

open Basis

/-! ## 1. The receiver -/

inductive RStates where
  | rStart | rCenter | rWait | rSample | rStop
  deriving DecidableEq, Repr

/-- The generics `R_len` and `T_len`. -/
def rLen : Nat := 8
def tLen : Nat := 8

/-- `UART_RXD`: its signals and its variables. -/
structure VhdlRxd where
  state : RStates
  xcnt16 : BitVec 5
  xbitcnt : Nat
  rBufs : Byte
  rBuf : Byte
  rReady : Bool
  deriving DecidableEq, Repr

namespace VhdlRxd

def powerUp (rBufs rBuf : Byte) (rReady : Bool) : VhdlRxd := ⟨.rStart, 0#5, 0, rBufs, rBuf, rReady⟩

/-- One edge of `bclk`. -/
def step (u : VhdlRxd) (rstN r : Bool) : VhdlRxd :=
  if !rstN then { u with state := .rStart, xcnt16 := 0#5 }
  else
    match u.state with
    | .rStart =>
        if !r then { u with state := .rCenter, rReady := false, xbitcnt := 0 }
        else { u with state := .rStart, rReady := false }
    | .rCenter =>
        if !r then
          if 4#5 ≤ u.xcnt16 then { u with xcnt16 := 0#5, state := .rWait }
          else { u with xcnt16 := u.xcnt16 + 1#5, state := .rCenter }
        else { u with state := .rStart }
    | .rWait =>
        if 12#5 ≤ u.xcnt16 then
          if u.xbitcnt = rLen then { u with rBuf := u.rBufs, state := .rStop, xcnt16 := 0#5 }
          else { u with state := .rSample, xcnt16 := 0#5 }
        else { u with xcnt16 := u.xcnt16 + 1#5, state := .rWait }
    | .rSample =>
        { u with rBufs := setBit u.rBufs u.xbitcnt r, xbitcnt := u.xbitcnt + 1, state := .rWait }
    | .rStop => { u with rReady := true, state := .rStart }

/-- The edge assigns `R_buf`. -/
def writes (u : VhdlRxd) : Bool := u.state = .rWait && 12#5 ≤ u.xcnt16 && u.xbitcnt = rLen

end VhdlRxd

/-- What can be seen of the receiver: `R_buf` is written, `R_ready` rises over a byte in `R_buf`. -/
inductive RxdEvent where
  | buf (b : Byte)
  | ready (b : Byte)
  deriving DecidableEq, Repr

/-- The receiver on the samples of `R`, with `rst_n` at 1. -/
def vhdlRxd : Machine VhdlRxd Bool RxdEvent where
  step u r := u.step true r
  out u r :=
    (if u.writes then [.buf u.rBufs] else []) ++
      if !u.rReady && (u.step true r).rReady then [.ready (u.step true r).rBuf] else []

/-! ## 2. The transmitter -/

inductive TStates where
  | tIdle | tStart | tWait | tShift | tStop
  deriving DecidableEq, Repr

/-- `UART_TXD`: its signals and its variables; `txds` is also `T`. -/
structure VhdlTxd where
  state : TStates
  xcnt16 : BitVec 5
  xbitcnt : Nat
  txds : Bool
  tDone : Bool
  deriving DecidableEq, Repr

namespace VhdlTxd

def powerUp (txds tDone : Bool) : VhdlTxd := ⟨.tIdle, 0#5, 0, txds, tDone⟩

/-- One edge of `bclk`. -/
def step (t : VhdlTxd) (rstN tCom : Bool) (tBuf : Byte) : VhdlTxd :=
  if !rstN then { t with state := .tIdle, tDone := false, txds := true }
  else
    match t.state with
    | .tIdle =>
        if tCom then { t with txds := true, tDone := false, state := .tStart }
        else { t with txds := true, tDone := true, state := .tIdle }
    | .tStart =>
        if 7#5 ≤ t.xcnt16 then { t with xcnt16 := 0#5, state := .tWait }
        else { t with xcnt16 := t.xcnt16 + 1#5, txds := false, state := .tStart }
    | .tWait =>
        if 11#5 ≤ t.xcnt16 then
          if t.xbitcnt = tLen then { t with xcnt16 := 0#5, xbitcnt := 0, state := .tStop }
          else { t with xcnt16 := 0#5, state := .tShift }
        else { t with xcnt16 := t.xcnt16 + 1#5, state := .tWait }
    | .tShift =>
        { t with txds := tBuf.getLsbD t.xbitcnt, xbitcnt := t.xbitcnt + 1, state := .tWait }
    | .tStop =>
        if 24#5 ≤ t.xcnt16 then
          if !tCom then { t with tDone := true, xcnt16 := 0#5, state := .tIdle }
          else { t with tDone := true, state := .tStop }
        else { t with xcnt16 := t.xcnt16 + 1#5, txds := true, state := .tStop }

end VhdlTxd

/-! ## 3. The timetable of the receiver -/

theorem le_ofNat5 {k n : Nat} (hk : k < 32) (hn : n < 32) :
    BitVec.ofNat 5 k ≤ BitVec.ofNat 5 n ↔ k ≤ n := by
  rw [BitVec.le_def, BitVec.toNat_ofNat, BitVec.toNat_ofNat, Nat.mod_eq_of_lt hk,
    Nat.mod_eq_of_lt hn]

section Counts

variable {c : BitVec 5} {k n : Nat}

/-- A count that has not reached `n`. -/
theorem not_le_count (hc : c = BitVec.ofNat 5 k) (hk : k < n) (hn : n < 32) :
    ¬ BitVec.ofNat 5 n ≤ c := by
  rw [hc, le_ofNat5 hn (Nat.lt_trans hk hn)]
  exact Nat.not_le_of_lt hk

/-- A count that has reached `n`. -/
theorem le_count (hc : c = BitVec.ofNat 5 k) (hn : n ≤ k) (hk : k < 32) : BitVec.ofNat 5 n ≤ c := by
  rw [hc, le_ofNat5 (Nat.lt_of_le_of_lt hn hk) hk]
  exact hn

end Counts

namespace VhdlRxd

/-- The control of the receiver, with `R_ready` at 0. -/
structure At (state : RStates) (count bit : Nat) (u : VhdlRxd) : Prop where
  state : u.state = state
  count : u.xcnt16 = BitVec.ofNat 5 count
  bit : u.xbitcnt = bit
  ready : u.rReady = false

/-- The first `q` bits have been taken from the samples `y`, each at the end of its 14 edges. -/
def Bits (y : Nat → Bool) (q : Nat) (x : Byte) : Prop :=
  ∀ k < q, x.getLsbD k = y (14 * k + 13)

/-- `m` edges after a start bit was taken: 13 edges of waiting before each sample, and before the
    byte is handed over. -/
inductive Reading (y : Nat → Bool) : Nat → VhdlRxd → Prop where
  | wait {u : VhdlRxd} (q n : Nat) (hq : q ≤ 8) (hn : n ≤ 12) (h : u.At .rWait n q)
      (hb : Bits y q u.rBufs) : Reading y (14 * q + n) u
  | sample {u : VhdlRxd} (q : Nat) (hq : q < 8) (h : u.At .rSample 0 q) (hb : Bits y q u.rBufs) :
      Reading y (14 * q + 13) u
  | stop {u : VhdlRxd} (h : u.At .rStop 0 8) (hb : Bits y 8 u.rBuf) : Reading y 125 u

variable {y : Nat → Bool} {u : VhdlRxd} {m : Nat}

theorem bits_setBit {q : Nat} {x : Byte} (hq : q < 8) (hb : Bits y q x) :
    Bits y (q + 1) (setBit x q (y (14 * q + 13))) := by
  intro k hk
  rw [getLsbD_setBit _ _ _ _ (by omega)]
  split
  case isTrue he => rw [he]
  case isFalse hne => exact hb k (by omega)

/-- An edge in `R_WAIT`: on to the sample, or after the last one to the end of the byte. -/
theorem reading_wait {q n : Nat} (hq : q ≤ 8) (hn : n ≤ 12) (h : u.At .rWait n q)
    (hb : Bits y q u.rBufs) :
    Reading y (14 * q + n + 1) (vhdlRxd.step u (y (14 * q + n))) ∧
      vhdlRxd.out u (y (14 * q + n)) = if 14 * q + n = 124 then [.buf u.rBufs] else [] := by
  obtain ⟨hs, hc, hx, hr⟩ := h
  rcases Nat.lt_or_ge n 12 with hlt | hge
  · have hle : ¬ 12#5 ≤ u.xcnt16 := not_le_count hc hlt (by decide)
    have hstep : u.step true (y (14 * q + n)) =
        { u with xcnt16 := u.xcnt16 + 1#5, state := .rWait } := by
      simp [step, hs, hle]
    refine ⟨?_, ?_⟩
    · show Reading y (14 * q + (n + 1)) (u.step true (y (14 * q + n)))
      rw [hstep]
      exact .wait q (n + 1) hq hlt ⟨rfl, by rw [hc, ← BitVec.ofNat_add], hx, hr⟩ hb
    · rw [if_neg (by omega)]
      simp [vhdlRxd, writes, hle, hstep, hr]
  · have hn12 : n = 12 := Nat.le_antisymm hn hge
    have hle : 12#5 ≤ u.xcnt16 := le_count hc hge (by omega)
    subst hn12
    rcases Nat.lt_or_ge q 8 with hq8 | hq8
    · have hne : ¬ u.xbitcnt = rLen := by
        rw [hx]
        exact Nat.ne_of_lt hq8
      have hstep : u.step true (y (14 * q + 12)) =
          { u with state := .rSample, xcnt16 := 0#5 } := by
        simp [step, hs, hle, hne]
      refine ⟨?_, ?_⟩
      · show Reading y (14 * q + 13) (u.step true (y (14 * q + 12)))
        rw [hstep]
        exact .sample q hq8 ⟨rfl, rfl, hx, hr⟩ hb
      · rw [if_neg (by omega)]
        simp [vhdlRxd, writes, hne, hstep, hr]
    · have hq' : q = 8 := Nat.le_antisymm hq hq8
      subst hq'
      have hlast : u.xbitcnt = rLen := hx
      have hstep : u.step true (y (14 * 8 + 12)) =
          { u with rBuf := u.rBufs, state := .rStop, xcnt16 := 0#5 } := by
        simp [step, hs, hle, hlast]
      refine ⟨?_, ?_⟩
      · show Reading y 125 (u.step true (y (14 * 8 + 12)))
        rw [hstep]
        exact .stop ⟨rfl, rfl, hx, hr⟩ hb
      · rw [if_pos rfl]
        simp [vhdlRxd, writes, hs, hle, hlast, hstep, hr]

/-- **One edge of the timetable.** `R_buf` is written at its last edge, and not before. -/
theorem reading_step (h : Reading y m u) (hm : m < 125) :
    Reading y (m + 1) (vhdlRxd.step u (y m)) ∧
      vhdlRxd.out u (y m) = if m = 124 then [.buf u.rBufs] else [] := by
  cases h with
  | wait q n hq hn h hb => exact reading_wait hq hn h hb
  | sample q hq h hb =>
    obtain ⟨hs, hc, hx, hr⟩ := h
    have hstep : u.step true (y (14 * q + 13)) =
        { u with
          rBufs := setBit u.rBufs u.xbitcnt (y (14 * q + 13))
          xbitcnt := u.xbitcnt + 1
          state := .rWait } := by
      simp [step, hs]
    refine ⟨?_, ?_⟩
    · show Reading y (14 * (q + 1) + 0) (u.step true (y (14 * q + 13)))
      rw [hstep]
      refine .wait (q + 1) 0 hq (Nat.zero_le 12) ⟨rfl, hc, by rw [hx], hr⟩ ?_
      show Bits y (q + 1) (setBit u.rBufs u.xbitcnt (y (14 * q + 13)))
      rw [hx]
      exact bits_setBit hq hb
    · rw [if_neg (by omega)]
      simp [vhdlRxd, writes, hs, hstep, hr]
  | stop => omega

/-- The edge after the last one of the timetable raises `R_ready`. -/
theorem reading_last (h : Reading y 125 u) (r : Bool) :
    ∃ b, Bits y 8 b ∧ vhdlRxd.out u r = [.ready b] ∧
      vhdlRxd.step u r = { u with rReady := true, state := .rStart } ∧ u.xcnt16 = 0#5 := by
  have hcases : ∃ b, u.At .rStop 0 8 ∧ Bits y 8 b ∧ u.rBuf = b := by
    generalize hm : 125 = m at h
    cases h with
    | wait q n hq hn => omega
    | sample q hq => omega
    | stop h hb => exact ⟨_, h, hb, rfl⟩
  obtain ⟨b, ⟨hs, hc, _, hr⟩, hb, rfl⟩ := hcases
  have hstep : u.step true r = { u with rReady := true, state := .rStart } := by simp [step, hs]
  exact ⟨u.rBuf, hb, by simp [vhdlRxd, writes, hs, hstep, hr], hstep, hc⟩

end VhdlRxd

/-! ## 4. The timetable of the transmitter -/

namespace VhdlTxd

/-- The control of the transmitter, with `T_done` at 0. -/
structure At (state : TStates) (count bit : Nat) (line : Bool) (t : VhdlTxd) : Prop where
  state : t.state = state
  count : t.xcnt16 = BitVec.ofNat 5 count
  bit : t.xbitcnt = bit
  line : t.txds = line
  done : t.tDone = false

/-- What `T` shows once `q` bits have been shifted out. -/
def shown (b : Byte) : Nat → Bool
  | 0 => false
  | q + 1 => b.getLsbD q

/-- `n` edges after the byte `b` was taken: 8 edges of `T_START`, 13 for each bit and one such group
    before them, then `T_STOP`. -/
inductive Sending (b : Byte) : Nat → VhdlTxd → Prop where
  | start {t : VhdlTxd} (n : Nat) (hn : n ≤ 7) (h : t.At .tStart n 0 (n = 0)) : Sending b n t
  | wait {t : VhdlTxd} (q n : Nat) (hq : q ≤ 8) (hn : n ≤ 11) (h : t.At .tWait n q (shown b q)) :
      Sending b (8 + 13 * q + n) t
  | shift {t : VhdlTxd} (q : Nat) (hq : q < 8) (h : t.At .tShift 0 q (shown b q)) :
      Sending b (20 + 13 * q) t
  | stop {t : VhdlTxd} (n : Nat) (hn : n ≤ 24) (h : t.At .tStop n 0 (n ≠ 0 || shown b 8)) :
      Sending b (124 + n) t

/-- `T`, `n` edges after the byte `b` was taken. -/
def line (b : Byte) (n : Nat) : Bool :=
  if n = 0 then true
  else if n < 21 then false
  else if n < 125 then b.getLsbD ((n - 21) / 13)
  else true

variable {b : Byte} {t : VhdlTxd} {n : Nat}

theorem Sending.done (h : Sending b n t) : t.tDone = false := by
  cases h with
  | start _ _ h => exact h.done
  | wait _ _ _ _ h => exact h.done
  | shift _ _ h => exact h.done
  | stop _ _ h => exact h.done

theorem Sending.le (h : Sending b n t) : n ≤ 148 := by
  cases h <;> omega

theorem shown_line (b : Byte) {q m : Nat} (h1 : 1 ≤ m) (hlo : 8 + 13 * q ≤ m)
    (hhi : m < 8 + 13 * (q + 1)) (hm : m < 125) : shown b q = line b m := by
  unfold line
  rw [if_neg (by omega)]
  cases q with
  | zero => rw [if_pos (by omega)]; rfl
  | succ q =>
    rw [if_neg (by omega), if_pos hm, show (m - 21) / 13 = q by omega]
    rfl

theorem Sending.line (h : Sending b n t) : t.txds = line b n := by
  cases h with
  | start n hn h =>
    rw [h.line]
    unfold VhdlTxd.line
    cases n with
    | zero => rfl
    | succ n => simp; omega
  | wait q n hq hn h =>
    exact h.line.trans (shown_line b (by omega) (by omega) (by omega) (by omega))
  | shift q hq h =>
    exact h.line.trans (shown_line b (by omega) (by omega) (by omega) (by omega))
  | stop n hn h =>
    rw [h.line]
    cases n with
    | zero => exact shown_line b (q := 8) (by omega) (by omega) (by omega) (by omega)
    | succ n =>
      unfold VhdlTxd.line
      rw [if_neg (by omega), if_neg (by omega), if_neg (by omega)]
      rfl

/-- An edge in `T_WAIT`: on to the next bit, or after the last one to `T_STOP`. -/
theorem sending_wait {q : Nat} (hq : q ≤ 8) (hn : n ≤ 11) (h : t.At .tWait n q (shown b q))
    (tCom : Bool) : Sending b (8 + 13 * q + n + 1) (t.step true tCom b) := by
  obtain ⟨hs, hc, hx, hl, hd⟩ := h
  rcases Nat.lt_or_ge n 11 with hlt | hge
  · have hle : ¬ 11#5 ≤ t.xcnt16 := not_le_count hc hlt (by decide)
    have hstep : t.step true tCom b = { t with xcnt16 := t.xcnt16 + 1#5, state := .tWait } := by
      simp [step, hs, hle]
    rw [hstep]
    exact .wait q (n + 1) hq hlt ⟨rfl, by rw [hc, ← BitVec.ofNat_add], hx, hl, hd⟩
  · have hle : 11#5 ≤ t.xcnt16 := le_count hc hge (by omega)
    have hn11 : n = 11 := Nat.le_antisymm hn hge
    subst hn11
    rcases Nat.lt_or_ge q 8 with hq8 | hq8
    · have hne : ¬ t.xbitcnt = tLen := by
        rw [hx]
        exact Nat.ne_of_lt hq8
      have hstep : t.step true tCom b = { t with xcnt16 := 0#5, state := .tShift } := by
        simp [step, hs, hle, hne]
      rw [hstep, show 8 + 13 * q + 11 + 1 = 20 + 13 * q by omega]
      exact .shift q hq8 ⟨rfl, rfl, hx, hl, hd⟩
    · have hq' : q = 8 := Nat.le_antisymm hq hq8
      subst hq'
      have hlast : t.xbitcnt = tLen := hx
      have hstep : t.step true tCom b =
          { t with xcnt16 := 0#5, xbitcnt := 0, state := .tStop } := by
        simp [step, hs, hle, hlast]
      rw [hstep]
      exact .stop 0 (Nat.zero_le 24) ⟨rfl, rfl, rfl, hl, hd⟩

/-- **One edge of the timetable**; `T_com` does not matter, `T_buf` is held. -/
theorem sending_step (h : Sending b n t) (hn : n < 148) (tCom : Bool) :
    Sending b (n + 1) (t.step true tCom b) := by
  cases h with
  | start n hn' h =>
    obtain ⟨hs, hc, hx, hl, hd⟩ := h
    rcases Nat.lt_or_ge n 7 with hlt | hge
    · have hle : ¬ 7#5 ≤ t.xcnt16 := not_le_count hc hlt (by decide)
      have hstep : t.step true tCom b =
          { t with xcnt16 := t.xcnt16 + 1#5, txds := false, state := .tStart } := by
        simp [step, hs, hle]
      rw [hstep]
      exact .start (n + 1) hlt ⟨rfl, by rw [hc, ← BitVec.ofNat_add], hx, by simp, hd⟩
    · have hle : 7#5 ≤ t.xcnt16 := le_count hc hge (by omega)
      have hn7 : n = 7 := Nat.le_antisymm hn' hge
      subst hn7
      have hstep : t.step true tCom b = { t with xcnt16 := 0#5, state := .tWait } := by
        simp [step, hs, hle]
      rw [hstep]
      exact .wait 0 0 (Nat.zero_le 8) (Nat.zero_le 11) ⟨rfl, rfl, hx, hl, hd⟩
  | wait q n hq hn' h => exact sending_wait hq hn' h tCom
  | shift q hq h =>
    obtain ⟨hs, hc, hx, hl, hd⟩ := h
    have hstep : t.step true tCom b =
        { t with txds := b.getLsbD t.xbitcnt, xbitcnt := t.xbitcnt + 1, state := .tWait } := by
      simp [step, hs]
    rw [hstep, show 20 + 13 * q + 1 = 8 + 13 * (q + 1) + 0 by omega]
    exact .wait (q + 1) 0 hq (Nat.zero_le 11) ⟨rfl, hc, by rw [hx], by rw [hx]; rfl, hd⟩
  | stop n hn' h =>
    obtain ⟨hs, hc, hx, hl, hd⟩ := h
    have hle : ¬ 24#5 ≤ t.xcnt16 := not_le_count hc (by omega) (by decide)
    have hstep : t.step true tCom b =
        { t with xcnt16 := t.xcnt16 + 1#5, txds := true, state := .tStop } := by
      simp [step, hs, hle]
    rw [hstep]
    exact .stop (n + 1) (by omega) ⟨rfl, by rw [hc, ← BitVec.ofNat_add], hx, by simp, hd⟩

theorem sending_stop (h : Sending b 148 t) : t.At .tStop 24 0 true := by
  generalize hm : 148 = n at h
  cases h with
  | start n hn => omega
  | wait q n hq hn => omega
  | shift q hq => omega
  | stop n hn h =>
    have hn24 : n = 24 := by omega
    subst hn24
    exact h

/-- In `T_STOP` after the timetable: `T_done` is up, and the transmitter waits for `T_com` to be
    taken back. -/
theorem stop_step (hs : t.state = .tStop) (hc : t.xcnt16 = 24#5) (tCom : Bool) (tBuf : Byte) :
    t.step true tCom tBuf =
      if tCom then { t with tDone := true, state := .tStop }
      else { t with tDone := true, xcnt16 := 0#5, state := .tIdle } := by
  have hle : 24#5 ≤ t.xcnt16 := by rw [hc]; decide
  cases tCom <;> simp [step, hs, hle]

end VhdlTxd

end WifiOsc
