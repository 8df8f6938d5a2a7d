/-
  File:      WifiOsc/Fpga/VhdlPair.lean
  Subject:   `UART_TXD` AND `UART_RXD` BACK TO BACK on one `bclk`, as the two instances of
             FPGA/UART/UART_BLOCK.bdf are clocked, with `T` wired to `R`.

  The receiver sees the start bit at the edge 1, 20 edges before the first data bit, and takes its
  first sample at the edge 20: that is the last edge of the start bit. From there it samples every
  14 edges, the transmitter shifts every 13, and the other seven samples fall into their bits.

  * `pair`: the two processes, the host's signals, and what is sent and received;
  * `Legal`: what the host may do at an edge;
  * `Meeting b n`: where the receiver stands `n` edges after the byte `b` was taken;
    `meeting_step`: one edge;
  * `Linked`: where both stand, and what has been received; `linked_step`: one edge;
  * `pair_received`: every byte arrives without its bit 0; **`pair_iff`**: which bytes arrive.
-/
import WifiOsc.Fpga.UartBlock

namespace WifiOsc

open Basis

/-! ## 1. The pair -/

/-- The host's signals at an edge. -/
structure PairIn where
  tCom : Bool
  tBuf : Byte
  deriving DecidableEq, Repr

/-- The two processes, the host's signals at the last edge, and whether `T_done` has been seen at 0
    since `T_com` was raised. -/
structure UartPair where
  tx : VhdlTxd
  rx : VhdlRxd
  tCom : Bool
  tBuf : Byte
  fallen : Bool
  deriving DecidableEq, Repr

/-- `T_com` is raised over a byte, `R_ready` rises over one. -/
inductive PairEvent where
  | sent (b : Byte)
  | received (b : Byte)
  deriving DecidableEq, Repr

/-- The bytes over which `R_ready` rises. -/
def readyBytes (es : List RxdEvent) : List Byte :=
  es.filterMap fun
    | .ready b => some b
    | .buf _ => none

def pair : Machine UartPair PairIn PairEvent where
  step s i :=
    { tx := s.tx.step true i.tCom i.tBuf
      rx := vhdlRxd.step s.rx s.tx.txds
      tCom := i.tCom
      tBuf := i.tBuf
      fallen := s.tCom && i.tCom && (s.fallen || !s.tx.tDone) }
  out s i :=
    (if !s.tCom && i.tCom then [.sent i.tBuf] else []) ++
      (readyBytes (vhdlRxd.out s.rx s.tx.txds)).map .received

def sentBytes (l : List PairEvent) : List Byte :=
  l.filterMap fun
    | .sent b => some b
    | .received _ => none

def receivedBytes (l : List PairEvent) : List Byte :=
  l.filterMap fun
    | .received b => some b
    | .sent _ => none

/-- The host raises `T_com` when `T_done` is 1, takes it back once `T_done` has fallen, and holds
    `T_buf` until `T_done` is 1 again. -/
structure Legal (s : UartPair) (i : PairIn) : Prop where
  rise : s.tCom = false → i.tCom = true → s.tx.tDone = true
  drop : s.tCom = true → i.tCom = false → s.fallen = true ∨ s.tx.tDone = false
  hold : s.tCom = true ∨ s.tx.tDone = false → i.tBuf = s.tBuf

/-- Power-up, `T_com` at 0; `tx` and `rx` in their initial states. -/
def UartPair.powerUp (txds tDone : Bool) (rBufs rBuf : Byte) (rReady : Bool) (tBuf : Byte) :
    UartPair :=
  ⟨.powerUp txds tDone, .powerUp rBufs rBuf rReady, false, tBuf, false⟩

/-- A byte without its bit 0. -/
def clearLow (b : Byte) : Byte := b &&& 0xFE#8

/-! ## 2. The receiver on the line of the transmitter -/

namespace VhdlRxd

variable {b : Byte} {u : VhdlRxd} {n : Nat}

/-- In `R_START`. -/
structure Quiet (u : VhdlRxd) : Prop where
  state : u.state = .rStart
  count : u.xcnt16 = 0#5

/-- Between two bytes, when `T` is `line`. Before the first edge `T` may be low, which looks like a
    start bit of one sample. -/
structure Ready (line : Bool) (u : VhdlRxd) : Prop where
  state : u.state = .rStart ∨ (u.state = .rCenter ∧ line = true)
  count : u.xcnt16 = 0#5

/-- `n` edges after the transmitter has taken `b`. -/
inductive Meeting (b : Byte) : Nat → VhdlRxd → Prop where
  | ready {u : VhdlRxd} (h : Ready true u) : Meeting b 0 u
  | start {u : VhdlRxd} (h : Quiet u) : Meeting b 1 u
  | center {u : VhdlRxd} (k : Nat) (hk : k ≤ 4) (h : u.At .rCenter k 0) : Meeting b (2 + k) u
  | reading {u : VhdlRxd} (m : Nat) (hm : m ≤ 125)
      (h : Reading (fun j => VhdlTxd.line b (7 + j)) m u) : Meeting b (7 + m) u
  | finished {u : VhdlRxd} (n : Nat) (hn : 133 ≤ n) (h : Quiet u) : Meeting b n u

theorem ready_step {line : Bool} (h : Ready line u) :
    Ready true (vhdlRxd.step u line) ∧ readyBytes (vhdlRxd.out u line) = [] := by
  obtain ⟨hs | ⟨hs, rfl⟩, hc⟩ := h
  · cases line with
    | true =>
      have hstep : u.step true true = { u with state := .rStart, rReady := false } := by
        simp [step, hs]
      refine ⟨?_, by simp [vhdlRxd, writes, hs, hstep, readyBytes]⟩
      show Ready true (u.step true true)
      rw [hstep]
      exact ⟨Or.inl rfl, hc⟩
    | false =>
      have hstep : u.step true false =
          { u with state := .rCenter, rReady := false, xbitcnt := 0 } := by
        simp [step, hs]
      refine ⟨?_, by simp [vhdlRxd, writes, hs, hstep, readyBytes]⟩
      show Ready true (u.step true false)
      rw [hstep]
      exact ⟨Or.inr ⟨rfl, rfl⟩, hc⟩
  · have hstep : u.step true true = { u with state := .rStart } := by simp [step, hs]
    refine ⟨?_, by simp [vhdlRxd, writes, hs, hstep, readyBytes]⟩
    show Ready true (u.step true true)
    rw [hstep]
    exact ⟨Or.inl rfl, hc⟩

/-- On a high line. -/
theorem quiet_step {line : Bool} (h : Ready line u) (hline : line = true) :
    Quiet (vhdlRxd.step u line) ∧ readyBytes (vhdlRxd.out u line) = [] := by
  refine ⟨?_, (ready_step h).2⟩
  subst hline
  obtain ⟨hs | ⟨hs, _⟩, hc⟩ := h
  · exact ⟨by simp [vhdlRxd, step, hs], by simp [vhdlRxd, step, hs, hc]⟩
  · exact ⟨by simp [vhdlRxd, step, hs], by simp [vhdlRxd, step, hs, hc]⟩

theorem getLsbD_clearLow {k : Nat} (hk : k < 8) :
    (clearLow b).getLsbD k = (b.getLsbD k && decide (k ≠ 0)) := by
  have hmask : ∀ j < 8, (0xFE#8).getLsbD j = decide (j ≠ 0) := by decide
  rw [clearLow, BitVec.getLsbD_and, hmask k hk]

/-- **What the eight samples show**: the last edge of the start bit, and seven data bits. -/
theorem samples_eq {x : Byte} (h : Bits (fun j => VhdlTxd.line b (7 + j)) 8 x) :
    x = clearLow b := by
  refine BitVec.eq_of_getLsbD_eq fun k hk => ?_
  have hsample : x.getLsbD k = VhdlTxd.line b (7 + (14 * k + 13)) := h k hk
  rw [hsample, getLsbD_clearLow hk]
  unfold VhdlTxd.line
  rcases Nat.eq_zero_or_pos k with rfl | hpos
  · simp
  · rw [if_neg (by omega), if_neg (by omega), if_pos (by omega),
      show (7 + (14 * k + 13) - 21) / 13 = k by omega, decide_eq_true (by omega), Bool.and_true]

/-- An edge in `R_CENTER`, over the start bit. -/
theorem meeting_center {k : Nat} (hk : k ≤ 4) (h : u.At .rCenter k 0) :
    Meeting b (2 + k + 1) (vhdlRxd.step u (VhdlTxd.line b (2 + k))) ∧
      readyBytes (vhdlRxd.out u (VhdlTxd.line b (2 + k))) =
        if 2 + k = 132 then [clearLow b] else [] := by
  obtain ⟨hs, hc, hx, hr⟩ := h
  have hline : VhdlTxd.line b (2 + k) = false := by
    unfold VhdlTxd.line
    rw [if_neg (by omega), if_pos (by omega)]
  rw [hline, if_neg (by omega)]
  rcases Nat.lt_or_ge k 4 with hlt | hge
  · have hle : ¬ 4#5 ≤ u.xcnt16 := not_le_count hc hlt (by decide)
    have hstep : u.step true false =
        { u with xcnt16 := u.xcnt16 + 1#5, state := .rCenter } := by
      simp [step, hs, hle]
    refine ⟨?_, by simp [vhdlRxd, writes, hs, hstep, hr, readyBytes]⟩
    show Meeting b (2 + (k + 1)) (u.step true false)
    rw [hstep]
    exact .center (k + 1) hlt ⟨rfl, by rw [hc, ← BitVec.ofNat_add], hx, hr⟩
  · have hle : 4#5 ≤ u.xcnt16 := le_count hc hge (by omega)
    have hk4 : k = 4 := Nat.le_antisymm hk hge
    have hstep : u.step true false = { u with xcnt16 := 0#5, state := .rWait } := by
      simp [step, hs, hle]
    subst hk4
    refine ⟨?_, by simp [vhdlRxd, writes, hs, hstep, hr, readyBytes]⟩
    show Meeting b (7 + 0) (u.step true false)
    rw [hstep]
    exact .reading 0 (Nat.zero_le 125)
      (.wait 0 0 (Nat.zero_le 8) (Nat.zero_le 12) ⟨rfl, rfl, hx, hr⟩
        fun k hk => absurd hk (Nat.not_lt_zero k))

/-- Past the last edge of the receiver's timetable. -/
theorem meeting_finished (h : Meeting b n u) (hn : 133 ≤ n) : Quiet u := by
  cases h with
  | ready => omega
  | start => omega
  | center k hk => omega
  | reading m hm => omega
  | finished _ _ h => exact h

/-- **One edge of the receiver**, `n` edges after the transmitter has taken `b`. -/
theorem meeting_step (h : Meeting b n u) :
    Meeting b (n + 1) (vhdlRxd.step u (VhdlTxd.line b n)) ∧
      readyBytes (vhdlRxd.out u (VhdlTxd.line b n)) = if n = 132 then [clearLow b] else [] := by
  cases h with
  | ready h =>
    obtain ⟨hq, hout⟩ := quiet_step h rfl
    exact ⟨.start hq, hout⟩
  | start h =>
    obtain ⟨hs, hc⟩ := h
    have hline : VhdlTxd.line b 1 = false := rfl
    have hstep : u.step true false =
        { u with state := .rCenter, rReady := false, xbitcnt := 0 } := by
      simp [step, hs]
    rw [hline]
    refine ⟨?_, by simp [vhdlRxd, writes, hs, hstep, readyBytes]⟩
    show Meeting b (2 + 0) (u.step true false)
    rw [hstep]
    exact .center 0 (Nat.zero_le 4) ⟨rfl, hc, rfl, rfl⟩
  | center k hk h => exact meeting_center hk h
  | reading m hm h =>
    rcases Nat.lt_or_ge m 125 with hlt | hge
    · obtain ⟨hread, hout⟩ := reading_step h hlt
      refine ⟨.reading (m + 1) hlt hread, ?_⟩
      have hbefore : ¬ 7 + m = 132 := by omega
      rw [hout, if_neg hbefore]
      split <;> rfl
    · have hm125 : m = 125 := Nat.le_antisymm hm hge
      subst hm125
      obtain ⟨x, hbits, hout, hstep, hc⟩ := reading_last h (VhdlTxd.line b (7 + 125))
      rw [hout, hstep, samples_eq hbits]
      exact ⟨.finished _ (Nat.le_refl _) ⟨rfl, hc⟩, rfl⟩
  | finished n hn h =>
    have hline : VhdlTxd.line b n = true := by
      unfold VhdlTxd.line
      rw [if_neg (by omega), if_neg (by omega), if_neg (by omega)]
    have hready : Ready (VhdlTxd.line b n) u := ⟨Or.inl h.state, h.count⟩
    obtain ⟨hq, hout⟩ := quiet_step hready hline
    exact ⟨.finished (n + 1) (by omega) hq, by rw [hout, if_neg (by omega)]⟩

end VhdlRxd

/-! ## 3. Both ends -/

section Pair

variable {s : UartPair} {i : PairIn} {l : List PairEvent} {b : Byte} {n : Nat}

/-- What has been sent and received, when nothing is under way. -/
def Delivered (l : List PairEvent) : Prop := receivedBytes l = (sentBytes l).map clearLow

/-- Where both ends stand: between two bytes, `n` edges after the byte `b` was taken, or after it
    with `T_com` still up. -/
inductive Linked (s : UartPair) (l : List PairEvent) : Prop where
  | idle (hs : s.tx.state = .tIdle) (hc : s.tx.xcnt16 = 0#5) (hx : s.tx.xbitcnt = 0)
      (hcom : s.tCom = false) (hrx : VhdlRxd.Ready s.tx.txds s.rx) (hl : Delivered l)
  | sending (b : Byte) (n : Nat) (hn : n ≤ 148) (htx : VhdlTxd.Sending b n s.tx) (hbuf : s.tBuf = b)
      (hrx : VhdlRxd.Meeting b n s.rx) (bs : List Byte) (hsent : sentBytes l = bs ++ [b])
      (hrec : receivedBytes l = bs.map clearLow ++ if 133 ≤ n then [clearLow b] else [])
  | waiting (hs : s.tx.state = .tStop) (hc : s.tx.xcnt16 = 24#5) (hx : s.tx.xbitcnt = 0)
      (hline : s.tx.txds = true) (hdone : s.tx.tDone = true) (hcom : s.tCom = true)
      (hrx : VhdlRxd.Ready true s.rx) (hl : Delivered l)

theorem linked_powerUp (txds tDone : Bool) (rBufs rBuf : Byte) (rReady : Bool) (tBuf : Byte) :
    Linked (.powerUp txds tDone rBufs rBuf rReady tBuf) [] :=
  .idle rfl rfl rfl rfl ⟨Or.inl rfl, rfl⟩ rfl

theorem sentBytes_append (l l' : List PairEvent) :
    sentBytes (l ++ l') = sentBytes l ++ sentBytes l' :=
  List.filterMap_append

theorem receivedBytes_append (l l' : List PairEvent) :
    receivedBytes (l ++ l') = receivedBytes l ++ receivedBytes l' :=
  List.filterMap_append

/-- What an edge adds to the sent bytes. -/
theorem sentBytes_out :
    sentBytes (pair.out s i) = if !s.tCom && i.tCom then [i.tBuf] else [] := by
  have hnone (bs : List Byte) : sentBytes (bs.map PairEvent.received) = [] := by
    induction bs with
    | nil => rfl
    | cons b bs ih => exact ih
  unfold pair
  rw [sentBytes_append, hnone, List.append_nil]
  split <;> rfl

/-- What an edge adds to the received bytes. -/
theorem receivedBytes_out :
    receivedBytes (pair.out s i) = readyBytes (vhdlRxd.out s.rx s.tx.txds) := by
  have hall (bs : List Byte) : receivedBytes (bs.map PairEvent.received) = bs := by
    induction bs with
    | nil => rfl
    | cons b bs ih => exact congrArg (b :: ·) ih
  unfold pair
  rw [receivedBytes_append, hall]
  split <;> rfl

theorem delivered_quiet (hl : Delivered l) (hsent : sentBytes (pair.out s i) = [])
    (hrec : receivedBytes (pair.out s i) = []) : Delivered (l ++ pair.out s i) := by
  unfold Delivered
  rw [receivedBytes_append, sentBytes_append, hsent, hrec, List.append_nil, List.append_nil]
  exact hl

/-- No byte is taken while one is under way: `T_done` is down. -/
theorem no_rise (hleg : Legal s i) (hdone : s.tx.tDone = false) : (!s.tCom && i.tCom) = false := by
  cases hcom : s.tCom with
  | true => rfl
  | false =>
    cases hi : i.tCom with
    | false => rfl
    | true =>
      have hup := hleg.rise hcom hi
      rw [hdone] at hup
      cases hup

/-- An edge in `T_STOP` after the timetable. -/
theorem linked_stop (hs : s.tx.state = .tStop) (hc : s.tx.xcnt16 = 24#5) (hx : s.tx.xbitcnt = 0)
    (hline : s.tx.txds = true) (hrx : VhdlRxd.Ready true (vhdlRxd.step s.rx s.tx.txds))
    (hl : Delivered (l ++ pair.out s i)) : Linked (pair.step s i) (l ++ pair.out s i) := by
  have hstep := VhdlTxd.stop_step hs hc i.tCom i.tBuf
  cases hi : i.tCom with
  | false =>
    have hstep' : (pair.step s i).tx =
        { s.tx with tDone := true, xcnt16 := 0#5, state := .tIdle } := by
      show s.tx.step true i.tCom i.tBuf = _
      rw [hstep, hi]
      rfl
    refine .idle (by rw [hstep']) (by rw [hstep']) (by rw [hstep']; exact hx) hi ?_ hl
    rw [hstep']
    exact hline ▸ hrx
  | true =>
    have hstep' : (pair.step s i).tx = { s.tx with tDone := true, state := .tStop } := by
      show s.tx.step true i.tCom i.tBuf = _
      rw [hstep, hi]
      rfl
    exact .waiting (by rw [hstep']) (by rw [hstep']; exact hc) (by rw [hstep']; exact hx)
      (by rw [hstep']; exact hline) (by rw [hstep']) hi hrx hl

/-- An edge between two bytes: the transmitter takes one, or goes on waiting. -/
theorem linked_idle (hs : s.tx.state = .tIdle) (hc : s.tx.xcnt16 = 0#5) (hx : s.tx.xbitcnt = 0)
    (hcom : s.tCom = false) (hrx : VhdlRxd.Ready s.tx.txds s.rx) (hl : Delivered l) :
    Linked (pair.step s i) (l ++ pair.out s i) := by
  obtain ⟨hrx', hout⟩ := VhdlRxd.ready_step hrx
  have hrec : receivedBytes (pair.out s i) = [] := receivedBytes_out.trans hout
  cases hi : i.tCom with
  | false =>
    have hstep : s.tx.step true i.tCom i.tBuf =
        { s.tx with txds := true, tDone := true, state := .tIdle } := by
      simp [VhdlTxd.step, hs, hi]
    have hsent : sentBytes (pair.out s i) = [] := by simp [sentBytes_out, hi]
    refine .idle ?_ ?_ ?_ hi ?_ (delivered_quiet hl hsent hrec)
    · exact congrArg VhdlTxd.state hstep
    · exact (congrArg VhdlTxd.xcnt16 hstep).trans hc
    · exact (congrArg VhdlTxd.xbitcnt hstep).trans hx
    · rw [show (pair.step s i).tx.txds = true from congrArg VhdlTxd.txds hstep]
      exact hrx'
  | true =>
    have hstep : s.tx.step true i.tCom i.tBuf =
        { s.tx with txds := true, tDone := false, state := .tStart } := by
      simp [VhdlTxd.step, hs, hi]
    have hsent : sentBytes (pair.out s i) = [i.tBuf] := by simp [sentBytes_out, hcom, hi]
    refine .sending i.tBuf 0 (Nat.zero_le 148) (.start 0 (Nat.zero_le 7) ?_) rfl (.ready hrx')
      (sentBytes l) ?_ ?_
    · exact ⟨congrArg VhdlTxd.state hstep, (congrArg VhdlTxd.xcnt16 hstep).trans hc,
        (congrArg VhdlTxd.xbitcnt hstep).trans hx, congrArg VhdlTxd.txds hstep,
        congrArg VhdlTxd.tDone hstep⟩
    · rw [sentBytes_append, hsent]
    · rw [receivedBytes_append, hrec, List.append_nil, if_neg (by decide), List.append_nil]
      exact hl

/-- An edge of the timetable: the byte is received at the edge 132. -/
theorem linked_sending (hleg : Legal s i) (htx : VhdlTxd.Sending b n s.tx) (hbuf : s.tBuf = b)
    (hrx : VhdlRxd.Meeting b n s.rx) {bs : List Byte} (hsent : sentBytes l = bs ++ [b])
    (hrec : receivedBytes l = bs.map clearLow ++ if 133 ≤ n then [clearLow b] else []) :
    Linked (pair.step s i) (l ++ pair.out s i) := by
  have hdone := htx.done
  have hline := htx.line
  have hheld : i.tBuf = b := (hleg.hold (Or.inr hdone)).trans hbuf
  obtain ⟨hrx', hout⟩ := VhdlRxd.meeting_step hrx
  rw [← hline] at hrx' hout
  have hsent' : sentBytes (l ++ pair.out s i) = bs ++ [b] := by
    rw [sentBytes_append, sentBytes_out, no_rise hleg hdone, hsent]
    exact List.append_nil _
  have hrec' : receivedBytes (l ++ pair.out s i) =
      bs.map clearLow ++ if 133 ≤ n + 1 then [clearLow b] else [] := by
    rw [receivedBytes_append, receivedBytes_out, hout, hrec, List.append_assoc]
    congr 1
    rcases Nat.lt_trichotomy n 132 with hlt | rfl | hgt
    · rw [if_neg (by omega), if_neg (by omega), if_neg (by omega)]
      rfl
    · rfl
    · rw [if_pos (by omega), if_neg (by omega), if_pos (by omega)]
      rfl
  rcases Nat.lt_or_ge n 148 with hlt | hge
  · have htx' := VhdlTxd.sending_step htx hlt i.tCom
    rw [← hheld] at htx'
    exact .sending b (n + 1) hlt (hheld ▸ htx') hheld hrx' bs hsent' hrec'
  · -- the last edge of the timetable
    have hn148 : n = 148 := Nat.le_antisymm htx.le hge
    subst hn148
    obtain ⟨hs, hc, hx, hhigh, _⟩ := VhdlTxd.sending_stop htx
    have hquiet := VhdlRxd.meeting_finished hrx' (by decide)
    have hl : Delivered (l ++ pair.out s i) := by
      rw [Delivered, hrec', hsent', List.map_append]
      rfl
    exact linked_stop hs hc hx hhigh ⟨Or.inl hquiet.state, hquiet.count⟩ hl

/-- **One edge of the pair.** -/
theorem linked_step (hleg : Legal s i) (h : Linked s l) :
    Linked (pair.step s i) (l ++ pair.out s i) := by
  cases h with
  | idle hs hc hx hcom hrx hl => exact linked_idle hs hc hx hcom hrx hl
  | sending b n _ htx hbuf hrx bs hsent hrec => exact linked_sending hleg htx hbuf hrx hsent hrec
  | waiting hs hc hx hline hdone hcom hrx hl =>
    rw [← hline] at hrx
    obtain ⟨hrx', hout⟩ := VhdlRxd.ready_step hrx
    have hsent : sentBytes (pair.out s i) = [] := by simp [sentBytes_out, hcom]
    exact linked_stop hs hc hx hline hrx'
      (delivered_quiet hl hsent (receivedBytes_out.trans hout))

/-! ## 4. Whole runs -/

/-- **Every byte arrives once, in order, without its bit 0.** -/
theorem pair_received {s₀ : UartPair} (h0 : Linked s₀ []) {is : List PairIn}
    (hleg : pair.Throughout Legal s₀ is) (hdone : (pair.run s₀ is).tx.tDone = true) :
    Delivered (pair.log s₀ is) := by
  have hlast : Linked (pair.run s₀ is) (pair.log s₀ is) :=
    pair.inv_log_of (fun _ _ _ hC hI => linked_step hC hI) h0 hleg
  cases hlast with
  | idle _ _ _ _ _ hl => exact hl
  | sending b n _ htx =>
    rw [htx.done] at hdone
    cases hdone
  | waiting _ _ _ _ _ _ _ hl => exact hl

/-- **The transmitter comes back**: `n` edges after a byte was taken, `149 - n` edges are left. -/
theorem done_after (htx : VhdlTxd.Sending b n s.tx) (hbuf : s.tBuf = b) {is : List PairIn}
    (hleg : pair.Throughout Legal s is) (hlen : n + is.length = 149) :
    (pair.run s is).tx.tDone = true := by
  induction is generalizing s n with
  | nil =>
    have hle := htx.le
    rw [List.length_nil] at hlen
    omega
  | cons i is ih =>
    obtain ⟨hi, hrest⟩ := hleg
    have hheld : i.tBuf = b := (hi.hold (Or.inr htx.done)).trans hbuf
    rw [List.length_cons] at hlen
    rcases Nat.lt_or_ge n 148 with hlt | hge
    · have htx' : VhdlTxd.Sending b (n + 1) (s.tx.step true i.tCom i.tBuf) := by
        rw [hheld]
        exact VhdlTxd.sending_step htx hlt i.tCom
      exact ih htx' hheld hrest (by omega)
    · have hn148 : n = 148 := Nat.le_antisymm htx.le hge
      have hnil : is = [] := List.length_eq_zero_iff.mp (by omega)
      subst hn148 hnil
      obtain ⟨hs, hc, _⟩ := VhdlTxd.sending_stop htx
      show (s.tx.step true i.tCom i.tBuf).tDone = true
      rw [VhdlTxd.stop_step hs hc]
      split <;> rfl

theorem clearLow_eq_iff : clearLow b = b ↔ b.getLsbD 0 = false := by
  constructor
  · intro h
    rw [← h, VhdlRxd.getLsbD_clearLow (by decide)]
    simp
  · intro h
    refine BitVec.eq_of_getLsbD_eq fun k hk => ?_
    rw [VhdlRxd.getLsbD_clearLow hk]
    rcases Nat.eq_zero_or_pos k with rfl | hpos
    · rw [h]
      rfl
    · rw [decide_eq_true (by omega), Bool.and_true]

theorem map_clearLow_eq_iff (bs : List Byte) :
    bs.map clearLow = bs ↔ ∀ b ∈ bs, b.getLsbD 0 = false := by
  have hid : bs.map clearLow = bs ↔ ∀ b ∈ bs, clearLow b = b := by
    rw [← List.map_inj_left, List.map_id']
  rw [hid]
  exact forall₂_congr fun b _ => clearLow_eq_iff

/-- **Which bytes arrive**: in every run that ends with `T_done` at 1, the bytes over which `R_ready`
    has risen are the bytes sent, once each and in order, if and only if bit 0 of each is 0. -/
theorem pair_iff (txds tDone : Bool) (rBufs rBuf : Byte) (rReady : Bool) (tBuf : Byte)
    (is : List PairIn)
    (hleg : pair.Throughout Legal (.powerUp txds tDone rBufs rBuf rReady tBuf) is)
    (hdone : (pair.run (.powerUp txds tDone rBufs rBuf rReady tBuf) is).tx.tDone = true) :
    receivedBytes (pair.log (.powerUp txds tDone rBufs rBuf rReady tBuf) is) =
        sentBytes (pair.log (.powerUp txds tDone rBufs rBuf rReady tBuf) is) ↔
      ∀ b ∈ sentBytes (pair.log (.powerUp txds tDone rBufs rBuf rReady tBuf) is),
        b.getLsbD 0 = false := by
  have hl := pair_received (linked_powerUp txds tDone rBufs rBuf rReady tBuf) hleg hdone
  rw [← map_clearLow_eq_iff, hl]

/-! ### One byte -/

/-- Power-up with every other register 0, and the host holds `b`. -/
def pairZero (b : Byte) : UartPair := .powerUp true true 0#8 0#8 false b

/-- `T_com` is raised, and taken back at the next edge: `T_done` has fallen. -/
def byteOne (b : Byte) : List PairIn := ⟨true, b⟩ :: ⟨false, b⟩ :: List.replicate 148 ⟨false, b⟩

theorem low_legal (hcom : s.tCom = false) (hbuf : s.tBuf = b) (k : Nat) :
    pair.Throughout Legal s (List.replicate k ⟨false, b⟩) := by
  induction k generalizing s with
  | zero => trivial
  | succ k ih =>
    refine ⟨⟨fun _ h => absurd h Bool.false_ne_true, fun h _ => ?_, fun _ => hbuf.symm⟩, ih rfl rfl⟩
    rw [hcom] at h
    cases h

/-- The byte is sent and `T_done` returns. -/
theorem byteOne_done (b : Byte) :
    pair.Throughout Legal (pairZero b) (byteOne b) ∧
      (pair.run (pairZero b) (byteOne b)).tx.tDone = true := by
  have hrise : Legal (pairZero b) ⟨true, b⟩ :=
    ⟨fun _ _ => rfl, fun h => absurd h Bool.false_ne_true, fun _ => rfl⟩
  have hdrop : Legal (pair.step (pairZero b) ⟨true, b⟩) ⟨false, b⟩ :=
    ⟨fun _ h => absurd h Bool.false_ne_true, fun _ _ => Or.inr rfl, fun _ => rfl⟩
  have hrest : pair.Throughout Legal (pair.step (pairZero b) ⟨true, b⟩)
      (⟨false, b⟩ :: List.replicate 148 ⟨false, b⟩) := ⟨hdrop, low_legal rfl rfl 148⟩
  have htx : VhdlTxd.Sending b 0 (pair.step (pairZero b) ⟨true, b⟩).tx :=
    .start 0 (Nat.zero_le 7) ⟨rfl, rfl, rfl, rfl, rfl⟩
  exact ⟨⟨hrise, hrest⟩, done_after htx rfl hrest (by simp)⟩

theorem byteOne_sent (b : Byte) : sentBytes (pair.log (pairZero b) (byteOne b)) = [b] := by
  have hnone (s : UartPair) (k : Nat) :
      sentBytes (pair.log s (List.replicate k ⟨false, b⟩)) = [] := by
    induction k generalizing s with
    | zero => rfl
    | succ k ih =>
      rw [List.replicate_succ, Machine.log_cons, sentBytes_append, sentBytes_out, Bool.and_false, ih]
      rfl
  have hrest : sentBytes (pair.log (pair.step (pairZero b) ⟨true, b⟩)
      (⟨false, b⟩ :: List.replicate 148 ⟨false, b⟩)) = [] := hnone _ 149
  rw [byteOne, Machine.log_cons, sentBytes_append, sentBytes_out, hrest]
  rfl

/-- The host with the bytes `bs` to send, the next one as soon as `T_done` is 1, for `n` edges. -/
def hostSends : Nat → List Byte → UartPair → List PairIn
  | 0, _, _ => []
  | n + 1, bs, s =>
    let raise : Bool := !s.tCom && s.tx.tDone && !bs.isEmpty
    let i : PairIn := if raise then ⟨true, bs.headD s.tBuf⟩ else ⟨s.tCom && !s.fallen, s.tBuf⟩
    i :: hostSends n (if raise then bs.tail else bs) (pair.step s i)

theorem hostSends_legal (n : Nat) (bs : List Byte) (s : UartPair) :
    pair.Throughout Legal s (hostSends n bs s) := by
  induction n generalizing bs s with
  | zero => trivial
  | succ n ih =>
    refine ⟨?_, ih _ _⟩
    cases hcom : s.tCom <;> cases hdone : s.tx.tDone <;> cases bs <;> cases hfall : s.fallen <;>
      constructor <;> simp [hcom, hdone, hfall]

set_option maxRecDepth 4000 in
/-- Three bytes, back to back. -/
theorem pair_iff_three :
    sentBytes (pair.log (pairZero 0#8) (hostSends 460 [0x02, 0xa4, 0xfe] (pairZero 0#8))) =
        [0x02, 0xa4, 0xfe] ∧
      receivedBytes (pair.log (pairZero 0#8) (hostSends 460 [0x02, 0xa4, 0xfe] (pairZero 0#8))) =
        [0x02, 0xa4, 0xfe] := by
  have hdone : (pair.run (pairZero 0#8)
      (hostSends 460 [0x02, 0xa4, 0xfe] (pairZero 0#8))).tx.tDone = true := by decide +kernel
  have hsent : sentBytes (pair.log (pairZero 0#8)
      (hostSends 460 [0x02, 0xa4, 0xfe] (pairZero 0#8))) = [0x02, 0xa4, 0xfe] := by decide +kernel
  have h := pair_iff true true 0#8 0#8 false 0#8
    (hostSends 460 [0x02, 0xa4, 0xfe] (pairZero 0#8)) (hostSends_legal _ _ _) hdone
  refine ⟨hsent, (h.mpr ?_).trans hsent⟩
  intro b hb
  have hmem : b ∈ ([0x02, 0xa4, 0xfe] : List Byte) := hsent ▸ hb
  revert b
  decide

/-- 0x01 arrives as 0x00. -/
theorem one_arrives_as_zero :
    pair.Throughout Legal (pairZero 1#8) (byteOne 1#8) ∧
      sentBytes (pair.log (pairZero 1#8) (byteOne 1#8)) = [1#8] ∧
      receivedBytes (pair.log (pairZero 1#8) (byteOne 1#8)) = [0#8] := by
  obtain ⟨hleg, hdone⟩ := byteOne_done 1#8
  have hsent := byteOne_sent 1#8
  have hl : Delivered (pair.log (pairZero 1#8) (byteOne 1#8)) :=
    pair_received (linked_powerUp true true 0#8 0#8 false 1#8) hleg hdone
  rw [Delivered, hsent] at hl
  exact ⟨hleg, hsent, hl⟩

end Pair

end WifiOsc
