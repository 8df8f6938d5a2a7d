/-
  File:      WifiOsc/Fpga/Scope.lean
  Subject:   FROM THE SAMPLES TO THE WIRES. `ADC_FIFO_CONTROL` with the FIFO of Dcfifo.lean on the
             clock that `Div_c` divides, and `FPGA2AR9331` reading the FIFO with `r_clk`, as main.sv
             connects them; with the two registers of the host on this path, `adc_freq[0]` as the
             divisor and `adc_en_u` as the sender's reset and the gate of its `en`.

  `wrusedw` is one write behind. The control stops when it reads 2999, records 3000 an edge later,
  and 3002 words are in the FIFO then, those that an earlier frame has left behind included. The
  sender raises `r_clk` twice before the first byte; these two reads find what was left behind, two
  words at most, and no word of the capture, for that crosses over in two edges of `r_clk`. So a
  frame carries the first 3000 words, and the words behind these are dropped by the next one.

  * `scope`: the whole path at every base edge; `captureRound`: what is seen of one capture;
  * `Sends`, `sends_step`: the sender, by how much it has read and sent;
  * `Calm`, `calm_tx`: the sender while it has nothing to send;
  * `calm_step`: the words that are written meanwhile.
-/
import WifiOsc.Fpga.CaptureLength
import WifiOsc.Fpga.Dcfifo

namespace WifiOsc

open Basis

/-! ## 1. The path -/

/-- A word of the FIFO, with the rising edge of `adc_clk` that wrote it. -/
structure Sample where
  edge : Nat
  data : Byte
  deriving DecidableEq, Repr

/-- What the outside decides at a base edge. -/
structure ScopeIo where
  isIngore : Bool
  trigger : Bool
  data : Byte
  ack : Bool
  skew : Skew Sample

/-- And what main.sv gives the path from the registers of the host. -/
structure ScopeIn extends ScopeIo where
  adcEnU : Bool
  adcFreq : BitVec 16

/-- `edges` counts the rising edges of `adc_clk`, `low` the edges that a reset has lasted which has
    found the sender outside `IDLE`; the hardware has no such registers. -/
structure Scope where
  cap : Capture
  fifo : Dcfifo Sample
  edges : Nat
  low : Nat

/-- `write`: a word is written to the FIFO. `leave`: the sender leaves `IDLE`. `sent`: the sender
    puts a byte of the FIFO on its data lines, behind the header. `reset`: `adc_en_u` is low and the
    sender not in `IDLE`. -/
inductive ScopeEvent where
  | write (w : Sample)
  | leave
  | sent (b : Byte)
  | reset
  deriving DecidableEq, Repr

/-- What is seen but for the resets. -/
def seen (l : List ScopeEvent) : List ScopeEvent := l.filter (· ≠ .reset)

def resets (l : List ScopeEvent) : Nat := l.count .reset

/-- Does `r_clk` rise? -/
def rClkRises (t t' : FPGA2AR9331) : Prop := t.rClk = false ∧ t'.rClk = true

instance (t t' : FPGA2AR9331) : Decidable (rClkRises t t') := inferInstanceAs (Decidable (_ ∧ _))

theorem not_rises_of_low {t t' : FPGA2AR9331} (h : t'.rClk = false) : ¬ rClkRises t t' := by
  intro hr
  rw [hr.2] at h
  cases h

namespace Scope

/-- The sender's inputs at a base edge: `rst_n` is `adc_en_u`, `en` is `adc_en && adc_en_u`. -/
def txIn (s : Scope) (i : ScopeIn) : Ar9331In :=
  ⟨i.adcEnU, s.cap.fifo.isFull && i.adcEnU, s.fifo.rd.q.data, s.cap.fifo.len, i.ack⟩

/-- The sender after the base edge. -/
def tx' (s : Scope) (i : ScopeIn) : FPGA2AR9331 := s.cap.tx.step (s.txIn i)

/-- The word that the ADC offers. -/
def sample (s : Scope) (i : ScopeIn) : Sample := ⟨s.edges, i.data⟩

/-- What is on the ports of the FIFO: `r_clk` and `adc_clk` are registers of the base clock, so their
    edges come after its edge; `rdreq` is `isFull` and `wrreq` is `isW`. -/
def fifoIn (s : Scope) (i : ScopeIn) : DcfifoIn Sample :=
  ⟨decide (rClkRises s.cap.tx (s.tx' i)), s.cap.fifo.isFull, s.cap.div.rises i.adcFreq,
    s.cap.fifo.isW, s.sample i, i.skew⟩

/-- What the control reads at a rising edge of `adc_clk`. -/
def controlIn (s : Scope) (i : ScopeIn) : AdcFifoIn :=
  ⟨i.isIngore, i.trigger, (s.tx' i).isWait, s.fifo.wr.wrusedw.setWidth 32⟩

def step (s : Scope) (i : ScopeIn) : Scope where
  cap :=
    { div := s.cap.div.step i.adcFreq
      fifo :=
        if s.cap.div.rises i.adcFreq then s.cap.fifo.step adcLen (s.controlIn i) else s.cap.fifo
      tx := s.tx' i }
  fifo := s.fifo.step (s.fifoIn i)
  edges := if s.cap.div.rises i.adcFreq then s.edges + 1 else s.edges
  low :=
    if i.adcEnU then 0
    else if s.cap.tx.currentState ≠ .idle ∨ 0 < s.low then s.low + 1
    else 0

/-- What the path does at a base edge. -/
def acts (s : Scope) (i : ScopeIn) : List ScopeEvent :=
  (if s.cap.div.rises i.adcFreq && s.fifo.wr.validWrreq s.cap.fifo.isW then [.write (s.sample i)]
    else []) ++
  (if s.cap.tx.currentState = .idle ∧ (s.tx' i).currentState ≠ .idle then [.leave] else []) ++
  (if s.cap.tx.currentState = .sendIng2 then (s.tx' i).dataOut.toList.map .sent else [])

def out (s : Scope) (i : ScopeIn) : List ScopeEvent :=
  s.acts i ++ (if i.adcEnU = false ∧ s.cap.tx.currentState ≠ .idle then [.reset] else [])

end Scope

def scope : Machine Scope ScopeIn ScopeEvent where
  step := Scope.step
  out := Scope.out

/-- Power-up: the FIFO is empty, and `r_clk` is not high before its first rising edge. -/
structure Scope.PowerUp (s : Scope) : Prop where
  cap : s.cap.PowerUp
  rClk : s.cap.tx.rClk = false
  fifo : s.fifo.PowerUp
  low : s.low = 0

/-- **What a capture writes**: 3000 words and up to two more, from the second one on at consecutive
    edges of `adc_clk`. -/
structure Captured (ws : List Sample) : Prop where
  length : 3000 ≤ ws.length ∧ ws.length ≤ 3002
  consecutive : ws.tail.IsChain fun a b => b.edge = a.edge + 1

/-- A frame of `n` bytes that begins after `k` reads of the capture `ws`. -/
def frameFrom (ws : List Sample) (k n : Nat) : List ScopeEvent :=
  .leave :: (Crossing.shown ws k n).map fun w => .sent w.data

/-- **What is seen of a capture and its frame**: the words of `ws` are written, and then the first
    3000 of them are on the wires. -/
def captureRound (ws : List Sample) : List ScopeEvent :=
  ws.map .write ++ .leave :: (ws.take 3000).map fun w => .sent w.data

/-- With no read before, a frame is the one of `captureRound`. -/
theorem frameFrom_zero {ws : List Sample} (h : Captured ws) :
    ws.map .write ++ frameFrom ws 0 3000 = captureRound ws := by
  rw [frameFrom, Crossing.shown_zero h.length.1]
  rfl

/-! ## 2. The sender, by how much it has read and sent -/

/-- In a frame of `N` bytes, `n` of them sent, `r_clk` has risen `k` times. -/
inductive Sends (N n k : Nat) (t : FPGA2AR9331) : Prop where
  | save (hs : t.currentState = .sendStartSave) (hr : t.rClk = false) (hn : n = 0) (hk : k = 0)
  | start (hs : t.currentState = .sendStart) (hn : n = 0) (hk : k = 1)
  | start2 (hs : t.currentState = .sendStart2) (hr : t.rClk = false) (hl : t.len.toNat = N)
      (hn : n = 0) (hk : k = 1)
  | start3 (hs : t.currentState = .sendStart3) (hl : t.len.toNat = N) (hn : n = 0) (hk : k = 2)
  | fetch (hs : t.currentState = .sendIng0) (hr : t.rClk = false) (hl : t.len.toNat + n = N)
      (hn : n < N) (hk : k = n + 2)
  | wait (hs : t.currentState = .sendIng1) (hl : t.len.toNat + n = N) (hn : n < N) (hk : k = n + 3)
  | load (hs : t.currentState = .sendIng2) (hr : t.rClk = false) (hl : t.len.toNat + n = N)
      (hn : n < N) (hk : k = n + 3)
  | sent (hs : t.currentState = .sendIng3 ∨ t.currentState = .sendIng4) (hr : t.rClk = false)
      (hl : t.len.toNat + n = N) (hk : k = n + 2)
  | ending (hs : t.currentState = .sendEnd ∨ t.currentState = .delay1 ∨ t.currentState = .delay2)
      (hr : t.rClk = false) (hn : n = N) (hk : k = N + 2)

section Sends

open FPGA2AR9331

variable {N n k : Nat} {t : FPGA2AR9331} {i : Ar9331In}

/-- **One edge of a frame**: the frame goes on, or it ends in `DELAY_3`. -/
theorem sends_step (hrst : i.rstN = true) (hlen : i.lenIn.toNat = N) (hN : 0 < N)
    (h : Sends N n k t) :
    Sends N (if t.currentState = .sendIng2 then n + 1 else n)
        (if rClkRises t (t.step i) then k + 1 else k) (t.step i) ∨
      ((t.step i).currentState = .delay3 ∧ (t.step i).rClk = false ∧ t.currentState ≠ .sendIng2 ∧
        ¬ rClkRises t (t.step i) ∧ n = N ∧ k = N + 2) := by
  cases h with
  | save hs hr hn hk =>
    refine Or.inl (.start ?_ ?_ ?_) <;>
      simp [step, output, nextState, hrst, hs, hr, hn, hk, rClkRises]
  | start hs hn hk =>
    refine Or.inl (.start2 ?_ ?_ ?_ ?_ ?_) <;>
      simp [step, output, nextState, hrst, hs, hn, hk, hlen, rClkRises]
  | start2 hs hr hl hn hk =>
    refine Or.inl (.start3 ?_ ?_ ?_ ?_) <;>
      simp [step, output, nextState, hrst, hs, hr, hn, hk, hl, rClkRises]
  | start3 hs hl hn hk =>
    refine Or.inl (.fetch ?_ ?_ ?_ ?_ ?_) <;>
      simp [step, output, nextState, hrst, hs, hn, hk, hl, hN, rClkRises]
  | fetch hs hr hl hn hk =>
    refine Or.inl (.wait ?_ ?_ ?_ ?_) <;>
      simp [step, output, nextState, hrst, hs, hr, hn, hk, hl, rClkRises]
  | wait hs hl hn hk =>
    by_cases ha : i.ack = t.ackSave
    · refine Or.inl (.wait ?_ ?_ ?_ ?_) <;>
        simp [step, output, nextState, hrst, hs, hn, hk, hl, ha, rClkRises]
    · refine Or.inl (.load ?_ ?_ ?_ ?_ ?_) <;>
        simp [step, output, nextState, hrst, hs, hn, hk, hl, ha, rClkRises]
  | load hs hr hl hn hk =>
    have hdec : (t.len - 1#32).toNat = t.len.toNat - 1 := by
      rw [BitVec.toNat_sub_of_le (BitVec.le_def.mpr (by simp; omega))]
      rfl
    refine Or.inl (.sent (Or.inl ?_) ?_ ?_ ?_) <;>
      simp [step, output, nextState, hrst, hs, hr, hk, hdec, rClkRises]
    omega
  | sent hs hr hl hk =>
    rcases hs with hs | hs
    · refine Or.inl (.sent (Or.inr ?_) ?_ ?_ ?_) <;>
        simp [step, output, nextState, hrst, hs, hr, hk, hl, rClkRises]
    · by_cases h0 : t.len = 0#32
      · have hnN : n = N := by
          rw [h0] at hl
          simpa using hl
        refine Or.inl (.ending (Or.inl ?_) ?_ ?_ ?_) <;>
          simp [step, output, nextState, hrst, hs, hr, hk, h0, hnN, rClkRises]
      · have hpos : 0 < t.len.toNat := Nat.pos_of_ne_zero fun e => h0 (BitVec.eq_of_toNat_eq e)
        refine Or.inl (.fetch ?_ ?_ ?_ ?_ ?_) <;>
          simp [step, output, nextState, hrst, hs, hr, hk, hl, h0, rClkRises]
        omega
  | ending hs hr hn hk =>
    rcases hs with hs | hs | hs
    · refine Or.inl (.ending ?_ ?_ ?_ ?_)
      · by_cases ha : i.ack = t.ackSave <;> simp [nextState, hrst, hs, ha]
      all_goals simp [step, output, hrst, hs, hr, hn, hk, rClkRises]
    · refine Or.inl (.ending (Or.inr (Or.inr ?_)) ?_ ?_ ?_) <;>
        simp [step, output, nextState, hrst, hs, hr, hn, hk, rClkRises]
    · by_cases ha : i.ack = t.ackSave
      · refine Or.inl (.ending (Or.inr (Or.inr ?_)) ?_ ?_ ?_) <;>
          simp [step, output, nextState, hrst, hs, hr, hn, hk, ha, rClkRises]
      · refine Or.inr ⟨?_, ?_, ?_, ?_, hn, hk⟩ <;>
          simp [step, output, nextState, hrst, hs, hr, ha, rClkRises]

/-- The byte that is loaded has been read, and is on the data lines after the edge. -/
theorem sends_load (hrst : i.rstN = true) (h : Sends N n k t) (hs : t.currentState = .sendIng2) :
    n < N ∧ k = n + 3 ∧ (t.step i).dataOut = some i.dataIn := by
  cases h with
  | load _ hr hl hn hk => exact ⟨hn, hk, by simp [step, output, hrst, hs]⟩
  | sent hs' | ending hs' => simp [hs] at hs'
  | save hs' | start hs' | start2 hs' | start3 hs' | fetch hs' | wait hs' =>
    rw [hs] at hs'
    cases hs'

theorem sends_ne (h : Sends N n k t) : t.currentState ≠ .idle ∧ t.currentState ≠ .delay3 := by
  cases h with
  | sent hs => rcases hs with hs | hs <;> simp [hs]
  | ending hs => rcases hs with hs | hs | hs <;> simp [hs]
  | save hs | start hs | start2 hs | start3 hs | fetch hs | wait hs | load hs => simp [hs]

end Sends

/-! ## 3. One edge of the path -/

section Edge

variable {s : Scope} {i : ScopeIn}

theorem seen_append (l l' : List ScopeEvent) : seen (l ++ l') = seen l ++ seen l' :=
  List.filter_append l l'

theorem resets_append (l l' : List ScopeEvent) : resets (l ++ l') = resets l + resets l' :=
  List.count_append

/-- With no reset everything is seen. -/
theorem seen_of_notMem {l : List ScopeEvent} (h : ScopeEvent.reset ∉ l) : seen l = l ∧ resets l = 0 := by
  refine ⟨List.filter_eq_self.mpr fun e he => ?_, List.count_eq_zero.mpr h⟩
  exact decide_eq_true fun e' => h (e' ▸ he)

@[simp] theorem scope_step_tx : (scope.step s i).cap.tx = s.tx' i := rfl

theorem tx'_eq : s.tx' i = s.cap.tx.step (s.txIn i) := rfl

/-- Between two rising edges of `adc_clk` the control stands still. -/
theorem scope_between (h : s.cap.div.rises i.adcFreq = false) :
    (scope.step s i).cap.fifo = s.cap.fifo ∧ (scope.step s i).edges = s.edges := by
  simp [scope, Scope.step, h]

theorem scope_rise (h : s.cap.div.rises i.adcFreq = true) :
    (scope.step s i).cap.fifo = s.cap.fifo.step adcLen (s.controlIn i) ∧
      (scope.step s i).edges = s.edges + 1 := by
  simp [scope, Scope.step, h]

/-- With `adc_en_u` low the sender goes to `IDLE`, and nothing is read. -/
theorem scope_off (h : i.adcEnU = false) :
    (s.tx' i).currentState = .idle ∧ (s.tx' i).rClk = false ∧ (s.tx' i).dataOut = none := by
  simp [tx'_eq, FPGA2AR9331.step, FPGA2AR9331.output, FPGA2AR9331.nextState, Scope.txIn, h]

theorem low_on (h : i.adcEnU = true) : (scope.step s i).low = 0 := by
  simp [scope, Scope.step, h]

theorem reset_notMem_acts : ScopeEvent.reset ∉ s.acts i := by
  intro h
  rw [Scope.acts, List.mem_append, List.mem_append] at h
  rcases h with (h | h) | h
  · split at h <;> simp at h
  · split at h <;> simp at h
  · split at h <;> simp at h

theorem seen_out : seen (scope.out s i) = s.acts i := by
  show seen (Scope.out s i) = _
  rw [Scope.out, seen_append, (seen_of_notMem reset_notMem_acts).1]
  split <;> simp [seen]

theorem resets_out : resets (scope.out s i) =
    if i.adcEnU = false ∧ s.cap.tx.currentState ≠ .idle then 1 else 0 := by
  show resets (Scope.out s i) = _
  rw [Scope.out, resets_append, (seen_of_notMem reset_notMem_acts).2, Nat.zero_add]
  split <;> rfl

/-- What is written, by the counts of the FIFO. -/
theorem acts_eq {c : Crossing Sample} (hm : s.fifo.Models c) (newRd newWr : Bool) : s.acts i =
    (if c.pushes 4096 ((s.fifoIn i).crossing newRd newWr) then [.write (s.sample i)] else []) ++
      (if s.cap.tx.currentState = .idle ∧ (s.tx' i).currentState ≠ .idle then [.leave] else []) ++
      (if s.cap.tx.currentState = .sendIng2 then (s.tx' i).dataOut.toList.map .sent else []) := by
  rw [Dcfifo.pushes_eq hm]
  rfl

end Edge

/-! ## 4. While the sender waits -/

/-- The sender is in `IDLE`, or still in `DELAY_3`: then each of `n` words has taken at least two of
    its edges. -/
structure Calm (n : Nat) (s : Scope) : Prop where
  rClk : s.cap.tx.rClk = false
  tx : s.cap.tx.currentState = .idle ∨ s.cap.tx.currentState = .delay3 ∧
    s.cap.tx.delayCounter.toNat ≤ 2000 ∧
    2 * n + (if s.cap.div.clkDiv then 0 else 1) ≤ s.cap.tx.delayCounter.toNat + 1

section Calm

open FPGA2AR9331

variable {n : Nat} {s : Scope} {i : ScopeIn}

/-- The sender has nothing to send: it stays where it is, or comes back to `IDLE`. -/
theorem calm_tx (h : Calm n s) (hen : s.cap.fifo.isFull = false) :
    (s.tx' i).rClk = false ∧
      ((s.tx' i).currentState = .idle ∨ s.cap.tx.currentState = .delay3 ∧
        (s.tx' i).currentState = .delay3 ∧ (s.tx' i).delayCounter.toNat ≤ 2000 ∧
        (s.tx' i).delayCounter.toNat = s.cap.tx.delayCounter.toNat + 1) := by
  cases hrst : i.adcEnU with
  | false => exact ⟨(scope_off hrst).2.1, Or.inl (scope_off hrst).1⟩
  | true =>
    have hclk : (s.tx' i).rClk = false := by
      rcases h.tx with hs | ⟨hs, _⟩ <;>
        simp [tx'_eq, step, output, Scope.txIn, hs, h.rClk, hrst]
    refine ⟨hclk, ?_⟩
    rcases h.tx with hs | ⟨hs, hle, _⟩
    · exact Or.inl (by simp [tx'_eq, nextState, Scope.txIn, hs, hen, hrst])
    · by_cases hend : delayLen ≤ s.cap.tx.delayCounter
      · exact Or.inl (by simp [tx'_eq, nextState, Scope.txIn, hs, hend, hrst])
      · have hlt : s.cap.tx.delayCounter.toNat < 2000 := by
          rw [BitVec.le_def] at hend
          exact Nat.lt_of_not_le hend
        have hinc : (s.tx' i).delayCounter.toNat = s.cap.tx.delayCounter.toNat + 1 := by
          rw [tx'_eq, delayCounter_delay3 hrst hs, BitVec.toNat_add, BitVec.toNat_ofNat]
          omega
        exact Or.inr ⟨hs, by simp [tx'_eq, nextState, Scope.txIn, hs, hend, hrst], by omega, hinc⟩

/-- The divider takes two edges from one rising edge of `adc_clk` to the next at the least. -/
theorem rises_clkDiv {d : DivC} {f : BitVec 16} (h : d.rises f = true) :
    d.clkDiv = false ∧ (d.step f).clkDiv = true := by
  simpa [DivC.rises] using h

theorem clkDiv_of_not {d : DivC} {f : BitVec 16} (h : d.rises f = false) (hlow : d.clkDiv = false) :
    (d.step f).clkDiv = false := by
  simpa [DivC.rises, hlow] using h

/-- Is a word written at this edge, if there is room? -/
def Scope.writes (s : Scope) (i : ScopeIn) : Bool := s.cap.div.rises i.adcFreq && s.cap.fifo.isW

/-- **While the sender waits**, words are written and nothing else happens. -/
theorem calm_step {c : Crossing Sample} {B : Nat} (hm : s.fifo.Models c) (hk : c.Kept B)
    (h : Calm n s) (hen : s.cap.fifo.isFull = false) (hroom : c.hist.length < c.r + 4096) :
    Calm (n + if s.writes i then 1 else 0) (scope.step s i) ∧
      s.acts i = (if s.writes i then [.write (s.sample i)] else []) ∧
      ∃ c', (scope.step s i).fifo.Models c' ∧ c'.Kept B ∧ c'.r = c.r ∧
        c'.hist = c.hist ++ (if s.writes i then [s.sample i] else []) ∧
        c'.d = (if s.cap.div.rises i.adcFreq then c.hist.length else c.d) ∧
        c'.g3 = if s.cap.div.rises i.adcFreq then c.r else c.g3 := by
  obtain ⟨hclk, hnext⟩ := calm_tx (i := i) h hen
  have hrd : (s.fifoIn i).rdclk = false := decide_eq_false (not_rises_of_low hclk)
  obtain ⟨newRd, newWr, hm'⟩ := Dcfifo.models_step hm (s.fifoIn i)
  have hwrite := @Crossing.Kept.write _ 4096 _ _ ((s.fifoIn i).crossing newRd newWr) hk hrd hroom
  refine ⟨⟨hclk, ?_⟩, ?_, _, hm', hwrite⟩
  · -- two edges for each word
    rcases hnext with hn | ⟨hd, hd', hle, hinc⟩
    · exact Or.inl hn
    refine Or.inr ⟨hd', hle, ?_⟩
    rw [scope_step_tx, hinc]
    rcases h.tx with hs | ⟨-, -, hpace⟩
    · rw [hs] at hd
      cases hd
    have hdiv : (scope.step s i).cap.div = s.cap.div.step i.adcFreq := rfl
    rw [hdiv, Scope.writes]
    cases hr : s.cap.div.rises i.adcFreq with
    | true =>
      obtain ⟨hlow, hhigh⟩ := rises_clkDiv hr
      rw [hlow, if_neg Bool.false_ne_true] at hpace
      rw [hhigh, if_pos rfl]
      split <;> omega
    | false =>
      rw [Bool.false_and, if_neg Bool.false_ne_true]
      cases hlow : s.cap.div.clkDiv with
      | true =>
        rw [hlow, if_pos rfl] at hpace
        split <;> omega
      | false =>
        rw [hlow, if_neg Bool.false_ne_true] at hpace
        rw [clkDiv_of_not hr hlow, if_neg Bool.false_ne_true]
        omega
  · have hleave : ¬ (s.cap.tx.currentState = .idle ∧ (s.tx' i).currentState ≠ .idle) := by
      rintro ⟨hs, hne⟩
      rcases hnext with hn | ⟨hd, _⟩
      · exact hne hn
      · rw [hs] at hd
        cases hd
    have hsent : s.cap.tx.currentState ≠ .sendIng2 := by
      rcases h.tx with hs | ⟨hs, _⟩ <;> simp [hs]
    have hpush : c.pushes 4096 ((s.fifoIn i).crossing newRd newWr) = s.writes i := by
      have hg2 := hk.g2
      rw [Crossing.pushes, decide_eq_true (by omega), Bool.and_true]
      rfl
    rw [acts_eq hm newRd newWr, hpush, if_neg hleave, if_neg hsent, List.append_nil,
      List.append_nil]

end Calm

end WifiOsc
