/-
  File:      WifiOsc/Fpga/ScopeFrames.lean
  Subject:   EVERY CAPTURE ON THE WIRES, ONCE. How a capture and its frame take turns on the path of
             Scope.lean, while the host writes its two registers.

  A round goes from the first word written to the edge at which the control, back in `IDLE`, drops
  `isFull`. The sender must be in `DELAY_3` until then, or it would send the capture again: that is
  where adc_freq ≤ 499 comes from. It must be back in `IDLE` when the next capture is complete, or
  the control would read `clear` at once: 2999 words take more than the 2001 clocks of the delay.

  `ADC_FIFO_CONTROL` has no reset: a frame that is cut leaves it in `SENDING` with the rest of the
  capture in the FIFO. The next frame carries on there, up to three words further, and shows the
  last word again and again once the FIFO is empty; only a frame that has come to its end lets the
  control go back to `IDLE`. A reset that strikes after the control has read `clear`, and is over
  before it drops `isFull`, would start a frame while the next capture is written: `adc_en_u` has to
  stay low for a period of `adc_clk`.

  * `Tries`, `Round`: what is seen of a capture whose frames may be cut;
  * `ScopePhase`: where a round is, and what has been seen of it; one lemma for each phase;
  * `ScopeInv`, `scopeInv_step`: whole rounds and the part of one that is under way;
  * `scope_frames`: what is on the wires over every run without a reset.
-/
import WifiOsc.Fpga.Scope

namespace WifiOsc

open Basis

/-! ## 1. A capture whose frames may be cut -/

/-- `j` frames of `ws` that have been cut, `k` reads in all: one that has sent `n` bytes has read up
    to three words more. -/
inductive Tries (ws : List Sample) : Nat → Nat → List ScopeEvent → Prop where
  | none : Tries ws 0 0 []
  | cut {k j : Nat} {l : List ScopeEvent} (h : Tries ws k j l) (n r : Nat) (hn : n ≤ 3000)
      (hr : n ≤ r ∧ r ≤ n + 3) : Tries ws (k + r) (j + 1) (l ++ frameFrom ws k n)

/-- **What is seen of a capture**: its words are written; `j` frames that are cut, each of which goes
    on where the one before has stopped reading; and a frame of 3000 bytes. -/
inductive Round (j : Nat) : List ScopeEvent → Prop where
  | mk (ws : List Sample) (k : Nat) (l : List ScopeEvent) (hcap : Captured ws)
      (ht : Tries ws k j l) : Round j (ws.map .write ++ l ++ frameFrom ws k 3000)

/-- With no frame cut all is sent, once. -/
theorem Round.whole {r : List ScopeEvent} (h : Round 0 r) : ∃ ws, Captured ws ∧ r = captureRound ws := by
  obtain ⟨ws, k, l, hcap, ht⟩ := h
  cases ht
  exact ⟨ws, hcap, by rw [List.append_nil, frameFrom_zero hcap]⟩

/-- The slowest divisor for which a capture is sent once (Capture.lean). -/
def slowest : BitVec 16 := 499#16

/-- Edges until `adc_clk` rises, at the slowest divisor. -/
def Scope.wait (s : Scope) : Nat := s.cap.div.wait slowest

/-! ## 2. How far a capture and its frame have come -/

/-- The words from the second one on were written at consecutive edges, up to the last one. -/
structure Tracked (s : Scope) (ws : List Sample) : Prop where
  chain : ws.tail.IsChain fun a b => b.edge = a.edge + 1
  last : s.cap.fifo.isW = true → ∀ w ∈ ws.tail.getLast?, w.edge + 1 = s.edges
  first : s.cap.fifo.isW = false → ws.length ≤ 1

/-- Before `SENDING`: the words `ws` have been written since the reader stopped. -/
structure Filling (s : Scope) (c : Crossing Sample) (B : Nat) (ws : List Sample) : Prop where
  notFull : s.cap.fifo.isFull = false
  kept : c.Kept B
  words : c.hist.drop B = ws
  calm : Calm ws.length s

/-- In `SENDING`: the capture `ws` is in the FIFO, and `k` reads have been made of it. -/
structure Held (s : Scope) (c : Crossing Sample) (ws : List Sample) (k : Nat) : Prop where
  control : s.cap.fifo.currentState = .sending
  off : s.cap.fifo.isW = false
  len : s.cap.fifo.len = adcLen
  captured : Captured ws
  shown : s.cap.fifo.isFull = true → c.d = c.hist.length
  lag : c.r + s.wait ≤ c.g1 + 1000
  drained : ∃ R B, c.hist.drop B = ws ∧ c.hist.length = R + 3002 ∧ c.Drained R B k

/-- After a frame: the reader has seen all that there is, and two words are left at the most. -/
structure Over (c : Crossing Sample) : Prop where
  s1 : c.s1 = c.hist.length
  s2 : c.s2 = c.hist.length
  r : c.r ≤ c.hist.length ∧ c.hist.length ≤ c.r + 2
  g1 : c.g1 = c.r
  g2 : c.r ≤ c.g2 + 1000

/-- Where a capture is, how many of its frames have been cut, and what has been seen of it. -/
inductive ScopePhase (s : Scope) (c : Crossing Sample) : Nat → List ScopeEvent → Prop where
  | waiting (B : Nat) (ws : List Sample) (h : Filling s c B ws)
      (hc : s.cap.fifo.currentState = .idle ∨ s.cap.fifo.currentState = .waitTrigger)
      (hst : ws.length + (if s.cap.fifo.isW then 1 else 0) ≤ 1)
      (hlag : c.hist.length + (if s.cap.fifo.isW then 1 else 0) ≤ c.g3 + 2998) :
      ScopePhase s c 0 (ws.map .write)
  | saving (B : Nat) (ws : List Sample) (h : Filling s c B ws)
      (hc : s.cap.fifo.currentState = .saving) (hlen : c.hist.length ≤ c.r + 3000)
      (hoff : s.cap.fifo.isW = false → c.hist.length ≤ c.g3 + 2998)
      (hon : s.cap.fifo.isW = true → c.g3 = c.r ∧
        (c.hist.length = c.d + 1 ∨ c.hist.length = c.d ∧ ws.length ≤ 1))
      (hw : Tracked s ws) : ScopePhase s c 0 (ws.map .write)
  | saveLen (B : Nat) (ws : List Sample) (h : Filling s c B ws)
      (hc : s.cap.fifo.currentState = .saveLen) (hlen : c.hist.length = c.r + 3001)
      (hd : c.d = c.r + 3000) (hg : c.g3 = c.r) (hon : s.cap.fifo.isW = true)
      (hw : Tracked s ws) : ScopePhase s c 0 (ws.map .write)
  | offered (ws : List Sample) (k j : Nat) (l : List ScopeEvent) (h : Held s c ws k)
      (hl : Tries ws k j l) (ht : s.cap.tx.currentState = .idle) (hr : s.cap.tx.rClk = false) :
      ScopePhase s c j (ws.map .write ++ l)
  | frame (ws : List Sample) (k j n m : Nat) (l : List ScopeEvent) (h : Held s c ws (k + m))
      (hl : Tries ws k j l) (hf : s.cap.fifo.isFull = true) (ht : Sends 3000 n m s.cap.tx) :
      ScopePhase s c j (ws.map .write ++ l ++ frameFrom ws k n)
  | clearing (ws : List Sample) (k j : Nat) (l : List ScopeEvent) (h : Held s c ws (k + 3002))
      (hl : Tries ws k j l) (hf : s.cap.fifo.isFull = true) (ht : s.cap.tx.currentState = .delay3)
      (hr : s.cap.tx.rClk = false) (hclk : s.cap.tx.delayCounter.toNat + s.wait < 1000) :
      ScopePhase s c j (ws.map .write ++ l ++ frameFrom ws k 3000)
  | spent (j : Nat) (part : List ScopeEvent) (h : Round j part)
      (hc : s.cap.fifo.currentState = .idle) (hoff : s.cap.fifo.isW = false) (ho : Over c)
      (hr : s.cap.tx.rClk = false)
      (ht : s.cap.tx.currentState = .delay3 ∧ s.low = 0 ∧
          s.cap.tx.delayCounter.toNat + s.wait < 2000 ∨
        s.cap.tx.currentState = .idle ∧ 1 ≤ s.low ∧ s.low + s.wait ≤ 1000) :
      ScopePhase s c j part

/-- What an edge does to the capture under way: it goes on, with one more frame for a reset at the
    most; or its last frame is over. -/
inductive ScopeNext (s : Scope) (i : ScopeIn) (j : Nat) (part : List ScopeEvent) : Prop where
  | same (c : Crossing Sample) (j' : Nat) (hm : (scope.step s i).fifo.Models c)
      (h : ScopePhase (scope.step s i) c j' (part ++ s.acts i))
      (hj : j' ≤ j + resets (scope.out s i))
  | ended (c : Crossing Sample) (hr : Round j part) (hm : (scope.step s i).fifo.Models c)
      (h : ScopePhase (scope.step s i) c 0 []) (hacts : s.acts i = [])

/-! ## 3. While words are awaited and written -/

section Filling

variable {s : Scope} {i : ScopeIn} {c : Crossing Sample} {B : Nat} {ws : List Sample}

theorem Filling.length (h : Filling s c B ws) (hm : s.fifo.Models c) :
    c.hist.length = B + ws.length := by
  obtain ⟨-, -, -, -, -, hs1, hd, -, -⟩ := hm.order
  have hB := h.kept.s1
  rw [← h.words, List.length_drop]
  omega

/-- **One edge before `SENDING`.** -/
theorem filling_step (h : Filling s c B ws) (hm : s.fifo.Models c)
    (hroom : c.hist.length ≤ c.r + 3001)
    (hf : (scope.step s i).cap.fifo.isFull = false) :
    s.acts i = (if s.writes i then [.write (s.sample i)] else []) ∧
      ∃ c', (scope.step s i).fifo.Models c' ∧
        Filling (scope.step s i) c' B (ws ++ if s.writes i then [s.sample i] else []) ∧
        c'.r = c.r ∧ c'.hist.length = c.hist.length + (if s.writes i then 1 else 0) ∧
        c'.d = (if s.cap.div.rises i.adcFreq then c.hist.length else c.d) ∧
        c'.g3 = if s.cap.div.rises i.adcFreq then c.r else c.g3 := by
  obtain ⟨hcalm, hacts, c', hm', hkept, hr, hhist, hd, hg⟩ :=
    calm_step (i := i) hm h.kept h.calm h.notFull (by omega)
  have hB : B ≤ c.hist.length := Nat.le.intro (h.length hm).symm
  refine ⟨hacts, c', hm', ⟨hf, hkept, ?_, ?_⟩, hr, ?_, hd, hg⟩
  · rw [hhist, List.drop_append_of_le_length hB, h.words]
  · rw [List.length_append]
    split <;> simpa [*] using hcalm
  · rw [hhist, List.length_append]
    split <;> rfl

/-- What is written is what is seen. -/
theorem map_writes (ws : List Sample) (p : Bool) (w : Sample) :
    (ws ++ if p then [w] else []).map ScopeEvent.write =
      ws.map .write ++ if p then [.write w] else [] := by
  rw [List.map_append]
  cases p <;> rfl

/-- Outside `SENDING` `isFull` stays down. -/
theorem notFull_step (hf : s.cap.fifo.isFull = false) (hc : s.cap.fifo.currentState ≠ .sending) :
    (scope.step s i).cap.fifo.isFull = false := by
  cases hr : s.cap.div.rises i.adcFreq with
  | false => rw [(scope_between hr).1, hf]
  | true =>
    rw [(scope_rise hr).1]
    cases ha : s.cap.fifo.currentState with
    | sending => exact absurd ha hc
    | idle | waitTrigger | saving | saveLen => simp [AdcFifoControl.step, ha]

/-- Between two rising edges of `adc_clk` nothing is seen, and nothing changes but the divider. -/
theorem filling_between (h : Filling s c B ws) (hm : s.fifo.Models c)
    (hroom : c.hist.length ≤ c.r + 3001) (hr : s.cap.div.rises i.adcFreq = false) :
    s.acts i = [] ∧ (scope.step s i).cap.fifo = s.cap.fifo ∧
      ∃ c', (scope.step s i).fifo.Models c' ∧ Filling (scope.step s i) c' B ws ∧ c'.r = c.r ∧
        c'.hist.length = c.hist.length ∧ c'.d = c.d ∧ c'.g3 = c.g3 := by
  have hno : s.writes i = false := by simp [Scope.writes, hr]
  have hctl := (scope_between hr).1
  obtain ⟨hacts, c', hm', hfill, hr', hlen, hd, hg⟩ :=
    filling_step h hm hroom (by rw [hctl, h.notFull])
  rw [hno, if_neg Bool.false_ne_true] at hacts hlen
  rw [hno, if_neg Bool.false_ne_true, List.append_nil] at hfill
  rw [hr, if_neg Bool.false_ne_true] at hd hg
  exact ⟨hacts, hctl, c', hm', hfill, hr', hlen, hd, hg⟩

/-- At a rising edge a word is written when `isW` is up. -/
theorem filling_rise (h : Filling s c B ws) (hm : s.fifo.Models c)
    (hroom : c.hist.length ≤ c.r + 3001) (hc : s.cap.fifo.currentState ≠ .sending)
    (hr : s.cap.div.rises i.adcFreq = true) :
    ws.map .write ++ s.acts i =
        (ws ++ if s.cap.fifo.isW then [s.sample i] else []).map .write ∧
      ∃ c', (scope.step s i).fifo.Models c' ∧
        Filling (scope.step s i) c' B (ws ++ if s.cap.fifo.isW then [s.sample i] else []) ∧
        c'.r = c.r ∧ c'.hist.length = c.hist.length + (if s.cap.fifo.isW then 1 else 0) ∧
        c'.d = c.hist.length ∧ c'.g3 = c.r := by
  have hwr : s.writes i = s.cap.fifo.isW := by simp [Scope.writes, hr]
  obtain ⟨hacts, c', hm', hfill, hr', hlen, hd, hg⟩ :=
    filling_step h hm hroom (notFull_step (i := i) h.notFull hc)
  rw [hwr] at hacts hfill hlen
  rw [hr, if_pos rfl] at hd hg
  exact ⟨by rw [hacts, map_writes], c', hm', hfill, hr', hlen, hd, hg⟩

/-- A word written at the next edge of `adc_clk` keeps the chain. -/
theorem tracked_push {l : List Sample} {e : Nat} {w : Sample} (hw : w.edge = e)
    (hchain : l.tail.IsChain fun a b => b.edge = a.edge + 1)
    (hlast : ∀ v ∈ l.tail.getLast?, v.edge + 1 = e) :
    (l ++ [w]).tail.IsChain (fun a b => b.edge = a.edge + 1) ∧
      ∀ v ∈ (l ++ [w]).tail.getLast?, v.edge + 1 = e + 1 := by
  cases l with
  | nil => exact ⟨List.isChain_nil, fun v hv => by cases hv⟩
  | cons a l =>
    rw [List.cons_append, List.tail_cons]
    refine ⟨?_, fun v hv => ?_⟩
    · rw [List.isChain_append]
      refine ⟨hchain, List.isChain_singleton _, fun v hv v' hv' => ?_⟩
      cases hv'
      rw [hw, hlast v hv]
    · rw [List.getLast?_concat] at hv
      cases hv
      rw [hw]

/-- One word has no second one. -/
theorem tracked_short (h : ws.length ≤ 1) : ws.tail = [] :=
  List.eq_nil_of_length_eq_zero (by rw [List.length_tail]; omega)

/-- Between two rising edges of `adc_clk`. -/
theorem tracked_between (h : Tracked s ws) (hr : s.cap.div.rises i.adcFreq = false) :
    Tracked (scope.step s i) ws := by
  obtain ⟨hctl, hedges⟩ := scope_between hr
  exact ⟨h.chain, by rw [hctl, hedges]; exact h.last, by rw [hctl]; exact h.first⟩

/-- A rising edge with `isW` up, or before it has come up. -/
theorem tracked_rise (h : Tracked s ws) (hr : s.cap.div.rises i.adcFreq = true)
    (hon : (scope.step s i).cap.fifo.isW = true) :
    Tracked (scope.step s i) (ws ++ if s.cap.fifo.isW then [s.sample i] else []) := by
  obtain ⟨-, hedges⟩ := scope_rise hr
  refine ⟨?_, fun _ => ?_, fun hoff => by rw [hon] at hoff; cases hoff⟩
  · cases hW : s.cap.fifo.isW with
    | true => exact (tracked_push rfl h.chain (h.last hW)).1
    | false => simpa using h.chain
  · rw [hedges]
    cases hW : s.cap.fifo.isW with
    | true => exact (tracked_push rfl h.chain (h.last hW)).2
    | false =>
      rw [if_neg Bool.false_ne_true, List.append_nil, tracked_short (h.first hW)]
      exact fun v hv => absurd hv (by simp)

/-- A new round, or one for which the trigger has come: few words so far. -/
theorem phase_early {n : FifoState} (h : Filling s c B ws) (hc : s.cap.fifo.currentState = n)
    (hn : n = .idle ∨ n = .waitTrigger ∨ n = .saving) (hoff : s.cap.fifo.isW = false)
    (hst : ws.length ≤ 1) (hlag : c.hist.length ≤ c.g3 + 2998) (hm : s.fifo.Models c) :
    ScopePhase s c 0 (ws.map .write) := by
  obtain ⟨h3, h2, h1, -⟩ := hm.order
  rcases hn with rfl | rfl | rfl
  · exact .waiting B ws h (Or.inl hc) (by rw [hoff]; exact hst) (by rw [hoff]; exact hlag)
  · exact .waiting B ws h (Or.inr hc) (by rw [hoff]; exact hst) (by rw [hoff]; exact hlag)
  · refine .saving B ws h hc (by omega) (fun _ => hlag) (fun hon => ?_) ⟨?_, fun hon => ?_, fun _ => hst⟩
    · rw [hoff] at hon
      cases hon
    · rw [tracked_short hst]
      exact List.isChain_nil
    · rw [hoff] at hon
      cases hon

theorem scope_waiting_step (h : Filling s c B ws) (hm : s.fifo.Models c)
    (hc : s.cap.fifo.currentState = .idle ∨ s.cap.fifo.currentState = .waitTrigger)
    (hst : ws.length + (if s.cap.fifo.isW then 1 else 0) ≤ 1)
    (hlag : c.hist.length + (if s.cap.fifo.isW then 1 else 0) ≤ c.g3 + 2998) :
    ScopeNext s i 0 (ws.map .write) := by
  obtain ⟨h3, h2, h1, -⟩ := hm.order
  have hne : s.cap.fifo.currentState ≠ .sending := by rcases hc with hc | hc <;> simp [hc]
  cases hr : s.cap.div.rises i.adcFreq with
  | false =>
    obtain ⟨hacts, hctl, c', hm', hfill, -, hlen', -, hg'⟩ := filling_between h hm (by omega) hr
    refine .same c' 0 hm' ?_ (Nat.zero_le _)
    rw [hacts, List.append_nil]
    exact .waiting B ws hfill (by rw [hctl]; exact hc) (by rw [hctl]; exact hst)
      (by rw [hctl, hlen', hg']; exact hlag)
  | true =>
    obtain ⟨hacts, c', hm', hfill, -, hlen', -, hg'⟩ := filling_rise h hm (by omega) hne hr
    obtain ⟨hctl, -⟩ := scope_rise hr
    refine .same c' 0 hm' ?_ (Nat.zero_le _)
    rw [hacts]
    refine phase_early hfill rfl ?_ (by rw [hctl]; exact Filled.isW_of_waiting hc) ?_ (by omega) hm'
    · rw [hctl, AdcFifoControl.step_currentState]
      exact Filled.nextState_of_waiting hc
    · rw [List.length_append]
      split <;> simp_all

/-- What the control reads of the fill level. -/
theorem toNat_lenCache (hm : s.fifo.Models c) :
    (s.controlIn i).lenCache.toNat = (c.d - c.g3) % 4096 := by
  rw [Scope.controlIn, BitVec.toNat_setWidth, Dcfifo.toNat_wrusedw hm]
  omega

theorem scope_saving_step (h : Filling s c B ws) (hm : s.fifo.Models c)
    (hc : s.cap.fifo.currentState = .saving) (hlen : c.hist.length ≤ c.r + 3000)
    (hoff : s.cap.fifo.isW = false → c.hist.length ≤ c.g3 + 2998)
    (hon : s.cap.fifo.isW = true → c.g3 = c.r ∧
      (c.hist.length = c.d + 1 ∨ c.hist.length = c.d ∧ ws.length ≤ 1))
    (hw : Tracked s ws) : ScopeNext s i 0 (ws.map .write) := by
  obtain ⟨h3, h2, h1, -, -, -, hd, -, -⟩ := hm.order
  obtain ⟨hknown, -⟩ := h.kept
  have hwords := h.length hm
  have hne : s.cap.fifo.currentState ≠ .sending := by simp [hc]
  cases hr : s.cap.div.rises i.adcFreq with
  | false =>
    obtain ⟨hacts, hctl, c', hm', hfill, hr', hlen', hd', hg'⟩ := filling_between h hm (by omega) hr
    refine .same c' 0 hm' ?_ (Nat.zero_le _)
    rw [hacts, List.append_nil]
    refine .saving B ws hfill (by rw [hctl, hc]) (by omega) ?_ ?_ (tracked_between hw hr)
    · rw [hctl, hlen', hg']
      exact hoff
    · rw [hctl, hlen', hg', hd', hr']
      exact hon
  | true =>
    obtain ⟨hacts, c', hm', hfill, hr', hlen', hd', hg'⟩ := filling_rise h hm (by omega) hne hr
    obtain ⟨hctl, -⟩ := scope_rise hr
    refine .same c' 0 hm' ?_ (Nat.zero_le _)
    rw [hacts]
    have hon' : (scope.step s i).cap.fifo.isW = true := by
      rw [hctl]
      simp [AdcFifoControl.step, hc]
    have htrack := tracked_rise hw hr hon'
    have hlevel := toNat_lenCache (i := i) hm
    have hthr : adcLen - 2#32 < (s.controlIn i).lenCache ↔ 2998 < (c.d - c.g3) % 4096 := by
      rw [BitVec.lt_def, hlevel]
      rfl
    have hnext : (scope.step s i).cap.fifo.currentState =
        if 2998 < (c.d - c.g3) % 4096 then .saveLen else .saving := by
      rw [hctl, AdcFifoControl.step_currentState, AdcFifoControl.nextState, hc]
      simp only [hthr]
    cases hW : s.cap.fifo.isW with
    | false =>
      have hlow := hoff hW
      have hshort := hw.first hW
      rw [hW, if_neg Bool.false_ne_true] at hlen'
      rw [hW, if_neg Bool.false_ne_true, List.append_nil] at hfill htrack
      rw [if_neg (by omega)] at hnext
      rw [if_neg Bool.false_ne_true, List.append_nil]
      exact .saving B ws hfill hnext (by omega) (fun e => by rw [hon'] at e; cases e)
        (fun _ => ⟨by omega, Or.inr ⟨by omega, hshort⟩⟩) htrack
    | true =>
      obtain ⟨hg, hshown⟩ := hon hW
      rw [hW, if_pos rfl] at hlen' hfill htrack
      rw [if_pos rfl]
      by_cases hend : 2998 < (c.d - c.g3) % 4096
      · -- the threshold; one more word is written at this edge, and one at the next
        rw [if_pos hend] at hnext
        exact .saveLen B _ hfill hnext (by omega) (by omega) (by omega) hon' htrack
      · rw [if_neg hend] at hnext
        exact .saving B _ hfill hnext (by omega) (fun e => by rw [hon'] at e; cases e)
          (fun _ => ⟨by omega, Or.inl (by omega)⟩) htrack

end Filling

/-- The next phase of the divider, whatever the divisor: closer to its rising edge, or past it. -/
theorem wait_nearer {d : DivC} {f : BitVec 16} (hfreq : f.toNat ≤ 499) (h : d.rises f = false) :
    (d.step f).wait slowest < d.wait slowest := by
  have hslow : slowest.toNat = 499 := rfl
  unfold DivC.rises at h
  unfold DivC.wait
  by_cases hle : f ≤ d.cnt
  · cases hc : d.clkDiv with
    | false => simp [DivC.step, hle, hc] at h
    | true =>
      simp only [DivC.step, if_pos hle, hc, Bool.not_true, hslow]
      simp
  · have hlt := hle
    rw [BitVec.le_def] at hlt
    have hstep : d.step f = ⟨d.cnt + 1#16, d.clkDiv⟩ := if_neg hle
    rw [hstep, DivC.cnt_succ hle, hslow]
    show _ + (if d.clkDiv = true then _ else _) < _
    omega

theorem scope_wait {s : Scope} {i : ScopeIn} (hfreq : i.adcFreq.toNat ≤ 499) :
    (scope.step s i).wait < 1000 ∧
      (s.cap.div.rises i.adcFreq = false → (scope.step s i).wait < s.wait) :=
  ⟨DivC.wait_lt, wait_nearer hfreq⟩

/-- When `SAVE_LEN` is reached, the sender is back in `IDLE`. -/
theorem saveLen_idle {s : Scope} {i : ScopeIn} {c : Crossing Sample} {B : Nat} {ws : List Sample}
    (h : Filling s c B ws) (hm : s.fifo.Models c) (hlen : c.hist.length = c.r + 3001) :
    (s.tx' i).currentState = .idle := by
  have hknown := h.kept.known
  have hwords := h.length hm
  have hidle : s.cap.tx.currentState = .idle := by
    rcases h.calm.tx with hs | ⟨-, hle, hpace⟩
    · exact hs
    · omega
  rcases (calm_tx (i := i) h.calm h.notFull).2 with hs | ⟨hs, -⟩
  · exact hs
  · rw [hidle] at hs
    cases hs

/-- **`SAVE_LEN` records 3000 and writes the last word.** The sender is back in `IDLE` by then. -/
theorem scope_saveLen_step {s : Scope} {i : ScopeIn} {c : Crossing Sample} {B : Nat}
    {ws : List Sample} (h : Filling s c B ws) (hm : s.fifo.Models c)
    (hc : s.cap.fifo.currentState = .saveLen) (hlen : c.hist.length = c.r + 3001)
    (hd : c.d = c.r + 3000) (hg : c.g3 = c.r) (hon : s.cap.fifo.isW = true) (hw : Tracked s ws) :
    ScopeNext s i 0 (ws.map .write) := by
  obtain ⟨hknown, -⟩ := h.kept
  have hwords := h.length hm
  have hne : s.cap.fifo.currentState ≠ .sending := by simp [hc]
  cases hr : s.cap.div.rises i.adcFreq with
  | false =>
    obtain ⟨hacts, hctl, c', hm', hfill, hr', hlen', hd', hg'⟩ := filling_between h hm (by omega) hr
    refine .same c' 0 hm' ?_ (Nat.zero_le _)
    rw [hacts, List.append_nil]
    exact .saveLen B ws hfill (by rw [hctl, hc]) (by omega) (by omega) (by omega)
      (by rw [hctl, hon]) (tracked_between hw hr)
  | true =>
    obtain ⟨hacts, c', hm', hfill, hr', hlen', hd', hg'⟩ := filling_rise h hm (by omega) hne hr
    obtain ⟨hctl, -⟩ := scope_rise hr
    rw [hon, if_pos rfl] at hacts hlen' hfill
    refine .same c' 0 hm' ?_ (Nat.zero_le _)
    rw [hacts]
    have hlevel : (s.controlIn i).lenCache = adcLen := by
      refine BitVec.eq_of_toNat_eq ?_
      rw [toNat_lenCache hm, hd, hg]
      show _ = 3000
      omega
    have hcap : Captured (ws ++ [s.sample i]) :=
      ⟨by rw [List.length_append, List.length_singleton]; omega,
        (tracked_push rfl hw.chain (hw.last hon)).1⟩
    have hwait : (scope.step s i).wait < 1000 := DivC.wait_lt
    have hg1 := hfill.kept.g1
    have hheld : Held (scope.step s i) c' (ws ++ [s.sample i]) 0 := by
      refine ⟨?_, ?_, ?_, hcap, (fun e => by rw [hfill.notFull] at e; cases e), by omega,
        c'.r, B, hfill.words, by omega, ?_⟩
      · rw [hctl, AdcFifoControl.step_currentState]
        simp [AdcFifoControl.nextState, hc]
      · rw [hctl]
        simp [AdcFifoControl.step, hc]
      · rw [hctl]
        simp [AdcFifoControl.step, hc, hlevel]
      · exact .start hfill.kept.s1 hfill.kept.s2 rfl hfill.kept.known (by omega)
    have hphase := ScopePhase.offered _ 0 0 [] hheld .none (saveLen_idle h hm hlen)
      hfill.calm.rClk
    rwa [List.append_nil] at hphase

/-! ## 4. While a capture is sent -/

section Held

open FPGA2AR9331

variable {s : Scope} {i : ScopeIn} {c : Crossing Sample} {ws : List Sample} {k j : Nat}
  {l : List ScopeEvent}

theorem not_isWait {t : FPGA2AR9331} (h : t.currentState ≠ .delay3) : t.isWait = false := by
  rw [isWait, beq_eq_false_iff_ne]
  exact h

/-- Nothing is written while `isW` is down. -/
theorem acts_of_off (hoff : s.cap.fifo.isW = false) : s.acts i =
    (if s.cap.tx.currentState = .idle ∧ (s.tx' i).currentState ≠ .idle then [.leave] else []) ++
      (if s.cap.tx.currentState = .sendIng2 then (s.tx' i).dataOut.toList.map .sent else []) := by
  simp [Scope.acts, WrSide.validWrreq, hoff]

/-- A reset shows nothing. -/
theorem acts_reset (hen : i.adcEnU = false) (hoff : s.cap.fifo.isW = false) : s.acts i = [] := by
  obtain ⟨hidle, -, hdata⟩ := scope_off (s := s) hen
  rw [acts_of_off hoff, hidle, hdata]
  simp

/-- What an edge does to the FIFO while `isW` is down. -/
theorem fifo_off (hm : s.fifo.Models c) (hoff : s.cap.fifo.isW = false) :
    ∃ i' : CrossingIn Sample, (scope.step s i).fifo.Models (c.step 4096 i') ∧
      i'.rdclk = decide (rClkRises s.cap.tx (s.tx' i)) ∧ i'.rdreq = s.cap.fifo.isFull ∧
      i'.wrclk = s.cap.div.rises i.adcFreq ∧ c.pushes 4096 i' = false := by
  obtain ⟨newRd, newWr, hm'⟩ := Dcfifo.models_step hm (s.fifoIn i)
  refine ⟨_, hm', rfl, rfl, rfl, ?_⟩
  have hreq : ((s.fifoIn i).crossing newRd newWr).wrreq = false := hoff
  simp only [Crossing.pushes, hreq, Bool.and_false, Bool.false_and]

/-- In `SENDING` nothing is written, and the control stays there until it reads `clear`. -/
theorem sending_step (hc : s.cap.fifo.currentState = .sending) (hoff : s.cap.fifo.isW = false)
    (hclear : s.cap.div.rises i.adcFreq = true → (s.tx' i).isWait = false) :
    (scope.step s i).cap.fifo.currentState = .sending ∧
      (scope.step s i).cap.fifo.isW = false ∧
      (scope.step s i).cap.fifo.len = s.cap.fifo.len ∧
      (s.cap.fifo.isFull = true → (scope.step s i).cap.fifo.isFull = true) ∧
      (s.cap.div.rises i.adcFreq = false →
        (scope.step s i).cap.fifo.isFull = s.cap.fifo.isFull) := by
  cases hr : s.cap.div.rises i.adcFreq with
  | false =>
    rw [(scope_between hr).1]
    exact ⟨hc, hoff, rfl, id, fun _ => rfl⟩
  | true =>
    have hno := hclear hr
    rw [(scope_rise hr).1, AdcFifoControl.step_currentState]
    refine ⟨?_, ?_, ?_, fun _ => ?_, fun e => by cases e⟩ <;>
      simp [AdcFifoControl.step, AdcFifoControl.nextState, Scope.controlIn, hc, hno]

/-- **One edge while a capture is held**: a rising edge of `r_clk` is one more read. -/
theorem held_step (hfreq : i.adcFreq.toNat ≤ 499) (h : Held s c ws k) (hm : s.fifo.Models c)
    (hclear : s.cap.div.rises i.adcFreq = true → (s.tx' i).isWait = false)
    (hfull : rClkRises s.cap.tx (s.tx' i) → s.cap.fifo.isFull = true) :
    ∃ c', (scope.step s i).fifo.Models c' ∧
      Held (scope.step s i) c' ws (k + if rClkRises s.cap.tx (s.tx' i) then 1 else 0) ∧
      (s.cap.fifo.isFull = true → (scope.step s i).cap.fifo.isFull = true) := by
  obtain ⟨hc', hoff', hlen', hkeep, hsame⟩ := sending_step h.control h.off hclear
  obtain ⟨i', hm', hrd, hreq, hwr, hno⟩ := fifo_off (i := i) hm h.off
  obtain ⟨R, B, hws, htotal, hdr⟩ := h.drained
  obtain ⟨hwait, hnearer⟩ := scope_wait (s := s) hfreq
  obtain ⟨hgrow, -, hseen, -⟩ := @Crossing.counts_step Sample 4096 c i'
  have hhist : (c.step 4096 i').hist = c.hist := by
    simp only [Crossing.step, hno, Bool.false_eq_true, if_false]
  have hd : (c.step 4096 i').d = if s.cap.div.rises i.adcFreq then c.hist.length else c.d := by
    simp only [Crossing.step, hwr]
  have hone : (c.step 4096 i').r ≤ c.r + 1 := by
    simp only [Crossing.step]
    split <;> omega
  refine ⟨_, hm', ⟨hc', hoff', hlen'.trans h.len, h.captured, fun hf => ?_, ?_,
    R, B, by rw [hhist, hws], by rw [hhist, htotal], ?_⟩, hkeep⟩
  · rw [hd, hhist]
    cases hr : s.cap.div.rises i.adcFreq with
    | true => rfl
    | false => exact h.shown (by rw [← hsame hr, hf])
  · -- what the writer knows is older by one edge at the most, at which one word is read
    have hlag := h.lag
    cases hr : s.cap.div.rises i.adcFreq with
    | true =>
      rw [hr] at hwr
      have hold := hseen hwr
      omega
    | false =>
      rw [hr] at hwr
      have hless := hnearer hr
      have hg1 : (c.step 4096 i').g1 = c.g1 := by
        simp only [Crossing.step, hwr, Bool.false_eq_true, if_false]
      omega
  · by_cases hrises : rClkRises s.cap.tx (s.tx' i)
    · rw [if_pos hrises]
      exact hdr.pull (hrd.trans (decide_eq_true hrises)) (hreq.trans (hfull hrises)) hno
        (h.shown (hfull hrises))
    · rw [if_neg hrises]
      exact hdr.hold (hrd.trans (decide_eq_false hrises)) hno

/-- A reset leaves the capture where it is. -/
theorem held_reset (hfreq : i.adcFreq.toNat ≤ 499) (hen : i.adcEnU = false) (h : Held s c ws k)
    (hl : Tries ws k j l) (hm : s.fifo.Models c) :
    ∃ c', (scope.step s i).fifo.Models c' ∧
      ScopePhase (scope.step s i) c' j (ws.map .write ++ l) := by
  obtain ⟨hidle, hclk, -⟩ := scope_off (s := s) hen
  have hno := not_rises_of_low (t := s.cap.tx) hclk
  obtain ⟨c', hm', hheld, -⟩ := held_step hfreq h hm
    (fun _ => not_isWait (by rw [hidle]; decide)) fun hr => absurd hr hno
  rw [if_neg hno, Nat.add_zero] at hheld
  exact ⟨c', hm', .offered ws k j l hheld hl hidle hclk⟩

/-- **A capture is offered**, for the first time or after a frame that was cut. -/
theorem scope_offered_step (hfreq : i.adcFreq.toNat ≤ 499) (h : Held s c ws k)
    (hl : Tries ws k j l) (hm : s.fifo.Models c) (ht : s.cap.tx.currentState = .idle)
    (hr : s.cap.tx.rClk = false) : ScopeNext s i j (ws.map .write ++ l) := by
  cases hen : i.adcEnU with
  | false =>
    obtain ⟨c', hm', hphase⟩ := held_reset hfreq hen h hl hm
    refine .same c' j hm' ?_ (Nat.le_add_right _ _)
    rw [acts_reset hen h.off, List.append_nil]
    exact hphase
  | true =>
    have hnext : (s.tx' i).currentState =
        if s.cap.fifo.isFull then .sendStartSave else .idle := by
      simp [tx'_eq, nextState, Scope.txIn, ht, hen]
    have hclk : (s.tx' i).rClk = false := by
      simp [tx'_eq, step, output, Scope.txIn, ht, hr, hen]
    have hno := not_rises_of_low (t := s.cap.tx) hclk
    have hclear : (s.tx' i).isWait = false := not_isWait (by rw [hnext]; split <;> decide)
    obtain ⟨c', hm', hheld, hkeep⟩ := held_step hfreq h hm (fun _ => hclear) fun hr => absurd hr hno
    rw [if_neg hno, Nat.add_zero] at hheld
    have hacts := acts_of_off (i := i) h.off
    have hne2 : s.cap.tx.currentState ≠ .sendIng2 := by simp [ht]
    rw [if_neg hne2, List.append_nil] at hacts
    refine .same c' j hm' ?_ (Nat.le_add_right _ _)
    cases hfull : s.cap.fifo.isFull with
    | false =>
      rw [hfull] at hnext
      rw [hacts, if_neg fun e => e.2 hnext, List.append_nil]
      exact .offered ws k j l hheld hl hnext hclk
    | true =>
      rw [hfull] at hnext
      rw [hacts, if_pos ⟨ht, by simp [hnext]⟩]
      exact .frame ws k j 0 0 l hheld hl (hkeep hfull) (.save hnext hclk rfl rfl)

/-- What a frame that is cut has read. -/
theorem sends_cut {N n m : Nat} {t : FPGA2AR9331} (h : Sends N n m t) :
    n ≤ N ∧ n ≤ m ∧ m ≤ n + 3 := by
  cases h <;> omega

/-- The byte that is sent after `n` others is the word that the FIFO shows. -/
theorem frameFrom_succ {n : Nat} (h : Held s c ws (k + (n + 3))) (hm : s.fifo.Models c) :
    frameFrom ws k (n + 1) = frameFrom ws k n ++ [.sent s.fifo.rd.q.data] := by
  obtain ⟨R, B, hws, -, hdr⟩ := h.drained
  rw [frameFrom, hdr.shown_succ hws, List.map_append, hm.q]
  rfl

/-- **The edge at which the control reads `clear`**: the reader has seen all that there is. -/
theorem held_over (h : Held s c ws k) (hm : s.fifo.Models c) (hk : 3002 ≤ k)
    (hrise : s.cap.div.rises i.adcFreq = true) (hdelay : (s.tx' i).currentState = .delay3)
    (hno : ¬ rClkRises s.cap.tx (s.tx' i)) : ∃ c', (scope.step s i).fifo.Models c' ∧ Over c' ∧
      (scope.step s i).cap.fifo.currentState = .idle ∧ (scope.step s i).cap.fifo.isW = false := by
  obtain ⟨i', hm', hrd, -, hwr, hpush⟩ := fifo_off (i := i) hm h.off
  obtain ⟨R, B, -, htotal, hdr⟩ := h.drained
  obtain ⟨hs1, hs2, hleft⟩ := hdr.left (by omega) (by omega)
  have hlag := h.lag
  have hr := hm'.order
  have hyes : (s.tx' i).isWait = true := by
    rw [isWait, beq_iff_eq]
    exact hdelay
  rw [decide_eq_false hno] at hrd
  rw [hrise] at hwr
  have hpop := Crossing.pops_of_not (c := c) hrd
  have hhist : (c.step 4096 i').hist = c.hist := by
    simp only [Crossing.step, hpush, Bool.false_eq_true, if_false]
  have hr' : (c.step 4096 i').r = c.r := by
    simp only [Crossing.step, hpop, Bool.false_eq_true, if_false]
  refine ⟨_, hm', ⟨?_, ?_, ?_, ?_, ?_⟩, ?_, ?_⟩
  · simpa only [Crossing.step, hrd, hpush, Bool.false_eq_true, if_false] using hs1
  · simpa only [Crossing.step, hrd, hpush, Bool.false_eq_true, if_false] using hs2
  · rw [hr', hhist]
    exact ⟨hm.order.r.trans hs2.le, hleft⟩
  · simp only [Crossing.step, hwr, hpop, Bool.false_and, Bool.false_eq_true, if_false, if_true]
  · simp only [Crossing.step, hwr, hpop, Bool.false_eq_true, if_false, if_true]
    omega
  · rw [(scope_rise hrise).1, AdcFifoControl.step_currentState]
    simp [AdcFifoControl.nextState, h.control, Scope.controlIn, hyes]
  · rw [(scope_rise hrise).1]
    simp [AdcFifoControl.step, h.control]

/-- **One edge of a frame**, a reset included. -/
theorem scope_frame_step {n m : Nat} (hfreq : i.adcFreq.toNat ≤ 499)
    (hcount : s.cap.tx.CounterClear) (h : Held s c ws (k + m)) (hl : Tries ws k j l)
    (hm : s.fifo.Models c) (hf : s.cap.fifo.isFull = true) (ht : Sends 3000 n m s.cap.tx) :
    ScopeNext s i j (ws.map .write ++ l ++ frameFrom ws k n) := by
  obtain ⟨hidle, hdelay⟩ := sends_ne ht
  cases hen : i.adcEnU with
  | false =>
    -- the frame is cut
    obtain ⟨hnm, hmn, hmn'⟩ := sends_cut ht
    obtain ⟨c', hm', hphase⟩ := held_reset hfreq hen h (hl.cut n m hnm ⟨hmn, hmn'⟩) hm
    refine .same c' (j + 1) hm' ?_ (by rw [resets_out, if_pos ⟨hen, hidle⟩])
    rw [acts_reset hen h.off, List.append_nil, List.append_assoc]
    exact hphase
  | true =>
    have hlenIn : (s.txIn i).lenIn.toNat = 3000 := by
      rw [Scope.txIn, h.len]
      rfl
    have hacts := acts_of_off (i := i) h.off
    rw [if_neg fun e => hidle e.1, List.nil_append] at hacts
    rcases sends_step (i := s.txIn i) hen hlenIn (by omega) ht with
      hgo | ⟨hend, hclk, hne2, hno, hn, hk⟩
    · -- it goes on
      obtain ⟨-, hdelay'⟩ := sends_ne hgo
      obtain ⟨c', hm', hheld, hkeep⟩ :=
        held_step hfreq h hm (fun _ => not_isWait hdelay') fun _ => hf
      refine .same c' j hm' ?_ (Nat.le_add_right _ _)
      have hreads : k + m + (if rClkRises s.cap.tx (s.tx' i) then 1 else 0) =
          k + if rClkRises s.cap.tx (s.tx' i) then m + 1 else m := by
        split <;> omega
      rw [hreads] at hheld
      have hframe : ScopePhase (scope.step s i) c' j _ :=
        .frame ws k j _ _ l hheld hl (hkeep hf) hgo
      by_cases h2 : s.cap.tx.currentState = .sendIng2
      · -- a byte is sent: the word shown after the reads so far
        obtain ⟨-, hk, hdata⟩ := sends_load (i := s.txIn i) hen ht h2
        subst hk
        rw [if_pos h2, frameFrom_succ h hm, ← List.append_assoc] at hframe
        have hbyte : (s.tx' i).dataOut = some s.fifo.rd.q.data := hdata
        rw [hacts, if_pos h2, hbyte]
        exact hframe
      · rw [if_neg h2] at hframe
        rw [hacts, if_neg h2, List.append_nil]
        exact hframe
    · -- it is over
      subst hn
      subst hk
      have hzero : (s.tx' i).delayCounter.toNat = 0 := by
        have hsending : s.cap.tx.Sending := by
          refine ⟨hidle, fun hs => ?_, hdelay⟩
          cases ht <;> simp_all
        rw [tx'_eq, delayCounter_sending hen hsending, hcount hsending]
        rfl
      obtain ⟨hwait, -⟩ := scope_wait (s := s) hfreq
      rw [if_neg hne2] at hacts
      cases hrise : s.cap.div.rises i.adcFreq with
      | false =>
        obtain ⟨c', hm', hheld, hkeep⟩ :=
          held_step hfreq h hm (fun e => by rw [hrise] at e; cases e) fun hr => absurd hr hno
        rw [if_neg (show ¬ rClkRises s.cap.tx (s.tx' i) from hno), Nat.add_zero] at hheld
        refine .same c' j hm' ?_ (Nat.le_add_right _ _)
        rw [hacts, List.append_nil]
        exact .clearing ws k j l hheld hl (hkeep hf) hend hclk
          (by rw [scope_step_tx, hzero]; omega)
      | true =>
        obtain ⟨c', hm', hover, hc', hoff'⟩ := held_over h hm (by omega) hrise hend hno
        refine .same c' j hm' ?_ (Nat.le_add_right _ _)
        rw [hacts, List.append_nil]
        exact .spent j _ (.mk ws k l h.captured hl) hc' hoff' hover hclk
          (Or.inl ⟨hend, low_on hen, by rw [scope_step_tx, hzero]; omega⟩)

/-! ## 5. After a frame -/

/-- The sender in the delay, short of its end. -/
theorem delay_tx (hen : i.adcEnU = true) (ht : s.cap.tx.currentState = .delay3)
    (hr : s.cap.tx.rClk = false) (hlt : s.cap.tx.delayCounter.toNat < 2000) :
    (s.tx' i).currentState = .delay3 ∧ (s.tx' i).rClk = false ∧
      (s.tx' i).delayCounter.toNat = s.cap.tx.delayCounter.toNat + 1 := by
  have hnot : ¬ delayLen ≤ s.cap.tx.delayCounter := by
    rw [BitVec.le_def]
    show ¬ 2000 ≤ _
    omega
  refine ⟨?_, ?_, ?_⟩
  · simp [tx'_eq, nextState, Scope.txIn, ht, hen, hnot]
  · simp [tx'_eq, step, output, Scope.txIn, ht, hr, hen]
  · rw [tx'_eq, delayCounter_delay3 hen ht, BitVec.toNat_add, BitVec.toNat_ofNat]
    omega

/-- **Before the control has read `clear`**: it does, unless a reset takes it away; then the capture
    is offered once more. -/
theorem scope_clearing_step (hfreq : i.adcFreq.toNat ≤ 499) (h : Held s c ws (k + 3002))
    (hl : Tries ws k j l) (hm : s.fifo.Models c) (hf : s.cap.fifo.isFull = true)
    (ht : s.cap.tx.currentState = .delay3) (hr : s.cap.tx.rClk = false)
    (hclk : s.cap.tx.delayCounter.toNat + s.wait < 1000) :
    ScopeNext s i j (ws.map .write ++ l ++ frameFrom ws k 3000) := by
  obtain ⟨hwait, hnearer⟩ := scope_wait (s := s) hfreq
  cases hen : i.adcEnU with
  | false =>
    obtain ⟨c', hm', hphase⟩ := held_reset hfreq hen h (hl.cut 3000 3002 (by omega) (by omega)) hm
    refine .same c' (j + 1) hm' ?_ (by rw [resets_out, if_pos ⟨hen, by simp [ht]⟩])
    rw [acts_reset hen h.off, List.append_nil, List.append_assoc]
    exact hphase
  | true =>
    obtain ⟨hstay, hclk', hinc⟩ := delay_tx hen ht hr (by omega)
    have hno := not_rises_of_low (t := s.cap.tx) hclk'
    have hacts : s.acts i = [] := by
      rw [acts_of_off h.off]
      simp [ht]
    cases hrise : s.cap.div.rises i.adcFreq with
    | false =>
      have hless := hnearer hrise
      obtain ⟨c', hm', hheld, hkeep⟩ :=
        held_step hfreq h hm (fun e => by rw [hrise] at e; cases e) fun hr => absurd hr hno
      rw [if_neg hno, Nat.add_zero] at hheld
      refine .same c' j hm' ?_ (Nat.le_add_right _ _)
      rw [hacts, List.append_nil]
      exact .clearing ws k j l hheld hl (hkeep hf) hstay hclk'
        (by rw [scope_step_tx, hinc]; omega)
    | true =>
      obtain ⟨c', hm', hover, hc', hoff'⟩ := held_over h hm (by omega) hrise hstay hno
      refine .same c' j hm' ?_ (Nat.le_add_right _ _)
      rw [hacts, List.append_nil]
      exact .spent j _ (.mk ws k l h.captured hl) hc' hoff' hover hclk'
        (Or.inl ⟨hstay, low_on hen, by rw [scope_step_tx, hinc]; omega⟩)

/-- Nothing is read or written any more. -/
theorem over_hold (ho : Over c) {i' : CrossingIn Sample} (hrd : i'.rdclk = false)
    (hwr : i'.wrclk = false) : Over (c.step 4096 i') := by
  obtain ⟨hs1, hs2, hr, hg1, hg2⟩ := ho
  have hpop := Crossing.pops_of_not (c := c) hrd
  constructor <;>
    simpa only [Crossing.step, Crossing.pushes, hpop, hrd, hwr, Bool.false_and, Bool.false_eq_true,
      if_false]

/-- **A new capture**: back in `IDLE`, the control drops `isFull`. -/
theorem scope_drop (hm : s.fifo.Models c) (hc : s.cap.fifo.currentState = .idle)
    (hoff : s.cap.fifo.isW = false) (ho : Over c) (hrise : s.cap.div.rises i.adcFreq = true)
    (hclk : (s.tx' i).rClk = false)
    (ht : (s.tx' i).currentState = .idle ∨
      (s.tx' i).currentState = .delay3 ∧ (s.tx' i).delayCounter.toNat ≤ 2000) :
    ∃ c', (scope.step s i).fifo.Models c' ∧ ScopePhase (scope.step s i) c' 0 [] := by
  obtain ⟨i', hm', hrd, -, hwr, hpush⟩ := fifo_off (i := i) hm hoff
  rw [decide_eq_false (not_rises_of_low hclk)] at hrd
  obtain ⟨hkept, hhist, hg3⟩ := Crossing.Kept.start ho.s1 ho.s2 ho.r ho.g1 hrd (hwr.trans hrise) hpush
  obtain ⟨hctl, -⟩ := scope_rise hrise
  have hlow : (scope.step s i).cap.div.clkDiv = true := (rises_clkDiv hrise).2
  have hfill : Filling (scope.step s i) (c.step 4096 i') c.hist.length [] := by
    refine ⟨?_, hkept, by rw [hhist, List.drop_length], hclk, ht.imp_right fun hd => ⟨hd.1, hd.2, ?_⟩⟩
    · rw [hctl]
      simp [AdcFifoControl.step, hc]
    · rw [hlow, if_pos rfl]
      exact Nat.zero_le _
  refine ⟨_, hm', phase_early hfill rfl ?_ ?_ (Nat.zero_le 1) ?_ hm'⟩
  · rw [hctl, AdcFifoControl.step_currentState]
    exact Filled.nextState_of_waiting (Or.inl hc)
  · rw [hctl]
    exact Filled.isW_of_waiting (Or.inl hc)
  · have hr := ho.r
    have hg2 := ho.g2
    rw [hhist, hg3]
    omega

/-- **After `clear`**: the control drops `isFull` before the delay is over, and before a reset is. -/
theorem scope_spent_step {part : List ScopeEvent} (hfreq : i.adcFreq.toNat ≤ 499)
    (hdwell : i.adcEnU = true → s.low = 0 ∨ 1001 ≤ s.low) (hm : s.fifo.Models c)
    (h : Round j part) (hc : s.cap.fifo.currentState = .idle) (hoff : s.cap.fifo.isW = false)
    (ho : Over c) (hr : s.cap.tx.rClk = false)
    (ht : s.cap.tx.currentState = .delay3 ∧ s.low = 0 ∧
        s.cap.tx.delayCounter.toNat + s.wait < 2000 ∨
      s.cap.tx.currentState = .idle ∧ 1 ≤ s.low ∧ s.low + s.wait ≤ 1000) :
    ScopeNext s i j part := by
  obtain ⟨hwait, hnearer⟩ := scope_wait (s := s) hfreq
  -- where the sender is after the edge
  have htx : (s.tx' i).rClk = false ∧ ((s.tx' i).currentState = .delay3 ∧
        (scope.step s i).low = 0 ∧
        (s.tx' i).delayCounter.toNat = s.cap.tx.delayCounter.toNat + 1 ∧
        s.cap.tx.delayCounter.toNat + s.wait < 2000 ∧ s.cap.tx.currentState = .delay3 ∨
      (s.tx' i).currentState = .idle ∧ (scope.step s i).low = s.low + 1 ∧ s.low + s.wait ≤ 1000) := by
    rcases ht with ⟨hd, hlow, hlt⟩ | ⟨hidle, hlow, hle⟩
    · cases hen : i.adcEnU with
      | true =>
        obtain ⟨hstay, hclk, hinc⟩ := delay_tx hen hd hr (by omega)
        exact ⟨hclk, Or.inl ⟨hstay, low_on hen, hinc, hlt, hd⟩⟩
      | false =>
        obtain ⟨hidle, hclk, -⟩ := scope_off (s := s) hen
        have hwait' : s.wait < 1000 := DivC.wait_lt
        exact ⟨hclk, Or.inr ⟨hidle, by simp [scope, Scope.step, hen, hd], by omega⟩⟩
    · cases hen : i.adcEnU with
      | true => rcases hdwell hen with h0 | h1 <;> omega
      | false =>
        obtain ⟨hidle', hclk, -⟩ := scope_off (s := s) hen
        have hpos : 0 < s.low := hlow
        exact ⟨hclk, Or.inr ⟨hidle', by simp [scope, Scope.step, hen, hpos], hle⟩⟩
  obtain ⟨hclk, htx⟩ := htx
  have hacts : s.acts i = [] := by
    rw [acts_of_off hoff]
    rcases htx with ⟨-, -, -, -, hd⟩ | ⟨hidle', -⟩
    · simp [hd]
    · rcases ht with ⟨hd, -⟩ | ⟨hidle, -⟩
      · simp [hd]
      · simp [hidle, hidle']
  cases hrise : s.cap.div.rises i.adcFreq with
  | true =>
    obtain ⟨c', hm', hphase⟩ := scope_drop hm hc hoff ho hrise hclk
      (htx.symm.imp (fun h => h.1) fun h => ⟨h.1, by omega⟩)
    exact .ended c' h hm' hphase hacts
  | false =>
    have hless := hnearer hrise
    obtain ⟨i', hm', hrd, -, hwr, -⟩ := fifo_off (i := i) hm hoff
    rw [decide_eq_false (not_rises_of_low hclk)] at hrd
    obtain ⟨hctl, -⟩ := scope_between hrise
    refine .same _ j hm' ?_ (Nat.le_add_right _ _)
    rw [hacts, List.append_nil]
    refine .spent j part h (by rw [hctl, hc]) (by rw [hctl, hoff])
      (over_hold ho hrd (hwr.trans hrise)) hclk ?_
    rcases htx with ⟨hd, hlow, hinc, hlt, -⟩ | ⟨hidle, hlow, hle⟩
    · exact Or.inl ⟨hd, hlow, by rw [scope_step_tx, hinc]; omega⟩
    · exact Or.inr ⟨hidle, by omega, by omega⟩

end Held

/-! ## 6. Every run -/

/-- What the path needs: a divisor up to 499, and that a reset which finds the sender outside `IDLE`
    lasts for 1001 edges. -/
def Scope.Allows (s : Scope) (i : ScopeIn) : Prop :=
  i.adcFreq.toNat ≤ 499 ∧ (i.adcEnU = true → s.low = 0 ∨ 1001 ≤ s.low)

/-- What has been seen are whole rounds and the part of one that is under way; no more frames have
    been cut than there were resets. -/
structure ScopeInv (s : Scope) (l : List ScopeEvent) : Prop where
  clear : s.cap.tx.CounterClear
  rounds : ∃ (rounds : List (Nat × List ScopeEvent)) (part : List ScopeEvent) (j : Nat)
    (c : Crossing Sample), (∀ r ∈ rounds, Round r.1 r.2) ∧
      seen l = rounds.flatMap Prod.snd ++ part ∧ s.fifo.Models c ∧ ScopePhase s c j part ∧
      (rounds.map Prod.fst).sum + j ≤ resets l

section Run

variable {s : Scope} {i : ScopeIn} {l part : List ScopeEvent} {c : Crossing Sample} {j : Nat}

/-- **One edge**, by the phase it finds. -/
theorem scopePhase_step (ha : s.Allows i) (hcount : s.cap.tx.CounterClear) (hm : s.fifo.Models c)
    (h : ScopePhase s c j part) : ScopeNext s i j part := by
  cases h with
  | waiting B ws h hc hst hlag => exact scope_waiting_step h hm hc hst hlag
  | saving B ws h hc hlen hoff hon hw => exact scope_saving_step h hm hc hlen hoff hon hw
  | saveLen B ws h hc hlen hd hg hon hw => exact scope_saveLen_step h hm hc hlen hd hg hon hw
  | offered ws k j l h hl ht hr => exact scope_offered_step ha.1 h hl hm ht hr
  | frame ws k j n m l h hl hf ht => exact scope_frame_step ha.1 hcount h hl hm hf ht
  | clearing ws k j l h hl hf ht hr hclk => exact scope_clearing_step ha.1 h hl hm hf ht hr hclk
  | spent j part h hc hoff ho hr ht => exact scope_spent_step ha.1 ha.2 hm h hc hoff ho hr ht

theorem scope_counterClear (h : s.cap.tx.CounterClear) :
    (scope.step s i).cap.tx.CounterClear := by
  cases hen : i.adcEnU with
  | true => exact FPGA2AR9331.counterClear_step hen h
  | false => exact fun hs => absurd (scope_off (s := s) hen).1 hs.1

theorem scopeInv_step (ha : s.Allows i) (h : ScopeInv s l) :
    ScopeInv (scope.step s i) (l ++ scope.out s i) where
  clear := scope_counterClear h.clear
  rounds := by
    obtain ⟨rounds, part, j, c, hall, hl, hm, hphase, hcount⟩ := h.rounds
    rw [seen_append, resets_append, seen_out, hl]
    cases scopePhase_step ha h.clear hm hphase with
    | same c' j' hm' h' hj =>
      exact ⟨rounds, _, j', c', hall, List.append_assoc _ _ _, hm', h', by omega⟩
    | ended c' hr hm' h' hacts =>
      refine ⟨rounds ++ [(j, part)], [], 0, c', ?_, by simp [hacts], hm', h', ?_⟩
      · intro r hmem
        rcases List.mem_append.mp hmem with hmem | hmem
        · exact hall r hmem
        · rw [List.mem_singleton.mp hmem]
          exact hr
      · rw [List.map_append, List.sum_append]
        simp
        omega

theorem scopeInv_powerUp (h : s.PowerUp) : ScopeInv s [] := by
  have hfifo := h.cap.fifo
  have hm := Dcfifo.models_powerUp h.fifo
  have hkept : (Dcfifo.none s.fifo.rd.q).Kept 0 := ⟨⟨Nat.le_refl 0, Nat.zero_le 2⟩, rfl, rfl, rfl, rfl⟩
  have hfill : Filling s (Dcfifo.none s.fifo.rd.q) 0 [] :=
    ⟨by rw [hfifo]; rfl, hkept, rfl, h.rClk, Or.inl h.cap.tx⟩
  have hphase : ScopePhase s (Dcfifo.none s.fifo.rd.q) 0 (([] : List Sample).map .write) := by
    refine .waiting 0 [] hfill (Or.inl (by rw [hfifo]; rfl)) ?_ ?_
    · rw [hfifo]
      exact Nat.le_refl 1
    · rw [hfifo]
      exact Nat.le_add_left 1 2997
  exact ⟨fun hs => absurd h.cap.tx hs.1, [], [], 0, _, fun r hr => absurd hr List.not_mem_nil, rfl,
    hm, hphase, Nat.le_refl 0⟩

theorem scopeInv_run (h : s.PowerUp) {is : List ScopeIn} (ha : scope.Throughout Scope.Allows s is) :
    ScopeInv (scope.run s is) (scope.log s is) :=
  scope.inv_log_of (C := Scope.Allows) (I := ScopeInv) (fun _ _ _ ha hI => scopeInv_step ha hI)
    (scopeInv_powerUp h) ha

/-- What has been written so far is the beginning of a capture. -/
theorem captured_extends (m : Nat) {l : List Sample} (hlen : l.length + m = 3002)
    (hchain : l.tail.IsChain fun a b => b.edge = a.edge + 1) : ∃ ws, Captured ws ∧ l <+: ws := by
  induction m generalizing l with
  | zero => exact ⟨l, ⟨by omega, hchain⟩, List.prefix_refl l⟩
  | succ m ih =>
    -- a word at the next edge
    have hnext : ∃ e, ∀ v ∈ l.tail.getLast?, v.edge + 1 = e := by
      cases hl : l.tail.getLast? with
      | none => exact ⟨0, fun v hv => by cases hv⟩
      | some v => exact ⟨v.edge + 1, fun v' hv' => by cases hv'; rfl⟩
    obtain ⟨e, he⟩ := hnext
    obtain ⟨hchain', -⟩ := tracked_push (w := ⟨e, 0⟩) rfl hchain he
    obtain ⟨ws, hws, hpre⟩ := ih (by rw [List.length_append, List.length_singleton]; omega) hchain'
    exact ⟨ws, hws, (List.prefix_append _ _).trans hpre⟩

/-- The part of a round that is under way is the beginning of a round. -/
theorem part_prefix (hm : s.fifo.Models c) (h : ScopePhase s c j part) :
    ∃ r, Round j r ∧ part <+: r := by
  have hwritten : ∀ {B : Nat} {ws : List Sample}, Filling s c B ws → c.hist.length ≤ c.r + 3001 →
      (ws.tail.IsChain fun a b => b.edge = a.edge + 1) →
      ∃ r, Round 0 r ∧ ws.map ScopeEvent.write <+: r := by
    intro B ws hfill hlen hchain
    have hwords := hfill.length hm
    have hknown := hfill.kept.known
    obtain ⟨ws', hws, hpre⟩ := captured_extends (3002 - ws.length) (by omega) hchain
    refine ⟨_, .mk ws' 0 [] hws .none, ?_⟩
    rw [List.append_nil]
    exact (hpre.map _).trans (List.prefix_append _ _)
  obtain ⟨h3, h2, h1, -⟩ := hm.order
  cases h with
  | waiting B ws h hc hst hlag =>
    refine hwritten h (by omega) ?_
    rw [tracked_short (by omega)]
    exact List.isChain_nil
  | saving B ws h hc hlen hoff hon hw => exact hwritten h (by omega) hw.chain
  | saveLen B ws h hc hlen hd hg hon hw => exact hwritten h (by omega) hw.chain
  | offered ws k j l h hl => exact ⟨_, .mk ws k l h.captured hl, List.prefix_append _ _⟩
  | frame ws k j n m l h hl hf ht =>
    refine ⟨_, .mk ws k l h.captured hl, (List.prefix_append_right_inj _).mpr ?_⟩
    exact (List.prefix_cons_inj _).mpr ((Crossing.shown_prefix (sends_cut ht).1).map _)
  | clearing ws k j l h hl => exact ⟨_, .mk ws k l h.captured hl, List.prefix_refl _⟩
  | spent j part h => exact ⟨part, h, List.prefix_refl _⟩

/-- **What the invariant says about what is seen.** -/
theorem ScopeInv.seen (h : ScopeInv s l) : ∃ rounds : List (Nat × List ScopeEvent),
    (∀ r ∈ rounds, Round r.1 r.2) ∧ seen l <+: rounds.flatMap Prod.snd ∧
      (rounds.map Prod.fst).sum ≤ resets l := by
  obtain ⟨rounds, part, j, c, hall, hl, hm, hphase, hcount⟩ := h.rounds
  obtain ⟨last, hlast, hpre⟩ := part_prefix hm hphase
  refine ⟨rounds ++ [(j, last)], ?_, ?_, ?_⟩
  · intro r hmem
    rcases List.mem_append.mp hmem with hmem | hmem
    · exact hall r hmem
    · rw [List.mem_singleton.mp hmem]
      exact hlast
  · rw [hl, List.flatMap_append, List.flatMap_singleton, List.prefix_append_right_inj]
    exact hpre
  · rw [List.map_append, List.sum_append]
    simpa using hcount

/-- Rounds in which no frame is cut. -/
theorem rounds_whole {rounds : List (Nat × List ScopeEvent)} (hall : ∀ r ∈ rounds, Round r.1 r.2)
    (hcut : (rounds.map Prod.fst).sum = 0) : ∃ wss : List (List Sample),
      (∀ ws ∈ wss, Captured ws) ∧ rounds.flatMap Prod.snd = wss.flatMap captureRound := by
  induction rounds with
  | nil => exact ⟨[], fun ws hws => absurd hws List.not_mem_nil, rfl⟩
  | cons r rounds ih =>
    rw [List.map_cons, List.sum_cons] at hcut
    obtain ⟨hzero, hrest⟩ := Nat.add_eq_zero_iff.mp hcut
    obtain ⟨wss, hwss, he⟩ := ih (fun q hq => hall q (List.mem_cons_of_mem r hq)) hrest
    have hround := hall r List.mem_cons_self
    rw [hzero] at hround
    obtain ⟨ws, hws, hr⟩ := hround.whole
    refine ⟨ws :: wss, List.forall_mem_cons.mpr ⟨hws, hwss⟩, ?_⟩
    rw [List.flatMap_cons, List.flatMap_cons, hr, he]

/-- A log without resets. -/
theorem ScopeInv.whole (h : ScopeInv s l) (hno : ScopeEvent.reset ∉ l) :
    ∃ (wss : List (List Sample)) (part : List ScopeEvent) (c : Crossing Sample),
      (∀ ws ∈ wss, Captured ws) ∧ l = wss.flatMap captureRound ++ part ∧ s.fifo.Models c ∧
        ScopePhase s c 0 part := by
  obtain ⟨rounds, part, j, c, hall, hl, hm, hphase, hsum⟩ := h.rounds
  obtain ⟨hseen, hzero⟩ := seen_of_notMem hno
  obtain ⟨wss, hwss, he⟩ := rounds_whole hall (by omega)
  obtain rfl : j = 0 := by omega
  exact ⟨wss, part, c, hwss, by rw [← hseen, hl, he], hm, hphase⟩

/-- The round under way is one of a capture. -/
theorem part_captured (hm : s.fifo.Models c) (h : ScopePhase s c 0 part) :
    ∃ ws, Captured ws ∧ part <+: captureRound ws := by
  obtain ⟨r, hr, hpre⟩ := part_prefix hm h
  obtain ⟨ws, hws, rfl⟩ := hr.whole
  exact ⟨ws, hws, hpre⟩

/-- Where there is no reset, `adc_en_u` is high as long as the sender is not in `IDLE`. -/
theorem on_of_notMem (hno : ScopeEvent.reset ∉ scope.out s i) (hne : s.cap.tx.currentState ≠ .idle) :
    i.adcEnU = true := by
  by_contra hen
  refine hno (List.mem_append_right _ ?_)
  rw [if_pos ⟨Bool.eq_false_iff.mpr hen, hne⟩]
  exact List.mem_singleton_self _

/-- Without a reset `low` stays 0. -/
theorem low_zero (hlow : s.low = 0) (hno : ScopeEvent.reset ∉ scope.out s i) :
    (scope.step s i).low = 0 := by
  cases hen : i.adcEnU with
  | true => exact low_on hen
  | false =>
    have hidle : s.cap.tx.currentState = .idle := by
      by_contra hne
      rw [on_of_notMem hno hne] at hen
      cases hen
    simp [scope, Scope.step, hen, hidle, hlow]

theorem allows_of_notMem (hlow : s.low = 0) {is : List ScopeIn}
    (hfreq : ∀ i ∈ is, i.adcFreq.toNat ≤ 499) (hno : ScopeEvent.reset ∉ scope.log s is) :
    scope.Throughout Scope.Allows s is := by
  induction is generalizing s with
  | nil => trivial
  | cons i is ih =>
    rw [Machine.log_cons, List.mem_append, not_or] at hno
    exact ⟨⟨hfreq i List.mem_cons_self, fun _ => Or.inl hlow⟩,
      ih (low_zero hlow hno.1) (fun i' hi => hfreq i' (List.mem_cons_of_mem i hi)) hno.2⟩

/-- While `adc_en_u` is high there is none. -/
theorem reset_notMem_log {is : List ScopeIn} (hen : ∀ i ∈ is, i.adcEnU = true) :
    ScopeEvent.reset ∉ scope.log s is := by
  induction is generalizing s with
  | nil => exact List.not_mem_nil
  | cons i is ih =>
    rw [Machine.log_cons, List.mem_append, not_or]
    refine ⟨?_, ih fun i' hi => hen i' (List.mem_cons_of_mem i hi)⟩
    have hon : ¬ (i.adcEnU = false ∧ s.cap.tx.currentState ≠ .idle) := by
      simp [hen i List.mem_cons_self]
    show ScopeEvent.reset ∉ Scope.out s i
    rw [Scope.out, if_neg hon, List.append_nil]
    exact reset_notMem_acts

end Run

/-- **From the samples to the wires.** From power-up and over every run in which the divisor of
    `adc_clk` stays up to 499 and no reset finds the sender outside `IDLE`, whatever the trigger, the
    samples, `ack` and what is not determined in the FIFO do: what is seen are captures of 3000 to
    3002 words, from the second word on at consecutive edges of `adc_clk`, each followed by one frame
    that carries the first 3000 of its words, before the next capture begins. -/
theorem scope_frames (s : Scope) (h : s.PowerUp) (is : List ScopeIn)
    (hfreq : ∀ i ∈ is, i.adcFreq.toNat ≤ 499) (hno : ScopeEvent.reset ∉ scope.log s is) :
    ∃ wss : List (List Sample),
      (∀ ws ∈ wss, Captured ws) ∧ scope.log s is <+: wss.flatMap captureRound := by
  have hinv := scopeInv_run h (allows_of_notMem h.low hfreq hno)
  obtain ⟨wss, part, c, hall, hl, hm, hphase⟩ := hinv.whole hno
  obtain ⟨ws, hws, hpre⟩ := part_captured hm hphase
  refine ⟨wss ++ [ws], ?_, ?_⟩
  · intro ws' hmem
    rcases List.mem_append.mp hmem with hmem | hmem
    · exact hall ws' hmem
    · rw [List.mem_singleton.mp hmem]
      exact hws
  · rw [hl, List.flatMap_append, List.flatMap_singleton, List.prefix_append_right_inj]
    exact hpre

/-- Nothing has happened yet, and the divider is about to toggle. -/
def restScope : Scope :=
  ⟨⟨⟨0, false⟩, AdcFifoControl.powerUp 0, restTx⟩, Dcfifo.powerUp ⟨0, 0⟩, 0, 0⟩

theorem restScope_powerUp : restScope.PowerUp := ⟨⟨rfl, rfl⟩, rfl, Dcfifo.powerUp_powerUp _, rfl⟩

/-- The fastest sampling clock, and a reader that turns `ack` every four edges. -/
theorem scope_frames_fast :
    let is := (List.range 60000).map fun n : Nat => (⟨⟨true, false, BitVec.ofNat 8 n,
      decide (n % 8 < 4), ⟨5#13, 3#13, ⟨0, 0⟩⟩⟩, true, 0⟩ : ScopeIn)
    ∃ wss : List (List Sample),
      (∀ ws ∈ wss, Captured ws) ∧ scope.log restScope is <+: wss.flatMap captureRound := by
  intro is
  have hall : ∀ i ∈ is, i.adcEnU = true ∧ i.adcFreq.toNat ≤ 499 := by
    intro i hi
    obtain ⟨n, -, rfl⟩ := List.mem_map.mp hi
    exact ⟨rfl, Nat.zero_le 499⟩
  exact scope_frames restScope restScope_powerUp is (fun i hi => (hall i hi).2)
    (reset_notMem_log fun i hi => (hall i hi).1)

end WifiOsc
