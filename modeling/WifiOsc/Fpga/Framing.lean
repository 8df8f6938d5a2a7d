/-
  File:      WifiOsc/Fpga/Framing.lean
  Subject:   THE FRAME ON THE WIRES. What `FPGA2AR9331` does to `data_out`, `clk_out` and `r_clk`
             between leaving `IDLE` and coming back to it, whatever `ack` does.

  `sender` emits what can be seen at its outputs: a rising edge of `r_clk`, a change of `clk_out` with
  what `data_out` shows then, a change of `data_out` alone; and the edges at which a waiting state
  finds `ack` different from `ack_save`.

  * `Phase`: how far a frame has come, and what has been seen of it; `phase_step`: one edge;
  * `frame_log`: everything that is seen of a frame of `N` bytes.
-/
import WifiOsc.Basis.Machine
import WifiOsc.Fpga.Sender

namespace WifiOsc.Framing

open Basis FPGA2AR9331

/-! ## 1. What is seen -/

/-- The inputs at an edge with `rst_n` high. -/
structure FrameIn where
  en : Bool
  dataIn : Byte
  lenIn : BitVec 32
  ack : Bool

/-- `fetch`: `r_clk` rises. `ack`: a waiting state finds `ack` different from `ack_save`. `turn`:
    `clk_out` changes, with what `data_out` shows after the edge and `data_in` at it. `data`:
    `data_out` changes while `clk_out` does not. -/
inductive FrameEvent where
  | fetch
  | ack
  | turn (clkOut : Option Bool) (dataOut : Option Byte) (dataIn : Byte)
  | data (dataOut : Option Byte)
  deriving DecidableEq, Repr

/-- The states that wait for the receiver. -/
def Waiting (s : FPGA2AR9331) : Prop :=
  s.currentState = .sendIng1 ∨ s.currentState = .sendEnd ∨ s.currentState = .delay2

instance (s : FPGA2AR9331) : Decidable (Waiting s) := inferInstanceAs (Decidable (_ ∨ _ ∨ _))

/-- What is seen at an edge that leads from `s` to `s'`. -/
def seen (s s' : FPGA2AR9331) (i : FrameIn) : List FrameEvent :=
  (if s.rClk = false ∧ s'.rClk = true then [.fetch] else []) ++
  (if Waiting s ∧ i.ack ≠ s.ackSave then [.ack] else []) ++
  (if s'.clkOut ≠ s.clkOut then [.turn s'.clkOut s'.dataOut i.dataIn]
    else if s'.dataOut ≠ s.dataOut then [.data s'.dataOut] else [])

/-- `FPGA2AR9331` with `rst_n` high. -/
def sender : Machine FPGA2AR9331 FrameIn FrameEvent where
  step s i := s.step ⟨true, i.en, i.dataIn, i.lenIn, i.ack⟩
  out s i := seen s (s.step ⟨true, i.en, i.dataIn, i.lenIn, i.ack⟩) i

/-- `clk_out` after the bytes `xs`. -/
def level (c : Bool) : List Byte → Bool
  | [] => c
  | _ :: xs => level (!c) xs

/-- What is seen of the bytes `xs`: for each a rising edge of `r_clk`, an answer of the receiver, and
    then the byte with a turn of `clk_out`. -/
def payload (c : Bool) : List Byte → List FrameEvent
  | [] => []
  | x :: xs => [.fetch, .ack, .turn (some !c) (some x) x] ++ payload (!c) xs

/-- What is seen before the bytes, when `clk_out` was `c0`: the header is on `data_out` before
    `clk_out` is high. -/
def opening (c0 : Option Bool) (d : Byte) : List FrameEvent :=
  [.fetch, .data (some header)] ++
    if c0 = some true then [] else [.turn (some true) (some header) d]

/-- The opening `op`, a further rising edge of `r_clk`, and the bytes `xs`. -/
def body (op : List FrameEvent) (xs : List Byte) : List FrameEvent :=
  op ++ [.fetch] ++ payload true xs

/-- What is seen after the bytes, when `clk_out` is `c`. -/
def closing (c : Bool) (d : Byte) : List FrameEvent :=
  [.ack, .data none, .ack] ++ if c then [.turn (some false) none d] else []

theorem level_append (c : Bool) (xs : List Byte) (x : Byte) :
    level c (xs ++ [x]) = !level c xs := by
  induction xs generalizing c with
  | nil => rfl
  | cons y xs ih => exact ih (!c)

theorem payload_append (c : Bool) (xs : List Byte) (x : Byte) :
    payload c (xs ++ [x]) =
      payload c xs ++ [.fetch, .ack, .turn (some !level c xs) (some x) x] := by
  induction xs generalizing c with
  | nil => rfl
  | cons y xs ih => simp only [List.cons_append, payload, level, ih, List.append_assoc]

/-! ## 2. One edge, by the state -/

section Edge

variable {s : FPGA2AR9331} {i : FrameIn} {c : Bool} {v : Byte}

theorem edge_start2 (hs : s.currentState = .sendStart2) (hr : s.rClk = false) :
    sender.step s i = { s with currentState := .sendStart3, rClk := true } ∧
      sender.out s i = [.fetch] := by
  simp [sender, step, output, nextState, seen, Waiting, hs, hr]

theorem edge_start3 (hs : s.currentState = .sendStart3) :
    sender.step s i = { s with currentState := .sendIng0, rClk := false } ∧
      sender.out s i = [] := by
  simp [sender, step, output, nextState, seen, Waiting, hs]

theorem edge_ing0 (hs : s.currentState = .sendIng0) (hr : s.rClk = false) :
    sender.step s i = { s with currentState := .sendIng1, rClk := true } ∧
      sender.out s i = [.fetch] := by
  simp [sender, step, output, nextState, seen, Waiting, hs, hr]

theorem edge_ing1 (hs : s.currentState = .sendIng1) :
    sender.step s i =
        { s with
          currentState := if i.ack = s.ackSave then .sendIng1 else .sendIng2, rClk := false } ∧
      sender.out s i = if i.ack = s.ackSave then [] else [.ack] := by
  by_cases ha : i.ack = s.ackSave <;>
    simp [sender, step, output, nextState, seen, Waiting, hs, ha]

theorem edge_ing2 (hs : s.currentState = .sendIng2) (hr : s.rClk = false)
    (hc : s.clkOut = some c) :
    sender.step s i =
        { s with
          currentState := .sendIng3, ackSave := i.ack, len := s.len - 1#32
          clkOut := some !c, dataOut := some i.dataIn } ∧
      sender.out s i = [.turn (some !c) (some i.dataIn) i.dataIn] := by
  simp [sender, step, output, nextState, seen, Waiting, hs, hr, hc]

theorem edge_ing3 (hs : s.currentState = .sendIng3) :
    sender.step s i = { s with currentState := .sendIng4 } ∧ sender.out s i = [] := by
  simp [sender, step, output, nextState, seen, Waiting, hs]

theorem edge_ing4 (hs : s.currentState = .sendIng4) :
    sender.step s i =
        { s with currentState := if s.len = 0#32 then .sendEnd else .sendIng0 } ∧
      sender.out s i = [] := by
  simp [sender, step, output, nextState, seen, Waiting, hs]

theorem edge_end (hs : s.currentState = .sendEnd) :
    sender.step s i =
        { s with currentState := if i.ack = s.ackSave then .sendEnd else .delay1 } ∧
      sender.out s i = if i.ack = s.ackSave then [] else [.ack] := by
  by_cases ha : i.ack = s.ackSave <;>
    simp [sender, step, output, nextState, seen, Waiting, hs, ha]

theorem edge_delay1 (hs : s.currentState = .delay1) (hd : s.dataOut = some v) :
    sender.step s i = { s with currentState := .delay2, dataOut := none, ackSave := i.ack } ∧
      sender.out s i = [.data none] := by
  simp [sender, step, output, nextState, seen, Waiting, hs, hd]

theorem edge_delay2 (hs : s.currentState = .delay2) :
    sender.step s i =
        { s with currentState := if i.ack = s.ackSave then .delay2 else .delay3 } ∧
      sender.out s i = if i.ack = s.ackSave then [] else [.ack] := by
  by_cases ha : i.ack = s.ackSave <;>
    simp [sender, step, output, nextState, seen, Waiting, hs, ha]

theorem edge_delay3 (hs : s.currentState = .delay3) (hc : s.clkOut = some c)
    (hd : s.dataOut = none) :
    ∃ st n, (st = .delay3 ∨ st = .idle) ∧
      sender.step s i =
        { s with currentState := st, delayCounter := n, clkOut := some false } ∧
      sender.out s i = if c then [.turn (some false) none i.dataIn] else [] := by
  refine ⟨if delayLen ≤ s.delayCounter then .idle else .delay3, s.delayCounter + 1#32, ?_, ?_, ?_⟩
  · split
    · exact Or.inr rfl
    · exact Or.inl rfl
  · simp [sender, step, output, nextState, hs]
  · cases c <;> simp [sender, step, output, seen, Waiting, hs, hc, hd]

end Edge

/-! ## 3. How far a frame has come -/

/-- The outputs after the bytes `xs`, with `r_clk` low. -/
structure Shows (xs : List Byte) (s : FPGA2AR9331) : Prop where
  clkOut : s.clkOut = some (level true xs)
  dataOut : ∃ v, s.dataOut = some v
  rClk : s.rClk = false

/-- A frame of `N` bytes whose opening was `op`: the state, and what has been seen since. -/
inductive Phase (N : Nat) (op : List FrameEvent) (s : FPGA2AR9331) : List FrameEvent → Prop where
  | start2 (hs : s.currentState = .sendStart2) (hw : Shows [] s) (hl : s.len.toNat = N)
      (hlt : 0 < s.len.toNat) : Phase N op s op
  | start3 (hs : s.currentState = .sendStart3) (hw : Shows [] { s with rClk := false })
      (hl : s.len.toNat = N) (hlt : 0 < s.len.toNat) : Phase N op s (op ++ [.fetch])
  | fetch (xs : List Byte) (hs : s.currentState = .sendIng0) (hw : Shows xs s)
      (hl : s.len.toNat + xs.length = N) (hlt : 0 < s.len.toNat) :
      Phase N op s (body op xs)
  | wait (xs : List Byte) (hs : s.currentState = .sendIng1)
      (hw : Shows xs { s with rClk := false })
      (hl : s.len.toNat + xs.length = N) (hlt : 0 < s.len.toNat) :
      Phase N op s (body op xs ++ [.fetch])
  | load (xs : List Byte) (hs : s.currentState = .sendIng2) (hw : Shows xs s)
      (hl : s.len.toNat + xs.length = N) (hlt : 0 < s.len.toNat) :
      Phase N op s (body op xs ++ [.fetch, .ack])
  | sent (xs : List Byte) (hs : s.currentState = .sendIng3 ∨ s.currentState = .sendIng4)
      (hw : Shows xs s) (hl : s.len.toNat + xs.length = N) :
      Phase N op s (body op xs)
  | ending (xs : List Byte) (hs : s.currentState = .sendEnd) (hw : Shows xs s)
      (hl : xs.length = N) : Phase N op s (body op xs)
  | release (xs : List Byte) (hs : s.currentState = .delay1) (hw : Shows xs s)
      (hl : xs.length = N) : Phase N op s (body op xs ++ [.ack])
  | released (xs : List Byte) (hs : s.currentState = .delay2)
      (hc : s.clkOut = some (level true xs)) (hd : s.dataOut = none) (hl : xs.length = N) :
      Phase N op s (body op xs ++ [.ack, .data none])
  | delay (xs : List Byte) (hs : s.currentState = .delay3)
      (hc : s.clkOut = some (level true xs)) (hd : s.dataOut = none) (hl : xs.length = N) :
      Phase N op s (body op xs ++ [.ack, .data none, .ack])
  | passed (xs : List Byte) (v : Byte) (hs : s.currentState = .delay3 ∨ s.currentState = .idle)
      (hc : s.clkOut = some false) (hd : s.dataOut = none) (hl : xs.length = N) :
      Phase N op s (body op xs ++ closing (level true xs) v)

section Frame

variable {N : Nat} {op l : List FrameEvent} {s : FPGA2AR9331}

/-- **One edge of a frame.** -/
theorem phase_step (i : FrameIn) (hidle : s.currentState ≠ .idle) (h : Phase N op s l) :
    Phase N op (sender.step s i) (l ++ sender.out s i) := by
  cases h with
  | start2 hs hw hl hlt =>
    obtain ⟨hstep, hout⟩ := edge_start2 (i := i) hs hw.rClk
    rw [hstep, hout]
    exact .start3 rfl ⟨hw.clkOut, hw.dataOut, rfl⟩ hl hlt
  | start3 hs hw hl hlt =>
    obtain ⟨hstep, hout⟩ := edge_start3 (i := i) hs
    have hlog : op ++ [.fetch] ++ [] = body op [] := by
      rw [body, payload]
    rw [hstep, hout, hlog]
    exact .fetch [] rfl ⟨hw.clkOut, hw.dataOut, rfl⟩ hl hlt
  | fetch xs hs hw hl hlt =>
    obtain ⟨hstep, hout⟩ := edge_ing0 (i := i) hs hw.rClk
    rw [hstep, hout]
    exact .wait xs rfl ⟨hw.clkOut, hw.dataOut, rfl⟩ hl hlt
  | wait xs hs hw hl hlt =>
    obtain ⟨hstep, hout⟩ := edge_ing1 (i := i) hs
    rw [hstep, hout]
    by_cases ha : i.ack = s.ackSave
    · rw [if_pos ha, if_pos ha, List.append_nil]
      exact .wait xs rfl ⟨hw.clkOut, hw.dataOut, rfl⟩ hl hlt
    · rw [if_neg ha, if_neg ha, List.append_assoc]
      exact .load xs rfl ⟨hw.clkOut, hw.dataOut, rfl⟩ hl hlt
  | load xs hs hw hl hlt =>
    obtain ⟨hstep, hout⟩ := edge_ing2 (i := i) hs hw.rClk hw.clkOut
    have hlen : (s.len - 1#32).toNat = s.len.toNat - 1 := by
      have hone : 1#32 ≤ s.len := BitVec.le_def.mpr hlt
      rw [BitVec.toNat_sub_of_le hone]
      rfl
    have hlog : body op xs ++ [.fetch, .ack] ++
        [.turn (some !level true xs) (some i.dataIn) i.dataIn] = body op (xs ++ [i.dataIn]) := by
      simp only [body, payload_append, List.append_assoc, List.cons_append, List.nil_append]
    rw [hstep, hout, hlog]
    refine .sent (xs ++ [i.dataIn]) (Or.inl rfl) ⟨?_, ⟨_, rfl⟩, hw.rClk⟩ ?_
    · rw [level_append]
    · rw [List.length_append, List.length_singleton]
      show (s.len - 1#32).toNat + _ = N
      omega
  | sent xs hs hw hl =>
    rcases hs with hs | hs
    · obtain ⟨hstep, hout⟩ := edge_ing3 (i := i) hs
      rw [hstep, hout, List.append_nil]
      exact .sent xs (Or.inr rfl) ⟨hw.clkOut, hw.dataOut, hw.rClk⟩ hl
    · obtain ⟨hstep, hout⟩ := edge_ing4 (i := i) hs
      rw [hstep, hout, List.append_nil]
      by_cases h0 : s.len = 0#32
      · rw [if_pos h0]
        refine .ending xs rfl ⟨hw.clkOut, hw.dataOut, hw.rClk⟩ ?_
        rw [h0] at hl
        simpa using hl
      · rw [if_neg h0]
        have hpos : 0 < s.len.toNat := Nat.pos_of_ne_zero fun e => h0 (BitVec.eq_of_toNat_eq e)
        exact .fetch xs rfl ⟨hw.clkOut, hw.dataOut, hw.rClk⟩ hl hpos
  | ending xs hs hw hl =>
    obtain ⟨hstep, hout⟩ := edge_end (i := i) hs
    rw [hstep, hout]
    by_cases ha : i.ack = s.ackSave
    · rw [if_pos ha, if_pos ha, List.append_nil]
      exact .ending xs rfl ⟨hw.clkOut, hw.dataOut, hw.rClk⟩ hl
    · rw [if_neg ha, if_neg ha]
      exact .release xs rfl ⟨hw.clkOut, hw.dataOut, hw.rClk⟩ hl
  | release xs hs hw hl =>
    obtain ⟨v, hv⟩ := hw.dataOut
    obtain ⟨hstep, hout⟩ := edge_delay1 (i := i) hs hv
    rw [hstep, hout, List.append_assoc]
    exact .released xs rfl hw.clkOut rfl hl
  | released xs hs hc hd hl =>
    obtain ⟨hstep, hout⟩ := edge_delay2 (i := i) hs
    rw [hstep, hout]
    by_cases ha : i.ack = s.ackSave
    · rw [if_pos ha, if_pos ha, List.append_nil]
      exact .released xs rfl hc hd hl
    · rw [if_neg ha, if_neg ha, List.append_assoc]
      exact .delay xs rfl hc hd hl
  | delay xs hs hc hd hl =>
    obtain ⟨st, n, hst, hstep, hout⟩ := edge_delay3 (i := i) hs hc hd
    rw [hstep, hout, List.append_assoc]
    exact .passed xs i.dataIn hst rfl hd hl
  | passed xs v hs hc hd hl =>
    rcases hs with hs | hs
    · obtain ⟨st, n, hst, hstep, hout⟩ := edge_delay3 (i := i) hs hc hd
      rw [hstep, hout, if_neg Bool.false_ne_true, List.append_nil]
      exact .passed xs v hst rfl hd hl
    · exact absurd hs hidle

/-- Back in `IDLE` everything has been seen. -/
theorem phase_idle (h : Phase N op s l) (hs : s.currentState = .idle) :
    ∃ xs v, xs.length = N ∧ l = body op xs ++ closing (level true xs) v := by
  cases h with
  | passed xs v hs' hc hd hl => exact ⟨xs, v, hl, rfl⟩
  | sent xs hs' hw hl => rcases hs' with hs' | hs' <;> rw [hs] at hs' <;> cases hs'
  | start2 hs' | start3 hs' =>
    rw [hs] at hs'
    cases hs'
  | fetch xs hs' | wait xs hs' | load xs hs' | ending xs hs' | release xs hs' | released xs hs'
  | delay xs hs' =>
    rw [hs] at hs'
    cases hs'

/-! ## 4. Whole frames -/

/-- `r_clk` is high for one state at a time. -/
def RClkPulse (s : FPGA2AR9331) : Prop :=
  s.rClk = true → s.currentState = .sendStart ∨ s.currentState = .sendStart3 ∨
    s.currentState = .sendIng1

theorem rClkPulse_step (s : FPGA2AR9331) (i : FrameIn) (h : RClkPulse s) :
    RClkPulse (sender.step s i) := by
  unfold RClkPulse at h ⊢
  cases hs : s.currentState <;> cases hr : s.rClk <;>
    simp_all [sender, step, output, nextState]

/-- In `SEND_START_SAVE`, `data_out` has just been released. -/
def DataReleased (s : FPGA2AR9331) : Prop := s.currentState = .sendStartSave → s.dataOut = none

theorem dataReleased_step (s : FPGA2AR9331) (i : FrameIn) : DataReleased (sender.step s i) := by
  intro h
  cases hs : s.currentState with
  | idle => simp [sender, step, output, hs]
  | sendStartSave | sendStart | sendStart2 | sendStart3 | sendIng0 | sendIng2 | sendIng3 | delay1 =>
    simp [sender, step, nextState, hs] at h
  | sendIng1 | sendEnd | delay2 | sendIng4 | delay3 =>
    simp only [sender, step, nextState, hs, Bool.not_true, Bool.false_eq_true, if_false] at h
    split at h <;> cases h

/-- Power-up. `r_clk` has no initial value: it is not high before its first rising edge. -/
structure PowerUp (s : FPGA2AR9331) : Prop where
  idle : s.currentState = .idle
  rClk : s.rClk = false

theorem inv_of_powerUp (h : PowerUp s) (before : List FrameIn) :
    RClkPulse (sender.run s before) ∧ DataReleased (sender.run s before) := by
  refine ⟨sender.inv_run rClkPulse_step ?_ before,
    sender.inv_run (fun s i _ => dataReleased_step s i) ?_ before⟩
  · intro hr
    rw [h.rClk] at hr
    cases hr
  · intro hs
    rw [h.idle] at hs
    cases hs

/-- The header, and the latch of `len_in`. -/
theorem phase_begin (i₁ i₂ : FrameIn) (hs : s.currentState = .sendStartSave)
    (hr : s.rClk = false) (hd : s.dataOut = none) (hN : 1 ≤ i₂.lenIn.toNat) :
    Phase i₂.lenIn.toNat (opening s.clkOut i₂.dataIn) (sender.run s [i₁, i₂])
      (sender.log s [i₁, i₂]) := by
  have h₁ : sender.step s i₁ =
      { s with
        currentState := .sendStart, ackSave := i₁.ack, dataOut := some header, delayCounter := 0
        rClk := true } := by
    simp [sender, step, output, nextState, hs]
  have hlog : sender.log s [i₁, i₂] = opening s.clkOut i₂.dataIn := by
    rw [Machine.log_cons, Machine.log_cons, Machine.log_nil, h₁, opening]
    by_cases hc : s.clkOut = some true
    · simp [sender, seen, Waiting, step, output, nextState, hs, hr, hd, hc]
    · simp [sender, seen, Waiting, step, output, nextState, hs, hr, hd, hc, Ne.symm hc]
  rw [hlog, Machine.run_cons, Machine.run_cons, Machine.run_nil, h₁]
  exact .start2 rfl ⟨rfl, ⟨header, rfl⟩, rfl⟩ rfl hN

theorem count_payload (c : Bool) (xs : List Byte) : (payload c xs).count .fetch = xs.length := by
  induction xs generalizing c with
  | nil => rfl
  | cons x xs ih =>
    rw [payload, List.count_append, ih, List.length_cons, Nat.add_comm]
    rfl

theorem count_frame (c0 : Option Bool) (d v : Byte) (xs : List Byte) :
    (body (opening c0 d) xs ++ closing (level true xs) v).count .fetch = xs.length + 2 := by
  have hopen : (opening c0 d).count .fetch = 1 := by
    rw [opening, List.count_append]
    split <;> rfl
  have hclose : (closing (level true xs) v).count .fetch = 0 := by
    rw [closing, List.count_append]
    split <;> rfl
  rw [List.count_append, body, List.count_append, List.count_append, hopen, hclose, count_payload]
  show 1 + 1 + xs.length + 0 = _
  omega

/-- **Everything that is seen of a frame.** From any run that has just left `IDLE`, through any
    edges up to the first return to it: with `N ≥ 1` latched, the header is on `data_out` before
    `clk_out` is high, and `r_clk` rises twice; then, `N` times, `r_clk` rises once, the receiver
    answers, and `clk_out` turns over with the byte that `data_in` has at this edge; then the
    receiver answers, `data_out` is released, and the receiver answers once more. -/
theorem frame_log (s₀ : FPGA2AR9331) (h₀ : PowerUp s₀) (before : List FrameIn) (i₁ i₂ : FrameIn)
    (later : List FrameIn) :
    let s := sender.run s₀ before
    s.currentState = .sendStartSave → 1 ≤ i₂.lenIn.toNat →
    (∀ n < later.length,
      (sender.run s (i₁ :: i₂ :: later.take n)).currentState ≠ .idle) →
    (sender.run s (i₁ :: i₂ :: later)).currentState = .idle →
    ∃ xs v, xs.length = i₂.lenIn.toNat ∧
      sender.log s (i₁ :: i₂ :: later) =
        body (opening s.clkOut i₂.dataIn) xs ++ closing (level true xs) v ∧
      (sender.log s (i₁ :: i₂ :: later)).count .fetch = i₂.lenIn.toNat + 2 := by
  intro s hs hN hfirst hend
  obtain ⟨hpulse, hrel⟩ := inv_of_powerUp h₀ before
  have hr : s.rClk = false := by
    cases hr : s.rClk with
    | false => rfl
    | true =>
      rcases hpulse hr with h | h | h
      all_goals
        rw [hs] at h
        cases h
  have hphase := sender.inv_log_until
    (I := fun s' l => Phase i₂.lenIn.toNat (opening s.clkOut i₂.dataIn) s' l)
    (P := fun s' => s'.currentState = .idle) (fun s' l i hs' hI => phase_step i hs' hI)
    (phase_begin i₁ i₂ hs hr (hrel hs) hN) later hfirst
  obtain ⟨xs, v, hlen, hlog⟩ := phase_idle hphase hend
  have hwhole : sender.log s (i₁ :: i₂ :: later) =
      sender.log s [i₁, i₂] ++ sender.log (sender.run s [i₁, i₂]) later :=
    sender.log_append s [i₁, i₂] later
  refine ⟨xs, v, hlen, hwhole.trans hlog, ?_⟩
  rw [hwhole, hlog, count_frame, hlen]

/-- `DELAY_3`, `m` edges long. -/
theorem delay_run (i : FrameIn) (m : Nat) {k : Nat} (hs : s.currentState = .delay3)
    (hk : s.delayCounter.toNat = k) (hm : k + m ≤ 2000) :
    (sender.run s (List.replicate m i)).currentState = .delay3 ∧
      (sender.run s (List.replicate m i)).delayCounter.toNat = k + m := by
  induction m generalizing s k with
  | zero => exact ⟨hs, hk⟩
  | succ m ih =>
    have hlt : ¬ delayLen ≤ s.delayCounter := by
      rw [BitVec.le_def]
      show ¬ 2000 ≤ _
      omega
    have hs' : (sender.step s i).currentState = .delay3 := by
      simp [sender, step, nextState, hs, hlt]
    have hk' : (sender.step s i).delayCounter.toNat = k + 1 := by
      show (s.step _).delayCounter.toNat = _
      rw [delayCounter_delay3 rfl hs, BitVec.toNat_add, BitVec.toNat_ofNat]
      omega
    rw [List.replicate_succ, Machine.run_cons]
    have h := ih hs' hk' (by omega)
    rwa [Nat.add_right_comm] at h

theorem delay_end (i : FrameIn) (hs : s.currentState = .delay3)
    (hk : s.delayCounter.toNat = 2000) : (sender.step s i).currentState = .idle := by
  have hle : delayLen ≤ s.delayCounter := by
    rw [BitVec.le_def, hk]
    decide
  simp [sender, step, nextState, hs, hle]

end Frame

/-- `n` edges at which `ack` is always turned over, with other data at each. -/
def answers : Nat → FPGA2AR9331 → List FrameIn
  | 0, _ => []
  | n + 1, s =>
    let i : FrameIn := ⟨false, BitVec.ofNat 8 n, 3#32, !s.ackSave⟩
    i :: answers n (sender.step s i)

def restIn : FrameIn := ⟨false, 7#8, 3#32, true⟩

def beginIn : FrameIn := ⟨true, 7#8, 3#32, false⟩

def powerUpLow : FPGA2AR9331 := ⟨.idle, false, 0#32, 0#32, none, none, false⟩

def threeSave : FPGA2AR9331 := sender.run powerUpLow [beginIn]

/-- Three bytes: the edges from `SEND_START_2` to the end of `DELAY_2`. -/
def threeBytes : List FrameIn := answers 20 (sender.run threeSave [beginIn, beginIn])

theorem threeBytes_delay :
    (sender.run threeSave (beginIn :: beginIn :: threeBytes)).currentState = .delay3 ∧
      (sender.run threeSave (beginIn :: beginIn :: threeBytes)).delayCounter = 0#32 := by
  decide +kernel

theorem threeBytes_first (n : Nat) (hn : n ≤ 20) :
    (sender.run threeSave (beginIn :: beginIn :: threeBytes.take n)).currentState ≠ .idle := by
  revert n
  decide +kernel

/-- A frame of three bytes, from power-up. -/
theorem frame_log_three :
    ∃ xs v, xs.length = 3 ∧
      sender.log threeSave (beginIn :: beginIn :: (threeBytes ++ List.replicate 2001 restIn)) =
        body (opening none 7#8) xs ++ closing (level true xs) v ∧
      (sender.log threeSave
        (beginIn :: beginIn :: (threeBytes ++ List.replicate 2001 restIn))).count .fetch = 5 := by
  obtain ⟨hd, hc⟩ := threeBytes_delay
  have hwait (m : Nat) (hm : m ≤ 2000) :=
    delay_run restIn m hd (congrArg BitVec.toNat hc) (by simpa using hm)
  refine frame_log powerUpLow ⟨rfl, rfl⟩ [beginIn] beginIn beginIn
    (threeBytes ++ List.replicate 2001 restIn) (by decide) (by decide) (fun n hn => ?_) ?_
  · have hlen : threeBytes.length = 20 := rfl
    rcases Nat.lt_or_ge 20 n with hlt | hle
    · rw [List.length_append, List.length_replicate, hlen] at hn
      obtain ⟨m, rfl⟩ := Nat.exists_eq_add_of_lt hlt
      have htake : (threeBytes ++ List.replicate 2001 restIn).take (20 + m + 1) =
          threeBytes ++ List.replicate (m + 1) restIn := by
        rw [Nat.add_assoc, ← hlen, List.take_length_add_append, List.take_replicate,
          Nat.min_eq_left (by omega)]
      rw [htake]
      show (sender.run threeSave
        (beginIn :: beginIn :: threeBytes ++ List.replicate (m + 1) restIn)).currentState ≠ _
      rw [Machine.run_append, (hwait (m + 1) (by omega)).1]
      exact nofun
    · rw [List.take_append_of_le_length hle]
      exact threeBytes_first n hle
  · show (sender.run threeSave
      (beginIn :: beginIn :: threeBytes ++ List.replicate (2000 + 1) restIn)).currentState = _
    obtain ⟨hs, hk⟩ := hwait 2000 (Nat.le_refl _)
    rw [Machine.run_append, List.replicate_succ', Machine.run_append, Machine.run_cons,
      Machine.run_nil]
    exact delay_end restIn hs (hk.trans (Nat.zero_add 2000))

end WifiOsc.Framing
