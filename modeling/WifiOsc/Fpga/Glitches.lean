/-
  File:      WifiOsc/Fpga/Glitches.lean
  Subject:   FALSE STARTS at the VHDL receiver (`UART_RXD`, FPGA/UART/UART_RX_TX.vhd), any waveform.

  In `R_CENTER` a high sample sends the receiver back to `R_START` and leaves `xcnt16` as it is: the
  low samples of one false start count towards the next.

  * `lowPairs R n`: how many of the samples before `n` were low right after a low one;
  * `Rejecting`: the receiver as long as that is at most 4; `rejecting_step`: one edge;
  * `received_of_many`: past 4 the receiver takes a start bit, and a byte follows;
  * **`glitch_iff`**: exactly the waveforms that are ignored.
-/
import WifiOsc.Basis.Sampling
import WifiOsc.Fpga.UartBlock

namespace WifiOsc

open Basis

/-! ## 1. Waveforms -/

/-- The sample before `n` was low. -/
def lowBefore (R : Nat → Bool) : Nat → Bool
  | 0 => false
  | n + 1 => !R n

/-- The low samples before `n` that follow a low one: a pulse of `k` samples counts `k - 1`. -/
def lowPairs (R : Nat → Bool) : Nat → Nat
  | 0 => 0
  | n + 1 => lowPairs R n + if lowBefore R n && !R n then 1 else 0

/-- No pulse is longer than 5 samples. -/
def ShortPulses (R : Nat → Bool) : Prop := ∀ n, ∃ i < 6, R (n + i) = true

namespace VhdlRxd

/-- The receiver after `n` samples of `R`. -/
def after (u : VhdlRxd) (R : Nat → Bool) (n : Nat) : VhdlRxd := vhdlRxd.run u (upTo R n)

/-- What has been seen of it by then. -/
def seen (u : VhdlRxd) (R : Nat → Bool) (n : Nat) : List RxdEvent := vhdlRxd.log u (upTo R n)

/-- `R_ready` is at 0 from the first edge on, and `R_buf` is never written. -/
def Ignores (u : VhdlRxd) (R : Nat → Bool) : Prop :=
  ∀ n, (u.after R (n + 1)).rReady = false ∧ ∀ b, .buf b ∉ u.seen R n

variable {u u₀ : VhdlRxd} {R : Nat → Bool} {n : Nat}

theorem after_succ : u.after R (n + 1) = vhdlRxd.step (u.after R n) (R n) :=
  run_upTo_succ vhdlRxd u R n

theorem seen_succ : u.seen R (n + 1) = u.seen R n ++ vhdlRxd.out (u.after R n) (R n) :=
  log_upTo_succ vhdlRxd u R n

/-! ## 2. While no start bit is taken -/

/-- After `n` samples, of which at most 4 were low right after a low one. -/
structure Rejecting (R : Nat → Bool) (n : Nat) (u : VhdlRxd) : Prop where
  state : u.state = if lowBefore R n then .rCenter else .rStart
  count : u.xcnt16 = BitVec.ofNat 5 (lowPairs R n)
  bit : lowBefore R n = true → u.xbitcnt = 0
  ready : n ≠ 0 → u.rReady = false
  few : lowPairs R n ≤ 4

theorem rejecting_powerUp (rBufs rBuf : Byte) (rReady : Bool) :
    Rejecting R 0 (powerUp rBufs rBuf rReady) :=
  ⟨rfl, rfl, fun h => absurd h Bool.false_ne_true, fun h => absurd rfl h, Nat.zero_le 4⟩

/-- An edge that takes no start bit is not seen. -/
theorem out_rejecting (h : Rejecting R n u) (hready : (vhdlRxd.step u (R n)).rReady = false) :
    vhdlRxd.out u (R n) = [] := by
  have hs := h.state
  have hready' : (u.step true (R n)).rReady = false := hready
  have hwrites : u.writes = false := by
    unfold writes
    cases hlow : lowBefore R n <;> simp [hs, hlow]
  simp [vhdlRxd, hwrites, hready']

theorem lowPairs_succ :
    lowPairs R (n + 1) = lowPairs R n + if lowBefore R n && !R n then 1 else 0 := rfl

theorem lowBefore_succ : lowBefore R (n + 1) = !R n := rfl

theorem Rejecting.ready_of_low (h : Rejecting R n u) (hlow : lowBefore R n = true) :
    u.rReady = false := by
  refine h.ready ?_
  rintro rfl
  cases hlow

/-- A sample in `R_START`. -/
theorem rejecting_start (h : Rejecting R n u) (hlow : lowBefore R n = false) :
    lowPairs R (n + 1) = lowPairs R n ∧ vhdlRxd.out u (R n) = [] ∧
      Rejecting R (n + 1) (vhdlRxd.step u (R n)) := by
  obtain ⟨hs, hc, _, _, hf⟩ := id h
  have hout := out_rejecting h
  have hsame : lowPairs R (n + 1) = lowPairs R n := by simp [lowPairs_succ, hlow]
  rw [hlow] at hs
  refine ⟨hsame, ?_⟩
  cases hR : R n with
  | true =>
    have hstep : vhdlRxd.step u true = { u with state := .rStart, rReady := false } := by
      simp [vhdlRxd, step, hs]
    rw [hR, hstep] at hout
    rw [hstep]
    exact ⟨hout rfl, by simp [lowBefore_succ, hR], by rw [hsame]; exact hc,
      by simp [lowBefore_succ, hR], fun _ => rfl, by rw [hsame]; exact hf⟩
  | false =>
    have hstep : vhdlRxd.step u false =
        { u with state := .rCenter, rReady := false, xbitcnt := 0 } := by
      simp [vhdlRxd, step, hs]
    rw [hR, hstep] at hout
    rw [hstep]
    exact ⟨hout rfl, by simp [lowBefore_succ, hR], by rw [hsame]; exact hc, fun _ => rfl,
      fun _ => rfl, by rw [hsame]; exact hf⟩

/-- A high sample in `R_CENTER`, the way back to `R_START`: the count stays. -/
theorem rejecting_back (h : Rejecting R n u) (hlow : lowBefore R n = true) (hR : R n = true) :
    lowPairs R (n + 1) = lowPairs R n ∧ vhdlRxd.out u (R n) = [] ∧
      Rejecting R (n + 1) (vhdlRxd.step u (R n)) := by
  obtain ⟨hs, hc, _, _, hf⟩ := id h
  have hready := h.ready_of_low hlow
  have hout := out_rejecting h
  have hsame : lowPairs R (n + 1) = lowPairs R n := by simp [lowPairs_succ, hR]
  rw [hlow] at hs
  have hstep : vhdlRxd.step u true = { u with state := .rStart } := by
    simp [vhdlRxd, step, hs]
  rw [hR, hstep] at hout
  rw [hR, hstep]
  exact ⟨hsame, hout hready, by simp [lowBefore_succ, hR], by rw [hsame]; exact hc,
    by simp [lowBefore_succ, hR], fun _ => hready, by rw [hsame]; exact hf⟩

/-- A low sample in `R_CENTER`: it is counted, or the start bit is taken. -/
theorem rejecting_count (h : Rejecting R n u) (hlow : lowBefore R n = true) (hR : R n = false)
    (y : Nat → Bool) :
    lowPairs R (n + 1) = lowPairs R n + 1 ∧ vhdlRxd.out u (R n) = [] ∧
      (lowPairs R n < 4 → Rejecting R (n + 1) (vhdlRxd.step u (R n))) ∧
      (4 ≤ lowPairs R n → Reading y 0 (vhdlRxd.step u (R n))) := by
  obtain ⟨hs, hc, hx, _, hf⟩ := id h
  have hready := h.ready_of_low hlow
  have hout := out_rejecting h
  have hmore : lowPairs R (n + 1) = lowPairs R n + 1 := by simp [lowPairs_succ, hlow, hR]
  rw [hlow] at hs
  refine ⟨hmore, ?_⟩
  rcases Nat.lt_or_ge (lowPairs R n) 4 with hlt | hge
  · have hle : ¬ 4#5 ≤ u.xcnt16 := not_le_count hc hlt (by decide)
    have hstep : vhdlRxd.step u false =
        { u with xcnt16 := u.xcnt16 + 1#5, state := .rCenter } := by
      simp [vhdlRxd, step, hs, hle]
    rw [hR, hstep] at hout
    rw [hR, hstep]
    refine ⟨hout hready, fun _ => ?_, fun hge => by omega⟩
    exact ⟨by simp [lowBefore_succ, hR], by rw [hmore, hc, ← BitVec.ofNat_add], fun _ => hx hlow,
      fun _ => hready, by rw [hmore]; exact hlt⟩
  · have hle : 4#5 ≤ u.xcnt16 := le_count hc hge (by omega)
    have hstep : vhdlRxd.step u false = { u with xcnt16 := 0#5, state := .rWait } := by
      simp [vhdlRxd, step, hs, hle]
    rw [hR, hstep] at hout
    rw [hR, hstep]
    refine ⟨hout hready, fun hlt => by omega, fun _ => ?_⟩
    exact .wait 0 0 (Nat.zero_le 8) (Nat.zero_le 12) ⟨rfl, rfl, hx hlow, hready⟩
      fun k hk => absurd hk (Nat.not_lt_zero k)

/-- **One sample**: the receiver goes on rejecting, or it takes a start bit. -/
theorem rejecting_step (h : Rejecting R n u) (y : Nat → Bool) :
    vhdlRxd.out u (R n) = [] ∧
      (lowPairs R (n + 1) ≤ 4 → Rejecting R (n + 1) (vhdlRxd.step u (R n))) ∧
      (4 < lowPairs R (n + 1) → Reading y 0 (vhdlRxd.step u (R n))) := by
  have hf := h.few
  cases hlow : lowBefore R n with
  | false =>
    obtain ⟨hsame, hout, hgo⟩ := rejecting_start h hlow
    exact ⟨hout, fun _ => hgo, fun hgt => by omega⟩
  | true =>
    cases hR : R n with
    | true =>
      obtain ⟨hsame, hout, hgo⟩ := rejecting_back h hlow hR
      rw [hR] at hout hgo
      exact ⟨hout, fun _ => hgo, fun hgt => by omega⟩
    | false =>
      obtain ⟨hmore, hout, hgo, htake⟩ := rejecting_count h hlow hR y
      rw [hR] at hout hgo htake
      exact ⟨hout, fun hle => hgo (by omega), fun hgt => htake (by omega)⟩

/-! ## 3. Whole waveforms -/

theorem lowPairs_mono {m : Nat} (h : m ≤ n) : lowPairs R m ≤ lowPairs R n := by
  induction h with
  | refl => exact Nat.le_refl _
  | step _ ih => exact Nat.le_trans ih (Nat.le_add_right _ _)

/-- As long as there are at most 4 of them. -/
theorem rejecting_after (h0 : Rejecting R 0 u₀) (hn : lowPairs R n ≤ 4) :
    Rejecting R n (u₀.after R n) ∧ u₀.seen R n = [] := by
  induction n with
  | zero => exact ⟨h0, rfl⟩
  | succ n ih =>
    obtain ⟨hI, hseen⟩ := ih (Nat.le_trans (lowPairs_mono (Nat.le_succ n)) hn)
    obtain ⟨hout, hgo, _⟩ := rejecting_step hI R
    rw [after_succ, seen_succ, hseen, hout]
    exact ⟨hgo hn, rfl⟩

theorem ignores_of_few (h0 : Rejecting R 0 u₀) (hall : ∀ n, lowPairs R n ≤ 4) :
    u₀.Ignores R := by
  intro n
  obtain ⟨_, hseen⟩ := rejecting_after h0 (hall n)
  refine ⟨(rejecting_after h0 (hall (n + 1))).1.ready (Nat.succ_ne_zero n), ?_⟩
  intro b
  rw [hseen]
  exact List.not_mem_nil

/-- **The fifth of them is taken for a start bit**: `R_buf` is written, and `R_ready` raised. -/
theorem received_of_many (h0 : Rejecting R 0 u₀) (hn : 4 < lowPairs R n) :
    ∃ m b, .buf b ∈ u₀.seen R m ∧ (u₀.after R (m + 1)).rReady = true := by
  classical
  have hex : ∃ k, 4 < lowPairs R k := ⟨n, hn⟩
  obtain ⟨k, hk, hmin⟩ : ∃ k, 4 < lowPairs R (k + 1) ∧ lowPairs R k ≤ 4 := by
    obtain ⟨k, hk⟩ : ∃ k, Nat.find hex = k + 1 := by
      refine Nat.exists_eq_succ_of_ne_zero ?_
      intro e
      have hspec := Nat.find_spec hex
      rw [e] at hspec
      cases hspec
    have hspec := Nat.find_spec hex
    have hbelow := Nat.find_min hex (m := k) (by omega)
    exact ⟨k, hk ▸ hspec, by omega⟩
  -- `y` is the waveform from the accepted sample on
  have hread (m : Nat) (hm : m ≤ 125) :
      Reading (fun j => R (k + 1 + j)) m (u₀.after R (k + 1 + m)) := by
    induction m with
    | zero =>
      rw [Nat.add_zero, after_succ]
      exact (rejecting_step (rejecting_after h0 hmin).1 _).2.2 hk
    | succ m ih =>
      rw [← Nat.add_assoc, after_succ]
      exact (reading_step (ih (by omega)) hm).1
  obtain ⟨_, hwrite⟩ := reading_step (hread 124 (by omega)) (by omega)
  obtain ⟨_, _, _, hlast, _⟩ := reading_last (hread 125 (Nat.le_refl _)) (R (k + 1 + 125))
  refine ⟨k + 1 + 125, (u₀.after R (k + 1 + 124)).rBufs, ?_, ?_⟩
  · rw [← Nat.add_assoc _ 124 1, seen_succ, hwrite]
    simp
  · rw [after_succ, hlast]

/-- **Exactly which waveforms are ignored**: those in which at most 4 low samples, of all pulses
    together, follow a low one. -/
theorem glitch_iff (rBufs rBuf : Byte) (rReady : Bool) (R : Nat → Bool) :
    (powerUp rBufs rBuf rReady).Ignores R ↔ ∀ n, lowPairs R n ≤ 4 := by
  refine ⟨fun h n => ?_, ignores_of_few (rejecting_powerUp rBufs rBuf rReady)⟩
  by_contra hn
  obtain ⟨m, b, hbuf, _⟩ :=
    received_of_many (rejecting_powerUp rBufs rBuf rReady) (Nat.lt_of_not_le hn)
  exact (h m).2 b hbuf

/-- Five low samples, a high one, two low ones, and high for good. -/
def twoGlitches (n : Nat) : Bool := n = 5 ∨ 8 ≤ n

/-- They are received as a byte. -/
theorem twoGlitches_received :
    ShortPulses twoGlitches ∧ ¬ (powerUp 0#8 0#8 false).Ignores twoGlitches := by
  have hmany : 4 < lowPairs twoGlitches 8 := by decide
  obtain ⟨m, b, hbuf, _⟩ := received_of_many (rejecting_powerUp 0#8 0#8 false) hmany
  refine ⟨fun n => ?_, fun h => (h m).2 b hbuf⟩
  rcases Nat.lt_or_ge n 6 with hlt | hge
  · exact ⟨5 - n, by omega, by simp [twoGlitches]; omega⟩
  · exact ⟨2, by decide, by simp [twoGlitches]; omega⟩

end VhdlRxd

end WifiOsc
