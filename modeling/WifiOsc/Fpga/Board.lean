/-
  File:      WifiOsc/Fpga/Board.lean
  Subject:   THE HOST'S LINE AND THE CAPTURE PATH, as main.sv connects them: `UART_RXD`, `UART2REG`
             and the register block at every edge of `SYS_CLK`, and the path of Scope.lean at the
             eight edges of `CLK_200M` that go with it.

  Nothing is asked of the host's timing: two bytes of the line are more than 200 clocks of `SYS_CLK`
  apart whatever the waveform is, so `adc_en_u` stays low for long enough whenever it goes low.

  * `registers`, `board`: the parts in a row;
  * `Silent`: for how many clocks no byte can be delivered; `silent_step`, `silent_byte`;
  * `Paired`: what the receiver guarantees to the path; `registers_allow`: over every run;
  * `board_frames`: what is seen of the captures, for every waveform.
-/
import WifiOsc.Fpga.HostLine
import WifiOsc.Fpga.ScopeFrames
import WifiOsc.Fpga.TxLine

namespace WifiOsc

open Basis

/-! ## 1. The parts in a row -/

/-- A period of `SYS_CLK`: the line at its edge, and what the path reads at the eight edges of
    `CLK_200M` that follow, the last of which comes with the next edge of `SYS_CLK`. -/
structure BoardIn where
  rxd : Bool
  io : Fin 8 → ScopeIo

/-- The register path; it emits what the capture path is clocked with. -/
def registers : Machine (RxPort × HostPort) BoardIn ScopeIn where
  step p i := boardPort.step p i.rxd
  out p i :=
    let regs := (boardPort.step p i.rxd).2.regs
    List.ofFn fun j => ⟨i.io j, regs.adcEnU, regs.adcFreq ⟨0, Nat.two_pos⟩⟩

def board : Machine ((RxPort × HostPort) × Scope) BoardIn ScopeEvent := registers.pipe scope

/-! ## 2. How soon a byte can follow a byte -/

/-- In the start bit, at least `n` ticks before its last one. -/
def Slow (n : Nat) (u : UartRxd) : Prop := u.state = .start ∧ u.sample.toNat + n ≤ 15

theorem slow_tick {n : Nat} {u : UartRxd} (h : Slow (n + 1) u) (rxd : Bool) :
    Slow n (u.tick rxd true) := by
  obtain ⟨hs, hn⟩ := h
  have hne : u.sample ≠ 15#4 := by
    intro e
    rw [e] at hn
    exact absurd hn (by simp)
  have hinc : (u.sample + 1#4).toNat = u.sample.toNat + 1 := by
    rw [BitVec.toNat_add, BitVec.toNat_ofNat]
    omega
  refine ⟨by simp [UartRxd.tick, hs, hne], ?_⟩
  simp only [UartRxd.tick, hs, if_neg hne]
  split <;> omega

/-- No byte is delivered in the start bit. -/
theorem slow_silent {n : Nat} {u : UartRxd} (h : Slow n u) (rxd : Bool) :
    rxTick.out u rxd = [] :=
  rises_of_not (by simp [UartRxd.tick, h.1])

/-- No byte is delivered at the next `c` clocks. -/
def Silent (c : Nat) (s : RxPort) : Prop := c = 0 ∨ ∃ n, Slow n s.rx ∧ c ≤ s.baud.wait + 14 * n

theorem silent_step {c : Nat} {s : RxPort} (h : Silent (c + 1) s) (rxd : Bool) :
    Silent c (rxPort.step s rxd) ∧ rxPort.out s rxd = [] := by
  obtain ⟨n, hn, hc⟩ : ∃ n, Slow n s.rx ∧ c + 1 ≤ s.baud.wait + 14 * n :=
    h.resolve_left (Nat.succ_ne_zero c)
  cases hw : s.baud.wait with
  | zero =>
    obtain ⟨hrx, hout, hwait⟩ := rxPort_divided.tick s rxd hw
    refine ⟨?_, hout.trans (slow_silent hn rxd)⟩
    obtain ⟨n', rfl⟩ : ∃ n', n = n' + 1 := ⟨n - 1, by omega⟩
    have hnext : Slow n' (rxPort.step s rxd).rx := by
      rw [hrx]
      exact slow_tick hn rxd
    exact Or.inr ⟨n', hnext, by omega⟩
  | succ k =>
    obtain ⟨hrx, hout, hwait⟩ := rxPort_divided.idle s rxd k hw
    have hnext : Slow n (rxPort.step s rxd).rx := by
      rw [hrx]
      exact hn
    exact ⟨Or.inr ⟨n, hnext, by omega⟩, hout⟩

/-- A tick that delivers a byte goes back to the start bit. -/
theorem slow_of_byte {u : UartRxd} {rxd : Bool} (h : rxTick.out u rxd ≠ []) :
    Slow 15 (u.tick rxd true) := by
  have hrdy : u.rdy = false ∧ (u.tick rxd true).rdy = true := by
    by_contra hno
    refine h (if_neg fun e => hno ?_)
    simpa using e
  cases hs : u.state with
  | start => simp [UartRxd.tick, hs] at hrdy
  | data => simp [UartRxd.tick, hs] at hrdy
  | stop =>
    simp only [UartRxd.tick, hs] at hrdy ⊢
    split at hrdy
    case isTrue hend =>
      rw [if_pos hend]
      exact ⟨rfl, Nat.le_refl 15⟩
    case isFalse => simp at hrdy

theorem silent_byte {s : RxPort} {rxd : Bool} (h : rxPort.out s rxd ≠ []) :
    Silent 223 (rxPort.step s rxd) := by
  cases hw : s.baud.wait with
  | zero =>
    obtain ⟨hrx, hout, hwait⟩ := rxPort_divided.tick s rxd hw
    rw [hout] at h
    have hnext : Slow 15 (rxPort.step s rxd).rx := by
      rw [hrx]
      exact slow_of_byte h
    exact Or.inr ⟨15, hnext, by omega⟩
  | succ k => exact absurd (rxPort_divided.idle s rxd k hw).2.1 h

/-! ## 3. What the receiver guarantees to the path -/

/-- While `adc_en_u` is low: a reset that has found the sender outside `IDLE` has lasted for 1001
    edges, or no byte comes before it has. -/
structure Paired (p : RxPort × HostPort) (s : Scope) : Prop where
  high : p.2.regs.adcEnU = true → s.low = 0
  low : p.2.regs.adcEnU = false → s.cap.tx.currentState = .idle ∧
    (s.low = 0 ∨ ∃ c, Silent c p.1 ∧ 1001 ≤ s.low + 8 * c)

section Paired

variable {p : RxPort × HostPort} {s : Scope}

/-- An edge with `adc_en_u` low. -/
theorem low_off {i : ScopeIn} (hen : i.adcEnU = false) :
    (scope.step s i).cap.tx.currentState = .idle ∧
      ((scope.step s i).low = 0 ∨ (scope.step s i).low = s.low + 1) ∧
      (s.cap.tx.currentState = .idle → s.low = 0 → (scope.step s i).low = 0) := by
  refine ⟨(scope_off hen).1, ?_, fun ht hlow => by simp [scope, Scope.step, hen, ht, hlow]⟩
  simp only [scope, Scope.step, hen, Bool.false_eq_true, if_false]
  split
  · exact Or.inr rfl
  · exact Or.inl rfl

/-- Edges at which `adc_en_u` stays low. -/
theorem scope_low {is : List ScopeIn} (hen : ∀ i ∈ is, i.adcEnU = false)
    (hfreq : ∀ i ∈ is, i.adcFreq.toNat ≤ 499) (hne : is ≠ []) :
    scope.Throughout Scope.Allows s is ∧ (scope.run s is).cap.tx.currentState = .idle ∧
      ((scope.run s is).low = 0 ∨ (scope.run s is).low = s.low + is.length) ∧
      (s.cap.tx.currentState = .idle → s.low = 0 → (scope.run s is).low = 0) := by
  induction is generalizing s with
  | nil => exact absurd rfl hne
  | cons i is ih =>
    have hi : i.adcEnU = false := hen i List.mem_cons_self
    obtain ⟨hidle, hlow, hzero⟩ := low_off (s := s) hi
    have hallow : s.Allows i :=
      ⟨hfreq i List.mem_cons_self, fun h => by rw [hi] at h; cases h⟩
    rw [Machine.run_cons]
    cases is with
    | nil => exact ⟨⟨hallow, trivial⟩, hidle, hlow, hzero⟩
    | cons j is =>
      obtain ⟨hall, hidle', hlow', hzero'⟩ := ih (s := scope.step s i)
        (fun j hj => hen j (List.mem_cons_of_mem i hj))
        (fun j hj => hfreq j (List.mem_cons_of_mem i hj)) (List.cons_ne_nil j is)
      refine ⟨⟨hallow, hall⟩, hidle', ?_, fun ht h0 => hzero' hidle (hzero ht h0)⟩
      rcases hlow with h0 | h1
      · exact Or.inl (hzero' hidle h0)
      · refine hlow'.imp_right fun h => ?_
        rw [h, h1, List.length_cons (a := i)]
        omega

/-- And high, once it may go up. -/
theorem scope_high {is : List ScopeIn} (hen : ∀ i ∈ is, i.adcEnU = true)
    (hfreq : ∀ i ∈ is, i.adcFreq.toNat ≤ 499) (hlow : s.low = 0 ∨ 1001 ≤ s.low) (hne : is ≠ []) :
    scope.Throughout Scope.Allows s is ∧ (scope.run s is).low = 0 := by
  induction is generalizing s with
  | nil => exact absurd rfl hne
  | cons i is ih =>
    have hnext : (scope.step s i).low = 0 := low_on (hen i List.mem_cons_self)
    have hallow : s.Allows i := ⟨hfreq i List.mem_cons_self, fun _ => hlow⟩
    rw [Machine.run_cons]
    cases is with
    | nil => exact ⟨⟨hallow, trivial⟩, hnext⟩
    | cons j is =>
      obtain ⟨hall, hrun⟩ := ih (s := scope.step s i)
        (fun j hj => hen j (List.mem_cons_of_mem i hj))
        (fun j hj => hfreq j (List.mem_cons_of_mem i hj)) (Or.inl hnext) (List.cons_ne_nil j is)
      exact ⟨⟨hallow, hall⟩, hrun⟩

/-- **One period of `SYS_CLK`.** -/
theorem paired_step (h : Paired p s) (i : BoardIn)
    (hfreq : ∀ j ∈ registers.out p i, j.adcFreq.toNat ≤ 499) :
    scope.Throughout Scope.Allows s (registers.out p i) ∧
      Paired (registers.step p i) (scope.run s (registers.out p i)) := by
  set p' := boardPort.step p i.rxd with hp'
  have hlen : (registers.out p i).length = 8 := List.length_ofFn
  have hne : registers.out p i ≠ [] := List.ne_nil_of_length_pos (by omega)
  have hen : ∀ j ∈ registers.out p i, j.adcEnU = p'.2.regs.adcEnU := by
    intro j hj
    obtain ⟨n, rfl⟩ := List.mem_ofFn.mp hj
    rfl
  -- without a byte the registers stay
  have hstay : rxPort.out p.1 i.rxd = [] → p'.2 = p.2 := by
    intro hbyte
    show hostPort.run p.2 (rxPort.out p.1 i.rxd) = p.2
    rw [hbyte]
    rfl
  cases hnow : p'.2.regs.adcEnU with
  | true =>
    have hready : s.low = 0 ∨ 1001 ≤ s.low := by
      cases hwas : p.2.regs.adcEnU with
      | true => exact Or.inl (h.high hwas)
      | false =>
        -- a byte has come, which none does before the reset has lasted long enough
        have hbyte : rxPort.out p.1 i.rxd ≠ [] := by
          intro e
          rw [hstay e, hwas] at hnow
          cases hnow
        rcases (h.low hwas).2 with h0 | ⟨c, hc, hlow⟩
        · exact Or.inl h0
        · cases c with
          | zero => exact Or.inr (by omega)
          | succ c => exact absurd (silent_step hc i.rxd).2 hbyte
    obtain ⟨hall, hrun⟩ := scope_high (fun j hj => (hen j hj).trans hnow) hfreq hready hne
    refine ⟨hall, fun _ => hrun, fun hoff => ?_⟩
    have hoff' : p'.2.regs.adcEnU = false := hoff
    rw [hnow] at hoff'
    cases hoff'
  | false =>
    obtain ⟨hall, hidle, hlow, hzero⟩ :=
      scope_low (s := s) (fun j hj => (hen j hj).trans hnow) hfreq hne
    rw [hlen] at hlow
    refine ⟨hall, fun hon => ?_, fun _ => ⟨hidle, ?_⟩⟩
    · have hon' : p'.2.regs.adcEnU = true := hon
      rw [hnow] at hon'
      cases hon'
    · by_cases hbyte : rxPort.out p.1 i.rxd = []
      · rw [hstay hbyte] at hnow
        obtain ⟨ht, h0 | ⟨c, hc, hle⟩⟩ := h.low hnow
        · exact Or.inl (hzero ht h0)
        · refine hlow.imp_right fun hl => ?_
          cases c with
          | zero => exact ⟨0, Or.inl rfl, by omega⟩
          | succ c => exact ⟨c, (silent_step hc i.rxd).1, by omega⟩
      · exact hlow.imp_right fun hl => ⟨223, silent_byte hbyte, by omega⟩

/-- **Over every run** of the register path the capture path gets what it needs. -/
theorem registers_allow (h : Paired p s) {is : List BoardIn}
    (hfreq : ∀ j ∈ registers.log p is, j.adcFreq.toNat ≤ 499) :
    scope.Throughout Scope.Allows s (registers.log p is) := by
  induction is generalizing p s with
  | nil => trivial
  | cons i is ih =>
    obtain ⟨hall, hnext⟩ := paired_step h i fun j hj => hfreq j (List.mem_append_left _ hj)
    exact scope.throughout_append.mpr
      ⟨hall, ih hnext fun j hj => hfreq j (List.mem_append_right _ hj)⟩

end Paired

/-! ## 4. Every waveform -/

/-- Power-up of the board, with everything that has no initial value as it may be. -/
theorem paired_powerUp (baud : UartBaudGen) (regSave : BitVec 32) (dacData : Fin 8 → BitVec 12)
    (adcFreq : Fin 2 → BitVec 16) {s : Scope} (h : s.PowerUp) :
    Paired (BoardPort.powerUp baud regSave dacData adcFreq) s where
  high h := absurd h Bool.false_ne_true
  low _ := ⟨h.cap.tx, Or.inl h.low⟩

/-- **The captures of a board under remote control.** From power-up, for every waveform on the line
    (`adc_en_u` and the divisor of `adc_clk` are written at any time; no divisor above 499 is) and
    whatever the samples, the trigger and `ack` do: what is seen are captures of 3000 to 3002 words,
    from the second word on at consecutive edges of `adc_clk`, each followed by frames that carry on
    in it where the one before was cut, up to one that comes to its end, before the next capture
    begins. No frame mixes two captures, and no more frames are cut than the sender is reset. -/
theorem board_frames (baud : UartBaudGen) (regSave : BitVec 32) (dacData : Fin 8 → BitVec 12)
    (adcFreq : Fin 2 → BitVec 16) (s : Scope) (h : s.PowerUp) (is : List BoardIn)
    (hfreq : ∀ j ∈ registers.log (BoardPort.powerUp baud regSave dacData adcFreq) is,
      j.adcFreq.toNat ≤ 499) :
    let l := board.log (BoardPort.powerUp baud regSave dacData adcFreq, s) is
    ∃ rounds : List (Nat × List ScopeEvent), (∀ r ∈ rounds, Round r.1 r.2) ∧
      seen l <+: rounds.flatMap Prod.snd ∧ (rounds.map Prod.fst).sum ≤ resets l := by
  intro l
  have hlog : l = scope.log s (registers.log (BoardPort.powerUp baud regSave dacData adcFreq) is) :=
    registers.pipe_log scope _ s is
  have hallow := registers_allow (paired_powerUp baud regSave dacData adcFreq h) hfreq
  rw [hlog]
  exact (scopeInv_run h hallow).seen

/-- The divisor, while the host writes none above 499. -/
theorem hostPort_freq {p : HostPort} {bs : List Byte} (h : (p.regs.adcFreq 0).toNat ≤ 499)
    (hw : ∀ w ∈ (hostPort.log p bs).filterMap id, w.address = 0xfe#8 → w.data.toNat ≤ 499) :
    ((hostPort.run p bs).regs.adcFreq 0).toNat ≤ 499 := by
  refine hostPort.inv_log_of (C := fun p b => ∀ w ∈ (hostPort.out p b).filterMap id,
    w.address = 0xfe#8 → w.data.toNat ≤ 499) (I := fun p _ => (p.regs.adcFreq 0).toNat ≤ 499)
    (l := []) (fun p _ b hb hp => ?_) h ?_
  · -- one byte
    cases hr : p.rises b with
    | false => simpa [hostPort, hr] using hp
    | true =>
      have hdata := hb (p.taps b) (by simp [hostPort, hr])
      have hregs : (hostPort.step p b).regs = p.regs.apply (p.taps b) := by
        rw [← write_eq_apply]
        exact if_pos hr
      rw [hregs, RegBlock.apply]
      split
      · exact hp
      · split
        case isTrue ha =>
          show (Function.update p.regs.adcFreq (Fin.ofNat 2 _) (p.taps b).data 0).toNat ≤ 499
          by_cases hsub : (0 : Fin 2) = Fin.ofNat 2 (p.taps b).subAddress.toNat
          · rw [← hsub, Function.update_self]
            exact hdata ha
          · rw [Function.update_of_ne hsub]
            exact hp
        case isFalse => split <;> exact hp
  · clear h
    induction bs generalizing p with
    | nil => trivial
    | cons b bs ih =>
      rw [Machine.log_cons, List.filterMap_append] at hw
      exact ⟨fun w hmem => hw w (List.mem_append_left _ hmem),
        ih fun w hmem => hw w (List.mem_append_right _ hmem)⟩

theorem registers_freq {p : RxPort × HostPort} {is : List BoardIn}
    (h : (p.2.regs.adcFreq 0).toNat ≤ 499)
    (hw : ∀ w ∈ (boardPort.log p (is.map BoardIn.rxd)).filterMap id,
      w.address = 0xfe#8 → w.data.toNat ≤ 499) :
    ∀ j ∈ registers.log p is, j.adcFreq.toNat ≤ 499 := by
  induction is generalizing p with
  | nil => exact fun j hj => absurd hj List.not_mem_nil
  | cons i is ih =>
    rw [List.map_cons, Machine.log_cons, List.filterMap_append] at hw
    have hnext : ((boardPort.step p i.rxd).2.regs.adcFreq 0).toNat ≤ 499 := by
      show ((hostPort.run p.2 (rxPort.out p.1 i.rxd)).regs.adcFreq 0).toNat ≤ 499
      exact hostPort_freq h fun w hmem => hw w (List.mem_append_left _ hmem)
    intro j hj
    rcases List.mem_append.mp hj with hj | hj
    · obtain ⟨n, rfl⟩ := List.mem_ofFn.mp hj
      exact hnext
    · exact ih hnext (fun w hmem => hw w (List.mem_append_right _ hmem)) j hj

/-- Capture on, another divisor, capture off and on again, 218 clocks a bit. -/
def switching : List RegWrite := [⟨0, 0, 1⟩, ⟨0xfe, 0, 9⟩, ⟨0, 0, 0⟩, ⟨0, 0, 1⟩]

def switchingLine : List BoardIn :=
  (rxLine 2240 ((switching.flatMap RegWrite.encode).map fun b => txFrame (b, 0)) 112).map fun rxd =>
    ⟨rxd, fun j => ⟨true, false, 7, decide (j.val < 4), ⟨5#13, 3#13, ⟨0, 0⟩⟩⟩⟩

theorem switching_freq : ∀ j ∈ registers.log (BoardPort.powerUp ⟨5, 0⟩ 0 (fun _ => 0) fun _ => 0)
    switchingLine, j.adcFreq.toNat ≤ 499 := by
  refine registers_freq (by decide) ?_
  have hbytes : rxPort.log (RxPort.powerUp ⟨5, 0⟩) (switchingLine.map BoardIn.rxd) =
      switching.flatMap RegWrite.encode := by
    rw [switchingLine, List.map_map]
    refine (congrArg _ (List.map_id _)).trans ((rxLine_delivered _ _ _ ⟨5, 0⟩ (by decide)).trans ?_)
    rw [List.map_map]
    exact List.map_id _
  have hlog : boardPort.log (BoardPort.powerUp ⟨5, 0⟩ 0 (fun _ => 0) fun _ => 0)
      (switchingLine.map BoardIn.rxd) = hostPort.log (HostPort.powerUp 0 (fun _ => 0) fun _ => 0)
        (switching.flatMap RegWrite.encode) := by
    rw [← hbytes]
    exact rxPort.pipe_log hostPort _ _ _
  rw [hlog, (feed_writes _ switching).2, fifth_bytes]
  decide

theorem board_frames_switching :
    let l := board.log (BoardPort.powerUp ⟨5, 0⟩ 0 (fun _ => 0) fun _ => 0, restScope) switchingLine
    ∃ rounds : List (Nat × List ScopeEvent), (∀ r ∈ rounds, Round r.1 r.2) ∧
      seen l <+: rounds.flatMap Prod.snd ∧ (rounds.map Prod.fst).sum ≤ resets l :=
  board_frames ⟨5, 0⟩ 0 (fun _ => 0) (fun _ => 0) restScope restScope_powerUp switchingLine
    switching_freq

end WifiOsc
