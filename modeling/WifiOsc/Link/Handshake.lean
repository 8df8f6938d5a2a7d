/-
  File:      WifiOsc/Link/Handshake.lean
  Subject:   ONE FRAME OVER THE WIRES. `FPGA2AR9331` and `receive_data` on clocks of their own:
             clk_out on pin 22, data_out on pins 0 and 17 to 11, ack driven by pin 23.

  Both sides turn a wire over: the sender `clk_out` with every byte, the receiver ACK with every
  byte it has taken. The sender needs at most five clocks from a turn of ACK to the next turn of
  `clk_out`, and four from the last one to `DELAY_2`; the receiver takes 200 reads without a turn
  for the end of the frame. Eight clocks in any 199 polls keep the two apart.

  * `link`: the coupled machines; a step is a clock of the sender or an access of the receiver;
  * `Holding`, `Due`, `Closing`: what the sender is doing, by the clocks it still needs;
  * `Transfer`: the two sides together; `transfer_clock`, `transfer_access`: one step of each;
  * `receive_frame`: a whole frame, for every interleaving.
-/
import WifiOsc.Basis.Machine
import WifiOsc.Fpga.Sender
import WifiOsc.Driver.ReceiveData
import Mathlib.Tactic.Set

namespace WifiOsc

open Basis

/-! ## 1. The coupled machines -/

structure Link where
  fpga : FPGA2AR9331
  ack : Bool
  drv : ReceiveData

/-- Who moves. `clock`: an edge of the sender's clock with its other inputs. `access`: the
    receiver's next access, with what the wires show where the sender does not drive them. -/
inductive LinkIn where
  | clock (en : Bool) (dataIn : Byte) (lenIn : BitVec 32)
  | access (floatClk : Bool) (floatData : Byte)

inductive LinkEvent where
  | clock
  | sample (b : Byte)
  | poll
  | access
  deriving DecidableEq

namespace LinkEvent

def sample? : LinkEvent → Option Byte
  | sample b => some b
  | _ => none

end LinkEvent

/-- The values of `data_in` that the sender has sampled in `SEND_ING_2`. -/
def samples (l : List LinkEvent) : List Byte := l.filterMap LinkEvent.sample?

/-- The input word of the GPIO port. -/
def Link.word (s : Link) (floatClk : Bool) (floatData : Byte) : BitVec 32 :=
  gpioWord (s.fpga.clkOut.getD floatClk) (s.fpga.dataOut.getD floatData)

def link : Machine Link LinkIn LinkEvent where
  step s
    | .clock en dataIn lenIn => { s with fpga := s.fpga.step ⟨true, en, dataIn, lenIn, s.ack⟩ }
    | .access floatClk floatData =>
        { s with drv := s.drv.step (s.word floatClk floatData), ack := s.ack ^^ s.drv.toggles }
  out s
    | .clock _ dataIn _ =>
        .clock :: (if s.fpga.currentState = .sendIng2 then [.sample dataIn] else [])
    | .access _ _ =>
        if s.drv.pc = .poll then [.poll] else if s.drv.pc = .done then [] else [.access]

/-- **The one assumption on time**: the sender makes at least 8 clocks in any 199 consecutive
    polls. -/
def Timely (l : List LinkEvent) : Prop :=
  ∀ l', l' <:+: l → l'.count .poll = 199 → 8 ≤ l'.count .clock

/-- A frame of length `N` is offered and the receiver is called: `clk_out` has risen with the
    header on `data_out`, and ACK has not been turned since. -/
structure Link.Offering (N : Nat) (s : Link) : Prop where
  state : s.fpga.currentState = .sendStart2 ∨ s.fpga.currentState = .sendStart3 ∨
    s.fpga.currentState = .sendIng0 ∨ s.fpga.currentState = .sendIng1
  ack : s.ack = s.fpga.ackSave
  len : s.fpga.len.toNat = N
  clkOut : s.fpga.clkOut = some true
  dataOut : s.fpga.dataOut = some FPGA2AR9331.header
  drv : s.drv = ReceiveData.call s.drv.frame

/-- The sender waits in `DELAY_2` for the turn of ACK that has already come. -/
def Link.Released (s : Link) : Prop :=
  s.fpga.currentState = .delay2 ∧ s.ack ≠ s.fpga.ackSave

/-! ## 2. The sender -/

/-- Clocks up to the one that loads a byte and turns `clk_out`, ACK having been turned. -/
def stepsDue : Ar9331State → Nat
  | .sendStart2 | .sendIng3 => 5
  | .sendStart3 | .sendIng4 => 4
  | .sendIng0 => 3
  | .sendIng1 => 2
  | .sendIng2 => 1
  | _ => 0

/-- The states in which the sender waits for ACK with `n` bytes still to send. -/
def holdsAt (n : Nat) : Ar9331State → Prop
  | .sendIng3 | .sendIng4 => True
  | .sendStart2 | .sendStart3 | .sendIng0 | .sendIng1 => 0 < n
  | .sendEnd => n = 0
  | _ => False

/-- `n` bytes are left; the byte on `data_out` has not been acknowledged. -/
structure Holding (n : Nat) (t : FPGA2AR9331) (ack : Bool) : Prop where
  ack : ack = t.ackSave
  len : t.len.toNat = n
  state : holdsAt n t.currentState

/-- `n` bytes are left, the next one is due in `r` clocks. -/
structure Due (n r : Nat) (t : FPGA2AR9331) (ack : Bool) : Prop where
  ack : ack ≠ t.ackSave
  len : t.len.toNat = n
  pos : 0 < n
  state : stepsDue t.currentState = r
  due : 0 < r

/-- No byte is left; in `r` clocks the sender waits in `DELAY_2`. -/
inductive Closing (t : FPGA2AR9331) (ack : Bool) : Nat → Prop where
  | sendIng3 (hs : t.currentState = .sendIng3) (hack : ack ≠ t.ackSave) (hl : t.len = 0#32) :
      Closing t ack 4
  | sendIng4 (hs : t.currentState = .sendIng4) (hack : ack ≠ t.ackSave) (hl : t.len = 0#32) :
      Closing t ack 3
  | sendEnd (hs : t.currentState = .sendEnd) (hack : ack ≠ t.ackSave) : Closing t ack 2
  | delay1 (hs : t.currentState = .delay1) : Closing t ack 1
  | delay2 (hs : t.currentState = .delay2) (hack : ack = t.ackSave) : Closing t ack 0

section Sender

variable {t : FPGA2AR9331} {i : Ar9331In} {n r : Nat}

/-- The states in which no register but `r_clk` is written. -/
def still : Ar9331State → Bool
  | .sendStart2 | .sendStart3 | .sendIng0 | .sendIng1 | .sendIng3 | .sendIng4 | .sendEnd
  | .delay2 => true
  | _ => false

theorem still_step (hrst : i.rstN = true) (h : still t.currentState = true) :
    (t.step i).ackSave = t.ackSave ∧ (t.step i).len = t.len ∧ (t.step i).clkOut = t.clkOut ∧
      (t.step i).dataOut = t.dataOut ∧ t.currentState ≠ .sendIng2 := by
  cases hs : t.currentState <;> rw [hs] at h <;> first
    | exact absurd h (by decide)
    | simp [FPGA2AR9331.step, FPGA2AR9331.output, hrst, hs]

theorem still_of_holdsAt {st : Ar9331State} (h : holdsAt n st) : still st = true := by
  cases st <;> first | rfl | exact h.elim

theorem len_zero_iff (hlen : t.len.toNat = n) : t.len = 0#32 ↔ n = 0 := by
  rw [← hlen, ← BitVec.toNat_inj]
  rfl

/-- Without a turn of ACK the sender waits and shows what it shows. -/
theorem holding_clock (h : Holding n t i.ack) (hrst : i.rstN = true) :
    Holding n (t.step i) i.ack ∧ (t.step i).clkOut = t.clkOut ∧ (t.step i).dataOut = t.dataOut ∧
      t.currentState ≠ .sendIng2 := by
  obtain ⟨hack, hlen, hstate⟩ := h
  obtain ⟨ha, hl, hc, hd, hne⟩ := still_step hrst (still_of_holdsAt hstate)
  refine ⟨⟨hack.trans ha.symm, by rw [hl, hlen], ?_⟩, hc, hd, hne⟩
  have hz := len_zero_iff hlen
  rw [FPGA2AR9331.step_currentState]
  cases hs : t.currentState <;> rw [hs] at hstate <;> first
    | exact hstate.elim
    | by_cases hn : n = 0 <;>
        simp_all [FPGA2AR9331.nextState, holdsAt, Nat.pos_iff_ne_zero]

/-- A turn of ACK makes the next byte due in at most five clocks. -/
theorem holding_turn {ack : Bool} (h : Holding n t ack) (hn : 0 < n) :
    ∃ r ≤ 5, Due n r t (!ack) := by
  obtain ⟨hack, hlen, hstate⟩ := h
  refine ⟨stepsDue t.currentState, ?_, ⟨by simp [hack], hlen, hn, rfl, ?_⟩⟩ <;>
    cases hs : t.currentState <;> rw [hs] at hstate <;> simp_all [holdsAt, stepsDue]

/-- The last turn of ACK but one takes the sender to `DELAY_2` in at most four clocks. -/
theorem holding_last {ack : Bool} (h : Holding 0 t ack) : ∃ r ≤ 4, Closing t (!ack) r := by
  obtain ⟨hack, hlen, hstate⟩ := h
  have hne : (!ack) ≠ t.ackSave := by simp [hack]
  have hz := (len_zero_iff hlen).mpr rfl
  cases hs : t.currentState <;> rw [hs] at hstate <;> try exact hstate.elim
  case sendIng3 => exact ⟨4, by omega, .sendIng3 hs hne hz⟩
  case sendIng4 => exact ⟨3, by omega, .sendIng4 hs hne hz⟩
  case sendEnd => exact ⟨2, by omega, .sendEnd hs hne⟩
  all_goals exact absurd hstate (Nat.lt_irrefl 0)

/-- A clock before the one that loads the byte. -/
theorem due_clock (h : Due n (r + 1) t i.ack) (hr : 0 < r) (hrst : i.rstN = true) :
    Due n r (t.step i) i.ack ∧ (t.step i).clkOut = t.clkOut ∧ (t.step i).dataOut = t.dataOut ∧
      t.currentState ≠ .sendIng2 := by
  obtain ⟨hack, hlen, hpos, hstate, _⟩ := h
  have hstill : still t.currentState = true := by
    cases hs : t.currentState <;> rw [hs] at hstate <;> first
      | rfl
      | (simp only [stepsDue] at hstate; omega)
  obtain ⟨ha, hl, hc, hd, hne⟩ := still_step hrst hstill
  refine ⟨⟨by rwa [ha], by rw [hl, hlen], hpos, ?_, hr⟩, hc, hd, hne⟩
  have hz : t.len ≠ 0#32 := by
    intro e
    have := (len_zero_iff hlen).mp e
    omega
  rw [FPGA2AR9331.step_currentState]
  cases hs : t.currentState <;> rw [hs] at hstate <;>
    simp_all [FPGA2AR9331.nextState, stepsDue]

/-- **The clock that loads the byte** and turns `clk_out`. -/
theorem due_load (h : Due n 1 t i.ack) (hrst : i.rstN = true) :
    t.currentState = .sendIng2 ∧ Holding (n - 1) (t.step i) i.ack ∧
      (t.step i).clkOut = t.clkOut.map not ∧ (t.step i).dataOut = some i.dataIn := by
  obtain ⟨hack, hlen, hpos, hstate, _⟩ := h
  have hs : t.currentState = .sendIng2 := by
    cases hs : t.currentState <;> rw [hs] at hstate <;> first | rfl | simp [stepsDue] at hstate
  refine ⟨hs, ⟨by simp [FPGA2AR9331.step, FPGA2AR9331.output, hrst, hs], ?_,
    by simp [FPGA2AR9331.nextState, hrst, hs, holdsAt]⟩,
    by simp [FPGA2AR9331.step, FPGA2AR9331.output, hrst, hs],
    by simp [FPGA2AR9331.step, FPGA2AR9331.output, hrst, hs]⟩
  have hsub : (t.step i).len = t.len - 1#32 := by
    simp [FPGA2AR9331.step, FPGA2AR9331.output, hrst, hs]
  have hlt := t.len.isLt
  rw [hsub, BitVec.toNat_sub, hlen, BitVec.toNat_ofNat]
  omega

/-- On the way to `DELAY_2` nothing is turned, and there the sender waits. -/
theorem closing_clock (h : Closing t i.ack r) (hrst : i.rstN = true) :
    Closing (t.step i) i.ack (r - 1) ∧ (t.step i).clkOut = t.clkOut ∧
      t.currentState ≠ .sendIng2 := by
  cases h with
  | sendIng3 hs hack hl =>
    obtain ⟨ha, hl', hc, _, hne⟩ := still_step (t := t) hrst (by rw [hs]; rfl)
    exact ⟨.sendIng4 (by simp [FPGA2AR9331.nextState, hrst, hs]) (by rwa [ha]) (by rw [hl', hl]), hc,
      hne⟩
  | sendIng4 hs hack hl =>
    obtain ⟨ha, _, hc, _, hne⟩ := still_step (t := t) hrst (by rw [hs]; rfl)
    exact ⟨.sendEnd (by simp [FPGA2AR9331.nextState, hrst, hs, hl]) (by rwa [ha]), hc, hne⟩
  | sendEnd hs hack =>
    obtain ⟨_, _, hc, _, hne⟩ := still_step (t := t) hrst (by rw [hs]; rfl)
    exact ⟨.delay1 (by simp [FPGA2AR9331.nextState, hrst, hs, hack]), hc, hne⟩
  | delay1 hs =>
    exact ⟨.delay2 (by simp [FPGA2AR9331.nextState, hrst, hs])
      (by simp [FPGA2AR9331.step, FPGA2AR9331.output, hrst, hs]),
      by simp [FPGA2AR9331.step, FPGA2AR9331.output, hrst, hs], by simp [hs]⟩
  | delay2 hs hack =>
    obtain ⟨ha, _, hc, _, hne⟩ := still_step (t := t) hrst (by rw [hs]; rfl)
    exact ⟨.delay2 (by simp [FPGA2AR9331.nextState, hrst, hs, hack]) (hack.trans ha.symm), hc, hne⟩

end Sender

/-! ## 3. Time since the last turn of ACK -/

/-- The log ends with `p` polls, and `g` clocks among them. -/
def Since (l : List LinkEvent) (p g : Nat) : Prop :=
  ∃ l', l' <:+ l ∧ l'.count .poll = p ∧ l'.count .clock = g

section Since

variable {l : List LinkEvent} {p g : Nat}

theorem since_start (l : List LinkEvent) : Since l 0 0 := ⟨[], List.nil_suffix, rfl, rfl⟩

theorem since_append (h : Since l p g) (es : List LinkEvent) :
    Since (l ++ es) (p + es.count .poll) (g + es.count .clock) := by
  obtain ⟨l', ⟨pre, rfl⟩, hp, hg⟩ := h
  exact ⟨l' ++ es, ⟨pre, (List.append_assoc _ _ _).symm⟩, by rw [List.count_append, hp],
    by rw [List.count_append, hg]⟩

theorem timely_since (h : Timely l) (hs : Since l 199 g) : 8 ≤ g := by
  obtain ⟨l', hl', hp, hg⟩ := hs
  rw [← hg]
  exact h l' hl'.isInfix hp

theorem timely_left {l l' : List LinkEvent} (h : Timely (l ++ l')) : Timely l :=
  fun l'' h'' hp => h l'' (h''.trans (List.prefix_append l l').isInfix) hp

end Since

theorem samples_append (l l' : List LinkEvent) : samples (l ++ l') = samples l ++ samples l' :=
  List.filterMap_append

/-! ## 4. The two sides together -/

/-- The receiver has the header and the `k` bytes `bs`. -/
structure Got (r : ReceiveData) (bs : List Byte) : Prop where
  frameType : r.frame.frameType = FPGA2AR9331.header
  bytes : (List.range r.dataLen).map r.frame.data = bs

/-- How far the transfer of a frame of `N` bytes has come; `l` is the log so far. -/
inductive Transfer (N : Nat) (s : Link) (l : List LinkEvent) : Prop where
  | offer (hpc : s.drv.pc = .firstRead) (h0 : s.drv.dataLen = 0) (hf : Holding N s.fpga s.ack)
      (hc : s.fpga.clkOut = some true) (hd : s.fpga.dataOut = some FPGA2AR9331.header)
      (hl : samples l = [])
  | accept (hpc : s.drv.pc = .firstAck) (h0 : s.drv.dataLen = 0) (hf : Holding N s.fpga s.ack)
      (hc : s.fpga.clkOut = some true)
      (hw : s.drv.dataTemp = gpioWord true FPGA2AR9331.header) (hb : s.drv.clkBit = clkWord true)
      (hl : samples l = [])
  /-- The next byte is due. -/
  | await (c : Bool) (r g : Nat) (hpc : s.drv.pc = .poll) (hlt : s.drv.dataLen < N)
      (hb : s.drv.clkBit = clkWord c) (hf : Due (N - s.drv.dataLen) r s.fpga s.ack)
      (hc : s.fpga.clkOut = some c) (ht : s.drv.timer < 199) (hg : g + r ≤ 5)
      (hs : Since l s.drv.timer g) (hl : Got s.drv (samples l))
  /-- It is on the wires. -/
  | shown (c : Bool) (b : Byte) (bs : List Byte) (hpc : s.drv.pc = .poll) (hlt : s.drv.dataLen < N)
      (hb : s.drv.clkBit = clkWord c) (hf : Holding (N - (s.drv.dataLen + 1)) s.fpga s.ack)
      (hc : s.fpga.clkOut = some (!c)) (hd : s.fpga.dataOut = some b) (ht : s.drv.timer < 199)
      (hgot : Got s.drv bs) (hl : samples l = bs ++ [b])
  /-- It has been read. -/
  | read (c : Bool) (b : Byte) (bs : List Byte) (hpc : s.drv.pc = .dataAck) (hlt : s.drv.dataLen < N)
      (hb : s.drv.clkBit = clkWord c) (hf : Holding (N - (s.drv.dataLen + 1)) s.fpga s.ack)
      (hc : s.fpga.clkOut = some c) (hw : s.drv.dataTemp = gpioWord c b) (hgot : Got s.drv bs)
      (hl : samples l = bs ++ [b])
  /-- No byte is left; the receiver polls on. -/
  | close (c : Bool) (r g : Nat) (hpc : s.drv.pc = .poll) (hn : s.drv.dataLen = N)
      (hb : s.drv.clkBit = clkWord c) (hf : Closing s.fpga s.ack r)
      (hc : s.fpga.clkOut = some c) (ht : s.drv.timer < 200) (hg : r = 0 ∨ g + r ≤ 4)
      (hs : Since l s.drv.timer g) (hl : Got s.drv (samples l))
  | expired (hpc : s.drv.pc = .timeoutAck) (hn : s.drv.dataLen = N) (hf : Closing s.fpga s.ack 0)
      (hl : Got s.drv (samples l))
  | returned (hpc : s.drv.pc = .done) (hn : s.drv.frame.len = N) (hrel : s.Released)
      (ht : s.drv.frame.frameType = FPGA2AR9331.header)
      (hl : s.drv.frame.payload = samples l)

section Step

variable {N : Nat} {s : Link} {l : List LinkEvent}

/-- **One clock of the sender.** -/
theorem transfer_clock (h : Transfer N s l) (hpc : s.drv.pc ≠ .done) (en : Bool) (dataIn : Byte)
    (lenIn : BitVec 32) :
    Transfer N (link.step s (.clock en dataIn lenIn))
      (l ++ link.out s (.clock en dataIn lenIn)) := by
  set i : Ar9331In := ⟨true, en, dataIn, lenIn, s.ack⟩ with hi
  have hsilent : s.fpga.currentState ≠ .sendIng2 →
      link.out s (.clock en dataIn lenIn) = [.clock] := by
    intro hne
    show LinkEvent.clock :: _ = _
    rw [if_neg hne]
  have hsame : s.fpga.currentState ≠ .sendIng2 →
      samples (l ++ link.out s (.clock en dataIn lenIn)) = samples l := by
    intro hne
    rw [hsilent hne, samples_append]
    exact List.append_nil _
  cases h with
  | offer hp h0 hf hc hd hl =>
    obtain ⟨hf', hc', hd', hne⟩ := holding_clock (i := i) hf rfl
    exact .offer hp h0 hf' (hc'.trans hc) (hd'.trans hd) ((hsame hne).trans hl)
  | accept hp h0 hf hc hw hb hl =>
    obtain ⟨hf', hc', _, hne⟩ := holding_clock (i := i) hf rfl
    exact .accept hp h0 hf' (hc'.trans hc) hw hb ((hsame hne).trans hl)
  | await c r g hp hlt hb hf hc ht hg hs hl =>
    have hr := hf.due
    obtain ⟨r, rfl⟩ : ∃ r', r = r' + 1 := ⟨r - 1, by omega⟩
    rcases Nat.eq_zero_or_pos r with rfl | hr0
    · obtain ⟨hst, hf', hc', hd'⟩ := due_load (i := i) hf rfl
      have hout : link.out s (.clock en dataIn lenIn) = [.clock, .sample dataIn] := by
        show LinkEvent.clock :: _ = _
        rw [if_pos hst]
      refine .shown c dataIn (samples l) hp hlt hb ?_ (by rw [hc] at hc'; exact hc') hd' ht hl
        (by rw [hout, samples_append]; rfl)
      rwa [Nat.sub_sub] at hf'
    · obtain ⟨hf', hc', _, hne⟩ := due_clock (i := i) hf hr0 rfl
      have hs' := since_append hs [.clock]
      refine .await c r (g + 1) hp hlt hb hf' (hc'.trans hc) ht (by omega) ?_
        (by rw [hsame hne]; exact hl)
      rw [hsilent hne]
      exact hs'
  | shown c b bs hp hlt hb hf hc hd ht hgot hl =>
    obtain ⟨hf', hc', hd', hne⟩ := holding_clock (i := i) hf rfl
    exact .shown c b bs hp hlt hb hf' (hc'.trans hc) (hd'.trans hd) ht hgot ((hsame hne).trans hl)
  | read c b bs hp hlt hb hf hc hw hgot hl =>
    obtain ⟨hf', hc', _, hne⟩ := holding_clock (i := i) hf rfl
    exact .read c b bs hp hlt hb hf' (hc'.trans hc) hw hgot ((hsame hne).trans hl)
  | close c r g hp hn hb hf hc ht hg hs hl =>
    obtain ⟨hf', hc', hne⟩ := closing_clock (i := i) hf rfl
    have hs' := since_append hs [.clock]
    refine .close c (r - 1) (g + 1) hp hn hb hf' (hc'.trans hc) ht (by omega) ?_
      (by rw [hsame hne]; exact hl)
    rw [hsilent hne]
    exact hs'
  | expired hp hn hf hl =>
    obtain ⟨hf', _, hne⟩ := closing_clock (i := i) hf rfl
    exact .expired hp hn hf' (by rw [hsame hne]; exact hl)
  | returned hp => exact absurd hp hpc

section Access

variable (fc : Bool) (fd : Byte)

/-- An access that reads leaves ACK alone, the others turn it over. -/
theorem access_reads (h : s.drv.toggles = false) :
    link.step s (.access fc fd) = { s with drv := s.drv.step (s.word fc fd) } := by
  show Link.mk _ (s.ack ^^ s.drv.toggles) _ = _
  rw [h, Bool.xor_false]

theorem access_turns (h : s.drv.toggles = true) :
    link.step s (.access fc fd) =
      { s with drv := s.drv.step (s.word fc fd), ack := !s.ack } := by
  show Link.mk _ (s.ack ^^ s.drv.toggles) _ = _
  rw [h, Bool.xor_true]

theorem access_poll (hpc : s.drv.pc = .poll) : link.out s (.access fc fd) = [.poll] := if_pos hpc

theorem access_out (hpc : s.drv.pc ≠ .poll) (hd : s.drv.pc ≠ .done) :
    link.out s (.access fc fd) = [.access] := by
  show (if _ then _ else _) = _
  rw [if_neg hpc, if_neg hd]

/-- The word that is read while the sender drives the wires. -/
theorem word_driven {c : Bool} {b : Byte} (hc : s.fpga.clkOut = some c)
    (hd : s.fpga.dataOut = some b) : s.word fc fd = gpioWord c b := by
  rw [Link.word, hc, hd]
  rfl

theorem word_clk {c : Bool} (hc : s.fpga.clkOut = some c) :
    s.word fc fd &&& gpioClk = clkWord c := by
  rw [Link.word, hc, gpioWord_clk]
  rfl

end Access

theorem samples_poll (l : List LinkEvent) : samples (l ++ [.poll]) = samples l := by
  rw [samples_append]
  exact List.append_nil _

theorem samples_access (l : List LinkEvent) : samples (l ++ [.access]) = samples l := by
  rw [samples_append]
  exact List.append_nil _

/-- The bytes after one more has been stored. -/
theorem got_store {r : ReceiveData} {bs : List Byte} (h : Got r bs) (b : Byte) :
    (List.range (r.dataLen + 1)).map (Function.update r.frame.data r.dataLen b) = bs ++ [b] := by
  rw [map_range_update, h.bytes]

/-- A byte has been read: ACK is turned, and the sender owes the next one or is done. -/
theorem access_read (hroom : s.drv.dataLen + 1 < gpioDataLenMax) {c : Bool} {b : Byte}
    {bs : List Byte} (hp : s.drv.pc = .dataAck) (hlt : s.drv.dataLen < N)
    (hb : s.drv.clkBit = clkWord c)
    (hf : Holding (N - (s.drv.dataLen + 1)) s.fpga s.ack) (hc : s.fpga.clkOut = some c)
    (hw : s.drv.dataTemp = gpioWord c b) (hgot : Got s.drv bs) (hl : samples l = bs ++ [b])
    (fc : Bool) (fd : Byte) :
    Transfer N (link.step s (.access fc fd)) (l ++ [.access]) := by
  have hclk : s.drv.dataTemp &&& gpioClk = s.drv.clkBit := by rw [hw, hb, gpioWord_clk]
  have hbyte : gpio2Data s.drv.dataTemp = b := by rw [hw, gpio2Data_gpioWord]
  rw [access_turns fc fd (by simp only [ReceiveData.toggles, hp]),
    ReceiveData.step_dataAck hp hclk hroom, hbyte]
  have hgot' : Got { s.drv with
      frame := { s.drv.frame with data := Function.update s.drv.frame.data s.drv.dataLen b }
      dataLen := s.drv.dataLen + 1, timer := 0, pc := .poll } (samples (l ++ [.access])) :=
    ⟨hgot.frameType, by rw [samples_access, hl]; exact got_store hgot b⟩
  by_cases hlast : s.drv.dataLen + 1 = N
  · rw [hlast, Nat.sub_self] at hf
    obtain ⟨r, hr, hclose⟩ := holding_last hf
    exact .close c r 0 rfl hlast hb hclose hc (Nat.succ_pos 199) (Or.inr (by omega))
      (since_start _) hgot'
  · obtain ⟨r, hr, hdue⟩ := holding_turn hf (by omega)
    have hlt' : s.drv.dataLen + 1 < N := by omega
    exact .await c r 0 rfl hlt' hb hdue hc (Nat.succ_pos 198) (by omega) (since_start _) hgot'

/-- No byte is left: the receiver polls on, and after 200 polls the sender is in `DELAY_2`. -/
theorem access_close {c : Bool} {r g : Nat} (hp : s.drv.pc = .poll) (hn : s.drv.dataLen = N)
    (hb : s.drv.clkBit = clkWord c) (hf : Closing s.fpga s.ack r) (hc : s.fpga.clkOut = some c)
    (ht : s.drv.timer < 200) (hg : r = 0 ∨ g + r ≤ 4) (hs : Since l s.drv.timer g)
    (hl : Got s.drv (samples l)) (fc : Bool) (fd : Byte) (htimely : Timely l) :
    Transfer N (link.step s (.access fc fd)) (l ++ [.poll]) := by
  have hclk : s.word fc fd &&& gpioClk = s.drv.clkBit := (word_clk fc fd hc).trans hb.symm
  have hl' : Got s.drv (samples (l ++ [.poll])) := by rwa [samples_poll]
  rw [access_reads fc fd (by simp only [ReceiveData.toggles, hp])]
  by_cases hend : s.drv.timer + 1 < 200
  · rw [ReceiveData.step_wait hp hclk hend]
    exact .close c r g rfl hn hb hf hc hend hg (since_append hs [.poll])
      ⟨hl'.frameType, hl'.bytes⟩
  · -- 199 polls lie behind the last turn of ACK
    have h199 : s.drv.timer = 199 := by omega
    have h8 := timely_since htimely (h199 ▸ hs)
    have hr : r = 0 := by omega
    rw [ReceiveData.step_timeout hp (congrArg (· + 1) h199)]
    exact .expired rfl hn (hr ▸ hf) ⟨hl'.frameType, hl'.bytes⟩

/-- There is room for every byte of a frame that is short enough. -/
theorem transfer_room (hN' : N < gpioDataLenMax) (h : Transfer N s l) (hpc : s.drv.pc = .dataAck) :
    s.drv.dataLen + 1 < gpioDataLenMax := by
  cases h with
  | read _ _ _ _ hlt => exact Nat.lt_of_le_of_lt hlt hN'
  | offer hp | accept hp | await _ _ _ hp | shown _ _ _ hp | close _ _ _ hp | expired hp
  | returned hp =>
    rw [hp] at hpc
    cases hpc

/-- **One access of the receiver**, before it returns, with room for the byte that it stores. -/
theorem transfer_access (hN : 0 < N) (h : Transfer N s l) (hpc : s.drv.pc ≠ .done)
    (hroom : s.drv.pc = .dataAck → s.drv.dataLen + 1 < gpioDataLenMax) (fc : Bool) (fd : Byte)
    (htimely : Timely (l ++ link.out s (.access fc fd))) :
    Transfer N (link.step s (.access fc fd)) (l ++ link.out s (.access fc fd)) := by
  cases h with
  | offer hp h0 hf hc hd hl =>
    rw [access_out fc fd (by rw [hp]; decide) hpc,
      access_reads fc fd (by simp only [ReceiveData.toggles, hp]), ReceiveData.step_firstRead hp,
      word_driven fc fd hc hd, gpioWord_clk]
    exact .accept rfl h0 hf hc rfl rfl (by rw [samples_access, hl])
  | accept hp h0 hf hc hw hb hl =>
    obtain ⟨r, hr, hdue⟩ := holding_turn hf hN
    have hclk : s.drv.dataTemp &&& gpioClk = s.drv.clkBit := by rw [hw, hb, gpioWord_clk]
    rw [access_out fc fd (by rw [hp]; decide) hpc,
      access_turns fc fd (by simp only [ReceiveData.toggles, hp]),
      ReceiveData.step_firstAck hp hclk]
    refine .await true r 0 rfl (by simpa [h0] using hN) hb (by simpa [h0] using hdue) hc
      (Nat.succ_pos 198) (by omega) (since_start _) ⟨by simp only [hw, gpio2Data_gpioWord], ?_⟩
    rw [samples_access, hl]
    simp [h0]
  | await c r g hp hlt hb hf hc ht hg hs hl =>
    have hclk : s.word fc fd &&& gpioClk = s.drv.clkBit := (word_clk fc fd hc).trans hb.symm
    have hs' := since_append hs [.poll]
    rw [access_poll fc fd hp] at htimely ⊢
    have ht' : s.drv.timer + 1 < 199 := by
      by_contra hge
      have h199 : s.drv.timer + 1 = 199 := by omega
      have h8 := @timely_since _ g htimely (h199 ▸ hs')
      omega
    rw [access_reads fc fd (by simp only [ReceiveData.toggles, hp]),
      ReceiveData.step_wait hp hclk (Nat.lt_succ_of_lt ht')]
    exact .await c r g rfl hlt hb hf hc ht' hg hs'
      (by rw [samples_poll]; exact ⟨hl.frameType, hl.bytes⟩)
  | shown c b bs hp hlt hb hf hc hd ht hgot hl =>
    have hclk : s.word fc fd &&& gpioClk ≠ s.drv.clkBit := by
      rw [word_clk fc fd hc, hb, Ne, clkWord_inj]
      cases c <;> decide
    rw [access_poll fc fd hp, access_reads fc fd (by simp only [ReceiveData.toggles, hp]),
      ReceiveData.step_turn hp hclk (by omega), word_driven fc fd hc hd, gpioWord_clk]
    exact .read (!c) b bs rfl hlt rfl hf hc rfl ⟨hgot.frameType, hgot.bytes⟩
      (by rw [samples_poll, hl])
  | read c b bs hp hlt hb hf hc hw hgot hl =>
    rw [access_out fc fd (by rw [hp]; decide) hpc]
    exact access_read (hroom hp) hp hlt hb hf hc hw hgot hl fc fd
  | close c r g hp hn hb hf hc ht hg hs hl =>
    rw [access_poll fc fd hp] at htimely ⊢
    exact access_close hp hn hb hf hc ht hg hs hl fc fd (timely_left htimely)
  | expired hp hn hf hl =>
    rw [access_out fc fd (by rw [hp]; decide) hpc,
      access_turns fc fd (by simp only [ReceiveData.toggles, hp]),
      ReceiveData.step_timeoutAck hp]
    cases hf with
    | delay2 hs hack =>
      exact .returned rfl hn ⟨hs, by simp [hack]⟩ hl.frameType
        (by rw [samples_access]; exact hl.bytes)
  | returned hp => exact absurd hp hpc

/-- **One step of the transfer** of a frame that is short enough. -/
theorem transfer_step (hN : 1 ≤ N) (hN' : N < gpioDataLenMax) (s : Link) (l : List LinkEvent)
    (i : LinkIn) (hgo : s.drv.pc ≠ .done) (h : Transfer N s l)
    (htimely : Timely (l ++ link.out s i)) :
    Transfer N (link.step s i) (l ++ link.out s i) := by
  cases i with
  | clock en dataIn lenIn => exact transfer_clock h hgo en dataIn lenIn
  | access fc fd => exact transfer_access hN h hgo (transfer_room hN' h) fc fd htimely

end Step

/-! ## 5. A whole frame -/

/-- Accesses in a schedule. -/
def accesses (es : List LinkIn) : Nat := es.countP fun e => match e with
  | .access _ _ => true
  | .clock _ _ _ => false

/-- While the receiver does not return, its accesses use up what it has left. -/
theorem opsLeft_run {s : Link} (hb : s.drv.Bounded) (es : List LinkIn)
    (h : ∀ n ≤ es.length, (link.run s (es.take n)).drv.pc ≠ .done) :
    (link.run s es).drv.opsLeft + accesses es ≤ s.drv.opsLeft := by
  induction es generalizing s with
  | nil => exact Nat.le_refl _
  | cons e es ih =>
    have h0 : s.drv.pc ≠ .done := h 0 (Nat.zero_le _)
    have htail : ∀ n ≤ es.length, (link.run (link.step s e) (es.take n)).drv.pc ≠ .done :=
      fun n hn => h (n + 1) (Nat.succ_le_succ hn)
    cases e with
    | clock en dataIn lenIn => exact ih (s := link.step s (.clock en dataIn lenIn)) hb htail
    | access fc fd =>
      have hlt := ReceiveData.opsLeft_step hb h0 (s.word fc fd)
      have hle := ih (s := link.step s (.access fc fd))
        (ReceiveData.bounded_step hb (s.word fc fd)) htail
      have hcount : accesses (.access fc fd :: es) = accesses es + 1 := by simp [accesses]
      rw [hcount]
      exact Nat.le_trans (Nat.succ_le_succ hle) hlt

/-- Enough accesses, and the receiver returns. -/
theorem receiver_returns {s : Link} {frame : GpioDataFrame} (hs : s.drv = ReceiveData.call frame)
    (es : List LinkIn) (hops : ReceiveData.opsMax ≤ accesses es) :
    ∃ n ≤ es.length, (link.run s (es.take n)).drv.pc = .done := by
  by_contra hnot
  have h : ∀ n ≤ es.length, (link.run s (es.take n)).drv.pc ≠ .done :=
    fun n hn e => hnot ⟨n, hn, e⟩
  have hle := opsLeft_run (by rw [hs]; exact ReceiveData.bounded_call frame) es h
  have hpos := ReceiveData.opsLeft_pos (by simpa using h es.length (Nat.le_refl _))
  have hcall : s.drv.opsLeft = ReceiveData.opsMax := by rw [hs]; rfl
  omega

/-- **Up to the return**: what every step before it keeps holds when `receive_data` returns. -/
theorem until_return {I : Link → List LinkEvent → Prop} {s : Link} {frame : GpioDataFrame}
    (hs : s.drv = ReceiveData.call frame) (h0 : I s [])
    (hstep : ∀ s l i, s.drv.pc ≠ .done → I s l → Timely (l ++ link.out s i) →
      I (link.step s i) (l ++ link.out s i))
    (es : List LinkIn) (htimely : Timely (link.log s es))
    (hops : ReceiveData.opsMax ≤ accesses es) :
    ∃ n ≤ es.length, (∀ m < n, (link.run s (es.take m)).drv.pc ≠ .done) ∧
      (link.run s (es.take n)).drv.pc = .done ∧
      I (link.run s (es.take n)) (link.log s (es.take n)) := by
  obtain ⟨n0, hn0, hdone⟩ := receiver_returns hs es hops
  obtain ⟨n, hn, hret, hfirst⟩ := link.exists_first (P := fun s => s.drv.pc = .done) hdone
  refine ⟨n, hn.trans hn0, hfirst, hret, ?_⟩
  have hinv := link.inv_log_until (I := fun s l => Timely l → I s l)
    (P := fun s => s.drv.pc = .done)
    (fun s l i hgo h ht => hstep s l i hgo (h (timely_left ht)) ht) (fun _ => h0) (es.take n)
    (fun m hm => by
      have hmn : m < n := by
        rw [List.length_take] at hm
        omega
      rw [List.take_take, Nat.min_eq_left (Nat.le_of_lt hmn)]
      exact hfirst m hmn)
  refine hinv ?_
  rw [← List.take_append_drop n es, Machine.log_append] at htimely
  exact timely_left htimely

/-- What has to hold when `receive_data` returns; `l` is the log of the transfer. -/
structure Received (N : Nat) (s : Link) (l : List LinkEvent) : Prop where
  done : s.drv.pc = .done
  frameType : s.drv.frame.frameType = 54#8
  len : s.drv.frame.len = N
  data : s.drv.frame.payload = samples l
  released : s.Released

theorem transfer_done {N : Nat} {s : Link} {l : List LinkEvent} (h : Transfer N s l)
    (hpc : s.drv.pc = .done) : Received N s l := by
  cases h with
  | returned _ hn hrel ht hl => exact ⟨hpc, ht, hn, hl, hrel⟩
  | offer hp | accept hp | await _ _ _ hp | shown _ _ _ hp | read _ _ _ hp | close _ _ _ hp
  | expired hp =>
    rw [hp] at hpc
    cases hpc

theorem transfer_offering {N : Nat} (hN : 0 < N) {s : Link} (h : s.Offering N) :
    Transfer N s [] := by
  refine .offer ?_ ?_ ⟨h.ack, h.len, ?_⟩ h.clkOut h.dataOut rfl
  · rw [h.drv]
    rfl
  · rw [h.drv]
    rfl
  · rcases h.state with hs | hs | hs | hs <;> simp only [hs, holdsAt, hN]

/-- **A frame is received whole**, for every length below 4000, every byte sequence and every
    interleaving that is `Timely`: with enough accesses `receive_data` returns, and at its return it
    has exactly the bytes the sender has sampled, and the sender is released. -/
theorem receive_frame {N : Nat} (hN : 1 ≤ N) (hN' : N < 4000) {s : Link} (hs : s.Offering N)
    (es : List LinkIn) (htimely : Timely (link.log s es))
    (hops : ReceiveData.opsMax ≤ accesses es) :
    ∃ n ≤ es.length, (∀ m < n, (link.run s (es.take m)).drv.pc ≠ .done) ∧
      Received N (link.run s (es.take n)) (link.log s (es.take n)) := by
  obtain ⟨n, hn, hfirst, hret, hinv⟩ := until_return (I := Transfer N) hs.drv
    (transfer_offering hN hs) (transfer_step hN hN') es htimely hops
  exact ⟨n, hn, hfirst, transfer_done hinv hret⟩

/-! ## 6. A schedule that is timely -/

/-- Before every poll the sender makes a clock; `b`: it has made one since the last poll. -/
def Paced : Bool → List LinkEvent → Prop
  | _, [] => True
  | _, .clock :: l => Paced true l
  | b, .poll :: l => b = true ∧ Paced false l
  | b, .sample _ :: l => Paced b l
  | b, .access :: l => Paced b l

theorem paced_true {b : Bool} {l : List LinkEvent} (h : Paced b l) : Paced true l := by
  induction l generalizing b with
  | nil => trivial
  | cons e l ih =>
    cases e with
    | clock => exact h
    | poll => exact ⟨rfl, h.2⟩
    | sample _ | access => exact ih (b := b) h

theorem paced_suffix {b : Bool} {l l' : List LinkEvent} (h : Paced b l) (hl : l' <:+ l) :
    Paced true l' := by
  induction l generalizing b with
  | nil =>
    rw [List.suffix_nil.mp hl]
    trivial
  | cons e l ih =>
    rcases List.suffix_cons_iff.mp hl with rfl | hl'
    · exact paced_true h
    · cases e with
      | clock => exact ih (b := true) h hl'
      | poll => exact ih h.2 hl'
      | sample _ | access => exact ih (b := b) h hl'

theorem paced_count {b : Bool} {l l' : List LinkEvent} (h : Paced b l) (hl : l' <+: l) :
    l'.count .poll ≤ l'.count .clock + if b then 1 else 0 := by
  induction l generalizing b l' with
  | nil =>
    rw [List.prefix_nil.mp hl]
    exact Nat.zero_le _
  | cons e l ih =>
    rcases List.prefix_cons_iff.mp hl with rfl | ⟨l'', rfl, hl''⟩
    · exact Nat.zero_le _
    · cases e with
      | clock =>
        have := ih (b := true) h hl''
        simp only [List.count_cons, if_true] at this ⊢
        simp_all
        omega
      | poll =>
        obtain ⟨rfl, h⟩ := h
        have := ih h hl''
        simpa [List.count_cons] using this
      | sample _ | access =>
        have := ih (b := b) h hl''
        simpa [List.count_cons] using this

theorem timely_of_paced {l : List LinkEvent} (h : Paced true l) : Timely l := by
  intro l' hl' hp
  obtain ⟨l'', hpre, hsuf⟩ := List.infix_iff_prefix_suffix.mp hl'
  have := paced_count (paced_suffix h hsuf) hpre
  simp only [hp, if_true] at this
  omega

/-- A clock and an access, `n` times over, with another byte at every clock. -/
def alternate : Nat → List LinkIn
  | 0 => []
  | n + 1 => .clock false (BitVec.ofNat 8 n) 0 :: .access false 0 :: alternate n

theorem accesses_alternate (n : Nat) : accesses (alternate n) = n := by
  induction n with
  | zero => rfl
  | succ n ih =>
    simp only [accesses, alternate, List.countP_cons] at ih ⊢
    simpa using ih

theorem paced_alternate (n : Nat) (s : Link) (b : Bool) : Paced b (link.log s (alternate n)) := by
  induction n generalizing s b with
  | zero => trivial
  | succ n ih =>
    rw [alternate, Machine.log_cons, Machine.log_cons]
    set s' := link.step s (.clock false (BitVec.ofNat 8 n) 0)
    have hacc : ∀ l, (∀ b, Paced b l) → Paced true (link.out s' (.access false 0) ++ l) := by
      intro l hl
      show Paced true ((if _ then _ else if _ then _ else _) ++ l)
      split
      · exact ⟨rfl, hl false⟩
      · split
        · exact hl true
        · exact hl true
    have h := hacc _ fun b => ih (link.step s' (.access false 0)) b
    show Paced true ((if _ then _ else _) ++ _)
    split <;> exact h

/-- A frame of 100 bytes. -/
def hundredBytes : Link where
  fpga := ⟨.sendStart2, false, 100#32, 0, some true, some FPGA2AR9331.header, false⟩
  ack := false
  drv := ReceiveData.call ⟨0, 0, fun _ => 0⟩

theorem receive_frame_hundred :
    ∃ n ≤ (alternate ReceiveData.opsMax).length,
      (∀ m < n,
        (link.run hundredBytes ((alternate ReceiveData.opsMax).take m)).drv.pc ≠ .done) ∧
      Received 100 (link.run hundredBytes ((alternate ReceiveData.opsMax).take n))
        (link.log hundredBytes ((alternate ReceiveData.opsMax).take n)) :=
  receive_frame (by decide) (by decide) ⟨Or.inl rfl, rfl, rfl, rfl, rfl, rfl⟩
    (alternate ReceiveData.opsMax) (timely_of_paced (paced_alternate _ _ _))
    (Nat.le_of_eq (accesses_alternate _).symm)

end WifiOsc
