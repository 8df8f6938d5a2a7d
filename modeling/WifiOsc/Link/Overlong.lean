/-
  File:      WifiOsc/Link/Overlong.lean
  Subject:   A FRAME THAT IS TOO LONG. `receive_data` leaves its loop at the 4000th byte, with the
             turn of ACK for that byte only; the sender is left where it is.

  With 4000 bytes to send it waits in `DELAY_2` under a high `clk_out`, for a turn that only a call
  without a frame can give. With more it turns `clk_out` low over the next byte and waits there: the
  interrupt, which is on the high level, does not come.

  * `Alternates`: at an even byte the line is high, at an odd one low, whatever the receiver reads;
  * `Overlong`: the transfer up to the return; `overlong_return`: how it ends;
  * `Served`, `serve`: the sender, the calls of `receive_data` and the interrupt between them;
  * `Left`, `atRest_run`, `not_kept`: the sender after a frame that is too long;
  * `Between`, `between_kept`: the sender after one that is not;
  * **`survives_iff`**: a frame is survived exactly when it has fewer than 4000 bytes.
-/
import WifiOsc.Link.Handshake

namespace WifiOsc

open Basis

/-! ## 1. The level at a byte -/

namespace ReceiveData

/-- The level that the variable `clk_bit` stands for, from the first read of a high line on. -/
def Alternates (r : ReceiveData) : Prop :=
  match r.pc with
  | .firstRead | .timeoutAck | .done => True
  | .firstAck => r.clkBit = clkWord true
  | .poll => r.clkBit = clkWord (r.dataLen % 2 == 0)
  | .dataAck => r.clkBit = clkWord (r.dataLen % 2 == 1)

theorem loopTest_dataLen (r : ReceiveData) : r.loopTest.dataLen = r.dataLen := by
  unfold loopTest
  split <;> rfl

/-- A byte is counted where it is acknowledged. -/
theorem step_dataLen (r : ReceiveData) (word : BitVec 32) :
    (r.step word).dataLen = if r.pc = .dataAck then r.dataLen + 1 else r.dataLen := by
  unfold step
  cases hp : r.pc with
  | firstRead | timeoutAck | done => rfl
  | firstAck | poll => exact loopTest_dataLen _
  | dataAck =>
    by_cases hlen : gpioDataLenMax ≤ r.dataLen + 1
    · simp only [if_pos hlen, if_true]
    · simp only [if_neg hlen, if_true]
      exact loopTest_dataLen _

/-- **The levels alternate**, whatever the pins show after the first read. -/
theorem alternates_step {r : ReceiveData} (h : r.Alternates) (hb : r.Bounded) (word : BitVec 32)
    (hfirst : r.pc = .firstRead → word &&& gpioClk = clkWord true) : (r.step word).Alternates := by
  cases hp : r.pc with
  | firstRead =>
    rw [step_firstRead hp]
    exact hfirst hp
  | firstAck =>
    simp only [Alternates, Bounded, hp] at h hb
    rw [step_firstAck hp hb.2]
    show r.clkBit = clkWord (r.dataLen % 2 == 0)
    rw [hb.1, h]
    rfl
  | poll =>
    simp only [Alternates, Bounded, hp] at h hb
    by_cases hend : r.timer + 1 = 200
    · rw [step_timeout hp hend]
      trivial
    · by_cases hclk : word &&& gpioClk = r.clkBit
      · rw [step_wait hp hclk (by omega)]
        exact h
      · rw [step_turn hp hclk (by omega)]
        -- the other of two levels
        show word &&& gpioClk = clkWord (r.dataLen % 2 == 1)
        rw [and_gpioClk, h, clkWord_inj] at hclk
        rw [and_gpioClk, clkWord_inj]
        rcases Nat.mod_two_eq_zero_or_one r.dataLen with hpar | hpar <;>
          rw [hpar] at hclk ⊢ <;> simpa using hclk
  | dataAck =>
    simp only [Alternates, Bounded, hp] at h hb
    obtain hfull | hroom : r.dataLen + 1 = gpioDataLenMax ∨ r.dataLen + 1 < gpioDataLenMax := by
      omega
    · rw [step_full hp hfull]
      trivial
    · rw [step_dataAck hp hb.2 hroom]
      show r.clkBit = clkWord ((r.dataLen + 1) % 2 == 0)
      rw [h, clkWord_inj]
      rcases Nat.mod_two_eq_zero_or_one r.dataLen with hpar | hpar <;>
        simp [Nat.add_mod, hpar]
  | timeoutAck =>
    rw [step_timeoutAck hp]
    trivial
  | done =>
    have hsame : r.step word = r := by simp only [step, hp]
    rw [hsame]
    exact h

/-- Only the turn of ACK after a timeout and the last byte there is room for end the call. -/
theorem step_not_done {r : ReceiveData} (hpc : r.pc ≠ .done) (htime : r.pc ≠ .timeoutAck)
    (hroom : r.pc = .dataAck → r.dataLen + 1 < gpioDataLenMax) (word : BitVec 32) :
    (r.step word).pc ≠ .done := by
  have hloop : ∀ r : ReceiveData, r.loopTest.pc ≠ .done := by
    intro r
    unfold loopTest
    split
    · nofun
    · show (if _ then _ else _) ≠ _
      split <;> nofun
  unfold step
  cases hp : r.pc with
  | firstRead => nofun
  | firstAck | poll => exact hloop _
  | dataAck =>
    simp only [if_neg (Nat.not_le_of_lt (hroom hp))]
    exact hloop _
  | timeoutAck => exact absurd hp htime
  | done => exact absurd hp hpc

end ReceiveData

/-! ## 2. After the return -/

/-- Clocks up to the state in which the sender waits for ACK over a byte. -/
def toWait : Ar9331State → Nat
  | .sendStart2 | .sendIng3 => 3
  | .sendStart3 | .sendIng4 => 2
  | .sendIng0 => 1
  | _ => 0

/-- The sender at most `m` clocks before the state in which it stays, ACK having been turned for the
    4000th byte and not since. `due`, `waiting`: with a byte left; `closing`: without. -/
inductive Left (N : Nat) (t : FPGA2AR9331) (ack : Bool) : Nat → Prop where
  | due (r m : Nat) (hf : Due (N - gpioDataLenMax) r t ack) (hc : t.clkOut = some true)
      (hm : r + 3 ≤ m) : Left N t ack m
  | waiting (n m : Nat) (hf : Holding n t ack) (hc : t.clkOut = some false)
      (hm : toWait t.currentState ≤ m) : Left N t ack m
  | closing (r m : Nat) (hf : Closing t ack r) (hc : t.clkOut = some true) (hm : r ≤ m) :
      Left N t ack m

section Left

variable {N m : Nat} {t : FPGA2AR9331} {i : Ar9331In} {ack : Bool}

theorem toWait_next {n : Nat} (h : Holding n t i.ack) (hrst : i.rstN = true) :
    toWait (t.nextState i) ≤ toWait t.currentState - 1 := by
  obtain ⟨hack, _, hstate⟩ := h
  cases hs : t.currentState <;> rw [hs] at hstate <;> first
    | exact hstate.elim
    | by_cases hl : t.len = 0#32 <;> simp [FPGA2AR9331.nextState, hrst, hs, hack, hl, toWait]

/-- **One clock of the sender** brings it nearer. -/
theorem left_clock (h : Left N t i.ack m) (hrst : i.rstN = true) :
    Left N (t.step i) i.ack (m - 1) := by
  cases h with
  | due r _ hf hc hm =>
    have hr := hf.due
    obtain ⟨r, rfl⟩ : ∃ r', r = r' + 1 := ⟨r - 1, by omega⟩
    rcases Nat.eq_zero_or_pos r with rfl | hr0
    · obtain ⟨hs, hf', hc', _⟩ := due_load hf hrst
      have hnext : (t.step i).currentState = .sendIng3 := by
        simp [FPGA2AR9331.nextState, hrst, hs]
      exact .waiting _ _ hf' (by rw [hc', hc]; rfl) (by rw [hnext]; show 3 ≤ m - 1; omega)
    · obtain ⟨hf', hc', _⟩ := due_clock hf hr0 hrst
      exact .due r _ hf' (hc'.trans hc) (by omega)
  | waiting n _ hf hc hm =>
    obtain ⟨hf', hc', _⟩ := holding_clock hf hrst
    have hnext : toWait (t.step i).currentState ≤ toWait t.currentState - 1 := toWait_next hf hrst
    exact .waiting n _ hf' (hc'.trans hc) (by omega)
  | closing r _ hf hc hm =>
    obtain ⟨hf', hc', _⟩ := closing_clock hf hrst
    exact .closing (r - 1) _ hf' (hc'.trans hc) (by omega)

/-- At the end it waits over a low line, or in `DELAY_2` under a high one. -/
theorem left_end (h : Left N t ack 0) :
    (t.currentState = .sendIng1 ∨ t.currentState = .sendEnd) ∧ ack = t.ackSave ∧
        t.clkOut = some false ∨
      t.currentState = .delay2 ∧ t.clkOut = some true := by
  cases h with
  | due r _ _ _ hm => omega
  | waiting n _ hf hc hm =>
    obtain ⟨hack, _, hstate⟩ := hf
    refine Or.inl ⟨?_, hack, hc⟩
    cases hs : t.currentState <;> rw [hs] at hstate hm <;> first
      | exact hstate.elim
      | exact Or.inl rfl
      | exact Or.inr rfl
      | exact absurd hm (by decide)
  | closing r _ hf hc hm =>
    obtain rfl : r = 0 := by omega
    cases hf with
    | delay2 hs => exact Or.inr ⟨hs, hc⟩

/-- While the line is high the sender is not at the beginning of a frame. -/
theorem left_not_offering {s : Link} (h : Left N s.fpga s.ack m) (hc : s.fpga.clkOut = some true)
    {next : GpioDataFrame} {N' : Nat} :
    ¬ ({ s with drv := ReceiveData.call next } : Link).Offering N' := by
  intro hoff
  have hack : s.ack = s.fpga.ackSave := hoff.ack
  have hstate := hoff.state
  cases h with
  | due r _ hf => exact hf.ack hack
  | waiting n _ hf hlow =>
    rw [hc] at hlow
    cases hlow
  | closing r _ hf =>
    cases hf with
    | sendIng3 hs | sendIng4 hs | sendEnd hs | delay1 hs | delay2 hs => simp [hs] at hstate

theorem left_driven (h : Left N t ack m) : ∃ c, t.clkOut = some c := by
  cases h with
  | due r _ _ hc | waiting n _ _ hc | closing r _ _ hc => exact ⟨_, hc⟩

end Left

/-! ## 3. Up to the return -/

/-- What has to hold when `receive_data` returns from a frame of `N` bytes: it has as many of them
    as there is room for, the first that were sent. -/
structure Stored (N : Nat) (s : Link) (l : List LinkEvent) : Prop where
  frameType : s.drv.frame.frameType = 54#8
  len : s.drv.frame.len = min N 4000
  data : s.drv.frame.payload = samples l

/-- The transfer of a frame of `N` bytes, up to the return. -/
inductive Overlong (N : Nat) (s : Link) (l : List LinkEvent) : Prop where
  | running (h : Transfer N s l) (hpc : s.drv.pc ≠ .done) (hlen : s.drv.dataLen < gpioDataLenMax)
      (hb : s.drv.Bounded) (halt : s.drv.Alternates) : Overlong N s l
  | cut (hpc : s.drv.pc = .done) (ht : Stored N s l) (hleft : Left N s.fpga s.ack 8) :
      Overlong N s l

section Overlong

variable {N : Nat} {s : Link} {l : List LinkEvent}

/-- The 4000th byte: it is stored and acknowledged, and the call is over. -/
theorem overlong_cut (h : Transfer N s l) (hp : s.drv.pc = .dataAck)
    (hfull : s.drv.dataLen + 1 = gpioDataLenMax) (halt : s.drv.Alternates) (fc : Bool) (fd : Byte) :
    Overlong N (link.step s (.access fc fd)) (l ++ link.out s (.access fc fd)) := by
  cases h with
  | read c b bs _ hlt hb hf hc hw hgot hl =>
    have hbyte : gpio2Data s.drv.dataTemp = b := by rw [hw, gpio2Data_gpioWord]
    have hhigh : c = true := by
      have h3999 : s.drv.dataLen = 3999 := Nat.succ.inj hfull
      simp only [ReceiveData.Alternates, hp, hb, clkWord_inj, h3999] at halt
      exact halt
    rw [access_out fc fd (by rw [hp]; decide) (by rw [hp]; decide),
      access_turns fc fd (by simp only [ReceiveData.toggles, hp]), ReceiveData.step_full hp hfull,
      hbyte]
    have hstore := got_store hgot b
    rw [hfull] at hstore
    have hle : gpioDataLenMax ≤ N := by omega
    refine .cut rfl ⟨hgot.frameType, (Nat.min_eq_right hle).symm, ?_⟩ ?_
    · rw [samples_access, hl]
      exact hstore
    · rw [hfull] at hf
      rw [hhigh] at hc
      rcases Nat.eq_zero_or_pos (N - gpioDataLenMax) with hzero | hpos
      · rw [hzero] at hf
        obtain ⟨r, hr, hclose⟩ := holding_last hf
        exact .closing r 8 hclose hc (by omega)
      · obtain ⟨r, hr, hdue⟩ := holding_turn hf hpos
        exact .due r 8 hdue hc (by omega)
  | offer hpc | accept hpc | await _ _ _ hpc | shown _ _ _ hpc | close _ _ _ hpc | expired hpc
  | returned hpc =>
    rw [hp] at hpc
    cases hpc

/-- The first read finds a high line. -/
theorem transfer_first (h : Transfer N s l) (hp : s.drv.pc = .firstRead) (fc : Bool) (fd : Byte) :
    s.word fc fd &&& gpioClk = clkWord true := by
  cases h with
  | offer _ _ _ hc => exact word_clk fc fd hc
  | accept hpc | await _ _ _ hpc | shown _ _ _ hpc | read _ _ _ hpc | close _ _ _ hpc | expired hpc
  | returned hpc =>
    rw [hp] at hpc
    cases hpc

/-- The receiver does not run out of time before the end of the frame. -/
theorem transfer_in_time (h : Transfer N s l) (hlt : s.drv.dataLen < N) (hpc : s.drv.pc ≠ .done) :
    s.drv.pc ≠ .timeoutAck := by
  cases h with
  | offer hp | accept hp | await _ _ _ hp | shown _ _ _ hp | read _ _ _ hp | close _ _ _ hp =>
    rw [hp]
    nofun
  | expired _ hn => exact absurd hn (Nat.ne_of_lt hlt)
  | returned hp => exact absurd hp hpc

/-- **One step of the transfer.** -/
theorem overlong_step (hN : gpioDataLenMax ≤ N) (s : Link) (l : List LinkEvent) (i : LinkIn)
    (hgo : s.drv.pc ≠ .done) (h : Overlong N s l) (htimely : Timely (l ++ link.out s i)) :
    Overlong N (link.step s i) (l ++ link.out s i) := by
  cases h with
  | cut hpc => exact absurd hpc hgo
  | running h hpc hlen hb halt =>
    cases i with
    | clock en dataIn lenIn =>
      exact .running (transfer_clock h hpc en dataIn lenIn) hpc hlen hb halt
    | access fc fd =>
      by_cases hfull : s.drv.pc = .dataAck ∧ s.drv.dataLen + 1 = gpioDataLenMax
      · exact overlong_cut h hfull.1 hfull.2 halt fc fd
      · have hroom : s.drv.pc = .dataAck → s.drv.dataLen + 1 < gpioDataLenMax := by
          intro hp
          have hne : s.drv.dataLen + 1 ≠ gpioDataLenMax := fun e => hfull ⟨hp, e⟩
          omega
        have hdone : (s.drv.step (s.word fc fd)).pc ≠ .done :=
          ReceiveData.step_not_done hpc (transfer_in_time h (by omega) hpc) hroom _
        refine .running (transfer_access (by unfold gpioDataLenMax at hN; omega) h hpc hroom fc fd
          htimely) hdone ?_ (ReceiveData.bounded_step hb _)
          (ReceiveData.alternates_step halt hb _ fun hp => transfer_first h hp fc fd)
        show (s.drv.step (s.word fc fd)).dataLen < gpioDataLenMax
        rw [ReceiveData.step_dataLen]
        split
        case isTrue hp => exact hroom hp
        case isFalse => exact hlen

/-- **The return**: in every interleaving that is `Timely`, with enough accesses. -/
theorem overlong_return (hN : gpioDataLenMax ≤ N) (hs : s.Offering N) (es : List LinkIn)
    (htimely : Timely (link.log s es)) (hops : ReceiveData.opsMax ≤ accesses es) :
    ∃ n ≤ es.length, (∀ m < n, (link.run s (es.take m)).drv.pc ≠ .done) ∧
      (link.run s (es.take n)).drv.pc = .done ∧
      Stored N (link.run s (es.take n)) (link.log s (es.take n)) ∧
      Left N (link.run s (es.take n)).fpga (link.run s (es.take n)).ack 8 := by
  have h0 : Overlong N s [] := by
    have hpos : 0 < N := by unfold gpioDataLenMax at hN; omega
    refine .running (transfer_offering hpos hs) ?_ ?_ ?_ ?_ <;> rw [hs.drv]
    · nofun
    · exact Nat.succ_pos 3999
    · exact ReceiveData.bounded_call _
    · trivial
  obtain ⟨n, hn, hfirst, hret, hinv⟩ := until_return (I := Overlong N) hs.drv h0
    (overlong_step hN) es htimely hops
  cases hinv with
  | running _ hpc => exact absurd hret hpc
  | cut hpc ht hleft => exact ⟨n, hn, hfirst, hpc, ht, hleft⟩

end Overlong

/-! ## 4. The calls -/

/-- The wires with both sides, and whether the interrupt is enabled. -/
structure Served where
  wires : Link
  enabled : Bool

/-- Who moves. `finish`: the last statement of `tasklet_handler`. `interrupt`: the level is looked
    at, `floatClk` where it is not driven; a high one brings `irq_handler` and the tasklet, up to
    the call of `receive_data` with the next slot of the queue, in which there is room. -/
inductive ServeIn where
  | move (i : LinkIn)
  | finish
  | interrupt (floatClk : Bool) (next : GpioDataFrame)

namespace Served

/-- Does a call of `receive_data` begin? -/
def calls (s : Served) : ServeIn → Bool
  | .interrupt floatClk _ => s.enabled && s.wires.fpga.clkOut.getD floatClk
  | .move _ | .finish => false

def step (s : Served) : ServeIn → Served
  | .move i => { s with wires := link.step s.wires i }
  | .finish => { s with enabled := s.enabled || s.wires.drv.pc == .done }
  | .interrupt floatClk next =>
      if s.calls (.interrupt floatClk next) then
        { wires := { s.wires with drv := ReceiveData.call next }, enabled := false }
      else s

/-- The tasklet has finished, the sender waits for a turn of ACK, and the line is low. -/
def Stuck (s : Served) : Prop :=
  s.enabled = true ∧ (s.wires.fpga.currentState = .sendIng1 ∨ s.wires.fpga.currentState = .sendEnd ∨
    s.wires.fpga.currentState = .delay2) ∧ s.wires.ack = s.wires.fpga.ackSave ∧
    s.wires.fpga.clkOut = some false

end Served

def serve : Machine Served ServeIn LinkEvent where
  step := Served.step
  out s
    | .move i => link.out s.wires i
    | .finish | .interrupt _ _ => []

/-- **The handshake is kept** after a return, up to the next call: the sender is never stuck, and
    the call, if it comes, finds a frame offered, with the header on the wires. -/
def HandshakeKept (s : Served) : List ServeIn → Prop
  | [] => ¬ s.Stuck
  | i :: is =>
      ¬ s.Stuck ∧
        if s.calls i then ∃ N, (s.step i).wires.Offering N else HandshakeKept (s.step i) is

/-- Clocks of the sender in a schedule. -/
def clocks (es : List ServeIn) : Nat := es.countP fun e => match e with
  | .move (.clock _ _ _) => true
  | .move (.access _ _) | .finish | .interrupt _ _ => false

/-- The tasklet finishes in the schedule. -/
def finishes (es : List ServeIn) : Bool := es.any fun e => match e with
  | .finish => true
  | .move _ | .interrupt _ _ => false

theorem HandshakeKept.not_stuck {s : Served} {es : List ServeIn} (h : HandshakeKept s es) :
    ¬ s.Stuck := by
  cases es with
  | nil => exact h
  | cons i is => exact h.1

section Serve

variable {N m : Nat} {s : Served}

/-- After the return there are no accesses. -/
theorem access_done {w : Link} (hd : w.drv.pc = .done) (fc : Bool) (fd : Byte) :
    link.step w (.access fc fd) = w := by
  have htoggles : w.drv.toggles = false := by simp only [ReceiveData.toggles, hd]
  rw [access_reads fc fd htoggles]
  simp only [ReceiveData.step, hd]

theorem calls_line {floatClk : Bool} {next : GpioDataFrame}
    (hcall : s.calls (.interrupt floatClk next) = true) :
    s.enabled = true ∧ s.wires.fpga.clkOut.getD floatClk = true := by
  simpa [Served.calls] using hcall

theorem interrupt_ignored {floatClk : Bool} {next : GpioDataFrame}
    (hcall : s.calls (.interrupt floatClk next) = false) :
    s.step (.interrupt floatClk next) = s := by
  show (if _ then _ else _) = _
  rw [hcall]
  rfl

/-- What is kept after the return, up to the next call. -/
structure AtRest (N m : Nat) (s : Served) : Prop where
  left : Left N s.wires.fpga s.wires.ack m
  done : s.wires.drv.pc = .done

/-- No call comes in time for the handshake to be kept. -/
theorem atRest_no_call (h : AtRest N m s) {i : ServeIn} {is : List ServeIn}
    (hk : HandshakeKept s (i :: is)) : s.calls i = false := by
  cases hcall : s.calls i with
  | false => rfl
  | true =>
    obtain ⟨_, hoff⟩ := hk
    rw [if_pos hcall] at hoff
    obtain ⟨N', hoff⟩ := hoff
    cases i with
    | move _ | finish => cases hcall
    | interrupt floatClk next =>
      obtain ⟨c, hc⟩ := left_driven h.left
      have hline := calls_line hcall
      have hhigh : s.wires.fpga.clkOut = some true := by
        rw [hc] at hline ⊢
        exact congrArg some hline.2
      simp only [Served.step, if_pos hcall] at hoff
      exact absurd hoff (left_not_offering h.left hhigh)

theorem atRest_step (h : AtRest N m s) (i : ServeIn) (hcall : s.calls i = false) :
    AtRest N (m - clocks [i]) (s.step i) ∧
      (s.enabled = true ∨ finishes [i] = true → (s.step i).enabled = true) := by
  cases i with
  | move i =>
    refine ⟨?_, fun he => he.resolve_right nofun⟩
    cases i with
    | clock en dataIn lenIn =>
      exact ⟨left_clock (i := ⟨true, en, dataIn, lenIn, s.wires.ack⟩) h.left rfl, h.done⟩
    | access fc fd =>
      show AtRest N m { s with wires := link.step s.wires (.access fc fd) }
      rw [access_done h.done fc fd]
      exact h
  | finish =>
    refine ⟨⟨h.left, h.done⟩, ?_⟩
    intro _
    show (s.enabled || s.wires.drv.pc == .done) = true
    rw [h.done]
    exact Bool.or_true _
  | interrupt floatClk next =>
    rw [interrupt_ignored hcall]
    exact ⟨h, fun he => he.resolve_right nofun⟩

/-- **While the handshake is kept nothing is called**, and the sender comes to where it stays. -/
theorem atRest_run (h : AtRest N m s) (es later : List ServeIn)
    (hk : HandshakeKept s (es ++ later)) :
    AtRest N (m - clocks es) (serve.run s es) ∧
      (s.enabled = true ∨ finishes es = true → (serve.run s es).enabled = true) ∧
      HandshakeKept (serve.run s es) later := by
  induction es generalizing s m with
  | nil => exact ⟨h, fun he => he.resolve_right nofun, hk⟩
  | cons i es ih =>
    have hcall := atRest_no_call h hk
    obtain ⟨hstep, hon⟩ := atRest_step h i hcall
    have hnext : HandshakeKept (s.step i) (es ++ later) := by
      have hk' := hk.2
      rwa [hcall, if_neg Bool.false_ne_true] at hk'
    obtain ⟨hrest, hon', hkept⟩ := ih hstep hnext
    have hclocks : clocks ([i] ++ es) = clocks [i] + clocks es := List.countP_append
    have hfinish : finishes ([i] ++ es) = (finishes [i] || finishes es) := List.any_append
    refine ⟨?_, fun he => hon' ?_, hkept⟩
    · show AtRest N (m - clocks ([i] ++ es)) _
      rwa [hclocks, ← Nat.sub_sub]
    · change _ ∨ finishes ([i] ++ es) = true at he
      rw [hfinish, Bool.or_eq_true] at he
      rcases he with he | he | he
      · exact Or.inl (hon (Or.inl he))
      · exact Or.inl (hon (Or.inr he))
      · exact Or.inr he

/-- **The handshake is not kept** once the tasklet has finished, the sender has made eight clocks
    and the interrupt is looked at: with a byte left the sender is stuck, without one a call comes and
    finds no frame. -/
theorem not_kept (h : AtRest N 8 s) {es : List ServeIn} (hfin : finishes es = true)
    (hclk : 8 ≤ clocks es) (floatClk : Bool) (next : GpioDataFrame) (later : List ServeIn) :
    ¬ HandshakeKept s (es ++ .interrupt floatClk next :: later) := by
  intro hk
  obtain ⟨hrest, hon, hkept⟩ := atRest_run h es _ hk
  rw [Nat.sub_eq_zero_of_le hclk] at hrest
  have henabled := hon (Or.inr hfin)
  rcases left_end hrest.left with ⟨hstate, hack, hlow⟩ | ⟨_, hhigh⟩
  · refine hkept.not_stuck ⟨henabled, ?_, hack, hlow⟩
    rcases hstate with hs | hs
    · exact Or.inl hs
    · exact Or.inr (Or.inl hs)
  · have hcall := atRest_no_call hrest hkept
    simp only [Served.calls, henabled, hhigh, Option.getD_some] at hcall
    cases hcall

end Serve

/-! ## 5. After a frame that is short enough -/

/-- Between two frames: the line is low, or the next frame is offered. -/
inductive Between (t : FPGA2AR9331) (ack : Bool) : Prop where
  | quiet (hs : t.currentState = .delay3 ∨ t.currentState = .idle ∨ t.currentState = .sendStartSave)
      (hc : t.clkOut = some false) : Between t ack
  | start (hs : t.currentState = .sendStart) (hack : ack = t.ackSave) (hc : t.clkOut = some false)
      (hd : t.dataOut = some FPGA2AR9331.header) : Between t ack
  | offered (hs : t.currentState = .sendStart2 ∨ t.currentState = .sendStart3 ∨
      t.currentState = .sendIng0 ∨ t.currentState = .sendIng1) (hack : ack = t.ackSave)
      (hc : t.clkOut = some true) (hd : t.dataOut = some FPGA2AR9331.header) : Between t ack

section Between

variable {t : FPGA2AR9331} {i : Ar9331In} {s : Served}

/-- The first clock of `DELAY_3` takes the line down. -/
theorem delay3_clock (hs : t.currentState = .delay3) (hrst : i.rstN = true) (ack : Bool) :
    Between (t.step i) ack := by
  refine .quiet ?_ (by simp [FPGA2AR9331.step, FPGA2AR9331.output, hrst, hs])
  by_cases hd : FPGA2AR9331.delayLen ≤ t.delayCounter <;>
    simp [FPGA2AR9331.nextState, hrst, hs, hd]

theorem between_clock (h : Between t i.ack) (hrst : i.rstN = true) : Between (t.step i) i.ack := by
  cases h with
  | quiet hs hc =>
    rcases hs with hs | hs | hs
    · exact delay3_clock hs hrst i.ack
    · refine .quiet ?_ (by simp [FPGA2AR9331.step, FPGA2AR9331.output, hrst, hs, hc])
      cases he : i.en <;> simp [FPGA2AR9331.nextState, hrst, hs, he]
    · exact .start (by simp [FPGA2AR9331.nextState, hrst, hs])
        (by simp [FPGA2AR9331.step, FPGA2AR9331.output, hrst, hs])
        (by simp [FPGA2AR9331.step, FPGA2AR9331.output, hrst, hs, hc])
        (by simp [FPGA2AR9331.step, FPGA2AR9331.output, hrst, hs])
  | start hs hack hc hd =>
    exact .offered (Or.inl (by simp [FPGA2AR9331.nextState, hrst, hs]))
      (by simp [FPGA2AR9331.step, FPGA2AR9331.output, hrst, hs, hack])
      (by simp [FPGA2AR9331.step, FPGA2AR9331.output, hrst, hs])
      (by simp [FPGA2AR9331.step, FPGA2AR9331.output, hrst, hs, hd])
  | offered hs hack hc hd =>
    have hstill : still t.currentState = true := by
      rcases hs with hs | hs | hs | hs <;> rw [hs] <;> rfl
    obtain ⟨ha, _, hc', hd', _⟩ := still_step hrst hstill
    refine .offered ?_ (hack.trans ha.symm) (hc'.trans hc) (hd'.trans hd)
    rcases hs with hs | hs | hs | hs <;> simp [FPGA2AR9331.nextState, hrst, hs, hack]

/-- A sender that has been released, at most `k` clocks before it is between two frames. -/
inductive Freed (t : FPGA2AR9331) (ack : Bool) : Nat → Prop where
  | released (hs : t.currentState = .delay2) (hack : ack ≠ t.ackSave) : Freed t ack 2
  | delaying (hs : t.currentState = .delay3) : Freed t ack 1
  | between (h : Between t ack) : Freed t ack 0

theorem freed_clock {k : Nat} (h : Freed t i.ack k) (hrst : i.rstN = true) :
    Freed (t.step i) i.ack (k - 1) := by
  cases h with
  | released hs hack => exact .delaying (by simp [FPGA2AR9331.nextState, hrst, hs, hack])
  | delaying hs => exact .between (delay3_clock hs hrst i.ack)
  | between h => exact .between (between_clock h hrst)

/-- The clocks of a run after the return. -/
theorem freed_run {w : Link} {k : Nat} (h : Freed w.fpga w.ack k) (hd : w.drv.pc = .done)
    (pre : List LinkIn) :
    Freed (link.run w pre).fpga (link.run w pre).ack (k - clocks (pre.map .move)) ∧
      (link.run w pre).drv.pc = .done := by
  induction pre generalizing w k with
  | nil => exact ⟨h, hd⟩
  | cons i pre ih =>
    cases i with
    | access fc fd =>
      rw [Machine.run_cons, access_done hd fc fd]
      exact ih h hd
    | clock en dataIn lenIn =>
      have hclocks : clocks ((LinkIn.clock en dataIn lenIn :: pre).map .move) =
          clocks (pre.map .move) + 1 := List.countP_cons_of_pos rfl
      rw [hclocks, Nat.add_comm, ← Nat.sub_sub]
      exact ih (w := link.step w (.clock en dataIn lenIn))
        (freed_clock (i := ⟨true, en, dataIn, lenIn, w.ack⟩) h rfl) hd

theorem between_not_stuck (h : Between s.wires.fpga s.wires.ack) : ¬ s.Stuck := by
  intro hstuck
  obtain ⟨_, hstate, _, hlow⟩ := hstuck
  cases h with
  | quiet hs => rcases hs with hs | hs | hs <;> simp [hs] at hstate
  | start hs => simp [hs] at hstate
  | offered _ _ hc =>
    rw [hc] at hlow
    cases hlow

/-- A call finds a frame offered. -/
theorem between_call (h : Between s.wires.fpga s.wires.ack) {e : ServeIn}
    (hcall : s.calls e = true) :
    ∃ N, (s.step e).wires.Offering N := by
  cases e with
  | move _ | finish => cases hcall
  | interrupt floatClk next =>
    have hline := calls_line hcall
    simp only [Served.step, if_pos hcall]
    cases h with
    | quiet _ hc | start _ _ hc =>
      rw [hc] at hline
      cases hline.2
    | offered hs hack hc hd => exact ⟨_, hs, hack, rfl, hc, hd, rfl⟩

theorem between_step (h : Between s.wires.fpga s.wires.ack) (hd : s.wires.drv.pc = .done)
    {e : ServeIn} (hcall : s.calls e = false) :
    Between (s.step e).wires.fpga (s.step e).wires.ack ∧ (s.step e).wires.drv.pc = .done := by
  cases e with
  | finish => exact ⟨h, hd⟩
  | interrupt floatClk next =>
    rw [interrupt_ignored hcall]
    exact ⟨h, hd⟩
  | move e =>
    cases e with
    | clock en dataIn lenIn =>
      exact ⟨between_clock (i := ⟨true, en, dataIn, lenIn, s.wires.ack⟩) h rfl, hd⟩
    | access fc fd =>
      have hsame : s.step (.move (.access fc fd)) = s :=
        congrArg (Served.mk · s.enabled) (access_done hd fc fd)
      rw [hsame]
      exact ⟨h, hd⟩

/-- **Between two frames the handshake is kept**, however long the next one is waited for. -/
theorem between_kept (h : Between s.wires.fpga s.wires.ack) (hd : s.wires.drv.pc = .done)
    (later : List ServeIn) : HandshakeKept s later := by
  induction later generalizing s with
  | nil => exact between_not_stuck h
  | cons e later ih =>
    refine ⟨between_not_stuck h, ?_⟩
    split
    case isTrue hcall => exact between_call h hcall
    case isFalse hcall =>
      obtain ⟨h', hd'⟩ := between_step h hd (Bool.eq_false_iff.mpr hcall)
      exact ih h' hd'

end Between

/-! ## 6. Every length -/

/-- `receive_data` returns after the first `n` steps, and not before. -/
def Returns (s : Link) (es : List LinkIn) (n : Nat) : Prop :=
  n ≤ es.length ∧ (∀ m < n, (link.run s (es.take m)).drv.pc ≠ .done) ∧
    (link.run s (es.take n)).drv.pc = .done

theorem Returns.unique {s : Link} {es : List LinkIn} {n n' : Nat} (h : Returns s es n)
    (h' : Returns s es n') : n = n' := by
  rcases Nat.lt_trichotomy n n' with hlt | heq | hgt
  · exact absurd h.2.2 (h'.2.1 n hlt)
  · exact heq
  · exact absurd h'.2.2 (h.2.1 n' hgt)

/-- With the interrupt off nothing can go wrong: only the sender moves. -/
theorem kept_moves {w : Link} (pre : List LinkIn) (later : List ServeIn) :
    HandshakeKept ⟨w, false⟩ (pre.map .move ++ later) ↔
      HandshakeKept ⟨link.run w pre, false⟩ later := by
  induction pre generalizing w with
  | nil => exact Iff.rfl
  | cons i pre ih =>
    have hfree : ¬ (⟨w, false⟩ : Served).Stuck := fun h => nomatch h.1
    exact Iff.trans ⟨fun h => h.2, fun h => ⟨hfree, h⟩⟩ ih

/-- **What is promised of a frame of `N` bytes**, in every interleaving that is `Timely`:
    `receive_data` returns with the bytes there is room for, and where the sender makes eight clocks
    before the tasklet finishes, the handshake is kept. -/
def Survives (N : Nat) (s : Link) : Prop :=
  ∀ es, Timely (link.log s es) → ReceiveData.opsMax ≤ accesses es →
    ∃ n, Returns s es n ∧ Stored N (link.run s (es.take n)) (link.log s (es.take n)) ∧
      ∀ (pre : List LinkIn) (later : List ServeIn), 8 ≤ clocks (pre.map .move) →
        HandshakeKept ⟨link.run s (es.take n), false⟩ (pre.map .move ++ later)

section Every

variable {N : Nat} {s : Link}

theorem survives_of_lt (hN : 1 ≤ N) (hN' : N < 4000) (hs : s.Offering N) : Survives N s := by
  intro es htimely hops
  obtain ⟨n, hn, hfirst, hret, hinv⟩ := until_return (I := Transfer N) hs.drv
    (transfer_offering hN hs) (transfer_step hN hN') es htimely hops
  have hrec := transfer_done hinv hret
  refine ⟨n, ⟨hn, hfirst, hrec.done⟩, ⟨hrec.frameType, ?_, hrec.data⟩, fun pre later hpre => ?_⟩
  · rw [hrec.len, Nat.min_eq_left (Nat.le_of_lt hN')]
  · obtain ⟨hfree, hd⟩ := freed_run (.released hrec.released.1 hrec.released.2) hrec.done pre
    rw [Nat.sub_eq_zero_of_le (by omega)] at hfree
    rw [kept_moves]
    cases hfree with
    | between h => exact between_kept h hd later

/-- The return of `receive_data` from a longer frame, and what comes of it. -/
theorem broken_of_ge (hN : 4000 ≤ N) (hs : s.Offering N) (es : List LinkIn)
    (htimely : Timely (link.log s es)) (hops : ReceiveData.opsMax ≤ accesses es) :
    ∃ n, Returns s es n ∧ Stored N (link.run s (es.take n)) (link.log s (es.take n)) ∧
      ∀ (later : List ServeIn) (floatClk : Bool) (next : GpioDataFrame) (rest : List ServeIn),
        finishes later = true → 8 ≤ clocks later →
          ¬ HandshakeKept ⟨link.run s (es.take n), false⟩
            (later ++ .interrupt floatClk next :: rest) := by
  obtain ⟨n, hn, hfirst, hret, hstored, hleft⟩ := overlong_return hN hs es htimely hops
  refine ⟨n, ⟨hn, hfirst, hret⟩, hstored, ?_⟩
  intro later floatClk next rest hfin hclk
  have hrest : AtRest N 8 ⟨link.run s (es.take n), false⟩ := ⟨hleft, hret⟩
  exact not_kept hrest hfin hclk floatClk next rest

/-- Eight clocks of the sender. -/
def eightClocks : List LinkIn := List.replicate 8 (.clock false 0 0)

theorem not_survives_of_ge (hN : 4000 ≤ N) (hs : s.Offering N) : ¬ Survives N s := by
  intro hsur
  have htimely := timely_of_paced (paced_alternate ReceiveData.opsMax s true)
  have hops : ReceiveData.opsMax ≤ accesses (alternate ReceiveData.opsMax) :=
    Nat.le_of_eq (accesses_alternate _).symm
  obtain ⟨n, hn, _, hkept⟩ := hsur _ htimely hops
  obtain ⟨n', hn', _, hbroken⟩ := broken_of_ge hN hs _ htimely hops
  obtain rfl := hn.unique hn'
  have hk := hkept eightClocks [.finish, .interrupt false s.drv.frame] (by decide)
  exact hbroken (eightClocks.map .move ++ [.finish]) false s.drv.frame [] (by decide) (by decide) hk

/-- **A frame is survived exactly when it is short enough.** A longer one is stored up to the 4000th
    byte, and in every run in which the tasklet then finishes, the sender makes eight clocks and the
    interrupt is looked at, the handshake is broken. -/
theorem survives_iff (hN : 1 ≤ N) (hs : s.Offering N) :
    (Survives N s ↔ N < 4000) ∧
    (4000 ≤ N → ∀ es, Timely (link.log s es) → ReceiveData.opsMax ≤ accesses es →
      ∃ n, Returns s es n ∧ Stored N (link.run s (es.take n)) (link.log s (es.take n)) ∧
        ∀ (later : List ServeIn) (floatClk : Bool) (next : GpioDataFrame) (rest : List ServeIn),
          finishes later = true → 8 ≤ clocks later →
            ¬ HandshakeKept ⟨link.run s (es.take n), false⟩
              (later ++ .interrupt floatClk next :: rest)) := by
  refine ⟨⟨fun hsur => ?_, fun hlt => survives_of_lt hN hlt hs⟩, fun hge => broken_of_ge hge hs⟩
  exact Nat.lt_of_not_le fun hge => not_survives_of_ge hge hs hsur

end Every

/-- A frame of `len` bytes, with ACK low. -/
def offeredFrame (len : BitVec 32) : Link where
  fpga := ⟨.sendStart2, false, len, 0, some true, some FPGA2AR9331.header, false⟩
  ack := false
  drv := ReceiveData.call ⟨0, 0, fun _ => 0⟩

/-- The longest frame that is survived, and the next. -/
theorem survives_iff_border :
    Survives 3999 (offeredFrame 3999#32) ∧ ¬ Survives 4000 (offeredFrame 4000#32) :=
  ⟨(survives_iff (by decide) ⟨Or.inl rfl, rfl, rfl, rfl, rfl, rfl⟩).1.mpr (by decide),
    fun h => absurd
      ((survives_iff (by decide) ⟨Or.inl rfl, rfl, rfl, rfl, rfl, rfl⟩).1.mp h) (by decide)⟩

/-- One byte more: the sender waits over the 4001st, under a low line. -/
theorem survives_not_4001 : ¬ Survives 4001 (offeredFrame 4001#32) :=
  not_survives_of_ge (by decide) ⟨Or.inl rfl, rfl, rfl, rfl, rfl, rfl⟩

end WifiOsc
