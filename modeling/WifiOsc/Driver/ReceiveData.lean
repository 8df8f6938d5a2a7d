/-
  File:      WifiOsc/Driver/ReceiveData.lean
  Subject:   `receive_data` (LINUX/test_gpio_interrupt/src/gpio_interrupt.c), one GPIO access at a
             time, and the pins it reads (gpio_interrupt.h).

  Between two accesses of the GPIO registers the function works on its own variables only, so a
  step is one access with the statements up to the next one. The `u32` counters `timer` and
  `data_len` stay below 201 and 4001 and are `Nat`; `data` is a function of the index.

  * `ReceiveData.step`: one access;
  * `gpio2Data_gpioWord`, `gpioWord_clk`: what is read off a word that shows a byte and a clock;
  * `opsLeft_step`: every access brings the return nearer, whatever the pins show.
-/
import Mathlib.Data.BitVec
import Mathlib.Logic.Function.Basic
import WifiOsc.Fpga.Uart

namespace WifiOsc

/-! ## 1. Pins -/

/-- `GPIO_CLK`. -/
def gpioClk : BitVec 32 := 1#32 <<< 22

/-- `Gpio2Data`, stored into a `u8`. -/
def gpio2Data (dataTemp : BitVec 32) : Byte :=
  (((dataTemp &&& 1#32) <<< 7) + ((dataTemp >>> 11).setWidth 8).setWidth 32).setWidth 8

/-- The input word when pin 22 shows `clk`, pin 0 and pins 17 to 11 show `data`, and the other
    pins are 0. -/
def gpioWord (clk : Bool) (data : Byte) : BitVec 32 :=
  (BitVec.ofBool clk ++ 0#4 ++ data.extractLsb 6 0 ++ 0#10 ++ data.extractLsb 7 7).setWidth 32

/-- Pin 22 alone. -/
def clkWord (clk : Bool) : BitVec 32 := if clk then gpioClk else 0#32

theorem gpio2Data_gpioWord : ∀ (clk : Bool) (data : Byte), gpio2Data (gpioWord clk data) = data := by
  decide +kernel

theorem gpioWord_clk : ∀ (clk : Bool) (data : Byte), gpioWord clk data &&& gpioClk = clkWord clk := by
  decide +kernel

theorem clkWord_inj {c c' : Bool} : clkWord c = clkWord c' ↔ c = c' := by
  revert c c'
  decide

/-- Pin 22. -/
def clkPin (word : BitVec 32) : Bool := word.getLsbD 22

theorem and_gpioClk (word : BitVec 32) : word &&& gpioClk = clkWord (clkPin word) := by
  have htwo : gpioClk = BitVec.twoPow 32 22 := by decide
  rw [htwo, BitVec.and_twoPow, clkPin, clkWord, htwo]

/-! ## 2. The function -/

/-- `GPIO_DATA_LEN_MAX`. -/
def gpioDataLenMax : Nat := 4000

/-- `gpio_data_frame`, the fields that are written and read. -/
structure GpioDataFrame where
  len : Nat
  frameType : Byte
  data : Nat → Byte

/-- The bytes a frame holds. -/
def GpioDataFrame.payload (f : GpioDataFrame) : List Byte := (List.range f.len).map f.data

/-- What is stored is appended. -/
theorem map_range_update {β : Type} (f : Nat → β) (n : Nat) (b : β) :
    (List.range (n + 1)).map (Function.update f n b) = (List.range n).map f ++ [b] := by
  rw [List.range_succ, List.map_append, List.map_singleton, Function.update_self]
  congr 1
  refine List.map_congr_left fun m hm => Function.update_of_ne ?_ _ _
  exact Nat.ne_of_lt (List.mem_range.mp hm)

/-- Which access comes next. -/
inductive ReceivePc where
  | firstRead | firstAck | poll | dataAck | timeoutAck | done
  deriving DecidableEq, Repr

structure ReceiveData where
  pc : ReceivePc
  dataTemp : BitVec 32
  clkBit : BitVec 32
  timer : Nat
  dataLen : Nat
  frame : GpioDataFrame

namespace ReceiveData

/-- A call with `data_cache` pointing to `frame`; the other variables are set before they are
    read. -/
def call (frame : GpioDataFrame) : ReceiveData := ⟨.firstRead, 0, 0, 0, 0, frame⟩

/-- The condition of the inner loop, and what follows it when it fails. -/
def loopTest (r : ReceiveData) : ReceiveData :=
  if r.dataTemp &&& gpioClk = r.clkBit ∧ r.timer < 200 then { r with pc := .poll }
  else
    { r with
      clkBit := r.dataTemp &&& gpioClk
      pc := if r.timer = 200 then .timeoutAck else .dataAck }

/-- One access. `word` is what a read returns. -/
def step (r : ReceiveData) (word : BitVec 32) : ReceiveData :=
  match r.pc with
  | .firstRead => { r with dataTemp := word, clkBit := word &&& gpioClk, pc := .firstAck }
  | .firstAck =>
      { r with frame := { r.frame with frameType := gpio2Data r.dataTemp }, timer := 0 }.loopTest
  | .poll => { r with dataTemp := word, timer := r.timer + 1 }.loopTest
  | .dataAck =>
      let frame := { r.frame with
        data := Function.update r.frame.data r.dataLen (gpio2Data r.dataTemp) }
      if gpioDataLenMax ≤ r.dataLen + 1 then
        { r with
          dataLen := r.dataLen + 1, frame := { frame with len := r.dataLen + 1 }, pc := .done }
      else { r with dataLen := r.dataLen + 1, frame := frame, timer := 0 }.loopTest
  | .timeoutAck => { r with frame := { r.frame with len := r.dataLen }, pc := .done }
  | .done => r

/-- Does the next access turn ACK over? -/
def toggles (r : ReceiveData) : Bool :=
  match r.pc with
  | .firstAck | .dataAck | .timeoutAck => true
  | .firstRead | .poll | .done => false

/-! ## 3. One access, by what it finds -/

section Access

variable {r : ReceiveData} {word : BitVec 32}

/-- A wait begins: the clock was just recorded, so the loop reads at least once. -/
theorem loopTest_poll (h : r.dataTemp &&& gpioClk = r.clkBit) (ht : r.timer < 200) :
    r.loopTest = { r with pc := .poll } := if_pos ⟨h, ht⟩

theorem step_firstRead (hp : r.pc = .firstRead) :
    r.step word = { r with dataTemp := word, clkBit := word &&& gpioClk, pc := .firstAck } := by
  simp only [step, hp]

/-- The header is stored, and the wait for the first byte begins. -/
theorem step_firstAck (hp : r.pc = .firstAck) (h : r.dataTemp &&& gpioClk = r.clkBit) :
    r.step word = { r with
      frame := { r.frame with frameType := gpio2Data r.dataTemp }, timer := 0, pc := .poll } := by
  simp only [step, hp]
  exact loopTest_poll h (Nat.succ_pos 199)

/-- No turn of the clock, and time left. -/
theorem step_wait (hp : r.pc = .poll) (h : word &&& gpioClk = r.clkBit) (ht : r.timer + 1 < 200) :
    r.step word = { r with dataTemp := word, timer := r.timer + 1, pc := .poll } := by
  simp only [step, hp]
  exact loopTest_poll h ht

/-- A turn of the clock. -/
theorem step_turn (hp : r.pc = .poll) (h : word &&& gpioClk ≠ r.clkBit) (ht : r.timer + 1 < 200) :
    r.step word = { r with
      dataTemp := word, clkBit := word &&& gpioClk, timer := r.timer + 1, pc := .dataAck } := by
  have hne : r.timer + 1 ≠ 200 := Nat.ne_of_lt ht
  simp only [step, hp, loopTest, if_neg fun h' : _ ∧ _ => h h'.1, if_neg hne]

/-- The 200th read of a wait without a turn. -/
theorem step_timeout (hp : r.pc = .poll) (ht : r.timer + 1 = 200) :
    r.step word = { r with
      dataTemp := word, clkBit := word &&& gpioClk, timer := 200, pc := .timeoutAck } := by
  simp only [step, hp, loopTest, ht, Nat.lt_irrefl, and_false, if_false, if_true]

/-- A byte is stored, and the wait for the next one begins. -/
theorem step_dataAck (hp : r.pc = .dataAck) (h : r.dataTemp &&& gpioClk = r.clkBit)
    (hlen : r.dataLen + 1 < gpioDataLenMax) :
    r.step word = { r with
      frame := { r.frame with
        data := Function.update r.frame.data r.dataLen (gpio2Data r.dataTemp) }
      dataLen := r.dataLen + 1, timer := 0, pc := .poll } := by
  simp only [step, hp, if_neg (Nat.not_le_of_lt hlen)]
  exact loopTest_poll h (Nat.succ_pos 199)

/-- The last byte there is room for: the call is over. -/
theorem step_full (hp : r.pc = .dataAck) (hlen : r.dataLen + 1 = gpioDataLenMax) :
    r.step word = { r with
      dataLen := gpioDataLenMax
      frame := { r.frame with
        data := Function.update r.frame.data r.dataLen (gpio2Data r.dataTemp)
        len := gpioDataLenMax }
      pc := .done } := by
  simp only [step, hp, hlen, Nat.le_refl, if_true]

theorem step_timeoutAck (hp : r.pc = .timeoutAck) :
    r.step word = { r with frame := { r.frame with len := r.dataLen }, pc := .done } := by
  simp only [step, hp]

end Access

/-! ## 4. It returns -/

/-- What the variables satisfy at each access. -/
def Bounded (r : ReceiveData) : Prop :=
  match r.pc with
  | .firstRead => r.dataLen = 0
  | .firstAck => r.dataLen = 0 ∧ r.dataTemp &&& gpioClk = r.clkBit
  | .poll => r.dataLen < gpioDataLenMax ∧ r.timer < 200
  | .dataAck => r.dataLen < gpioDataLenMax ∧ r.dataTemp &&& gpioClk = r.clkBit
  | .timeoutAck | .done => True

/-- Accesses that are left at most: a wait is 200 reads and one turn of ACK, and there are at most
    4000 of them. -/
def opsLeft (r : ReceiveData) : Nat :=
  match r.pc with
  | .firstRead => 2 + gpioDataLenMax * 201
  | .firstAck => 1 + gpioDataLenMax * 201
  | .poll => (200 - r.timer) + 1 + (gpioDataLenMax - 1 - r.dataLen) * 201
  | .dataAck => 1 + (gpioDataLenMax - 1 - r.dataLen) * 201
  | .timeoutAck => 1
  | .done => 0

/-- Accesses of a whole call at most. -/
def opsMax : Nat := 2 + gpioDataLenMax * 201

theorem opsLeft_pos {r : ReceiveData} (h : r.pc ≠ .done) : 0 < r.opsLeft := by
  unfold opsLeft
  cases hp : r.pc <;> first | exact absurd hp h | (simp only [gpioDataLenMax]; omega)

theorem bounded_call (frame : GpioDataFrame) : (call frame).Bounded := rfl

variable {r : ReceiveData}

theorem bounded_loopTest (hlen : r.dataLen < gpioDataLenMax) : r.loopTest.Bounded := by
  unfold loopTest
  split
  · next h => exact ⟨hlen, h.2⟩
  · by_cases ht : r.timer = 200
    · simp [Bounded, ht]
    · simp [Bounded, ht, hlen]

theorem bounded_step (h : r.Bounded) (word : BitVec 32) : (r.step word).Bounded := by
  unfold Bounded at h
  unfold step
  cases hpc : r.pc with
  | firstRead =>
    rw [hpc] at h
    exact ⟨h, rfl⟩
  | firstAck =>
    rw [hpc] at h
    exact bounded_loopTest (by rw [h.1]; decide)
  | poll =>
    rw [hpc] at h
    exact bounded_loopTest h.1
  | dataAck =>
    by_cases hlen : gpioDataLenMax ≤ r.dataLen + 1
    · simp only [if_pos hlen]
      trivial
    · simp only [if_neg hlen]
      exact bounded_loopTest (Nat.lt_of_not_le hlen)
  | timeoutAck => trivial
  | done =>
    show r.Bounded
    rw [Bounded, hpc]
    trivial

theorem opsLeft_loopTest :
    r.loopTest.opsLeft ≤ (200 - r.timer) + 1 + (gpioDataLenMax - 1 - r.dataLen) * 201 := by
  unfold loopTest
  split
  · exact Nat.le_refl _
  · by_cases h : r.timer = 200
    · simp only [h, if_true, opsLeft]
      omega
    · simp only [h, if_false, opsLeft]
      omega

/-- **Every access brings the return nearer**, whatever it reads. -/
theorem opsLeft_step (h : r.Bounded) (hpc : r.pc ≠ .done) (word : BitVec 32) :
    (r.step word).opsLeft < r.opsLeft := by
  unfold Bounded at h
  unfold step
  cases hp : r.pc with
  | firstRead =>
    simp only [opsLeft, hp]
    omega
  | firstAck =>
    rw [hp] at h
    refine Nat.lt_of_le_of_lt opsLeft_loopTest ?_
    simp only [opsLeft, hp, h.1, gpioDataLenMax]
    omega
  | poll =>
    rw [hp] at h
    refine Nat.lt_of_le_of_lt opsLeft_loopTest ?_
    simp only [opsLeft, hp]
    omega
  | dataAck =>
    rw [hp] at h
    by_cases hlen : gpioDataLenMax ≤ r.dataLen + 1
    · simp only [if_pos hlen, opsLeft, hp]
      omega
    · simp only [if_neg hlen]
      refine Nat.lt_of_le_of_lt opsLeft_loopTest ?_
      simp only [opsLeft, hp, gpioDataLenMax] at hlen ⊢
      omega
  | timeoutAck =>
    simp only [opsLeft, hp]
    omega
  | done => exact absurd hp hpc

end ReceiveData

end WifiOsc
