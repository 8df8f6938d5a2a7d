/-
  File:      WifiOsc/Fpga/DacPolling.lean
  Subject:   THE DAC CHANNELS (`DAC_POLLING`, FPGA/SPI_TEST_2/DAC_POLLING.sv), on the core clock,
             with `SPI_OUT` on the clock of `Div #(14)`.

  `dac_data` is loaded in `END`, after the counter has gone on in `COUNT`; the word that leaves in
  the next `SEND` is therefore the one for the channel that the next `COUNT` selects.

  * `Bench`, `bench`: the two clocks as one machine on the edges of `clk_core`;
  * `Phase`: where the channel, the word and the divider stand; `phase_step`: one edge;
  * `CountsInv`: the channels that have been selected;
  * **`DacPolling.channel_alignment`**: the channels in turn, the quiet bus while one is selected,
    and the word that was shifted out for it.
-/
import WifiOsc.Fpga.Div
import WifiOsc.Fpga.Spi

namespace WifiOsc

open Basis

/-! ## 1. The module -/

/-- The states; `ended` is `END`. -/
inductive DacState where
  | idle | send | count | ended
  deriving DecidableEq, Repr

/-- The eight channels of `data_in`. -/
abbrev DacValues := BitVec 3 → BitVec 12

/-- The registers of `DAC_POLLING`. `dac_data` and `pos` have no initial value. -/
structure DacPolling where
  currentState : DacState
  counter : BitVec 3
  dacData : BitVec 12
  spiEn : Bool
  pos : BitVec 3
  deriving DecidableEq, Repr

/-- The inputs at an edge of `clk_core`; the last two come from `SPI_OUT`. -/
structure DacIn where
  rstN : Bool
  en : Bool
  dataIn : DacValues
  spiIsIdle : Bool
  spiIsEnd : Bool

namespace DacPolling

/-- The second block. -/
def nextState (s : DacPolling) (i : DacIn) : DacState :=
  if !i.rstN then .idle
  else
    match s.currentState with
    | .idle => if i.en then .send else .idle
    | .send => if i.spiIsEnd then .count else .send
    | .count => .ended
    | .ended => if i.spiIsIdle then .idle else .ended

/-- One edge of `clk_core`: the first and the third block. -/
def step (s : DacPolling) (i : DacIn) : DacPolling :=
  let s' := { s with currentState := s.nextState i }
  if !i.rstN then { s' with pos := 7#3, spiEn := false }
  else
    match s.currentState with
    | .idle => { s' with pos := 7#3, spiEn := false }
    | .send => { s' with spiEn := true }
    | .count => { s' with spiEn := false, pos := s.counter, counter := s.counter + 1#3 }
    | .ended => { s' with dacData := i.dataIn s.counter }

structure PowerUp (s : DacPolling) : Prop where
  idle : s.currentState = .idle
  counter : s.counter = 0#3
  spiEn : s.spiEn = false

end DacPolling

/-- `isIDLE` and `isEND` of `SPI_OUT`. -/
def SpiOut.isIdle {L : Nat} (s : SpiOut L) (rstN en : Bool) : Bool := s.nextState rstN en == .idle

def SpiOut.isEnd {L : Nat} (s : SpiOut L) (rstN en : Bool) : Bool := s.nextState rstN en == .ended

/-! ## 2. The two clocks -/

structure Bench where
  dac : DacPolling
  div : Div 14
  spiOut : SpiOut 16

/-- What is free at an edge of `clk_core`: the values, and whether `SPI_OUT`, when its derived clock
    rises with this edge, already sees what the edge has done to `spi_en` and `dac_data`. -/
structure BenchIn where
  dataIn : DacValues
  settled : Bool

/-- What is seen: an event of `SPI_OUT`, a channel assigned to `pos` in `COUNT`, and the values that
    are offered at an edge in `END`. -/
inductive DacEvent where
  | shift (e : SpiEvent)
  | count (pos : BitVec 3)
  | load (dataIn : DacValues)

namespace Bench

/-- `DAC_POLLING` at this edge, with `en` and `rst_n` high. -/
def dacStep (s : Bench) (i : BenchIn) : DacPolling :=
  s.dac.step
    { rstN := true, en := true, dataIn := i.dataIn
      spiIsIdle := s.spiOut.isIdle true s.dac.spiEn, spiIsEnd := s.spiOut.isEnd true s.dac.spiEn }

/-- What `SPI_OUT` reads when its clock rises with this edge. -/
def spiIn (s : Bench) (i : BenchIn) : SpiWordIn 16 :=
  let dac := if i.settled then s.dacStep i else s.dac
  { en := dac.spiEn, dataIn := 0#4 ++ dac.dacData }

def step (s : Bench) (i : BenchIn) : Bench :=
  { dac := s.dacStep i
    div := s.div.step
    spiOut := if s.div.rises then (spi 16).step s.spiOut (s.spiIn i) else s.spiOut }

def seen (s : Bench) (i : BenchIn) : List DacEvent :=
  (if s.div.rises then ((spi 16).out s.spiOut (s.spiIn i)).map .shift else []) ++
  (match s.dac.currentState with
    | .count => [.count (s.dacStep i).pos]
    | .ended => [.load i.dataIn]
    | .idle | .send => [])

structure PowerUp (s : Bench) : Prop where
  dac : s.dac.PowerUp
  div : s.div.PowerUp
  spiOut : s.spiOut.PowerUp

end Bench

/-- The run of `DAC_POLLING`, one edge of `clk_core` at a time. -/
def bench : Machine Bench BenchIn DacEvent where
  step := Bench.step
  out := Bench.seen

/-! ## 3. What has been seen -/

namespace DacPolling

/-- The events of `SPI_OUT`. -/
def shifts (l : List DacEvent) : List SpiEvent :=
  l.filterMap fun e => match e with | .shift e => some e | .count _ | .load _ => none

/-- The channels that have been selected. -/
def counts (l : List DacEvent) : List (BitVec 3) :=
  l.filterMap fun e => match e with | .count c => some c | .shift _ | .load _ => none

/-- The values at every edge in `END`. -/
def loads (l : List DacEvent) : List DacValues :=
  l.filterMap fun e => match e with | .load d => some d | .shift _ | .count _ => none

section Seen

variable (l l' : List DacEvent) (es : List SpiEvent)

@[simp] theorem shifts_append : shifts (l ++ l') = shifts l ++ shifts l' := List.filterMap_append

@[simp] theorem counts_append : counts (l ++ l') = counts l ++ counts l' := List.filterMap_append

@[simp] theorem loads_append : loads (l ++ l') = loads l ++ loads l' := List.filterMap_append

@[simp] theorem shifts_shift : shifts (es.map .shift) = es := by
  simp [shifts, List.filterMap_map]

@[simp] theorem counts_shift : counts (es.map .shift) = [] := by
  simp [counts, List.filterMap_map]

@[simp] theorem loads_shift : loads (es.map .shift) = [] := by
  simp [loads, List.filterMap_map]

end Seen

/-- The word for channel `c`, from the values at the last edge in `END`. -/
def Due (l : List DacEvent) (c : BitVec 3) (x : BitVec 16) : Prop :=
  counts l ≠ [] → ∃ d, (loads l).getLast? = some d ∧ x = 0#4 ++ d c

/-- The word being shifted is the last thing on the bus. -/
def Shifted (l : List DacEvent) (seen : List SpiEvent) : Prop :=
  counts l ≠ [] → ∃ l₀, shifts l = l₀ ++ .start :: seen

/-! ## 4. One edge, by the parts -/

section Edge

variable {s : Bench} (i : BenchIn)

theorem dacStep_idle (h : s.dac.currentState = .idle) :
    s.dacStep i = { s.dac with currentState := .send, pos := 7#3, spiEn := false } := by
  simp [Bench.dacStep, DacPolling.step, DacPolling.nextState, h]

theorem dacStep_send (h : s.dac.currentState = .send) :
    s.dacStep i =
      { s.dac with
        currentState := if s.spiOut.isEnd true s.dac.spiEn then .count else .send
        spiEn := true } := by
  simp [Bench.dacStep, DacPolling.step, DacPolling.nextState, h]

/-- `SEND` goes on until `isEND`. -/
theorem dacStep_stay (h : s.dac.currentState = .send)
    (hnot : s.spiOut.isEnd true s.dac.spiEn = false) :
    s.dacStep i = { s.dac with currentState := .send, spiEn := true } := by
  rw [dacStep_send i h, hnot]
  rfl

theorem dacStep_count (h : s.dac.currentState = .count) :
    s.dacStep i =
      { s.dac with
        currentState := .ended, spiEn := false, pos := s.dac.counter
        counter := s.dac.counter + 1#3 } := by
  simp [Bench.dacStep, DacPolling.step, DacPolling.nextState, h]

theorem dacStep_ended (h : s.dac.currentState = .ended) :
    s.dacStep i =
      { s.dac with
        currentState := if s.spiOut.isIdle true s.dac.spiEn then .idle else .ended
        dacData := i.dataIn s.dac.counter } := by
  simp [Bench.dacStep, DacPolling.step, DacPolling.nextState, h]

/-- No event of `SPI_OUT` without a rise of its clock. -/
theorem step_quiet (hr : s.div.rises = false) :
    bench.step s i = ⟨s.dacStep i, s.div.step, s.spiOut⟩ ∧ shifts (bench.out s i) = [] := by
  refine ⟨by simp [bench, Bench.step, hr], ?_⟩
  simp only [bench, Bench.seen, hr, Bool.false_eq_true, if_false, List.nil_append]
  cases s.dac.currentState <;> rfl

theorem step_tick (hr : s.div.rises = true) :
    bench.step s i = ⟨s.dacStep i, s.div.step, (spi 16).step s.spiOut (s.spiIn i)⟩ ∧
      shifts (bench.out s i) = (spi 16).out s.spiOut (s.spiIn i) := by
  refine ⟨by simp [bench, Bench.step, hr], ?_⟩
  simp only [bench, Bench.seen, hr, if_true, shifts_append, shifts_shift]
  cases s.dac.currentState <;> exact List.append_nil _

theorem counts_out :
    counts (bench.out s i) = if s.dac.currentState = .count then [(s.dacStep i).pos] else [] := by
  simp only [bench, Bench.seen, counts_append]
  have hshift : counts (if s.div.rises then
      ((spi 16).out s.spiOut (s.spiIn i)).map DacEvent.shift else []) = [] := by
    split
    · exact counts_shift _
    · rfl
  rw [hshift]
  cases s.dac.currentState <;> rfl

theorem loads_out :
    loads (bench.out s i) = if s.dac.currentState = .ended then [i.dataIn] else [] := by
  simp only [bench, Bench.seen, loads_append]
  have hshift : loads (if s.div.rises then
      ((spi 16).out s.spiOut (s.spiIn i)).map DacEvent.shift else []) = [] := by
    split
    · exact loads_shift _
    · rfl
  rw [hshift]
  cases s.dac.currentState <;> rfl

/-- In `SEND` and `IDLE` only the bus is seen. -/
theorem bus_only (h : s.dac.currentState = .send ∨ s.dac.currentState = .idle)
    (l : List DacEvent) :
    counts (l ++ bench.out s i) = counts l ∧ loads (l ++ bench.out s i) = loads l := by
  have hc : s.dac.currentState ≠ .count := by rcases h with h | h <;> rw [h] <;> nofun
  have he : s.dac.currentState ≠ .ended := by rcases h with h | h <;> rw [h] <;> nofun
  rw [counts_append, loads_append, counts_out, loads_out, if_neg hc, if_neg he]
  exact ⟨List.append_nil _, List.append_nil _⟩

end Edge

/-! ## 5. The phases -/

/-- The values that were last offered in `END` are in `dac_data`. -/
def Loaded (s : Bench) (l : List DacEvent) : Prop :=
  ∃ d, (loads l).getLast? = some d ∧ s.dac.dacData = d s.dac.counter

/-- Where the three parts stand before an edge of `clk_core`, from the second on, and what has been
    seen. The last argument counts the edges down to the next `COUNT`; a word takes 43 edges of
    `clk_spi`, and `COUNT` comes two edges of `clk_core` after its 34th. -/
inductive Phase (s : Bench) (l : List DacEvent) : Nat → Prop
  | waiting (n : Nat) (hd : s.dac.currentState = .send) (hpos : s.dac.pos = 7#3)
      (hen : s.dac.spiEn = true ∨ 1 ≤ s.div.wait)
      (hs : s.spiOut.currentState = .idle) (hc : s.spiOut.counter = 16#5)
      (hsync : counts l ≠ [] → s.spiOut.syncN = true)
      (hdue : Due l s.dac.counter s.spiOut.dataInSave) (hn : n + 12 = 34 * 14 + s.div.wait) :
      Phase s l n
  | sending (x : BitVec 16) (t : Nat) (seen : List SpiEvent) (n : Nat)
      (hd : s.dac.currentState = .send) (hpos : s.dac.pos = 7#3)
      (hword : InWord x s.spiOut t seen) (hdue : Due l s.dac.counter x) (hseen : Shifted l seen)
      (hn : n + 13 + 14 * t = 34 * 14 + s.div.wait) : Phase s l (n + 1)
  | count (x : BitVec 16) (seen : List SpiEvent) (hd : s.dac.currentState = .count)
      (hpos : s.dac.pos = 7#3) (hword : InWord x s.spiOut 34 seen)
      (hdue : Due l s.dac.counter x) (hseen : Shifted l seen) (hw : s.div.wait = 12) : Phase s l 0
  | ending (x : BitVec 16) (t : Nat) (seen : List SpiEvent) (n : Nat)
      (hd : s.dac.currentState = .ended) (hword : InWord x s.spiOut t seen) (ht : 34 ≤ t)
      (hn : n + 12 + 14 * t = 78 * 14 + s.div.wait) (hlast : 491 ≤ n) (hfirst : n ≤ 615) :
      Phase s l n
  | finished (x : BitVec 16) (seen : List SpiEvent) (hd : s.dac.currentState = .idle)
      (hword : InWord x s.spiOut 43 seen) (hload : Loaded s l) (hw : s.div.wait = 12) :
      Phase s l 490
  | loading (x : BitVec 16) (seen : List SpiEvent) (n : Nat) (hd : s.dac.currentState = .send)
      (hpos : s.dac.pos = 7#3) (hen : s.dac.spiEn = true ∨ 1 ≤ s.div.wait)
      (hword : InWord x s.spiOut 43 seen) (hload : Loaded s l) (hn : n = 478 + s.div.wait)
      (hw : s.div.wait ≤ 11) : Phase s l n

section Phases

variable {s : Bench} {l : List DacEvent} {x : BitVec 16} {seen : List SpiEvent} {t n : Nat}
  (i : BenchIn)

theorem isEnd_iff (en : Bool) (h : InWord x s.spiOut t seen) :
    s.spiOut.isEnd true en = true ↔ 34 ≤ t ∧ t < 43 := by
  rw [SpiOut.isEnd, beq_iff_eq]
  exact (inWord_nextState en h).1

theorem isIdle_iff (en : Bool) (h : InWord x s.spiOut t seen) :
    s.spiOut.isIdle true en = true ↔ t = 43 := by
  rw [SpiOut.isIdle, beq_iff_eq]
  exact (inWord_nextState en h).2

/-- In `SEND` it makes no difference what `SPI_OUT` already sees. -/
theorem spiIn_send (hd : s.dac.currentState = .send) (hen : s.dac.spiEn = true) :
    s.spiIn i = ⟨true, 0#4 ++ s.dac.dacData⟩ := by
  have hdac : (s.dacStep i).spiEn = true ∧ (s.dacStep i).dacData = s.dac.dacData := by
    rw [dacStep_send i hd]
    exact ⟨rfl, rfl⟩
  cases hs : i.settled <;> simp [Bench.spiIn, hs, hdac, hen]

/-- `Due` speaks about the counts and the loads only. -/
theorem due_of_bus {c : BitVec 3} {l' : List DacEvent} (h : Due l c x)
    (hc : counts l' = counts l) (hl : loads l' = loads l) : Due l' c x := by
  unfold Due
  rw [hc, hl]
  exact h

theorem shifted_append {more : List SpiEvent} {l' : List DacEvent} (h : Shifted l seen)
    (hc : counts (l ++ l') = counts l) (hs : shifts l' = more) :
    Shifted (l ++ l') (seen ++ more) := by
  intro hne
  obtain ⟨l₀, hl₀⟩ := h (hc ▸ hne)
  refine ⟨l₀, ?_⟩
  rw [shifts_append, hl₀, hs, List.append_assoc, List.cons_append]

/-- The first edge. -/
theorem phase_first (h : s.PowerUp) :
    ∃ n, Phase (bench.step s i) (bench.out s i) n := by
  have hgood : s.div.Good := Div.good_powerUp h.div (by decide) (by decide)
  have hwait : 6 ≤ s.div.wait := Div.wait_powerUp h.div
  obtain ⟨hr, hw⟩ := Div.quiet hgood (by omega)
  obtain ⟨hcounts, _⟩ := bus_only i (Or.inr h.dac.idle) []
  have hnil : counts (bench.out s i) = [] := hcounts
  rw [(step_quiet i hr).1, dacStep_idle i h.dac.idle]
  refine ⟨464 + s.div.step.wait, ?_⟩
  exact .waiting _ rfl rfl (Or.inr (by show 1 ≤ s.div.step.wait; omega)) h.spiOut.idle
    h.spiOut.counter (fun hne => absurd hnil hne) (fun hne => absurd hnil hne)
    (by show _ = _ + s.div.step.wait; omega)

/-- Waiting for `clk_spi` in `SEND`, with `SPI_OUT` in `IDLE`: the rise begins the word that is
    latched. -/
theorem phase_waiting (hg : s.div.Good) (hd : s.dac.currentState = .send)
    (hpos : s.dac.pos = 7#3) (hen : s.dac.spiEn = true ∨ 1 ≤ s.div.wait)
    (hs : s.spiOut.currentState = .idle) (hc : s.spiOut.counter = 16#5)
    (hsync : counts l ≠ [] → s.spiOut.syncN = true)
    (hdue : Due l s.dac.counter s.spiOut.dataInSave) (hn : n + 13 = 34 * 14 + s.div.wait) :
    Phase (bench.step s i) (l ++ bench.out s i) n := by
  obtain ⟨hcounts, hloads⟩ := bus_only i (Or.inl hd) l
  have hend : s.spiOut.isEnd true s.dac.spiEn = false := by
    cases he : s.dac.spiEn <;> simp [SpiOut.isEnd, SpiOut.nextState, hs]
  have hdac := dacStep_stay i hd hend
  have hdue' := due_of_bus hdue hcounts hloads
  rcases Div.tick hg with ⟨hr, hzero, hw⟩ | ⟨hr, hw⟩
  · obtain ⟨hstep, hshift⟩ := step_tick i hr
    have hin := spiIn_send i hd (hen.resolve_right (by omega))
    have hword : InWord s.spiOut.dataInSave ((spi 16).step s.spiOut (s.spiIn i)) 1 [] :=
      inWord_begin (s.spiIn i) (by decide) (by decide) hs hc (by rw [hin])
    obtain ⟨m, rfl⟩ : ∃ m, n = m + 1 := ⟨n - 1, by omega⟩
    rw [hstep, hdac]
    refine .sending _ 1 [] m rfl hpos hword hdue' (fun hne => ?_) (by
      show _ = _ + s.div.step.wait
      omega)
    -- after the first word `sync_n` is high here, so that its fall is seen
    have hhigh := hsync (hcounts ▸ hne)
    have hstart : (spi 16).out s.spiOut (s.spiIn i) = [.start] := by
      show s.spiOut.seen ((spi 16).step s.spiOut (s.spiIn i)) = _
      rw [edge_begin hs (by rw [hin])]
      simp [SpiOut.seen, hhigh]
    refine ⟨shifts l, ?_⟩
    rw [shifts_append, hshift, hstart]
  · obtain ⟨hstep, _⟩ := step_quiet i hr
    rw [hstep, hdac]
    exact .waiting n rfl hpos (Or.inl rfl) hs hc (fun hne => hsync (hcounts ▸ hne)) hdue'
      (by show _ = _ + s.div.step.wait; omega)

/-- A word on its way: `COUNT` comes two edges after its 34th. -/
theorem phase_sending (hg : s.div.Good) (hd : s.dac.currentState = .send)
    (hpos : s.dac.pos = 7#3) (hword : InWord x s.spiOut t seen) (hdue : Due l s.dac.counter x)
    (hseen : Shifted l seen) (hn : n + 13 + 14 * t = 34 * 14 + s.div.wait) :
    Phase (bench.step s i) (l ++ bench.out s i) n := by
  have hlt : s.div.wait < 14 := Div.wait_lt hg
  obtain ⟨hcounts, hloads⟩ := bus_only i (Or.inl hd) l
  have hcounts' : counts (l ++ bench.out s i) = counts l := hcounts
  have hdue' := due_of_bus hdue hcounts hloads
  have hend := isEnd_iff s.dac.spiEn hword
  obtain rfl | hlow : t = 34 ∨ t < 34 := by omega
  · have hdac : s.dacStep i = { s.dac with currentState := .count, spiEn := true } := by
      rw [dacStep_send i hd, hend.mpr ⟨by decide, by decide⟩]
      rfl
    obtain ⟨hr, hw⟩ := Div.quiet hg (by omega)
    obtain ⟨hstep, hshift⟩ := step_quiet i hr
    have hseen' := shifted_append hseen hcounts' hshift
    rw [List.append_nil] at hseen'
    obtain rfl : n = 0 := by omega
    rw [hstep, hdac]
    exact .count x seen rfl hpos hword hdue' hseen' (by show s.div.step.wait = 12; omega)
  · have hnot : s.spiOut.isEnd true s.dac.spiEn = false :=
      Bool.eq_false_iff.mpr fun h => absurd (hend.mp h).1 (by omega)
    have hdac := dacStep_stay i hd hnot
    obtain ⟨m, rfl⟩ : ∃ m, n = m + 1 := ⟨n - 1, by omega⟩
    rcases Div.tick hg with ⟨hr, hzero, hw⟩ | ⟨hr, hw⟩
    · obtain ⟨hstep, hshift⟩ := step_tick i hr
      have hseen' := shifted_append hseen hcounts' hshift
      have hword' := inWord_step (s.spiIn i) hword (show t < 43 by omega)
      rw [hstep, hdac]
      exact .sending x (t + 1) _ m rfl hpos hword' hdue' hseen'
        (by show _ = _ + s.div.step.wait; omega)
    · obtain ⟨hstep, hshift⟩ := step_quiet i hr
      have hseen' := shifted_append hseen hcounts' hshift
      rw [List.append_nil] at hseen'
      rw [hstep, hdac]
      exact .sending x t seen m rfl hpos hword hdue' hseen'
        (by show _ = _ + s.div.step.wait; omega)

/-- `COUNT`: the channel is selected, and the counter goes on to the one that is loaded next. -/
theorem phase_count (hg : s.div.Good) (hd : s.dac.currentState = .count)
    (hword : InWord x s.spiOut 34 seen) (hw : s.div.wait = 12) :
    Phase (bench.step s i) (l ++ bench.out s i) 615 := by
  obtain ⟨hr, hwait⟩ := Div.quiet hg (by omega)
  rw [(step_quiet i hr).1, dacStep_count i hd]
  exact .ending x 34 seen 615 rfl hword (Nat.le_refl 34)
    (by show _ = _ + s.div.step.wait; omega) (by decide) (by decide)

/-- `END`: the values are loaded at every edge, the last time when `SPI_OUT` is about to be idle. -/
theorem phase_ending (hg : s.div.Good) (hd : s.dac.currentState = .ended)
    (hword : InWord x s.spiOut t seen) (ht : 34 ≤ t)
    (hn : n + 13 + 14 * t = 78 * 14 + s.div.wait) (hlast : 490 ≤ n) (hfirst : n < 615) :
    Phase (bench.step s i) (l ++ bench.out s i) n := by
  have hlt : s.div.wait < 14 := Div.wait_lt hg
  have hidle := isIdle_iff s.dac.spiEn hword
  obtain rfl | hlow : t = 43 ∨ t < 43 := by omega
  · have hdac : s.dacStep i =
        { s.dac with currentState := .idle, dacData := i.dataIn s.dac.counter } := by
      rw [dacStep_ended i hd, hidle.mpr rfl]
      rfl
    have hload : (loads (l ++ bench.out s i)).getLast? = some i.dataIn := by
      rw [loads_append, loads_out, if_pos hd, List.getLast?_concat]
    obtain ⟨hr, hw⟩ := Div.quiet hg (by omega)
    obtain rfl : n = 490 := by omega
    rw [(step_quiet i hr).1, hdac]
    exact .finished x seen rfl hword ⟨i.dataIn, hload, rfl⟩ (by show s.div.step.wait = 12; omega)
  · have hnot : s.spiOut.isIdle true s.dac.spiEn = false :=
      Bool.eq_false_iff.mpr fun h => absurd (hidle.mp h) (by omega)
    have hdac : s.dacStep i =
        { s.dac with currentState := .ended, dacData := i.dataIn s.dac.counter } := by
      rw [dacStep_ended i hd, hnot]
      rfl
    rcases Div.tick hg with ⟨hr, hzero, hw⟩ | ⟨hr, hw⟩
    · have hword' := inWord_step (s.spiIn i) hword (show t < 43 by omega)
      rw [(step_tick i hr).1, hdac]
      exact .ending x (t + 1) _ n rfl hword' (by omega)
        (by show _ = _ + s.div.step.wait; omega) (by omega) (by omega)
    · rw [(step_quiet i hr).1, hdac]
      exact .ending x t seen n rfl hword ht (by show _ = _ + s.div.step.wait; omega) (by omega)
        (by omega)

/-- The edge of `IDLE`. -/
theorem phase_finished (hg : s.div.Good) (hd : s.dac.currentState = .idle)
    (hword : InWord x s.spiOut 43 seen) (hload : Loaded s l) (hw : s.div.wait = 12) :
    Phase (bench.step s i) (l ++ bench.out s i) 489 := by
  obtain ⟨_, hloads⟩ := bus_only i (Or.inr hd) l
  obtain ⟨d, hlast, hdata⟩ := hload
  obtain ⟨hr, hwait⟩ := Div.quiet hg (by omega)
  rw [(step_quiet i hr).1, dacStep_idle i hd]
  exact .loading x seen 489 rfl rfl (Or.inr (by show 1 ≤ s.div.step.wait; omega)) hword
    ⟨d, by rw [hloads, hlast], hdata⟩ (by show 489 = 478 + s.div.step.wait; omega)
    (by show s.div.step.wait ≤ 11; omega)

/-- `SEND` with `SPI_OUT` at its last edge: the rise latches `dac_data`. -/
theorem phase_loading (hg : s.div.Good) (hd : s.dac.currentState = .send)
    (hpos : s.dac.pos = 7#3) (hen : s.dac.spiEn = true ∨ 1 ≤ s.div.wait)
    (hword : InWord x s.spiOut 43 seen) (hload : Loaded s l) (hn : n + 1 = 478 + s.div.wait)
    (hw : s.div.wait ≤ 11) : Phase (bench.step s i) (l ++ bench.out s i) n := by
  obtain ⟨_, hloads⟩ := bus_only i (Or.inl hd) l
  obtain ⟨d, hlast, hdata⟩ := hload
  have hnot : s.spiOut.isEnd true s.dac.spiEn = false :=
    Bool.eq_false_iff.mpr fun h => absurd ((isEnd_iff _ hword).mp h).2 (by decide)
  have hdac := dacStep_stay i hd hnot
  have hlast' : (loads (l ++ bench.out s i)).getLast? = some d := by rw [hloads, hlast]
  have hlatch : 0#4 ++ s.dac.dacData = 0#4 ++ d s.dac.counter := by rw [hdata]
  rcases Div.tick hg with ⟨hr, hzero, hwait⟩ | ⟨hr, hwait⟩
  · have hin := spiIn_send i hd (hen.resolve_right (by omega))
    rw [(step_tick i hr).1, hdac, hin, (inWord_end _ hword).2.2]
    exact .waiting n rfl hpos (Or.inl rfl) rfl rfl (fun _ => rfl)
      (fun _ => ⟨d, hlast', hlatch⟩) (by show _ = _ + s.div.step.wait; omega)
  · rw [(step_quiet i hr).1, hdac]
    exact .loading x seen n rfl hpos (Or.inl rfl) hword ⟨d, hlast', hdata⟩
      (by show n = 478 + s.div.step.wait; omega) (by show s.div.step.wait ≤ 11; omega)

/-- **One edge of `clk_core`**: one edge nearer to the next `COUNT`, or 616 away again. -/
theorem phase_step (hg : s.div.Good) (h : Phase s l n) :
    Phase (bench.step s i) (l ++ bench.out s i) (if n = 0 then 615 else n - 1) := by
  cases h with
  | waiting n hd hpos hen hs hc hsync hdue hn =>
    rw [if_neg (by omega)]
    exact phase_waiting i hg hd hpos hen hs hc hsync hdue (by omega)
  | sending x t seen n hd hpos hword hdue hseen hn =>
    rw [if_neg (Nat.succ_ne_zero n)]
    exact phase_sending i hg hd hpos hword hdue hseen hn
  | count x seen hd hpos hword hdue hseen hw =>
    rw [if_pos rfl]
    exact phase_count i hg hd hword hw
  | ending x t seen n hd hword ht hn hlast hfirst =>
    rw [if_neg (by omega)]
    exact phase_ending i hg hd hword ht (by omega) (by omega) (by omega)
  | finished x seen hd hword hload hw =>
    rw [if_neg (by decide)]
    exact phase_finished i hg hd hword hload hw
  | loading x seen n hd hpos hen hword hload hn hw =>
    rw [if_neg (by omega)]
    exact phase_loading i hg hd hpos hen hword hload (by omega) hw

end Phases

/-! ## 6. Every run -/

/-- The channels that have been selected, and the counter. -/
structure CountsInv (s : Bench) (l : List DacEvent) : Prop where
  counts : counts l = (List.range (counts l).length).map (BitVec.ofNat 3)
  counter : s.dac.counter = BitVec.ofNat 3 (DacPolling.counts l).length

theorem countsInv_step (s : Bench) (l : List DacEvent) (i : BenchIn) (h : CountsInv s l) :
    CountsInv (bench.step s i) (l ++ bench.out s i) := by
  by_cases hd : s.dac.currentState = .count
  · have hcounts : counts (l ++ bench.out s i) = counts l ++ [s.dac.counter] := by
      rw [counts_append, counts_out, if_pos hd, dacStep_count i hd]
    have hlen : (counts (l ++ bench.out s i)).length = (counts l).length + 1 := by
      rw [hcounts, List.length_append]
      rfl
    refine ⟨?_, ?_⟩
    · rw [hlen, List.range_succ, List.map_append, ← h.counts, hcounts, h.counter]
      rfl
    · show (s.dacStep i).counter = _
      rw [hlen, dacStep_count i hd, BitVec.ofNat_add, ← h.counter]
  · have hcounts : counts (l ++ bench.out s i) = counts l := by
      rw [counts_append, counts_out, if_neg hd, List.append_nil]
    have hcounter : (s.dacStep i).counter = s.dac.counter := by
      cases hs : s.dac.currentState with
      | idle => rw [dacStep_idle i hs]
      | send => rw [dacStep_send i hs]
      | count => exact absurd hs hd
      | ended => rw [dacStep_ended i hs]
    refine ⟨?_, ?_⟩
    · rw [hcounts]
      exact h.counts
    · show (s.dacStep i).counter = _
      rw [hcounts, hcounter]
      exact h.counter

/-- What every state of a run satisfies, from the first edge on. -/
structure BenchInv (s : Bench) (l : List DacEvent) : Prop where
  good : s.div.Good
  phase : ∃ n, Phase s l n

theorem benchInv_step (s : Bench) (l : List DacEvent) (i : BenchIn) (h : BenchInv s l) :
    BenchInv (bench.step s i) (l ++ bench.out s i) := by
  obtain ⟨n, hphase⟩ := h.phase
  exact ⟨Div.good_step h.good, _, phase_step i h.good hphase⟩

theorem benchInv_first {s : Bench} (h : s.PowerUp) (i : BenchIn) :
    BenchInv (bench.step s i) (bench.out s i) :=
  ⟨Div.good_step (Div.good_powerUp h.div (by decide) (by decide)), phase_first i h⟩

/-- After `n` more edges the next `COUNT` is reached. -/
theorem reaches_count {s : Bench} {l : List DacEvent} {n : Nat} (hg : s.div.Good)
    (h : Phase s l n) (later : List BenchIn) (hlen : later.length = n) :
    (bench.run s later).dac.currentState = .count := by
  induction later generalizing s l n with
  | nil =>
    subst hlen
    cases h with
    | count _ _ hd => exact hd
    | waiting _ _ _ _ _ _ _ _ hn => simp at hn; omega
    | ending _ _ _ _ _ _ _ _ hlast => simp at hlast
    | loading _ _ _ _ _ _ _ _ hn => simp at hn; omega
  | cons i later ih =>
    subst hlen
    have hnext := phase_step i hg h
    rw [List.length_cons, if_neg (Nat.succ_ne_zero _)] at hnext
    exact ih (Div.good_step hg) hnext rfl

theorem phase_lt {s : Bench} {l : List DacEvent} {n : Nat} (hg : s.div.Good) (h : Phase s l n) :
    n < 616 := by
  have hlt : s.div.wait < 14 := Div.wait_lt hg
  cases h <;> omega

section Moments

variable {s : Bench} {l : List DacEvent} {n : Nat}

/-- `pos` is not 7 only between `COUNT` and `IDLE`, when all bits are out. -/
theorem quiet_of_pos (h : Phase s l n) (hpos : s.dac.pos ≠ 7#3) :
    s.spiOut.syncN = true ∧ s.spiOut.currentState ≠ .send ∧ s.spiOut.currentState ≠ .sendN := by
  cases h with
  | waiting _ _ h | sending _ _ _ _ _ h | count _ _ _ h | loading _ _ _ _ h =>
    exact absurd h hpos
  | ending x t seen _ _ hword ht =>
    obtain ⟨hsync, hsend, hsendN, _⟩ := inWord_sent hword (by omega)
    exact ⟨hsync, hsend, hsendN⟩
  | finished x seen _ hword =>
    obtain ⟨hsync, hsend, hsendN, _⟩ := inWord_sent hword (by decide)
    exact ⟨hsync, hsend, hsendN⟩

theorem word_of_count (h : Phase s l n) (hc : s.dac.currentState = .count)
    (hne : counts l ≠ []) :
    ∃ d l₀, (loads l).getLast? = some d ∧
      shifts l = l₀ ++ .start :: (falls (0#4 ++ d s.dac.counter) 16 ++ [.stop]) := by
  cases h with
  | waiting _ hd | sending _ _ _ _ hd | ending _ _ _ _ hd | finished _ _ hd | loading _ _ _ hd =>
    rw [hd] at hc
    cases hc
  | count x seen _ _ hword hdue hseen =>
    obtain ⟨d, hlast, hx⟩ := hdue hne
    obtain ⟨l₀, hl₀⟩ := hseen hne
    obtain ⟨_, _, _, hwhole⟩ := inWord_sent hword (by decide)
    exact ⟨d, l₀, hlast, by rw [hl₀, hwhole, hx]⟩

end Moments

/-- **The channels of the DAC.** In every run from power-up, whatever values are offered: the
    channels selected in `COUNT` are 0, 1, …, 7 in turn, and the next `COUNT` is fewer than 616
    edges away. From the first edge on, `sync_n` is high and no word is being shifted while `pos`
    is not 7. In every `COUNT` but the first, the last word on the bus is the value of the channel
    that is being selected, as it was offered at the last edge in `END`. -/
theorem channel_alignment (s₀ : Bench) (h0 : s₀.PowerUp) (is : List BenchIn) :
    let s := bench.run s₀ is
    let l := bench.log s₀ is
    counts l = (List.range (counts l).length).map (BitVec.ofNat 3) ∧
    (is ≠ [] → ∃ n < 616, ∀ later : List BenchIn, later.length = n →
      (bench.run s later).dac.currentState = .count) ∧
    (is ≠ [] → s.dac.pos ≠ 7#3 →
      s.spiOut.syncN = true ∧ s.spiOut.currentState ≠ .send ∧ s.spiOut.currentState ≠ .sendN) ∧
    (s.dac.currentState = .count → counts l ≠ [] → ∀ i, ∃ d l₀, (loads l).getLast? = some d ∧
      shifts l = l₀ ++ .start :: (falls (0#4 ++ d (bench.step s i).dac.pos) 16 ++ [.stop])) := by
  intro s l
  have hcounts : CountsInv s l := by
    have hinv := bench.inv_log (s := s₀) (l := []) countsInv_step ⟨rfl, h0.dac.counter⟩ is
    rwa [List.nil_append] at hinv
  refine ⟨hcounts.counts, ?_⟩
  cases is with
  | nil =>
    refine ⟨nofun, nofun, ?_⟩
    intro hc
    exact nomatch h0.dac.idle.symm.trans hc
  | cons i₀ is =>
    have hinv : BenchInv s l := bench.inv_log benchInv_step (benchInv_first h0 i₀) is
    obtain ⟨n, hphase⟩ := hinv.phase
    refine ⟨fun _ => ⟨n, phase_lt hinv.good hphase, ?_⟩, fun _ hpos => ?_, fun hc hne i => ?_⟩
    · exact reaches_count hinv.good hphase
    · exact quiet_of_pos hphase hpos
    · have hnext : (bench.step s i).dac.pos = s.dac.counter := by
        show (s.dacStep i).pos = _
        rw [dacStep_count i hc]
      rw [hnext]
      exact word_of_count hphase hc hne

/-- Power-up with every register that has no initial value at 0. -/
def zeroBench : Bench := ⟨⟨.idle, 0#3, 0#12, false, 0#3⟩, ⟨0#24, false⟩, lowSpi⟩

/-- Values that are others at every edge. -/
def changingValues (n : Nat) : List BenchIn :=
  (List.range n).map fun k => ⟨fun c => BitVec.ofNat 12 (100 * k + c.toNat), true⟩

set_option maxRecDepth 4000 in
/-- The second `COUNT` after power-up, which selects channel 1. -/
theorem channel_alignment_second :
    let s := bench.run zeroBench (changingValues 1086)
    let l := bench.log zeroBench (changingValues 1086)
    counts l = [0#3] ∧ (bench.step s ⟨fun _ => 0#12, true⟩).dac.pos = 1#3 ∧
      ∃ d l₀, (loads l).getLast? = some d ∧
        shifts l = l₀ ++ .start :: (falls (0#4 ++ d 1#3) 16 ++ [.stop]) := by
  intro s l
  have hcount : s.dac.currentState = .count := by decide +kernel
  have hcounts : counts l = [0#3] := by decide +kernel
  have hpos : (bench.step s ⟨fun _ => 0#12, true⟩).dac.pos = 1#3 := by decide +kernel
  have h := (channel_alignment zeroBench ⟨⟨rfl, rfl, rfl⟩, ⟨rfl⟩, ⟨rfl, rfl⟩⟩
    (changingValues 1086)).2.2.2 hcount (hcounts ▸ List.cons_ne_nil _ _) ⟨fun _ => 0#12, true⟩
  rw [hpos] at h
  exact ⟨hcounts, hpos, h⟩

end DacPolling

end WifiOsc
