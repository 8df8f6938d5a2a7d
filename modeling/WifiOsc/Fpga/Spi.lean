/-
  File:      WifiOsc/Fpga/Spi.lean
  Subject:   THE SPI TRANSMITTER `SPI_OUT` (FPGA/SPI_TEST_2/DAC_POLLING.sv), for every width from
             1 to 31 bits.

  The third block works on `next_state`, so a state's outputs appear with the state. A word is
  2 SPI_LEN + 12 edges long from leaving `IDLE` to being back: `SEND_n` and `SEND` once for each bit,
  `DELAY`, `DELAY_RELOAD`, nine edges of `END`, and the edge back.

  * `InWord`: how far a word has come, and what has been seen of it; `inWord_step`: one edge;
  * `SpiInv`, `spiInv_run`: every state of a run from power-up;
  * `word_log`: what is seen of a word, whatever `en` and `data_in` do meanwhile;
  * `spi_framing`: every interval with `sync_n` low, every edge, and the return to `IDLE`.
-/
import WifiOsc.Basis.Machine
import WifiOsc.Fpga.Uart

namespace WifiOsc

open Basis

/-! ## 1. The module -/

/-- The states; `ended` is `END`. -/
inductive SpiState where
  | idle | send | sendN | delay | delayReload | ended
  deriving DecidableEq, Repr

/-- `SPI_OUT`. `current_state` and `counter` have an initial value. -/
structure SpiOut (L : Nat) where
  currentState : SpiState
  counter : BitVec 5
  dataInSave : BitVec L
  sclk : Bool
  dout : Bool
  syncN : Bool
  deriving DecidableEq, Repr

/-- The inputs at an edge of `clk`. -/
structure SpiIn (L : Nat) where
  rstN : Bool
  en : Bool
  dataIn : BitVec L

namespace SpiOut

variable {L : Nat}

/-- The second block. The literal `5'd40` is 8 in five bits. -/
def nextState (s : SpiOut L) (rstN en : Bool) : SpiState :=
  if !rstN then .idle
  else
    match s.currentState with
    | .idle => if en then .sendN else .idle
    | .send => if s.counter = 0#5 then .delay else if !s.sclk then .sendN else .send
    | .sendN => if s.sclk then .send else .sendN
    | .delay => if 40#5 < s.counter then .idle else .delayReload
    | .delayReload => .ended
    | .ended => if 40#5 < s.counter then .idle else .ended

/-- The index `counter-1` of `data_in_save`, in the 32 bits of the literal. -/
def bitIndex (s : SpiOut L) : Nat := (s.counter.setWidth 32 - 1#32).toNat

/-- One edge of `clk`: the first and the third block. -/
def step (s : SpiOut L) (i : SpiIn L) : SpiOut L :=
  let s' := { s with currentState := s.nextState i.rstN i.en }
  if !i.rstN then
    { s' with
      dataInSave := i.dataIn, counter := BitVec.ofNat 5 L, sclk := true, syncN := true }
  else
    match s.nextState i.rstN i.en with
    | .idle =>
        { s' with
          dataInSave := i.dataIn, counter := BitVec.ofNat 5 L, sclk := true, syncN := true }
    | .send => { s' with sclk := false, counter := s.counter - 1#5 }
    | .sendN => { s' with sclk := true, dout := s.dataInSave.getLsbD s.bitIndex, syncN := false }
    | .delay | .ended => { s' with sclk := true, syncN := true, counter := s.counter + 1#5 }
    | .delayReload => { s' with sclk := true, syncN := true, counter := 0#5 }

@[simp] theorem step_currentState (s : SpiOut L) (i : SpiIn L) :
    (s.step i).currentState = s.nextState i.rstN i.en := by
  unfold step
  split
  · rfl
  · cases s.nextState i.rstN i.en <;> rfl

structure PowerUp (s : SpiOut L) : Prop where
  idle : s.currentState = .idle
  counter : s.counter = BitVec.ofNat 5 L

end SpiOut

/-! ## 2. What is seen -/

/-- `start`, `stop`: `sync_n` falls, rises. `fall`: `sclk` falls, with what `dout` shows. -/
inductive SpiEvent where
  | start | stop
  | fall (dout : Bool)
  deriving DecidableEq, Repr

/-- What is seen at an edge that leads from `s` to `s'`. -/
def SpiOut.seen {L : Nat} (s s' : SpiOut L) : List SpiEvent :=
  (if s.syncN = true ∧ s'.syncN = false then [.start] else []) ++
  (if s.sclk = true ∧ s'.sclk = false then [.fall s'.dout] else []) ++
  (if s.syncN = false ∧ s'.syncN = true then [.stop] else [])

/-- The inputs at an edge with `rst_n` high. -/
structure SpiWordIn (L : Nat) where
  en : Bool
  dataIn : BitVec L

/-- `SPI_OUT` with `rst_n` high. -/
def spi (L : Nat) : Machine (SpiOut L) (SpiWordIn L) SpiEvent where
  step s i := s.step ⟨true, i.en, i.dataIn⟩
  out s i := s.seen (s.step ⟨true, i.en, i.dataIn⟩)

/-! ## 3. One edge, by the state -/

section Edge

variable {L : Nat} {s : SpiOut L} {i : SpiWordIn L}

open SpiOut

theorem edge_idle (hs : s.currentState = .idle) (he : i.en = false) :
    (spi L).step s i =
      { s with
        dataInSave := i.dataIn, counter := BitVec.ofNat 5 L, sclk := true, syncN := true } := by
  simp only [spi, step, nextState, hs, he, Bool.not_true, Bool.false_eq_true, if_false]

theorem edge_begin (hs : s.currentState = .idle) (he : i.en = true) :
    (spi L).step s i =
      { s with
        currentState := .sendN, sclk := true, dout := s.dataInSave.getLsbD s.bitIndex
        syncN := false } := by
  simp [spi, step, nextState, hs, he]

theorem edge_fall (hs : s.currentState = .sendN) (hc : s.sclk = true) :
    (spi L).step s i =
      { s with currentState := .send, sclk := false, counter := s.counter - 1#5 } := by
  simp [spi, step, nextState, hs, hc]

theorem edge_next (hs : s.currentState = .send) (hc : s.sclk = false) (h0 : s.counter ≠ 0#5) :
    (spi L).step s i =
      { s with
        currentState := .sendN, sclk := true, dout := s.dataInSave.getLsbD s.bitIndex
        syncN := false } := by
  simp [spi, step, nextState, hs, hc, h0]

theorem edge_delay (hs : s.currentState = .send) (h0 : s.counter = 0#5) :
    (spi L).step s i =
      { s with currentState := .delay, sclk := true, syncN := true, counter := 1#5 } := by
  simp [spi, step, nextState, hs, h0]

theorem edge_reload (hs : s.currentState = .delay) (h1 : s.counter = 1#5) :
    (spi L).step s i =
      { s with currentState := .delayReload, sclk := true, syncN := true, counter := 0#5 } := by
  simp [spi, step, nextState, hs, h1]

theorem edge_end (hs : s.currentState = .delayReload) :
    (spi L).step s i =
      { s with
        currentState := .ended, sclk := true, syncN := true, counter := s.counter + 1#5 } := by
  simp [spi, step, nextState, hs]

/-- `END` goes on while the counter is at most 8, which is what `5'd40` is. -/
theorem edge_ended (hs : s.currentState = .ended) (h8 : s.counter.toNat ≤ 8) :
    (spi L).step s i = { s with sclk := true, syncN := true, counter := s.counter + 1#5 } := by
  have hle : ¬ 40#5 < s.counter := by
    rw [BitVec.lt_def]
    exact Nat.not_lt.mpr h8
  simp only [spi, step, nextState, hs, if_neg hle, Bool.not_true, Bool.false_eq_true, if_false]

theorem edge_back (hs : s.currentState = .ended) (h8 : 8 < s.counter.toNat) :
    (spi L).step s i =
      { s with
        currentState := .idle, dataInSave := i.dataIn, counter := BitVec.ofNat 5 L, sclk := true
        syncN := true } := by
  have hlt : 40#5 < s.counter := BitVec.lt_def.mpr h8
  simp only [spi, step, nextState, hs, if_pos hlt, Bool.not_true, Bool.false_eq_true, if_false]

/-- The index of the bit, as long as there are bits left. -/
theorem bitIndex_of_pos (h : 0 < s.counter.toNat) : s.bitIndex = s.counter.toNat - 1 := by
  have hlt := s.counter.isLt
  have hw : (s.counter.setWidth 32).toNat = s.counter.toNat := by
    rw [BitVec.toNat_setWidth]
    omega
  have hle : 1#32 ≤ s.counter.setWidth 32 := by
    rw [BitVec.le_def, hw]
    exact h
  rw [bitIndex, BitVec.toNat_sub_of_le hle, hw]
  rfl

end Edge

/-! ## 4. How far a word has come -/

/-- The falling edges of the first `k` bits of `x`, the highest bit first. -/
def falls {L : Nat} (x : BitVec L) (k : Nat) : List SpiEvent :=
  (List.range k).map fun j => .fall (x.getLsbD (L - (j + 1)))

theorem falls_succ {L : Nat} (x : BitVec L) (k : Nat) :
    falls x (k + 1) = falls x k ++ [.fall (x.getLsbD (L - (k + 1)))] := by
  simp [falls, List.range_succ]

/-- `t` edges after `IDLE` was left with `x` in `data_in_save`: the registers, and the falling edges
    and the end of `sync_n` that have been seen. -/
inductive InWord {L : Nat} (x : BitVec L) (s : SpiOut L) : Nat → List SpiEvent → Prop where
  | high (k : Nat) (hk : k < L) (hs : s.currentState = .sendN) (hc : s.counter.toNat = L - k)
      (hx : s.dataInSave = x) (hclk : s.sclk = true) (hsync : s.syncN = false)
      (hd : s.dout = x.getLsbD (L - (k + 1))) : InWord x s (2 * k + 1) (falls x k)
  | low (k : Nat) (hk : k < L) (hs : s.currentState = .send) (hc : s.counter.toNat = L - (k + 1))
      (hx : s.dataInSave = x) (hclk : s.sclk = false) (hsync : s.syncN = false) :
      InWord x s (2 * k + 2) (falls x (k + 1))
  | delay (hs : s.currentState = .delay) (hc : s.counter = 1#5) (hclk : s.sclk = true)
      (hsync : s.syncN = true) : InWord x s (2 * L + 1) (falls x L ++ [.stop])
  | reload (hs : s.currentState = .delayReload) (hc : s.counter = 0#5) (hclk : s.sclk = true)
      (hsync : s.syncN = true) : InWord x s (2 * L + 2) (falls x L ++ [.stop])
  | ended (m : Nat) (hm : 1 ≤ m) (h9 : m ≤ 9) (hs : s.currentState = .ended)
      (hc : s.counter.toNat = m) (hclk : s.sclk = true) (hsync : s.syncN = true) :
      InWord x s (2 * L + 2 + m) (falls x L ++ [.stop])

/-- Edges from leaving `IDLE` to the last one in `END`. -/
def lastEdge (L : Nat) : Nat := 2 * L + 11

section Word

variable {L : Nat} {s : SpiOut L} {x : BitVec L} {t : Nat} {l : List SpiEvent}

theorem inWord_pos (h : InWord x s t l) : 1 ≤ t ∧ t ≤ lastEdge L := by
  unfold lastEdge
  cases h <;> omega

/-- Leaving `IDLE`. -/
theorem inWord_begin (i : SpiWordIn L) (h1 : 1 ≤ L) (hL : L ≤ 31)
    (hs : s.currentState = .idle) (hc : s.counter = BitVec.ofNat 5 L) (he : i.en = true) :
    InWord s.dataInSave ((spi L).step s i) 1 [] := by
  have hcount : s.counter.toNat = L := by
    rw [hc, BitVec.toNat_ofNat]
    omega
  rw [edge_begin hs he]
  refine .high 0 h1 rfl hcount rfl rfl rfl ?_
  show s.dataInSave.getLsbD s.bitIndex = _
  rw [bitIndex_of_pos (by omega), hcount]

/-- **One edge of a word**, before its last. -/
theorem inWord_step (i : SpiWordIn L) (h : InWord x s t l) (ht : t < lastEdge L) :
    InWord x ((spi L).step s i) (t + 1) (l ++ (spi L).out s i) := by
  have hout : (spi L).out s i = s.seen ((spi L).step s i) := rfl
  cases h with
  | high k hk hs hc hx hclk hsync hd =>
    have hcount : (s.counter - 1#5).toNat = L - (k + 1) := by
      have hone : 1#5 ≤ s.counter := BitVec.le_def.mpr (by rw [hc]; show 1 ≤ L - k; omega)
      rw [BitVec.toNat_sub_of_le hone, hc]
      exact Nat.sub_sub L k 1
    have hseen : s.seen { s with
        currentState := .send, sclk := false, counter := s.counter - 1#5 } =
        [.fall (x.getLsbD (L - (k + 1)))] := by
      simp [SpiOut.seen, hclk, hsync, hd]
    rw [hout, edge_fall hs hclk, hseen, ← falls_succ]
    exact .low k hk rfl hcount hx rfl hsync
  | low k hk hs hc hx hclk hsync =>
    by_cases hlast : k + 1 = L
    · have h0 : s.counter = 0#5 := BitVec.eq_of_toNat_eq (by rw [hc, hlast, Nat.sub_self]; rfl)
      have hseen : s.seen { s with
          currentState := .delay, sclk := true, syncN := true, counter := 1#5 } = [.stop] := by
        simp [SpiOut.seen, hsync, hclk]
      rw [hout, edge_delay hs h0, hseen, hlast, show 2 * k + 2 = 2 * L by omega]
      exact .delay rfl rfl rfl rfl
    · have hpos : 0 < s.counter.toNat := by
        rw [hc]
        omega
      have h0 : s.counter ≠ 0#5 := fun h => by simp [h] at hpos
      have hseen : s.seen { s with
          currentState := .sendN, sclk := true, dout := s.dataInSave.getLsbD s.bitIndex
          syncN := false } = [] := by
        simp [SpiOut.seen, hsync, hclk]
      rw [hout, edge_next hs hclk h0, hseen, List.append_nil]
      refine .high (k + 1) (by omega) rfl hc hx rfl rfl ?_
      show s.dataInSave.getLsbD s.bitIndex = _
      rw [bitIndex_of_pos hpos, hc, hx]
      congr 1
  | delay hs hc hclk hsync =>
    have hseen : s.seen { s with
        currentState := .delayReload, sclk := true, syncN := true, counter := 0#5 } = [] := by
      simp [SpiOut.seen, hsync]
    rw [hout, edge_reload hs hc, hseen, List.append_nil]
    exact .reload rfl rfl rfl rfl
  | reload hs hc hclk hsync =>
    have hseen : s.seen { s with
        currentState := .ended, sclk := true, syncN := true, counter := s.counter + 1#5 } = [] := by
      simp [SpiOut.seen, hsync]
    rw [hout, edge_end hs, hseen, List.append_nil]
    exact .ended 1 (Nat.le_refl 1) (by decide) rfl (by rw [hc]; rfl) rfl rfl
  | ended m hm h9 hs hc hclk hsync =>
    have hm8 : m ≤ 8 := by
      unfold lastEdge at ht
      omega
    have hcount : (s.counter + 1#5).toNat = m + 1 := by
      rw [BitVec.toNat_add, hc]
      exact Nat.mod_eq_of_lt (by show m + 1 < 32; omega)
    have hseen : s.seen { s with sclk := true, syncN := true, counter := s.counter + 1#5 } = [] := by
      simp [SpiOut.seen, hsync]
    rw [hout, edge_ended hs (by omega), hseen, List.append_nil]
    exact .ended (m + 1) (by omega) (by omega) hs hcount rfl rfl

/-- `next_state` in a word does not read `en`: it is `END` in `DELAY_RELOAD` and for the first eight
    edges of `END`, and `IDLE` at the last. -/
theorem inWord_nextState (en : Bool) (h : InWord x s t l) :
    (s.nextState true en = .ended ↔ 2 * L + 2 ≤ t ∧ t < lastEdge L) ∧
      (s.nextState true en = .idle ↔ t = lastEdge L) := by
  unfold lastEdge
  cases h with
  | high k hk hs hc hx hclk =>
    have hn : s.nextState true en = .send := by simp [SpiOut.nextState, hs, hclk]
    rw [hn]
    exact ⟨iff_of_false nofun (by omega), iff_of_false nofun (by omega)⟩
  | low k hk hs hc hx hclk =>
    have hn : s.nextState true en = .delay ∨ s.nextState true en = .sendN := by
      by_cases h0 : s.counter = 0#5
      · exact Or.inl (by simp [SpiOut.nextState, hs, h0])
      · exact Or.inr (by simp [SpiOut.nextState, hs, h0, hclk])
    rcases hn with hn | hn <;> rw [hn] <;>
      exact ⟨iff_of_false nofun (by omega), iff_of_false nofun (by omega)⟩
  | delay hs hc =>
    have hn : s.nextState true en = .delayReload := by simp [SpiOut.nextState, hs, hc]
    rw [hn]
    exact ⟨iff_of_false nofun (by omega), iff_of_false nofun (by omega)⟩
  | reload hs =>
    have hn : s.nextState true en = .ended := by simp [SpiOut.nextState, hs]
    rw [hn]
    exact ⟨iff_of_true rfl (by omega), iff_of_false nofun (by omega)⟩
  | ended m hm h9 hs hc =>
    by_cases hlast : m ≤ 8
    · have hle : ¬ 40#5 < s.counter := by
        rw [BitVec.lt_def, hc]
        exact Nat.not_lt.mpr hlast
      have hn : s.nextState true en = .ended := by
        simp only [SpiOut.nextState, hs, if_neg hle, Bool.not_true, Bool.false_eq_true, if_false]
      rw [hn]
      exact ⟨iff_of_true rfl (by omega), iff_of_false nofun (by omega)⟩
    · have hlt : 40#5 < s.counter := by
        rw [BitVec.lt_def, hc]
        exact Nat.lt_of_not_le hlast
      have hn : s.nextState true en = .idle := by
        simp only [SpiOut.nextState, hs, if_pos hlt, Bool.not_true, Bool.false_eq_true, if_false]
      rw [hn]
      exact ⟨iff_of_false nofun (by omega), iff_of_true rfl (by omega)⟩

/-- Once all bits are out, both lines are high and the word has been seen whole. -/
theorem inWord_sent (h : InWord x s t l) (ht : 2 * L < t) :
    s.syncN = true ∧ s.currentState ≠ .send ∧ s.currentState ≠ .sendN ∧
      l = falls x L ++ [.stop] := by
  cases h with
  | high k hk | low k hk => omega
  | delay hs hc hclk hsync | reload hs hc hclk hsync =>
    exact ⟨hsync, by rw [hs]; nofun, by rw [hs]; nofun, rfl⟩
  | ended m hm h9 hs hc hclk hsync => exact ⟨hsync, by rw [hs]; nofun, by rw [hs]; nofun, rfl⟩

/-- The edge back to `IDLE`. -/
theorem inWord_end (i : SpiWordIn L) (h : InWord x s (lastEdge L) l) :
    l = falls x L ++ [.stop] ∧ (spi L).out s i = [] ∧
      (spi L).step s i =
        { s with
          currentState := .idle, dataInSave := i.dataIn, counter := BitVec.ofNat 5 L, sclk := true
          syncN := true } := by
  have hout : (spi L).out s i = s.seen ((spi L).step s i) := rfl
  generalize hT : lastEdge L = T at h
  unfold lastEdge at hT
  cases h with
  | high k hk | low k hk | delay | reload => omega
  | ended m hm h9 hs hc hclk hsync =>
    have hback := edge_back (i := i) hs (by omega)
    refine ⟨rfl, ?_, hback⟩
    rw [hout, hback]
    simp [SpiOut.seen, hsync]

/-- From anywhere in a word, the edges up to its end. -/
theorem inWord_run (is : List (SpiWordIn L)) (h : InWord x s t l)
    (ht : t + is.length = lastEdge L + 1) :
    l ++ (spi L).log s is = falls x L ++ [.stop] ∧
      ((spi L).run s is).currentState = .idle := by
  induction is generalizing s t l with
  | nil =>
    have hle := (inWord_pos h).2
    rw [List.length_nil] at ht
    omega
  | cons i is ih =>
    rw [List.length_cons] at ht
    rcases Nat.lt_or_eq_of_le (inWord_pos h).2 with hlt | rfl
    · obtain ⟨hlog, hend⟩ := ih (inWord_step i h hlt) (by omega)
      exact ⟨by rw [Machine.log_cons, ← List.append_assoc, hlog], hend⟩
    · have hnil : is = [] := List.eq_nil_of_length_eq_zero (by omega)
      obtain ⟨hl, hout, hstep⟩ := inWord_end i h
      subst hnil
      rw [Machine.log_cons, Machine.log_nil, hout, Machine.run_cons, Machine.run_nil, hstep]
      exact ⟨by simpa using hl, rfl⟩

/-! ## 5. Every run -/

/-- Every state of a run from power-up: idle with the counter loaded, or in a word. -/
def SpiInv (s : SpiOut L) : Prop :=
  s.currentState = .idle ∧ s.counter = BitVec.ofNat 5 L ∨ ∃ x t l, InWord x s t l

theorem spiInv_step (h1 : 1 ≤ L) (hL : L ≤ 31) (s : SpiOut L) (i : SpiWordIn L) (h : SpiInv s) :
    SpiInv ((spi L).step s i) := by
  rcases h with ⟨hs, hc⟩ | ⟨x, t, l, h⟩
  · cases he : i.en with
    | false =>
      rw [edge_idle hs he]
      exact Or.inl ⟨hs, rfl⟩
    | true => exact Or.inr ⟨_, _, _, inWord_begin i h1 hL hs hc he⟩
  · rcases Nat.lt_or_eq_of_le (inWord_pos h).2 with hlt | rfl
    · exact Or.inr ⟨_, _, _, inWord_step i h hlt⟩
    · rw [(inWord_end i h).2.2]
      exact Or.inl ⟨rfl, rfl⟩

theorem spiInv_run (h1 : 1 ≤ L) (hL : L ≤ 31) (h0 : s.PowerUp) (is : List (SpiWordIn L)) :
    SpiInv ((spi L).run s is) :=
  (spi L).inv_run (spiInv_step h1 hL) (Or.inl ⟨h0.idle, h0.counter⟩) is

/-- An `IDLE` step latches the data and drives both lines high. -/
theorem latch_of_idle {i : SpiWordIn L} (h : ((spi L).step s i).currentState = .idle) :
    (spi L).step s i =
      { s with
        currentState := .idle, dataInSave := i.dataIn, counter := BitVec.ofNat 5 L, sclk := true
        syncN := true } := by
  have hn : s.nextState true i.en = .idle := (SpiOut.step_currentState s _).symm.trans h
  simp only [spi, SpiOut.step, hn, Bool.not_true, Bool.false_eq_true, if_false]

/-- **A word**, after an `IDLE` step with the data `j.dataIn`: SPI_LEN falling edges with its bits,
    the highest first, and then the end of `sync_n`, whatever the inputs do meanwhile. -/
theorem word_log (h1 : 1 ≤ L) (hL : L ≤ 31) {i j : SpiWordIn L} {later : List (SpiWordIn L)}
    (hidle : ((spi L).step s j).currentState = .idle) (he : i.en = true)
    (hlen : later.length = lastEdge L) :
    (spi L).log ((spi L).step s j) (i :: later) = .start :: (falls j.dataIn L ++ [.stop]) ∧
      ((spi L).run ((spi L).step s j) (i :: later)).currentState = .idle := by
  rw [latch_of_idle hidle]
  generalize hs' : ({ s with
    currentState := .idle, dataInSave := j.dataIn, counter := BitVec.ofNat 5 L, sclk := true
    syncN := true } : SpiOut L) = s'
  have hst : s'.currentState = .idle := by rw [← hs']
  have hstart : (spi L).out s' i = [.start] := by
    show s'.seen ((spi L).step s' i) = _
    rw [edge_begin hst he, ← hs']
    rfl
  have hsave : s'.dataInSave = j.dataIn := by rw [← hs']
  have hword := inWord_begin i h1 hL hst (by rw [← hs']) he
  obtain ⟨hlog, hend⟩ := inWord_run later hword (by omega)
  rw [Machine.log_cons, hstart, Machine.run_cons]
  rw [List.nil_append, hsave] at hlog
  exact ⟨congrArg _ hlog, hend⟩

/-- What holds at every edge: `dout` changes only while `sclk` is driven high; a bit is read inside
    `data_in_save`; the counter goes down to 0 and up to 9 at most, and never wraps. -/
structure EdgeFacts (s s' : SpiOut L) : Prop where
  dout : s'.dout ≠ s.dout → s'.sclk = true
  index : s'.currentState = .sendN → s.bitIndex < L
  down : s'.currentState = .send → s'.counter.toNat + 1 = s.counter.toNat
  up : s'.currentState = .delay ∨ s'.currentState = .ended →
    s.counter.toNat ≤ 8 ∧ s'.counter.toNat = s.counter.toNat + 1

theorem edgeFacts (h1 : 1 ≤ L) (hL : L ≤ 31) (i : SpiWordIn L) (h : SpiInv s) :
    EdgeFacts s ((spi L).step s i) := by
  rcases h with ⟨hs, hc⟩ | ⟨x, t, l, h⟩
  · have hcount : s.counter.toNat = L := by
      rw [hc, BitVec.toNat_ofNat]
      omega
    cases he : i.en with
    | false =>
      rw [edge_idle hs he]
      refine ⟨fun _ => rfl, fun h => ?_, fun h => ?_, fun h => ?_⟩ <;> simp [hs] at h
    | true =>
      rw [edge_begin hs he]
      refine ⟨fun _ => rfl, fun _ => ?_, nofun, nofun⟩
      rw [bitIndex_of_pos (by omega)]
      omega
  cases h with
  | high k hk hs hc hx hclk hsync hd =>
    have hone : 1#5 ≤ s.counter := BitVec.le_def.mpr (by rw [hc]; show 1 ≤ L - k; omega)
    rw [edge_fall hs hclk]
    refine ⟨fun hne => absurd rfl hne, nofun, fun _ => ?_, nofun⟩
    show (s.counter - 1#5).toNat + 1 = _
    rw [BitVec.toNat_sub_of_le hone, hc]
    show L - k - 1 + 1 = L - k
    omega
  | low k hk hs hc hx hclk hsync =>
    by_cases h0 : s.counter = 0#5
    · rw [edge_delay hs h0]
      exact ⟨fun _ => rfl, nofun, nofun, fun _ => by rw [h0]; exact ⟨by decide, rfl⟩⟩
    · have hpos : 0 < s.counter.toNat := Nat.pos_of_ne_zero fun e => h0 (BitVec.eq_of_toNat_eq e)
      rw [edge_next hs hclk h0]
      refine ⟨fun _ => rfl, fun _ => ?_, nofun, nofun⟩
      rw [bitIndex_of_pos hpos]
      omega
  | delay hs hc =>
    rw [edge_reload hs hc]
    exact ⟨fun _ => rfl, nofun, nofun, nofun⟩
  | reload hs hc =>
    rw [edge_end hs]
    exact ⟨fun _ => rfl, nofun, nofun, fun _ => by rw [hc]; exact ⟨by decide, rfl⟩⟩
  | ended m hm h9 hs hc =>
    rcases Nat.lt_or_ge s.counter.toNat 9 with hle | hlt
    · rw [edge_ended hs (Nat.le_of_lt_succ hle)]
      refine ⟨fun _ => rfl, fun h => ?_, fun h => ?_, fun _ => ⟨Nat.le_of_lt_succ hle, ?_⟩⟩
      · rw [hs] at h
        cases h
      · rw [hs] at h
        cases h
      · rw [BitVec.toNat_add]
        exact Nat.mod_eq_of_lt (by show s.counter.toNat + 1 < 32; omega)
    · rw [edge_back hs hlt]
      exact ⟨fun _ => rfl, nofun, nofun, nofun⟩

/-- `sync_n` falls on leaving `IDLE` only. -/
theorem start_idle (i : SpiWordIn L) (h : SpiInv s) (hsync : s.syncN = true)
    (hfall : ((spi L).step s i).syncN = false) : s.currentState = .idle ∧ i.en = true := by
  rcases h with ⟨hs, hc⟩ | ⟨x, t, l, h⟩
  · cases he : i.en with
    | true => exact ⟨hs, rfl⟩
    | false =>
      rw [edge_idle hs he] at hfall
      cases hfall
  cases h with
  | high k hk hs hc hx hclk hlow | low k hk hs hc hx hclk hlow =>
    rw [hlow] at hsync
    cases hsync
  | delay hs hc =>
    rw [edge_reload hs hc] at hfall
    cases hfall
  | reload hs hc =>
    rw [edge_end hs] at hfall
    cases hfall
  | ended m hm h9 hs hc =>
    rcases Nat.lt_or_ge s.counter.toNat 9 with hle | hlt
    · rw [edge_ended hs (Nat.le_of_lt_succ hle)] at hfall
      cases hfall
    · rw [edge_back hs hlt] at hfall
      cases hfall

/-- The machine is back in `IDLE` after at most 2 SPI_LEN + 12 edges, however it goes on. -/
theorem returns_to_idle (h : SpiInv s) :
    ∃ n ≤ 2 * L + 12, ∀ later : List (SpiWordIn L), later.length = n →
      ((spi L).run s later).currentState = .idle := by
  rcases h with ⟨hs, hc⟩ | ⟨x, t, l, h⟩
  · refine ⟨0, Nat.zero_le _, ?_⟩
    intro later hlen
    rw [List.eq_nil_of_length_eq_zero hlen]
    exact hs
  · obtain ⟨h1, h2⟩ := inWord_pos h
    unfold lastEdge at h2
    refine ⟨2 * L + 12 - t, by omega, ?_⟩
    intro later hlen
    exact (inWord_run later h (by unfold lastEdge; omega)).2

/-- Some step of the run had `IDLE` as its next state. -/
def IdleStep (s₀ : SpiOut L) (before : List (SpiWordIn L)) : Prop :=
  ∃ b j b', before = b ++ j :: b' ∧ ((spi L).run s₀ (b ++ [j])).currentState = .idle

/-- **The frames of `SPI_OUT`.** At every edge of every run from power-up the facts of `EdgeFacts`
    hold, and `IDLE` is reached again within 2 SPI_LEN + 12 edges. Where `sync_n` falls after an
    `IDLE` step, the last edge was an `IDLE` step; from there to the rise of `sync_n`, `sclk` falls
    SPI_LEN times, at the `j`-th time with bit SPI_LEN - j of the data of that `IDLE` step, and then
    the machine returns to `IDLE`. -/
theorem spi_framing (L : Nat) (h1 : 1 ≤ L) (hL : L ≤ 31) (s₀ : SpiOut L) (h0 : s₀.PowerUp)
    (before : List (SpiWordIn L)) (i : SpiWordIn L) :
    let s := (spi L).run s₀ before
    EdgeFacts s ((spi L).step s i) ∧
    (∃ n ≤ 2 * L + 12, ∀ later : List (SpiWordIn L), later.length = n →
      ((spi L).run s later).currentState = .idle) ∧
    (IdleStep s₀ before → s.syncN = true → ((spi L).step s i).syncN = false →
      ∃ b j, before = b ++ [j] ∧ s.currentState = .idle ∧
        ∀ later : List (SpiWordIn L), later.length = 2 * L + 11 →
          (spi L).log s (i :: later) = .start :: (falls j.dataIn L ++ [.stop]) ∧
            ((spi L).run s (i :: later)).currentState = .idle) := by
  intro s
  have hinv : SpiInv s := spiInv_run h1 hL h0 before
  refine ⟨edgeFacts h1 hL i hinv, returns_to_idle hinv, ?_⟩
  intro hidle hsync hfall
  obtain ⟨hs, he⟩ := start_idle i hinv hsync hfall
  obtain ⟨b₀, j₀, b', hbefore, _⟩ := hidle
  rcases List.eq_nil_or_concat' before with hnil | ⟨b, j, hlast⟩
  · rw [hnil] at hbefore
    exact absurd hbefore.symm (List.append_ne_nil_of_right_ne_nil _ (List.cons_ne_nil _ _))
  · have hrun : s = (spi L).step ((spi L).run s₀ b) j := by
      show (spi L).run s₀ before = _
      rw [hlast, Machine.run_append]
      rfl
    refine ⟨b, j, hlast, hs, ?_⟩
    intro later hlen
    rw [hrun] at hs ⊢
    exact word_log h1 hL hs he hlen

end Word

/-- Power-up with all lines low. -/
def lowSpi : SpiOut 16 := ⟨.idle, 16#5, 0#16, false, false, false⟩

def idleIn : SpiWordIn 16 := ⟨false, 0xa5c3#16⟩

def enableIn : SpiWordIn 16 := ⟨true, 0#16⟩

/-- One idle step with the data 0xA5C3, then a word. -/
theorem spi_framing_sixteen :
    ∃ b j, [idleIn] = b ++ [j] ∧ ((spi 16).run lowSpi [idleIn]).currentState = .idle ∧
      ∀ later : List (SpiWordIn 16), later.length = 2 * 16 + 11 →
        (spi 16).log ((spi 16).run lowSpi [idleIn]) (enableIn :: later) =
            .start :: (falls j.dataIn 16 ++ [.stop]) ∧
          ((spi 16).run ((spi 16).run lowSpi [idleIn]) (enableIn :: later)).currentState = .idle :=
  (spi_framing 16 (by decide) (by decide) lowSpi ⟨rfl, rfl⟩ [idleIn] enableIn).2.2
    ⟨[], idleIn, [], rfl, rfl⟩ rfl rfl

end WifiOsc
