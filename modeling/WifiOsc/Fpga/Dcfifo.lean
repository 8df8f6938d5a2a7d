/-
  File:      WifiOsc/Fpga/Dcfifo.lean
  Subject:   THE FIFO OF THE CAPTURE PATH, as Quartus has generated it for ADC_FIFO.v
             (FPGA/SPI_TEST_2/db/dcfifo_anf1.tdf and the blocks it uses).

  The two sides count in Gray code, in 13 bits for 4096 words. Each count goes to the other side
  through two registers of that side's clock; `delayed_wrptr_g` comes before these on the one side,
  `ws_brp` after them on the other. The RAM puts out the word it was last given the address of, and
  `q` takes it over at the next read, so that `q` is the oldest word after it.

  Where both clocks rise with one edge, the first register of a side may take any bit of the other's
  count before or after its change, and the RAM puts out anything for a word that is being written.

  * `GrayCounter`: a_graycounter_6p6.tdf and a_graycounter_27c.tdf; `Counts`, `counts_step`;
  * `WrSide`, `RdSide`, `Dcfifo`: the registers of the two sides;
  * `Dcfifo.Models`: the FIFO has the counts and the words of a `Crossing`; `models_step`: one step;
  * `fifo_order`: over every run, the words read are the first words written.
-/
import WifiOsc.Basis.Crossing
import WifiOsc.Basis.Machine
import Mathlib.Data.BitVec
import Mathlib.Logic.Function.Basic

namespace WifiOsc

open Basis

/-! ## 1. The counters -/

/-- The bits of a bus. -/
def bus : (w : Nat) → (Nat → Bool) → BitVec w
  | 0, _ => 0#0
  | w + 1, f => BitVec.cons (f w) (bus w f)

/-- `q` is `counter`. -/
structure GrayCounter where
  counter : BitVec 13
  parity : Bool
  subParity : BitVec 4
  deriving DecidableEq, Repr

namespace GrayCounter

/-- `power_up = "high"` for bit 0 and for the parity. -/
def powerUp : GrayCounter := ⟨1#13, true, 0#4⟩

/-- `updown` is VCC. -/
def parityCout (g : GrayCounter) (cntEn : Bool) : Bool := (!g.parity ^^ true) && cntEn

/-- `cntr_cout[i]`. -/
def cntrCout (g : GrayCounter) (cntEn : Bool) : Nat → Bool
  | 0 => cntEn && g.parityCout cntEn
  | i + 1 => g.cntrCout cntEn i && !g.counter.getLsbD i

/-- The input of `counter[i]`. -/
def counterD (g : GrayCounter) (cntEn : Bool) : Nat → Bool
  | 0 =>
      (cntEn && (g.counter.getLsbD 0 ^^ !g.parityCout cntEn)) || (!cntEn && g.counter.getLsbD 0)
  | 12 => g.counter.getLsbD 12 ^^ g.cntrCout cntEn 11
  | i + 1 => g.counter.getLsbD (i + 1) ^^ (g.counter.getLsbD i && g.cntrCout cntEn i)

/-- The parity of the bits from `4 i` on, four at the most. -/
def nibble (c : BitVec 13) (i : Nat) : Bool :=
  c.getLsbD (4 * i) ^^ c.getLsbD (4 * i + 1) ^^ c.getLsbD (4 * i + 2) ^^ c.getLsbD (4 * i + 3)

/-- One rising edge of `clock`. -/
def step (g : GrayCounter) (cntEn : Bool) : GrayCounter where
  counter := bus 13 (g.counterD cntEn)
  parity :=
    (cntEn && (g.subParity.getLsbD 0 ^^ g.subParity.getLsbD 1 ^^ g.subParity.getLsbD 2 ^^
      g.subParity.getLsbD 3)) || (!cntEn && g.parity)
  subParity := bus 4 fun i =>
    (cntEn && nibble g.counter i) || (!cntEn && g.subParity.getLsbD i)

end GrayCounter

theorem getLsbD_bus (f : Nat → Bool) {w i : Nat} (hi : i < w) : (bus w f).getLsbD i = f i := by
  induction w with
  | zero => exact absurd hi (Nat.not_lt_zero i)
  | succ w ih =>
    rw [bus, BitVec.getLsbD_cons]
    split
    · next h => rw [h]
    · exact ih (by omega)

/-- It stands at `n`; its parity is that of `n`, and the other parities are still those of the count
    before. -/
structure GrayCounter.Counts (g : GrayCounter) (n : Nat) : Prop where
  counter : g.counter = gray (BitVec.ofNat 13 n)
  parity : g.parity = (BitVec.ofNat 13 n).getLsbD 0
  subParity : (g.subParity.getLsbD 0 ^^ g.subParity.getLsbD 1 ^^ g.subParity.getLsbD 2 ^^
    g.subParity.getLsbD 3) = !(BitVec.ofNat 13 n).getLsbD 0

namespace GrayCounter

variable {g : GrayCounter} {n : Nat}

theorem counts_powerUp : powerUp.Counts 1 := ⟨by decide, by decide, by decide⟩

/-- The carry chain looks for the lowest bit that is clear in the count. -/
theorem cntrCout_eq (h : g.Counts n) (i : Nat) (hi : i ≤ 11) :
    g.cntrCout true i = carries (BitVec.ofNat 13 n) (i + 1) := by
  induction i with
  | zero => simp [cntrCout, parityCout, h.parity, carries]
  | succ i ih =>
    have hnext : carries (BitVec.ofNat 13 n) (i + 1 + 1) =
        (carries (BitVec.ofNat 13 n) (i + 1) && (BitVec.ofNat 13 n).getLsbD (i + 1)) := rfl
    rw [cntrCout, ih (by omega), hnext, h.counter, getLsbD_gray, carries]
    cases carries (BitVec.ofNat 13 n) i <;> cases (BitVec.ofNat 13 n).getLsbD i <;>
      cases (BitVec.ofNat 13 n).getLsbD (i + 1) <;> rfl

/-- **The counter turns the bit that the Gray code turns.** -/
theorem counterD_eq (h : g.Counts n) {i : Nat} (hi : i < 13) :
    g.counterD true i = (g.counter.getLsbD i ^^ turns (BitVec.ofNat 13 n) i) := by
  match i with
  | 0 => simp [counterD, parityCout, h.parity, turns, carries]
  | 12 =>
    rw [counterD, cntrCout_eq h 11 (Nat.le_refl 11), turns]
    simp
  | i + 1 =>
    by_cases htop : i = 11
    · subst htop
      rw [counterD, cntrCout_eq h 11 (Nat.le_refl 11), turns]
      simp
    have hturn : turns (BitVec.ofNat 13 n) (i + 1) =
        (g.counter.getLsbD i && g.cntrCout true i) := by
      rw [cntrCout_eq h i (by omega), turns, decide_eq_false (by omega), h.counter, getLsbD_gray,
        carries]
      cases carries (BitVec.ofNat 13 n) i <;> cases (BitVec.ofNat 13 n).getLsbD i <;>
        cases (BitVec.ofNat 13 n).getLsbD (i + 1) <;> rfl
    rw [hturn]
    unfold counterD
    split
    · omega
    · omega
    · next j _ hj =>
      obtain rfl : i = j := Nat.succ.inj hj
      rfl

/-- The parities of the nibbles cancel but for the lowest bit of the count. -/
theorem nibble_gray (x : BitVec 13) :
    (nibble (gray x) 0 ^^ nibble (gray x) 1 ^^ nibble (gray x) 2 ^^ nibble (gray x) 3) =
      x.getLsbD 0 := by
  have hone : ∀ i, nibble (gray x) i = (x.getLsbD (4 * i) ^^ x.getLsbD (4 * i + 4)) := by
    intro i
    simp only [nibble, getLsbD_gray, Nat.add_assoc, Nat.reduceAdd]
    cases x.getLsbD (4 * i) <;> cases x.getLsbD (4 * i + 1) <;> cases x.getLsbD (4 * i + 2) <;>
      cases x.getLsbD (4 * i + 3) <;> cases x.getLsbD (4 * i + 4) <;> rfl
  have htop : x.getLsbD 16 = false := BitVec.getLsbD_of_ge x 16 (by decide)
  simp only [hone, Nat.mul_zero, Nat.zero_add, Nat.mul_one, Nat.reduceMul, Nat.reduceAdd, htop]
  cases x.getLsbD 0 <;> cases x.getLsbD 4 <;> cases x.getLsbD 8 <;> cases x.getLsbD 12 <;> rfl

/-- **One enabled edge** counts on. -/
theorem counts_step (h : g.Counts n) : (g.step true).Counts (n + 1) := by
  have hsucc : BitVec.ofNat 13 (n + 1) = BitVec.ofNat 13 n + 1#13 := BitVec.ofNat_add n 1
  have hlow : (BitVec.ofNat 13 n + 1#13).getLsbD 0 = !(BitVec.ofNat 13 n).getLsbD 0 := by
    rw [getLsbD_succ (by decide), carries, Bool.xor_true]
  refine ⟨?_, ?_, ?_⟩
  · refine BitVec.eq_of_getLsbD_eq fun i hi => ?_
    rw [step, getLsbD_bus _ hi, counterD_eq h hi, h.counter, hsucc, getLsbD_gray_succ hi]
  · rw [hsucc, hlow, step, h.subParity]
    simp
  · rw [hsucc, hlow, Bool.not_not, step, ← nibble_gray (BitVec.ofNat 13 n), ← h.counter]
    simp (disch := decide) only [getLsbD_bus]
    simp

/-- And one that is not enabled leaves it. -/
theorem counts_hold (h : g.Counts n) : (g.step false).Counts n := by
  have hcarry : ∀ i, g.cntrCout false i = false := by
    intro i
    induction i with
    | zero => simp [cntrCout]
    | succ i ih => rw [cntrCout, ih, Bool.false_and]
  have hcounter : (g.step false).counter = g.counter := by
    refine BitVec.eq_of_getLsbD_eq fun i hi => ?_
    rw [step, getLsbD_bus _ hi]
    unfold counterD
    split <;> simp [hcarry]
  refine ⟨hcounter.trans h.counter, ?_, ?_⟩
  · rw [step, ← h.parity]
    simp
  · rw [step, ← h.subParity]
    simp (disch := decide) only [getLsbD_bus]
    simp

end GrayCounter

/-! ## 2. The two sides -/

/-- What is not determined where both clocks rise with one edge: the bits of a count that the other
    side's first register reads after their change, and the word that the RAM puts out at the address
    that is being written. -/
structure Skew (α : Type) where
  newRd : BitVec 13
  newWr : BitVec 13
  word : α

variable {α : Type}

/-- `wsDgrp` are the registers of `ws_dgrp`, the first one first. -/
structure WrSide (α : Type) where
  wrptrG1p : GrayCounter
  wrptrG : BitVec 13
  delayedWrptrG : BitVec 13
  wsDgrp : BitVec 13 × BitVec 13
  wsBwp : BitVec 13
  wsBrp : BitVec 13
  ram : BitVec 12 → α

/-- `addressB` and `core` are the address register of the RAM and what it puts out. -/
structure RdSide (α : Type) where
  rdptrG1p : GrayCounter
  rdptrG : BitVec 13
  rsDgwp : BitVec 13 × BitVec 13
  addressB : BitVec 12
  core : α
  q : α

structure Dcfifo (α : Type) where
  wr : WrSide α
  rd : RdSide α

/-- What is on the ports at an edge of the base clock; `rdclk` and `wrclk`: do they rise with it? -/
structure DcfifoIn (α : Type) where
  rdclk : Bool
  rdreq : Bool
  wrclk : Bool
  wrreq : Bool
  data : α
  skew : Skew α

/-- The exclusive or of the bits from `12 - k` on. -/
def xorDown (g : BitVec 13) : Nat → Bool
  | 0 => g.getLsbD 12
  | k + 1 => g.getLsbD (11 - k) ^^ xorDown g k

/-- a_gray2bin_9ib.tdf. -/
def gray2bin (g : BitVec 13) : BitVec 13 := bus 13 fun i => xorDown g (12 - i)

/-- The address in the RAM: the upper two bits as one. -/
def ramAddress (g : BitVec 13) : BitVec 12 :=
  BitVec.cons (g.getLsbD 12 ^^ g.getLsbD 11) (g.setWidth 11)

/-- `wrptr_gs`: the upper two bits inverted. -/
def wrptrGs (g : BitVec 13) : BitVec 13 := g ^^^ 0x1800#13

namespace WrSide

def wrfull (w : WrSide α) : Bool := w.wsDgrp.2 == wrptrGs w.wrptrG

def wrusedw (w : WrSide α) : BitVec 12 := (w.wsBwp - w.wsBrp).setWidth 12

def validWrreq (w : WrSide α) (wrreq : Bool) : Bool := wrreq && !w.wrfull

/-- A rising edge of `wrclk`; `rdptr` is what comes from the other side. -/
def edge (w : WrSide α) (wrreq : Bool) (data : α) (rdptr : BitVec 13) : WrSide α where
  wrptrG1p := w.wrptrG1p.step (w.validWrreq wrreq)
  wrptrG := if w.validWrreq wrreq then w.wrptrG1p.counter else w.wrptrG
  delayedWrptrG := w.wrptrG
  wsDgrp := (rdptr, w.wsDgrp.1)
  wsBwp := gray2bin w.wrptrG
  wsBrp := gray2bin w.wsDgrp.2
  ram :=
    if w.validWrreq wrreq then Function.update w.ram (ramAddress w.wrptrG) data else w.ram

end WrSide

namespace RdSide

def rdempty (r : RdSide α) : Bool := r.rsDgwp.2 == r.rdptrG

def validRdreq (r : RdSide α) (rdreq : Bool) : Bool := rdreq && !r.rdempty

/-- The address that the RAM is read at; it is stalled without a read. -/
def address (r : RdSide α) (rdreq : Bool) : BitVec 12 :=
  if r.validRdreq rdreq then ramAddress r.rdptrG1p.counter else r.addressB

/-- A rising edge of `rdclk`; `wrptr` and `word` are what comes from the other side and the RAM. -/
def edge (r : RdSide α) (rdreq : Bool) (wrptr : BitVec 13) (word : α) : RdSide α where
  rdptrG1p := r.rdptrG1p.step (r.validRdreq rdreq)
  rdptrG := if r.validRdreq rdreq then r.rdptrG1p.counter else r.rdptrG
  rsDgwp := (wrptr, r.rsDgwp.1)
  addressB := r.address rdreq
  core := word
  q := if r.validRdreq rdreq then r.core else r.q

end RdSide

namespace Dcfifo

/-- Everything is low but for the counters; the RAM and the output registers may hold anything. -/
structure PowerUp (f : Dcfifo α) : Prop where
  wrptrG1p : f.wr.wrptrG1p = .powerUp
  wrptrG : f.wr.wrptrG = 0#13
  delayedWrptrG : f.wr.delayedWrptrG = 0#13
  wsDgrp : f.wr.wsDgrp = (0#13, 0#13)
  wsBwp : f.wr.wsBwp = 0#13
  wsBrp : f.wr.wsBrp = 0#13
  rdptrG1p : f.rd.rdptrG1p = .powerUp
  rdptrG : f.rd.rdptrG = 0#13
  rsDgwp : f.rd.rsDgwp = (0#13, 0#13)
  addressB : f.rd.addressB = 0#12

/-- Power-up with the same word everywhere. -/
def powerUp (a : α) : Dcfifo α where
  wr := ⟨.powerUp, 0#13, 0#13, (0#13, 0#13), 0#13, 0#13, fun _ => a⟩
  rd := ⟨.powerUp, 0#13, (0#13, 0#13), 0#12, a, a⟩

theorem powerUp_powerUp (a : α) : (powerUp a).PowerUp := by constructor <;> rfl

/-- Is a word written, and is it at the address that is read? -/
def clash (f : Dcfifo α) (i : DcfifoIn α) : Bool :=
  i.wrclk && f.wr.validWrreq i.wrreq && f.rd.address i.rdreq == ramAddress f.wr.wrptrG

/-- The difference of the two pointers; no port shows it. -/
def fill (f : Dcfifo α) : Nat := (gray2bin f.wr.wrptrG - gray2bin f.rd.rdptrG).toNat

/-- One edge of the base clock. -/
def step (f : Dcfifo α) (i : DcfifoIn α) : Dcfifo α where
  wr :=
    if i.wrclk then
      let rdptr := if i.rdclk && f.rd.validRdreq i.rdreq then f.rd.rdptrG1p.counter else f.rd.rdptrG
      f.wr.edge i.wrreq i.data (mix i.skew.newRd f.rd.rdptrG rdptr)
    else f.wr
  rd :=
    if i.rdclk then
      let wrptr := if i.wrclk then f.wr.wrptrG else f.wr.delayedWrptrG
      f.rd.edge i.rdreq (mix i.skew.newWr f.wr.delayedWrptrG wrptr)
        (if f.clash i then i.skew.word else f.wr.ram (f.rd.address i.rdreq))
    else f.rd

end Dcfifo

/-! ## 3. The codes -/

/-- The Gray code of a count. -/
def code (n : Nat) : BitVec 13 := gray (BitVec.ofNat 13 n)

section Codes

variable {m n : Nat}

theorem code_zero : code 0 = 0#13 := by decide

theorem code_eq_iff : code n = code m ↔ n % 8192 = m % 8192 := by
  refine ⟨fun e => ?_, fun e => congrArg gray (BitVec.eq_of_toNat_eq ?_)⟩
  · have hmod := congrArg BitVec.toNat (gray_injective e)
    rwa [BitVec.toNat_ofNat, BitVec.toNat_ofNat] at hmod
  · rwa [BitVec.toNat_ofNat, BitVec.toNat_ofNat]

/-- The code of a count and that of 4096 more differ in the upper two bits. -/
theorem wrptrGs_code (n : Nat) : wrptrGs (code n) = code (n + 4096) := by
  have hflip : BitVec.ofNat 13 (2 ^ 12 + n) = BitVec.ofNat 13 n ^^^ 4096#13 := by
    refine BitVec.eq_of_getLsbD_eq fun i hi => ?_
    rw [BitVec.getLsbD_xor, BitVec.getLsbD_ofNat, BitVec.getLsbD_ofNat, decide_eq_true hi,
      Bool.true_and, Bool.true_and, show 4096#13 = BitVec.twoPow 13 12 from rfl,
      BitVec.getLsbD_twoPow]
    rcases Nat.lt_or_eq_of_le (Nat.le_of_lt_succ hi) with hlt | rfl
    · rw [Nat.testBit_two_pow_add_gt hlt, decide_eq_false hlt.ne', Bool.and_false, Bool.xor_false]
    · rw [Nat.testBit_two_pow_add_eq]
      simp
  rw [Nat.add_comm]
  show _ = gray (BitVec.ofNat 13 (2 ^ 12 + n))
  rw [hflip, gray_xor]
  rfl

theorem gray2bin_gray (x : BitVec 13) : gray2bin (gray x) = x := by
  have hdown : ∀ k ≤ 12, xorDown (gray x) k = x.getLsbD (12 - k) := by
    intro k hk
    induction k with
    | zero => rw [xorDown, getLsbD_gray, BitVec.getLsbD_of_ge x 13 (Nat.le_refl 13), Bool.xor_false]
    | succ k ih =>
      have hidx : 11 - k + 1 = 12 - k := by omega
      have hidx' : 12 - (k + 1) = 11 - k := by omega
      rw [xorDown, ih (by omega), getLsbD_gray, hidx, hidx', Bool.xor_assoc, Bool.xor_self,
        Bool.xor_false]
  refine BitVec.eq_of_getLsbD_eq fun i hi => ?_
  rw [gray2bin, getLsbD_bus _ hi, hdown _ (by omega)]
  congr 1
  omega

/-- The address is a Gray code of 12 bits. -/
theorem ramAddress_code (n : Nat) : ramAddress (code n) = gray (BitVec.ofNat 12 n) := by
  refine BitVec.eq_of_getLsbD_eq fun i hi => ?_
  have hbit : ∀ j < 12, (BitVec.ofNat 12 n).getLsbD j = (BitVec.ofNat 13 n).getLsbD j := by
    intro j hj
    rw [BitVec.getLsbD_ofNat, BitVec.getLsbD_ofNat, decide_eq_true hj,
      decide_eq_true (Nat.lt_succ_of_lt hj)]
  rw [ramAddress, BitVec.getLsbD_cons, code, getLsbD_gray, getLsbD_gray, getLsbD_gray]
  split
  · next h =>
    subst h
    rw [hbit 11 (by decide), BitVec.getLsbD_of_ge (BitVec.ofNat 13 n) 13 (by decide),
      BitVec.getLsbD_of_ge (BitVec.ofNat 12 n) 12 (by decide)]
    cases (BitVec.ofNat 13 n).getLsbD 11 <;> cases (BitVec.ofNat 13 n).getLsbD 12 <;> rfl
  · rw [BitVec.getLsbD_setWidth, decide_eq_true (by omega), Bool.true_and, getLsbD_gray,
      hbit i hi, hbit (i + 1) (by omega)]

theorem ramAddress_ne (h : m < n) (hlt : n < m + 4096) :
    ramAddress (code n) ≠ ramAddress (code m) := by
  rw [ramAddress_code, ramAddress_code]
  intro e
  have hmod := congrArg BitVec.toNat (gray_injective e)
  rw [BitVec.toNat_ofNat, BitVec.toNat_ofNat] at hmod
  omega

/-- What a register reads of a count that changes by one. -/
theorem mix_code (sel : BitVec 13) (h : n = m ∨ n = m + 1) :
    mix sel (code m) (code n) = code m ∨ mix sel (code m) (code n) = code n := by
  rcases h with rfl | rfl
  · exact Or.inl (mix_self sel)
  · have hsucc : BitVec.ofNat 13 (m + 1) = BitVec.ofNat 13 m + 1#13 := BitVec.ofNat_add m 1
    rw [code, code, hsucc]
    exact mix_gray_succ sel _

end Codes

/-! ## 4. Its counts and its words -/

namespace Dcfifo

/-- **The FIFO has the counts and the words of `c`.** -/
structure Models (f : Dcfifo α) (c : Crossing α) : Prop where
  order : c.Ordered 4096
  wrptrG1p : f.wr.wrptrG1p.Counts (c.hist.length + 1)
  wrptrG : f.wr.wrptrG = code c.hist.length
  delayedWrptrG : f.wr.delayedWrptrG = code c.d
  wsDgrp : f.wr.wsDgrp = (code c.g1, code c.g2)
  wsBwp : f.wr.wsBwp = BitVec.ofNat 13 c.d
  wsBrp : f.wr.wsBrp = BitVec.ofNat 13 c.g3
  rdptrG1p : f.rd.rdptrG1p.Counts (c.r + 1)
  rdptrG : f.rd.rdptrG = code c.r
  rsDgwp : f.rd.rsDgwp = (code c.s1, code c.s2)
  addressB : f.rd.addressB = ramAddress (code c.r)
  ram : ∀ k < c.hist.length, c.hist.length ≤ k + 4096 →
    c.hist[k]? = some (f.wr.ram (ramAddress (code k)))
  core : c.r < c.s2 → c.hist[c.r]? = some f.rd.core
  q : f.rd.q = c.q

end Dcfifo

/-- The same edge for the counts; `newRd` and `newWr` say what the first registers have read. -/
def DcfifoIn.crossing (i : DcfifoIn α) (newRd newWr : Bool) : CrossingIn α :=
  ⟨i.rdclk, i.rdreq, i.wrclk, i.wrreq, i.data, newRd, newWr⟩

namespace Dcfifo

section Step

variable {f : Dcfifo α} {c : Crossing α} {i : DcfifoIn α} {newRd newWr : Bool}

/-- `wrfull` is up when, for all the writer knows, 4096 words are there. -/
theorem wrfull_eq (h : f.Models c) : f.wr.wrfull = decide (c.hist.length = c.g2 + 4096) := by
  obtain ⟨h3, h2, h1, hr, hs2, hs1, hd, -, hroom⟩ := h.order
  rw [WrSide.wrfull, h.wsDgrp, h.wrptrG, wrptrGs_code, Bool.eq_iff_iff, beq_iff_eq,
    decide_eq_true_eq, code_eq_iff]
  omega

theorem rdempty_eq (h : f.Models c) : f.rd.rdempty = decide (c.s2 = c.r) := by
  obtain ⟨h3, h2, h1, hr, hs2, hs1, hd, -, hroom⟩ := h.order
  rw [RdSide.rdempty, h.rsDgwp, h.rdptrG, Bool.eq_iff_iff, beq_iff_eq, decide_eq_true_eq,
    code_eq_iff]
  omega

/-- `wrusedw` is what the writer shows less what it knows to be read. -/
theorem toNat_wrusedw (h : f.Models c) : f.wr.wrusedw.toNat = (c.d - c.g3) % 4096 := by
  obtain ⟨h3, h2, h1, hr, hs2, hs1, hd, -, hroom⟩ := h.order
  rw [WrSide.wrusedw, h.wsBwp, h.wsBrp, BitVec.toNat_setWidth, BitVec.toNat_sub,
    BitVec.toNat_ofNat, BitVec.toNat_ofNat]
  omega

/-- How many words are in the FIFO: the difference of the pointers. -/
theorem toNat_fill (h : f.Models c) : f.fill = c.hist.length - c.r := by
  obtain ⟨h3, h2, h1, hr, hs2, hs1, hd, -, hroom⟩ := h.order
  rw [fill, h.wrptrG, h.rdptrG, code, code, gray2bin_gray, gray2bin_gray, BitVec.toNat_sub,
    BitVec.toNat_ofNat, BitVec.toNat_ofNat]
  omega

theorem pushes_eq (h : f.Models c) : c.pushes 4096 (i.crossing newRd newWr) =
    (i.wrclk && f.wr.validWrreq i.wrreq) := by
  have hroom := h.order.room
  rw [WrSide.validWrreq, wrfull_eq h, Crossing.pushes, ← decide_not, ← Bool.and_assoc]
  congr 1
  rw [decide_eq_decide]
  exact ⟨fun hlt => by omega, fun hne => by omega⟩

theorem pops_eq (h : f.Models c) : c.pops (i.crossing newRd newWr) =
    (i.rdclk && f.rd.validRdreq i.rdreq) := by
  have hr := h.order.r
  rw [RdSide.validRdreq, rdempty_eq h, Crossing.pops, ← decide_not, ← Bool.and_assoc]
  congr 1
  rw [decide_eq_decide]
  exact ⟨fun hlt => by omega, fun hne => by omega⟩

/-- The pointers after the edge are those of the counts after it. -/
theorem wrptr_step (h : f.Models c) :
    ((f.step i).wr.wrptrG1p.Counts ((c.step 4096 (i.crossing newRd newWr)).hist.length + 1)) ∧
      (f.step i).wr.wrptrG = code (c.step 4096 (i.crossing newRd newWr)).hist.length := by
  have hpush := @pushes_eq α f c i newRd newWr h
  rw [Crossing.length_step, hpush]
  simp only [step]
  cases hclk : i.wrclk with
  | false => exact ⟨h.wrptrG1p, h.wrptrG⟩
  | true =>
    cases hv : f.wr.validWrreq i.wrreq with
    | true =>
      simp only [WrSide.edge, hv, if_true, Bool.and_self]
      exact ⟨GrayCounter.counts_step h.wrptrG1p, h.wrptrG1p.counter⟩
    | false =>
      simp only [WrSide.edge, hv, if_true, Bool.and_false, Bool.false_eq_true, if_false]
      exact ⟨GrayCounter.counts_hold h.wrptrG1p, h.wrptrG⟩

theorem rdptr_step (h : f.Models c) :
    ((f.step i).rd.rdptrG1p.Counts ((c.step 4096 (i.crossing newRd newWr)).r + 1)) ∧
      (f.step i).rd.rdptrG = code (c.step 4096 (i.crossing newRd newWr)).r ∧
      (f.step i).rd.addressB = ramAddress (code (c.step 4096 (i.crossing newRd newWr)).r) := by
  have hpop := @pops_eq α f c i newRd newWr h
  simp only [step, Crossing.step, hpop]
  cases hclk : i.rdclk with
  | false => exact ⟨h.rdptrG1p, h.rdptrG, h.addressB⟩
  | true =>
    cases hv : f.rd.validRdreq i.rdreq with
    | true =>
      simp only [RdSide.edge, RdSide.address, hv, if_true, Bool.and_self]
      exact ⟨GrayCounter.counts_step h.rdptrG1p, h.rdptrG1p.counter,
        congrArg ramAddress h.rdptrG1p.counter⟩
    | false =>
      simp only [RdSide.edge, RdSide.address, hv, if_true, Bool.and_false, Bool.false_eq_true,
        if_false]
      exact ⟨GrayCounter.counts_hold h.rdptrG1p, h.rdptrG, h.addressB⟩

/-- What the first registers read of the other side's count is the count before or after. -/
theorem crossed (h : f.Models c) : ∃ newRd newWr : Bool,
    mix i.skew.newRd f.rd.rdptrG (if i.rdclk && f.rd.validRdreq i.rdreq then
      f.rd.rdptrG1p.counter else f.rd.rdptrG) =
        code (if c.pops (i.crossing newRd newWr) && newRd then c.r + 1 else c.r) ∧
    mix i.skew.newWr f.wr.delayedWrptrG (if i.wrclk then f.wr.wrptrG else f.wr.delayedWrptrG) =
      code (if i.wrclk && newWr then c.hist.length else c.d) := by
  have hrd : ∃ newRd : Bool, mix i.skew.newRd f.rd.rdptrG
      (if i.rdclk && f.rd.validRdreq i.rdreq then f.rd.rdptrG1p.counter else f.rd.rdptrG) =
        code (if (i.rdclk && f.rd.validRdreq i.rdreq) && newRd then c.r + 1 else c.r) := by
    rw [h.rdptrG, h.rdptrG1p.counter]
    cases i.rdclk && f.rd.validRdreq i.rdreq with
    | false => exact ⟨false, mix_self _⟩
    | true =>
      rcases mix_code (m := c.r) i.skew.newRd (Or.inr rfl) with hm | hm
      · exact ⟨false, hm⟩
      · exact ⟨true, hm⟩
  have hwr : ∃ newWr : Bool, mix i.skew.newWr f.wr.delayedWrptrG
      (if i.wrclk then f.wr.wrptrG else f.wr.delayedWrptrG) =
        code (if i.wrclk && newWr then c.hist.length else c.d) := by
    have hd := h.order.d
    have hlate := h.order.late
    rw [h.wrptrG, h.delayedWrptrG]
    cases i.wrclk with
    | false => exact ⟨false, mix_self _⟩
    | true =>
      rcases mix_code (m := c.d) (n := c.hist.length) i.skew.newWr (by omega) with hm | hm
      · exact ⟨false, hm⟩
      · exact ⟨true, hm⟩
  obtain ⟨newRd, hrd⟩ := hrd
  obtain ⟨newWr, hwr⟩ := hwr
  exact ⟨newRd, newWr, by rw [pops_eq h]; exact hrd, hwr⟩

/-- **The words stay where they are** until they have been read. -/
theorem ram_step (h : f.Models c) : ∀ k < (c.step 4096 (i.crossing newRd newWr)).hist.length,
    (c.step 4096 (i.crossing newRd newWr)).hist.length ≤ k + 4096 →
      (c.step 4096 (i.crossing newRd newWr)).hist[k]? =
        some ((f.step i).wr.ram (ramAddress (code k))) := by
  have hpush := @pushes_eq α f c i newRd newWr h
  cases hp : i.wrclk && f.wr.validWrreq i.wrreq with
  | false =>
    have hhist : (c.step 4096 (i.crossing newRd newWr)).hist = c.hist := by
      simp only [Crossing.step, hpush, hp, Bool.false_eq_true, if_false]
    have hram : (f.step i).wr.ram = f.wr.ram := by
      simp only [step]
      cases hclk : i.wrclk with
      | false => rfl
      | true =>
        rw [hclk, Bool.true_and] at hp
        simp only [WrSide.edge, hp, if_true, Bool.false_eq_true, if_false]
    rw [hhist, hram]
    exact h.ram
  | true =>
    obtain ⟨hclk, hv⟩ := Bool.and_eq_true_iff.mp hp
    have hhist : (c.step 4096 (i.crossing newRd newWr)).hist = c.hist ++ [i.data] := by
      simp only [Crossing.step, hpush, hp, if_true]
      rfl
    have hram : (f.step i).wr.ram =
        Function.update f.wr.ram (ramAddress (code c.hist.length)) i.data := by
      simp only [step, WrSide.edge, hclk, hv, if_true, h.wrptrG]
    rw [hhist, hram, List.length_append, List.length_singleton]
    intro k hk hroom
    rcases Nat.lt_or_eq_of_le (Nat.le_of_lt_succ hk) with hlt | rfl
    · rw [List.getElem?_append_left hlt, Function.update_of_ne (ramAddress_ne hlt (by omega)).symm]
      exact h.ram k hlt (by omega)
    · rw [Function.update_self, List.getElem?_concat_length]

/-- **The RAM is read where the next word is**, once the reader knows of it. -/
theorem core_step (h : f.Models c) (hlt : (c.step 4096 (i.crossing newRd newWr)).r <
    (c.step 4096 (i.crossing newRd newWr)).s2) :
    (c.step 4096 (i.crossing newRd newWr)).hist[(c.step 4096 (i.crossing newRd newWr)).r]? =
      some (f.step i).rd.core := by
  obtain ⟨h3, h2, h1, hr, hs2, hs1, hd, hlate, hroom⟩ := h.order
  have hpop := @pops_eq α f c i newRd newWr h
  have hpush := @pushes_eq α f c i newRd newWr h
  have haddr := (@rdptr_step α f c i newRd newWr h).2.2
  have hgrow : ∀ {k : Nat} {a : α}, c.hist[k]? = some a →
      (c.step 4096 (i.crossing newRd newWr)).hist[k]? = some a := by
    intro k a hk
    obtain ⟨hlen, -⟩ := List.getElem?_eq_some_iff.mp hk
    simp only [Crossing.step]
    split
    · rw [List.getElem?_append_left hlen, hk]
    · exact hk
  cases hclk : i.rdclk with
  | false =>
    have hno : c.pops (i.crossing newRd newWr) = false := by rw [hpop, hclk, Bool.false_and]
    have hr' : (c.step 4096 (i.crossing newRd newWr)).r = c.r := by
      simp only [Crossing.step, hno, Bool.false_eq_true, if_false]
    have hs2' : (c.step 4096 (i.crossing newRd newWr)).s2 = c.s2 := by
      simp only [Crossing.step, DcfifoIn.crossing, hclk, Bool.false_eq_true, if_false]
    have hcore : (f.step i).rd.core = f.rd.core := by
      simp only [step, hclk, Bool.false_eq_true, if_false]
    rw [hr', hs2'] at hlt
    rw [hr', hcore]
    exact hgrow (h.core hlt)
  | true =>
    -- the word at the new address was there before the edge
    set r' := (c.step 4096 (i.crossing newRd newWr)).r with hr'
    have hs2' : (c.step 4096 (i.crossing newRd newWr)).s2 = c.s1 := by
      simp only [Crossing.step, DcfifoIn.crossing, hclk, if_true]
    rw [hs2'] at hlt
    have hle : c.r ≤ r' := Crossing.counts_step.1
    have haddr' : f.rd.address i.rdreq = ramAddress (code r') := by
      rw [← haddr]
      simp only [step, RdSide.edge, hclk, if_true]
    have hclash : f.clash i = false := by
      rw [clash, haddr', h.wrptrG]
      cases hp : i.wrclk && f.wr.validWrreq i.wrreq with
      | false => rfl
      | true =>
        have hlen := (Crossing.pushes_iff.mp (hpush.trans hp)).2.2
        rw [Bool.true_and, beq_eq_false_iff_ne]
        exact (ramAddress_ne (by omega) (by omega)).symm
    have hcore : (f.step i).rd.core = f.wr.ram (ramAddress (code r')) := by
      simp only [step, RdSide.edge, hclk, if_true, hclash, Bool.false_eq_true, if_false, haddr']
    rw [hcore]
    exact hgrow (h.ram r' (by omega) (by omega))

/-- The registers that the writer loads at every edge of its clock. -/
theorem wr_step (h : f.Models c) (hrd : mix i.skew.newRd f.rd.rdptrG
      (if i.rdclk && f.rd.validRdreq i.rdreq then f.rd.rdptrG1p.counter else f.rd.rdptrG) =
        code (if c.pops (i.crossing newRd newWr) && newRd then c.r + 1 else c.r)) :
    (f.step i).wr.delayedWrptrG = code (c.step 4096 (i.crossing newRd newWr)).d ∧
      (f.step i).wr.wsDgrp = (code (c.step 4096 (i.crossing newRd newWr)).g1,
        code (c.step 4096 (i.crossing newRd newWr)).g2) ∧
      (f.step i).wr.wsBwp = BitVec.ofNat 13 (c.step 4096 (i.crossing newRd newWr)).d ∧
      (f.step i).wr.wsBrp = BitVec.ofNat 13 (c.step 4096 (i.crossing newRd newWr)).g3 := by
  cases hclk : i.wrclk with
  | false =>
    have hstep : (f.step i).wr = f.wr := by
      simp only [step, hclk, Bool.false_eq_true, if_false]
    have hclk' : (i.crossing newRd newWr).wrclk = false := hclk
    simp only [hstep, Crossing.step, hclk', Bool.false_eq_true, if_false]
    exact ⟨h.delayedWrptrG, h.wsDgrp, h.wsBwp, h.wsBrp⟩
  | true =>
    have hstep : (f.step i).wr = f.wr.edge i.wrreq i.data (mix i.skew.newRd f.rd.rdptrG
        (if i.rdclk && f.rd.validRdreq i.rdreq then f.rd.rdptrG1p.counter else f.rd.rdptrG)) := by
      simp only [step, hclk, if_true]
    have hclk' : (i.crossing newRd newWr).wrclk = true := hclk
    rw [hrd] at hstep
    simp only [hstep, WrSide.edge, Crossing.step, hclk', if_true, h.wrptrG, h.wsDgrp, code,
      gray2bin_gray, and_self]
    exact ⟨trivial, rfl, trivial⟩

/-- And those of the reader. -/
theorem rd_step (h : f.Models c) (hwr : mix i.skew.newWr f.wr.delayedWrptrG
      (if i.wrclk then f.wr.wrptrG else f.wr.delayedWrptrG) =
        code (if i.wrclk && newWr then c.hist.length else c.d)) :
    (f.step i).rd.rsDgwp = (code (c.step 4096 (i.crossing newRd newWr)).s1,
        code (c.step 4096 (i.crossing newRd newWr)).s2) ∧
      (f.step i).rd.q = (c.step 4096 (i.crossing newRd newWr)).q := by
  have hpop := @pops_eq α f c i newRd newWr h
  cases hclk : i.rdclk with
  | false =>
    have hstep : (f.step i).rd = f.rd := by
      simp only [step, hclk, Bool.false_eq_true, if_false]
    have hclk' : (i.crossing newRd newWr).rdclk = false := hclk
    rw [hclk, Bool.false_and] at hpop
    simp only [hstep, Crossing.step, hclk', hpop, Bool.false_eq_true, if_false]
    exact ⟨h.rsDgwp, h.q⟩
  | true =>
    have hstep : (f.step i).rd = f.rd.edge i.rdreq (mix i.skew.newWr f.wr.delayedWrptrG
        (if i.wrclk then f.wr.wrptrG else f.wr.delayedWrptrG))
        (if f.clash i then i.skew.word else f.wr.ram (f.rd.address i.rdreq)) := by
      simp only [step, hclk, if_true]
    have hclk' : (i.crossing newRd newWr).rdclk = true := hclk
    rw [hclk, Bool.true_and] at hpop
    rw [hwr] at hstep
    simp only [hstep, RdSide.edge, Crossing.step, hclk', if_true, h.rsDgwp, hpop]
    refine ⟨rfl, ?_⟩
    split
    · next hv =>
      -- the word that the RAM has put out is the next one
      have hlt := (Crossing.pops_iff.mp (hpop.trans hv)).2.2
      rw [h.core hlt, Option.getD_some]
    · exact h.q

/-- **One edge.** -/
theorem models_step (h : f.Models c) (i : DcfifoIn α) :
    ∃ newRd newWr, (f.step i).Models (c.step 4096 (i.crossing newRd newWr)) := by
  obtain ⟨newRd, newWr, hrd, hwr⟩ := @crossed α f c i h
  obtain ⟨hdelayed, hdgrp, hbwp, hbrp⟩ := wr_step h hrd
  obtain ⟨hdgwp, hq⟩ := @rd_step α f c i newRd newWr h hwr
  exact ⟨newRd, newWr, Crossing.ordered_step h.order, (wrptr_step h).1, (wrptr_step h).2, hdelayed,
    hdgrp, hbwp, hbrp, (rdptr_step h).1, (rdptr_step h).2.1, hdgwp, (rdptr_step h).2.2, ram_step h,
    core_step h, hq⟩

end Step

/-- What an empty FIFO has counted. -/
def none (a : α) : Crossing α := ⟨[], 0, 0, 0, 0, 0, 0, 0, a⟩

/-- At power-up it is empty. -/
theorem models_powerUp {f : Dcfifo α} (h : f.PowerUp) : f.Models (none f.rd.q) where
  order := by constructor <;> exact Nat.zero_le _
  wrptrG1p := h.wrptrG1p ▸ GrayCounter.counts_powerUp
  wrptrG := h.wrptrG.trans code_zero.symm
  delayedWrptrG := h.delayedWrptrG.trans code_zero.symm
  wsDgrp := by rw [h.wsDgrp, none, code_zero]
  wsBwp := h.wsBwp
  wsBrp := h.wsBrp
  rdptrG1p := h.rdptrG1p ▸ GrayCounter.counts_powerUp
  rdptrG := h.rdptrG.trans code_zero.symm
  rsDgwp := by rw [h.rsDgwp, none, code_zero]
  addressB := by
    rw [h.addressB, none, code_zero]
    rfl
  ram k hk := absurd hk (Nat.not_lt_zero k)
  core hlt := absurd hlt (Nat.not_lt_zero 0)
  q := rfl

end Dcfifo

/-! ## 5. Every run -/

/-- What happens at an edge: a word is taken, or one comes onto `q`. -/
inductive FifoEvent (α : Type) where
  | written (a : α)
  | read (a : α)
  deriving DecidableEq

def dcfifo : Machine (Dcfifo α) (DcfifoIn α) (FifoEvent α) where
  step := Dcfifo.step
  out f i :=
    (if i.wrclk && f.wr.validWrreq i.wrreq then [.written i.data] else []) ++
      (if i.rdclk && f.rd.validRdreq i.rdreq then [.read (f.step i).rd.q] else [])

/-- The words that were taken, and those that came out. -/
def fifoWritten (l : List (FifoEvent α)) : List α :=
  l.filterMap fun e => match e with
    | .written a => some a
    | .read _ => none

def fifoRead (l : List (FifoEvent α)) : List α :=
  l.filterMap fun e => match e with
    | .written _ => none
    | .read a => some a

section Order

variable {f : Dcfifo α} {l : List (FifoEvent α)}

/-- The words taken are those of the counts, and those that came out the first of them. -/
def FifoInv (f : Dcfifo α) (l : List (FifoEvent α)) : Prop :=
  ∃ c, f.Models c ∧ fifoWritten l = c.hist ∧ fifoRead l = c.hist.take c.r

theorem fifoWritten_out (i : DcfifoIn α) : fifoWritten (l ++ dcfifo.out f i) =
    fifoWritten l ++ if i.wrclk && f.wr.validWrreq i.wrreq then [i.data] else [] := by
  rw [fifoWritten, List.filterMap_append, dcfifo, List.filterMap_append]
  split <;> split <;> rfl

theorem fifoRead_out (i : DcfifoIn α) : fifoRead (l ++ dcfifo.out f i) =
    fifoRead l ++ if i.rdclk && f.rd.validRdreq i.rdreq then [(f.step i).rd.q] else [] := by
  rw [fifoRead, List.filterMap_append, dcfifo, List.filterMap_append]
  split <;> split <;> rfl

theorem fifoInv_step (i : DcfifoIn α) (h : FifoInv f l) :
    FifoInv (f.step i) (l ++ dcfifo.out f i) := by
  obtain ⟨c, hm, hwritten, hread⟩ := h
  obtain ⟨newRd, newWr, hm'⟩ := Dcfifo.models_step hm i
  have hpush := @Dcfifo.pushes_eq α f c i newRd newWr hm
  have hpop := @Dcfifo.pops_eq α f c i newRd newWr hm
  obtain ⟨-, -, -, -, hs2, hs1, hd, -, -⟩ := hm.order
  have hhist : (c.step 4096 (i.crossing newRd newWr)).hist =
      c.hist ++ if i.wrclk && f.wr.validWrreq i.wrreq then [i.data] else [] := by
    simp only [Crossing.step, hpush]
    split
    · rfl
    · exact (List.append_nil _).symm
  refine ⟨_, hm', ?_, ?_⟩
  · rw [fifoWritten_out, hwritten, hhist]
  · rw [fifoRead_out, hread, hm'.q, hhist]
    have hq : (c.step 4096 (i.crossing newRd newWr)).q =
        if i.rdclk && f.rd.validRdreq i.rdreq then c.hist[c.r]?.getD c.q else c.q := by
      simp only [Crossing.step, hpop]
    have hr : (c.step 4096 (i.crossing newRd newWr)).r =
        if i.rdclk && f.rd.validRdreq i.rdreq then c.r + 1 else c.r := by
      simp only [Crossing.step, hpop]
    rw [hq, hr]
    cases hp : i.rdclk && f.rd.validRdreq i.rdreq with
    | false =>
      have hle := hm.order.r
      simp only [Bool.false_eq_true, if_false, List.append_nil]
      rw [List.take_append_of_le_length (by omega)]
    | true =>
      -- the reader knows of the word, so it is there
      have hlt : c.r < c.hist.length := by
        have hlt := (Crossing.pops_iff.mp (hpop.trans hp)).2.2
        omega
      simp only [if_true]
      rw [List.take_append_of_le_length hlt, List.getElem?_eq_getElem hlt, Option.getD_some,
        List.take_append_getElem]

end Order

/-- **The FIFO keeps the order.** From power-up, however the edges of the two clocks follow one
    another, whatever is asked for at them and whatever a register reads of a count that changes: the
    words that come out are the first words taken, in order, and at most 4096 are still inside. -/
theorem fifo_order (f : Dcfifo α) (h : f.PowerUp) (is : List (DcfifoIn α)) :
    fifoRead (dcfifo.log f is) <+: fifoWritten (dcfifo.log f is) ∧
      (fifoWritten (dcfifo.log f is)).length ≤ (fifoRead (dcfifo.log f is)).length + 4096 := by
  obtain ⟨c, hm, hwritten, hread⟩ := dcfifo.inv_log (I := FifoInv) (l := [])
    (fun _ _ i => fifoInv_step i) ⟨_, Dcfifo.models_powerUp h, rfl, rfl⟩ is
  rw [List.nil_append] at hwritten hread
  obtain ⟨-, hg2, hg1, hr, hs2, hs1, hd, -, hroom⟩ := hm.order
  rw [hwritten, hread]
  refine ⟨List.take_prefix _ _, ?_⟩
  rw [List.length_take]
  omega

/-- Two words, written while the reader asks all the time; its first register reads half of each
    change. -/
def twoWords : List (DcfifoIn Nat) :=
  [5, 7].map (⟨true, true, true, true, ·, ⟨0x0aaa#13, 0x1555#13, 0⟩⟩) ++
    List.replicate 6 ⟨true, true, true, false, 0, ⟨0x1555#13, 0x0aaa#13, 0⟩⟩

theorem fifo_order_twoWords :
    fifoRead (dcfifo.log (Dcfifo.powerUp 0) twoWords) <+:
        fifoWritten (dcfifo.log (Dcfifo.powerUp 0) twoWords) ∧
      (fifoWritten (dcfifo.log (Dcfifo.powerUp 0) twoWords)).length ≤
        (fifoRead (dcfifo.log (Dcfifo.powerUp 0) twoWords)).length + 4096 :=
  fifo_order (Dcfifo.powerUp 0) (Dcfifo.powerUp_powerUp 0) twoWords

example : fifoRead (dcfifo.log (Dcfifo.powerUp 0) twoWords) = [5, 7] := by decide

end WifiOsc
