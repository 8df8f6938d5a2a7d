/-
  File:      WifiOsc/Fpga/Packet.lean
  Subject:   THE PACKETS `REG2UART` STORES, AND THE HOST'S DECODER. A packet is the address byte
             and six register bytes with bit 0 cleared, then a flag byte with the seven missing
             bits and bit 0 set.

  The decoder is the one recorded in FPGA/SPI_TEST_2/output_files/ipython.html: it works on
  Python integers, here on `Nat`.

  * `encode_laid`: the bytes of a packet, bit for bit;
  * `packet_delimited`: bit 0 of a byte marks the end of a packet (an instance of `Delimited`);
  * `decode_encode`: the decoder returns what the packet carries;
  * `packets_selfDelimiting`: resynchronisation from any byte of a stream, and decoding of it.
-/
import WifiOsc.Basis.Delimited
import WifiOsc.Fpga.Uart
import Mathlib.Tactic.FinCases
import Mathlib.Tactic.IntervalCases

namespace WifiOsc

open Basis

/-- What a packet carries: `address` and `regs` at the edge that stores it. -/
structure Packet where
  address : Byte
  regs : BitVec 48
  deriving DecidableEq

namespace Packet

/-- The eight bytes of a packet: the array `data` of `REG2UART`, from index 0 up. -/
def encode (k : Packet) : List Byte := List.ofFn (REG2UART.saveData k.address k.regs)

/-- The address and the six bytes of `regs`, most significant first. -/
def field (k : Packet) : Fin 7 → Byte
  | 0 => k.address
  | 1 => k.regs.extractLsb 47 40
  | 2 => k.regs.extractLsb 39 32
  | 3 => k.regs.extractLsb 31 24
  | 4 => k.regs.extractLsb 23 16
  | 5 => k.regs.extractLsb 15 8
  | 6 => k.regs.extractLsb 7 0

def fields (k : Packet) : List Nat := List.ofFn fun i => (k.field i).toNat

/-- Seven bytes with bit 0 cleared, and the flag byte: bit 0 set, and above it the bits that were
    cleared, the one of the address at the top. -/
structure Laid (k : Packet) (bs : List Byte) (flags : Byte) : Prop where
  bytes : bs = (List.ofFn fun i => k.field i &&& 0xFE#8) ++ [flags]
  flag : flags.getLsbD 0 = true
  missing : ∀ i : Fin 7, flags.getLsbD (7 - i) = (k.field i).getLsbD 0

@[simp] theorem length_encode (k : Packet) : k.encode.length = 8 := List.length_ofFn

end Packet

/-- The byte stream of a list of packets. -/
def packetStream (ks : List Packet) : List Byte := ks.flatMap Packet.encode

/-- Bit 0 of a byte. -/
def isFlag (b : Byte) : Bool := b.getLsbD 0

/-! ## 1. The flag byte closes a packet -/

theorem isFlag_saveData (a : Byte) (r : BitVec 48) (i : Fin 8) :
    isFlag (REG2UART.saveData a r i) = decide (i = 7) := by
  unfold isFlag
  fin_cases i <;>
    simp only [REG2UART.saveData, BitVec.getLsbD_setWidth, BitVec.getLsbD_append] <;> simp

theorem saveData_field (k : Packet) (i : Fin 7) :
    REG2UART.saveData k.address k.regs i.castSucc = k.field i &&& 0xFE#8 := by
  apply BitVec.eq_of_getLsbD_eq
  intro j hj
  fin_cases i <;>
    simp only [Fin.reduceFinMk, Fin.reduceCastSucc, Fin.zero_eta, Fin.mk_one, REG2UART.saveData,
      Packet.field, BitVec.getLsbD_and, BitVec.getLsbD_setWidth, BitVec.getLsbD_append,
      BitVec.getLsbD_extractLsb] <;>
    interval_cases j <;> simp

theorem saveData_missing (k : Packet) (i : Fin 7) :
    (REG2UART.saveData k.address k.regs 7).getLsbD (7 - i) = (k.field i).getLsbD 0 := by
  fin_cases i <;>
    simp only [REG2UART.saveData, Packet.field, BitVec.getLsbD_setWidth, BitVec.getLsbD_append] <;>
    simp

/-- **What a packet looks like.** -/
theorem encode_laid (k : Packet) : k.Laid k.encode (REG2UART.saveData k.address k.regs 7) where
  bytes := by
    rw [Packet.encode, List.ofFn_succ_last]
    exact congrArg (· ++ _) (congrArg List.ofFn (funext (saveData_field k)))
  flag := (isFlag_saveData _ _ 7).trans (decide_eq_true rfl)
  missing := saveData_missing k

theorem packet_delimited : Delimited Packet.encode isFlag where
  closed k := by
    refine ⟨List.ofFn fun i : Fin 7 => REG2UART.saveData k.address k.regs i.castSucc,
      REG2UART.saveData k.address k.regs 7, ?_, fun b hb => ?_, isFlag_saveData _ _ _⟩
    · rw [Packet.encode, List.ofFn_succ_last]
      rfl
    · obtain ⟨i, rfl⟩ := List.mem_ofFn.mp hb
      rw [isFlag_saveData, decide_eq_false_iff_not]
      exact (Fin.castSucc_lt_last i).ne

/-! ## 2. The host's decoder -/

/-- `a[i] | ((a[7] & (1 << (7-i))) >> (7-i))` -/
def decodeField (a : List Nat) (i : Nat) : Nat :=
  a.getD i 0 ||| ((a.getD 7 0 &&& (1 <<< (7 - i))) >>> (7 - i))

/-- `decode(a)`: the fields 0 to 6. -/
def decode (a : List Nat) : List Nat := (List.range 7).map (decodeField a)

/-- The decoder's field as an operation on bytes. -/
theorem decodeField_toNat (x f : Byte) {k : Nat} (hk : k < 8) :
    x.toNat ||| ((f.toNat &&& (1 <<< k)) >>> k) =
      (x ||| ((f &&& BitVec.twoPow 8 k) >>> k)).toNat := by
  have hlt : 1 <<< k < 2 ^ 8 := by
    rw [Nat.one_shiftLeft]
    exact Nat.pow_lt_pow_right (by omega) hk
  have htwo : (BitVec.twoPow 8 k).toNat = 1 <<< k := by
    rw [BitVec.toNat_twoPow, ← Nat.one_shiftLeft, Nat.mod_eq_of_lt hlt]
  rw [BitVec.toNat_or, BitVec.toNat_ushiftRight, BitVec.toNat_and, htwo]

/-- The byte that `decodeField i` assembles from the two bytes it reads. -/
def rejoin (k : Packet) (i : Nat) (x : Byte) : Byte :=
  x ||| ((REG2UART.saveData k.address k.regs (Fin.last 7) &&& BitVec.twoPow 8 (7 - i)) >>> (7 - i))

theorem decodeField_encode (k : Packet) (i : Fin 8) :
    decodeField (k.encode.map BitVec.toNat) i =
      (rejoin k i (REG2UART.saveData k.address k.regs i)).toNat := by
  have hget : ∀ j : Fin 8, (k.encode.map BitVec.toNat).getD j 0 =
      (REG2UART.saveData k.address k.regs j).toNat := by
    intro j
    rw [List.getD_eq_getElem?_getD, List.getElem?_map, Packet.encode,
      List.getElem?_eq_getElem (by rw [List.length_ofFn]; exact j.isLt), List.getElem_ofFn]
    rfl
  have h7 := hget 7
  rw [decodeField, hget i, rejoin, ← decodeField_toNat _ _ (by omega)]
  exact congrArg (fun n => _ ||| ((n &&& _) >>> _)) h7

/-- Each rejoined byte is the slice of the packet that was split. -/
theorem rejoin_field (k : Packet) (i : Fin 7) :
    rejoin k i (REG2UART.saveData k.address k.regs i.castSucc) = k.field i := by
  apply BitVec.eq_of_getLsbD_eq
  intro j hj
  -- seven slices of eight bits: the slice a bit comes from is found by evaluating the index
  fin_cases i <;>
    simp only [Fin.reduceFinMk, Fin.reduceCastSucc, Fin.reduceLast, Fin.zero_eta, Fin.mk_one,
      rejoin, REG2UART.saveData, Packet.field, BitVec.getLsbD_or, BitVec.getLsbD_and,
      BitVec.getLsbD_ushiftRight, BitVec.getLsbD_setWidth, BitVec.getLsbD_append,
      BitVec.getLsbD_extractLsb, BitVec.getLsbD_twoPow] <;>
    interval_cases j <;> simp

/-- **The decoder undoes the encoder.** -/
theorem decode_encode (k : Packet) : decode (k.encode.map BitVec.toNat) = k.fields := by
  refine List.ext_getElem (by simp [decode, Packet.fields]) ?_
  intro i hi _
  have hi7 : i < 7 := by simpa [decode] using hi
  have hfield := decodeField_encode k (Fin.castSucc ⟨i, hi7⟩)
  simp only [decode, Packet.fields, List.getElem_map, List.getElem_range, List.getElem_ofFn]
  rw [← rejoin_field k ⟨i, hi7⟩]
  exact hfield

/-! ## 3. The stream -/

/-- The host's reading of a byte stream: cut into groups of eight, each group decoded. -/
def decodeStream (bs : List Byte) : List (List Nat) :=
  (groups 8 bs).map fun g => decode (g.map BitVec.toNat)

theorem decodeStream_packetStream (ks : List Packet) :
    decodeStream (packetStream ks) = ks.map Packet.fields := by
  unfold decodeStream packetStream
  rw [groups_flatMap (by omega) Packet.length_encode, List.map_map]
  exact List.map_congr_left fun k _ => decode_encode k

/-- **The packet stream is self-delimiting and decodable**: cut anywhere, discarding through the
    next flag byte leaves exactly the packets after the one that was cut; and cutting a stream
    every eight bytes and decoding returns the fields of its packets. -/
theorem packets_selfDelimiting (ks : List Packet) (p : Nat) (hp : p < (packetStream ks).length) :
    resync isFlag ((packetStream ks).drop p) = packetStream (ks.drop (p / 8 + 1)) ∧
      decodeStream (resync isFlag ((packetStream ks).drop p)) =
        (ks.drop (p / 8 + 1)).map Packet.fields ∧
      decodeStream (packetStream ks) = ks.map Packet.fields := by
  have hcut : resync isFlag ((packetStream ks).drop p) = packetStream (ks.drop (p / 8 + 1)) := by
    unfold packetStream
    rw [resync_drop packet_delimited ks hp, remaining_eq_drop (by omega) Packet.length_encode]
  exact ⟨hcut, by rw [hcut, decodeStream_packetStream], decodeStream_packetStream ks⟩

/-- A stream of two packets, cut inside the first. -/
theorem packets_selfDelimiting_two :
    resync isFlag ((packetStream [⟨0xc3#8, 0x0203fe#48⟩, ⟨0xff#8, 1#48⟩]).drop 3) =
      packetStream [⟨0xff#8, 1#48⟩] :=
  (packets_selfDelimiting [⟨0xc3#8, 0x0203fe#48⟩, ⟨0xff#8, 1#48⟩] 3 (by decide)).1

end WifiOsc
