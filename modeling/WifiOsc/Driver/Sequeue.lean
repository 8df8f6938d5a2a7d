/-
  File:      WifiOsc/Driver/Sequeue.lean
  Subject:   THE SHARED QUEUE. `frame_sequeue` with the macros of Sequeue.h that the driver uses, and
             what a message from user space does to it (`netlink_recv_msg`, gpio_interrupt.c).

  The four counters are `u16`: they are natural numbers here, and what is stored into one goes
  through `toU16`. The arithmetic between them is `int`; C's `%` is `Int.tmod`, whose sign follows
  the dividend. `code` is compared from above only, so a negative one goes into the branch that
  moves `front`.

  * `FrameSequeue.Valid`: the four relations between the counters;
  * `netlinkRecv`: the cases of `netlink_recv_msg` on the queue;
  * `Honest`: the codes that the queue can take; `kept_iff`: exactly those keep it valid.
-/
import Mathlib.Data.Int.Basic
import Mathlib.Tactic.Common
import WifiOsc.Driver.ReceiveData

namespace WifiOsc

/-! ## 1. The queue -/

/-- `Stream_Len`. -/
def streamLen : Nat := 64

/-- A value stored into a `u16`. -/
def toU16 (x : Int) : Nat := (x % 65536).toNat

/-- `frame_sequeue`. -/
structure FrameSequeue where
  dataspace : Nat → GpioDataFrame
  front : Nat
  rear : Nat
  len : Nat
  lenMax : Nat

namespace FrameSequeue

/-- `Sequeue_Set_Null(sq, Stream_Len)`. -/
def setNull (dataspace : Nat → GpioDataFrame) : FrameSequeue := ⟨dataspace, 0, 0, 0, streamLen⟩

/-- `Sequeue_Full`, compared as `int`. -/
def full (q : FrameSequeue) : Bool := (q.lenMax : Int) - 1 ≤ q.len

/-- What `tasklet_handler` does once a frame is in slot `pos`. -/
def store (q : FrameSequeue) (pos : Nat) : FrameSequeue :=
  { q with rear := toU16 (((pos : Int) + 1).tmod q.lenMax), len := toU16 (q.len + 1) }

/-- `front_dif`. In the source it is an `int`; from a valid queue no code takes the sum out of its
    range. From a queue that is not valid it could wrap there, and does not here. -/
def frontDif (q : FrameSequeue) (code : Int) : Int := (code + q.lenMax - q.front).tmod q.lenMax

/-- What `netlink_recv_msg` does to the queue in the branch that cuts it. -/
def cut (q : FrameSequeue) (code dif : Int) : FrameSequeue :=
  { q with front := toU16 code, len := toU16 (q.len - dif) }

/-- The relations between the counters. -/
structure Valid (q : FrameSequeue) : Prop where
  front : q.front < 64
  rear : q.rear < 64
  len : q.len ≤ 63
  rear_eq : q.rear = (q.front + q.len) % 64
  lenMax : q.lenMax = 64

variable {q : FrameSequeue}

theorem valid_setNull (dataspace : Nat → GpioDataFrame) : (setNull dataspace).Valid :=
  ⟨Nat.succ_pos 63, Nat.succ_pos 63, Nat.zero_le 63, rfl, rfl⟩

theorem Valid.full_iff (h : q.Valid) : q.full = true ↔ q.len = 63 := by
  have := h.len
  rw [full, h.lenMax, decide_eq_true_iff]
  omega

/-- Storing at `rear` when the queue is not full. -/
theorem Valid.store (h : q.Valid) (hfull : q.full = false) :
    (q.store q.rear).Valid ∧ (q.store q.rear).rear = (q.rear + 1) % 64 ∧
      (q.store q.rear).len = q.len + 1 := by
  have hlen : q.len < 63 := by
    have h63 : q.len ≠ 63 := by
      intro e
      rw [h.full_iff.mpr e] at hfull
      cases hfull
    have := h.len
    omega
  have hr : (q.store q.rear).rear = (q.rear + 1) % 64 := by
    show toU16 (((q.rear : Int) + 1).tmod q.lenMax) = _
    rw [h.lenMax, Int.tmod_eq_emod_of_nonneg (by omega)]
    unfold toU16
    omega
  have hl : (q.store q.rear).len = q.len + 1 := by
    show toU16 ((q.len : Int) + 1) = _
    unfold toU16
    omega
  refine ⟨⟨h.front, by rw [hr]; omega, by rw [hl]; omega, ?_, h.lenMax⟩, hr, hl⟩
  have := h.rear_eq
  rw [hr, hl]
  show _ = (q.front + (q.len + 1)) % 64
  omega

end FrameSequeue

/-! ## 2. A message from user space -/

/-- The code of a start and of an end message. -/
def codeStart : Int := 0xffff
def codeEnd : Int := 0xfffe

/-- `netlink_recv_msg` on the queue, by the code of the message. For queues that are not valid see
    `frontDif`. -/
def netlinkRecv (q : FrameSequeue) (code : Int) : FrameSequeue :=
  if code = codeStart then q
  else if code = codeEnd then q
  else if code < streamLen then q.cut code (q.frontDif code)
  else q

/-- `q'` is a valid queue whose front stands `k ≤ len` slots on. -/
def Kept (q q' : FrameSequeue) : Prop :=
  q'.Valid ∧ ∃ k ≤ q.len, q'.front = (q.front + k) % 64

/-- The codes a queue can take: those it ignores, a position within the stored frames, and a
    negative code that truncates to `front` itself. -/
def Honest (q : FrameSequeue) (code : Int) : Prop :=
  64 ≤ code ∨ (0 ≤ code ∧ code < 64 ∧ (code + 64 - q.front) % 64 ≤ q.len) ∨
    (code < 0 ∧ toU16 code = q.front)

section Cut

variable {q : FrameSequeue} {code : Int}

/-- How far a position of the ring is ahead of `front`. -/
theorem frontDif_eq (h : q.Valid) (h0 : 0 ≤ code) :
    q.frontDif code = (code + 64 - q.front) % 64 := by
  have hf := h.front
  rw [FrameSequeue.frontDif, h.lenMax]
  exact Int.tmod_eq_emod_of_nonneg (by omega)

/-- A position within the stored frames: the frames before it are dropped. -/
theorem cut_within (h : q.Valid) (h0 : 0 ≤ code) (hlt : code < 64)
    (hle : (code + 64 - q.front) % 64 ≤ q.len) :
    (q.cut code (q.frontDif code)).Valid ∧
      (q.cut code (q.frontDif code)).front = code.toNat ∧
      (q.cut code (q.frontDif code)).len = q.len - ((code + 64 - q.front) % 64).toNat := by
  have hf := h.front
  have hl := h.len
  have hdif := frontDif_eq h h0
  have hfront : (q.cut code (q.frontDif code)).front = code.toNat := by
    show toU16 code = _
    unfold toU16
    omega
  have hlen : (q.cut code (q.frontDif code)).len =
      q.len - ((code + 64 - q.front) % 64).toNat := by
    show toU16 (q.len - q.frontDif code) = _
    rw [hdif]
    unfold toU16
    omega
  refine ⟨⟨by rw [hfront]; omega, h.rear, by rw [hlen]; omega, ?_, h.lenMax⟩, hfront, hlen⟩
  rw [hfront, hlen]
  show q.rear = _
  have := h.rear_eq
  omega

/-- A position in the ring but outside the stored frames drops more than there is: `len` wraps. -/
theorem cut_outside (h : q.Valid) (h0 : 0 ≤ code) (hgt : q.len < (code + 64 - q.front) % 64) :
    63 < (q.cut code (q.frontDif code)).len := by
  have hf := h.front
  have hl := h.len
  have hdif := frontDif_eq h h0
  show 63 < toU16 (q.len - q.frontDif code)
  rw [hdif]
  unfold toU16
  omega

/-- A negative code that truncates to `front` changes nothing. -/
theorem cut_same (h : q.Valid) (he : toU16 code = q.front) :
    q.cut code (q.frontDif code) = q := by
  have hf := h.front
  have hl := h.len
  have hdif : q.frontDif code = 0 := by
    rw [FrameSequeue.frontDif, h.lenMax]
    unfold toU16 at he
    refine Int.tmod_eq_zero_of_dvd ?_
    omega
  have hlen : toU16 (q.len - q.frontDif code) = q.len := by
    rw [hdif]
    unfold toU16
    omega
  rw [FrameSequeue.cut, he, hlen]

/-- Any other negative code leaves the ring, or moves `front` back and lengthens the queue. -/
theorem cut_negative (h : q.Valid) (hneg : code < 0)
    (hkept : Kept q (q.cut code (q.frontDif code))) : toU16 code = q.front := by
  obtain ⟨hv, k, hk, hfront⟩ := hkept
  have hf := h.front
  have hl := h.len
  have hf' : toU16 code < 64 := hv.front
  have hl' : toU16 (q.len - q.frontDif code) ≤ 63 := hv.len
  have hfront' : toU16 code = (q.front + k) % 64 := hfront
  have hbig : code ≤ -65472 := by
    unfold toU16 at hf'
    omega
  -- the remainder of a negative number is not positive: `len` grows
  have hdif : q.frontDif code = -((q.front - 64 - code) % 64) := by
    rw [FrameSequeue.frontDif, h.lenMax]
    show (code + 64 - q.front).tmod 64 = _
    rw [show code + 64 - q.front = -(q.front - 64 - code) by omega, Int.neg_tmod,
      Int.tmod_eq_emod_of_nonneg (by omega)]
  unfold toU16 at hl' hfront' ⊢
  omega

end Cut

/-- **Exactly the honest codes keep the queue.** -/
theorem kept_iff {q : FrameSequeue} (h : q.Valid) (code : Int) :
    Kept q (netlinkRecv q code) ↔ Honest q code := by
  have hsame : Kept q q := by
    have := h.front
    exact ⟨h, 0, Nat.zero_le _, by omega⟩
  unfold netlinkRecv
  by_cases hcut : code < streamLen
  · have hcode : code < 64 := hcut
    have hs : code ≠ codeStart := by unfold codeStart; omega
    have he : code ≠ codeEnd := by unfold codeEnd; omega
    rw [if_neg hs, if_neg he, if_pos hcut]
    constructor
    · intro hkept
      by_cases hneg : code < 0
      · exact Or.inr (Or.inr ⟨hneg, cut_negative h hneg hkept⟩)
      · refine Or.inr (Or.inl ⟨by omega, hcode, ?_⟩)
        by_contra hgt
        have hlen := cut_outside h (Int.not_lt.mp hneg) (Int.not_le.mp hgt)
        have := hkept.1.len
        omega
    · rintro (h64 | ⟨h0, hlt, hle⟩ | ⟨_, hfront⟩)
      · omega
      · obtain ⟨hv, hfront, _⟩ := cut_within h h0 hlt hle
        have := h.front
        exact ⟨hv, ((code + 64 - q.front) % 64).toNat, by omega, by rw [hfront]; omega⟩
      · rw [cut_same h hfront]
        exact hsame
  · have hsides : (if code = codeStart then q else if code = codeEnd then q else
        if code < streamLen then q.cut code (q.frontDif code) else q) = q := by
      rw [if_neg hcut, ite_self, ite_self]
    rw [hsides]
    exact ⟨fun _ => Or.inl (Int.not_lt.mp hcut), fun _ => hsame⟩

/-- A queue that is kept has not grown. -/
theorem kept_len {q q' : FrameSequeue} (h : q.Valid) (hkept : Kept q q') (hrear : q'.rear = q.rear) :
    q'.len ≤ q.len := by
  obtain ⟨hv, k, hk, hfront⟩ := hkept
  have h1 := h.rear_eq
  have h2 := hv.rear_eq
  have := h.len
  have := hv.len
  omega

theorem netlinkRecv_cut {q : FrameSequeue} {code : Int} (hc : code < streamLen) :
    netlinkRecv q code = q.cut code (q.frontDif code) := by
  have hcode : code < 64 := hc
  have hs : code ≠ codeStart := by unfold codeStart; omega
  have he : code ≠ codeEnd := by unfold codeEnd; omega
  rw [netlinkRecv, if_neg hs, if_neg he, if_pos hc]

end WifiOsc
