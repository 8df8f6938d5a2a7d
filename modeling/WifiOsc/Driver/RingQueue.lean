/-
  File:      WifiOsc/Driver/RingQueue.lean
  Subject:   THE RING QUEUE. The macros of Sequeue.h over any type of elements and any `len_max`,
             and what `tasklet_handler` (gpio_interrupt.c) does by hand instead of one of them.

  The fields are `u16`: natural numbers, and what is stored into one goes through `toU16`. The
  arithmetic between them is `int`. `none` is an index outside `dataspace`.

  * `Sequeue`, `Sequeue.init`, `inQueue`, …: the macros;
  * `Holds`: the queue stands for this list; `holds_inQueue`, `holds_outQueue`: what keeps it;
  * `Sequeue.call`, `fifo`: the calls and what each is for; `sequeue_refines`: one call;
  * `QueueCall.indices`, `stored`: the indices a call uses and the values it stores;
  * **`sequeue_fifo`**: whole sequences;
  * `FrameSequeue.valid_iff_holds`: the driver's own queue is such a ring.
-/
import Mathlib.Data.List.GetD
import WifiOsc.Basis.Refinement
import WifiOsc.Basis.Ring
import WifiOsc.Driver.Sequeue

namespace WifiOsc

open Basis

/-! ## 1. The macros -/

/-- `u8_sequeue`, `u16_sequeue`, `int_sequeue`, `float_sequeue`. -/
structure Sequeue (α : Type) where
  dataspace : List α
  front : Nat
  rear : Nat
  len : Nat
  lenMax : Nat

namespace Sequeue

variable {α : Type}

/-- `Sequeue_Init`, with `Sequeue_Set_Null`. -/
def init (data : List α) (lenM : Nat) : Sequeue α := ⟨data, 0, 0, 0, toU16 lenM⟩

/-- `Sequeue_Full`. -/
def full (q : Sequeue α) : Bool := (q.lenMax : Int) - 1 ≤ q.len

/-- `Sequeue_Empty`. -/
def empty (q : Sequeue α) : Bool := q.len == 0

/-- `dataspace[i]`. -/
def slot (q : Sequeue α) (i : Int) : Option α := if 0 ≤ i then q.dataspace[i.toNat]? else none

/-- `dataspace[i] = x`. -/
def put (q : Sequeue α) (i : Int) (x : α) : Option (Sequeue α) :=
  if 0 ≤ i ∧ i < q.dataspace.length then some { q with dataspace := q.dataspace.set i.toNat x }
  else none

/-- The index in `Sequeue_Get_Rear`. -/
def rearIndex (q : Sequeue α) : Int := ((q.front : Int) + q.len - 1).tmod q.lenMax

/-- The index in `Sequeue_Get_One`. -/
def oneIndex (q : Sequeue α) (i : Int) : Int := (q.front + i).tmod q.lenMax

def getFront (q : Sequeue α) : Option α := q.slot q.front

def getRear (q : Sequeue α) : Option α := q.slot q.rearIndex

def getOne (q : Sequeue α) (i : Int) : Option α := q.slot (q.oneIndex i)

/-- The position after `pos`. -/
def after (q : Sequeue α) (pos : Nat) : Int := ((pos : Int) + 1).tmod q.lenMax

/-- `Sequeue_In_Queue`. -/
def inQueue (q : Sequeue α) (x : α) : Option (Sequeue α) :=
  (q.put q.rear x).map fun q' =>
    { q' with rear := toU16 (q.after q.rear), len := toU16 (q.len + 1) }

/-- `Sequeue_Out_Queue`. -/
def outQueue (q : Sequeue α) : Sequeue α :=
  { q with len := toU16 ((q.len : Int) - 1), front := toU16 (q.after q.front) }

/-- `&Sequeue_Get_Next`, as an index. -/
def getNext (q : Sequeue α) : Nat := q.rear

/-- `rear = (pos + 1) % len_max; len++` in `tasklet_handler`. -/
def advance (q : Sequeue α) (pos : Nat) : Sequeue α :=
  { q with rear := toU16 (q.after pos), len := toU16 (q.len + 1) }

/-- `tasklet_handler` on the queue, when `receive_data` writes `x` through the pointer. -/
def taskletHandler (q : Sequeue α) (x : α) : Option (Sequeue α) :=
  let dataReal := q.getNext
  let pos := q.rear
  if q.full then some q else (q.put dataReal x).map fun q' => q'.advance pos

/-! ## 2. The list it stands for -/

/-- A queue of `n` slots holds the list `xs`, from `front` on. -/
structure Holds (n : Nat) (q : Sequeue α) (xs : List α) : Prop where
  lenMax : q.lenMax = n
  size : q.dataspace.length = n
  front : q.front < n
  rear : q.rear = (q.front + q.len) % n
  len : q.len = xs.length
  room : xs.length < n
  slots : ∀ i < xs.length, q.dataspace[(q.front + i) % n]? = xs[i]?

variable {n : Nat} {q : Sequeue α} {xs : List α} {x : α}

theorem toU16_natCast {k : Nat} (hk : k < 65536) : toU16 k = k := by
  unfold toU16
  omega

theorem after_eq (q : Sequeue α) (pos : Nat) : q.after pos = ((pos + 1) % q.lenMax : Nat) :=
  (Int.ofNat_tmod (pos + 1) q.lenMax).symm

theorem slot_natCast (q : Sequeue α) (k : Nat) : q.slot k = q.dataspace[k]? :=
  if_pos (Int.natCast_nonneg k)

theorem put_natCast {k : Nat} (hk : k < q.dataspace.length) (x : α) :
    q.put k x = some { q with dataspace := q.dataspace.set k x } :=
  if_pos ⟨Int.natCast_nonneg k, Int.ofNat_lt.mpr hk⟩

theorem holds_init {data : List α} (h2 : 2 ≤ n) (hn : n ≤ 65535) (hd : data.length = n) :
    (init data n).Holds n [] := by
  have hlenMax : toU16 n = n := toU16_natCast (by omega)
  exact ⟨hlenMax, hd, by show 0 < n; omega, (Nat.zero_mod n).symm, rfl, by show 0 < n; omega,
    fun i hi => absurd hi (Nat.not_lt_zero i)⟩

namespace Holds

theorem empty_iff (h : q.Holds n xs) : q.empty = true ↔ xs = [] := by
  rw [empty, h.len, beq_iff_eq, List.length_eq_zero_iff]

theorem full_iff (h : q.Holds n xs) : q.full = true ↔ xs.length = n - 1 := by
  have := h.room
  rw [full, h.lenMax, h.len, decide_eq_true_iff]
  omega

theorem not_full (h : q.Holds n xs) (hfull : q.full = false) : xs.length + 1 < n := by
  have hne : xs.length ≠ n - 1 := by
    intro e
    rw [h.full_iff.mpr e] at hfull
    cases hfull
  have := h.room
  omega

theorem rear_lt (h : q.Holds n xs) : q.rear < n := by
  rw [h.rear]
  exact Nat.mod_lt _ (Nat.lt_of_le_of_lt (Nat.zero_le _) h.front)

/-- The counters after the element behind the last one has been written. -/
theorem after_rear (h : q.Holds n xs) (hn : n ≤ 65535) :
    toU16 (q.after q.rear) = (q.front + (q.len + 1)) % n ∧
      toU16 (q.len + 1) = q.len + 1 := by
  have hroom := h.room
  have hlt : (q.front + (q.len + 1)) % n < n :=
    Nat.mod_lt _ (Nat.lt_of_le_of_lt (Nat.zero_le _) h.front)
  have hlen := h.len
  refine ⟨?_, toU16_natCast (k := q.len + 1) (by omega)⟩
  rw [after_eq, h.lenMax, h.rear, slot_add, Nat.add_assoc]
  exact toU16_natCast (by omega)

/-- **`Sequeue_In_Queue` appends.** -/
theorem inQueue (h : q.Holds n xs) (hn : n ≤ 65535) (hfull : q.full = false) (x : α) :
    ∃ q', q.inQueue x = some q' ∧ q'.Holds n (xs ++ [x]) := by
  have hroom := h.not_full hfull
  have hrear := h.rear_lt
  have hlen := h.len
  obtain ⟨hr, hl⟩ := h.after_rear hn
  have hput := put_natCast (q := q) (k := q.rear) (by rw [h.size]; exact hrear) x
  refine ⟨{ q with
      dataspace := q.dataspace.set q.rear x
      rear := toU16 (q.after q.rear)
      len := toU16 (q.len + 1) },
    by rw [Sequeue.inQueue, hput]; rfl, h.lenMax, ?_, h.front, ?_, ?_, ?_, ?_⟩
  · exact (List.length_set).trans h.size
  · show toU16 (q.after q.rear) = (q.front + toU16 (q.len + 1)) % n
    rw [hr, hl]
  · show toU16 (q.len + 1) = _
    rw [hl, hlen, List.length_append]
    rfl
  · rw [List.length_append]
    exact hroom
  · intro i hi
    rw [List.length_append, List.length_singleton] at hi
    show (q.dataspace.set q.rear x)[(q.front + i) % n]? = _
    rcases Nat.lt_succ_iff_lt_or_eq.mp hi with hi | rfl
    · -- an older element: its slot is not the one that is written
      have hne : (q.front + i) % n ≠ (q.front + q.len) % n := slot_ne (by omega) (by omega)
      rw [List.getElem?_set_ne (by rw [h.rear]; exact hne.symm), h.slots i hi,
        List.getElem?_append_left hi]
    · rw [← hlen, ← h.rear, List.getElem?_set_self (by rw [h.size]; exact hrear), hlen,
        List.getElem?_concat_length]

/-- **`Sequeue_Out_Queue` takes the first element.** -/
theorem outQueue (h : q.Holds n xs) (hn : n ≤ 65535) (hne : xs ≠ []) :
    q.outQueue.Holds n xs.tail := by
  have hpos := List.length_pos_iff.mpr hne
  have hroom := h.room
  have hlen := h.len
  have hn0 : 0 < n := Nat.lt_of_le_of_lt (Nat.zero_le _) h.front
  have hl : toU16 ((q.len : Int) - 1) = q.len - 1 := by
    rw [show (q.len : Int) - 1 = (q.len - 1 : Nat) by omega]
    exact toU16_natCast (by omega)
  have hf : toU16 (q.after q.front) = (q.front + 1) % n := by
    have hlt := Nat.mod_lt (q.front + 1) hn0
    rw [after_eq, h.lenMax]
    exact toU16_natCast (by omega)
  have hmove (k : Nat) : ((q.front + 1) % n + k) % n = (q.front + (k + 1)) % n := by
    rw [slot_add, Nat.add_assoc, Nat.add_comm 1 k]
  refine ⟨h.lenMax, h.size, ?_, ?_, ?_, ?_, ?_⟩
  · show toU16 (q.after q.front) < n
    rw [hf]
    exact Nat.mod_lt _ hn0
  · show q.rear = (toU16 (q.after q.front) + toU16 ((q.len : Int) - 1)) % n
    rw [hf, hl, hmove, h.rear, show q.len - 1 + 1 = q.len by omega]
  · show toU16 ((q.len : Int) - 1) = _
    rw [hl, List.length_tail, hlen]
  · rw [List.length_tail]
    omega
  · intro i hi
    rw [List.length_tail] at hi
    show q.dataspace[(toU16 (q.after q.front) + i) % n]? = _
    rw [hf, hmove, h.slots (i + 1) (by omega), List.getElem?_tail]

theorem oneIndex_eq (h : q.Holds n xs) (i : Nat) : q.oneIndex i = ((q.front + i) % n : Nat) := by
  rw [oneIndex, h.lenMax]
  exact (Int.ofNat_tmod (q.front + i) n).symm

theorem rearIndex_eq (h : q.Holds n xs) (hpos : 0 < q.len) :
    q.rearIndex = ((q.front + (q.len - 1)) % n : Nat) := by
  rw [rearIndex, h.lenMax,
    show (q.front : Int) + q.len - 1 = (q.front + (q.len - 1) : Nat) by omega]
  exact (Int.ofNat_tmod (q.front + (q.len - 1)) n).symm

/-- **`Sequeue_Get_One` reads element `i`.** -/
theorem getOne (h : q.Holds n xs) {i : Nat} (hi : i < xs.length) : q.getOne i = xs[i]? := by
  rw [Sequeue.getOne, h.oneIndex_eq, slot_natCast, h.slots i hi]

theorem getFront (h : q.Holds n xs) (hne : xs ≠ []) : q.getFront = xs.head? := by
  have hslot := h.slots 0 (List.length_pos_iff.mpr hne)
  rw [Nat.add_zero, Nat.mod_eq_of_lt h.front] at hslot
  rw [Sequeue.getFront, slot_natCast, hslot, List.head?_eq_getElem?]

theorem getRear (h : q.Holds n xs) (hne : xs ≠ []) : q.getRear = xs.getLast? := by
  have hpos := List.length_pos_iff.mpr hne
  have hlen := h.len
  rw [Sequeue.getRear, h.rearIndex_eq (by omega), slot_natCast, h.slots _ (by omega), hlen,
    List.getLast?_eq_getElem?]

/-- **What the handler does by hand is `Sequeue_In_Queue`.** -/
theorem taskletHandler (hfull : q.full = false) (x : α) : q.taskletHandler x = q.inQueue x := by
  have hn : ¬ q.full = true := by
    rw [hfull]
    exact Bool.false_ne_true
  unfold Sequeue.taskletHandler Sequeue.inQueue getNext
  rw [if_neg hn]
  unfold put
  split <;> rfl

end Holds

/-! ## 3. Calls -/

end Sequeue

/-- A use of a macro, or a frame stored by `tasklet_handler`. -/
inductive QueueCall (α : Type) where
  | inQueue (x : α)
  | outQueue
  | handler (x : α)
  | getLen
  | getFront
  | getRear
  | getOne (i : Nat)

inductive QueueAnswer (α : Type) where
  | len (n : Nat)
  | element (x : α)

section Calls

variable {α : Type} {n : Nat} {q : Sequeue α} {xs : List α}

namespace Sequeue

def call (q : Sequeue α) : QueueCall α → Option (Sequeue α × List (QueueAnswer α))
  | .inQueue x => (q.inQueue x).map fun q' => (q', [])
  | .outQueue => some (q.outQueue, [])
  | .handler x => (q.taskletHandler x).map fun q' => (q', [])
  | .getLen => some (q, [.len q.len])
  | .getFront => q.getFront.map fun x => (q, [.element x])
  | .getRear => q.getRear.map fun x => (q, [.element x])
  | .getOne i => (q.getOne i).map fun x => (q, [.element x])

/-- What the user of the macros sees to: `Sequeue_Full` and `Sequeue_Empty` are asked first. -/
def Guarded (q : Sequeue α) : QueueCall α → Prop
  | .inQueue _ | .handler _ => q.full = false
  | .outQueue | .getFront | .getRear => q.empty = false
  | .getOne i => i < q.len
  | .getLen => True

/-- The indices into `dataspace` that a call uses. -/
def indices (q : Sequeue α) : QueueCall α → List Int
  | .inQueue _ => [q.rear]
  | .handler _ => [q.getNext]
  | .getFront => [q.front]
  | .getRear => [q.rearIndex]
  | .getOne i => [q.oneIndex i]
  | .outQueue | .getLen => []

/-- The values that a call stores into `u16` fields. -/
def stored (q : Sequeue α) : QueueCall α → List Int
  | .inQueue _ | .handler _ => [q.after q.rear, q.len + 1]
  | .outQueue => [(q.len : Int) - 1, q.after q.front]
  | .getLen | .getFront | .getRear | .getOne _ => []

end Sequeue

/-- First in, first out. -/
def fifo (α : Type) : Machine (List α) (QueueCall α) (QueueAnswer α) where
  step xs
    | .inQueue x | .handler x => xs ++ [x]
    | .outQueue => xs.tail
    | .getLen | .getFront | .getRear | .getOne _ => xs
  out xs
    | .getLen => [.len xs.length]
    | .getFront => xs.head?.toList.map .element
    | .getRear => xs.getLast?.toList.map .element
    | .getOne i => xs[i]?.toList.map .element
    | .inQueue _ | .outQueue | .handler _ => []

theorem answer_element {o o' : Option α} (h : o = o') (hsome : o'.isSome = true) :
    (o.map fun x => (q, [QueueAnswer.element x])) = some (q, o'.toList.map .element) := by
  obtain ⟨x, hx⟩ := Option.isSome_iff_exists.mp hsome
  rw [h, hx]
  rfl

/-- **One call.** -/
theorem sequeue_refines (hn : n ≤ 65535) :
    Refines Sequeue.call (fifo α) (fun q xs => q.Holds n xs) Sequeue.Guarded fun _ _ => True := by
  have hne {q : Sequeue α} {xs : List α} (h : q.Holds n xs) (he : q.empty = false) : xs ≠ [] := by
    intro e
    rw [h.empty_iff.mpr e] at he
    cases he
  constructor
  · intro q xs c h hg _
    cases c with
    | inQueue x =>
      obtain ⟨q', hin, h'⟩ := h.inQueue hn hg x
      exact ⟨q', by simp only [Sequeue.call, hin]; rfl, h'⟩
    | handler x =>
      obtain ⟨q', hin, h'⟩ := h.inQueue hn hg x
      exact ⟨q', by simp only [Sequeue.call, Sequeue.Holds.taskletHandler hg, hin]; rfl, h'⟩
    | outQueue => exact ⟨q.outQueue, rfl, h.outQueue hn (hne h hg)⟩
    | getLen => exact ⟨q, by simp only [Sequeue.call, h.len]; rfl, h⟩
    | getFront =>
      have hxs := hne h hg
      exact ⟨q, answer_element (h.getFront hxs) (List.isSome_head?.mpr hxs), h⟩
    | getRear =>
      have hxs := hne h hg
      exact ⟨q, answer_element (h.getRear hxs) (List.getLast?_isSome.mpr hxs), h⟩
    | getOne i =>
      have hi : i < xs.length := h.len ▸ hg
      exact ⟨q, answer_element (h.getOne hi) (by rw [List.getElem?_eq_getElem hi]; rfl), h⟩
  · intro q xs c _ _ hno
    exact absurd trivial hno

/-- **A guarded call stays inside the array and inside the fields.** -/
theorem guarded_bounds (h : q.Holds n xs) (hn : n ≤ 65535) {c : QueueCall α} (hg : q.Guarded c) :
    (∀ i ∈ q.indices c, 0 ≤ i ∧ i < n) ∧ ∀ v ∈ q.stored c, 0 ≤ v ∧ v ≤ 65535 := by
  have hn0 : 0 < n := Nat.lt_of_le_of_lt (Nat.zero_le _) h.front
  have hrear := h.rear_lt
  have hfront := h.front
  have hlen := h.len
  have hroom := h.room
  have hslot (k : Nat) : 0 ≤ ((k % n : Nat) : Int) ∧ ((k % n : Nat) : Int) < n :=
    ⟨Int.natCast_nonneg _, Int.ofNat_lt.mpr (Nat.mod_lt k hn0)⟩
  have hafter (k : Nat) : 0 ≤ q.after k ∧ q.after k ≤ 65535 := by
    have hk := hslot (k + 1)
    rw [Sequeue.after_eq, h.lenMax]
    omega
  -- both writers use `rear`, and count one up
  have hwrite : (∀ i ∈ [(q.rear : Int)], 0 ≤ i ∧ i < n) ∧
      ∀ v ∈ [q.after q.rear, (q.len : Int) + 1], 0 ≤ v ∧ v ≤ 65535 := by
    refine ⟨by simp; omega, ?_⟩
    intro v hv
    rcases List.mem_pair.mp hv with rfl | rfl
    · exact hafter q.rear
    · omega
  have hnone : ∀ v ∈ ([] : List Int), 0 ≤ v ∧ v ≤ 65535 := fun v hv => absurd hv List.not_mem_nil
  cases c with
  | inQueue x => exact hwrite
  | handler x => exact hwrite
  | outQueue =>
    refine ⟨fun i hi => absurd hi List.not_mem_nil, ?_⟩
    intro v hv
    have hpos : q.len ≠ 0 := by simpa [Sequeue.Guarded, Sequeue.empty] using hg
    rcases List.mem_pair.mp hv with rfl | rfl
    · omega
    · exact hafter q.front
  | getLen => exact ⟨fun i hi => absurd hi List.not_mem_nil, hnone⟩
  | getFront =>
    refine ⟨?_, hnone⟩
    intro i hi
    rw [List.mem_singleton.mp hi]
    omega
  | getRear =>
    refine ⟨?_, hnone⟩
    intro i hi
    have hpos : q.len ≠ 0 := by simpa [Sequeue.Guarded, Sequeue.empty] using hg
    rw [List.mem_singleton.mp hi, h.rearIndex_eq (by omega)]
    exact hslot _
  | getOne k =>
    refine ⟨?_, hnone⟩
    intro i hi
    rw [List.mem_singleton.mp hi, h.oneIndex_eq]
    exact hslot _

/-- **The ring queue is a FIFO list** of at most `n - 1` elements, for every capacity and every
    guarded sequence of calls. -/
theorem sequeue_fifo (h2 : 2 ≤ n) (hn : n ≤ 65535) (data : List α) (hd : data.length = n)
    (cs : List (QueueCall α)) (hg : Allowed Sequeue.call Sequeue.Guarded (.init data n) cs) :
    ∃ q, callAll Sequeue.call (.init data n) cs = some (q, (fifo α).log [] cs) ∧
      q.Holds n ((fifo α).run [] cs) ∧ ((fifo α).run [] cs).length ≤ n - 1 ∧
      (∀ c, q.Guarded c →
        (∀ i ∈ q.indices c, 0 ≤ i ∧ i < n) ∧ ∀ v ∈ q.stored c, 0 ≤ v ∧ v ≤ 65535) ∧
      ∀ x, q.full = false → q.taskletHandler x = q.inQueue x := by
  obtain ⟨q, hcalls, h⟩ := (sequeue_refines hn).callAll_eq (Sequeue.holds_init h2 hn hd) hg
    (Machine.throughout_of_mem _ fun _ _ _ => trivial)
  have hroom := h.room
  exact ⟨q, hcalls, h, by omega, fun c hc => guarded_bounds h hn hc,
    fun x hfull => Sequeue.Holds.taskletHandler hfull x⟩

/-- Three slots, once round the ring. -/
theorem sequeue_fifo_three : ∃ q,
    callAll Sequeue.call (.init [0, 0, 0] 3)
        [.inQueue 5, .handler 6, .outQueue, .inQueue 7, .getOne 1, .getLen] =
      some (q, [.element 7, .len 2]) := by
  have hg : Allowed Sequeue.call Sequeue.Guarded (.init [0, 0, 0] 3)
      [.inQueue 5, .handler 6, .outQueue, .inQueue 7, .getOne 1, .getLen] := by
    refine ⟨rfl, fun s o h => ?_⟩
    cases h
    refine ⟨rfl, fun s o h => ?_⟩
    cases h
    refine ⟨rfl, fun s o h => ?_⟩
    cases h
    refine ⟨rfl, fun s o h => ?_⟩
    cases h
    exact ⟨Nat.lt_succ_self 1, fun s o _ => ⟨trivial, fun s o _ => trivial⟩⟩
  obtain ⟨q, hcalls, _⟩ := sequeue_fifo (by decide) (by decide) [0, 0, 0] rfl _ hg
  exact ⟨q, hcalls⟩

end Calls

/-! ## 4. The driver's queue -/

namespace FrameSequeue

variable {q : FrameSequeue}

/-- `share_memory` as a ring queue of frames. -/
def ring (q : FrameSequeue) : Sequeue GpioDataFrame :=
  ⟨(List.range q.lenMax).map q.dataspace, q.front, q.rear, q.len, q.lenMax⟩

@[simp] theorem ring_full : q.ring.full = q.full := rfl

@[simp] theorem ring_store (pos : Nat) : (q.store pos).ring = q.ring.advance pos := rfl

/-- **The relations that the driver keeps between its counters** are those of a ring that stands for
    a list of frames. -/
theorem valid_iff_holds : q.Valid ↔ ∃ xs, q.ring.Holds 64 xs := by
  constructor
  · intro h
    have hlen := h.len
    refine ⟨(List.range q.len).map fun i => q.dataspace ((q.front + i) % 64), h.lenMax, ?_, h.front,
      h.rear_eq, ?_, ?_, ?_⟩
    · rw [ring, List.length_map, List.length_range, h.lenMax]
    · rw [List.length_map, List.length_range]
      rfl
    · rw [List.length_map, List.length_range]
      omega
    · intro i hi
      rw [List.length_map, List.length_range] at hi
      show ((List.range q.lenMax).map q.dataspace)[(q.front + i) % 64]? = _
      rw [h.lenMax, List.getElem?_map, List.getElem?_map,
        List.getElem?_range (Nat.mod_lt _ (by decide)), List.getElem?_range hi]
      rfl
  · rintro ⟨xs, h⟩
    have hroom := h.room
    have hlen : q.len = xs.length := h.len
    exact ⟨h.front, h.rear_lt, by omega, h.rear, h.lenMax⟩

end FrameSequeue

end WifiOsc
