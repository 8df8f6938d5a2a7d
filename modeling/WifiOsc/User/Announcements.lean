/-
  File:      WifiOsc/User/Announcements.lean
  Subject:   FROM AN ANNOUNCEMENT TO A CONNECTION. The loop of `Udp_recvThread` and the threads that
             it starts (`Tcp_sendThread`, LINUX/package/dso_mthread/src/mthread.c), in any
             interleaving.

  `temp` is one cell of the loop's stack frame; every thread is given its address and reads it when
  it gets to run.

  * `Announcements.next`: one iteration of the loop, or one thread's read;
  * `Right`: every thread connects to the device it was started for;
  * `TempInv`: `temp` is what was announced last;
  * **`right_iff`**: exactly the runs in which no thread is late.
-/
import WifiOsc.Basis.Machine
import WifiOsc.Fpga.Uart

namespace WifiOsc

open Basis

/-! ## 1. The loop and its threads -/

/-- `inet_ntoa` and `inet_addr`, as texts without the final 0. -/
structure Inet where
  ntoa : BitVec 32 → List Byte
  addr : List Byte → BitVec 32

/-- A `Tcp_sendThread`: the address of the datagram it was started for, and what it has called
    `connectTcp` with. -/
structure TcpSender where
  announced : BitVec 32
  connected : Option (BitVec 32)
  deriving DecidableEq, Repr

/-- The loop of `Udp_recvThread`, and the threads in the order of their start. -/
structure Announcements where
  running : Bool
  temp : BitVec 32
  threads : List TcpSender
  deriving DecidableEq, Repr

/-- A datagram, an error of `recvfrom`, or the read of thread `k`; `left` is what is found in the
    stack frame once the loop has ended. -/
inductive UdpEvent where
  | datagram (sender : BitVec 32) (payload : List Byte)
  | error
  | read (k : Nat) (left : BitVec 32)

/-- `BUFFER_LEN`. -/
def bufferLen : Nat := 20

/-- The string in `buff` after `recvfrom` and `buff[message_len] = 0`. -/
def buffText (payload : List Byte) : List Byte :=
  (payload.take (bufferLen - 1)).takeWhile (· ≠ 0#8)

namespace Announcements

def init (temp : BitVec 32) : Announcements := ⟨true, temp, []⟩

/-- One step of the loop or of a thread. An empty datagram ends the loop, as an error does. -/
def next (inet : Inet) (s : Announcements) : UdpEvent → Option Announcements
  | .datagram sender payload =>
      if !s.running then none
      else if payload.length = 0 then some { s with running := false }
      else if buffText payload = inet.ntoa sender then
        some { s with
          temp := inet.addr (buffText payload)
          threads := s.threads ++ [⟨inet.addr (buffText payload), none⟩] }
      else some s
  | .error => if s.running then some { s with running := false } else none
  | .read k left =>
      match s.threads[k]? with
      | some ⟨announced, none⟩ =>
          some { s with
            threads := s.threads.set k ⟨announced, some (if s.running then s.temp else left)⟩ }
      | _ => none

/-- Every thread that has connected has connected to the address of its datagram; once all have,
    every address has been connected as often as it was announced. -/
structure Right (s : Announcements) : Prop where
  own : ∀ t ∈ s.threads, ∀ c, t.connected = some c → c = t.announced
  counts : (∀ t ∈ s.threads, t.connected ≠ none) →
    ∀ a, (s.threads.filterMap TcpSender.connected).count a =
      (s.threads.map TcpSender.announced).count a

/-- The last announcement up to a thread's read is of the thread's own address; once the loop has
    ended, that address is what is left. -/
def InTime (s : Announcements) : UdpEvent → Prop
  | .read k left => ∀ t, s.threads[k]? = some t →
      if s.running then (s.threads.map TcpSender.announced).getLast? = some t.announced
      else left = t.announced
  | .datagram _ _ | .error => True

/-! ## 2. What one step does -/

/-- `temp` is what was announced last. -/
def TempInv (s : Announcements) : Prop :=
  ∀ a, (s.threads.map TcpSender.announced).getLast? = some a → s.temp = a

variable {inet : Inet} {s s' : Announcements} {e : UdpEvent}

theorem next_cases (h : s.next inet e = some s') :
    (s'.threads = s.threads ∧ s'.temp = s.temp ∧ ∀ k left, e ≠ .read k left) ∨
      (∃ a, s' = { s with temp := a, threads := s.threads ++ [⟨a, none⟩] } ∧
        ∀ k left, e ≠ .read k left) ∨
      ∃ k left a, e = .read k left ∧ s.threads[k]? = some ⟨a, none⟩ ∧
        s' = { s with threads := s.threads.set k ⟨a, some (if s.running then s.temp else left)⟩ } := by
  cases e with
  | datagram sender payload =>
    simp only [next] at h
    split at h
    · cases h
    split at h
    · cases h
      exact Or.inl ⟨rfl, rfl, fun k left he => by cases he⟩
    split at h
    · cases h
      exact Or.inr (Or.inl ⟨_, rfl, fun k left he => by cases he⟩)
    · cases h
      exact Or.inl ⟨rfl, rfl, fun k left he => by cases he⟩
  | error =>
    simp only [next] at h
    split at h
    · cases h
      exact Or.inl ⟨rfl, rfl, fun k left he => by cases he⟩
    · cases h
  | read k left =>
    simp only [next] at h
    split at h
    case h_1 a ht =>
      cases h
      exact Or.inr (Or.inr ⟨k, left, a, rfl, ht, rfl⟩)
    case h_2 => cases h

/-- A read changes no announcement. -/
theorem map_announced_set {l : List TcpSender} {k : Nat} {t u : TcpSender} (h : l[k]? = some t)
    (hu : u.announced = t.announced) :
    (l.set k u).map TcpSender.announced = l.map TcpSender.announced := by
  obtain ⟨hk, rfl⟩ := List.getElem?_eq_some_iff.mp h
  have hk' : k < (l.map TcpSender.announced).length := by rwa [List.length_map]
  have hget : (l.map TcpSender.announced)[k] = l[k].announced := List.getElem_map _
  rw [List.map_set, hu, ← hget, List.set_getElem_self hk']

theorem tempInv_step (hI : s.TempInv) (hs : s.next inet e = some s') : s'.TempInv := by
  rcases next_cases hs with ⟨ht, htemp, _⟩ | ⟨a, rfl, _⟩ | ⟨k, left, a, rfl, hk, rfl⟩
  · unfold TempInv
    rw [ht, htemp]
    exact hI
  · intro b hlast
    rw [List.map_append, List.map_singleton, List.getLast?_concat] at hlast
    exact Option.some.inj hlast
  · intro b hlast
    have hsame := map_announced_set (u := ⟨a, some (if s.running then s.temp else left)⟩) hk rfl
    exact hI b (hsame ▸ hlast)

/-- Threads that are connected to their own addresses give the counts. -/
theorem right_of_own (h : ∀ t ∈ s.threads, ∀ c, t.connected = some c → c = t.announced) :
    s.Right := by
  refine ⟨h, ?_⟩
  intro hall a
  have hsome : ∀ t ∈ s.threads, t.connected = some t.announced := by
    intro t ht
    obtain ⟨c, hc⟩ := Option.ne_none_iff_exists'.mp (hall t ht)
    rw [hc, h t ht c hc]
  rw [List.filterMap_congr hsome, ← List.filterMap_eq_map]
  rfl

/-! ## 3. Exactly when every thread is right -/

/-- The thread that reads is the only one that can become wrong. -/
theorem right_read_iff (hR : s.Right) {k : Nat} {a v : BitVec 32}
    (hk : s.threads[k]? = some ⟨a, none⟩) :
    Right { s with threads := s.threads.set k ⟨a, some v⟩ } ↔ v = a := by
  obtain ⟨hlt, _⟩ := List.getElem?_eq_some_iff.mp hk
  constructor
  · intro h
    exact h.own _ (List.mem_set hlt _) _ rfl
  · intro hv
    refine right_of_own ?_
    intro t ht c hc
    rcases List.mem_or_eq_of_mem_set ht with ht | rfl
    · exact hR.own t ht c hc
    · cases hc
      exact hv

/-- A read is in time exactly when the thread's own address is what it finds. -/
theorem inTime_read_iff (hI : s.TempInv) {k : Nat} {left a : BitVec 32}
    (hk : s.threads[k]? = some ⟨a, none⟩) :
    s.InTime (.read k left) ↔ (if s.running then s.temp else left) = a := by
  constructor
  · intro h
    have ha := h ⟨a, none⟩ hk
    split at ha
    case isTrue hrun =>
      rw [if_pos hrun]
      exact hI a ha
    case isFalse hrun =>
      rw [if_neg hrun]
      exact ha
  · intro hv t ht
    cases hk.symm.trans ht
    split at hv
    case isTrue hrun =>
      rw [if_pos hrun]
      -- there is a thread, so there is a last announcement
      cases hlast : (s.threads.map TcpSender.announced).getLast? with
      | none =>
        have hnil := List.map_eq_nil_iff.mp (List.getLast?_eq_none_iff.mp hlast)
        rw [hnil] at hk
        cases hk
      | some b => rw [← hI b hlast, hv]
    case isFalse hrun =>
      rw [if_neg hrun]
      exact hv

/-- **One step keeps every thread right exactly when it is no late read.** -/
theorem right_step (hI : s.TempInv) (hR : s.Right) (hs : s.next inet e = some s') :
    s'.Right ↔ s.InTime e := by
  have hother (he : ∀ k left, e ≠ .read k left) : s.InTime e := by
    cases e with
    | read k left => exact absurd rfl (he k left)
    | datagram _ _ | error => trivial
  rcases next_cases hs with ⟨ht, _, he⟩ | ⟨a, rfl, he⟩ | ⟨k, left, a, rfl, hk, rfl⟩
  · refine iff_of_true (right_of_own ?_) (hother he)
    rw [ht]
    exact hR.own
  · refine iff_of_true (right_of_own ?_) (hother he)
    intro t ht c hc
    rcases List.mem_append.mp ht with ht | ht
    · exact hR.own t ht c hc
    · rw [List.mem_singleton.mp ht] at hc
      cases hc
  · rw [right_read_iff hR hk, inTime_read_iff hI hk]

/-- **Exactly which runs connect every announced device**: those in which every thread that reads
    while the loop runs does so before another address is announced, and every thread that reads
    later finds its own address in what is left of `temp`. -/
theorem right_iff (inet : Inet) (temp : BitVec 32) (es : List UdpEvent) :
    Always (next inet) Right (init temp) es ↔ Each (next inet) InTime (init temp) es :=
  always_iff_each (I := TempInv) (fun _ _ _ => tempInv_step)
    (fun _ _ _ => right_step) (fun _ h => by cases h)
    (right_of_own fun _ h => absurd h List.not_mem_nil)

/-! ### Two devices -/

/-- `inet_ntoa`: the four bytes as they lie in memory, lowest first, in decimal. -/
def dottedNtoa (a : BitVec 32) : List Byte :=
  let text (k : Nat) : List Byte :=
    (Nat.toDigits 10 (a.extractLsb' k 8).toNat).map fun c => BitVec.ofNat 8 c.toNat
  text 0 ++ 46#8 :: text 8 ++ 46#8 :: text 16 ++ 46#8 :: text 24

/-- `inet_addr` on four decimal numbers with dots between them. -/
def dottedAddr (text : List Byte) : BitVec 32 :=
  let parts := text.foldl (fun ps c =>
    if c = 46#8 then 0 :: ps else (ps.headD 0 * 10 + (c.toNat - 48)) :: ps.tail) [0]
  parts.foldl (fun a p => a <<< 8 ||| BitVec.ofNat 32 p) 0#32

def dotted : Inet := ⟨dottedNtoa, dottedAddr⟩

example : dottedAddr (dottedNtoa 0x0201a8c0#32) = 0x0201a8c0#32 := by decide

/-- 192.168.1.2 and 192.168.1.3 announce themselves before the first thread gets to run. -/
def twoDevices : List UdpEvent :=
  [.datagram 0x0201a8c0#32 (dottedNtoa 0x0201a8c0#32),
    .datagram 0x0301a8c0#32 (dottedNtoa 0x0301a8c0#32), .read 0 0#32, .read 1 0#32]

/-- Both threads connect to the second device. -/
theorem twoDevices_wrong : ¬ Always (next dotted) Right (init 0#32) twoDevices := by
  intro h
  have hruns : Runs (next dotted) (init 0#32) twoDevices
      ⟨true, 0x0301a8c0#32,
        [⟨0x0201a8c0#32, some 0x0301a8c0#32⟩, ⟨0x0301a8c0#32, some 0x0301a8c0#32⟩]⟩ :=
    ⟨_, rfl, _, rfl, _, rfl, _, rfl, rfl⟩
  have hcounts := (h.last hruns).counts (by decide) 0x0201a8c0#32
  exact absurd hcounts (by decide)

end Announcements

end WifiOsc
