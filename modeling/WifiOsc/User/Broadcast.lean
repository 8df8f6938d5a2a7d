/-
  File:      WifiOsc/User/Broadcast.lean
  Subject:   FROM THE QUEUE TO THE DEVICES. The thread `Udp_sendThread_t` over the shared queue of the
             driver (Driver/Session.lean) and over the list `socks_temp`, which any number of
             `connectTcp` threads change meanwhile (User/Connections.lean).

  A frame is forwarded by `Socksfd_RunFuc(&socks_temp, sendUdp_t)`: one datagram for each entry, to the
  entry's address. The entries need not be those of the live connections, since a deletion may take
  another connection's entry; but the addresses are, and a udp socket is never closed. So what a
  device is sent depends on how many live connections it has, and on nothing else.

  * `Station`: driver, sending thread, connections, and the datagrams handed to `sendto`;
  * `runSend`: a walk of `sendUdp_t` over the list; `runSend_eq`: what it sends and leaves;
  * `Sockets`: the udp sockets of the entries are open, whichever connection added them;
  * `station_step`: what one step sends to an address; `broadcast`: what a run sends to it.
-/
import WifiOsc.Driver.Forwarding
import WifiOsc.User.Connections

namespace WifiOsc

open Basis

/-! ## 1. The station -/

/-- `UDP_PORT`. -/
def udpPort : BitVec 16 := 55555#16

/-- What `sendto` is given. -/
structure Datagram where
  udp : BitVec 32
  port : BitVec 16
  address : BitVec 32
  bytes : List Byte

/-- `sendUdp_t`, with the frame in `data_frame_t`. -/
def sendUdpT (f : GpioDataFrame) (p : Socks) : GpioDataFrame × Datagram :=
  (clearFirst f, ⟨p.udp, udpPort, p.address, (clearFirst f).payload⟩)

/-- `Socksfd_RunFuc(&socks_temp, sendUdp_t)`, for the entries that the walk visits. -/
def runSend : GpioDataFrame → List Socks → GpioDataFrame × List Datagram
  | f, [] => (f, [])
  | f, p :: ps =>
      let sent := sendUdpT f p
      let rest := runSend sent.1 ps
      (rest.1, sent.2 :: rest.2)

structure Station where
  sys : System
  conns : Connections
  datagrams : List Datagram

/-- `sys`: a step of the driver or of the sending thread, but for the walk. `forward`: the walk.
    `thread`: a call of a `connectTcp` thread. -/
inductive StationEvent where
  | sys (e : SysEvent)
  | forward
  | thread (e : ThreadEvent)

namespace Station

def init (dataspace : Nat → GpioDataFrame) (descriptors : List (BitVec 32)) : Station :=
  ⟨.init dataspace, .init descriptors, []⟩

/-- The frame in `data_frame_t`. -/
def inHand (s : Station) : Option GpioDataFrame :=
  match s.sys.user with
  | .sending _ _ slot => some (s.sys.d.q.dataspace slot)
  | .off | .waiting | .forwarding _ _ => none

def next (σ : Setting) (s : Station) : StationEvent → Option Station
  | .sys (.forward _) => none
  | .sys e => (s.sys.next σ e).map fun sys => { s with sys := sys }
  | .forward =>
      s.inHand.bind fun f =>
        s.conns.socksTemp.runFuc.bind fun entries =>
          (s.sys.next σ (.forward (!entries.isEmpty))).map fun sys =>
            { s with sys := sys, datagrams := s.datagrams ++ (runSend f entries).2 }
  | .thread e => (s.conns.next e).map fun conns => { s with conns := conns }

/-- The states the station can come to. -/
def Reachable (σ : Setting) (s : Station) : Prop :=
  ∃ dataspace descriptors es, Runs (next σ) (init dataspace descriptors) es s

/-- How many live connections the device has. -/
def listeners (a : BitVec 32) (s : Station) : Nat := (s.conns.live.map Socks.address).count a

/-- What has been sent to the device. -/
def received (a : BitVec 32) (s : Station) : List (List Byte) :=
  (s.datagrams.filter fun d => d.address = a).map Datagram.bytes

end Station

/-! ## 2. One walk -/

/-- **One walk**: every entry is sent the same bytes, and the first byte of the slot is cleared if
    there is an entry. -/
theorem runSend_eq (f : GpioDataFrame) (es : List Socks) :
    runSend f es = (if es = [] then f else clearFirst f,
      es.map fun p => ⟨p.udp, udpPort, p.address, (clearFirst f).payload⟩) := by
  induction es generalizing f with
  | nil => rfl
  | cons p ps ih =>
    rw [runSend, sendUdpT, ih, clearFirst_clearFirst, if_neg (List.cons_ne_nil p ps)]
    split <;> rfl

/-- What a walk sends to an address. -/
theorem runSend_to (f : GpioDataFrame) (es : List Socks) (a : BitVec 32) :
    ((runSend f es).2.filter fun d => d.address = a).map Datagram.bytes =
      List.replicate ((es.map Socks.address).count a) (clearFirst f).payload := by
  rw [runSend_eq]
  induction es with
  | nil => rfl
  | cons p ps ih =>
    rw [List.map_cons, List.map_cons, List.filter_cons, List.count_cons]
    by_cases ha : p.address = a
    · simp only [ha, decide_true, if_true, beq_self_eq_true, List.map_cons, List.replicate_succ]
      exact congrArg (_ :: ·) ih
    · simpa [ha] using ih

/-! ## 3. What one step can do -/

section Step

variable {σ : Setting} {s s' : Station} {e : StationEvent}

/-- Only the walk forwards. -/
theorem forwarded_kept {s s' : System} {e : SysEvent} (h : s.next σ e = some s')
    (he : ∀ live, e ≠ .forward live) : s'.forwarded = s.forwarded := by
  cases e with
  | driver e =>
    obtain ⟨-, d', -, ⟨-, -, rfl⟩ | ⟨-, rfl⟩⟩ := next_driver_cases h <;> rfl
  | deliver =>
    obtain ⟨m, rest, -, -, rfl⟩ := next_deliver_cases h
    rfl
  | forward live => exact absurd rfl (he live)
  | quit =>
    simp only [System.next] at h
    split at h
    · cases h
      rfl
    · cases h
  | start | take | fetch | ack =>
    simp only [System.next] at h
    split at h <;> first | (cases h; rfl) | cases h

theorem station_cases (h : s.next σ e = some s') :
    (∃ e' sys, s.sys.next σ e' = some sys ∧ sys.forwarded = s.sys.forwarded ∧
      s' = { s with sys := sys }) ∨
    (∃ tag count slot entries sys, s.sys.user = .sending tag count slot ∧
      s.conns.socksTemp.runFuc = some entries ∧
      s.sys.next σ (.forward (!entries.isEmpty)) = some sys ∧
      s' = { s with
        sys := sys, datagrams := s.datagrams ++ (runSend (s.sys.d.q.dataspace slot) entries).2 }) ∨
    (∃ e' conns, e = .thread e' ∧ s.conns.next e' = some conns ∧ s' = { s with conns := conns }) := by
  cases e with
  | sys e =>
    have hsome : (∀ live, e ≠ .forward live) ∧ ∃ sys, s.sys.next σ e = some sys ∧
        { s with sys := sys } = s' := by
      cases e with
      | forward live => cases h
      | _ => exact ⟨nofun, Option.map_eq_some_iff.mp h⟩
    obtain ⟨he, sys, hsys, rfl⟩ := hsome
    exact Or.inl ⟨e, sys, hsys, forwarded_kept hsys he, rfl⟩
  | forward =>
    obtain ⟨f, hf, h⟩ := Option.bind_eq_some_iff.mp h
    obtain ⟨entries, hrun, h⟩ := Option.bind_eq_some_iff.mp h
    obtain ⟨sys, hsys, rfl⟩ := Option.map_eq_some_iff.mp h
    cases hu : s.sys.user with
    | sending tag count slot =>
      rw [Station.inHand, hu] at hf
      cases hf
      exact Or.inr (Or.inl ⟨tag, count, slot, entries, sys, rfl, hrun, hsys, rfl⟩)
    | off | waiting | forwarding =>
      rw [Station.inHand, hu] at hf
      cases hf
  | thread e =>
    obtain ⟨conns, hconns, rfl⟩ := Option.map_eq_some_iff.mp h
    exact Or.inr (Or.inr ⟨e, conns, rfl, hconns, rfl⟩)

/-- The walk forwards the frame in hand. -/
theorem forward_forwarded {s s' : System} {live : Bool} {tag count slot : Nat}
    (hu : s.user = .sending tag count slot) (h : s.next σ (.forward live) = some s') :
    s'.forwarded = s.forwarded ++ [s.d.q.dataspace slot] := by
  simp only [System.next, hu] at h
  cases h
  rfl

end Step

/-! ## 4. The sockets -/

/-- `udps` are the udp sockets that have been opened: they are all still open, none is the tcp socket
    of a connection that has one, and the entries have no others. -/
structure Sockets (udps : List (BitVec 32)) (s : Connections) : Prop where
  open_ : ∀ u ∈ udps, u ∈ s.descriptors
  own : ∀ c ∈ s.live ++ s.closing, c.udp ∈ udps ∧ c.tcp ∉ udps
  entries : ∀ es, s.socksTemp.Entries es → ∀ x ∈ es, x.udp ∈ udps

section Sockets

variable {udps : List (BitVec 32)} {s s' : Connections} {e : ThreadEvent}

/-- The descriptors that `Socksfd_Add` is given are new. -/
theorem add_descriptors {node : Ptr} {c : Socks} (h : s.next (.add node c) = some s') :
    c.tcp ∉ s.descriptors ∧ c.udp ∉ s.descriptors ∧ c.tcp ≠ c.udp := by
  simp only [Connections.next] at h
  split at h
  · next hc => exact hc.2
  · cases h

theorem sockets_init (descriptors : List (BitVec 32)) :
    Sockets [] (Connections.init descriptors) where
  open_ := nofun
  own := nofun
  entries es he := by
    rw [Socksfd.entries_unique he Socksfd.entries_init]
    exact nofun

/-- **One call of a thread**: the sockets stay open. -/
theorem sockets_step (hinv : s.ConnInv) (h : Sockets udps s) (hs : s.next e = some s') :
    ∃ udps', udps ⊆ udps' ∧ Sockets udps' s' := by
  obtain ⟨hopen, hown, hentries⟩ := h
  obtain ⟨⟨es, he, -⟩, hused, -⟩ := hinv
  obtain ⟨node, c, sl, rfl, hfresh, -, hadd, rfl⟩ | ⟨c, sl, b, rfl, hc, hdel, rfl⟩ |
    ⟨c, rfl, hc, rfl⟩ := Connections.next_cases hs
  · obtain ⟨htcp, hudp, hne⟩ := add_descriptors hs
    obtain ⟨sl', hadd', he'⟩ := Socksfd.add_entries he hfresh c.address c.tcp c.udp
    cases hadd.symm.trans hadd'
    refine ⟨c.udp :: udps, List.subset_cons_self _ _, ?_, ?_, ?_⟩
    · intro u hu
      rcases List.mem_cons.mp hu with rfl | hu
      · exact List.mem_cons_of_mem _ List.mem_cons_self
      · exact List.mem_cons_of_mem _ (List.mem_cons_of_mem _ (hopen u hu))
    · intro d hd
      have hcases : d ∈ s.live ++ s.closing ∨ d = c := by
        simp only [List.mem_append, List.mem_singleton] at hd ⊢
        tauto
      rcases hcases with hd | rfl
      · obtain ⟨hdu, hdt⟩ := hown d hd
        refine ⟨List.mem_cons_of_mem _ hdu, fun hm => ?_⟩
        rcases List.mem_cons.mp hm with heq | hm
        · exact hudp (heq ▸ hused d hd)
        · exact hdt hm
      · refine ⟨List.mem_cons_self, fun hm => ?_⟩
        rcases List.mem_cons.mp hm with heq | hm
        · exact hne heq
        · exact htcp (hopen _ hm)
    · intro es' hes' x hx
      rw [Socksfd.entries_unique hes' he'] at hx
      rcases List.mem_append.mp hx with hx | hx
      · exact List.mem_cons_of_mem _ (hentries es he x hx)
      · rw [List.mem_singleton.mp hx]
        exact List.mem_cons_self
  · have hne : es ≠ [] := by
      rintro rfl
      rw [Socksfd.delete_null he] at hdel
      cases hdel
    obtain ⟨sl', b', hdel', he', -⟩ := Socksfd.delete_entries he hne c.address
    cases hdel.symm.trans hdel'
    refine ⟨udps, List.Subset.refl _, hopen, ?_, ?_⟩
    · intro d hd
      refine hown d ?_
      rcases List.mem_append.mp hd with hd | hd
      · exact List.mem_append_left _ (List.mem_of_mem_erase hd)
      · rcases List.mem_cons.mp hd with rfl | hd
        · exact List.mem_append_left _ hc
        · exact List.mem_append_right _ hd
    · intro es' hes' x hx
      rw [Socksfd.entries_unique hes' he'] at hx
      exact hentries es he x (List.mem_of_mem_eraseP hx)
  · refine ⟨udps, List.Subset.refl _, ?_, ?_, hentries⟩
    · -- the socket that is closed is a tcp socket
      intro u hu
      have hne : u ≠ c.tcp := fun heq =>
        (hown c (List.mem_append_right _ hc)).2 (heq ▸ hu)
      exact (List.mem_erase_of_ne hne).mpr (hopen u hu)
    · intro d hd
      refine hown d ?_
      rcases List.mem_append.mp hd with hd | hd
      · exact List.mem_append_left _ hd
      · exact List.mem_append_right _ (List.mem_of_mem_erase hd)

end Sockets

/-! ## 5. Every run -/

/-- The driver and its user are in a state of their own runs, and the sockets that datagrams went out
    on are open. -/
structure StationInv (σ : Setting) (s : Station) : Prop where
  sys : s.sys.Reachable σ
  conns : s.conns.ConnInv
  sockets : ∃ udps, Sockets udps s.conns ∧ ∀ d ∈ s.datagrams, d.udp ∈ udps

section Runs

variable {σ : Setting} {s s' : Station} {e : StationEvent} {a : BitVec 32}

theorem system_next_reachable {s s' : System} {e : SysEvent} (h : s.Reachable σ)
    (hs : s.next σ e = some s') : s'.Reachable σ := by
  obtain ⟨dataspace, hr⟩ := h
  exact ⟨dataspace, hr.tail ⟨e, hs⟩⟩

/-- The walk visits as many entries of an address as there are live connections to it. -/
theorem walk_listeners (h : s.conns.ConnInv) {entries : List Socks}
    (hrun : s.conns.socksTemp.runFuc = some entries) :
    s.conns.socksTemp.Entries entries ∧ (entries.map Socks.address).count a = s.listeners a := by
  obtain ⟨⟨es, he, hperm⟩, -, -⟩ := h
  cases hrun.symm.trans (Socksfd.runFuc_entries he)
  exact ⟨he, hperm.count_eq a⟩

theorem stationInv_step (s : Station) (e : StationEvent) (s' : Station) (h : StationInv σ s)
    (hs : s.next σ e = some s') : StationInv σ s' := by
  obtain ⟨hsys, hconns, udps, hsock, hdata⟩ := h
  obtain ⟨e', sys, hnext, -, rfl⟩ | ⟨tag, count, slot, entries, sys, -, hrun, hnext, rfl⟩ |
    ⟨e', conns, -, hnext, rfl⟩ := station_cases hs
  · exact ⟨system_next_reachable hsys hnext, hconns, udps, hsock, hdata⟩
  · refine ⟨system_next_reachable hsys hnext, hconns, udps, hsock, fun d hd => ?_⟩
    rcases List.mem_append.mp hd with hd | hd
    · exact hdata d hd
    · rw [runSend_eq] at hd
      obtain ⟨p, hp, rfl⟩ := List.mem_map.mp hd
      exact hsock.entries entries (walk_listeners (a := 0) hconns hrun).1 p hp
  · obtain ⟨udps', hsub, hsock'⟩ := sockets_step hconns hsock hnext
    exact ⟨hsys, Connections.connInv_step _ _ _ hconns hnext, udps', hsock',
      fun d hd => hsub (hdata d hd)⟩

theorem stationInv_reachable (h : s.Reachable σ) : StationInv σ s := by
  obtain ⟨dataspace, descriptors, es, hr⟩ := h
  refine runs_inv stationInv_step ?_ hr
  exact ⟨⟨dataspace, .refl⟩, Connections.connInv_init descriptors, [], sockets_init descriptors,
    nofun⟩

/-- **One step**: either nothing is forwarded and nothing sent, or one frame is, to each device once
    for each of its live connections. -/
theorem station_step (h : s.conns.ConnInv) (hs : s.next σ e = some s') (a : BitVec 32) :
    ∃ fs, s'.sys.forwarded = s.sys.forwarded ++ fs ∧
      s'.received a = s.received a ++
        fs.flatMap fun f => List.replicate (s.listeners a) (clearFirst f).payload := by
  obtain ⟨e', sys, -, hfor, rfl⟩ | ⟨tag, count, slot, entries, sys, hu, hrun, hnext, rfl⟩ |
    ⟨e', conns, -, -, rfl⟩ := station_cases hs
  · exact ⟨[], hfor.trans (List.append_nil _).symm, (List.append_nil _).symm⟩
  · refine ⟨[s.sys.d.q.dataspace slot], forward_forwarded hu hnext, ?_⟩
    rw [Station.received, List.filter_append, List.map_append, runSend_to,
      (walk_listeners h hrun).2, List.flatMap_singleton]
    rfl
  · exact ⟨[], (List.append_nil _).symm, (List.append_nil _).symm⟩

/-- A part of a run in which the device keeps its number of live connections. -/
theorem station_run (h : StationInv σ s) {es : List StationEvent}
    (hr : Runs (Station.next σ) s es s') {n : Nat}
    (hn : Always (Station.next σ) (fun s => s.listeners a = n) s es) :
    ∃ fs, s'.sys.forwarded = s.sys.forwarded ++ fs ∧
      s'.received a =
        s.received a ++ fs.flatMap fun f => List.replicate n (clearFirst f).payload := by
  induction es generalizing s with
  | nil =>
    cases hr
    exact ⟨[], (List.append_nil _).symm, (List.append_nil _).symm⟩
  | cons e es ih =>
    obtain ⟨t, ht, hr⟩ := hr
    obtain ⟨fs, hfor, hrec⟩ := station_step h.conns ht a
    obtain ⟨gs, hfor', hrec'⟩ := ih (stationInv_step s e t h ht) hr (hn.2 t ht)
    refine ⟨fs ++ gs, by rw [hfor', hfor, List.append_assoc], ?_⟩
    rw [hrec', hrec, hn.1, List.append_assoc, List.flatMap_append]

/-- **From the queue to the devices.** In one session, over any part of a run in which a device keeps
    `n` live connections, whatever the other threads do and whichever entries their deletions have
    taken: it is sent the frames forwarded in that part, which are the next ones that the driver has
    stored, each of them `n` times, in order, whole but for the cleared first byte, and nothing else.
    All datagrams ever sent went out on sockets that are still open. -/
theorem broadcast (hσ : σ.quits = false) (h : s.Reachable σ) {es : List StationEvent}
    (hr : Runs (Station.next σ) s es s') (a : BitVec 32) (n : Nat)
    (hn : Always (Station.next σ) (fun s => s.listeners a = n) s es) :
    s'.received a = s.received a ++
        (((s'.sys.d.stored.take s'.sys.forwarded.length).drop s.sys.forwarded.length).flatMap
          fun f => List.replicate n (clearFirst f).payload) ∧
      ∀ d ∈ s'.datagrams, d.udp ∈ s'.conns.descriptors := by
  have hinv := stationInv_reachable h
  have hinv' : StationInv σ s' := runs_inv stationInv_step hinv hr
  obtain ⟨fs, hfor, hrec⟩ := station_run hinv hr hn
  obtain ⟨w, hw, hsim⟩ := sim_reachable hσ hinv'.sys
  have hpre : s'.sys.d.stored.take s'.sys.forwarded.length = s'.sys.forwarded := by
    rw [hsim.user.forwarded, hsim.stored]
    exact ((window_inv hw).moved).symm
  obtain ⟨udps, hsock, hdata⟩ := hinv'.sockets
  refine ⟨?_, fun d hd => hsock.open_ _ (hdata d hd)⟩
  rw [hpre, hfor, List.drop_left]
  exact hrec

/-- While no `connectTcp` thread makes a call, the live connections stay. -/
theorem listeners_kept {es : List StationEvent} (hes : ∀ e ∈ es, ∀ t, e ≠ .thread t) {n : Nat}
    (hn : s.listeners a = n) :
    Always (Station.next σ) (fun s => s.listeners a = n) s es := by
  induction es generalizing s with
  | nil => exact hn
  | cons e es ih =>
    refine ⟨hn, fun t ht => ih (fun e' he' => hes e' (List.mem_cons_of_mem _ he')) ?_⟩
    obtain ⟨e', sys, -, -, rfl⟩ | ⟨tag, count, slot, entries, sys, -, -, -, rfl⟩ |
      ⟨e', conns, rfl, -, rfl⟩ := station_cases ht
    · exact hn
    · exact hn
    · exact absurd rfl (hes _ List.mem_cons_self e')

end Runs

/-- The user's `forward` walks over the list. -/
def StationEvent.ofSys : SysEvent → StationEvent
  | .forward _ => .forward
  | e => .sys e

/-- Two connections of one device. -/
def twoAdded : List StationEvent :=
  [.thread (.add 1 Connections.firstConn), .thread (.add 2 Connections.secondConn)]

theorem broadcast_twoConnections :
    ∃ s s', Runs (Station.next .single) s (secondForward.map .ofSys) s' ∧
      s.received 0x0a00a8c0#32 = [] ∧
      s'.received 0x0a00a8c0#32 = [[0, 1], [0, 1], [0, 2], [0, 2]] ∧
      s'.received 0x0a00a8c0#32 = s.received 0x0a00a8c0#32 ++
        (((s'.sys.d.stored.take s'.sys.forwarded.length).drop s.sys.forwarded.length).flatMap
          fun f => List.replicate 2 (clearFirst f).payload) ∧
      ∀ d ∈ s'.datagrams, d.udp ∈ s'.conns.descriptors := by
  obtain ⟨s, s', hadd, htwo, hnone, hrun, hlen⟩ : ∃ s s',
      twoAdded.foldlM (Station.next .single) (Station.init (fun _ => emptyFrame) [0#32]) = some s ∧
      s.listeners 0x0a00a8c0#32 = 2 ∧ s.received 0x0a00a8c0#32 = [] ∧
      (secondForward.map StationEvent.ofSys).foldlM (Station.next .single) s = some s' ∧
      s'.received 0x0a00a8c0#32 = [[0, 1], [0, 1], [0, 2], [0, 2]] :=
    ⟨_, _, rfl, rfl, rfl, rfl, rfl⟩
  have hno : ∀ e ∈ secondForward.map StationEvent.ofSys, ∀ t, e ≠ .thread t := by
    intro e he t
    obtain ⟨e', -, rfl⟩ := List.mem_map.mp he
    cases e' <;> exact nofun
  have hs : s.Reachable .single :=
    ⟨fun _ => emptyFrame, [0#32], twoAdded, runs_of_foldlM hadd⟩
  exact ⟨s, s', runs_of_foldlM hrun, hnone, hlen,
    broadcast rfl hs (runs_of_foldlM hrun) 0x0a00a8c0#32 2 (listeners_kept hno htwo)⟩

end WifiOsc
