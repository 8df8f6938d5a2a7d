/-
  File:      WifiOsc/User/Connections.lean
  Subject:   THE CONNECTIONS. Any number of `connectTcp` threads (LINUX/package/dso_mthread/src/
             mthread.c) over the socket list `socks_temp`, in any interleaving.

  A thread adds an entry with its own descriptors, later deletes by its address, and closes its tcp
  socket; the udp socket is never closed. `Socksfd_Delete` takes the first entry with the address,
  which is another connection's when an earlier one to the same address is still live.

  * `System.next`: one step of one thread;
  * `ConnInv`: what holds in every state: the addresses in the list are those of the live
    connections; `delete_finds`: so a deletion never meets an empty list;
  * `exact_step`: a step keeps list and connections together exactly when it is not the deletion by
    a later connection;
  * `exact_iff`: the same for whole runs.
-/
import Mathlib.Data.List.Perm.Basic
import WifiOsc.Basis.Machine
import WifiOsc.User.Linklist

namespace WifiOsc

open Basis

/-! ## 1. The threads -/

/-- The list, the connections between `Socksfd_Add` and `Socksfd_Delete` in the order of their adds,
    those between `Socksfd_Delete` and `close`, and the descriptors in use. A connection is its
    address and its descriptors. -/
structure Connections where
  socksTemp : Socksfd
  live : List Socks
  closing : List Socks
  descriptors : List (BitVec 32)

/-- One thread's next call. `node` is what `malloc` returns. -/
inductive ThreadEvent where
  | add (node : Ptr) (c : Socks)
  | delete (c : Socks)
  | close (c : Socks)

namespace Connections

def init (descriptors : List (BitVec 32)) : Connections := ⟨.init, [], [], descriptors⟩

/-- A call that can be made, and returns. The descriptors of a new connection are its own. -/
def next (s : Connections) : ThreadEvent → Option Connections
  | .add node c =>
      if s.socksTemp.cells node = none ∧ c.tcp ∉ s.descriptors ∧ c.udp ∉ s.descriptors ∧
          c.tcp ≠ c.udp then
        (s.socksTemp.add node c.address c.tcp c.udp).map fun sl =>
          { s with
            socksTemp := sl, live := s.live ++ [c]
            descriptors := c.tcp :: c.udp :: s.descriptors }
      else none
  | .delete c =>
      if c ∈ s.live then
        (s.socksTemp.delete c.address).map fun r =>
          { s with socksTemp := r.1, live := s.live.erase c, closing := c :: s.closing }
      else none
  | .close c =>
      if c ∈ s.closing then
        some { s with
          closing := s.closing.erase c, descriptors := s.descriptors.erase c.tcp }
      else none

/-- **List and connections agree**: one entry for each live connection, with its own data, in the
    order of the adds; a walk over the list visits these. -/
structure Exact (s : Connections) : Prop where
  entries : s.socksTemp.Entries s.live
  visits : s.socksTemp.runFuc = some s.live

/-- The deletion is by the first of the live connections to its address. -/
def FirstOfAddress (s : Connections) : ThreadEvent → Prop
  | .delete c => s.live.find? (fun d => d.address = c.address) = some c
  | .add _ _ | .close _ => True

/-! ## 2. What always holds -/

/-- The addresses in the list are those of the live connections, and no two connections that have
    not closed their tcp socket share it. -/
structure ConnInv (s : Connections) : Prop where
  addresses : ∃ es, s.socksTemp.Entries es ∧
    (es.map Socks.address).Perm (s.live.map Socks.address)
  used : ∀ c ∈ s.live ++ s.closing, c.tcp ∈ s.descriptors
  own : ((s.live ++ s.closing).map Socks.tcp).Nodup

section Lists

variable {α β : Type} [DecidableEq β]

theorem map_eraseP_eq (f : α → β) (l : List α) (b : β) :
    (l.eraseP fun x => f x = b).map f = (l.map f).erase b := by
  induction l with
  | nil => rfl
  | cons x l ih =>
    by_cases hx : f x = b
    · simp [hx]
    · simp [hx, ih]

variable [DecidableEq α]

theorem map_erase_perm (f : α → β) {l : List α} {x : α} (hx : x ∈ l) :
    ((l.erase x).map f).Perm ((l.map f).erase (f x)) := by
  have h := ((List.perm_cons_erase hx).map f).erase (f x)
  simpa using h.symm

omit [DecidableEq β] in
/-- Taking out the first element that meets `p` takes out `x` exactly when `x` is that element. -/
theorem eraseP_eq_erase_iff {p : α → Bool} {l : List α} {x : α} (hx : x ∈ l) (hp : p x = true)
    (hnd : l.Nodup) : l.eraseP p = l.erase x ↔ l.find? p = some x := by
  refine ⟨fun h => ?_, fun h => ?_⟩
  · cases hf : l.find? p with
    | none =>
      have hno := List.find?_eq_none.mp hf x hx
      exact absurd hp hno
    | some y =>
      obtain ⟨hy, l₁, l₂, hl, hno⟩ := List.find?_eq_some_iff_append.mp hf
      by_cases hxy : y = x
      · rw [hxy]
      · -- `y` is taken out on the left and kept on the right
        have hmem : y ∈ l.erase x := by
          rw [List.mem_erase_of_ne hxy, hl]
          simp
        rw [← h, hl, List.eraseP_append_right _ (fun a ha => by simpa using hno a ha),
          List.eraseP_cons_of_pos hy] at hmem
        rw [hl, List.nodup_middle, List.nodup_cons] at hnd
        exact absurd hmem hnd.1
  · obtain ⟨_, l₁, l₂, hl, hno⟩ := List.find?_eq_some_iff_append.mp h
    have hx₁ : x ∉ l₁ := by
      intro hm
      have hf := hno x hm
      rw [hp] at hf
      cases hf
    rw [hl, List.eraseP_append_right _ (fun a ha => by simpa using hno a ha),
      List.eraseP_cons_of_pos hp, List.erase_append_right _ hx₁, List.erase_cons_head]

end Lists

section Step

variable {s s' : Connections} {e : ThreadEvent} {c : Socks}

/-- What one call does. -/
theorem next_cases (h : s.next e = some s') :
    (∃ node c sl, e = .add node c ∧ s.socksTemp.cells node = none ∧ c.tcp ∉ s.descriptors ∧
      s.socksTemp.add node c.address c.tcp c.udp = some sl ∧
      s' = { s with
        socksTemp := sl, live := s.live ++ [c]
        descriptors := c.tcp :: c.udp :: s.descriptors }) ∨
    (∃ c sl b, e = .delete c ∧ c ∈ s.live ∧ s.socksTemp.delete c.address = some (sl, b) ∧
      s' = { s with socksTemp := sl, live := s.live.erase c, closing := c :: s.closing }) ∨
    (∃ c, e = .close c ∧ c ∈ s.closing ∧
      s' = { s with
        closing := s.closing.erase c, descriptors := s.descriptors.erase c.tcp }) := by
  cases e with
  | add node c =>
    simp only [next] at h
    split at h
    · next hc =>
      obtain ⟨sl, hadd, he⟩ := Option.map_eq_some_iff.mp h
      exact Or.inl ⟨node, c, sl, rfl, hc.1, hc.2.1, hadd, he.symm⟩
    · cases h
  | delete c =>
    simp only [next] at h
    split at h
    · next hc =>
      obtain ⟨⟨sl, b⟩, hdel, he⟩ := Option.map_eq_some_iff.mp h
      exact Or.inr (Or.inl ⟨c, sl, b, rfl, hc, hdel, he.symm⟩)
    · cases h
  | close c =>
    simp only [next] at h
    split at h
    · next hc => exact Or.inr (Or.inr ⟨c, rfl, hc, (Option.some.inj h).symm⟩)
    · cases h

/-- **A live connection's deletion finds an entry**: the list is not empty. -/
theorem delete_finds (h : s.ConnInv) (hc : c ∈ s.live) :
    ∃ sl, s.socksTemp.delete c.address = some (sl, true) := by
  obtain ⟨⟨es, he, hperm⟩, _, _⟩ := h
  have hmem : c.address ∈ es.map Socks.address :=
    hperm.mem_iff.mpr (List.mem_map_of_mem hc)
  obtain ⟨x, hx, hxa⟩ := List.mem_map.mp hmem
  obtain ⟨sl, b, hdel, _, hb⟩ :=
    Socksfd.delete_entries he (List.ne_nil_of_mem hx) c.address
  rw [hb.mpr ⟨x, hx, hxa⟩] at hdel
  exact ⟨sl, hdel⟩

theorem connInv_step (s : Connections) (e : ThreadEvent) (s' : Connections) (h : s.ConnInv)
    (hs : s.next e = some s') : s'.ConnInv := by
  obtain ⟨⟨es, he, hperm⟩, hused, hown⟩ := h
  obtain ⟨node, c, sl, rfl, hfresh, hnew, hadd, rfl⟩ | ⟨c, sl, b, rfl, hc, hdel, rfl⟩ |
    ⟨c, rfl, hc, rfl⟩ := next_cases hs
  · obtain ⟨sl', hadd', he'⟩ := Socksfd.add_entries he hfresh c.address c.tcp c.udp
    cases hadd.symm.trans hadd'
    have hp : (s.live ++ [c] ++ s.closing).Perm (c :: (s.live ++ s.closing)) := by
      rw [List.append_assoc]
      exact List.perm_middle
    refine ⟨⟨_, he', ?_⟩, fun d hd => ?_, ?_⟩
    · rw [List.map_append, List.map_append]
      exact hperm.append (List.Perm.refl _)
    · rcases List.mem_cons.mp (hp.mem_iff.mp hd) with rfl | hd
      · exact List.mem_cons_self
      · exact List.mem_cons_of_mem _ (List.mem_cons_of_mem _ (hused d hd))
    · rw [(hp.map Socks.tcp).nodup_iff, List.map_cons, List.nodup_cons]
      refine ⟨fun hm => ?_, hown⟩
      obtain ⟨d, hd, hdt⟩ := List.mem_map.mp hm
      exact hnew (hdt ▸ hused d hd)
  · have hne : es ≠ [] := by
      rintro rfl
      rw [Socksfd.delete_null he] at hdel
      cases hdel
    obtain ⟨sl', b', hdel', he', _⟩ := Socksfd.delete_entries he hne c.address
    cases hdel.symm.trans hdel'
    have hp : (s.live.erase c ++ c :: s.closing).Perm (s.live ++ s.closing) :=
      List.perm_middle.trans ((List.perm_cons_erase hc).symm.append_right _)
    refine ⟨⟨_, he', ?_⟩, fun d hd => hused d (hp.mem_iff.mp hd), ?_⟩
    · rw [map_eraseP_eq]
      exact (hperm.erase c.address).trans (map_erase_perm Socks.address hc).symm
    · rwa [(hp.map Socks.tcp).nodup_iff]
  · have hp : (s.live ++ s.closing).Perm (c :: (s.live ++ s.closing.erase c)) :=
      ((List.perm_cons_erase hc).append_left _).trans List.perm_middle
    have hnd := ((hp.map Socks.tcp).nodup_iff).mp hown
    rw [List.map_cons, List.nodup_cons] at hnd
    refine ⟨⟨es, he, hperm⟩, fun d hd => ?_, hnd.2⟩
    have hdt : d.tcp ≠ c.tcp := fun ht => hnd.1 (ht ▸ List.mem_map_of_mem hd)
    exact (List.mem_erase_of_ne hdt).mpr
      (hused d (hp.mem_iff.mpr (List.mem_cons_of_mem c hd)))

theorem connInv_init (descriptors : List (BitVec 32)) : (init descriptors).ConnInv :=
  ⟨⟨[], Socksfd.entries_init, List.Perm.refl _⟩, nofun, List.nodup_nil⟩

theorem exact_of_entries (h : s.socksTemp.Entries s.live) : s.Exact :=
  ⟨h, Socksfd.runFuc_entries h⟩

theorem exact_init (descriptors : List (BitVec 32)) : (init descriptors).Exact :=
  exact_of_entries Socksfd.entries_init

/-! ## 3. When list and connections stay together -/

/-- **One call** keeps list and connections together exactly when it is not the deletion by a later
    connection to the address. -/
theorem exact_step (s : Connections) (e : ThreadEvent) (s' : Connections) (hinv : s.ConnInv)
    (h : s.Exact) (hs : s.next e = some s') : s'.Exact ↔ s.FirstOfAddress e := by
  have he := h.entries
  obtain ⟨node, c, sl, rfl, hfresh, _, hadd, rfl⟩ | ⟨c, sl, b, rfl, hc, hdel, rfl⟩ |
    ⟨c, rfl, hc, rfl⟩ := next_cases hs
  · obtain ⟨sl', hadd', he'⟩ := Socksfd.add_entries he hfresh c.address c.tcp c.udp
    cases hadd.symm.trans hadd'
    exact iff_of_true (exact_of_entries he') trivial
  · obtain ⟨sl', b', hdel', he', _⟩ :=
      Socksfd.delete_entries he (List.ne_nil_of_mem hc) c.address
    cases hdel.symm.trans hdel'
    have hnd : s.live.Nodup := by
      have hown := hinv.own
      rw [List.map_append, List.nodup_append] at hown
      exact hown.1.of_map
    have hfirst := eraseP_eq_erase_iff (p := fun d => d.address = c.address) hc (by simp) hnd
    refine Iff.trans ⟨fun hex => ?_, fun heq => ?_⟩ hfirst
    · exact Socksfd.entries_unique he' hex.entries
    · refine exact_of_entries ?_
      show sl.Entries (s.live.erase c)
      rw [← heq]
      exact he'
  · exact iff_of_true ⟨h.entries, h.visits⟩ trivial

/-- **List and connections agree at every moment of a run if and only if** each deletion is by the
    first of the connections to its address that are live then. -/
theorem exact_iff (descriptors : List (BitVec 32)) (es : List ThreadEvent) :
    Always next Exact (init descriptors) es ↔ Each next FirstOfAddress (init descriptors) es :=
  always_iff_each connInv_step exact_step (connInv_init descriptors) (exact_init descriptors)

/-- No deletion by a live connection follows a null pointer, in any run. -/
theorem delete_never_null (descriptors : List (BitVec 32)) (es : List ThreadEvent)
    (hr : Runs next (init descriptors) es s) (hc : c ∈ s.live) :
    ∃ sl, s.socksTemp.delete c.address = some (sl, true) :=
  delete_finds (runs_inv connInv_step (connInv_init descriptors) hr) hc

end Step

/-- Two connections to one address, the second of which ends first. -/
def firstConn : Socks := ⟨4#32, 3#32, 0x0a00a8c0#32⟩

def secondConn : Socks := ⟨6#32, 5#32, 0x0a00a8c0#32⟩

def secondEndsFirst : List ThreadEvent :=
  [.add 1 firstConn, .add 2 secondConn, .delete secondConn]

/-- **The wrong entry is taken**: the list is left with the entry of the connection that has ended,
    and the live one has none. -/
theorem secondEndsFirst_inexact :
    (∃ s, Runs next (init [0#32, 1#32, 2#32]) secondEndsFirst s ∧ s.live = [firstConn] ∧
      s.socksTemp.runFuc = some [secondConn]) ∧
    ¬ Always next Exact (init [0#32, 1#32, 2#32]) secondEndsFirst := by
  have hrun : ∃ s, Runs next (init [0#32, 1#32, 2#32]) secondEndsFirst s ∧
      s.live = [firstConn] ∧ s.socksTemp.runFuc = some [secondConn] :=
    ⟨_, ⟨_, rfl, _, rfl, _, rfl, rfl⟩, by decide, by decide⟩
  refine ⟨hrun, ?_⟩
  intro h
  obtain ⟨s, hr, hlive, hvisit⟩ := hrun
  have hex := (h.last hr).visits
  rw [hlive, hvisit] at hex
  revert hex
  decide

end Connections

end WifiOsc
