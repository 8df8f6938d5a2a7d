/-
  File:      WifiOsc/User/Linklist.lean
  Subject:   THE SOCKET LIST of the user program (LINUX/package/dso_mthread/src/Linklist.c, .h): its
             nodes in a heap, its loops, and the list of entries it stands for.

  A call runs under the list's write or read lock, so it is one step. `none` is a null or dangling
  pointer that is followed. A walk is cut off after as many nodes as are allocated: one that goes on
  is going in circles (`Entries` excludes it). `malloc` returns a pointer that is not in use.

  * `Socksfd.add`, `delete`, `getLen`, `runFuc`: the functions;
  * `Entries`: the structure holds these entries, in order, and no other node is allocated;
  * `add_entries`, `delete_entries`, `getLen_entries`, `runFuc_entries`: each function on it;
    `delete_null`: `Socksfd_Delete` follows the null pointer of an empty list.
-/
import WifiOsc.Basis.Chain
import Mathlib.Data.BitVec

namespace WifiOsc

open Basis

/-! ## 1. The structure and its functions -/

/-- A pointer that is not null. -/
abbrev Ptr := Nat

/-- `socks`. -/
structure Socks where
  udp : BitVec 32
  tcp : BitVec 32
  address : BitVec 32
  deriving DecidableEq, Repr

/-- `socksfd_node`. -/
structure SocksfdNode where
  dataspace : Socks
  next : Option Ptr
  deriving DecidableEq, Repr

/-- `socksfd` without its lock, the nodes in the heap, and how many there are. -/
structure Socksfd where
  first : Option Ptr
  cells : Ptr → Option SocksfdNode
  used : Nat

namespace Socksfd

/-- `Socksfd_Init`; `first` is `begin`. -/
def init : Socksfd := ⟨none, fun _ => none, 0⟩

/-- `while(NULL != pos->next) pos = pos->next;` from `pos`. -/
def lastFrom (cells : Ptr → Option SocksfdNode) : Nat → Ptr → Option Ptr
  | 0, _ => none
  | n + 1, pos =>
      match cells pos with
      | none => none
      | some c =>
          match c.next with
          | none => some pos
          | some q => lastFrom cells n q

/-- `Socksfd_Add`, with `node` what `malloc` returns. -/
def add (sl : Socksfd) (node : Ptr) (ip tcp udp : BitVec 32) : Option Socksfd :=
  let fresh : SocksfdNode := ⟨⟨udp, tcp, ip⟩, none⟩
  match sl.first with
  | none => some ⟨some node, Function.update sl.cells node (some fresh), sl.used + 1⟩
  | some b =>
      match lastFrom sl.cells sl.used b with
      | none => none
      | some pos =>
          (sl.cells pos).map fun c =>
            ⟨some b,
              Function.update (Function.update sl.cells node (some fresh)) pos
                (some { c with next := some node }),
              sl.used + 1⟩

/-- The loop of `Socksfd_Delete`, from `pos`, which follows `head`. -/
def deleteFrom (sl : Socksfd) (ip : BitVec 32) : Nat → Ptr → Option Ptr → Option (Socksfd × Bool)
  | _, _, none => some (sl, false)
  | 0, _, some _ => none
  | n + 1, head, some pos =>
      match sl.cells pos, sl.cells head with
      | some c, some h =>
          if c.dataspace.address = ip then
            some (⟨sl.first,
              Function.update (Function.update sl.cells head (some { h with next := c.next })) pos
                none,
              sl.used - 1⟩, true)
          else deleteFrom sl ip n pos c.next
      | _, _ => none

/-- `Socksfd_Delete`. The first node is looked at before anything is compared with null. -/
def delete (sl : Socksfd) (ip : BitVec 32) : Option (Socksfd × Bool) :=
  match sl.first with
  | none => none
  | some pos =>
      match sl.cells pos with
      | none => none
      | some c =>
          if c.dataspace.address = ip then
            some (⟨c.next, Function.update sl.cells pos none, sl.used - 1⟩, true)
          else deleteFrom sl ip sl.used pos c.next

/-- The data of the nodes that a loop `while(NULL != pos)` visits. -/
def walk (cells : Ptr → Option SocksfdNode) : Nat → Option Ptr → Option (List Socks)
  | _, none => some []
  | 0, some _ => none
  | n + 1, some pos =>
      match cells pos with
      | none => none
      | some c => (walk cells n c.next).map (c.dataspace :: ·)

/-- `Socksfd_RunFuc`: what `func` is called with, in order. -/
def runFuc (sl : Socksfd) : Option (List Socks) := walk sl.cells sl.used sl.first

/-- `Socksfd_GetLen`. -/
def getLen (sl : Socksfd) : Option Nat := (walk sl.cells sl.used sl.first).map List.length

/-! ## 2. The entries it stands for -/

/-- `sl` holds the entries `es`, and nothing else is allocated. -/
def Entries (sl : Socksfd) (es : List Socks) : Prop :=
  ∃ l : List (Ptr × SocksfdNode), Chain SocksfdNode.next sl.cells sl.first l ∧
    l.map (fun a => a.2.dataspace) = es ∧ l.length = sl.used

theorem entries_init : init.Entries [] := ⟨[], rfl, rfl, rfl⟩

section Functions

variable {sl : Socksfd} {es es' : List Socks} {cells : Ptr → Option SocksfdNode}

/-- A structure holds one list of entries. -/
theorem entries_unique (h : sl.Entries es) (h' : sl.Entries es') : es = es' := by
  obtain ⟨l, hc, rfl, _⟩ := h
  obtain ⟨l', hc', rfl, _⟩ := h'
  rw [chain_unique hc hc']

theorem walk_chain {p : Option Ptr} {l : List (Ptr × SocksfdNode)} {n : Nat}
    (h : Chain SocksfdNode.next cells p l) (hn : l.length ≤ n) :
    walk cells n p = some (l.map fun a => a.2.dataspace) := by
  induction l generalizing p n with
  | nil =>
    cases h
    cases n <;> rfl
  | cons a l ih =>
    obtain ⟨q, c⟩ := a
    obtain ⟨rfl, hc, ht⟩ := h
    obtain ⟨n, rfl⟩ := Nat.exists_eq_add_of_le' hn
    have hrest := ih ht (n := n + l.length) (Nat.le_add_left _ _)
    rw [List.length_cons, ← Nat.add_assoc, walk, hc]
    simp only [hrest]
    rfl

/-- **`Socksfd_RunFuc` visits every entry once, in order.** -/
theorem runFuc_entries (h : sl.Entries es) : sl.runFuc = some es := by
  obtain ⟨l, hc, rfl, hu⟩ := h
  exact walk_chain hc (Nat.le_of_eq hu)

theorem getLen_entries (h : sl.Entries es) : sl.getLen = some es.length := by
  obtain ⟨l, hc, rfl, hu⟩ := h
  rw [getLen, walk_chain hc (Nat.le_of_eq hu)]
  rfl

theorem lastFrom_chain {b : Ptr} {l : List (Ptr × SocksfdNode)} {q : Ptr} {c : SocksfdNode}
    {n : Nat} (h : Chain SocksfdNode.next cells (some b) (l ++ [(q, c)])) (hn : l.length < n) :
    lastFrom cells n b = some q := by
  induction l generalizing b n with
  | nil =>
    obtain ⟨hb, hq, hnull⟩ := h
    cases hb
    obtain ⟨n, rfl⟩ := Nat.exists_eq_add_of_lt hn
    have hnull' : c.next = none := hnull
    rw [lastFrom, hq]
    simp only [hnull']
  | cons a l ih =>
    obtain ⟨q', c'⟩ := a
    obtain ⟨hb, hq', ht⟩ := h
    cases hb
    obtain ⟨n, rfl⟩ := Nat.exists_eq_add_of_lt hn
    rw [lastFrom, hq']
    -- the cell is not the last one: its pointer is the next cell's
    cases hnext : c'.next with
    | none =>
      rw [hnext] at ht
      have hnil := chain_none ht
      exact absurd hnil (List.append_ne_nil_of_right_ne_nil _ (List.cons_ne_nil _ _))
    | some r =>
      rw [hnext] at ht
      simp only [hnext]
      exact ih ht (by simp only [List.length_cons]; omega)

/-- **`Socksfd_Add` appends an entry.** -/
theorem add_entries (h : sl.Entries es) {node : Ptr} (hfresh : sl.cells node = none)
    (ip tcp udp : BitVec 32) :
    ∃ sl', sl.add node ip tcp udp = some sl' ∧ sl'.Entries (es ++ [⟨udp, tcp, ip⟩]) := by
  obtain ⟨l, hc, rfl, hu⟩ := h
  rcases List.eq_nil_or_concat' l with rfl | ⟨l, ⟨q, c⟩, rfl⟩
  · have hnull : sl.first = none := hc
    refine ⟨_, by rw [add, hnull], [(node, ⟨⟨udp, tcp, ip⟩, none⟩)], ⟨rfl, ?_, rfl⟩, rfl, ?_⟩
    · exact Function.update_self _ _ _
    · rw [← hu]
      rfl
  · obtain ⟨b, hb⟩ : ∃ b, sl.first = some b := by
      cases hb : sl.first with
      | none =>
        rw [hb] at hc
        exact absurd (chain_none hc)
          (List.append_ne_nil_of_right_ne_nil _ (List.cons_ne_nil _ _))
      | some b => exact ⟨b, rfl⟩
    rw [hb] at hc
    have hlast := lastFrom_chain hc (n := sl.used) (by
      rw [← hu, List.length_append]
      exact Nat.lt_succ_self _)
    have hcell := chain_mem hc (a := (q, c)) (by simp)
    refine ⟨_, by rw [add, hb]; simp only [hlast, hcell]; rfl,
      l ++ [(q, { c with next := some node }), (node, ⟨⟨udp, tcp, ip⟩, none⟩)],
      chain_link hc hfresh rfl rfl, ?_, ?_⟩
    · simp
    · simp only [List.length_append, List.length_cons, List.length_nil] at hu ⊢
      omega

theorem deleteFrom_chain {ip : BitVec 32} {l₁ l₂ : List (Ptr × SocksfdNode)} {q : Ptr}
    {c : SocksfdNode} {n : Nat}
    (h : Chain SocksfdNode.next sl.cells sl.first (l₁ ++ (q, c) :: l₂))
    (hu : l₁.length + 1 + l₂.length = sl.used) (hn : l₂.length ≤ n) :
    ∃ sl' b, sl.deleteFrom ip n q c.next = some (sl', b) ∧
      sl'.Entries ((l₁ ++ [(q, c)]).map (fun a => a.2.dataspace) ++
        (l₂.map fun a => a.2.dataspace).eraseP (fun x => x.address = ip)) ∧
      (b = true ↔ ∃ x ∈ l₂.map fun a => a.2.dataspace, x.address = ip) := by
  induction l₂ generalizing l₁ q c n with
  | nil =>
    obtain ⟨_, _, _, _, hnull⟩ := chain_append.mp h
    have hnull' : c.next = none := hnull
    refine ⟨sl, false, by rw [hnull', deleteFrom], ⟨l₁ ++ [(q, c)], h, by simp, ?_⟩, by simp⟩
    simpa using hu
  | cons a l₂ ih =>
    obtain ⟨r, m⟩ := a
    obtain ⟨n, rfl⟩ := Nat.exists_eq_add_of_le' hn
    have hq := (chain_drop h).1
    have hsplit : Chain SocksfdNode.next sl.cells sl.first ((l₁ ++ [(q, c)]) ++ (r, m) :: l₂) := by
      simpa using h
    obtain ⟨hr, _⟩ := chain_drop hsplit
    have hnext : c.next = some r := by
      obtain ⟨_, _, _, _, hrest⟩ := chain_append.mp h
      exact hrest.1
    rw [hnext, List.length_cons, ← Nat.add_assoc]
    simp only [deleteFrom, hr, hq]
    by_cases hip : m.dataspace.address = ip
    · rw [if_pos hip]
      refine ⟨_, _, rfl, ⟨l₁ ++ (q, { c with next := m.next }) :: l₂, chain_unlink h rfl, ?_, ?_⟩,
        ?_⟩
      · simp [hip]
      · simp only [List.length_append, List.length_cons] at hu ⊢
        omega
      · exact iff_of_true rfl ⟨m.dataspace, by simp, hip⟩
    · rw [if_neg hip]
      have h' : Chain SocksfdNode.next sl.cells sl.first ((l₁ ++ [(q, c)]) ++ (r, m) :: l₂) := by
        simpa using h
      obtain ⟨sl', b, hd, he, hb⟩ := ih (n := n + l₂.length) h' (by
        simp only [List.length_append, List.length_cons, List.length_nil] at hu ⊢
        omega) (Nat.le_add_left _ _)
      refine ⟨sl', b, hd, ?_, ?_⟩
      · simpa [hip] using he
      · rw [hb]
        simp [hip]

/-- **`Socksfd_Delete` removes the first entry with the address**, and says whether there was one. -/
theorem delete_entries (h : sl.Entries es) (hne : es ≠ []) (ip : BitVec 32) :
    ∃ sl' b, sl.delete ip = some (sl', b) ∧
      sl'.Entries (es.eraseP fun x => x.address = ip) ∧
      (b = true ↔ ∃ x ∈ es, x.address = ip) := by
  obtain ⟨l, hc, rfl, hu⟩ := h
  cases l with
  | nil => exact absurd rfl hne
  | cons a l =>
    obtain ⟨q, c⟩ := a
    obtain ⟨hfirst, hq, hrest⟩ := id hc
    simp only [delete, hfirst, hq]
    by_cases hip : c.dataspace.address = ip
    · rw [if_pos hip]
      refine ⟨_, _, rfl, ⟨l, chain_congr hrest fun q' hq' => ?_, by simp [hip], ?_⟩, ?_⟩
      · refine Function.update_of_ne ?_ _ _
        rintro rfl
        exact (List.nodup_cons.mp (chain_nodup hc)).1 hq'
      · rw [← hu]
        rfl
      · exact iff_of_true rfl ⟨c.dataspace, by simp, hip⟩
    · rw [if_neg hip]
      have hu' : 0 + 1 + l.length = sl.used := by
        rw [← hu, List.length_cons]
        omega
      obtain ⟨sl', b, hd, he, hb⟩ := @deleteFrom_chain sl ip [] l q c sl.used hc hu' (by omega)
      refine ⟨sl', b, hd, ?_, ?_⟩
      · simpa [hip] using he
      · rw [hb]
        simp [hip]

/-- On the empty list it follows the null pointer. -/
theorem delete_null (h : sl.Entries []) (ip : BitVec 32) : sl.delete ip = none := by
  obtain ⟨l, hc, hl, _⟩ := h
  cases l with
  | nil =>
    have hnull : sl.first = none := hc
    rw [delete, hnull]
  | cons a l => cases hl

end Functions

end Socksfd

end WifiOsc
