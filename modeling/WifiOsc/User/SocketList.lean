/-
  File:      WifiOsc/User/SocketList.lean
  Subject:   THE SOCKET LIST AS A LIST. Any sequence of calls of the functions of Linklist.c after
             `Socksfd_Init`, against a plain list of entries.

  * `Socksfd.call`: a call and what it returns;
  * `entryList`: what each call is for;
  * `socks_refines`: one call; the only one that fails is `Socksfd_Delete` on the empty list;
  * `socks_refine_iff`: whole sequences.
-/
import WifiOsc.Basis.Refinement
import WifiOsc.User.Linklist

namespace WifiOsc

open Basis

/-- A call; `node` is what `malloc` returns in it. -/
inductive SocksCall where
  | add (node : Ptr) (ip tcp udp : BitVec 32)
  | delete (ip : BitVec 32)
  | getLen
  | runFuc

/-- What a call returns; for `Socksfd_RunFuc`, what it has called `func` with. -/
inductive SocksAnswer where
  | added
  | deleted (result : Bool)
  | length (len : Nat)
  | visited (es : List Socks)
  deriving DecidableEq, Repr

namespace Socksfd

def call (sl : Socksfd) : SocksCall → Option (Socksfd × List SocksAnswer)
  | .add node ip tcp udp => (sl.add node ip tcp udp).map fun sl' => (sl', [.added])
  | .delete ip => (sl.delete ip).map fun r => (r.1, [.deleted r.2])
  | .getLen => sl.getLen.map fun n => (sl, [.length n])
  | .runFuc => sl.runFuc.map fun es => (sl, [.visited es])

/-- `malloc` returns a pointer that is not in use. -/
def Mallocs (sl : Socksfd) : SocksCall → Prop
  | .add node _ _ _ => sl.cells node = none
  | .delete _ | .getLen | .runFuc => True

end Socksfd

/-- The list of entries that the socket list stands for. -/
def entryList : Machine (List Socks) SocksCall SocksAnswer where
  step es
    | .add _ ip tcp udp => es ++ [⟨udp, tcp, ip⟩]
    | .delete ip => es.eraseP fun x => x.address = ip
    | .getLen | .runFuc => es
  out es
    | .add _ _ _ _ => [.added]
    | .delete ip => [.deleted (es.any fun x => x.address = ip)]
    | .getLen => [.length es.length]
    | .runFuc => [.visited es]

/-- A deletion finds at least one entry, of whatever address. -/
def NotFromEmpty (es : List Socks) : SocksCall → Prop
  | .delete _ => es ≠ []
  | .add _ _ _ _ | .getLen | .runFuc => True

/-- **One call.** -/
theorem socks_refines :
    Refines Socksfd.call entryList Socksfd.Entries Socksfd.Mallocs NotFromEmpty := by
  constructor
  · intro sl es c h hm hne
    cases c with
    | add node ip tcp udp =>
      obtain ⟨sl', hadd, h'⟩ := Socksfd.add_entries h hm ip tcp udp
      exact ⟨sl', by simp only [Socksfd.call, hadd]; rfl, h'⟩
    | delete ip =>
      obtain ⟨sl', b, hdel, h', hb⟩ := Socksfd.delete_entries h hne ip
      have hany : b = es.any fun x => x.address = ip := by
        rw [Bool.eq_iff_iff, hb, List.any_eq_true]
        simp only [decide_eq_true_eq]
      exact ⟨sl', by simp only [Socksfd.call, hdel, hany]; rfl, h'⟩
    | getLen => exact ⟨sl, by simp only [Socksfd.call, Socksfd.getLen_entries h]; rfl, h⟩
    | runFuc => exact ⟨sl, by simp only [Socksfd.call, Socksfd.runFuc_entries h]; rfl, h⟩
  · intro sl es c h _ hempty
    cases c with
    | delete ip =>
      have hnil : es = [] := Classical.not_not.mp hempty
      have hnull := Socksfd.delete_null (hnil ▸ h) ip
      simp only [Socksfd.call, hnull, Option.map_none]
    | add _ _ _ _ | getLen | runFuc => exact absurd trivial hempty

/-- **Exactly when the structure is the list**: after any calls it has answered as the list and
    holds its entries if and only if no deletion has met the empty list. -/
theorem socks_refine_iff (cs : List SocksCall)
    (hm : Allowed Socksfd.call Socksfd.Mallocs .init cs) :
    (∃ sl, callAll Socksfd.call .init cs = some (sl, entryList.log [] cs) ∧
      sl.Entries (entryList.run [] cs)) ↔ entryList.Throughout NotFromEmpty [] cs :=
  socks_refines.callAll_iff Socksfd.entries_init hm

/-- Two entries of one address, of which the first is deleted. -/
theorem socks_refine_twice : ∃ sl,
    callAll Socksfd.call .init
        [.add 0 7#32 1#32 2#32, .add 1 7#32 3#32 4#32, .delete 7#32, .runFuc] =
      some (sl, [.added, .added, .deleted true, .visited [⟨4#32, 3#32, 7#32⟩]]) := by
  have hm : Allowed Socksfd.call Socksfd.Mallocs .init
      [.add 0 7#32 1#32 2#32, .add 1 7#32 3#32 4#32, .delete 7#32, .runFuc] := by
    refine ⟨rfl, fun s o h => ?_⟩
    cases h
    refine ⟨rfl, fun s o h => ?_⟩
    cases h
    exact ⟨trivial, fun s o _ => ⟨trivial, fun s o _ => trivial⟩⟩
  obtain ⟨sl, hcalls, _⟩ := (socks_refine_iff _ hm).mpr
    ⟨trivial, trivial, List.cons_ne_nil _ _, trivial, trivial⟩
  exact ⟨sl, hcalls⟩

/-- A deletion from the empty list should return false, and follows the null pointer. -/
theorem delete_empty_fails :
    Allowed Socksfd.call Socksfd.Mallocs .init [.delete 7#32] ∧
      entryList.log [] [.delete 7#32] = [.deleted false] ∧
      callAll Socksfd.call .init [.delete 7#32] = none :=
  ⟨⟨trivial, fun _ _ _ => trivial⟩, rfl, rfl⟩

end WifiOsc
