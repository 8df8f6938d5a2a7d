/-
  File:      WifiOsc/Basis/Window.lean
  Subject:   A WINDOW WITH CUMULATIVE ACKNOWLEDGEMENTS. One producer, one consumer, a log of any
             type that only grows; the producer runs ahead of the acknowledged position by at most
             `cap`. Positions count from the start of the log and never wrap. Nothing about a
             particular queue.

  The producer notes a position and sends it; the consumer takes a note as its goal, moves the log
  up to the goal, and sends back how far it has come; the producer settles these acknowledgements
  in the order they were sent.

  * `WindowStep`: the steps, in any order;
  * `Window.line`: all positions in play, from the settled one to the end of the log;
  * `sorted_line`: what a sorted line says about its parts;
  * `Window.Inv`, `window_inv`: the line is sorted in every reachable state, and what the consumer
    has moved is the beginning of the log.
-/
import WifiOsc.Basis.Machine
import Mathlib.Data.List.Sort

namespace Basis

variable {α : Type}

/-! ## 1. States and steps -/

structure Window (α : Type) where
  log : List α
  moved : List α
  /-- The acknowledged position that has been settled. -/
  settled : Nat
  /-- Acknowledgements on their way, oldest first. -/
  acks : List Nat
  /-- How far the consumer means to come. -/
  goal : Nat
  /-- Notes on their way, oldest first. -/
  notes : List Nat
  /-- The position the producer has noted. -/
  pos : Nat

namespace Window

def start : Window α := ⟨[], [], 0, [], 0, [], 0⟩

/-- All positions in play. -/
def line (w : Window α) : List Nat :=
  w.settled :: (w.acks ++ w.moved.length :: w.goal :: (w.notes ++ [w.pos, w.log.length]))

/-- The line is sorted, the window is kept, and what was moved is the beginning of the log. -/
structure Inv (cap : Nat) (w : Window α) : Prop where
  sorted : w.line.Pairwise (· ≤ ·)
  bound : w.log.length ≤ w.settled + cap
  moved : w.moved = w.log.take w.moved.length

end Window

/-- The steps of producer and consumer. -/
inductive WindowStep (cap : Nat) (w : Window α) : Window α → Prop where
  | note : WindowStep cap w { w with pos := w.log.length }
  | produce (x : α) (h : w.log.length < w.settled + cap) :
      WindowStep cap w { w with log := w.log ++ [x] }
  | send : WindowStep cap w { w with notes := w.notes ++ [w.pos] }
  | take (p : Nat) (rest : List Nat) (h : w.notes = p :: rest) (hgoal : w.goal = w.moved.length) :
      WindowStep cap w { w with notes := rest, goal := p }
  | move (x : α) (h : w.moved.length < w.goal) (hx : w.log[w.moved.length]? = some x) :
      WindowStep cap w { w with moved := w.moved ++ [x] }
  | ack : WindowStep cap w { w with acks := w.acks ++ [w.moved.length] }
  | settle (p : Nat) (rest : List Nat) (h : w.acks = p :: rest) :
      WindowStep cap w { w with acks := rest, settled := p }

/-! ## 2. The sorted line -/

section Inv

variable {cap : Nat} {w w' : Window α}

theorem Window.inv_start : (Window.start : Window α).Inv cap where
  sorted := by simp [Window.line, Window.start]
  bound := Nat.zero_le _
  moved := rfl

/-- The sorted line, part by part. -/
theorem sorted_line : w.line.Pairwise (· ≤ ·) ↔
    w.acks.Pairwise (· ≤ ·) ∧ w.notes.Pairwise (· ≤ ·) ∧
      (∀ a ∈ w.acks, w.settled ≤ a ∧ a ≤ w.moved.length) ∧ w.settled ≤ w.moved.length ∧
      w.moved.length ≤ w.goal ∧ (∀ p ∈ w.notes, w.goal ≤ p ∧ p ≤ w.pos) ∧ w.goal ≤ w.pos ∧
      w.pos ≤ w.log.length := by
  simp only [Window.line, List.pairwise_append, List.pairwise_cons, List.mem_append, List.mem_cons]
  constructor
  · rintro ⟨h1, ⟨h2, ⟨h3, h4, h5, ⟨h6, -⟩, h7⟩, h8⟩⟩
    exact ⟨h2, h5, fun a ha => ⟨h1 a (Or.inl ha), h8 a ha _ (Or.inl rfl)⟩,
      h1 _ (Or.inr (Or.inl rfl)), h3 _ (Or.inl rfl),
      fun p hp => ⟨h4 p (Or.inl hp), h7 p hp _ (Or.inl rfl)⟩, h4 _ (Or.inr (Or.inl rfl)),
      h6 _ (Or.inl rfl)⟩
  · rintro ⟨hacks, hnotes, hack, hset, hgoal, hnote, hpos, hlog⟩
    have hn : ∀ p, p ∈ w.notes ∨ p = w.pos ∨ p = w.log.length ∨ p ∈ [] → w.goal ≤ p := by
      grind
    have hm : ∀ p, p = w.goal ∨ p ∈ w.notes ∨ p = w.pos ∨ p = w.log.length ∨ p ∈ [] →
        w.moved.length ≤ p := by
      grind
    refine ⟨?_, hacks, ⟨hm, hn, hnotes, ?_, ?_⟩, ?_⟩ <;> grind

section Positions

variable {l : List Nat} {p lo hi : Nat}

/-- The last position is sent behind those under way. -/
theorem sorted_push (hl : l.Pairwise (· ≤ ·)) (hb : ∀ q ∈ l, lo ≤ q ∧ q ≤ hi) (h : lo ≤ hi) :
    (l ++ [hi]).Pairwise (· ≤ ·) ∧ ∀ q ∈ l ++ [hi], lo ≤ q ∧ q ≤ hi := by
  constructor
  · refine List.pairwise_append.mpr ⟨hl, List.pairwise_singleton _ _, ?_⟩
    intro q hq r hr
    rw [List.mem_singleton.mp hr]
    exact (hb q hq).2
  · intro q hq
    rcases List.mem_append.mp hq with hq | hq
    · exact hb q hq
    · rw [List.mem_singleton.mp hq]
      exact ⟨h, Nat.le_refl _⟩

/-- The first position under way arrives, and bounds the others. -/
theorem sorted_pop (hl : (p :: l).Pairwise (· ≤ ·)) (hb : ∀ q ∈ p :: l, lo ≤ q ∧ q ≤ hi) :
    l.Pairwise (· ≤ ·) ∧ (∀ q ∈ l, p ≤ q ∧ q ≤ hi) ∧ lo ≤ p ∧ p ≤ hi := by
  obtain ⟨hfirst, hrest⟩ := List.pairwise_cons.mp hl
  exact ⟨hrest, fun q hq => ⟨hfirst q hq, (hb q (List.mem_cons_of_mem _ hq)).2⟩,
    hb p List.mem_cons_self⟩

end Positions

/-- **One step**: a position moves along the line, or is noted or forgotten where it stands. -/
theorem windowStep_inv (h : w.Inv cap) (hs : WindowStep cap w w') : w'.Inv cap := by
  obtain ⟨hacks, hnotes, hack, hset, hgoal, hnote, hpos, hlog⟩ := sorted_line.mp h.sorted
  have hbound := h.bound
  have hmoved := h.moved
  cases hs with
  | note =>
    exact ⟨sorted_line.mpr ⟨hacks, hnotes, hack, hset, hgoal,
      fun p hp => ⟨(hnote p hp).1, (hnote p hp).2.trans hlog⟩, hpos.trans hlog, Nat.le_refl _⟩,
      hbound, hmoved⟩
  | produce x hx =>
    have hlen : (w.log ++ [x]).length = w.log.length + 1 := by simp
    refine ⟨sorted_line.mpr ⟨hacks, hnotes, hack, hset, hgoal, hnote, hpos, ?_⟩, ?_, ?_⟩
    · show w.pos ≤ (w.log ++ [x]).length
      omega
    · show (w.log ++ [x]).length ≤ w.settled + cap
      omega
    · show w.moved = (w.log ++ [x]).take w.moved.length
      rw [List.take_append_of_le_length (by omega)]
      exact hmoved
  | send =>
    obtain ⟨hnotes', hnote'⟩ := sorted_push hnotes hnote hpos
    exact ⟨sorted_line.mpr ⟨hacks, hnotes', hack, hset, hgoal, hnote', hpos, hlog⟩, hbound, hmoved⟩
  | take p rest hp hg =>
    rw [hp] at hnotes hnote
    obtain ⟨hrest, hrest', hlo, hhi⟩ := sorted_pop hnotes hnote
    exact ⟨sorted_line.mpr ⟨hacks, hrest, hack, hset, hgoal.trans hlo, hrest', hhi, hlog⟩, hbound,
      hmoved⟩
  | move x hlt hx =>
    have hlen : (w.moved ++ [x]).length = w.moved.length + 1 := by simp
    refine ⟨sorted_line.mpr ⟨hacks, hnotes, ?_, ?_, ?_, hnote, hpos, hlog⟩, hbound, ?_⟩
    · intro a ha
      have ha' := hack a ha
      refine ⟨ha'.1, ?_⟩
      show a ≤ (w.moved ++ [x]).length
      omega
    · show w.settled ≤ (w.moved ++ [x]).length
      omega
    · show (w.moved ++ [x]).length ≤ w.goal
      omega
    · show w.moved ++ [x] = w.log.take (w.moved ++ [x]).length
      rw [hlen, List.take_add_one, hx, ← hmoved]
      rfl
  | ack =>
    obtain ⟨hacks', hack'⟩ := sorted_push hacks hack hset
    exact ⟨sorted_line.mpr ⟨hacks', hnotes, hack', hset, hgoal, hnote, hpos, hlog⟩, hbound, hmoved⟩
  | settle p rest hp =>
    rw [hp] at hacks hack
    obtain ⟨hrest, hrest', hlo, hhi⟩ := sorted_pop hacks hack
    exact ⟨sorted_line.mpr ⟨hrest, hnotes, hrest', hhi, hgoal, hnote, hpos, hlog⟩,
      hbound.trans (Nat.add_le_add_right hlo cap), hmoved⟩

/-- **Every reachable state.** -/
theorem window_inv (h : Relation.ReflTransGen (WindowStep cap) Window.start w) : w.Inv cap :=
  reach_inv (I := Window.Inv cap) (fun _ _ hI hs => windowStep_inv hI hs) Window.inv_start h

/-- What was moved is a prefix of the log. -/
theorem Window.Inv.beginning (h : w.Inv cap) : w.moved <+: w.log := by
  rw [h.moved]
  exact List.take_prefix _ _

end Inv

end Basis
