/-
  File:      WifiOsc/Basis/Delimited.lean
  Subject:   SELF-DELIMITING ENCODINGS. Lists of packets whose last symbol, and no earlier one,
             is an end symbol; nothing about a particular format.

  * `Delimited enc isEnd`: every packet is a body without end symbols and one end symbol;
  * `resync`: discard up to and including the first end symbol;
  * `remaining`: the packets that begin after a position of the stream;
  * `resync_drop`: resynchronising from ANY cut of a stream leaves the packets after the cut;
  * `groups`: a stream cut every `n` symbols, and `groups_flatMap` for packets of `n` symbols.
-/
import Mathlib.Data.List.Basic

namespace Basis

variable {α β : Type} {enc : α → List β} {isEnd : β → Bool}

/-- Every packet ends with an end symbol and has no other. -/
structure Delimited (enc : α → List β) (isEnd : β → Bool) : Prop where
  closed : ∀ x, ∃ body last, enc x = body ++ [last] ∧ (∀ b ∈ body, isEnd b = false) ∧
    isEnd last = true

/-- Discard everything up to and including the first end symbol. -/
def resync (isEnd : β → Bool) : List β → List β
  | [] => []
  | b :: bs => if isEnd b then bs else resync isEnd bs

/-- The packets of `xs` that begin after position `p` of their stream. -/
def remaining (enc : α → List β) : List α → Nat → List α
  | [], _ => []
  | x :: xs, p => if p < (enc x).length then xs else remaining enc xs (p - (enc x).length)

theorem resync_body {body : List β} (hb : ∀ b ∈ body, isEnd b = false) {last : β}
    (hl : isEnd last = true) (rest : List β) : resync isEnd (body ++ last :: rest) = rest := by
  induction body with
  | nil => simp [resync, hl]
  | cons b body ih =>
    have hb0 : isEnd b = false := hb b List.mem_cons_self
    rw [List.cons_append, resync, hb0]
    exact ih fun c hc => hb c (List.mem_cons_of_mem b hc)

/-- **Resynchronisation from any cut**: discarding through the next end symbol leaves exactly the
    packets that begin after the cut. -/
theorem resync_drop (h : Delimited enc isEnd) (xs : List α) {p : Nat}
    (hp : p < (xs.flatMap enc).length) :
    resync isEnd ((xs.flatMap enc).drop p) = (remaining enc xs p).flatMap enc := by
  induction xs generalizing p with
  | nil => simp at hp
  | cons x xs ih =>
    rw [List.flatMap_cons] at hp ⊢
    unfold remaining
    by_cases hx : p < (enc x).length
    · -- the cut falls into this packet: its end symbol is still ahead
      obtain ⟨body, last, he, hb, hl⟩ := h.closed x
      have hle : p ≤ body.length := by
        rw [he] at hx
        simp only [List.length_append, List.length_singleton] at hx
        omega
      rw [if_pos hx, he, List.append_assoc, List.drop_append_of_le_length hle]
      exact resync_body (fun b hm => hb b (List.mem_of_mem_drop hm)) hl _
    · have hlen : (enc x).length ≤ p := by omega
      rw [if_neg hx, List.drop_append, List.drop_eq_nil_of_le hlen, List.nil_append]
      refine ih ?_
      rw [List.length_append] at hp
      omega

/-- With packets of one length the position alone says which packets remain. -/
theorem remaining_eq_drop {n : Nat} (hn : 0 < n) (hlen : ∀ x, (enc x).length = n) (xs : List α)
    (p : Nat) : remaining enc xs p = xs.drop (p / n + 1) := by
  induction xs generalizing p with
  | nil => simp [remaining]
  | cons x xs ih =>
    unfold remaining
    rw [hlen x]
    by_cases hp : p < n
    · rw [if_pos hp, Nat.div_eq_of_lt hp]
      rfl
    · have hdiv : p / n = (p - n) / n + 1 := Nat.div_eq_sub_div hn (by omega)
      rw [if_neg hp, ih, hdiv]
      rfl

/-! ## Groups of a fixed length -/

/-- The whole groups of `n` symbols of a list, in order. -/
def groups (n : Nat) (l : List β) : List (List β) :=
  (List.range (l.length / n)).map fun k => (l.drop (n * k)).take n

theorem groups_cons {n : Nat} (hn : 0 < n) {g : List β} (hg : g.length = n) (l : List β) :
    groups n (g ++ l) = g :: groups n l := by
  have hlen : (g ++ l).length / n = l.length / n + 1 := by
    rw [List.length_append, hg, Nat.add_comm, Nat.add_div_right _ hn]
  have htail : ∀ k, (g ++ l).drop (n * (k + 1)) = l.drop (n * k) := by
    intro k
    rw [List.drop_append, List.drop_eq_nil_of_le, List.nil_append, hg, Nat.mul_succ,
      Nat.add_sub_cancel]
    rw [hg]
    exact Nat.le_mul_of_pos_right n (Nat.succ_pos k)
  unfold groups
  rw [hlen, List.range_succ_eq_map, List.map_cons, List.map_map]
  congr 1
  · rw [Nat.mul_zero, List.drop_zero, ← hg, List.take_left]
  · refine List.map_congr_left ?_
    intro k _
    simp only [Function.comp, Nat.succ_eq_add_one, htail]

/-- A stream of packets of `n` symbols, cut every `n` symbols, is its packets. -/
theorem groups_flatMap {n : Nat} (hn : 0 < n) (hlen : ∀ x, (enc x).length = n) (xs : List α) :
    groups n (xs.flatMap enc) = xs.map enc := by
  induction xs with
  | nil => simp [groups]
  | cons x xs ih => rw [List.flatMap_cons, groups_cons hn (hlen x), ih, List.map_cons]

end Basis
