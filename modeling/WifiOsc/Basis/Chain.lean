/-
  File:      WifiOsc/Basis/Chain.lean
  Subject:   SINGLY LINKED CHAINS IN A HEAP. Definitions and lemmas; no fact about a particular
             program.

  A heap gives a cell for some pointers, `next` the pointer in a cell, `none` is null.

  * `Chain next cells p l`: from `p` on, the cells of `l` follow one another up to null;
  * `chain_unique`, `chain_nodup`: a chain is determined by its start and visits no cell twice;
  * `chain_congr`: cells outside a chain may change;
  * `chain_append`: the two ends where a chain is cut;
  * `chain_link`: a new last cell; `chain_unlink`: a cell taken out of the middle.
-/
import Mathlib.Data.List.Nodup
import Mathlib.Logic.Function.Basic

namespace Basis

section Chain

variable {ν : Type} {next : ν → Option Nat} {cells cells' : Nat → Option ν}
  {p : Option Nat} {q : Nat} {n : ν} {l l' : List (Nat × ν)}

/-- From `p` on, the cells of `l` follow one another up to null. -/
def Chain (next : ν → Option Nat) (cells : Nat → Option ν) : Option Nat → List (Nat × ν) → Prop
  | p, [] => p = none
  | p, (q, n) :: l => p = some q ∧ cells q = some n ∧ Chain next cells (next n) l

theorem chain_none (h : Chain next cells none l) : l = [] := by
  cases l with
  | nil => rfl
  | cons a l => cases h.1

theorem chain_some (h : Chain next cells (some q) l) :
    ∃ n l', l = (q, n) :: l' ∧ cells q = some n ∧ Chain next cells (next n) l' := by
  cases l with
  | nil => cases h
  | cons a l =>
    obtain ⟨q', n⟩ := a
    obtain ⟨hq, hc, ht⟩ := h
    cases hq
    exact ⟨n, l, rfl, hc, ht⟩

theorem chain_unique (h : Chain next cells p l) (h' : Chain next cells p l') : l = l' := by
  induction l generalizing p l' with
  | nil =>
    cases h
    exact (chain_none h').symm
  | cons a l ih =>
    obtain ⟨q, n⟩ := a
    obtain ⟨rfl, hc, ht⟩ := h
    obtain ⟨n', l'', rfl, hc', ht'⟩ := chain_some h'
    cases hc.symm.trans hc'
    rw [ih ht ht']

/-- The rest of a chain is a chain. -/
theorem chain_drop {l₁ : List (Nat × ν)} (h : Chain next cells p (l₁ ++ (q, n) :: l)) :
    cells q = some n ∧ Chain next cells (some q) ((q, n) :: l) := by
  induction l₁ generalizing p with
  | nil =>
    obtain ⟨_, hc, ht⟩ := h
    exact ⟨hc, rfl, hc, ht⟩
  | cons a l₁ ih => exact ih h.2.2

theorem chain_nodup (h : Chain next cells p l) : (l.map Prod.fst).Nodup := by
  induction l generalizing p with
  | nil => exact List.nodup_nil
  | cons a l ih =>
    obtain ⟨q, n⟩ := a
    rw [List.map_cons, List.nodup_cons]
    refine ⟨fun hmem => ?_, ih h.2.2⟩
    -- a second visit would give a shorter chain from the same cell
    obtain ⟨⟨q', n'⟩, hm, rfl⟩ := List.mem_map.mp hmem
    obtain ⟨l₁, l₂, hl⟩ := List.append_of_mem hm
    have hrest := h.2.2
    rw [hl] at hrest
    have hwhole : Chain next cells (some q') ((q', n) :: l) := ⟨rfl, h.2⟩
    have heq := chain_unique (chain_drop hrest).2 hwhole
    have hlen := congrArg List.length heq
    rw [hl] at hlen
    simp only [List.length_cons, List.length_append] at hlen
    omega

theorem chain_mem {a : Nat × ν} (h : Chain next cells p l) (ha : a ∈ l) :
    cells a.1 = some a.2 := by
  obtain ⟨l₁, l₂, rfl⟩ := List.append_of_mem ha
  exact (chain_drop h).1

/-- A segment from `p` that stops at the pointer `r`. -/
def Segment (next : ν → Option Nat) (cells : Nat → Option ν) (r : Option Nat) :
    Option Nat → List (Nat × ν) → Prop
  | p, [] => p = r
  | p, (q, n) :: l => p = some q ∧ cells q = some n ∧ Segment next cells r (next n) l

theorem chain_append {l₁ l₂ : List (Nat × ν)} :
    Chain next cells p (l₁ ++ l₂) ↔
      ∃ r, Segment next cells r p l₁ ∧ Chain next cells r l₂ := by
  induction l₁ generalizing p with
  | nil => exact ⟨fun h => ⟨p, rfl, h⟩, fun ⟨r, hr, h⟩ => by cases hr; exact h⟩
  | cons a l₁ ih =>
    obtain ⟨q, n⟩ := a
    refine ⟨fun h => ?_, fun ⟨r, hs, h⟩ => ⟨hs.1, hs.2.1, ih.mpr ⟨r, hs.2.2, h⟩⟩⟩
    obtain ⟨r, hs, hc⟩ := ih.mp h.2.2
    exact ⟨r, ⟨h.1, h.2.1, hs⟩, hc⟩

theorem segment_congr {r : Option Nat} (h : Segment next cells r p l)
    (hsame : ∀ q ∈ l.map Prod.fst, cells' q = cells q) : Segment next cells' r p l := by
  induction l generalizing p with
  | nil => exact h
  | cons a l ih =>
    obtain ⟨q, n⟩ := a
    refine ⟨h.1, (hsame q List.mem_cons_self).trans h.2.1, ih h.2.2 ?_⟩
    intro q' hq'
    exact hsame q' (List.mem_cons_of_mem q hq')

theorem chain_congr (h : Chain next cells p l) (hsame : ∀ q ∈ l.map Prod.fst, cells' q = cells q) :
    Chain next cells' p l := by
  rw [← List.append_nil l] at h ⊢
  obtain ⟨r, hs, hr⟩ := chain_append.mp h
  exact chain_append.mpr ⟨r, segment_congr hs hsame, hr⟩

/-- Two segments that meet. -/
theorem chain_of_segment {l₁ l₂ : List (Nat × ν)} {r : Option Nat}
    (h : Segment next cells r p l₁) (h' : Chain next cells r l₂) :
    Chain next cells p (l₁ ++ l₂) := chain_append.mpr ⟨r, h, h'⟩

/-- The pointers of the first part of a chain do not occur in the second. -/
theorem chain_disjoint {l₁ l₂ : List (Nat × ν)} (h : Chain next cells p (l₁ ++ l₂)) {q : Nat}
    (h₁ : q ∈ l₁.map Prod.fst) : q ∉ l₂.map Prod.fst := by
  have hnd := chain_nodup h
  rw [List.map_append] at hnd
  exact fun h₂ => List.disjoint_of_nodup_append hnd h₁ h₂

/-- **A new last cell**: the old one, `q`, is written with a pointer to the fresh cell. -/
theorem chain_link {n' m : ν} {r : Nat} (h : Chain next cells p (l ++ [(q, n)]))
    (hfresh : cells r = none) (hlink : next n' = some r) (hm : next m = none) :
    Chain next (Function.update (Function.update cells r (some m)) q (some n')) p
      (l ++ [(q, n'), (r, m)]) := by
  obtain ⟨t, hseg, rfl, hq, hn⟩ := chain_append.mp h
  have hne : ∀ a ∈ l ++ [(q, n)], a.1 ≠ r := by
    intro a ha he
    have hcell := chain_mem h ha
    rw [he, hfresh] at hcell
    cases hcell
  have hrq : r ≠ q := fun he => hne (q, n) (by simp) he.symm
  refine chain_of_segment (segment_congr hseg fun q' hq' => ?_)
    ⟨rfl, Function.update_self _ _ _, hlink, ?_, hm⟩
  · have hq'q : q' ≠ q := by
      intro he
      rw [he] at hq'
      exact chain_disjoint h hq' (by simp)
    obtain ⟨a, ha, rfl⟩ := List.mem_map.mp hq'
    rw [Function.update_of_ne hq'q, Function.update_of_ne (hne a (List.mem_append_left _ ha))]
  · rw [Function.update_of_ne hrq, Function.update_self]

/-- **A cell out of the middle**: `q` is written with the pointer in the cell after it, `r`, which is
    freed. -/
theorem chain_unlink {l₁ l₂ : List (Nat × ν)} {n' m : ν} {r : Nat}
    (h : Chain next cells p (l₁ ++ (q, n) :: (r, m) :: l₂)) (hlink : next n' = next m) :
    Chain next (Function.update (Function.update cells q (some n')) r none) p
      (l₁ ++ (q, n') :: l₂) := by
  have hnd := chain_nodup h
  obtain ⟨t, hseg, rfl, hq, hn, hr, hrest⟩ := chain_append.mp h
  have hqr : q ≠ r := by
    intro he
    rw [List.map_append, List.nodup_append] at hnd
    have hnd' := hnd.2.1
    simp [he] at hnd'
  have hkeep : ∀ q', q' ≠ q → q' ≠ r →
      Function.update (Function.update cells q (some n')) r none q' = cells q' := by
    intro q' h1 h2
    rw [Function.update_of_ne h2, Function.update_of_ne h1]
  refine chain_of_segment (segment_congr hseg fun q' hq' => hkeep q' ?_ ?_)
    ⟨rfl, ?_, hlink ▸ chain_congr hrest fun q' hq' => hkeep q' ?_ ?_⟩
  · rintro rfl
    exact chain_disjoint h hq' (by simp)
  · rintro rfl
    exact chain_disjoint h hq' (by simp)
  · rw [Function.update_of_ne hqr, Function.update_self]
  · rintro rfl
    rw [List.map_append, List.nodup_append] at hnd
    exact (List.nodup_cons.mp hnd.2.1).1 (List.mem_cons_of_mem _ hq')
  · rintro rfl
    rw [List.map_append, List.nodup_append] at hnd
    exact (List.nodup_cons.mp (List.nodup_cons.mp hnd.2.1).2).1 hq'

end Chain

end Basis
