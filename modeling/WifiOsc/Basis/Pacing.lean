/-
  File:      WifiOsc/Basis/Pacing.lean
  Subject:   HOW FAR APART THE OCCURRENCES OF A SYMBOL ARE. Nothing about a particular design.

  * `since x l`: how many symbols stand behind the last `x` of `l`;
  * `Gaps x n l`: never more than `n` symbols between one `x` of `l` and the next;
  * `Gaps.since_le`: so much is left of `since x` as long as one more `x` follows.
-/
import Mathlib.Data.List.Basic
import Mathlib.Data.List.Induction

namespace Basis

variable {α : Type} [DecidableEq α] {x y : α} {l r : List α} {n : Nat}

/-- The symbols behind the last `x` of `l`, or all of them where there is no `x`. -/
def since (x : α) (l : List α) : Nat := l.foldl (fun k y => if y = x then 0 else k + 1) 0

@[simp] theorem since_snoc_self : since x (l ++ [x]) = 0 := by simp [since]

@[simp] theorem since_snoc_of_ne (h : y ≠ x) : since x (l ++ [y]) = since x l + 1 := by
  simp [since, h]

theorem since_of_not_mem {m : List α} (hm : x ∉ m) : since x (l ++ x :: m) = m.length := by
  induction m using List.reverseRecOn with
  | nil => exact since_snoc_self
  | append_singleton m y ih =>
    have hy : y ≠ x := by
      intro e
      exact hm (by simp [e])
    have hm' : x ∉ m := fun h => hm (List.mem_append_left _ h)
    rw [← List.cons_append, ← List.append_assoc, since_snoc_of_ne hy, ih hm', List.length_append]
    rfl

/-- The symbols that `since` counts. -/
theorem exists_since (x : α) (l : List α) :
    ∃ l' m, l = l' ++ m ∧ x ∉ m ∧ since x l = m.length := by
  induction l using List.reverseRecOn with
  | nil => exact ⟨[], [], rfl, List.not_mem_nil, rfl⟩
  | append_singleton l y ih =>
    by_cases hy : y = x
    · subst hy
      exact ⟨l ++ [y], [], (List.append_nil _).symm, List.not_mem_nil, since_snoc_self⟩
    · obtain ⟨l', m, rfl, hm, hlen⟩ := ih
      refine ⟨l', m ++ [y], List.append_assoc _ _ _, ?_, ?_⟩
      · simp [hm, Ne.symm hy]
      · rw [since_snoc_of_ne hy, hlen, List.length_append]
        rfl

/-- At most `n` symbols between one `x` and the next. -/
def Gaps (x : α) (n : Nat) (l : List α) : Prop :=
  ∀ l₁ m l₂, l = l₁ ++ x :: (m ++ x :: l₂) → x ∉ m → m.length ≤ n

theorem gaps_of_since (h : ∀ l₁ l₂, l = l₁ ++ l₂ → since x l₁ ≤ n) : Gaps x n l := by
  intro l₁ m l₂ hl hm
  have hle := h (l₁ ++ x :: m) (x :: l₂) (by rw [hl]; simp)
  rwa [since_of_not_mem hm] at hle

omit [DecidableEq α] in
theorem Gaps.left (h : Gaps x n (l ++ r)) : Gaps x n l := by
  intro l₁ m l₂ hl hm
  exact h l₁ m (l₂ ++ r) (by rw [hl]; simp) hm

/-- The first `x` of a list stands at one place. -/
theorem split_first {a b : List α} (ha : x ∉ a) (hb : x ∉ b) (h : a ++ x :: l = b ++ x :: r) :
    a = b ∧ l = r := by
  have hidx := congrArg (List.idxOf x) h
  rw [List.idxOf_append_of_notMem ha, List.idxOf_append_of_notMem hb, List.idxOf_cons_self,
    List.idxOf_cons_self] at hidx
  obtain ⟨hab, hlr⟩ := List.append_inj h hidx
  exact ⟨hab, List.cons.inj hlr |>.2⟩

/-- A list with two `x` has one gap. -/
theorem gaps_pair {a m : List α} (ha : x ∉ a) (hm : x ∉ m) (hn : m.length ≤ n) :
    Gaps x n (a ++ x :: (m ++ [x])) := by
  intro l₁ m' l₂ h hm'
  have hcount := congrArg (List.count x) h
  simp only [List.count_append, List.count_cons_self, List.count_eq_zero_of_not_mem ha,
    List.count_eq_zero_of_not_mem hm, List.count_nil] at hcount
  have hl₁ : x ∉ l₁ := List.count_eq_zero.mp (by omega)
  have htail := (split_first ha hl₁ h).2
  have hinner := (split_first hm hm' htail).1
  exact hinner ▸ hn

/-- Where few symbols differ from `x`, no gap is long. -/
theorem gaps_of_few (h : l.countP (· ≠ x) ≤ n) : Gaps x n l := by
  intro l₁ m l₂ hl hm
  have hall : m.countP (· ≠ x) = m.length := by
    refine List.countP_eq_length.mpr ?_
    intro y hy
    have hne : y ≠ x := fun e => hm (e ▸ hy)
    simpa using hne
  rw [hl, List.countP_append, List.countP_cons, List.countP_append] at h
  omega

/-- **Inside a gap**: as long as one more `x` follows, the last one is at most `n` symbols off. -/
theorem Gaps.since_le (h : Gaps x n (l ++ r)) (hl : x ∈ l) (hr : x ∈ r) : since x l ≤ n := by
  obtain ⟨c, d, hcd, hd⟩ := List.eq_append_cons_of_mem (List.mem_reverse.mpr hl)
  obtain ⟨m, l₂, hm, hx⟩ := List.eq_append_cons_of_mem hr
  have hl' : l = d.reverse ++ x :: c.reverse := by
    have e := congrArg List.reverse hcd
    simpa using e
  have hc : x ∉ c.reverse := by simpa using hd
  rw [hl', since_of_not_mem hc]
  have hlen := h d.reverse (c.reverse ++ m) l₂ (by rw [hl', hm]; simp) (by simp [hc, hx])
  rw [List.length_append] at hlen
  omega

end Basis
