/-
  File:      WifiOsc/Basis/History.lean
  Subject:   WHAT A WAVEFORM HAS DONE UP TO NOW. Definitions and step lemmas; nothing about a
             particular design.

  * `steady t n`: for how many steps before `n` the waveform has shown what it shows at `n`;
    `le_steady_iff`: that count as a window of equal samples;
  * `QuietSince lo hi d n`: no sample before `n` has met `hi` since the last one that met `lo`, or
    since the start where `d` allows that; `quietSince_succ`: one more sample;
  * `QuietSince.of_last`, `QuietSince.of_never`: the same, read from the last such sample.
-/
import Mathlib.Logic.Basic

namespace Basis

/-! ## 1. How long a waveform has been steady -/

section Steady

variable {α : Type} [DecidableEq α] {t : Nat → α}

def steady (t : Nat → α) : Nat → Nat
  | 0 => 0
  | n + 1 => if t (n + 1) = t n then steady t n + 1 else 0

@[simp] theorem steady_zero : steady t 0 = 0 := rfl

theorem steady_succ_of_eq {n : Nat} (h : t (n + 1) = t n) : steady t (n + 1) = steady t n + 1 :=
  if_pos h

theorem steady_succ_of_ne {n : Nat} (h : t (n + 1) ≠ t n) : steady t (n + 1) = 0 := if_neg h

/-- **The count is a window**: the last `k + 1` samples agree. -/
theorem le_steady_iff {k n : Nat} :
    k ≤ steady t n ↔ k ≤ n ∧ ∀ j, n - k ≤ j → j ≤ n → t j = t n := by
  induction n generalizing k with
  | zero =>
    rw [steady_zero, Nat.le_zero]
    refine ⟨fun h => ⟨h, fun j _ hj => ?_⟩, fun h => h.1⟩
    rw [Nat.le_zero.mp hj]
  | succ n ih =>
    cases k with
    | zero =>
      refine ⟨fun _ => ⟨Nat.zero_le _, fun j hlo hhi => ?_⟩, fun _ => Nat.zero_le _⟩
      rw [show j = n + 1 by omega]
    | succ k =>
      by_cases h : t (n + 1) = t n
      · rw [steady_succ_of_eq h, Nat.succ_le_succ_iff, ih, Nat.succ_le_succ_iff, h,
          Nat.succ_sub_succ]
        refine and_congr_right fun _ => ⟨fun hw j hlo hhi => ?_, fun hw j hlo hhi => ?_⟩
        · rcases Nat.lt_or_ge n j with hj | hj
          · rw [show j = n + 1 by omega, h]
          · exact hw j hlo hj
        · exact hw j hlo (Nat.le_succ_of_le hhi)
      · rw [steady_succ_of_ne h]
        refine ⟨fun hk => absurd hk (Nat.not_succ_le_zero k), ?_⟩
        intro hw
        exact absurd (hw.2 n (by omega) (Nat.le_succ n)).symm h

end Steady

/-! ## 2. Since the last low sample -/

section QuietSince

variable {lo hi : Nat → Prop} {d : Prop} {n : Nat}

/-- Before `n`, no sample has met `hi` since one that met `lo`, or since the start if `d`. -/
def QuietSince (lo hi : Nat → Prop) (d : Prop) (n : Nat) : Prop :=
  (∃ m, m < n ∧ lo m ∧ ∀ j, m < j → j < n → ¬ hi j) ∨ (d ∧ ∀ j, j < n → ¬ hi j)

/-- `m` is the last sample before `n` that met `lo`. -/
structure LastBefore (lo : Nat → Prop) (m n : Nat) : Prop where
  lt : m < n
  meets : lo m
  later : ∀ j, m < j → j < n → ¬ lo j

theorem quietSince_zero (h : d) : QuietSince lo hi d 0 :=
  Or.inr ⟨h, fun j hj => absurd hj (Nat.not_lt_zero j)⟩

theorem quietSince_of_lo (h : lo n) : QuietSince lo hi d (n + 1) :=
  Or.inl ⟨n, Nat.lt_succ_self n, h, fun j h1 h2 => by omega⟩

theorem quietSince_succ (h : QuietSince lo hi d n) (hn : ¬ hi n) : QuietSince lo hi d (n + 1) := by
  rcases h with ⟨m, hm, hlo, hq⟩ | ⟨hd, hq⟩
  · refine Or.inl ⟨m, Nat.lt_succ_of_lt hm, hlo, ?_⟩
    intro j h1 h2
    rcases Nat.lt_succ_iff_lt_or_eq.mp h2 with hj | hj
    · exact hq j h1 hj
    · exact hj ▸ hn
  · refine Or.inr ⟨hd, ?_⟩
    intro j h2
    rcases Nat.lt_succ_iff_lt_or_eq.mp h2 with hj | hj
    · exact hq j hj
    · exact hj ▸ hn

theorem QuietSince.of_last (h : QuietSince lo hi d n) {m : Nat} (hm : LastBefore lo m n) :
    ∀ j, m < j → j < n → ¬ hi j := by
  intro j h1 h2
  rcases h with ⟨m', hm', hlo, hq⟩ | ⟨_, hq⟩
  · rcases Nat.lt_or_ge m m' with hlt | hle
    · exact absurd hlo (hm.later m' hlt hm')
    · exact hq j (Nat.lt_of_le_of_lt hle h1) h2
  · exact hq j h2

theorem QuietSince.of_never (h : QuietSince lo hi d n) (hn : ∀ j, j < n → ¬ lo j) :
    d ∧ ∀ j, j < n → ¬ hi j := by
  rcases h with ⟨m, hm, hlo, _⟩ | hq
  · exact absurd hlo (hn m hm)
  · exact hq

end QuietSince

end Basis
