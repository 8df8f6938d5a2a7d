/-
  File:      WifiOsc/Basis/Pipe.lean
  Subject:   MACHINES IN A ROW, AND THE LINE BETWEEN THEM. Nothing about a particular design.

  * `pipe`: a machine that reads what another one emits; `pipe_run`, `pipe_log`: its runs are the
    runs of the parts, one after the other;
  * `Spaced`: words on a line that rests between them; `Spaced.exists_gaps`: the rests counted;
  * `Level`: a register that moves on every `n`-th edge only; `Level.held`: edge by edge it shows
    every value it takes, held for `n` edges;
  * `Machine.due`: the progress rule, for observations that must come.
-/
import WifiOsc.Basis.Sampling

namespace Basis

variable {σ τ ι ω υ α β : Type}

/-! ## 1. One machine after the other -/

namespace Machine

/-- `N` reads what `M` emits, at the edge where `M` emits it. -/
def pipe (M : Machine σ ι ω) (N : Machine τ ω υ) : Machine (σ × τ) ι υ where
  step s i := (M.step s.1 i, N.run s.2 (M.out s.1 i))
  out s i := N.log s.2 (M.out s.1 i)

variable (M : Machine σ ι ω) (N : Machine τ ω υ)

/-- **A pipe runs its second machine on the log of the first.** -/
theorem pipe_run (s : σ) (t : τ) (is : List ι) :
    (M.pipe N).run (s, t) is = (M.run s is, N.run t (M.log s is)) := by
  induction is generalizing s t with
  | nil => rfl
  | cons i is ih =>
    rw [run_cons, run_cons, log_cons, N.run_append]
    exact ih (M.step s i) (N.run t (M.out s i))

theorem pipe_log (s : σ) (t : τ) (is : List ι) :
    (M.pipe N).log (s, t) is = N.log t (M.log s is) := by
  induction is generalizing s t with
  | nil => rfl
  | cons i is ih =>
    rw [log_cons, log_cons, N.log_append]
    exact congrArg (N.log t (M.out s i) ++ ·) (ih (M.step s i) (N.run t (M.out s i)))

end Machine

/-! ## 2. Words on a line -/

/-- The words of `xs` on a line that shows `r` before, between and after them. -/
inductive Spaced (enc : α → List β) (r : β) : List α → List β → Prop where
  | nil : Spaced enc r [] []
  | rest {xs : List α} {l : List β} (h : Spaced enc r xs l) : Spaced enc r xs (l ++ [r])
  | word {xs : List α} {l : List β} (x : α) (h : Spaced enc r xs l) :
      Spaced enc r (xs ++ [x]) (l ++ enc x)

/-- **A spaced line, its rests counted**: `idle` of them before the first word, and so many after
    each. -/
theorem Spaced.exists_gaps {enc : α → List β} {r : β} {xs : List α} {l : List β}
    (h : Spaced enc r xs l) :
    ∃ (idle : Nat) (fs : List (α × Nat)), fs.map Prod.fst = xs ∧
      l = List.replicate idle r ++ fs.flatMap fun f => enc f.1 ++ List.replicate f.2 r := by
  induction h with
  | nil => exact ⟨0, [], rfl, rfl⟩
  | @word xs l x _ ih =>
    obtain ⟨idle, fs, hxs, hl⟩ := ih
    refine ⟨idle, fs ++ [(x, 0)], by simp [hxs], ?_⟩
    simp [hl]
  | @rest xs l _ ih =>
    obtain ⟨idle, fs, hxs, hl⟩ := ih
    rcases List.eq_nil_or_concat fs with hnil | ⟨fs', f, hfs⟩
    · subst hnil
      exact ⟨idle + 1, [], hxs, by simp [hl, List.replicate_succ']⟩
    · -- the rest belongs to the last word
      subst hfs
      refine ⟨idle, fs' ++ [(f.1, f.2 + 1)], by simpa using hxs, ?_⟩
      simp [hl, List.replicate_succ']

/-! ## 3. A register behind a divided clock -/

/-- The part `v` of the state moves on the edges where `wait` is 0 only, and `wait` runs from `n - 1`
    down to 0 and round again. `seen` lets through what `v` is at each edge, `moved` what it becomes
    at the edges where it may move. -/
structure Level (M : Machine σ ι ω) (n : Nat) (v : σ → β) (wait : σ → Nat)
    (seen moved : ω → Option β) : Prop where
  seen : ∀ s i, (M.out s i).filterMap seen = [v s]
  tick : ∀ s i, wait s = 0 →
    wait (M.step s i) = n - 1 ∧ (M.out s i).filterMap moved = [v (M.step s i)]
  idle : ∀ s i k, wait s = k + 1 →
    v (M.step s i) = v s ∧ wait (M.step s i) = k ∧ (M.out s i).filterMap moved = []

/-- **A held register**: edge by edge it shows its first value up to the first tick and then what it
    became at each tick, for `n` edges each; the last of these may not be over yet. -/
theorem Level.held {M : Machine σ ι ω} {n : Nat} {v : σ → β} {wait : σ → Nat}
    {seen moved : ω → Option β} (h : Level M n v wait seen moved) (hn : 0 < n) (s : σ)
    (is : List ι) :
    (M.log s is).filterMap seen ++ List.replicate (wait (M.run s is) + 1) (v (M.run s is)) =
      List.replicate (wait s + 1) (v s) ++ hold n ((M.log s is).filterMap moved) := by
  induction is generalizing s with
  | nil => simp [hold]
  | cons i is ih =>
    have hrest := ih (M.step s i)
    rw [Machine.run_cons, Machine.log_cons, List.filterMap_append, List.filterMap_append, h.seen,
      List.append_assoc, hrest]
    cases hk : wait s with
    | zero =>
      obtain ⟨hw, hm⟩ := h.tick s i hk
      rw [hw, hm, Nat.sub_add_cancel hn]
      rfl
    | succ k =>
      obtain ⟨hv, hw, hm⟩ := h.idle s i k hk
      rw [hv, hw, hm]
      rfl

/-! ## 4. Observations that are due -/

/-- **The progress rule**: where every edge brings the observation or lowers `m`, the observation has
    come after more than `m` edges. -/
theorem Machine.due (M : Machine σ ι ω) {I : σ → Prop} {C : σ → ι → Prop} {E : ω → Prop}
    {m : σ → Nat} (hstep : ∀ s i, I s → C s i →
      (∃ o ∈ M.out s i, E o) ∨ (I (M.step s i) ∧ m (M.step s i) < m s))
    {s : σ} {is : List ι} (h0 : I s) (hC : M.Throughout C s is) (hlen : m s < is.length) :
    ∃ o ∈ M.log s is, E o := by
  induction is generalizing s with
  | nil => exact absurd hlen (Nat.not_lt_zero _)
  | cons i is ih =>
    rcases hstep s i h0 hC.1 with ⟨o, ho, hE⟩ | ⟨hI, hm⟩
    · exact ⟨o, List.mem_append_left _ ho, hE⟩
    · rw [List.length_cons] at hlen
      obtain ⟨o, ho, hE⟩ := ih hI hC.2 (by omega)
      exact ⟨o, List.mem_append_right _ ho, hE⟩

end Basis
