/-
  File:      WifiOsc/Basis/Machine.lean
  Subject:   CLOCKED MACHINES AND TRANSITION SYSTEMS. Definitions and run lemmas; no fact about
             a particular design.

  * `Machine`: a deterministic machine that reads one input at each edge and emits a list of
    observations there; `run` is the state after a list of inputs, `log` what was emitted;
  * `run_append`, `log_append`: a run can be cut anywhere;
  * `inv_run`, `inv_log`, `inv_log_until`: the induction rules. The last two carry an invariant
    that also speaks about what has been emitted so far, the last one up to a stop, which
    `exists_first` finds;
  * `Throughout`: a condition on each input of a run; `inv_log_of`: the rule for such runs;
  * `Path`, `Path.silent`: runs that exist, with what they emit;
  * `reach_inv`, `reach_sim`: the invariant and the simulation rule for a step relation;
  * `Runs`, `Always`, `Each`: runs of a partial step function, what holds in each of their states
    and at each of their steps; `always_iff_each` relates the two.
-/
import Mathlib.Data.Nat.Find
import Mathlib.Logic.Relation

namespace Basis

/-- A deterministic machine: one input and a list of observations at each edge. -/
structure Machine (σ ι ω : Type) where
  step : σ → ι → σ
  out : σ → ι → List ω

namespace Machine

variable {σ ι ω : Type} (M : Machine σ ι ω)

/-- The state after the inputs `is`. -/
def run : σ → List ι → σ
  | s, [] => s
  | s, i :: is => run (M.step s i) is

/-- Everything emitted while the inputs `is` are read. -/
def log : σ → List ι → List ω
  | _, [] => []
  | s, i :: is => M.out s i ++ log (M.step s i) is

@[simp] theorem run_nil (s : σ) : M.run s [] = s := rfl

@[simp] theorem run_cons (s : σ) (i : ι) (is : List ι) :
    M.run s (i :: is) = M.run (M.step s i) is := rfl

@[simp] theorem log_nil (s : σ) : M.log s [] = [] := rfl

@[simp] theorem log_cons (s : σ) (i : ι) (is : List ι) :
    M.log s (i :: is) = M.out s i ++ M.log (M.step s i) is := rfl

theorem run_append (s : σ) (is js : List ι) : M.run s (is ++ js) = M.run (M.run s is) js := by
  induction is generalizing s with
  | nil => rfl
  | cons i is ih => exact ih (M.step s i)

theorem run_snoc (s : σ) (is : List ι) (i : ι) : M.run s (is ++ [i]) = M.step (M.run s is) i :=
  M.run_append s is [i]

theorem log_append (s : σ) (is js : List ι) :
    M.log s (is ++ js) = M.log s is ++ M.log (M.run s is) js := by
  induction is generalizing s with
  | nil => rfl
  | cons i is ih => rw [List.cons_append, log_cons, ih, log_cons, run_cons, List.append_assoc]

/-- **The invariant rule**: what every step preserves holds after every run. -/
theorem inv_run {I : σ → Prop} (hstep : ∀ s i, I s → I (M.step s i)) {s : σ} (h0 : I s)
    (is : List ι) : I (M.run s is) := by
  induction is generalizing s with
  | nil => exact h0
  | cons i is ih => exact ih (hstep s i h0)

/-- **The invariant rule with a log**: the invariant reads the state and what has been emitted. -/
theorem inv_log {I : σ → List ω → Prop} (hstep : ∀ s l i, I s l → I (M.step s i) (l ++ M.out s i))
    {s : σ} {l : List ω} (h0 : I s l) (is : List ι) : I (M.run s is) (l ++ M.log s is) := by
  induction is generalizing s l with
  | nil => simpa using h0
  | cons i is ih =>
    rw [run_cons, log_cons, ← List.append_assoc]
    exact ih (hstep s l i h0)

/-- **The invariant rule up to a stop**: the invariant need only be kept by the steps from states
    where `P` does not hold, for a run that meets `P` at its end at the earliest. -/
theorem inv_log_until {I : σ → List ω → Prop} {P : σ → Prop}
    (hstep : ∀ s l i, ¬ P s → I s l → I (M.step s i) (l ++ M.out s i)) {s : σ} {l : List ω}
    (h0 : I s l) (is : List ι)
    (hstop : ∀ n < is.length, ¬ P (M.run s (is.take n))) :
    I (M.run s is) (l ++ M.log s is) := by
  induction is generalizing s l with
  | nil => simpa using h0
  | cons i is ih =>
    have hs : ¬ P s := hstop 0 (Nat.succ_pos _)
    rw [run_cons, log_cons, ← List.append_assoc]
    refine ih (hstep s l i hs h0) ?_
    intro n hn
    exact hstop (n + 1) (Nat.succ_lt_succ hn)

/-- `C` of every input, and of the state it is read in. -/
def Throughout (C : σ → ι → Prop) : σ → List ι → Prop
  | _, [] => True
  | s, i :: is => C s i ∧ Throughout C (M.step s i) is

theorem throughout_of_mem {C : σ → ι → Prop} {is : List ι} (h : ∀ s, ∀ i ∈ is, C s i) {s : σ} :
    M.Throughout C s is := by
  induction is generalizing s with
  | nil => trivial
  | cons i is ih =>
    exact ⟨h s i List.mem_cons_self, ih fun s j hj => h s j (List.mem_cons_of_mem i hj)⟩

theorem throughout_append {C : σ → ι → Prop} {s : σ} {is js : List ι} :
    M.Throughout C s (is ++ js) ↔ M.Throughout C s is ∧ M.Throughout C (M.run s is) js := by
  induction is generalizing s with
  | nil => exact (iff_of_eq (true_and _)).symm
  | cons i is ih => exact (and_congr_right fun _ => ih).trans and_assoc.symm

/-- With a condition on the inputs alone. -/
theorem throughout_and {C : σ → ι → Prop} {P : ι → Prop} {s : σ} {is : List ι}
    (h : M.Throughout C s is) (hP : ∀ i ∈ is, P i) :
    M.Throughout (fun s i => C s i ∧ P i) s is := by
  induction is generalizing s with
  | nil => trivial
  | cons i is ih =>
    exact ⟨⟨h.1, hP i List.mem_cons_self⟩, ih h.2 fun j hj => hP j (List.mem_cons_of_mem i hj)⟩

/-- **The invariant rule under a condition** on the inputs. -/
theorem inv_log_of {C : σ → ι → Prop} {I : σ → List ω → Prop}
    (hstep : ∀ s l i, C s i → I s l → I (M.step s i) (l ++ M.out s i)) {s : σ} {l : List ω}
    (h0 : I s l) {is : List ι} (hC : M.Throughout C s is) : I (M.run s is) (l ++ M.log s is) := by
  induction is generalizing s l with
  | nil => simpa using h0
  | cons i is ih =>
    rw [run_cons, log_cons, ← List.append_assoc]
    exact ih (hstep s l i hC.1 h0) hC.2

/-- What holds somewhere along a run holds somewhere for the first time. -/
theorem exists_first {P : σ → Prop} {s : σ} {is : List ι} {n : Nat}
    (h : P (M.run s (is.take n))) :
    ∃ m ≤ n, P (M.run s (is.take m)) ∧ ∀ k < m, ¬ P (M.run s (is.take k)) := by
  classical
  have hex : ∃ m, P (M.run s (is.take m)) := ⟨n, h⟩
  exact ⟨Nat.find hex, Nat.find_min' hex h, Nat.find_spec hex, fun k hk => Nat.find_min hex hk⟩

/-! ## Paths -/

/-- Some inputs lead from `s` to `s'`, and `l` is emitted on the way. -/
def Path (s : σ) (l : List ω) (s' : σ) : Prop := ∃ is, M.run s is = s' ∧ M.log s is = l

variable {M}

theorem Path.refl (s : σ) : M.Path s [] s := ⟨[], rfl, rfl⟩

theorem Path.edge (s : σ) (i : ι) : M.Path s (M.out s i) (M.step s i) :=
  ⟨[i], rfl, List.append_nil _⟩

theorem Path.trans {s s' s'' : σ} {l l' : List ω} (h : M.Path s l s') (h' : M.Path s' l' s'') :
    M.Path s (l ++ l') s'' := by
  obtain ⟨is, rfl, rfl⟩ := h
  obtain ⟨js, rfl, rfl⟩ := h'
  exact ⟨is ++ js, M.run_append s is js, M.log_append s is js⟩

/-- **The silent rule**: `N` edges without an observation, the `n`-th from `D n` to `D (n + 1)`. -/
theorem Path.silent {D : Nat → σ → Prop} {N : Nat}
    (hstep : ∀ n < N, ∀ s, D n s → ∃ i, M.out s i = [] ∧ D (n + 1) (M.step s i)) {s : σ}
    (h0 : D 0 s) : ∃ s', M.Path s [] s' ∧ D N s' := by
  induction N with
  | zero => exact ⟨s, Path.refl s, h0⟩
  | succ N ih =>
    obtain ⟨s', hp, hD⟩ := ih fun n hn => hstep n (Nat.lt_succ_of_lt hn)
    obtain ⟨i, ho, hD'⟩ := hstep N (Nat.lt_succ_self N) s' hD
    have he : M.Path s' [] (M.step s' i) := ho ▸ Path.edge s' i
    exact ⟨M.step s' i, hp.trans he, hD'⟩

end Machine

/-! ## Step relations -/

section Reach

variable {σ τ : Type} {r : σ → σ → Prop} {q : τ → τ → Prop}

open Relation

/-- **The invariant rule**: what holds at the start and is kept by every step holds everywhere. -/
theorem reach_inv {I : σ → Prop} (hstep : ∀ s s', I s → r s s' → I s') {s0 s : σ} (h0 : I s0)
    (h : ReflTransGen r s0 s) : I s := by
  induction h with
  | refl => exact h0
  | tail _ hs ih => exact hstep _ _ ih hs

/-- **The simulation rule**: when every step of `r` is answered by steps of `q` that keep the
    relation `R`, every run of `r` is answered by a run of `q`. -/
theorem reach_sim {R : σ → τ → Prop}
    (hstep : ∀ s s' t, R s t → r s s' → ∃ t', ReflTransGen q t t' ∧ R s' t') {s0 s : σ} {t0 : τ}
    (h0 : R s0 t0) (h : ReflTransGen r s0 s) : ∃ t, ReflTransGen q t0 t ∧ R s t := by
  induction h with
  | refl => exact ⟨t0, .refl, h0⟩
  | tail _ hs ih =>
    obtain ⟨t, ht, hR⟩ := ih
    obtain ⟨t', ht', hR'⟩ := hstep _ _ t hR hs
    exact ⟨t', ht.trans ht', hR'⟩

end Reach

/-! ## Partial steps -/

section Partial

variable {σ ε : Type} {next : σ → ε → Option σ}

/-- The events `es` lead from `s` to `s'`. -/
def Runs (next : σ → ε → Option σ) : σ → List ε → σ → Prop
  | s, [], s' => s' = s
  | s, e :: es, s'' => ∃ s', next s e = some s' ∧ Runs next s' es s''

/-- `P` in the state `s` and in every state that the events `es` lead to. -/
def Always (next : σ → ε → Option σ) (P : σ → Prop) : σ → List ε → Prop
  | s, [] => P s
  | s, e :: es => P s ∧ ∀ s', next s e = some s' → Always next P s' es

/-- `C` of every step that the events `es` make. -/
def Each (next : σ → ε → Option σ) (C : σ → ε → Prop) : σ → List ε → Prop
  | _, [] => True
  | s, e :: es => ∀ s', next s e = some s' → C s e ∧ Each next C s' es

/-- A run that can be computed. -/
theorem runs_of_foldlM {s s' : σ} {es : List ε} (h : es.foldlM next s = some s') :
    Runs next s es s' := by
  induction es generalizing s with
  | nil =>
    cases h
    exact rfl
  | cons e es ih =>
    rw [List.foldlM_cons] at h
    obtain ⟨t, ht, h⟩ := Option.bind_eq_some_iff.mp h
    exact ⟨t, ht, ih h⟩

/-- **The invariant rule** for a partial step function. -/
theorem runs_inv {I : σ → Prop} (hstep : ∀ s e s', I s → next s e = some s' → I s') {s s' : σ}
    {es : List ε} (h0 : I s) (h : Runs next s es s') : I s' := by
  induction es generalizing s with
  | nil =>
    cases h
    exact h0
  | cons e es ih =>
    obtain ⟨t, ht, hr⟩ := h
    exact ih (hstep s e t h0 ht) hr

/-- `P` holds in the last state of a run through which it always holds. -/
theorem Always.last {P : σ → Prop} {s s' : σ} {es : List ε} (h : Always next P s es)
    (hr : Runs next s es s') : P s' := by
  induction es generalizing s with
  | nil =>
    cases hr
    exact h
  | cons e es ih =>
    obtain ⟨t, ht, hr⟩ := hr
    exact ih (h.2 t ht) hr

/-- **Exactly when a property always holds**: where a step from a state that satisfies `P` keeps it
    if and only if `C` holds of the step, `P` holds in every state of a run if and only if `C` holds
    of each of its steps. -/
theorem always_iff_each {I P : σ → Prop} {C : σ → ε → Prop}
    (hinv : ∀ s e s', I s → next s e = some s' → I s')
    (hstep : ∀ s e s', I s → P s → next s e = some s' → (P s' ↔ C s e)) {s : σ} {es : List ε}
    (hI : I s) (hP : P s) : Always next P s es ↔ Each next C s es := by
  induction es generalizing s with
  | nil => exact iff_of_true hP trivial
  | cons e es ih =>
    refine ⟨fun h s' hs' => ?_, fun h => ⟨hP, fun s' hs' => ?_⟩⟩
    · have halways := h.2 s' hs'
      have hP' : P s' := by
        cases es with
        | nil => exact halways
        | cons e' es => exact halways.1
      exact ⟨(hstep s e s' hI hP hs').mp hP', (ih (hinv s e s' hI hs') hP').mp halways⟩
    · obtain ⟨hC, heach⟩ := h s' hs'
      have hP' := (hstep s e s' hI hP hs').mpr hC
      exact (ih (hinv s e s' hI hs') hP').mpr heach

end Partial

end Basis
