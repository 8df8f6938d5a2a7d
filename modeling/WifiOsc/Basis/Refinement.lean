/-
  File:      WifiOsc/Basis/Refinement.lean
  Subject:   OBJECTS THAT ARE CALLED, AGAINST A TOTAL MACHINE THAT SAYS WHAT THEY ARE FOR. Nothing
             about a particular object.

  A call answers and changes the object, or it fails: `none` ends the sequence of calls.

  * `callAll`: the answers to a sequence of calls, and the object after it;
  * `Allowed`: every call of a sequence is one the caller may make, of the object as it then is;
  * `Refines`: one call of the object against one step of the machine, `Refines.callAll_iff`: **all
    calls answer as the machine does exactly when the condition holds throughout**.
-/
import WifiOsc.Basis.Machine

namespace Basis

variable {σ τ ι ω : Type}

/-- The object after the calls `is`, with their answers. -/
def callAll (call : σ → ι → Option (σ × List ω)) : σ → List ι → Option (σ × List ω)
  | s, [] => some (s, [])
  | s, i :: is =>
      match call s i with
      | none => none
      | some r => (callAll call r.1 is).map fun r' => (r'.1, r.2 ++ r'.2)

/-- `E` of every call, and of the object it is made of. -/
def Allowed (call : σ → ι → Option (σ × List ω)) (E : σ → ι → Prop) : σ → List ι → Prop
  | _, [] => True
  | s, i :: is => E s i ∧ ∀ s' o, call s i = some (s', o) → Allowed call E s' is

/-- Where `C` holds, a call that may be made answers as `M` does and keeps the relation `R`; where
    `C` does not hold, it fails. -/
structure Refines (call : σ → ι → Option (σ × List ω)) (M : Machine τ ι ω) (R : σ → τ → Prop)
    (E : σ → ι → Prop) (C : τ → ι → Prop) : Prop where
  answers : ∀ s t i, R s t → E s i → C t i →
    ∃ s', call s i = some (s', M.out t i) ∧ R s' (M.step t i)
  fails : ∀ s t i, R s t → E s i → ¬ C t i → call s i = none

variable {call : σ → ι → Option (σ × List ω)} {M : Machine τ ι ω} {R : σ → τ → Prop}
  {E : σ → ι → Prop} {C : τ → ι → Prop} {s : σ} {t : τ} {is : List ι}

theorem Refines.callAll_eq (h : Refines call M R E C) (hR : R s t) (hE : Allowed call E s is)
    (hC : M.Throughout C t is) :
    ∃ s', callAll call s is = some (s', M.log t is) ∧ R s' (M.run t is) := by
  induction is generalizing s t with
  | nil => exact ⟨s, rfl, hR⟩
  | cons i is ih =>
    obtain ⟨s₁, hcall, hR₁⟩ := h.answers s t i hR hE.1 hC.1
    obtain ⟨s', hcalls, hR'⟩ := ih hR₁ (hE.2 s₁ _ hcall) hC.2
    refine ⟨s', ?_, hR'⟩
    simp only [callAll, hcall, hcalls, Option.map_some, Machine.log_cons]

theorem Refines.callAll_none (h : Refines call M R E C) (hR : R s t) (hE : Allowed call E s is)
    (hC : ¬ M.Throughout C t is) : callAll call s is = none := by
  induction is generalizing s t with
  | nil => exact absurd trivial hC
  | cons i is ih =>
    by_cases hi : C t i
    · obtain ⟨s₁, hcall, hR₁⟩ := h.answers s t i hR hE.1 hi
      have hrest := ih hR₁ (hE.2 s₁ _ hcall) fun hT => hC ⟨hi, hT⟩
      simp only [callAll, hcall, hrest, Option.map_none]
    · simp only [callAll, h.fails s t i hR hE.1 hi]

/-- **The refinement rule.** -/
theorem Refines.callAll_iff (h : Refines call M R E C) (hR : R s t) (hE : Allowed call E s is) :
    (∃ s', callAll call s is = some (s', M.log t is) ∧ R s' (M.run t is)) ↔ M.Throughout C t is := by
  refine ⟨?_, h.callAll_eq hR hE⟩
  rintro ⟨s', hcalls, _⟩
  by_contra hC
  rw [h.callAll_none hR hE hC] at hcalls
  cases hcalls

end Basis
