import Mathlib

/-! # Conditions joined by one connective

Conditions that may have no result, joined by AND only or by OR only. They are looked at from left to right, and the
first one that decides ends this.
-/

namespace CsdWorker

set_option autoImplicit false

inductive Connective where
  | and | or
  deriving DecidableEq, Repr

namespace Connective

/-- A false condition decides a conjunction, a true one a disjunction. -/
def decisive : Connective → Bool
  | and => false
  | or => true

def join (c : Connective) : List (Option Bool) → Option Bool
  | [] => some !c.decisive
  | result :: results => do
    let b ← result
    if b = c.decisive then some b else c.join results

def Holds : Connective → List (Option Bool) → Prop
  | and, results => ∀ r ∈ results, r = some true
  | or, results => ∃ r ∈ results, r = some true

instance : (c : Connective) → (results : List (Option Bool)) → Decidable (c.Holds results)
  | and, results => inferInstanceAs (Decidable (∀ r ∈ results, r = some true))
  | or, results => inferInstanceAs (Decidable (∃ r ∈ results, r = some true))

variable {c : Connective} {results : List (Option Bool)}

theorem join_decisive : c.join (some c.decisive :: results) = some c.decisive := if_pos rfl

theorem join_not_decisive : c.join (some (!c.decisive) :: results) = c.join results := if_neg (Bool.not_ne_self _)

theorem join_singleton (r : Option Bool) : c.join [r] = r := by
  cases c with
  | and => rcases r with _ | _ | _ <;> rfl
  | or => rcases r with _ | _ | _ <;> rfl

theorem join_eq_not_decisive_iff : c.join results = some (!c.decisive) ↔ ∀ r ∈ results, r = some (!c.decisive) := by
  induction results with
  | nil => exact iff_of_true rfl (by simp)
  | cons r results ih =>
    rw [List.forall_mem_cons]
    constructor
    · intro h
      obtain ⟨b, rfl, hRest⟩ := Option.bind_eq_some_iff.mp h
      split at hRest
      · rename_i hDecisive
        rw [hDecisive] at hRest
        exact absurd (Option.some_inj.mp hRest).symm (Bool.not_ne_self _)
      · rename_i hOther
        exact ⟨congrArg some (Bool.eq_not.mpr hOther), ih.mp hRest⟩
    · rintro ⟨rfl, hRest⟩
      rw [join_not_decisive]
      exact ih.mpr hRest

theorem decisive_mem_of_join (h : c.join results = some c.decisive) : some c.decisive ∈ results := by
  induction results with
  | nil => exact absurd (Option.some_inj.mp h) (Bool.not_ne_self _)
  | cons r results ih =>
    obtain ⟨b, rfl, hRest⟩ := Option.bind_eq_some_iff.mp h
    split at hRest
    · rename_i hDecisive
      rw [hDecisive]
      exact List.mem_cons_self
    · exact List.mem_cons_of_mem _ (ih hRest)

/-- If there is a result at all, it says whether the connected conditions hold. -/
theorem join_eq_true_iff_holds (h : (c.join results).isSome) : c.join results = some true ↔ c.Holds results := by
  cases c with
  | and => exact join_eq_not_decisive_iff
  | or =>
    have hFalse : Connective.or.join results = some false ↔ ∀ r ∈ results, r = some false := join_eq_not_decisive_iff
    constructor
    · intro hTrue
      exact ⟨some true, decisive_mem_of_join hTrue, rfl⟩
    · rintro ⟨r, hMem, rfl⟩
      obtain ⟨b, hb⟩ := Option.isSome_iff_exists.mp h
      cases b with
      | true => exact hb
      | false => exact absurd (hFalse.mp hb _ hMem) (by simp)

end Connective

end CsdWorker
