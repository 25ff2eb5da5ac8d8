import Mathlib.Control.Monad.Basic
import LetPoly.Infer

/-! # Evaluation of closed terms

What unification and inference find for closed terms can be decided, as long as
the recursion computes.  That of `Unify.solve` does not: it is well-founded, and
the kernel does not unfold such a recursion.  `Unify.solveWithin` follows the
same clauses with a budget for the depth of the recursion and is structural.
Where the budget is enough it agrees with `Unify.solve`
(`Unify.solveWithin_eq_none_or`), and with a fallback for where it is not, it is
`Unify.solve` (`Unify.solve_eq_compute`).
-/

namespace LetPoly

namespace Unify

/-- Solve an equation with a budget for the depth of the recursion. -/
def solveWithin : Nat → (t u : Ty) → Option (Outcome (names t u))
  | 0, _, _ => none
  | budget + 1, .fn a b, .fn c d =>
      match solveWithin budget a c with
      | none => none
      | some ⟨bs₁, cs₁, .error e⟩ => some ⟨bs₁, cs₁, .error e⟩
      | some ⟨bs₁, cs₁, .ok ⟨s₁, h₁⟩⟩ =>
          match solveWithin budget (s₁.apply b) (s₁.apply d) with
          | none => none
          | some ⟨bs₂, cs₂, .error e⟩ => some ⟨bs₁ ++ bs₂, cs₁ ++ cs₂, .error e⟩
          | some ⟨bs₂, cs₂, .ok ⟨s₂, h₂⟩⟩ =>
              some ⟨bs₁ ++ bs₂, cs₁ ++ cs₂ ++ [(s₂, s₁)],
                .ok ⟨s₂.compose s₁, solved_compose h₁ h₂⟩⟩
  | _ + 1, .var v, u => some (bindLeft v u)
  | _ + 1, t, .var v => some (bindRight t v)
  | _ + 1, .int, .int => some (.trivial _)
  | _ + 1, .bool, .bool => some (.trivial _)
  | _ + 1, t, u => some (.fail _ (.mismatch t u))

/-- Only function types take more of the budget than one. -/
theorem solveWithin_of_not_fn (budget : Nat) {t u : Ty} (h : (t.isFn && u.isFn) = false) :
    solveWithin (budget + 1) t u = some (solve t u) := by
  cases t <;> cases u <;> first | (cases h; done) | (rw [solve] <;> first | rfl | simp)

/-- Within a budget, the outcome is found or nothing is. -/
theorem solveWithin_eq_none_or (budget : Nat) (t u : Ty) :
    solveWithin budget t u = none ∨ solveWithin budget t u = some (solve t u) := by
  induction budget generalizing t u with
  | zero => exact .inl rfl
  | succ budget ih =>
      cases t with
      | fn a b =>
          cases u with
          | fn c d =>
              -- Both calls get the same budget, so `ih` serves the domains and, under
              -- whatever they bind, the codomains.
              rw [solveWithin, solve]
              rcases ih a c with hdom | hdom
              · exact .inl (by rw [hdom])
              · rw [hdom]
                rcases solve a c with ⟨bs₁, cs₁, e | ⟨s₁, h₁⟩⟩
                · exact .inr rfl
                · rcases ih (s₁.apply b) (s₁.apply d) with hcod | hcod
                  · exact .inl (by simp only [hcod])
                  · simp only [hcod]
                    rcases solve (s₁.apply b) (s₁.apply d) with ⟨bs₂, cs₂, e | ⟨s₂, h₂⟩⟩
                    · exact .inr rfl
                    · exact .inr rfl
          | _ => exact .inr (solveWithin_of_not_fn budget rfl)
      | _ => exact .inr (solveWithin_of_not_fn budget rfl)

/-- Solve an equation, within a budget that is enough for small ones. -/
def compute (t u : Ty) : Outcome (names t u) :=
  (solveWithin 32 t u).getD (solve t u)

/-- Whether or not the budget is enough, the outcome is the same. -/
theorem solve_eq_compute (t u : Ty) : solve t u = compute t u := by
  rw [compute]
  rcases solveWithin_eq_none_or 32 t u with h | h
  · rw [h, Option.getD_none]
  · rw [h, Option.getD_some]

end Unify

/-- A form of `unify` that evaluates. -/
theorem unify_eq_compute (t u : Ty) : unify t u = (Unify.compute t u).unifier := by
  rw [unify, Unify.solve_eq_compute]

/-! ## Results of computations -/

instance instDecidableEqResult {ε σ α : Type} [DecidableEq ε] [DecidableEq σ] [DecidableEq α] :
    DecidableEq (EStateM.Result ε σ α)
  | .ok a st, .ok a' st' => decidable_of_iff (a = a' ∧ st = st') (by simp)
  | .error e st, .error e' st' => decidable_of_iff (e = e' ∧ st = st') (by simp)
  | .ok _ _, .error _ _ => .isFalse fun h => by cases h
  | .error _ _, .ok _ _ => .isFalse fun h => by cases h

namespace InferM

variable {α : Type} [DecidableEq α]

instance (m : InferM α) (st : InferState) (a : α) : Decidable (∃ st', m.run st = .ok a st') :=
  match h : m.run st with
  | .ok a' st' =>
      if ha : a' = a then .isTrue ⟨st', by rw [ha]⟩
      else .isFalse fun ⟨_, h'⟩ => ha (EStateM.Result.ok.inj h').1
  | .error _ _ => .isFalse fun ⟨_, h'⟩ => nomatch h'

instance (m : InferM α) (st : InferState) (err : TypeError) :
    Decidable (∃ st', m.run st = .error err st') :=
  match h : m.run st with
  | .ok _ _ => .isFalse fun ⟨_, h'⟩ => nomatch h'
  | .error err' st' =>
      if herr : err' = err then .isTrue ⟨st', by rw [herr]⟩
      else .isFalse fun ⟨_, h'⟩ => herr (EStateM.Result.error.inj h').1

end InferM

end LetPoly
