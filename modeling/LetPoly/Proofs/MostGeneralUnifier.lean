import LetPoly.Proofs.Valuation
import LetPoly.Unify

/-! # Most general unifiers

Proofs about `unify` follow its recursion (`unify_induct`): a variable on
either side, equal base types, two function types, or a clash of two different
heads.  The codomains come under the unifier of the domains.

A unifier makes the two types equal (`unify_apply_eq`), is in solved form over
their variables (`unify_solved`), and is solved by every valuation that makes
the two types equal; in particular there is one whenever such a valuation
exists (`exists_unify_of_under_eq`).  Among substitutions, it is the most general
one that makes them equal (`unify_mostGeneral`).
-/

namespace LetPoly

/-- Types with different heads, neither of them a variable. -/
inductive Ty.Clash : Ty → Ty → Prop where
  | intBool : Clash .int .bool
  | boolInt : Clash .bool .int
  | intFn {dom cod : Ty} : Clash .int (.fn dom cod)
  | fnInt {dom cod : Ty} : Clash (.fn dom cod) .int
  | boolFn {dom cod : Ty} : Clash .bool (.fn dom cod)
  | fnBool {dom cod : Ty} : Clash (.fn dom cod) .bool

/-- No valuation makes clashing types equal. -/
theorem Ty.Clash.under_ne {t u : Ty} (h : t.Clash u) (θ : Valuation) : t.under θ ≠ u.under θ := by
  cases h <;> simp

/-! ## Equations of unification -/

theorem unify_int : unify .int .int = .ok ∅ := by
  rw [unify, Unify.solve]
  rfl

theorem unify_bool : unify .bool .bool = .ok ∅ := by
  rw [unify, Unify.solve]
  rfl

/-- Different heads, neither of them a variable, do not unify. -/
theorem unify_clash {t u : Ty} (h : t.Clash u) : unify t u = .error (.mismatch t u) := by
  cases h <;> simp [unify, Unify.solve, Unify.Outcome.unifier, Unify.Outcome.fail, Except.map]

/-- What is found is in solved form, over the variables of the equation. -/
theorem unify_solved {t u : Ty} {s : Subst} (h : unify t u = .ok s) :
    s.Solved (Unify.names t u) := by
  rw [unify, Unify.Outcome.unifier] at h
  cases hr : (Unify.solve t u).result with
  | error e => rw [hr] at h; cases h
  | ok r =>
      rw [hr] at h
      cases h
      exact r.2

/-- The recursion of unification. -/
theorem unify_induct {motive : Ty → Ty → Prop} (varLeft : ∀ v u, motive (.var v) u)
    (varRight : ∀ t v, (∀ w, t ≠ .var w) → motive t (.var v)) (int : motive .int .int)
    (bool : motive .bool .bool)
    (fn : ∀ a b c d, motive a c → (∀ s, unify a c = .ok s → motive (s.apply b) (s.apply d)) →
      motive (.fn a b) (.fn c d))
    (clash : ∀ t u, t.Clash u → motive t u) : ∀ t u, motive t u
  | .var v, u => varLeft v u
  | .int, .var v => varRight _ v fun _ h => nomatch h
  | .bool, .var v => varRight _ v fun _ h => nomatch h
  | .fn _ _, .var v => varRight _ v fun _ h => nomatch h
  | .int, .int => int
  | .bool, .bool => bool
  | .int, .bool => clash _ _ .intBool
  | .bool, .int => clash _ _ .boolInt
  | .int, .fn _ _ => clash _ _ .intFn
  | .fn _ _, .int => clash _ _ .fnInt
  | .bool, .fn _ _ => clash _ _ .boolFn
  | .fn _ _, .bool => clash _ _ .fnBool
  | .fn a b, .fn c d =>
      fn a b c d (unify_induct varLeft varRight int bool fn clash a c) fun s _ =>
        unify_induct varLeft varRight int bool fn clash (s.apply b) (s.apply d)
termination_by t u => Unify.rank t u
decreasing_by
  · exact Unify.rank_domains a b c d
  · exact Unify.rank_codomains (unify_solved (by assumption))

/-- The two steps of unifying function types. -/
theorem unify_fn_ok {a b c d : Ty} {s : Subst} (h : unify (.fn a b) (.fn c d) = .ok s) :
    ∃ s₁ s₂, unify a c = .ok s₁ ∧ unify (s₁.apply b) (s₁.apply d) = .ok s₂ ∧
      s = s₂.compose s₁ := by
  rw [unify_fn] at h
  cases h₁ : unify a c with
  | error e => rw [h₁] at h; cases h
  | ok s₁ =>
      rw [h₁] at h
      cases h₂ : unify (s₁.apply b) (s₁.apply d) with
      | error e => simp [bind, Except.bind, h₂] at h
      | ok s₂ =>
          simp only [bind, Except.bind, h₂] at h
          cases h
          exact ⟨s₁, s₂, rfl, h₂, rfl⟩

/-- Function types unify if their domains do, and the codomains under what is found for
the domains. -/
theorem unify_fn_eq_ok {a b c d : Ty} {s₁ s₂ : Subst} (h₁ : unify a c = .ok s₁)
    (h₂ : unify (s₁.apply b) (s₁.apply d) = .ok s₂) :
    unify (.fn a b) (.fn c d) = .ok (s₂.compose s₁) := by
  rw [unify_fn, h₁]
  simp only [bind, Except.bind, h₂]
  rfl

/-- If the domains do not unify, their error is reported. -/
theorem unify_fn_eq_error_of_domains {a b c d : Ty} {e : UnifyError} (h : unify a c = .error e) :
    unify (.fn a b) (.fn c d) = .error e := by
  rw [unify_fn, h]
  rfl

/-- If the codomains do not unify, their error is reported. -/
theorem unify_fn_eq_error_of_codomains {a b c d : Ty} {s₁ : Subst} {e : UnifyError}
    (h₁ : unify a c = .ok s₁) (h₂ : unify (s₁.apply b) (s₁.apply d) = .error e) :
    unify (.fn a b) (.fn c d) = .error e := by
  rw [unify_fn, h₁]
  simp only [bind, Except.bind, h₂]

/-! ## A variable and a type -/

/-- A variable is bound to a type in which it does not occur, or it is that type
and nothing is bound. -/
theorem bindVar_ok {v : Name} {t : Ty} {s : Subst} (h : bindVar v t = .ok s) :
    (t = .var v ∧ s = ∅) ∨ (v ∉ t ∧ s = NameMap.single v t) := by
  rw [bindVar] at h
  split at h
  · next heq =>
    cases h
    exact .inl ⟨heq, rfl⟩
  · split at h
    · cases h
    · next hocc =>
      cases h
      exact .inr ⟨hocc, rfl⟩

/-- Binding a variable to a type makes the two equal. -/
theorem bindVar_apply_eq {v : Name} {t : Ty} {s : Subst} (h : bindVar v t = .ok s) :
    s.apply (.var v) = s.apply t := by
  rcases bindVar_ok h with ⟨rfl, rfl⟩ | ⟨hocc, rfl⟩
  · rfl
  · have ht : Subst.apply (NameMap.single v t) t = t := by
      refine Subst.apply_eq_self fun w hw => ?_
      have hne : w ≠ v := fun heq => hocc (heq ▸ hw)
      rw [NameMap.find?_single, if_neg hne]
    rw [ht, Subst.apply_var, NameMap.find?_single, if_pos rfl]
    rfl

/-- If a valuation gives a variable the value of a type, then the variable can be bound
to the type, and the valuation solves the binding. -/
theorem exists_bindVar_of_under_eq {θ : Valuation} {v : Name} {t : Ty} (h : θ v = t.under θ) :
    ∃ s, bindVar v t = .ok s ∧ θ.Solves s := by
  rw [bindVar]
  split
  · exact ⟨∅, rfl, Valuation.solves_empty θ⟩
  · next hne =>
    split
    · next hocc => exact absurd h (Ty.ne_under_of_mem hocc hne)
    · refine ⟨NameMap.single v t, rfl, ?_⟩
      intro w u hw
      obtain ⟨rfl, rfl⟩ := NameMap.find?_single_eq_some_iff.mp hw
      exact h

/-! ## Two types -/

/-- The unifier of the codomains binds no variable that the unifier of the domains
has bound: such a variable is gone from the codomains. -/
theorem unify_fn_apart {a b c d : Ty} {s₁ s₂ : Subst} (h₁ : unify a c = .ok s₁)
    (h₂ : unify (s₁.apply b) (s₁.apply d) = .ok s₂) (v : Name) :
    s₂.find? v = none ∨ s₁.find? v = none := by
  cases hf : s₂.find? v with
  | none => exact .inl rfl
  | some u => exact .inr (Unify.unbound_codomains (unify_solved h₁) ((unify_solved h₂).key_mem hf))

/-- The unifier of two function types acts as the two unifiers of its parts, one
after the other. -/
theorem apply_unify_fn {a b c d : Ty} {s₁ s₂ : Subst} (h₁ : unify a c = .ok s₁)
    (h₂ : unify (s₁.apply b) (s₁.apply d) = .ok s₂) (t : Ty) :
    (s₂.compose s₁).apply t = s₂.apply (s₁.apply t) :=
  Subst.apply_compose (unify_fn_apart h₁ h₂) t

/-- A unifier makes the two types equal. -/
theorem unify_apply_eq {t u : Ty} {s : Subst} (h : unify t u = .ok s) : s.apply t = s.apply u := by
  induction t, u using unify_induct generalizing s with
  | varLeft v u =>
      rw [unify_var_left] at h
      exact bindVar_apply_eq h
  | varRight t v ht =>
      rw [unify_var_right v ht] at h
      exact (bindVar_apply_eq h).symm
  | int => rfl
  | bool => rfl
  | fn a b c d ihDom ihCod =>
      obtain ⟨s₁, s₂, h₁, h₂, rfl⟩ := unify_fn_ok h
      rw [apply_unify_fn h₁ h₂, apply_unify_fn h₁ h₂]
      simp only [Subst.apply_fn]
      rw [ihDom h₁, ihCod s₁ h₁ h₂]
  | clash t u hc => rw [unify_clash hc] at h; cases h

/-- Types that some valuation makes equal have a unifier, which the valuation
solves. -/
theorem exists_unify_of_under_eq {θ : Valuation} {t u : Ty} (h : t.under θ = u.under θ) :
    ∃ s, unify t u = .ok s ∧ θ.Solves s := by
  induction t, u using unify_induct with
  | varLeft v u =>
      rw [unify_var_left]
      exact exists_bindVar_of_under_eq h
  | varRight t v ht =>
      rw [unify_var_right v ht]
      exact exists_bindVar_of_under_eq h.symm
  | int => exact ⟨∅, unify_int, Valuation.solves_empty θ⟩
  | bool => exact ⟨∅, unify_bool, Valuation.solves_empty θ⟩
  | fn a b c d ihDom ihCod =>
      simp only [Ty.under_fn, Ty.fn.injEq] at h
      obtain ⟨s₁, h₁, hs₁⟩ := ihDom h.1
      -- the valuation does not see that the codomains were rewritten
      have hcod : (s₁.apply b).under θ = (s₁.apply d).under θ := by
        rw [hs₁.under_apply, hs₁.under_apply]
        exact h.2
      obtain ⟨s₂, h₂, hs₂⟩ := ihCod s₁ h₁ hcod
      exact ⟨s₂.compose s₁, unify_fn_eq_ok h₁ h₂, hs₂.compose hs₁⟩
  | clash t u hc => exact absurd h (hc.under_ne θ)

/-- A substitution that makes two types equal absorbs their unifier. -/
theorem exists_unify_of_apply_eq {θ : Subst} {t u : Ty} (h : θ.apply t = θ.apply u) :
    ∃ s, unify t u = .ok s ∧ ∀ w, θ.apply (s.apply w) = θ.apply w := by
  rw [Subst.apply_eq_under, Subst.apply_eq_under] at h
  obtain ⟨s, hs, hsolves⟩ := exists_unify_of_under_eq h
  refine ⟨s, hs, fun w => ?_⟩
  rw [Subst.apply_eq_under θ, Subst.apply_eq_under θ]
  exact hsolves.under_apply w

/-- Two types can be made equal exactly if `unify` succeeds.  Its result makes them
equal, and every substitution that does so absorbs it. -/
theorem unify_mostGeneral (t u : Ty) :
    (∃ θ : Subst, θ.apply t = θ.apply u) ↔
      ∃ s, unify t u = .ok s ∧ s.apply t = s.apply u ∧
        ∀ θ : Subst, θ.apply t = θ.apply u → ∀ w, θ.apply (s.apply w) = θ.apply w := by
  constructor
  · rintro ⟨θ, hθ⟩
    obtain ⟨s, hs, -⟩ := exists_unify_of_apply_eq hθ
    refine ⟨s, hs, unify_apply_eq hs, fun φ hφ w => ?_⟩
    obtain ⟨s', hs', habsorb⟩ := exists_unify_of_apply_eq hφ
    obtain rfl : s' = s := Except.ok.inj (hs'.symm.trans hs)
    exact habsorb w
  · rintro ⟨s, -, hs, -⟩
    exact ⟨s, hs⟩

end LetPoly
