import LetPoly.Proofs.Completeness
import LetPoly.Proofs.Evaluation
import LetPoly.Proofs.Soundness

/-! # When the type found is derivable

The type that inference finds is at least as general as every derivable type,
but it may be more general than that.  It is derivable exactly if the standard
rule for `let` finds the same type up to renaming (`typeOf_hasType_iff`).

The two rules part where a `let` rebinds a parameter, or where its body binds a
variable that the bound expression has left open.
-/

namespace LetPoly

variable {Γ : Context} {e : Expr} {t u : Ty}

/-- Two types are instances of each other. -/
def Ty.Variant (t u : Ty) : Prop :=
  (∃ s : Subst, u = s.apply t) ∧ ∃ s : Subst, t = s.apply u

theorem Ty.Variant.refl (t : Ty) : t.Variant t :=
  ⟨⟨∅, (Subst.apply_empty t).symm⟩, ∅, (Subst.apply_empty t).symm⟩

/-- Types that are instances of each other are variants. -/
theorem Ty.Variant.of_under {θ φ : Valuation} (hu : u = t.under φ) (ht : t = u.under θ) :
    t.Variant u :=
  ⟨⟨φ.restrict t.freeVars, hu.trans (φ.apply_restrict t).symm⟩,
    θ.restrict u.freeVars, ht.trans (θ.apply_restrict u).symm⟩

/-- The type found in a closed context is derivable exactly if the standard rule for
`let` finds a variant of it. -/
theorem typeOf_hasType_iff (hΓ : Γ.Closed) (h : typeOf Γ e = .ok t) :
    HasType Γ e t ↔ ∃ u, typeOfBy .standard Γ e = .ok u ∧ t.Variant u := by
  constructor
  · intro ht
    obtain ⟨u, hu, θ, hθ⟩ := exists_typeOfBy .standard hΓ ht
    have hderivable : HasType Γ e u := u.under_id ▸ hasType_of_typeOfBy hΓ hu .var
    obtain ⟨t', ht', φ, hφ⟩ := exists_typeOfBy .ofInfer hΓ hderivable
    rw [typeOf_eq_ok_iff_typeOfBy.mp h] at ht'
    cases ht'
    exact ⟨u, hu, .of_under hφ hθ⟩
  · rintro ⟨u, hu, -, s, rfl⟩
    rw [Subst.apply_eq_under]
    exact hasType_of_typeOfBy hΓ hu s.val

/-- A `let` that binds a parameter but does not rebind its name, as in
`\x -> let y = x in \z -> y`, is typed correctly. -/
theorem typeOf_hasType_iff_alias :
    typeOf ∅ (.abs "x" (.letIn "y" (.var "x") (.abs "z" (.var "y")))) =
        .ok (.fn (.var "a") (.fn (.var "b") (.var "a"))) ∧
      HasType ∅ (.abs "x" (.letIn "y" (.var "x") (.abs "z" (.var "y"))))
        (.fn (.var "a") (.fn (.var "b") (.var "a"))) := by
  have hfound : typeOf ∅ (.abs "x" (.letIn "y" (.var "x") (.abs "z" (.var "y")))) =
      .ok (.fn (.var "a") (.fn (.var "b") (.var "a"))) := by decide +kernel
  have hstandard : typeOfBy .standard ∅ (.abs "x" (.letIn "y" (.var "x") (.abs "z" (.var "y")))) =
      .ok (.fn (.var "a") (.fn (.var "b") (.var "a"))) := by decide +kernel
  exact ⟨hfound, (typeOf_hasType_iff Context.closed_empty hfound).mpr ⟨_, hstandard, .refl _⟩⟩

/-- `\x -> let x = x in body`. -/
def rebound (body : Expr) : Expr :=
  .abs "x" (.letIn "x" (.var "x") body)

/-- In `\x -> let x = x in x` the new `x` gets a type of its own, and
`\x -> let x = x in (\u -> x True) (x 1)`, which has no type, is accepted. -/
theorem typeOf_not_hasType :
    (∃ t, typeOf ∅ (rebound (.var "x")) = .ok t ∧ ¬ HasType ∅ (rebound (.var "x")) t) ∧
      ∃ body t, typeOf ∅ (rebound body) = .ok t ∧ ∀ u, ¬ HasType ∅ (rebound body) u := by
  constructor
  · refine ⟨.fn (.var "a") (.var "b"), by decide +kernel, fun htype => ?_⟩
    obtain ⟨t, ht, θ, hθ⟩ := exists_typeOfBy .standard Context.closed_empty htype
    have hstandard : typeOfBy .standard ∅ (rebound (.var "x")) =
        .ok (.fn (.var "a") (.var "a")) := by decide +kernel
    rw [hstandard] at ht
    cases ht
    -- both sides of the arrow have one value
    rw [Ty.under_fn, Ty.fn.injEq] at hθ
    exact absurd (hθ.1.trans hθ.2.symm) (by decide)
  · refine ⟨.app (.abs "u" (.app (.var "x") (.bool true))) (.app (.var "x") (.int 1)),
      .fn (.var "a") (.var "b"), ?_, fun u htype => ?_⟩
    · simp only [typeOf, typing, trace, inferAnew, infer, InferM.unifier, Unify.solve_eq_compute,
        rebound]
      decide +kernel
    obtain ⟨t, ht, -⟩ := exists_typeOfBy .standard Context.closed_empty htype
    have hstandard : typeOfBy .standard ∅ (rebound
        (.app (.abs "u" (.app (.var "x") (.bool true))) (.app (.var "x") (.int 1)))) =
          .error (.unify (.mismatch .bool .int)) := by
      simp only [typeOfBy, inferBy, InferM.unifier, Unify.solve_eq_compute, rebound]
      decide +kernel
    rw [hstandard] at ht
    cases ht

end LetPoly
