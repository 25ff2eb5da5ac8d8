import LetPoly.Proofs.Completeness
import LetPoly.Proofs.Evaluation
import LetPoly.Proofs.Soundness

/-! # Top-level style lets

In an expression with top-level style lets (`Expr.TopLets`), what a `let` binds
does not depend on the parameters around it.  Then the type of the bound
expression speaks only of names that were drawn for it, its scheme is closed,
and the substitutions of the bound expression and of the body have nothing in
common.  The rule of `infer` does what the standard rule does
(`Run.standard_of_topLets`), so that its results are derivable, principal and in
solved form (`typing_topLets`).
-/

namespace LetPoly

variable {R : LetRule} {D : Demand} {Γ : Context} {k k' : NameSupply} {e : Expr} {s : Subst}
  {t : Ty} {params : List Name}

namespace Expr

/-- No bound expression of a `let` has a free variable among `params` or the
parameters of the abstractions around it.  A `let` hides a parameter of the same
name in its body. -/
def TopLets (params : List Name) : Expr → Prop
  | .var _ => True
  | .lit _ => True
  | .app func arg => func.TopLets params ∧ arg.TopLets params
  | .abs param body => body.TopLets (param :: params)
  | .letIn name bound body =>
      (∀ y ∈ params, ¬ bound.Free y) ∧ bound.TopLets params ∧
        body.TopLets (params.filter (· ≠ name))

/-- The condition is decided from the leaves up. -/
def decidableTopLets (params : List Name) : (e : Expr) → Decidable (e.TopLets params)
  | .var _ => inferInstanceAs (Decidable True)
  | .lit _ => inferInstanceAs (Decidable True)
  | .app func arg =>
      let _ := decidableTopLets params func
      let _ := decidableTopLets params arg
      inferInstanceAs (Decidable (func.TopLets params ∧ arg.TopLets params))
  | .abs param body => decidableTopLets (param :: params) body
  | .letIn name bound body =>
      let _ := decidableTopLets params bound
      let _ := decidableTopLets (params.filter (· ≠ name)) body
      inferInstanceAs (Decidable ((∀ y ∈ params, ¬ bound.Free y) ∧ bound.TopLets params ∧
        body.TopLets (params.filter (· ≠ name))))

instance (params : List Name) (e : Expr) : Decidable (e.TopLets params) :=
  decidableTopLets params e

end Expr

/-! ## Contexts in which only parameters are open -/

namespace Context

/-- Every scheme of a name that is not a parameter is closed. -/
def ClosedOutside (params : List Name) (Γ : Context) : Prop :=
  ∀ x σ, Γ.find? x = some σ → x ∉ params → σ.Closed

theorem ClosedOutside.insert_param (h : Γ.ClosedOutside params) (x : Name) (σ : Scheme) :
    Context.ClosedOutside (x :: params) (Γ.insert x σ) := by
  intro y τ hy hnot
  rw [NameMap.find?_insert] at hy
  split at hy
  · next heq => exact absurd (heq ▸ List.mem_cons_self) hnot
  · exact h y τ hy fun hmem => hnot (List.mem_cons_of_mem x hmem)

/-- The closed scheme of a `let` takes the place of a parameter of the same name. -/
theorem ClosedOutside.insert_let (h : Γ.ClosedOutside params) {x : Name} {σ : Scheme}
    (hσ : σ.Closed) : Context.ClosedOutside (params.filter (· ≠ x)) (Γ.insert x σ) := by
  intro y τ hy hnot
  rw [NameMap.find?_insert] at hy
  split at hy
  · cases hy
    exact hσ
  · next hne =>
    exact h y τ hy fun hmem => hnot (List.mem_filter.mpr ⟨hmem, decide_eq_true hne⟩)

theorem ClosedOutside.applySubst (h : Γ.ClosedOutside params) (s : Subst) :
    (Γ.applySubst s).ClosedOutside params := by
  intro x τ hx hnot
  rw [find?_applySubst] at hx
  obtain ⟨σ, hσ, rfl⟩ := Option.map_eq_some_iff.mp hx
  have hclosed := h x σ hσ hnot
  rwa [hclosed.applyScheme_eq]

theorem closed_generalize_empty (t : Ty) : (Context.generalize ∅ t).Closed := fun v hv =>
  closed_empty.not_mem_freeVars v (mem_freeVars_generalize.mp hv).2

/-- Only the variables of the type matter for generalizing it. -/
theorem generalize_eq_of_apart (h : ∀ v, v ∈ t → v ∉ Γ.freeVars) :
    Γ.generalize t = Context.generalize ∅ t := by
  refine generalize_congr fun v hv => ?_
  exact iff_of_false (h v hv) (closed_empty.not_mem_freeVars v)

end Context

/-! ## Bound expressions without parameters -/

/-- Without parameters, a run speaks only of names that it has drawn. -/
theorem Run.drawn_of_closedOutside (h : Run R D Γ k e s t k') (hΓ : Γ.ClosedOutside params)
    (he : ∀ y ∈ params, ¬ e.Free y) {v : Name} (hv : v ∈ s.names ∨ v ∈ t) : k.Drawn k' v := by
  rcases h.mentions hv with ⟨x, σ, hx, hσ, hfree⟩ | hd
  · exact absurd hfree (hΓ x σ hσ (fun hmem => he x hmem hx) v)
  · exact hd

/-- A `let` whose bound expression speaks only of its own names adds a closed
scheme and leaves the context alone, by every rule. -/
theorem LetRule.bodyContext_eq_of_drawn (hΓ : Γ.Settled k)
    (hown : ∀ v, v ∈ s.names ∨ v ∈ t → k.Drawn k' v) (R : LetRule) (x : Name) :
    R.bodyContext Γ x s t = Γ.insert x (Context.generalize ∅ t) := by
  have hself : Γ.applySubst s = Γ :=
    Context.applySubst_eq_self fun v hv => Subst.find?_of_not_mem_names fun hmem =>
      hΓ.old v hv (hown v (.inl hmem)).pending
  have hscheme : R.scheme Γ x s t = Context.generalize ∅ t := by
    refine Context.generalize_eq_of_apart fun v hv hmem => ?_
    obtain ⟨y, σ, hy, hσ⟩ := Context.mem_freeVars_applySubst hmem
    have hfree := Context.mem_freeVars_applySubst_of_find? (find?_of_find?_scope hy) hσ
    rw [hself] at hfree
    exact hΓ.old v hfree (hown v (.inr hv)).pending
  rw [bodyContext_eq_insert, hscheme, (Context.closed_generalize_empty t).applyScheme_eq, hself]

/-- A run that goes on in the body speaks of none of the names that were drawn
for the bound expression. -/
theorem Run.not_mem_names_body {x : Name} {u : Ty} {k'' : NameSupply} (hΓ : Γ.Settled k)
    (h : Run R D (Γ.insert x (Context.generalize ∅ u)) k' e s t k'') {v : Name}
    (hv : k.Drawn k' v) : v ∉ s.names := by
  intro hmem
  rcases h.within (.inl hmem) with hfree | hd
  · obtain ⟨y, σ, hy, hσ⟩ := Context.mem_freeVars.mp hfree
    rw [NameMap.find?_insert] at hy
    split at hy
    · cases hy
      exact Context.closed_generalize_empty u v hσ
    · exact hΓ.old v (Context.mem_freeVars_of_find? hy hσ) hv.pending
  · exact hv.not_pending hd.pending

/-! ## The standard rule -/

/-- If no bound expression depends on a parameter, the run follows the standard rule as
well. -/
theorem Run.standard_of_topLets (h : Run .ofInfer D Γ k e s t k') (hΓ : Γ.Settled k)
    (hout : Γ.ClosedOutside params) (he : e.TopLets params) :
    Run .standard .nothing Γ k e s t k' := by
  induction h generalizing params with
  | var hx ht => exact .var hx ht
  | lit => exact .lit
  | @abs Γ k k₁ k' x a body s t ha _ ih =>
      exact .abs ha (ih (hΓ.insert_fresh ha x) (hout.insert_param x _) he)
  | @app Γ k k₀ k₁ k₂ r f a s₁ s₂ s₃ t₁ t₂ hr hf _ hu _ _ ihf iha =>
      have hΓ₀ := hΓ.mono (NameSupply.le_of_fresh hr)
      exact .app hr (ihf hΓ₀ hout he.1) (iha (hΓ₀.applySubst hf) (hout.applySubst s₁) he.2) hu
        trivial trivial
  | @letIn Γ k k₁ k₂ x e₁ e₂ s₁ s₂ t₁ t₂ h₁ h₂ _ ih₁ ih₂ =>
      obtain ⟨hfree, he₁, he₂⟩ := he
      have hown : ∀ v, v ∈ s₁.names ∨ v ∈ t₁ → k.Drawn k₁ v := fun v hv =>
        h₁.drawn_of_closedOutside hout hfree hv
      have hctx := fun R => LetRule.bodyContext_eq_of_drawn hΓ hown R x
      have hset := hΓ.bodyContext h₁ .ofInfer x
      rw [hctx] at h₂ hset
      have hbody := ih₂ (hctx .ofInfer ▸ hset)
        (hctx .ofInfer ▸ hout.insert_let (Context.closed_generalize_empty t₁)) he₂
      have hapart : ∀ v, v ∈ s₁.names → v ∉ s₂.names := fun v hv =>
        h₂.not_mem_names_body hΓ (hown v (.inl hv))
      have hjoin : LetRule.ofInfer.join s₁ s₂ = LetRule.standard.join s₁ s₂ :=
        Subst.compose_comm_of_disjoint hapart
      rw [hjoin]
      rw [hctx .ofInfer, ← hctx .standard] at hbody
      exact .letIn (ih₁ hΓ hout he₁) hbody trivial

/-- In a closed context, the result for an expression with top-level style lets
is derivable and principal, the substitution is idempotent, and the type
mentions no variable that it binds. -/
theorem typing_topLets (hΓ : Γ.Closed) (he : e.TopLets []) (h : typing Γ e = .ok (s, t)) :
    HasType Γ e t ∧ (∀ u, HasType Γ e u → ∃ θ : Subst, u = θ.apply t) ∧
      (∀ u, s.apply (s.apply u) = s.apply u) ∧ s.apply t = t ∧ ∀ v ∈ s.keys, v ∉ t.freeVars := by
  obtain ⟨t₀, k, hrun, rfl⟩ := typing_eq_ok_iff.mp h
  have hset : Γ.Settled (.start Γ.freeVars) := hΓ.settled _
  have hstandard := hrun.standard_of_topLets hset (fun x σ hx _ => hΓ x σ hx) he
  have hfound : typeOfBy .standard Γ e = .ok (s.apply t₀) :=
    typeOfBy_eq_ok_iff.mpr ⟨s, t₀, k, hstandard, rfl⟩
  have hsolved : s.IsSolved := (hstandard.resolves rfl hset).isSolved
  refine ⟨?_, fun u hu => ?_, hsolved.apply_apply, hsolved.apply_apply t₀, fun v hv hmem => ?_⟩
  · rw [← Ty.under_id (s.apply t₀)]
    exact hasType_of_typeOfBy hΓ hfound .var
  · obtain ⟨t, ht, θ, rfl⟩ := exists_typeOfBy .standard hΓ hu
    rw [hfound] at ht
    cases ht
    exact ⟨θ.restrict (s.apply t₀).freeVars, (θ.apply_restrict _).symm⟩
  · have hnone := hsolved.find?_of_mem_apply (Ty.mem_freeVars.mp hmem)
    exact NameMap.find?_eq_none_iff.mp hnone hv

/-- `\y -> let id = \x -> x in let k = id id in k y`. -/
def applyShared : Expr :=
  .abs "y" (.letIn "id" (.abs "x" (.var "x"))
    (.letIn "k" (.app (.var "id") (.var "id")) (.app (.var "k") (.var "y"))))

/-- What `infer` binds for `applyShared`. -/
def applySharedSubst : Subst :=
  .ofList [("a", .var "f"), ("c", .fn (.var "e") (.var "e")), ("d", .fn (.var "e") (.var "e")),
    ("g", .var "f")]

/-- Both bound expressions of `applyShared` are under an abstraction, and neither
depends on its parameter. -/
theorem typing_topLets_applyShared :
    applyShared.TopLets [] ∧
      typing ∅ applyShared = .ok (applySharedSubst, .fn (.var "f") (.var "f")) ∧
      HasType ∅ applyShared (.fn (.var "f") (.var "f")) ∧
      (∀ u, HasType ∅ applyShared u → ∃ θ : Subst, u = θ.apply (.fn (.var "f") (.var "f"))) ∧
      (∀ u, applySharedSubst.apply (applySharedSubst.apply u) = applySharedSubst.apply u) ∧
      applySharedSubst.apply (.fn (.var "f") (.var "f")) = .fn (.var "f") (.var "f") ∧
      ∀ v ∈ applySharedSubst.keys, v ∉ (Ty.fn (.var "f") (.var "f")).freeVars := by
  have hlets : applyShared.TopLets [] := by decide
  have htyping : typing ∅ applyShared = .ok (applySharedSubst, .fn (.var "f") (.var "f")) := by
    simp only [typing, trace, inferAnew, infer, InferM.unifier, Unify.solve_eq_compute, applyShared]
    decide +kernel
  exact ⟨hlets, htyping, typing_topLets Context.closed_empty hlets htyping⟩

end LetPoly
