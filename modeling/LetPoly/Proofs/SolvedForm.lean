import LetPoly.Proofs.Hygiene

/-! # Solved form

If the substitution of a `let` body rewrites that of the bound expression, a run
from a settled context ends in solved form, and its type mentions no bound
variable (`Run.resolves`).

In runs that end in solved form no variable is bound twice
(`Run.boundOnce_of_resolves`).
-/

namespace LetPoly

variable {R : LetRule} {D : Demand} {Γ : Context} {k k' k'' : NameSupply} {e : Expr} {s : Subst}
  {t : Ty}

/-! ## Bound variables do not return -/

/-- A name still to be drawn after a run is not bound by it. -/
theorem Run.find?_of_pending (h : Run R D Γ k e s t k') (hΓ : Γ.Settled k) {v : Name}
    (hv : k'.Pending v) : s.find? v = none :=
  Subst.find?_of_not_mem_names fun hmem => hΓ.not_pending h.le (h.within (.inl hmem)) hv

/-- In solved form, no free variable of a substituted context is bound. -/
theorem Context.find?_of_mem_freeVars_applySubst (hs : s.IsSolved) {v : Name}
    (hv : v ∈ (Γ.applySubst s).freeVars) : s.find? v = none := by
  obtain ⟨x, σ, -, hσ⟩ := mem_freeVars_applySubst hv
  obtain ⟨-, w, -, hw⟩ := Scheme.mem_freeVars_applyScheme.mp hσ
  exact hs.find?_of_mem_apply hw

/-- A run in a context to which the solved form of an earlier run was applied
speaks of no variable that the earlier one bound. -/
theorem Run.find?_of_later {R' : LetRule} {D' : Demand} {Δ : Context} {e' : Expr} {s' : Subst}
    {t' : Ty} (h : Run R D Γ k e s t k') (hΓ : Γ.Settled k) (hs : s.IsSolved)
    (h' : Run R' D' (Δ.applySubst s) k' e' s' t' k'') {v : Name} (hv : v ∈ s'.names ∨ v ∈ t') :
    s.find? v = none := by
  cases h'.within hv with
  | inl hfree => exact Context.find?_of_mem_freeVars_applySubst hs hfree
  | inr hdrawn => exact h.find?_of_pending hΓ hdrawn.pending

/-- A name that was drawn before a run and is not free in its context is not
bound by it. -/
theorem Run.find?_of_drawn (h : Run R D Γ k' e s t k'') {v : Name} (hd : k.Drawn k' v)
    (hv : v ∉ Γ.freeVars) : s.find? v = none := by
  refine Subst.find?_of_not_mem_names fun hmem => ?_
  cases h.within (.inl hmem) with
  | inl hfree => exact hv hfree
  | inr hd' => exact hd.not_pending hd'.pending

/-! ## The body last -/

/-- A substitution in solved form and a type without variables that it binds. -/
structure Subst.Resolves (s : Subst) (t : Ty) : Prop where
  /-- No image mentions a bound variable. -/
  isSolved : s.IsSolved
  /-- The type mentions no bound variable. -/
  unbound : ∀ v, v ∈ t → s.find? v = none

section Application

variable {k₀ k₁ k₂ : NameSupply} {r : Name} {f a : Expr} {s₁ s₂ s₃ : Subst} {t₁ t₂ : Ty}

/-- The variables that an application unifies are bound neither by the function
nor by the argument. -/
theorem Run.find?_of_mem_unified (hΓ : Γ.Settled k) (hr : k.fresh = (r, k₀))
    (hf : Run R D Γ k₀ f s₁ t₁ k₁) (ha : Run R D (Γ.applySubst s₁) k₁ a s₂ t₂ k₂)
    (h₁ : s₁.Resolves t₁) (h₂ : s₂.Resolves t₂) {v : Name}
    (hv : v ∈ s₂.apply t₁ ∨ v ∈ Ty.fn t₂ (.var r)) : (s₂.compose s₁).find? v = none := by
  have hΓ₀ : Γ.Settled k₀ := hΓ.mono (NameSupply.le_of_fresh hr)
  have harg : ∀ {w}, w ∈ s₂.names ∨ w ∈ t₂ → s₁.find? w = none := fun hw =>
    hf.find?_of_later hΓ₀ h₁.isSolved ha hw
  rw [Subst.find?_compose_eq_none]
  rcases hv with hv | hv
  · refine ⟨h₂.isSolved.find?_of_mem_apply hv, ?_⟩
    cases Subst.mem_names_of_mem_apply hv with
    | inl hv => exact h₁.unbound v hv
    | inr hv => exact harg (.inl hv)
  · rcases Ty.mem_fn.mp hv with hv | hv
    · exact ⟨h₂.unbound v hv, harg (.inr hv)⟩
    · rw [Ty.mem_var.mp hv]
      have hdrawn := NameSupply.drawn_of_fresh hr
      have hnot : r ∉ Γ.freeVars := fun hmem => hΓ.old r hmem hdrawn.pending
      have hnot' : r ∉ (Γ.applySubst s₁).freeVars := by
        intro hmem
        cases Context.mem_freeVars_applySubst_run hf hmem with
        | inl hmem => exact hnot hmem
        | inr hd => exact hdrawn.not_pending hd.pending
      exact ⟨ha.find?_of_drawn (hdrawn.of_le_right hf.le) hnot', hf.find?_of_drawn hdrawn hnot⟩

/-- The step of `Run.resolves` for an application. -/
theorem Run.resolves_app (hΓ : Γ.Settled k) (hr : k.fresh = (r, k₀))
    (hf : Run R D Γ k₀ f s₁ t₁ k₁) (ha : Run R D (Γ.applySubst s₁) k₁ a s₂ t₂ k₂)
    (hu : unify (s₂.apply t₁) (.fn t₂ (.var r)) = .ok s₃) (h₁ : s₁.Resolves t₁)
    (h₂ : s₂.Resolves t₂) : (s₃.compose (s₂.compose s₁)).Resolves (s₃.apply (.var r)) := by
  have hΓ₀ : Γ.Settled k₀ := hΓ.mono (NameSupply.le_of_fresh hr)
  have h₃ : s₃.IsSolved := (unify_solved hu).isSolved
  have hapart : ∀ v, v ∈ s₃.names → (s₂.compose s₁).find? v = none := fun v hv =>
    Run.find?_of_mem_unified hΓ hr hf ha h₁ h₂ (mem_of_mem_names_unify hu hv)
  have hparts : (s₂.compose s₁).IsSolved :=
    h₁.isSolved.compose h₂.isSolved fun v hv =>
      hf.find?_of_later hΓ₀ h₁.isSolved ha (.inl hv)
  refine ⟨hparts.compose h₃ hapart, fun v hv => ?_⟩
  rw [Subst.find?_compose_eq_none]
  refine ⟨h₃.find?_of_mem_apply hv, ?_⟩
  cases Subst.mem_names_of_mem_apply hv with
  | inl hv => exact Run.find?_of_mem_unified hΓ hr hf ha h₁ h₂ (.inr (Ty.mem_fn.mpr (.inr hv)))
  | inr hv => exact hapart v hv

end Application

/-- If bodies come last, a run from a settled context ends in solved form. -/
theorem Run.resolves (h : Run R D Γ k e s t k') (hR : R.bodyLast = true) (hΓ : Γ.Settled k) :
    s.Resolves t := by
  induction h with
  | var _ _ => exact ⟨Subst.isSolved_empty, fun v _ => by simp⟩
  | lit => exact ⟨Subst.isSolved_empty, fun v _ => by simp⟩
  | @abs Γ k k₁ k' x a body s t ha _ ih =>
      have hbody := ih (hΓ.insert_fresh ha x)
      refine ⟨hbody.isSolved, fun v hv => ?_⟩
      cases Ty.mem_fn.mp hv with
      | inl hv => exact hbody.isSolved.find?_of_mem_apply hv
      | inr hv => exact hbody.unbound v hv
  | @app Γ k k₀ k₁ k₂ r f a s₁ s₂ s₃ t₁ t₂ hr hf ha hu _ _ ihf iha =>
      have hΓ₀ : Γ.Settled k₀ := hΓ.mono (NameSupply.le_of_fresh hr)
      exact Run.resolves_app hΓ hr hf ha hu (ihf hΓ₀) (iha (hΓ₀.applySubst hf))
  | @letIn Γ k k₁ k₂ x e₁ e₂ s₁ s₂ t₁ t₂ h₁ h₂ _ ih₁ ih₂ =>
      have hbound := ih₁ hΓ
      have hbody := ih₂ (hΓ.bodyContext h₁ R x)
      have hapart : ∀ {v}, v ∈ s₂.names ∨ v ∈ t₂ → s₁.find? v = none := fun hv =>
        h₁.find?_of_later hΓ hbound.isSolved h₂ hv
      rw [LetRule.join, if_pos hR]
      refine ⟨hbound.isSolved.compose hbody.isSolved fun v hv => hapart (.inl hv), ?_⟩
      intro v hv
      exact Subst.find?_compose_eq_none.mpr ⟨hbody.unbound v hv, hapart (.inr hv)⟩

/-! ## Variables are bound once -/

/-- No two substitutions that are composed bind the same variable. -/
def Demand.boundOnce : Demand where
  app s₂ s₁ := ∀ v, s₂.find? v = none ∨ s₁.find? v = none
  letIn s₁ s₂ := ∀ v, s₁.find? v = none ∨ s₂.find? v = none

/-- If all runs of a kind end in solved form, no variable is bound twice. -/
theorem Run.boundOnce_of_resolves (h : Run R D Γ k e s t k') (hΓ : Γ.Settled k)
    (hres : ∀ {Γ k e s t k'}, Run R D Γ k e s t k' → Γ.Settled k → s.Resolves t) :
    Run R .boundOnce Γ k e s t k' := by
  induction h with
  | var hx ht => exact .var hx ht
  | lit => exact .lit
  | @abs _ _ _ _ x _ _ _ _ ha _ ih => exact .abs ha (ih (hΓ.insert_fresh ha x))
  | @app Γ k k₀ k₁ k₂ r f a s₁ s₂ s₃ t₁ t₂ hr hf ha hu _ _ ihf iha =>
      have hΓ₀ := hΓ.mono (NameSupply.le_of_fresh hr)
      have hΓ₁ := hΓ₀.applySubst hf
      have h₁ := hres hf hΓ₀
      refine .app hr (ihf hΓ₀) (iha hΓ₁) hu ?_ ?_
      · exact Subst.apart_of_names fun v hv =>
          hf.find?_of_later hΓ₀ h₁.isSolved ha (.inl hv)
      · exact Subst.apart_of_names fun v hv =>
          Run.find?_of_mem_unified hΓ hr hf ha h₁ (hres ha hΓ₁) (mem_of_mem_names_unify hu hv)
  | @letIn Γ k k₁ k₂ x e₁ e₂ s₁ s₂ t₁ t₂ h₁ h₂ _ ih₁ ih₂ =>
      have hsolved := (hres h₁ hΓ).isSolved
      have hapart : ∀ v, v ∈ s₂.names → s₁.find? v = none := fun v hv =>
        h₁.find?_of_later hΓ hsolved h₂ (.inl hv)
      exact .letIn (ih₁ hΓ) (ih₂ (hΓ.bodyContext h₁ R x))
        fun v => (Subst.apart_of_names hapart v).symm

end LetPoly
