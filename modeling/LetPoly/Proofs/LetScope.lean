import LetPoly.Proofs.Lockstep
import LetPoly.Proofs.TopLevelLets

/-! # Which bindings a `let` heeds

The type of a bound expression is generalized against the context.  Of the
context only the schemes of the free variables of the bound expression matter
(`Run.mem_scope_iff`): a variable of the type that is free anywhere is free in one
of those.  So the older binding of the name that a `let` binds makes a difference
only if the bound expression mentions the name.

Where no `let` mentions its own name in its bound expression, unless the name
stands for something closed there (`Expr.RebindsClosed`), inference finds what it
would find if older bindings counted (`typing_eq_heedful`).
-/

namespace LetPoly

open InferM

variable {R R' : LetRule} {D : Demand} {Γ Γ' : Context} {k k' limit : NameSupply} {e : Expr}
  {s : Subst} {t : Ty} {x x' : Name} {opens : List Name}

/-- The rule of `infer`, but the older binding of the name counts. -/
def LetRule.heedful : LetRule := ⟨true, false⟩

/-! ## Generalization and free term variables -/

/-- If the rewritten context has a variable of the type free, then in the scheme
of a free variable of the expression. -/
theorem Run.freeFor_of_mem (h : Run R D Γ k e s t k') (hΓ : Γ.Settled k) {v : Name} (hv : v ∈ t)
    (hmem : v ∈ (Γ.applySubst s).freeVars) : (Γ.applySubst s).FreeFor e v := by
  obtain ⟨y, σ, hy, hσ⟩ := Context.mem_freeVars_applySubst hmem
  obtain ⟨-, w, hw, hvw⟩ := Scheme.mem_freeVars_applyScheme.mp hσ
  have hold : ¬ k.Drawn k' w := fun hd =>
    hΓ.old w (Context.mem_freeVars_of_find? hy hw) hd.pending
  -- the run speaks of `w`: it is `v` itself, or it is bound
  have hfree : Γ.FreeFor e w := by
    rcases Subst.mem_apply_var hvw with ⟨rfl, -⟩ | ⟨u, hu, -⟩
    · exact (h.mentions (.inr hv)).resolve_right hold
    · exact (h.mentions (.inl (Subst.mem_names_of_find? hu))).resolve_right hold
  obtain ⟨z, τ, hz, hτ, hwτ⟩ := hfree
  refine ⟨z, s.applyScheme τ, hz, by rw [Context.find?_applySubst, hτ, Option.map_some], ?_⟩
  exact Scheme.mem_freeVars_applyScheme.mpr
    ⟨h.not_mem_vars_of_mem_apply hΓ hτ hwτ hvw, w, hwτ, hvw⟩

/-- The older binding of the name counts, or it does not matter: the expression
does not mention the name, or its scheme is closed. -/
def LetRule.Sees (R : LetRule) (Γ : Context) (x : Name) (e : Expr) : Prop :=
  R.heedsOld = true ∨ ∀ σ, e.Free x → Γ.find? x = some σ → σ.Closed

/-- Of the variables of the inferred type, those that stay free are the ones that are
free for the expression. -/
theorem Run.mem_scope_iff (h : Run R' D Γ k e s t k') (hΓ : Γ.Settled k) (hx : R.Sees Γ x e)
    {v : Name} (hv : v ∈ t) :
    v ∈ ((R.scope Γ x).applySubst s).freeVars ↔ (Γ.applySubst s).FreeFor e v := by
  constructor
  · intro hmem
    obtain ⟨y, σ, hy, hσ⟩ := Context.mem_freeVars_applySubst hmem
    exact h.freeFor_of_mem hΓ hv
      (Context.mem_freeVars_applySubst_of_find? (LetRule.find?_of_find?_scope hy) hσ)
  · rintro ⟨y, τ, hy, hτ, hmem⟩
    rw [Context.find?_applySubst] at hτ
    obtain ⟨σ, hσ, rfl⟩ := Option.map_eq_some_iff.mp hτ
    have hscope : (R.scope Γ x).find? y = some σ := by
      by_cases hyx : y = x
      · subst hyx
        rcases hx with hold | hclosed
        · rw [LetRule.scope, if_pos hold, hσ]
        · obtain ⟨-, w, hw, -⟩ := Scheme.mem_freeVars_applyScheme.mp hmem
          exact absurd hw (hclosed σ hy hσ w)
      · rw [LetRule.find?_scope R Γ hyx, hσ]
    exact Context.mem_freeVars_applySubst_of_find? hscope hmem

/-! ## Rebinding -/

namespace Expr

/-- The open names in the body of a `let`.  The name of the `let` is open if the
bound expression mentions an open name. -/
def opensInBody (opens : List Name) (name : Name) (bound : Expr) : List Name :=
  if ∃ y ∈ opens, bound.Free y then name :: opens else opens.filter (· ≠ name)

/-- No `let` takes one of the open names for itself and mentions it in its bound
expression.  Parameters are open, and so is what depends on them. -/
def RebindsClosed (opens : List Name) : Expr → Prop
  | .var _ => True
  | .lit _ => True
  | .app func arg => func.RebindsClosed opens ∧ arg.RebindsClosed opens
  | .abs param body => body.RebindsClosed (param :: opens)
  | .letIn name bound body =>
      (name ∈ opens → ¬ bound.Free name) ∧ bound.RebindsClosed opens ∧
        body.RebindsClosed (opensInBody opens name bound)

/-- The condition is decided from the leaves up. -/
def decidableRebindsClosed (opens : List Name) : (e : Expr) → Decidable (e.RebindsClosed opens)
  | .var _ => inferInstanceAs (Decidable True)
  | .lit _ => inferInstanceAs (Decidable True)
  | .app func arg =>
      let _ := decidableRebindsClosed opens func
      let _ := decidableRebindsClosed opens arg
      inferInstanceAs (Decidable (func.RebindsClosed opens ∧ arg.RebindsClosed opens))
  | .abs param body => decidableRebindsClosed (param :: opens) body
  | .letIn name bound body =>
      let _ := decidableRebindsClosed opens bound
      let _ := decidableRebindsClosed (opensInBody opens name bound) body
      inferInstanceAs (Decidable ((name ∈ opens → ¬ bound.Free name) ∧
        bound.RebindsClosed opens ∧ body.RebindsClosed (opensInBody opens name bound)))

instance (opens : List Name) (e : Expr) : Decidable (e.RebindsClosed opens) :=
  decidableRebindsClosed opens e

end Expr

/-- In the body of a `let`, only the open names have open schemes. -/
theorem Context.ClosedOutside.bodyContext (hout : Γ.ClosedOutside opens) (hΓ : Γ.Settled k)
    (h : Run R D Γ k e s t k') (R' : LetRule) (x : Name) :
    (R'.bodyContext Γ x s t).ClosedOutside (e.opensInBody opens x) := by
  rw [Expr.opensInBody]
  split
  · rw [LetRule.bodyContext_eq_insert]
    exact (hout.applySubst s).insert_param x _
  · next hno =>
    have hown : ∀ v, v ∈ s.names ∨ v ∈ t → k.Drawn k' v := fun v hv =>
      h.drawn_of_closedOutside hout (fun y hy hfree => hno ⟨y, hy, hfree⟩) hv
    rw [LetRule.bodyContext_eq_of_drawn hΓ hown R' x]
    exact hout.insert_let (closed_generalize_empty t)

/-- Inference in which older bindings count follows the inference of `infer`. -/
theorem follows_heedful (e : Expr) : ∀ {Γ : Context} {k : NameSupply} {opens : List Name},
    Γ.Settled k → Γ.ClosedOutside opens → e.RebindsClosed opens →
      Follows limit k (inferBy .ofInfer Γ e) (inferBy .heedful Γ e) := by
  induction e with
  | var x =>
      intro Γ k opens _ _ _
      exact follows_var (fun σ hx => ⟨σ, hx, rfl⟩) fun hx => ⟨hx, rfl⟩
  | lit l => exact fun _ _ _ => follows_pure _
  | abs x body ih =>
      intro Γ k opens hΓ hout he
      refine follows_abs fun a k₁ ha _ => ?_
      exact ih (hΓ.insert_fresh ha x) (hout.insert_param x _) he
  | app f a ihf iha =>
      intro Γ k opens hΓ hout he
      refine follows_app fun r k₀ hr => ?_
      have hΓ₀ := hΓ.mono (NameSupply.le_of_fresh hr)
      refine ⟨ihf hΓ₀ hout he.1, fun s t k₁ hf _ _ => ?_⟩
      exact iha (hΓ₀.applySubst hf) (hout.applySubst s) he.2
  | letIn x e₁ e₂ ih₁ ih₂ =>
      intro Γ k opens hΓ hout he
      obtain ⟨hx, he₁, he₂⟩ := he
      refine follows_letIn rfl (ih₁ hΓ hout he₁) fun s t k₁ h₁ _ _ => ?_
      have hsees : LetRule.ofInfer.Sees Γ x e₁ := .inr fun σ hfree hσ =>
        hout x σ hσ fun hopen => hx hopen hfree
      have hscheme : LetRule.heedful.scheme Γ x s t = LetRule.ofInfer.scheme Γ x s t :=
        Context.generalize_congr fun v hv =>
          (h₁.mem_scope_iff hΓ (.inl rfl) hv).trans (h₁.mem_scope_iff hΓ hsees hv).symm
      have hctx : LetRule.heedful.bodyContext Γ x s t = LetRule.ofInfer.bodyContext Γ x s t := by
        rw [LetRule.bodyContext, LetRule.bodyContext, hscheme]
      refine ⟨hscheme, ?_⟩
      rw [hctx]
      exact ih₂ (hΓ.bodyContext h₁ .ofInfer x) (hout.bodyContext hΓ h₁ .ofInfer x) he₂

/-- If no `let` rebinds a name that depends on a parameter, it makes no difference that
the older binding does not count. -/
theorem typing_eq_heedful (hΓ : Γ.Closed) (he : e.RebindsClosed []) :
    typing Γ e = typingBy .heedful Γ e := by
  have hout : Γ.ClosedOutside [] := fun x σ hx _ => hΓ x σ hx
  rw [typing_eq_typingBy]
  exact (typingBy_eq_of_follows rfl (follows_heedful e (hΓ.settled _) hout he)).symm

end LetPoly
