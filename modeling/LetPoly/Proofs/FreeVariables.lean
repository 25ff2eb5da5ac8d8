import LetPoly.Expr
import LetPoly.Proofs.Run

/-! # Free variables

Which type variables are free in a scheme or a context after a substitution, a
generalization, or on the way into the body of a `let`, and which term variables
are free in an expression.

Applying a substitution to a scheme leaves the quantified variables alone, but a
quantified variable in an image is caught: the free variables of the result are
those of the images, less the quantified ones (`Scheme.mem_freeVars_applyScheme`).
-/

namespace LetPoly

/-! ## Free term variables -/

namespace Expr

/-- A term variable occurs free in an expression.  The name of a `let` is bound
in its body only. -/
def Free (x : Name) : Expr → Prop
  | .var y => x = y
  | .lit _ => False
  | .app func arg => Free x func ∨ Free x arg
  | .abs param body => x ≠ param ∧ Free x body
  | .letIn name bound body => Free x bound ∨ (x ≠ name ∧ Free x body)

/-- Freeness is decided by looking at every variable of the expression. -/
def decidableFree (x : Name) : (e : Expr) → Decidable (Free x e)
  | .var y => inferInstanceAs (Decidable (x = y))
  | .lit _ => inferInstanceAs (Decidable False)
  | .app func arg =>
      let _ := decidableFree x func
      let _ := decidableFree x arg
      inferInstanceAs (Decidable (Free x func ∨ Free x arg))
  | .abs param body =>
      let _ := decidableFree x body
      inferInstanceAs (Decidable (x ≠ param ∧ Free x body))
  | .letIn name bound body =>
      let _ := decidableFree x bound
      let _ := decidableFree x body
      inferInstanceAs (Decidable (Free x bound ∨ (x ≠ name ∧ Free x body)))

instance (x : Name) (e : Expr) : Decidable (e.Free x) := decidableFree x e

end Expr

/-! ## Schemes -/

namespace Scheme

/-- Every variable of the body is quantified. -/
def Closed (σ : Scheme) : Prop :=
  ∀ v, v ∉ σ.freeVars

/-- What a substitution does to a variable of the body. -/
theorem apply_eraseAll_var (s : Subst) (σ : Scheme) (v : Name) :
    Subst.apply (s.eraseAll σ.vars) (.var v) =
      if v ∈ σ.vars then .var v else s.apply (.var v) := by
  rw [Subst.apply_var, NameMap.find?_eraseAll]
  by_cases hv : v ∈ σ.vars <;> simp [hv]

/-- A substitution acts on the free variables of a scheme, and the quantified ones
capture what it puts in their place. -/
theorem mem_freeVars_applyScheme {s : Subst} {σ : Scheme} {v : Name} :
    v ∈ (s.applyScheme σ).freeVars ↔
      v ∉ σ.vars ∧ ∃ w, w ∈ σ.freeVars ∧ v ∈ s.apply (.var w) := by
  rw [mem_freeVars, Subst.applyScheme, Subst.mem_apply, and_comm]
  constructor
  · rintro ⟨hv, w, hw, hvw⟩
    rw [apply_eraseAll_var] at hvw
    split at hvw
    · next hq => exact absurd (Ty.mem_var.mp hvw ▸ hq) hv
    · next hq => exact ⟨hv, w, mem_freeVars.mpr ⟨hw, hq⟩, hvw⟩
  · rintro ⟨hv, w, hw, hvw⟩
    obtain ⟨hwb, hq⟩ := mem_freeVars.mp hw
    refine ⟨hv, w, hwb, ?_⟩
    rw [apply_eraseAll_var, if_neg hq]
    exact hvw

/-- A free variable of a substituted scheme is one of the scheme or of an
image. -/
theorem mem_names_of_mem_freeVars_applyScheme {s : Subst} {σ : Scheme} {v : Name}
    (h : v ∈ (s.applyScheme σ).freeVars) : v ∈ σ.freeVars ∨ v ∈ s.names := by
  obtain ⟨-, w, hw, hv⟩ := mem_freeVars_applyScheme.mp h
  cases Subst.mem_names_of_mem_apply hv with
  | inl heq => exact .inl (Ty.mem_var.mp heq ▸ hw)
  | inr hv => exact .inr hv

/-- A scheme without free variables that are bound stays as it is. -/
theorem applyScheme_eq_self {s : Subst} {σ : Scheme}
    (h : ∀ v, v ∈ σ.freeVars → s.find? v = none) : s.applyScheme σ = σ := by
  have hbody : Subst.apply (s.eraseAll σ.vars) σ.body = σ.body := by
    refine Subst.apply_eq_self fun v hv => ?_
    rw [NameMap.find?_eraseAll]
    by_cases hq : v ∈ σ.vars
    · rw [if_pos hq]
    · rw [if_neg hq]
      exact h v (mem_freeVars.mpr ⟨hv, hq⟩)
  rw [Subst.applyScheme, hbody]

theorem Closed.applyScheme_eq {σ : Scheme} (h : σ.Closed) (s : Subst) : s.applyScheme σ = σ :=
  applyScheme_eq_self fun v hv => absurd hv (h v)

theorem mem_freeVars_mono {v : Name} {t : Ty} : v ∈ (mono t).freeVars ↔ v ∈ t := by
  rw [mem_freeVars]
  exact and_iff_left List.not_mem_nil

end Scheme

/-! ## Contexts -/

namespace Context

/-- Every scheme of the context is closed. -/
def Closed (Γ : Context) : Prop :=
  ∀ x σ, Γ.find? x = some σ → σ.Closed

theorem closed_empty : Closed ∅ := by
  intro x σ h
  simp at h

theorem Closed.not_mem_freeVars {Γ : Context} (h : Γ.Closed) (v : Name) : v ∉ Γ.freeVars := by
  intro hv
  obtain ⟨x, σ, hx, hσ⟩ := mem_freeVars.mp hv
  exact h x σ hx v hσ

@[simp]
theorem find?_applySubst (s : Subst) (Γ : Context) (x : Name) :
    (Γ.applySubst s).find? x = (Γ.find? x).map s.applyScheme :=
  NameMap.find?_map _ Γ x

theorem mem_freeVars_of_find? {Γ : Context} {x v : Name} {σ : Scheme} (h : Γ.find? x = some σ)
    (hv : v ∈ σ.freeVars) : v ∈ Γ.freeVars :=
  mem_freeVars.mpr ⟨x, σ, h, hv⟩

/-- Inserting a scheme frees no other variables than its own. -/
theorem mem_freeVars_insert {Γ : Context} {x v : Name} {σ : Scheme}
    (h : v ∈ freeVars (Γ.insert x σ)) : v ∈ σ.freeVars ∨ v ∈ Γ.freeVars := by
  obtain ⟨y, τ, hy, hτ⟩ := mem_freeVars.mp h
  rw [NameMap.find?_insert] at hy
  split at hy
  · cases hy
    exact .inl hτ
  · exact .inr (mem_freeVars_of_find? hy hτ)

/-- A free variable of a substituted context comes from one of its schemes. -/
theorem mem_freeVars_applySubst {s : Subst} {Γ : Context} {v : Name}
    (h : v ∈ (Γ.applySubst s).freeVars) :
    ∃ x σ, Γ.find? x = some σ ∧ v ∈ (s.applyScheme σ).freeVars := by
  obtain ⟨x, σ', hx, hv⟩ := mem_freeVars.mp h
  rw [find?_applySubst] at hx
  obtain ⟨σ, hσ, rfl⟩ := Option.map_eq_some_iff.mp hx
  exact ⟨x, σ, hσ, hv⟩

theorem mem_freeVars_applySubst_of_find? {s : Subst} {Γ : Context} {x v : Name} {σ : Scheme}
    (h : Γ.find? x = some σ) (hv : v ∈ (s.applyScheme σ).freeVars) :
    v ∈ (Γ.applySubst s).freeVars :=
  mem_freeVars_of_find? (by rw [find?_applySubst, h, Option.map_some]) hv

/-- Substitutions that bind no free variable leave a context as it is. -/
theorem applySubst_eq_self {s : Subst} {Γ : Context}
    (h : ∀ v, v ∈ Γ.freeVars → s.find? v = none) : Γ.applySubst s = Γ := by
  refine NameMap.ext_find? fun x => ?_
  rw [find?_applySubst]
  cases hx : Γ.find? x with
  | none => rfl
  | some σ =>
      rw [Option.map_some, Scheme.applyScheme_eq_self]
      exact fun v hv => h v (mem_freeVars_of_find? hx hv)

/-- Generalization quantifies the variables that are not free in the context. -/
theorem mem_vars_generalize {Γ : Context} {t : Ty} {v : Name} :
    v ∈ (Γ.generalize t).vars ↔ v ∈ t ∧ v ∉ Γ.freeVars := by
  rw [generalize, NameSet.mem_toList]
  simp

/-- The variables that stay free in a generalized type are those of the context. -/
theorem mem_freeVars_generalize {Γ : Context} {t : Ty} {v : Name} :
    v ∈ (Γ.generalize t).freeVars ↔ v ∈ t ∧ v ∈ Γ.freeVars := by
  rw [Scheme.mem_freeVars, mem_vars_generalize]
  constructor
  · rintro ⟨hv, hnot⟩
    exact ⟨hv, Classical.byContradiction fun hn => hnot ⟨hv, hn⟩⟩
  · rintro ⟨hv, hΓ⟩
    exact ⟨hv, fun h => h.2 hΓ⟩

/-- Contexts with the same free variables among those of a type generalize it
alike. -/
theorem generalize_congr {Γ Γ' : Context} {t : Ty}
    (h : ∀ v, v ∈ t → (v ∈ Γ'.freeVars ↔ v ∈ Γ.freeVars)) :
    Γ'.generalize t = Γ.generalize t := by
  have hvars : t.freeVars \ Γ'.freeVars = t.freeVars \ Γ.freeVars := by
    refine NameSet.ext fun v => ?_
    rw [NameSet.mem_sdiff, NameSet.mem_sdiff]
    exact and_congr_right fun hv => not_congr (h v (Ty.mem_freeVars.mp hv))
  rw [generalize, generalize, hvars]

end Context

/-! ## Into the body of a `let` -/

namespace LetRule

variable {R : LetRule} {Γ : Context} {x : Name} {s : Subst} {t : Ty}

/-- Only the binding of the name itself can be missing from the scope. -/
theorem find?_scope (R : LetRule) (Γ : Context) {x y : Name} (h : y ≠ x) :
    (R.scope Γ x).find? y = Γ.find? y := by
  rw [scope]
  split
  · rfl
  · rw [NameMap.find?_erase, if_neg h]

/-- The scope of a `let` has no other bindings than the context. -/
theorem find?_of_find?_scope {y : Name} {σ : Scheme} (h : (R.scope Γ x).find? y = some σ) :
    Γ.find? y = some σ := by
  by_cases hyx : y = x
  · subst hyx
    rw [scope] at h
    split at h
    · exact h
    · rw [NameMap.find?_erase, if_pos rfl] at h
      cases h
  · rwa [find?_scope R Γ hyx] at h

theorem mem_vars_scheme {v : Name} :
    v ∈ (R.scheme Γ x s t).vars ↔ v ∈ t ∧ v ∉ ((R.scope Γ x).applySubst s).freeVars :=
  Context.mem_vars_generalize

theorem mem_freeVars_scheme {v : Name} :
    v ∈ (R.scheme Γ x s t).freeVars ↔ v ∈ t ∧ v ∈ ((R.scope Γ x).applySubst s).freeVars :=
  Context.mem_freeVars_generalize

/-- The new scheme replaces an older one and is rewritten with the others. -/
theorem bodyContext_eq_insert (R : LetRule) (Γ : Context) (x : Name) (s : Subst) (t : Ty) :
    R.bodyContext Γ x s t = (Γ.applySubst s).insert x (s.applyScheme (R.scheme Γ x s t)) := by
  refine NameMap.ext_find? fun y => ?_
  rw [bodyContext, Context.find?_applySubst, NameMap.find?_insert, NameMap.find?_insert,
    Context.find?_applySubst, NameMap.find?_erase]
  by_cases h : y = x
  · rw [if_pos h, if_pos h, Option.map_some]
  · rw [if_neg h, if_neg h, if_neg h]

/-- In the body, `x` has the scheme of the bound expression, and the other names are
rewritten. -/
theorem find?_bodyContext (R : LetRule) (Γ : Context) (x : Name) (s : Subst) (t : Ty) (y : Name) :
    (R.bodyContext Γ x s t).find? y =
      if y = x then some (s.applyScheme (R.scheme Γ x s t)) else (Γ.find? y).map s.applyScheme := by
  rw [bodyContext_eq_insert, NameMap.find?_insert, Context.find?_applySubst]

/-- The free variables of the body's context come from the new scheme or from a
scheme of another name. -/
theorem mem_freeVars_bodyContext {v : Name} (h : v ∈ (R.bodyContext Γ x s t).freeVars) :
    v ∈ (s.applyScheme (R.scheme Γ x s t)).freeVars ∨
      ∃ y σ, y ≠ x ∧ Γ.find? y = some σ ∧ v ∈ (s.applyScheme σ).freeVars := by
  obtain ⟨y, σ', hy, hv⟩ := Context.mem_freeVars.mp h
  rw [find?_bodyContext] at hy
  split at hy
  · cases hy
    exact .inl hv
  · next hyx =>
    obtain ⟨σ, hσ, rfl⟩ := Option.map_eq_some_iff.mp hy
    exact .inr ⟨y, σ, hyx, hσ, hv⟩

/-- Whatever the order, composition mentions no new variables. -/
theorem mem_names_join {s₁ s₂ : Subst} {v : Name} (h : v ∈ (R.join s₁ s₂).names) :
    v ∈ s₁.names ∨ v ∈ s₂.names := by
  rw [join] at h
  split at h
  · exact (Subst.mem_names_compose h).symm
  · exact Subst.mem_names_compose h

end LetRule

end LetPoly
