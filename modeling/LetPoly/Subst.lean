import LetPoly.NameMap
import LetPoly.Scheme

/-! # Substitutions

A substitution maps finitely many type variables to types.  Composition
applies the left substitution to the images of the right one and adds its own
bindings, which win where both bind a variable.  It is the composition of the
two actions where their keys are disjoint (`Subst.apply_compose`).
-/

namespace LetPoly

/-- Finite substitutions of types for type variables. -/
abbrev Subst : Type := NameMap Ty

namespace Subst

/-- Replace every bound variable of a type by its image. -/
def apply (s : Subst) : Ty → Ty
  | .var v => (s.find? v).getD (.var v)
  | .int => .int
  | .bool => .bool
  | .fn dom cod => .fn (s.apply dom) (s.apply cod)

/-- Apply to the body of a scheme, leaving its quantified variables alone. -/
def applyScheme (s : Subst) (σ : Scheme) : Scheme :=
  ⟨σ.vars, apply (s.eraseAll σ.vars) σ.body⟩

/-- The right substitution followed by the left one.  A variable that both
bind gets its image from the left one. -/
def compose (s₁ s₂ : Subst) : Subst :=
  s₁.overlay (s₂.map s₁.apply)

/-- The text of a substitution: its bindings by increasing variable. -/
def render (s : Subst) : String :=
  "\x7b" ++ String.intercalate ", " (s.entries.map fun e => e.1 ++ " := " ++ e.2.render) ++ "\x7d"

/-! ## The action on types -/

@[simp]
theorem apply_var (s : Subst) (v : Name) : s.apply (.var v) = (s.find? v).getD (.var v) := rfl

@[simp]
theorem apply_int (s : Subst) : s.apply .int = .int := rfl

@[simp]
theorem apply_bool (s : Subst) : s.apply .bool = .bool := rfl

@[simp]
theorem apply_fn (s : Subst) (dom cod : Ty) :
    s.apply (.fn dom cod) = .fn (s.apply dom) (s.apply cod) := rfl

/-- Two substitutions that agree on the variables of a type act on it alike. -/
theorem apply_congr {s₁ s₂ : Subst} {t : Ty}
    (h : ∀ v, v ∈ t → s₁.apply (.var v) = s₂.apply (.var v)) : s₁.apply t = s₂.apply t := by
  induction t with
  | var v => exact h v (Ty.mem_var.mpr rfl)
  | int => rfl
  | bool => rfl
  | fn dom cod ihDom ihCod =>
      rw [apply_fn, apply_fn, ihDom fun v hv => h v (Ty.mem_fn.mpr (.inl hv)),
        ihCod fun v hv => h v (Ty.mem_fn.mpr (.inr hv))]

@[simp]
theorem apply_empty (t : Ty) : apply ∅ t = t := by
  induction t with
  | var v => rfl
  | int => rfl
  | bool => rfl
  | fn dom cod ihDom ihCod => rw [apply_fn, ihDom, ihCod]

/-- A type without bound variables stays as it is. -/
theorem apply_eq_self {s : Subst} {t : Ty} (h : ∀ v, v ∈ t → s.find? v = none) :
    s.apply t = t := by
  refine Eq.trans (apply_congr fun v hv => ?_) (apply_empty t)
  rw [apply_var, h v hv]
  rfl

/-- The variables of a substituted type come from the images of its variables. -/
theorem mem_apply {s : Subst} {w : Name} {t : Ty} :
    w ∈ s.apply t ↔ ∃ v, v ∈ t ∧ w ∈ s.apply (.var v) := by
  induction t with
  | var v => simp
  | int => simp
  | bool => simp
  | fn dom cod ihDom ihCod =>
      rw [apply_fn, Ty.mem_fn, ihDom, ihCod]
      constructor
      · rintro (⟨v, hv, hw⟩ | ⟨v, hv, hw⟩)
        · exact ⟨v, Ty.mem_fn.mpr (.inl hv), hw⟩
        · exact ⟨v, Ty.mem_fn.mpr (.inr hv), hw⟩
      · rintro ⟨v, hv, hw⟩
        cases Ty.mem_fn.mp hv with
        | inl hv => exact .inl ⟨v, hv, hw⟩
        | inr hv => exact .inr ⟨v, hv, hw⟩

/-! ## Composition -/

/-- The left substitution wins, and rewrites the images of the right one. -/
theorem find?_compose (s₁ s₂ : Subst) (v : Name) :
    (s₁.compose s₂).find? v = (s₁.find? v).or ((s₂.find? v).map s₁.apply) := by
  simp [compose]

@[simp]
theorem compose_empty (s : Subst) : s.compose ∅ = s :=
  NameMap.ext_find? fun v => by simp [find?_compose]

@[simp]
theorem empty_compose (s : Subst) : compose ∅ s = s :=
  NameMap.ext_find? fun v => by
    cases h : s.find? v <;> simp [find?_compose, h]

/-- Where no variable is bound by both, composition acts as the right
substitution followed by the left one. -/
theorem apply_compose {s₁ s₂ : Subst}
    (h : ∀ v, s₁.find? v = none ∨ s₂.find? v = none) (t : Ty) :
    (s₁.compose s₂).apply t = s₁.apply (s₂.apply t) := by
  induction t with
  | var v =>
      rw [apply_var, find?_compose]
      cases h v with
      | inl h₁ => cases h₂ : s₂.find? v <;> simp [h₁, h₂]
      | inr h₂ => cases h₁ : s₁.find? v <;> simp [h₁, h₂]
  | int => rfl
  | bool => rfl
  | fn dom cod ihDom ihCod => rw [apply_fn, ihDom, ihCod, apply_fn, apply_fn]

end Subst

end LetPoly
