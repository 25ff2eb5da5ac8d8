import LetPoly.Subst

/-! # Typing contexts

A context gives a scheme to finitely many term variables.
-/

namespace LetPoly

/-- Schemes of the term variables in scope. -/
abbrev Context : Type := NameMap Scheme

namespace Context

/-- The type variables that are free in some scheme of the context. -/
def freeVars (Γ : Context) : NameSet :=
  Γ.entries.foldr (fun e vs => e.2.freeVars ∪ vs) ∅

/-- Apply a substitution to every scheme of the context. -/
def applySubst (s : Subst) (Γ : Context) : Context :=
  Γ.map s.applyScheme

/-- The scheme of a type that quantifies over all variables that are not free
in the context. -/
def generalize (Γ : Context) (t : Ty) : Scheme :=
  ⟨(t.freeVars \ Γ.freeVars).toList, t⟩

/-- A variable is free in a context if it is free in the scheme of some name. -/
theorem mem_freeVars {Γ : Context} {v : Name} :
    v ∈ Γ.freeVars ↔ ∃ x σ, Γ.find? x = some σ ∧ v ∈ σ.freeVars := by
  have hfold : ∀ es : List (Name × Scheme),
      v ∈ es.foldr (fun e vs => e.2.freeVars ∪ vs) (∅ : NameSet) ↔
        ∃ e ∈ es, v ∈ e.2.freeVars := by
    intro es
    induction es with
    | nil => simp
    | cons e es ih => simp [ih]
  rw [freeVars, hfold]
  constructor
  · rintro ⟨⟨x, σ⟩, he, hv⟩
    exact ⟨x, σ, NameMap.find?_eq_some_iff.mpr he, hv⟩
  · rintro ⟨x, σ, hx, hv⟩
    exact ⟨(x, σ), NameMap.find?_eq_some_iff.mp hx, hv⟩

end Context

end LetPoly
