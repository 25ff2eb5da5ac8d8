import LetPoly.Ty

/-! # Type schemes

A scheme quantifies a type over listed variables.  The list keeps its order
and any repetitions, and may name variables that the type lacks.
-/

namespace LetPoly

/-- A type quantified over variables. -/
structure Scheme where
  /-- The quantified variables. -/
  vars : List Name
  /-- The type they are quantified in. -/
  body : Ty
deriving DecidableEq

namespace Scheme

/-- The scheme that quantifies over nothing. -/
def mono (t : Ty) : Scheme :=
  ⟨[], t⟩

/-- The variables of a scheme that it does not quantify over. -/
def freeVars (σ : Scheme) : NameSet :=
  σ.body.freeVars \ NameSet.ofList σ.vars

/-- The free variables of a scheme are those of its body that are not quantified. -/
@[simp]
theorem mem_freeVars {σ : Scheme} {v : Name} : v ∈ σ.freeVars ↔ v ∈ σ.body ∧ v ∉ σ.vars := by
  simp [freeVars]

/-- The text of a scheme; the quantifier is written only if there is one. -/
def render (σ : Scheme) : String :=
  if σ.vars.isEmpty then σ.body.render
  else "forall " ++ String.intercalate " " σ.vars ++ ". " ++ σ.body.render

end Scheme

end LetPoly
