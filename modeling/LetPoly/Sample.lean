import LetPoly.Report

/-! # Samples

Expressions that show what the language can do: `let` at one or several types,
an expression that has no type, and a `let` that must stay monomorphic.
-/

namespace LetPoly.Sample

/-- The identity. -/
def identity : Expr :=
  .abs "x" (.var "x")

/-- The identity, with a name for its argument. -/
def identityByName : Expr :=
  .abs "x" (.letIn "y" (.var "x") (.var "y"))

/-- The function `id` applied to itself. -/
def selfApplied : Expr :=
  .app (.var "id") (.var "id")

/-- The samples, in the order in which they are shown. -/
def all : List Expr :=
  [ .letIn "id" identity (.var "id"),
    .letIn "id" identity selfApplied,
    .letIn "id" identityByName selfApplied,
    .letIn "id" identityByName (.app selfApplied (.int 2)),
    .letIn "id" (.abs "x" (.app (.var "x") (.var "x"))) (.var "id"),
    .abs "m" (.letIn "y" (.var "m") (.letIn "x" (.app (.var "y") (.bool true)) (.var "x"))) ]

/-- The reports on all samples. -/
def reports : List String :=
  all.map (report ∅)

end LetPoly.Sample
