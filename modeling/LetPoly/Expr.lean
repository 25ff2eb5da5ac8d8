import LetPoly.Name

/-! # Expressions

The terms of the language: variables, integer and truth literals, application,
abstraction, and `let`, whose bound expression does not see the name that it
binds.
-/

namespace LetPoly

/-- Literals.  Integers have 64 bits. -/
inductive Literal where
  | int (value : Int64)
  | bool (value : Bool)
deriving DecidableEq

/-- Terms of the language. -/
inductive Expr where
  | var (name : Name)
  | lit (literal : Literal)
  | app (func arg : Expr)
  | abs (param : Name) (body : Expr)
  | letIn (name : Name) (bound body : Expr)
deriving DecidableEq

namespace Expr

instance : Inhabited Expr := ⟨.lit (.bool true)⟩

/-- An integer literal. -/
abbrev int (value : Int64) : Expr :=
  .lit (.int value)

/-- A truth literal. -/
abbrev bool (value : Bool) : Expr :=
  .lit (.bool value)

/-- Apply an expression to arguments, one after the other. -/
def applyAll (func : Expr) (args : List Expr) : Expr :=
  args.foldl .app func

/-- Abstractions and `let`, which reach as far right as they can. -/
def isBinder : Expr → Bool
  | .abs _ _ | .letIn _ _ _ => true
  | _ => false

/-- Variables and literals, which are written as one token. -/
def isAtomic : Expr → Bool
  | .var _ | .lit _ => true
  | _ => false

end Expr

end LetPoly
