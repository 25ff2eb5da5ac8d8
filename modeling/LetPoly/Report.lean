import LetPoly.Expr.Parser
import LetPoly.Infer

/-! # Reports

The lines that tell the type of an expression, or why it has none.
-/

namespace LetPoly

/-- The line of an expression that has a type. -/
def typedLine (e : Expr) (t : Ty) : String :=
  e.render ++ " :: " ++ t.render

/-- The two lines of an expression that has no type. -/
def errorLines (e : Expr) (error : TypeError) : String :=
  e.render ++ "\nerror: " ++ error.message

/-- The type of an expression, or the reason why it has none. -/
def report (Γ : Context) (e : Expr) : String :=
  match typeOf Γ e with
  | .ok t => typedLine e t
  | .error error => errorLines e error

/-- The report on a source text in the empty context, one line after the other.
On demand it shows the substitution that inference found. -/
def reportSource (showSubst : Bool) (source : String) : String :=
  match Expr.parse source with
  | .error e => source ++ "\nparse error: " ++ e.message ++ "\n"
  | .ok expr =>
      match typing ∅ expr with
      | .ok (s, t) =>
          typedLine expr t ++ "\n" ++ (if showSubst then "  where " ++ s.render ++ "\n" else "")
      | .error error => errorLines expr error ++ "\n"

end LetPoly
