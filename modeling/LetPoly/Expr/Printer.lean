import LetPoly.Expr
import LetPoly.Numeral.Decimal
import LetPoly.Parens

/-! # Printing expressions

Parentheses stand only where the grammar needs them.  Application groups to
the left, so the function of an application gets parentheses if it is a
binder, and its argument gets them unless it is a single token.
-/

namespace LetPoly

/-- The text of a literal. -/
def Literal.render : Literal → String
  | .int value => Numeral.decimal value.toInt
  | .bool true => "True"
  | .bool false => "False"

/-- The text of an expression. -/
def Expr.render : Expr → String
  | .var name => name
  | .lit literal => literal.render
  | .app func arg =>
      parensIf func.isBinder func.render ++ " " ++ parensIf (!arg.isAtomic) arg.render
  | .abs param body => "\\" ++ param ++ " -> " ++ body.render
  | .letIn name bound body => "let " ++ name ++ " = " ++ bound.render ++ " in " ++ body.render

end LetPoly
