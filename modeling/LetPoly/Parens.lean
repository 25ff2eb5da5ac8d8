/-! # Parentheses

The one place where printed text gets its parentheses.
-/

namespace LetPoly

/-- The text, in parentheses if `needed`. -/
def parensIf (needed : Bool) (text : String) : String :=
  if needed then "(" ++ text ++ ")" else text

end LetPoly
