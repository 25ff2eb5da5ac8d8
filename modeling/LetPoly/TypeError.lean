import LetPoly.Unify

/-! # Type errors

An expression has no type because it uses a variable that nothing binds, or
because two types that must be equal cannot be made so.
-/

namespace LetPoly

/-- Why an expression has no type. -/
inductive TypeError where
  | unbound (name : Name)
  | unify (error : UnifyError)
deriving DecidableEq

/-- The text of the error. -/
def TypeError.message : TypeError → String
  | .unbound name => "unbound variable: " ++ name
  | .unify error => error.message

end LetPoly
