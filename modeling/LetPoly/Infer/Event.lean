import LetPoly.Expr.Printer
import LetPoly.TypeError

/-! # Events of inference

Inference keeps a log of what it does.  The start and the end of a run are
worth reading for debugging; the single steps are a trace.
-/

namespace LetPoly

/-- How much detail an event belongs to. -/
inductive Level where
  | debug
  | trace
deriving DecidableEq

/-- The text of a level. -/
def Level.render : Level → String
  | .debug => "DEBUG"
  | .trace => "TRACE"

/-- What inference reports while it runs. -/
inductive Event where
  | inferring (expr : Expr)
  | instantiate (scheme : Scheme) (ty : Ty)
  | generalize (scheme : Scheme)
  | bind (var : Name) (ty : Ty)
  | inferred (ty : Ty)
  | failed (error : TypeError)
deriving DecidableEq

namespace Event

/-- The level of an event. -/
def level : Event → Level
  | .inferring _ | .inferred _ | .failed _ => .debug
  | .instantiate _ _ | .generalize _ | .bind _ _ => .trace

/-- What happened. -/
def message : Event → String
  | .inferring _ => "inferring"
  | .instantiate _ _ => "instantiate"
  | .generalize _ => "generalize"
  | .bind _ _ => "bind"
  | .inferred _ => "inferred"
  | .failed _ => "inference failed"

/-- What it happened to: the texts of the values involved, each with a label. -/
def fields : Event → List (String × String)
  | .inferring expr => [("expr", expr.render)]
  | .instantiate scheme ty => [("scheme", scheme.render), ("ty", ty.render)]
  | .generalize scheme => [("scheme", scheme.render)]
  | .bind var ty => [("var", var), ("ty", ty.render)]
  | .inferred ty => [("ty", ty.render)]
  | .failed error => [("err", error.message)]

end Event

end LetPoly
