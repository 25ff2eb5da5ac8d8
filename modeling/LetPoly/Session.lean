import LetPoly.Infer

/-! # Sessions

A session is a context that grows while expressions are inferred and defined
one after the other.  All steps of a session draw their names from one supply,
which goes on after an error.
-/

namespace LetPoly

/-- A context and the state of inference. -/
structure Session where
  /-- The schemes of the names in scope. -/
  context : Context
  /-- The supply and the log so far. -/
  state : InferState

namespace Session

/-- A session that starts in a context, with no name reserved. -/
def start (Γ : Context) : Session :=
  ⟨Γ, InferM.initial⟩

/-- Do one step of inference. -/
def perform {α : Type} (session : Session) (step : InferM α) : Except TypeError α × Session :=
  match step.run session.state with
  | .ok a st => (.ok a, { session with state := st })
  | .error e st => (.error e, { session with state := st })

/-- Infer the type of an expression in the context of the session. -/
def infer (session : Session) (e : Expr) : Except TypeError (Subst × Ty) × Session :=
  session.perform (LetPoly.infer session.context e)

/-- The same with a new supply of names. -/
def inferAnew (session : Session) (e : Expr) : Except TypeError (Subst × Ty) × Session :=
  session.perform (LetPoly.inferAnew session.context e)

/-- Change the context. -/
def updateContext (session : Session) (f : Context → Context) : Session :=
  { session with context := f session.context }

/-- Bind a name to an expression: apply the inferred substitution to the
context, and generalize the type there.  An older binding of the name still
counts while its type is generalized.  After an error the context is as it
was. -/
def define (session : Session) (x : Name) (e : Expr) :
    Except TypeError (Subst × Ty) × Session :=
  match session.infer e with
  | (.ok (s, t), session') =>
      let Γ := session'.context.applySubst s
      (.ok (s, t), { session' with context := Γ.insert x (Γ.generalize (s.apply t)) })
  | (.error err, session') => (.error err, session')

end Session

end LetPoly
