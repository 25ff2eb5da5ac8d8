import LetPoly.Context
import LetPoly.Infer.Event
import LetPoly.NameSupply

/-! # Type inference

Inference walks an expression once and returns a substitution for the type
variables of the context together with a type.  It draws fresh names from a
supply and logs its steps; both survive a failure.

`infer` goes on from the names that are left; `inferAnew` starts a new supply
that avoids the variables free in the context, and applies the substitution to
the type once.  `typing` and `typeOf` are the results of a run from scratch,
`trace` is its log.
-/

namespace LetPoly

/-- The type of a literal. -/
def Literal.ty : Literal → Ty
  | .int _ => .int
  | .bool _ => .bool

/-- What inference carries along: the names left to draw, and the log. -/
structure InferState where
  /-- The names left to draw. -/
  supply : NameSupply
  /-- The events so far, oldest first. -/
  log : Array Event
deriving DecidableEq

/-- Computations that draw names, log events and may find a type error.  The
state at the point of the error is kept. -/
abbrev InferM : Type → Type := EStateM TypeError InferState

namespace InferM

/-- Nothing drawn, nothing reserved, nothing logged. -/
def initial : InferState :=
  ⟨.start ∅, #[]⟩

/-- Add an event to the log. -/
def record (event : Event) : InferM Unit :=
  modify fun st => { st with log := st.log.push event }

/-- A type variable that has not been handed out before. -/
def fresh : InferM Ty :=
  modifyGet fun st =>
    let (v, supply) := st.supply.fresh
    (.var v, { st with supply := supply })

/-- A fresh type variable for each name of a list. -/
def freshFor : List Name → InferM (List (Name × Ty))
  | [] => return []
  | v :: vs => do
      let t ← fresh
      let rest ← freshFor vs
      return (v, t) :: rest

/-- Replace every quantified variable of a scheme by a fresh one. -/
def instantiate (σ : Scheme) : InferM Ty := do
  let images ← freshFor σ.vars
  let t := Subst.apply (.ofList images) σ.body
  record (.instantiate σ t)
  return t

/-- Quantify a type over the variables that are not free in the context. -/
def generalize (Γ : Context) (t : Ty) : InferM Scheme := do
  let σ := Γ.generalize t
  record (.generalize σ)
  return σ

/-- The most general unifier of two types, with its bindings logged. -/
def unifier (t u : Ty) : InferM Subst := do
  let outcome := Unify.solve t u
  modify fun st => { st with log := st.log ++ outcome.bindings.map fun b => Event.bind b.1 b.2 }
  match outcome.unifier with
  | .ok s => return s
  | .error e => throw (.unify e)

end InferM

/-- Infer a type of an expression, and the substitution under which the
expression has it. -/
def infer (Γ : Context) : Expr → InferM (Subst × Ty)
  | .var x =>
      match Γ.find? x with
      | some σ => do
          let t ← InferM.instantiate σ
          return (∅, t)
      | none => throw (.unbound x)
  | .lit literal => return (∅, literal.ty)
  | .abs x body => do
      let param ← InferM.fresh
      let (s, t) ← infer (Γ.insert x (.mono param)) body
      return (s, .fn (s.apply param) t)
  | .app func arg => do
      let result ← InferM.fresh
      let (s₁, t₁) ← infer Γ func
      let (s₂, t₂) ← infer (Γ.applySubst s₁) arg
      let s₃ ← InferM.unifier (s₂.apply t₁) (.fn t₂ result)
      return (s₃.compose (s₂.compose s₁), s₃.apply result)
  | .letIn x bound body => do
      let (s₁, t₁) ← infer Γ bound
      let others : Context := Γ.erase x
      let σ ← InferM.generalize (others.applySubst s₁) t₁
      let (s₂, t₂) ← infer (Context.applySubst s₁ (others.insert x σ)) body
      return (s₁.compose s₂, t₂)

/-- Infer with a new supply that avoids the variables free in the context, and
apply the substitution to the type. -/
def inferAnew (Γ : Context) (e : Expr) : InferM (Subst × Ty) := do
  modify fun st => { st with supply := .start Γ.freeVars }
  let (s, t) ← infer Γ e
  return (s, s.apply t)

/-! ## Runs from scratch -/

/-- The log of a run with its result. -/
structure Trace where
  /-- The events of the run, with its start and its end. -/
  events : Array Event
  /-- What the run finds. -/
  result : Except TypeError (Subst × Ty)

/-- Run inference from scratch and log its start, its steps and its end. -/
def trace (Γ : Context) (e : Expr) : Trace :=
  match (inferAnew Γ e).run { InferM.initial with log := #[.inferring e] } with
  | .ok (s, t) st => ⟨st.log.push (.inferred t), .ok (s, t)⟩
  | .error err st => ⟨st.log.push (.failed err), .error err⟩

/-- The substitution and the type that a run from scratch finds. -/
def typing (Γ : Context) (e : Expr) : Except TypeError (Subst × Ty) :=
  (trace Γ e).result

/-- The type that a run from scratch finds. -/
def typeOf (Γ : Context) (e : Expr) : Except TypeError Ty :=
  (typing Γ e).map (·.2)

end LetPoly
