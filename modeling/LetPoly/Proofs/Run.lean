import LetPoly.Infer
import LetPoly.Proofs.DrawnNames
import LetPoly.Proofs.MostGeneralUnifier

/-! # Runs of inference

The rule for `let` leaves two choices open: whether an older binding of the name
counts while the type of the bound expression is generalized, and in which order
the substitutions of the two parts are composed.  `inferBy` takes the choices as
a parameter, `infer` is one case of it (`infer_eq_inferBy`) and the standard rule
another.

`Run` says what a successful computation does, one constructor for each form of
expression.  It forgets the log and keeps the supply of names, and may demand
something of every composition on the way; without demands it is success
(`inferBy_run_iff`).
-/

namespace LetPoly

/-! ## Rules for `let` -/

/-- How a `let` is inferred. -/
structure LetRule where
  /-- The older binding of the name counts while the type is generalized. -/
  heedsOld : Bool
  /-- The substitution of the body rewrites that of the bound expression. -/
  bodyLast : Bool
deriving DecidableEq

namespace LetRule

/-- The rule of `infer`. -/
def ofInfer : LetRule := ⟨false, false⟩

/-- The standard rule. -/
def standard : LetRule := ⟨true, true⟩

/-- The context in which the type of the bound expression is generalized. -/
def scope (R : LetRule) (Γ : Context) (x : Name) : Context :=
  if R.heedsOld then Γ else Γ.erase x

/-- The substitution of the whole, from those of the bound expression and of
the body. -/
def join (R : LetRule) (s₁ s₂ : Subst) : Subst :=
  if R.bodyLast then s₂.compose s₁ else s₁.compose s₂

/-- The scheme that the name gets. -/
def scheme (R : LetRule) (Γ : Context) (x : Name) (s₁ : Subst) (t₁ : Ty) : Scheme :=
  ((R.scope Γ x).applySubst s₁).generalize t₁

/-- The context of the body. -/
def bodyContext (R : LetRule) (Γ : Context) (x : Name) (s₁ : Subst) (t₁ : Ty) : Context :=
  Context.applySubst s₁ ((Γ.erase x).insert x (R.scheme Γ x s₁ t₁))

end LetRule

/-- Inference with a given rule for `let`. -/
def inferBy (R : LetRule) (Γ : Context) : Expr → InferM (Subst × Ty)
  | .var x =>
      match Γ.find? x with
      | some σ => do
          let t ← InferM.instantiate σ
          return (∅, t)
      | none => throw (.unbound x)
  | .lit literal => return (∅, literal.ty)
  | .abs x body => do
      let param ← InferM.fresh
      let (s, t) ← inferBy R (Γ.insert x (.mono param)) body
      return (s, .fn (s.apply param) t)
  | .app func arg => do
      let result ← InferM.fresh
      let (s₁, t₁) ← inferBy R Γ func
      let (s₂, t₂) ← inferBy R (Γ.applySubst s₁) arg
      let s₃ ← InferM.unifier (s₂.apply t₁) (.fn t₂ result)
      return (s₃.compose (s₂.compose s₁), s₃.apply result)
  | .letIn x bound body => do
      let (s₁, t₁) ← inferBy R Γ bound
      let σ ← InferM.generalize ((R.scope Γ x).applySubst s₁) t₁
      let (s₂, t₂) ← inferBy R (Context.applySubst s₁ ((Γ.erase x).insert x σ)) body
      return (R.join s₁ s₂, t₂)

/-- The choices that `infer` makes. -/
theorem infer_eq_inferBy (e : Expr) : ∀ Γ : Context, infer Γ e = inferBy .ofInfer Γ e := by
  induction e with
  | var x => intro Γ; rfl
  | lit l => intro Γ; rfl
  | abs x body ih => intro Γ; simp only [infer, inferBy, ih]
  | app f a ihf iha => intro Γ; simp only [infer, inferBy, ihf, iha]
  | letIn x e₁ e₂ ih₁ ih₂ => intro Γ; simp only [infer, inferBy, ih₁, ih₂]; rfl

/-- The type found from scratch with a given rule for `let`. -/
def typeOfBy (R : LetRule) (Γ : Context) (e : Expr) : Except TypeError Ty :=
  match (inferBy R Γ e).run ⟨.start Γ.freeVars, #[]⟩ with
  | .ok (s, t) _ => .ok (s.apply t)
  | .error err _ => .error err

/-! ## Steps of the monad -/

namespace InferM

variable {α β : Type}

theorem run_bind_ok {m : InferM α} {f : α → InferM β} {st st' : InferState} {b : β} :
    (m >>= f).run st = .ok b st' ↔
      ∃ a st₁, m.run st = .ok a st₁ ∧ (f a).run st₁ = .ok b st' := by
  rw [EStateM.run_bind]
  cases h : m.run st with
  | ok a st₁ =>
      constructor
      · exact fun hf => ⟨a, st₁, rfl, hf⟩
      · rintro ⟨a', st₁', hm, hf⟩
        cases hm
        exact hf
  | error err st₁ =>
      constructor
      · intro hf; cases hf
      · rintro ⟨a', st₁', hm, -⟩; cases hm

/-- A sequence fails in its first part, or in its second part behind a success of the
first. -/
theorem run_bind_error {m : InferM α} {f : α → InferM β} {st st' : InferState} {err : TypeError} :
    (m >>= f).run st = .error err st' ↔
      m.run st = .error err st' ∨
        ∃ a st₁, m.run st = .ok a st₁ ∧ (f a).run st₁ = .error err st' := by
  rw [EStateM.run_bind]
  cases h : m.run st with
  | ok a st₁ =>
      constructor
      · exact fun hf => .inr ⟨a, st₁, rfl, hf⟩
      · rintro (hm | ⟨a', st₁', hm, hf⟩)
        · cases hm
        · cases hm
          exact hf
  | error err' st₁ =>
      constructor
      · intro hf
        cases hf
        exact .inl rfl
      · rintro (hm | ⟨a', st₁', hm, -⟩)
        · cases hm
          rfl
        · cases hm

theorem run_fresh (st : InferState) :
    fresh.run st = .ok (.var st.supply.fresh.1) { st with supply := st.supply.fresh.2 } := rfl

theorem run_freshFor (vs : List Name) : ∀ st : InferState,
    (freshFor vs).run st =
      .ok (vs.zip ((st.supply.freshMany vs.length).1.map .var))
        { st with supply := (st.supply.freshMany vs.length).2 } := by
  induction vs with
  | nil => intro st; rfl
  | cons v vs ih =>
      intro st
      rw [freshFor, EStateM.run_bind, run_fresh]
      simp only [EStateM.run_bind, ih]
      rfl

theorem run_instantiate (σ : Scheme) (st : InferState) :
    (instantiate σ).run st = .ok (st.supply.instantiate σ).1
      ⟨(st.supply.instantiate σ).2,
        st.log.push (.instantiate σ (st.supply.instantiate σ).1)⟩ := by
  rw [instantiate, EStateM.run_bind, run_freshFor]
  rfl

/-- The bindings of a unification are logged, also if it fails in the end. -/
theorem run_unifier_log (t u : Ty) (st : InferState) :
    (unifier t u).run st =
      let log := st.log ++ (Unify.bindings t u).map fun b => Event.bind b.1 b.2
      match unify t u with
      | .ok s => .ok s { st with log := log }
      | .error e => .error (.unify e) { st with log := log } := by
  rw [unify, Unify.bindings]
  cases h : (Unify.solve t u).unifier with
  | ok s => simp only [unifier, EStateM.run_bind, h]; rfl
  | error e => simp only [unifier, EStateM.run_bind, h]; rfl

/-- Unification leaves the supply as it is. -/
theorem run_unifier (t u : Ty) (st : InferState) :
    ∃ log, (unifier t u).run st = match unify t u with
      | .ok s => .ok s { st with log := log }
      | .error e => .error (.unify e) { st with log := log } :=
  ⟨_, run_unifier_log t u st⟩

theorem run_unifier_ok {t u : Ty} {st st' : InferState} {s : Subst}
    (h : (unifier t u).run st = .ok s st') : unify t u = .ok s ∧ st'.supply = st.supply := by
  obtain ⟨log, hlog⟩ := run_unifier t u st
  rw [hlog] at h
  cases hs : unify t u with
  | error err => rw [hs] at h; cases h
  | ok s' =>
      rw [hs] at h
      cases h
      exact ⟨rfl, rfl⟩

end InferM

/-! ## Runs -/

/-- What is demanded of the compositions of a run. -/
structure Demand where
  /-- In an application, of the later and the earlier substitution. -/
  app : Subst → Subst → Prop
  /-- In a `let`, of the substitutions of the bound expression and of the body. -/
  letIn : Subst → Subst → Prop

/-- Nothing is demanded. -/
def Demand.nothing : Demand where
  app _ _ := True
  letIn _ _ := True

/-- Inferring `e` in `Γ`, with the supply going from `k` to `k'`, yields `s` and
`t`, and every composition on the way is as demanded. -/
inductive Run (R : LetRule) (D : Demand) :
    Context → NameSupply → Expr → Subst → Ty → NameSupply → Prop where
  | var {Γ : Context} {k k' : NameSupply} {x : Name} {σ : Scheme} {t : Ty} :
      Γ.find? x = some σ → k.instantiate σ = (t, k') → Run R D Γ k (.var x) ∅ t k'
  | lit {Γ : Context} {k : NameSupply} {l : Literal} : Run R D Γ k (.lit l) ∅ l.ty k
  | abs {Γ : Context} {k k₁ k' : NameSupply} {x a : Name} {body : Expr} {s : Subst} {t : Ty} :
      k.fresh = (a, k₁) → Run R D (Γ.insert x (.mono (.var a))) k₁ body s t k' →
      Run R D Γ k (.abs x body) s (.fn (s.apply (.var a)) t) k'
  | app {Γ : Context} {k k₀ k₁ k₂ : NameSupply} {r : Name} {f a : Expr} {s₁ s₂ s₃ : Subst}
      {t₁ t₂ : Ty} :
      k.fresh = (r, k₀) → Run R D Γ k₀ f s₁ t₁ k₁ → Run R D (Γ.applySubst s₁) k₁ a s₂ t₂ k₂ →
      unify (s₂.apply t₁) (.fn t₂ (.var r)) = .ok s₃ → D.app s₂ s₁ →
      D.app s₃ (s₂.compose s₁) →
      Run R D Γ k (.app f a) (s₃.compose (s₂.compose s₁)) (s₃.apply (.var r)) k₂
  | letIn {Γ : Context} {k k₁ k₂ : NameSupply} {x : Name} {e₁ e₂ : Expr} {s₁ s₂ : Subst}
      {t₁ t₂ : Ty} :
      Run R D Γ k e₁ s₁ t₁ k₁ → Run R D (R.bodyContext Γ x s₁ t₁) k₁ e₂ s₂ t₂ k₂ →
      D.letIn s₁ s₂ → Run R D Γ k (.letIn x e₁ e₂) (R.join s₁ s₂) t₂ k₂

variable {R : LetRule} {D : Demand} {Γ : Context} {k k' : NameSupply} {e : Expr} {s : Subst}
  {t : Ty}

/-- A run that meets a demand meets a weaker one. -/
theorem Run.imp {D' : Demand} (h : Run R D Γ k e s t k') (happ : ∀ p q, D.app p q → D'.app p q)
    (hlet : ∀ p q, D.letIn p q → D'.letIn p q) : Run R D' Γ k e s t k' := by
  induction h with
  | var hx ht => exact .var hx ht
  | lit => exact .lit
  | abs ha _ ih => exact .abs ha ih
  | app hr _ _ hu h₂₁ h₃ ihf iha => exact .app hr ihf iha hu (happ _ _ h₂₁) (happ _ _ h₃)
  | letIn _ _ hd ih₁ ih₂ => exact .letIn ih₁ ih₂ (hlet _ _ hd)

/-- A successful computation is a run, by induction on the expression. -/
theorem run_of_inferBy (e : Expr) : ∀ {Γ : Context} {st st' : InferState} {s : Subst} {t : Ty},
    (inferBy R Γ e).run st = .ok (s, t) st' → Run R .nothing Γ st.supply e s t st'.supply := by
  induction e with
  | var x =>
      intro Γ st st' s t h
      rw [inferBy] at h
      split at h
      · next σ hx =>
        rw [InferM.run_bind_ok] at h
        obtain ⟨t₀, st₀, hi, hp⟩ := h
        rw [InferM.run_instantiate] at hi
        cases hi
        cases hp
        exact .var hx rfl
      · cases h
  | lit l =>
      intro Γ st st' s t h
      cases h
      exact .lit
  | abs x body ih =>
      intro Γ st st' s t h
      simp only [inferBy, InferM.run_bind_ok] at h
      obtain ⟨_, _, hf, ⟨s, t⟩, st₁, hb, hp⟩ := h
      cases hf
      cases hp
      exact .abs rfl (ih hb)
  | app f a ihf iha =>
      intro Γ st st' s t h
      simp only [inferBy, InferM.run_bind_ok] at h
      obtain ⟨_, _, hr, ⟨s₁, t₁⟩, st₁, h₁, ⟨s₂, t₂⟩, st₂, h₂, s₃, st₃, hu, hp⟩ := h
      cases hr
      cases hp
      obtain ⟨hs, hk⟩ := InferM.run_unifier_ok hu
      rw [hk]
      exact .app rfl (ihf h₁) (iha h₂) hs trivial trivial
  | letIn x e₁ e₂ ih₁ ih₂ =>
      intro Γ st st' s t h
      simp only [inferBy, InferM.run_bind_ok] at h
      obtain ⟨⟨s₁, t₁⟩, st₁, h₁, σ, st₂, hg, ⟨s₂, t₂⟩, st₃, h₂, hp⟩ := h
      cases hg
      cases hp
      have hbody := ih₂ h₂
      exact .letIn (ih₁ h₁) hbody trivial

/-- A run is a successful computation, with some log. -/
theorem Run.inferBy (h : Run R D Γ k e s t k') : ∀ log : Array Event,
    ∃ log', (inferBy R Γ e).run ⟨k, log⟩ = .ok (s, t) ⟨k', log'⟩ := by
  induction h with
  | @var Γ k k' x σ t hx ht =>
      intro log
      refine ⟨log.push (.instantiate σ t), ?_⟩
      simp only [LetPoly.inferBy, hx, InferM.run_bind_ok]
      exact ⟨t, _, by rw [InferM.run_instantiate, ht], rfl⟩
  | lit => exact fun log => ⟨log, rfl⟩
  | @abs Γ k k₁ k' x a body s t ha _ ih =>
      intro log
      obtain ⟨log', h'⟩ := ih log
      refine ⟨log', ?_⟩
      simp only [LetPoly.inferBy, InferM.run_bind_ok]
      exact ⟨.var a, ⟨k₁, log⟩, by rw [InferM.run_fresh, ha], (s, t), _, h', rfl⟩
  | @app Γ k k₀ k₁ k₂ r f a s₁ s₂ s₃ t₁ t₂ hr _ _ hu _ _ ihf iha =>
      intro log
      obtain ⟨log₁, h₁⟩ := ihf log
      obtain ⟨log₂, h₂⟩ := iha log₁
      obtain ⟨log₃, h₃⟩ := InferM.run_unifier (s₂.apply t₁) (.fn t₂ (.var r)) ⟨k₂, log₂⟩
      rw [hu] at h₃
      refine ⟨log₃, ?_⟩
      simp only [LetPoly.inferBy, InferM.run_bind_ok]
      exact ⟨.var r, ⟨k₀, log⟩, by rw [InferM.run_fresh, hr], (s₁, t₁), _, h₁, (s₂, t₂), _, h₂,
        s₃, _, h₃, rfl⟩
  | @letIn Γ k k₁ k₂ x e₁ e₂ s₁ s₂ t₁ t₂ _ _ _ ih₁ ih₂ =>
      intro log
      obtain ⟨log₁, h₁⟩ := ih₁ log
      obtain ⟨log₂, h₂⟩ := ih₂ (log₁.push (.generalize (R.scheme Γ x s₁ t₁)))
      refine ⟨log₂, ?_⟩
      simp only [LetPoly.inferBy, InferM.run_bind_ok]
      exact ⟨(s₁, t₁), _, h₁, R.scheme Γ x s₁ t₁, _, rfl, (s₂, t₂), _, h₂, rfl⟩

/-- Without demands, a run is a successful computation. -/
theorem inferBy_run_iff {log : Array Event} :
    (∃ log', (inferBy R Γ e).run ⟨k, log⟩ = .ok (s, t) ⟨k', log'⟩) ↔
      Run R .nothing Γ k e s t k' := by
  constructor
  · rintro ⟨log', h⟩
    exact run_of_inferBy e h
  · exact fun h => h.inferBy log

/-- A run has one result. -/
theorem Run.unique {D' : Demand} {s' : Subst} {t' : Ty} {k'' : NameSupply}
    (h : Run R D Γ k e s t k') (h' : Run R D' Γ k e s' t' k'') : s' = s ∧ t' = t ∧ k'' = k' := by
  obtain ⟨log, h₁⟩ := h.inferBy #[]
  obtain ⟨log', h₂⟩ := h'.inferBy #[]
  rw [h₁] at h₂
  cases h₂
  exact ⟨rfl, rfl, rfl⟩

/-! ## Runs from scratch -/

/-- Inference from scratch is a run from a supply that starts for the context, with the
type resolved at the end. -/
theorem exists_run_of_inferAnew {st st' : InferState}
    (h : (inferAnew Γ e).run st = .ok (s, t) st') :
    ∃ t₀, Run .ofInfer .nothing Γ (.start Γ.freeVars) e s t₀ st'.supply ∧ t = s.apply t₀ := by
  rw [inferAnew, infer_eq_inferBy] at h
  simp only [InferM.run_bind_ok] at h
  obtain ⟨_, _, hm, ⟨s₀, t₀⟩, st₁, hi, hp⟩ := h
  cases hm
  cases hp
  exact ⟨t₀, run_of_inferBy e hi, rfl⟩

/-- The substitution and the type that are found are those of a run. -/
theorem typing_eq_ok_iff :
    typing Γ e = .ok (s, t) ↔
      ∃ t₀ k, Run .ofInfer .nothing Γ (.start Γ.freeVars) e s t₀ k ∧ t = s.apply t₀ := by
  rw [typing, trace]
  constructor
  · intro h
    split at h
    · next s' t' st hrun =>
      cases h
      obtain ⟨t₀, hrun₀, rfl⟩ := exists_run_of_inferAnew hrun
      exact ⟨t₀, _, hrun₀, rfl⟩
    · cases h
  · rintro ⟨t₀, k, hrun, rfl⟩
    obtain ⟨log, hlog⟩ := hrun.inferBy #[.inferring e]
    have hanew : (inferAnew Γ e).run { InferM.initial with log := #[.inferring e] } =
        .ok (s, s.apply t₀) ⟨k, log⟩ := by
      rw [inferAnew, infer_eq_inferBy]
      simp only [InferM.run_bind_ok]
      exact ⟨(), _, rfl, (s, t₀), _, hlog, rfl⟩
    rw [hanew]

theorem typeOf_eq_ok_iff : typeOf Γ e = .ok t ↔ ∃ s, typing Γ e = .ok (s, t) := by
  rw [typeOf]
  cases typing Γ e with
  | error err => simp [Except.map]
  | ok r => simp [Except.map, Prod.ext_iff]

/-- The type that is found with a rule for `let` is that of a run with it. -/
theorem typeOfBy_eq_ok_iff :
    typeOfBy R Γ e = .ok t ↔
      ∃ s t₀ k, Run R .nothing Γ (.start Γ.freeVars) e s t₀ k ∧ t = s.apply t₀ := by
  rw [typeOfBy]
  constructor
  · intro h
    split at h
    · next s' t' st hrun =>
      cases h
      exact ⟨s', t', _, run_of_inferBy e hrun, rfl⟩
    · cases h
  · rintro ⟨s, t₀, k, hrun, rfl⟩
    obtain ⟨log, hlog⟩ := hrun.inferBy #[]
    rw [hlog]

/-- The type that is found is the one that the rule of `infer` finds. -/
theorem typeOf_eq_ok_iff_typeOfBy : typeOf Γ e = .ok t ↔ typeOfBy .ofInfer Γ e = .ok t := by
  rw [typeOf_eq_ok_iff, typeOfBy_eq_ok_iff]
  simp only [typing_eq_ok_iff]

end LetPoly
