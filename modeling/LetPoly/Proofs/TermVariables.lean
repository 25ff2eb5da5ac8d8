import LetPoly.Proofs.Evaluation
import LetPoly.Proofs.FreeVariables

/-! # Term variables in and out of scope

Inference comes to the free variables of an expression one occurrence after the
other (`Expr.freeOccurrences`).  It stops at the first one that the context does
not bind, unless two types fail to unify on the way there.

Two facts about computations carry this through the monad.  A computation *reports*
a name if that is the only one it may call unbound, and if it cannot succeed as long
as there is one (`InferM.Reports`).  It *truncates* another one if it does the same
until it misses a name (`InferM.Truncates`).

The second is for contexts that differ by closed bindings.  Those have no free type
variables, so reservation, substitution and generalization do not see them, and only
a look-up tells the two contexts apart (`Context.Adds.truncates_infer`).  A look-up
of a name that is not free in the expression never happens, so a closed binding of
it changes nothing at all (`infer_insert_unused`).
-/

namespace LetPoly

variable {Γ Γ' : Context} {e : Expr} {x z : Name} {σ : Scheme}

/-! ## Occurrences -/

namespace Expr

/-- The free occurrences of term variables in the order in which they are looked up:
those of a function before those of its argument, and those of a bound expression
before those of the body of its `let`. -/
def freeOccurrences : Expr → List Name
  | .var x => [x]
  | .lit _ => []
  | .app func arg => func.freeOccurrences ++ arg.freeOccurrences
  | .abs param body => body.freeOccurrences.filter (· ≠ param)
  | .letIn name bound body =>
      bound.freeOccurrences ++ body.freeOccurrences.filter (· ≠ name)

theorem mem_freeOccurrences : x ∈ e.freeOccurrences ↔ e.Free x := by
  induction e with
  | var y => exact List.mem_singleton
  | lit l => exact List.mem_nil_iff x
  | app func arg ih₁ ih₂ => rw [freeOccurrences, List.mem_append, ih₁, ih₂, Free]
  | abs param body ih => simp [freeOccurrences, Free, ih, and_comm]
  | letIn name bound body ih₁ ih₂ => simp [freeOccurrences, Free, ih₁, ih₂, and_comm]

/-- The first free occurrence of a variable that the context does not bind. -/
def firstUnbound (Γ : Context) (e : Expr) : Option Name :=
  e.freeOccurrences.find? fun x => (Γ.find? x).isNone

/-- Nothing is unbound exactly if the context has every free variable. -/
theorem firstUnbound_eq_none_iff :
    e.firstUnbound Γ = none ↔ ∀ x, e.Free x → ∃ σ, Γ.find? x = some σ := by
  simp only [firstUnbound, List.find?_eq_none, mem_freeOccurrences, Bool.not_eq_true,
    Option.isNone_eq_false_iff, Option.isSome_iff_exists]

/-- What is reported is free and not in the context. -/
theorem free_of_firstUnbound (h : e.firstUnbound Γ = some x) : e.Free x ∧ Γ.find? x = none :=
  ⟨mem_freeOccurrences.mp (List.mem_of_find?_eq_some h), by simpa using List.find?_some h⟩

/-- It only matters which names are bound. -/
theorem firstUnbound_congr (h : ∀ y, (Γ'.find? y).isNone = (Γ.find? y).isNone) :
    e.firstUnbound Γ' = e.firstUnbound Γ := by
  simp only [firstUnbound, h]

/-- Substitutions change the schemes and not the names that are bound. -/
theorem firstUnbound_applySubst (s : Subst) : e.firstUnbound (Γ.applySubst s) = e.firstUnbound Γ :=
  firstUnbound_congr fun y => by rw [Context.find?_applySubst, Option.isNone_map]

/-- Leaving out the occurrences of a name is looking in a context that binds it. -/
theorem firstUnbound_insert (Γ : Context) (x : Name) (σ : Scheme) (e : Expr) :
    e.firstUnbound (Γ.insert x σ) =
      (e.freeOccurrences.filter (· ≠ x)).find? fun y => (Γ.find? y).isNone := by
  rw [firstUnbound, List.find?_filter]
  refine congrArg (List.find? · _) (funext fun y => ?_)
  rw [NameMap.find?_insert]
  by_cases hy : y = x
  · simp [hy]
  · cases Γ.find? y <;> simp [hy]

theorem firstUnbound_app (func arg : Expr) :
    (Expr.app func arg).firstUnbound Γ = (func.firstUnbound Γ).or (arg.firstUnbound Γ) :=
  List.find?_append

theorem firstUnbound_abs (Γ : Context) (x : Name) (body : Expr) (σ : Scheme) :
    (Expr.abs x body).firstUnbound Γ = body.firstUnbound (Γ.insert x σ) :=
  (firstUnbound_insert Γ x σ body).symm

/-- The name of a `let` is bound in its body, and not in the bound expression. -/
theorem firstUnbound_letIn (Γ : Context) (x : Name) (bound body : Expr) (σ : Scheme) :
    (Expr.letIn x bound body).firstUnbound Γ =
      (bound.firstUnbound Γ).or (body.firstUnbound (Γ.insert x σ)) := by
  rw [firstUnbound_insert]
  exact List.find?_append

end Expr

/-! ## What a computation reports -/

namespace InferM

variable {α β : Type} {m : InferM α} {f : α → InferM β} {found later : Option Name}

/-- A success has found nothing to report, and only what is found is called
unbound. -/
structure Reports (m : InferM α) (found : Option Name) : Prop where
  /-- After a success there is nothing to report. -/
  of_ok : ∀ {st a st'}, m.run st = .ok a st' → found = none
  /-- A name that is called unbound is the one to report. -/
  of_unbound : ∀ {st x st'}, m.run st = .error (.unbound x) st' → found = some x

theorem reports_pure (a : α) : (pure a : InferM α).Reports none :=
  ⟨fun _ => rfl, fun h => nomatch h⟩

theorem reports_throw_unbound (x : Name) : (throw (.unbound x) : InferM α).Reports (some x) := by
  refine ⟨fun h => (nomatch h), fun h => ?_⟩
  cases h
  rfl

theorem reports_fresh : fresh.Reports none :=
  ⟨fun _ => rfl, fun h => nomatch h⟩

theorem reports_instantiate (σ : Scheme) : (instantiate σ).Reports none := by
  refine ⟨fun _ => rfl, fun h => ?_⟩
  rw [run_instantiate] at h
  cases h

theorem reports_generalize (Γ : Context) (t : Ty) : (generalize Γ t).Reports none :=
  ⟨fun _ => rfl, fun h => nomatch h⟩

/-- Types that do not unify are an error of another kind. -/
theorem reports_unifier (t u : Ty) : (unifier t u).Reports none := by
  refine ⟨fun _ => rfl, fun {st x st'} h => ?_⟩
  obtain ⟨log, hlog⟩ := run_unifier t u st
  rw [hlog] at h
  split at h <;> cases h

/-- A sequence reports what its first part finds, and else what comes after. -/
theorem Reports.bind (hm : m.Reports found) (hf : ∀ a, (f a).Reports later) :
    (m >>= f).Reports (found.or later) := by
  constructor
  · intro st b st' h
    obtain ⟨a, st₁, h₁, h₂⟩ := run_bind_ok.mp h
    rw [hm.of_ok h₁, (hf a).of_ok h₂, Option.or_none]
  · intro st x st' h
    rcases run_bind_error.mp h with h₁ | ⟨a, st₁, h₁, h₂⟩
    · rw [hm.of_unbound h₁, Option.some_or]
    · rw [hm.of_ok h₁, (hf a).of_unbound h₂, Option.none_or]

/-- Nothing is found in the first part. -/
theorem Reports.after (hm : m.Reports none) (hf : ∀ a, (f a).Reports later) :
    (m >>= f).Reports later :=
  hm.bind hf

/-- Nothing is found after the first part. -/
theorem Reports.before (hm : m.Reports found) (hf : ∀ a, (f a).Reports none) :
    (m >>= f).Reports found := by
  have hbind := hm.bind hf
  rwa [Option.or_none] at hbind

/-! ## Stopping short of a missing name -/

variable {missing : Name → Prop} {m' : InferM α} {f' : α → InferM β}

/-- From every state, the first computation does what the second one does, or it
stops because it misses a name. -/
def Truncates (missing : Name → Prop) (m m' : InferM α) : Prop :=
  ∀ st, m.run st = m'.run st ∨ ∃ x st', missing x ∧ m.run st = .error (.unbound x) st'

theorem Truncates.refl (m : InferM α) : Truncates missing m m :=
  fun _ => .inl rfl

theorem truncates_throw (h : missing x) : Truncates missing (throw (.unbound x)) m :=
  fun st => .inr ⟨x, st, h, rfl⟩

theorem truncates_generalize {t : Ty} (h : Γ'.generalize t = Γ.generalize t) :
    Truncates missing (generalize Γ t) (generalize Γ' t) := by
  rw [generalize, generalize, h]
  exact .refl _

/-- If both parts are cut short at most by a missing name, then so is their sequence. -/
theorem Truncates.bind (hm : Truncates missing m m') (hf : ∀ a, Truncates missing (f a) (f' a)) :
    Truncates missing (m >>= f) (m' >>= f') := by
  intro st
  rcases hm st with heq | ⟨x, st', hx, herr⟩
  · rw [EStateM.run_bind, EStateM.run_bind, heq]
    cases m'.run st with
    | ok a st₁ => exact hf a st₁
    | error err st₁ => exact .inl rfl
  · exact .inr ⟨x, st', hx, run_bind_error.mpr (.inl herr)⟩

end InferM

open InferM

/-! ## Unbound variables -/

/-- Inference reports the first unbound occurrence.  On the way into a subexpression
the context is rewritten and extended, which binds the names in scope and no
others. -/
theorem reports_infer (e : Expr) : ∀ Γ : Context, (infer Γ e).Reports (e.firstUnbound Γ) := by
  induction e with
  | var x =>
      intro Γ
      rw [infer, Expr.firstUnbound, Expr.freeOccurrences, List.find?_singleton]
      cases Γ.find? x with
      | some σ => exact (reports_instantiate σ).before fun _ => reports_pure _
      | none => exact reports_throw_unbound x
  | lit l => exact fun Γ => reports_pure _
  | abs x body ih =>
      intro Γ
      rw [infer]
      refine reports_fresh.after fun param => ?_
      rw [Expr.firstUnbound_abs Γ x body (.mono param)]
      exact (ih _).before fun _ => reports_pure _
  | app func arg ih₁ ih₂ =>
      intro Γ
      rw [infer, Expr.firstUnbound_app]
      refine reports_fresh.after fun result => (ih₁ Γ).bind fun r₁ => ?_
      rw [← Expr.firstUnbound_applySubst r₁.1]
      refine (ih₂ _).before fun r₂ => ?_
      exact (reports_unifier _ _).before fun _ => reports_pure _
  | letIn x bound body ih₁ ih₂ =>
      intro Γ
      rw [infer, Expr.firstUnbound_letIn Γ x bound body (.mono .int)]
      refine (ih₁ Γ).bind fun r₁ => (reports_generalize _ _).after fun σ => ?_
      -- which scheme the name gets makes no difference
      have hbody : body.firstUnbound (Context.applySubst r₁.1 ((Γ.erase x).insert x σ)) =
          body.firstUnbound (Γ.insert x (.mono .int)) := by
        rw [Expr.firstUnbound_applySubst]
        refine Expr.firstUnbound_congr fun y => ?_
        rw [NameMap.find?_insert, NameMap.find?_insert, NameMap.find?_erase]
        by_cases hy : y = x <;> simp [hy]
      rw [← hbody]
      exact (ih₂ _).before fun _ => reports_pure _

/-! ## Closed bindings -/

namespace Context

variable {missing : Name → Prop}

/-- The second context is the first one with closed schemes for some of the missing
names. -/
def Adds (missing : Name → Prop) (Γ Γ' : Context) : Prop :=
  ∀ x, Γ'.find? x = Γ.find? x ∨
    missing x ∧ Γ.find? x = none ∧ ∃ σ, Γ'.find? x = some σ ∧ σ.Closed

theorem adds_insert (hmissing : missing z) (hz : Γ.find? z = none) (hσ : σ.Closed) :
    Adds missing Γ (Γ.insert z σ) := by
  intro x
  rw [NameMap.find?_insert]
  split
  · next hx => exact .inr ⟨hx ▸ hmissing, hx ▸ hz, σ, rfl, hσ⟩
  · exact .inl rfl

namespace Adds

theorem insert (h : Adds missing Γ Γ') (x : Name) (σ : Scheme) :
    Adds missing (Γ.insert x σ) (Γ'.insert x σ) := by
  intro y
  rw [NameMap.find?_insert, NameMap.find?_insert]
  split
  · exact .inl rfl
  · exact h y

theorem erase (h : Adds missing Γ Γ') (x : Name) : Adds missing (Γ.erase x) (Γ'.erase x) := by
  intro y
  rw [NameMap.find?_erase, NameMap.find?_erase]
  split
  · exact .inl rfl
  · exact h y

/-- Substitutions leave closed schemes as they are. -/
theorem applySubst (h : Adds missing Γ Γ') (s : Subst) :
    Adds missing (Γ.applySubst s) (Γ'.applySubst s) := by
  intro y
  rw [find?_applySubst, find?_applySubst]
  rcases h y with heq | ⟨hy, hnone, σ, hsome, hσ⟩
  · exact .inl (congrArg _ heq)
  · refine .inr ⟨hy, by rw [hnone, Option.map_none], σ, ?_, hσ⟩
    rw [hsome, Option.map_some, hσ.applyScheme_eq]

/-- Closed schemes have no free type variables to add. -/
theorem freeVars_eq (h : Adds missing Γ Γ') : Γ'.freeVars = Γ.freeVars := by
  refine NameSet.ext fun v => ?_
  rw [mem_freeVars, mem_freeVars]
  constructor
  · rintro ⟨x, σ, hx, hv⟩
    rcases h x with heq | ⟨-, -, σ', hσ', hclosed⟩
    · exact ⟨x, σ, heq ▸ hx, hv⟩
    · rw [hx] at hσ'
      cases hσ'
      exact absurd hv (hclosed v)
  · rintro ⟨x, σ, hx, hv⟩
    rcases h x with heq | ⟨-, hnone, -⟩
    · exact ⟨x, σ, heq.trans hx, hv⟩
    · rw [hnone] at hx
      cases hx

/-- Closed schemes make no difference to generalization. -/
theorem generalize_eq (h : Adds missing Γ Γ') (t : Ty) : Γ'.generalize t = Γ.generalize t :=
  generalize_congr fun v _ => by rw [h.freeVars_eq]

/-- Closed bindings are seen when their names are looked up, and at no other
time. -/
theorem truncates_infer (e : Expr) : ∀ {Γ Γ' : Context}, Adds missing Γ Γ' →
    Truncates missing (infer Γ e) (infer Γ' e) := by
  induction e with
  | var x =>
      intro Γ Γ' h
      rw [infer, infer]
      rcases h x with heq | ⟨hx, hnone, -⟩
      · rw [heq]
        exact .refl _
      · rw [hnone]
        exact truncates_throw hx
  | lit l => exact fun _ => .refl _
  | abs x body ih =>
      intro Γ Γ' h
      rw [infer, infer]
      exact .bind (.refl _) fun param => (ih (h.insert x _)).bind fun _ => .refl _
  | app func arg ih₁ ih₂ =>
      intro Γ Γ' h
      rw [infer, infer]
      refine .bind (.refl _) fun result => (ih₁ h).bind fun r₁ => ?_
      exact (ih₂ (h.applySubst r₁.1)).bind fun _ => .refl _
  | letIn x bound body ih₁ ih₂ =>
      intro Γ Γ' h
      rw [infer, infer]
      have hothers := h.erase x
      refine (ih₁ h).bind fun r₁ => ?_
      refine .bind (truncates_generalize ((hothers.applySubst r₁.1).generalize_eq _)) fun σ => ?_
      exact (ih₂ ((hothers.insert x σ).applySubst r₁.1)).bind fun _ => .refl _

end Adds

end Context

/-! ## What is reported -/

/-- An unbound variable that inference reports is the first one, a success has found
them all bound, and an expression with an unbound variable is refused.  Where it is
refused because two types do not unify, this is no matter of the unbound variables:
closed schemes for them do not change it. -/
theorem infer_reports_firstUnbound (Γ : Context) (e : Expr) (st : InferState) :
    (∀ x st', (infer Γ e).run st = .error (.unbound x) st' → e.firstUnbound Γ = some x) ∧
      ((∃ x, e.Free x ∧ Γ.find? x = none) → ∃ err st', (infer Γ e).run st = .error err st') ∧
      (∀ s t st', (infer Γ e).run st = .ok (s, t) st' →
        ∀ x, e.Free x → ∃ σ, Γ.find? x = some σ) ∧
      ∀ err st', (infer Γ e).run st = .error (.unify err) st' →
        ∀ missing Γ', Γ.Adds missing Γ' → (infer Γ' e).run st = .error (.unify err) st' := by
  have hreports := reports_infer e Γ
  have hok : ∀ s t st', (infer Γ e).run st = .ok (s, t) st' →
      ∀ x, e.Free x → ∃ σ, Γ.find? x = some σ :=
    fun s t st' h => Expr.firstUnbound_eq_none_iff.mp (hreports.of_ok h)
  refine ⟨fun x st' h => hreports.of_unbound h, ?_, hok, ?_⟩
  · rintro ⟨x, hx, hnone⟩
    cases h : (infer Γ e).run st with
    | error err st' => exact ⟨err, st', rfl⟩
    | ok r st' =>
        obtain ⟨σ, hσ⟩ := hok r.1 r.2 st' h x hx
        rw [hnone] at hσ
        cases hσ
  · intro err st' h missing Γ' hadds
    rcases hadds.truncates_infer e st with heq | ⟨x, st₁, -, hx⟩
    · rw [← heq, h]
    · rw [h] at hx
      cases hx

/-- The context `f : Int -> Int`. -/
def onlyF : Context :=
  .ofList [("f", .mono (.fn .int .int))]

/-- `(\x -> f x y) (let z = z in x)`: the `y` in the function comes first, then the
`z` that its own `let` does not bind, and then the `x` outside of the abstraction. -/
def threeUnbound : Expr :=
  .app (.abs "x" (.app (.app (.var "f") (.var "x")) (.var "y")))
    (.letIn "z" (.var "z") (.var "x"))

/-- `f True y`, where `f True` fails before `y` is looked up. -/
def failsBeforeY : Expr :=
  .app (.app (.var "f") (.bool true)) (.var "y")

/-- The first unbound name in the order of look-ups is reported, and an error before any
look-up of `y` does not depend on `y`. -/
theorem infer_reports_firstUnbound_y :
    threeUnbound.freeOccurrences = ["f", "y", "z", "x"] ∧
      (∃ st, (infer onlyF threeUnbound).run InferM.initial = .error (.unbound "y") st) ∧
      threeUnbound.firstUnbound onlyF = some "y" ∧
      (∃ err st, (infer onlyF threeUnbound).run InferM.initial = .error err st) ∧
      ∃ st, (infer onlyF failsBeforeY).run InferM.initial =
          .error (.unify (.mismatch .int .bool)) st ∧
        (infer (onlyF.insert "y" (.mono .int)) failsBeforeY).run InferM.initial =
          .error (.unify (.mismatch .int .bool)) st := by
  have hrun : ∃ st, (infer onlyF threeUnbound).run InferM.initial = .error (.unbound "y") st := by
    simp only [infer, InferM.unifier, Unify.solve_eq_compute, threeUnbound]
    decide +kernel
  have hfails : ∃ st, (infer onlyF failsBeforeY).run InferM.initial =
      .error (.unify (.mismatch .int .bool)) st := by
    simp only [infer, InferM.unifier, Unify.solve_eq_compute, failsBeforeY]
    decide +kernel
  have hy : onlyF.find? "y" = none := by decide
  have hclosed : (Scheme.mono .int).Closed := fun v hv =>
    Ty.not_mem_int v (Scheme.mem_freeVars_mono.mp hv)
  obtain ⟨st, hst⟩ := hrun
  obtain ⟨st', hst'⟩ := hfails
  obtain ⟨hfirst, hrefused, -, -⟩ := infer_reports_firstUnbound onlyF threeUnbound InferM.initial
  obtain ⟨-, -, -, hkept⟩ := infer_reports_firstUnbound onlyF failsBeforeY InferM.initial
  refine ⟨by decide, ⟨st, hst⟩, hfirst _ _ hst, hrefused ⟨"y", by decide, hy⟩, st', hst', ?_⟩
  exact hkept _ _ hst' (· = "y") _ (Context.adds_insert rfl hy hclosed)

/-! ## Unused bindings -/

/-- A closed binding of a name that is not free in the expression and not bound yet
changes nothing: inference draws the same names, logs the same events, and ends in
the same result or error, also if the expression binds the name itself. -/
theorem infer_insert_unused (hz : Γ.find? z = none) (hfree : ¬ e.Free z) (hσ : σ.Closed) :
    infer (Γ.insert z σ) e = infer Γ e := by
  have hadds : Γ.Adds (· = z) (Γ.insert z σ) := Context.adds_insert rfl hz hσ
  funext st
  rcases hadds.truncates_infer e st with heq | ⟨x, st', rfl, hx⟩
  · exact heq.symm
  · exact absurd (Expr.free_of_firstUnbound ((reports_infer e Γ).of_unbound hx)).1 hfree

/-- From scratch the same names are reserved, too. -/
theorem typing_insert_unused (hz : Γ.find? z = none) (hfree : ¬ e.Free z) (hσ : σ.Closed) :
    typing (Γ.insert z σ) e = typing Γ e ∧
      ∀ st, (inferAnew (Γ.insert z σ) e).run st = (inferAnew Γ e).run st := by
  have hadds : Γ.Adds (· = z) (Γ.insert z σ) := Context.adds_insert rfl hz hσ
  have hanew : inferAnew (Γ.insert z σ) e = inferAnew Γ e := by
    rw [inferAnew, inferAnew, infer_insert_unused hz hfree hσ, hadds.freeVars_eq]
  constructor
  · rw [typing, typing, trace, trace, hanew]
  · intro st
    rw [hanew]

/-- The context `y : b`. -/
def openY : Context :=
  .ofList [("y", .mono (.var "b"))]

/-- `let z = \x -> y in (\z -> z 1) z`. -/
def bindsZTwice : Expr :=
  .letIn "z" (.abs "x" (.var "y")) (.app (.abs "z" (.app (.var "z") (.int 1))) (.var "z"))

/-- With `z : forall a. a -> Int` in the context, `b` is still the only reserved
name, and the two inner bindings of `z` are used as before. -/
theorem typing_insert_unused_z :
    openY.find? "z" = none ∧ ¬ bindsZTwice.Free "z" ∧
      typing openY bindsZTwice = .ok (.ofList [("b", .var "c"), ("d", .fn .int (.var "c")),
        ("e", .var "c"), ("f", .int)], .var "c") ∧
      typing (openY.insert "z" ⟨["a"], .fn (.var "a") .int⟩) bindsZTwice =
        typing openY bindsZTwice := by
  have hz : openY.find? "z" = none := by decide
  have hclosed : Scheme.Closed ⟨["a"], .fn (.var "a") .int⟩ := by
    intro v hv
    simp at hv
  have hfree : ¬ bindsZTwice.Free "z" := by decide
  have htyping : typing openY bindsZTwice = .ok (.ofList [("b", .var "c"),
      ("d", .fn .int (.var "c")), ("e", .var "c"), ("f", .int)], .var "c") := by
    simp only [typing, trace, inferAnew, infer, InferM.unifier, Unify.solve_eq_compute, bindsZTwice]
    decide +kernel
  exact ⟨hz, hfree, htyping, (typing_insert_unused hz hfree hclosed).1⟩

end LetPoly
