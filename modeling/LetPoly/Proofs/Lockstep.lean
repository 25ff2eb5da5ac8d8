import LetPoly.Proofs.Hygiene

/-! # Inference in lockstep

Two computations of inference are compared by their *outcomes*: the value or the
error, and the supply that is left.  Logs do not count.  A computation *follows*
another one up to a limit if it has the same outcome, as long as the other one
leaves the supply within the limit (`InferM.Follows`).  Following passes through
sequences (`InferM.Follows.bind`), and from the parts of an expression to the
whole (`follows_abs`, `follows_app`, `follows_letIn`), so that an induction on
expressions only has to say how contexts and names are related.

The limit lets such an induction speak of the names that a run really draws.
-/

namespace LetPoly

namespace InferM

variable {α β : Type}

/-- A value or an error, and the supply that is left. -/
def outcome (m : InferM α) (st : InferState) : Except TypeError α × NameSupply :=
  match m.run st with
  | .ok a st' => (.ok a, st'.supply)
  | .error err st' => (.error err, st'.supply)

/-- A computation ends with a value exactly if its run does, whatever the log. -/
theorem outcome_eq_ok_iff {m : InferM α} {st : InferState} {a : α} {k : NameSupply} :
    m.outcome st = (.ok a, k) ↔ ∃ log, m.run st = .ok a ⟨k, log⟩ := by
  rw [outcome]
  cases m.run st with
  | ok a' st' =>
      constructor
      · intro h
        cases h
        exact ⟨st'.log, rfl⟩
      · rintro ⟨log, h⟩
        cases h
        rfl
  | error err st' =>
      constructor
      · intro h
        cases h
      · rintro ⟨log, h⟩
        cases h

/-- A computation ends with an error exactly if its run does, whatever the log. -/
theorem outcome_eq_error_iff {m : InferM α} {st : InferState} {err : TypeError} {k : NameSupply} :
    m.outcome st = (.error err, k) ↔ ∃ log, m.run st = .error err ⟨k, log⟩ := by
  rw [outcome]
  cases m.run st with
  | ok a st' =>
      constructor
      · intro h
        cases h
      · rintro ⟨log, h⟩
        cases h
  | error err' st' =>
      constructor
      · intro h
        cases h
        exact ⟨st'.log, rfl⟩
      · rintro ⟨log, h⟩
        cases h
        rfl

theorem outcome_bind_of_ok {m : InferM α} {f : α → InferM β} {st st₁ : InferState} {a : α}
    (h : m.run st = .ok a st₁) : (m >>= f).outcome st = (f a).outcome st₁ := by
  rw [outcome, EStateM.run_bind, h]
  rfl

theorem outcome_bind_of_error {m : InferM α} {f : α → InferM β} {st st₁ : InferState}
    {err : TypeError} (h : m.run st = .error err st₁) :
    (m >>= f).outcome st = (.error err, st₁.supply) := by
  rw [outcome, EStateM.run_bind, h]

/-! ## The supply moves forward -/

/-- The supply that is left is a later state of the one at the start. -/
def Forward (m : InferM α) : Prop :=
  ∀ st, st.supply ≤ (m.outcome st).2

theorem forward_pure (a : α) : (pure a : InferM α).Forward :=
  fun st => NameSupply.le_refl st.supply

theorem forward_throw (err : TypeError) : (throw err : InferM α).Forward :=
  fun st => NameSupply.le_refl st.supply

theorem forward_fresh : fresh.Forward :=
  fun _ => NameSupply.le_of_fresh rfl

theorem forward_generalize (Γ : Context) (t : Ty) : (generalize Γ t).Forward :=
  fun st => NameSupply.le_refl st.supply

theorem outcome_instantiate (σ : Scheme) (st : InferState) :
    (instantiate σ).outcome st = (.ok (st.supply.instantiate σ).1, (st.supply.instantiate σ).2) := by
  rw [outcome, run_instantiate]

theorem forward_instantiate (σ : Scheme) : (instantiate σ).Forward := by
  intro st
  rw [outcome_instantiate]
  exact NameSupply.le_of_instantiate rfl

/-- Unification does not touch the supply. -/
theorem outcome_unifier (t u : Ty) (st : InferState) :
    (unifier t u).outcome st = ((unify t u).mapError .unify, st.supply) := by
  obtain ⟨log, hlog⟩ := run_unifier t u st
  rw [outcome, hlog]
  cases unify t u <;> rfl

theorem forward_unifier (t u : Ty) : (unifier t u).Forward := by
  intro st
  rw [outcome_unifier]
  exact NameSupply.le_refl st.supply

theorem Forward.bind {m : InferM α} {f : α → InferM β} (hm : m.Forward)
    (hf : ∀ a, (f a).Forward) : (m >>= f).Forward := by
  intro st
  have hst := hm st
  cases h : m.run st with
  | ok a st₁ =>
      rw [outcome_eq_ok_iff.mpr ⟨st₁.log, h⟩] at hst
      rw [outcome_bind_of_ok h]
      exact NameSupply.le_trans hst (hf a st₁)
  | error err st₁ =>
      rw [outcome_eq_error_iff.mpr ⟨st₁.log, h⟩] at hst
      rwa [outcome_bind_of_error h]

/-! ## Following -/

variable {limit k : NameSupply}

/-- From the supply `k`, the second computation ends as the first one does, as
long as the first one leaves the supply within the limit. -/
def Follows (limit k : NameSupply) (m m' : InferM α) : Prop :=
  ∀ log log', (m.outcome ⟨k, log⟩).2 ≤ limit → m'.outcome ⟨k, log'⟩ = m.outcome ⟨k, log⟩

theorem follows_pure (a : α) : Follows limit k (pure a) (pure a) :=
  fun _ _ _ => rfl

theorem follows_throw (err : TypeError) : Follows limit k (throw err : InferM α) (throw err) :=
  fun _ _ _ => rfl

theorem follows_fresh : Follows limit k fresh fresh :=
  fun _ _ _ => rfl

/-- Schemes that are instantiated alike may be exchanged. -/
theorem follows_instantiate {σ σ' : Scheme} (h : k.instantiate σ' = k.instantiate σ) :
    Follows limit k (instantiate σ) (instantiate σ') := by
  intro log log' _
  rw [outcome_instantiate, outcome_instantiate, h]

/-- Contexts that generalize the type alike may be exchanged. -/
theorem follows_generalize {Γ Γ' : Context} {t : Ty} (h : Γ'.generalize t = Γ.generalize t) :
    Follows limit k (generalize Γ t) (generalize Γ' t) := by
  intro log log' _
  have houtcome : ∀ (Δ : Context) (st : InferState),
      (generalize Δ t).outcome st = (.ok (Δ.generalize t), st.supply) := fun _ _ => rfl
  rw [houtcome, houtcome, h]

theorem follows_unifier (t u : Ty) : Follows limit k (unifier t u) (unifier t u) := by
  intro log log' _
  rw [outcome_unifier, outcome_unifier]

/-- Sequences follow each other if their first parts do, and then what comes
after a common value does. -/
theorem Follows.bind {m m' : InferM α} {f f' : α → InferM β} (hm : Follows limit k m m')
    (hnext : ∀ a, (f a).Forward)
    (hf : ∀ log log' a k₁ log₁ log₁', m.run ⟨k, log⟩ = .ok a ⟨k₁, log₁⟩ →
      m'.run ⟨k, log'⟩ = .ok a ⟨k₁, log₁'⟩ → k₁ ≤ limit → Follows limit k₁ (f a) (f' a)) :
    Follows limit k (m >>= f) (m' >>= f') := by
  intro log log' hle
  cases h : m.run ⟨k, log⟩ with
  | ok a st =>
      have hout : m.outcome ⟨k, log⟩ = (.ok a, st.supply) := outcome_eq_ok_iff.mpr ⟨st.log, h⟩
      rw [outcome_bind_of_ok h] at hle ⊢
      have hst : st.supply ≤ limit := NameSupply.le_trans (hnext a st) hle
      have hout' := hm log log' (hout ▸ hst)
      rw [hout] at hout'
      obtain ⟨log₁', h'⟩ := outcome_eq_ok_iff.mp hout'
      rw [outcome_bind_of_ok h']
      exact hf log log' a st.supply st.log log₁' h h' hst st.log log₁' hle
  | error err st =>
      have hout : m.outcome ⟨k, log⟩ = (.error err, st.supply) :=
        outcome_eq_error_iff.mpr ⟨st.log, h⟩
      rw [outcome_bind_of_error h] at hle ⊢
      have hout' := hm log log' (hout ▸ hle)
      rw [hout] at hout'
      obtain ⟨log₁', h'⟩ := outcome_eq_error_iff.mp hout'
      rw [outcome_bind_of_error h']

/-- A function of the value on both sides keeps one following the other. -/
theorem Follows.bind_pure {m m' : InferM α} (hm : Follows limit k m m') (g : α → β) :
    Follows limit k (m >>= fun a => pure (g a)) (m' >>= fun a => pure (g a)) :=
  hm.bind (fun _ => forward_pure _) fun _ _ _ _ _ _ _ _ _ => follows_pure _

end InferM

/-! ## Expressions -/

open InferM

variable {R R' : LetRule} {Γ Γ' : Context} {limit k : NameSupply} {x x' : Name} {e e' : Expr}

/-- Inference moves the supply forward, also where it fails. -/
theorem forward_inferBy (R : LetRule) (e : Expr) : ∀ Γ : Context, (inferBy R Γ e).Forward := by
  induction e with
  | var x =>
      intro Γ
      rw [inferBy]
      split
      · exact (forward_instantiate _).bind fun _ => forward_pure _
      · exact forward_throw _
  | lit l => exact fun Γ => forward_pure _
  | abs x body ih =>
      intro Γ
      exact forward_fresh.bind fun _ => (ih _).bind fun _ => forward_pure _
  | app f a ihf iha =>
      intro Γ
      exact forward_fresh.bind fun _ => (ihf _).bind fun _ => (iha _).bind fun _ =>
        (forward_unifier _ _).bind fun _ => forward_pure _
  | letIn x e₁ e₂ ih₁ ih₂ =>
      intro Γ
      exact (ih₁ _).bind fun _ => (forward_generalize _ _).bind fun _ => (ih₂ _).bind fun _ =>
        forward_pure _

/-- A variable follows another one if their schemes have the same instances, or
if both are unbound and have the same name. -/
theorem follows_var
    (hsome : ∀ σ, Γ.find? x = some σ →
      ∃ σ', Γ'.find? x' = some σ' ∧ k.instantiate σ' = k.instantiate σ)
    (hnone : Γ.find? x = none → Γ'.find? x' = none ∧ x' = x) :
    Follows limit k (inferBy R Γ (.var x)) (inferBy R' Γ' (.var x')) := by
  rw [inferBy, inferBy]
  cases hx : Γ.find? x with
  | some σ =>
      obtain ⟨σ', hx', hinst⟩ := hsome σ hx
      rw [hx']
      exact (follows_instantiate hinst).bind_pure _
  | none =>
      obtain ⟨hx', rfl⟩ := hnone hx
      rw [hx']
      exact follows_throw _

/-- An abstraction follows another one if its body does, with the same fresh name for
the parameter. -/
theorem follows_abs {body body' : Expr}
    (h : ∀ a k₁, k.fresh = (a, k₁) → k₁ ≤ limit →
      Follows limit k₁ (inferBy R (Γ.insert x (.mono (.var a))) body)
        (inferBy R' (Γ'.insert x' (.mono (.var a))) body')) :
    Follows limit k (inferBy R Γ (.abs x body)) (inferBy R' Γ' (.abs x' body')) := by
  refine follows_fresh.bind (fun _ => (forward_inferBy R body _).bind fun _ => forward_pure _) ?_
  intro log log' param k₁ _ _ hparam _ hle
  cases hparam
  exact (h _ _ rfl hle).bind_pure _

/-- The contexts of the arguments depend on the runs of the functions. -/
theorem follows_app {f f' a a' : Expr}
    (h : ∀ r k₀, k.fresh = (r, k₀) →
      Follows limit k₀ (inferBy R Γ f) (inferBy R' Γ' f') ∧
        ∀ s t k₁, Run R .nothing Γ k₀ f s t k₁ → Run R' .nothing Γ' k₀ f' s t k₁ → k₁ ≤ limit →
          Follows limit k₁ (inferBy R (Γ.applySubst s) a) (inferBy R' (Γ'.applySubst s) a')) :
    Follows limit k (inferBy R Γ (.app f a)) (inferBy R' Γ' (.app f' a')) := by
  refine follows_fresh.bind (fun _ => (forward_inferBy R f _).bind fun _ =>
    (forward_inferBy R a _).bind fun _ => (forward_unifier _ _).bind fun _ => forward_pure _) ?_
  intro log log' result k₀ _ _ hresult _ _
  cases hresult
  obtain ⟨hf, ha⟩ := h _ _ rfl
  refine hf.bind (fun _ => (forward_inferBy R a _).bind fun _ =>
    (forward_unifier _ _).bind fun _ => forward_pure _) ?_
  rintro log₁ log₁' ⟨s₁, t₁⟩ k₁ _ _ hrun hrun' hle
  refine (ha s₁ t₁ k₁ (run_of_inferBy f hrun) (run_of_inferBy f' hrun') hle).bind
    (fun _ => (forward_unifier _ _).bind fun _ => forward_pure _) ?_
  rintro log₂ log₂' ⟨s₂, t₂⟩ k₂ _ _ - - -
  exact (follows_unifier _ _).bind_pure _

/-- The schemes of the names and the contexts of the bodies depend on the runs of
the bound expressions. -/
theorem follows_letIn {e₁ e₁' e₂ e₂' : Expr} (hrule : R'.bodyLast = R.bodyLast)
    (h₁ : Follows limit k (inferBy R Γ e₁) (inferBy R' Γ' e₁'))
    (h₂ : ∀ s t k₁, Run R .nothing Γ k e₁ s t k₁ → Run R' .nothing Γ' k e₁' s t k₁ → k₁ ≤ limit →
      R'.scheme Γ' x' s t = R.scheme Γ x s t ∧
        Follows limit k₁ (inferBy R (R.bodyContext Γ x s t) e₂)
          (inferBy R' (R'.bodyContext Γ' x' s t) e₂')) :
    Follows limit k (inferBy R Γ (.letIn x e₁ e₂)) (inferBy R' Γ' (.letIn x' e₁' e₂')) := by
  refine h₁.bind (fun _ => (forward_generalize _ _).bind fun _ =>
    (forward_inferBy R e₂ _).bind fun _ => forward_pure _) ?_
  rintro log log' ⟨s₁, t₁⟩ k₁ _ _ hrun hrun' hle
  obtain ⟨hscheme, hbody⟩ := h₂ s₁ t₁ k₁ (run_of_inferBy e₁ hrun) (run_of_inferBy e₁' hrun') hle
  have hjoin : R'.join s₁ = R.join s₁ := by
    funext s₂
    rw [LetRule.join, LetRule.join, hrule]
  refine (follows_generalize hscheme).bind
    (fun _ => (forward_inferBy R e₂ _).bind fun _ => forward_pure _) ?_
  intro log₁ log₁' σ k₂ _ _ hσ _ _
  cases hσ
  rw [LetRule.bodyContext, LetRule.bodyContext, hscheme] at hbody
  simp only [hjoin]
  exact hbody.bind_pure _

/-- What is in the log at the start does not matter. -/
theorem follows_self (R : LetRule) (e : Expr) : ∀ (Γ : Context) (k : NameSupply),
    Follows limit k (inferBy R Γ e) (inferBy R Γ e) := by
  induction e with
  | var x => exact fun Γ k => follows_var (fun σ hx => ⟨σ, hx, rfl⟩) fun hx => ⟨hx, rfl⟩
  | lit l => exact fun Γ k => follows_pure _
  | abs x body ih => exact fun Γ k => follows_abs fun _ _ _ _ => ih _ _
  | app f a ihf iha =>
      exact fun Γ k => follows_app fun _ _ _ => ⟨ihf _ _, fun _ _ _ _ _ _ => iha _ _⟩
  | letIn x e₁ e₂ ih₁ ih₂ =>
      exact fun Γ k => follows_letIn rfl (ih₁ _ _) fun _ _ _ _ _ _ => ⟨rfl, ih₂ _ _⟩

/-! ## Runs from scratch -/

/-- The substitution and the type found from scratch with a given rule for
`let`. -/
def typingBy (R : LetRule) (Γ : Context) (e : Expr) : Except TypeError (Subst × Ty) :=
  ((inferBy R Γ e).outcome ⟨.start Γ.freeVars, #[]⟩).1.map fun r => (r.1, r.1.apply r.2)

/-- What is found from scratch is what the rule of `infer` finds. -/
theorem typing_eq_typingBy (Γ : Context) (e : Expr) : typing Γ e = typingBy .ofInfer Γ e := by
  rw [typingBy, follows_self .ofInfer e Γ (.start Γ.freeVars) #[.inferring e] #[]
    (NameSupply.le_refl _), outcome, typing, trace, inferAnew, infer_eq_inferBy,
    EStateM.run_bind]
  simp only [EStateM.run_modify, EStateM.run_bind]
  cases (inferBy .ofInfer Γ e).run ⟨.start Γ.freeVars, #[.inferring e]⟩ <;> rfl

/-- If an inference follows another one up to where that one ends, both find the
same. -/
theorem typingBy_eq_of_follows (hfree : Γ'.freeVars = Γ.freeVars)
    (h : Follows ((inferBy R Γ e).outcome ⟨.start Γ.freeVars, #[]⟩).2 (.start Γ.freeVars)
      (inferBy R Γ e) (inferBy R' Γ' e')) :
    typingBy R' Γ' e' = typingBy R Γ e := by
  rw [typingBy, typingBy, hfree, h #[] #[] (NameSupply.le_refl _)]

end LetPoly
