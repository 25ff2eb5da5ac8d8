import LetPoly.Proofs.SolvedForm
import LetPoly.Proofs.Typing

/-! # Soundness of the standard rule

Inference with the standard rule for `let` finds derivable types: under every
solution of its substitution, the type of a run is a type of the expression in
every context that has the instances of the run's context (`Run.hasType`).

A `let` is the case with an argument.  The solution fixes the variables over
which the run generalizes, so the bound expression is typed again with fresh
names in their place, for which the derivation may generalize
(`Scheme.exists_below_generalize`).
-/

namespace LetPoly

variable {R : LetRule} {D : Demand} {Γ Δ : Context} {k k' : NameSupply} {e : Expr} {s : Subst}
  {t : Ty} {φ θ : Valuation}

/-! ## Contexts with more instances -/

/-- All instances of `σ` under a valuation are instances of `σ'`. -/
def Scheme.Below (φ : Valuation) (σ σ' : Scheme) : Prop :=
  ∀ t, σ.InstanceUnder φ t → σ'.Instance t

/-- Every scheme of `Γ` is below that of the same term variable in `Δ`. -/
def Context.Below (φ : Valuation) (Γ Δ : Context) : Prop :=
  ∀ x σ, Γ.find? x = some σ → ∃ σ', Δ.find? x = some σ' ∧ σ.Below φ σ'

namespace Context

theorem Below.congr (h : Γ.Below φ Δ) (hθ : ∀ v, v ∈ Γ.freeVars → θ v = φ v) : Γ.Below θ Δ := by
  intro x σ hx
  obtain ⟨σ', hx', hσ⟩ := h x σ hx
  refine ⟨σ', hx', fun t ht => hσ t (ht.congr fun v hv => ?_)⟩
  exact (hθ v (mem_freeVars_of_find? hx hv)).symm

/-- Both contexts may be extended, with a scheme below the other. -/
theorem Below.insert (h : Γ.Below φ Δ) (x : Name) {σ σ' : Scheme} (hσ : σ.Below φ σ') :
    Context.Below φ (Γ.insert x σ) (Δ.insert x σ') := by
  intro y τ hy
  rw [NameMap.find?_insert] at hy ⊢
  split at hy
  · cases hy
    exact ⟨σ', if_pos ‹_›, hσ⟩
  · rw [if_neg ‹_›]
    exact h y τ hy

/-- The substitution of a run keeps a context below another one, if the valuation solves
it. -/
theorem Below.applySubst (h : Γ.Below φ Δ) (hΓ : Γ.Settled k) (hrun : Run R D Γ k e s t k')
    (hs : φ.Solves s) : (Γ.applySubst s).Below φ Δ := by
  intro x τ hx
  rw [find?_applySubst] at hx
  obtain ⟨σ, hσ, rfl⟩ := Option.map_eq_some_iff.mp hx
  obtain ⟨σ', hx', hbelow⟩ := h x σ hσ
  refine ⟨σ', hx', fun u hu => hbelow u (hu.of_applyScheme hs fun v w hw hv => ?_)⟩
  exact hrun.not_mem_vars_of_mem_apply hΓ hσ hw hv

/-- A closed context is below itself. -/
theorem Closed.below (h : Γ.Closed) (φ : Valuation) : Γ.Below φ Γ := by
  intro x σ hx
  refine ⟨σ, hx, fun t ht => Scheme.instance_iff.mpr (ht.congr fun v hv => ?_)⟩
  exact absurd hv (h x σ hx v)

end Context

/-- The quantified variables of a scheme can be renamed so that generalizing the
body loses no instance. -/
theorem Scheme.exists_below_generalize (φ : Valuation) (σ : Scheme) (Δ : Context) :
    ∃ φ' : Valuation, (∀ v, v ∉ σ.vars → φ' v = φ v) ∧
      σ.Below φ (Δ.generalize (σ.body.under φ')) := by
  let k := NameSupply.start (Δ.freeVars ∪ (σ.body.under φ).freeVars)
  obtain ⟨ρ, hρ⟩ := exists_freshInstance (k := k) (σ := σ) rfl
  have hold : ∀ {w}, w ∈ Δ.freeVars ∨ w ∈ σ.body.under φ →
      ¬ k.Drawn (k.instantiate σ).2 w := by
    rintro w hw ⟨i, -, -, rfl, hi⟩
    exact hi (NameSet.mem_union.mpr (hw.imp_right Ty.mem_freeVars.mpr))
  refine ⟨fun v => if v ∈ σ.vars then .var (ρ v) else φ v, fun v hv => if_neg hv, ?_⟩
  rintro t ⟨ψ, hψ, rfl⟩
  -- an instance gives the fresh names what it gave the quantified variables
  refine Scheme.instance_iff.mpr ⟨Valuation.redirect .var ψ σ ρ, fun w hw => ?_, ?_⟩
  · exact hρ.redirect_old _ _ (hold (.inl (Context.mem_freeVars_generalize.mp hw).2))
  · rw [Context.generalize, Ty.under_under]
    refine Ty.under_congr fun v hv => ?_
    by_cases hq : v ∈ σ.vars
    · rw [if_pos hq, Ty.under_var, hρ.redirect_fresh _ _ hq]
    · rw [if_neg hq, hψ v (Scheme.mem_freeVars.mpr ⟨hv, hq⟩)]
      calc φ v = (φ v).under .var := (Ty.under_id _).symm
        _ = (φ v).under (Valuation.redirect .var ψ σ ρ) := Ty.under_congr fun w hw =>
            (hρ.redirect_old _ _ (hold (.inr (Ty.mem_under.mpr ⟨v, hv, hw⟩)))).symm

/-! ## Runs are sound -/

/-- For a variable that is free in the context, a run's substitution yields only
variables that are free in the rewritten context. -/
theorem Run.mem_freeVars_applySubst (h : Run R D Γ k e s t k') (hΓ : Γ.Settled k) {v w : Name}
    (hv : v ∈ Γ.freeVars) (hw : w ∈ s.apply (.var v)) : w ∈ (Γ.applySubst s).freeVars := by
  obtain ⟨x, σ, hx, hσ⟩ := Context.mem_freeVars.mp hv
  have hnot := h.not_mem_vars_of_mem_apply hΓ hx hσ hw
  exact Context.mem_freeVars_applySubst_of_find? hx
    (Scheme.mem_freeVars_applyScheme.mpr ⟨hnot, v, hσ, hw⟩)

/-- A solution can be changed on the variables over which a `let` generalizes so
that the derivation may generalize as well. -/
theorem Run.exists_below_bodyContext (h : Run R D Γ k e s t k') (hΓ : Γ.Settled k)
    (hres : s.Resolves t) (hφ : φ.Solves s) (hrel : Γ.Below φ Δ) (x : Name) :
    ∃ φ₁ : Valuation, φ₁.Solves s ∧ Γ.Below φ₁ Δ ∧
      Context.Below φ (LetRule.standard.bodyContext Γ x s t)
        (Δ.insert x (Δ.generalize (t.under φ₁))) := by
  obtain ⟨φ', hφ', hbelow⟩ :=
    Scheme.exists_below_generalize φ (LetRule.standard.scheme Γ x s t) Δ
  refine ⟨fun v => (s.apply (.var v)).under φ', hres.isSolved.solves_val.after φ', ?_, ?_⟩
  · refine hrel.congr fun v hv => ?_
    calc (s.apply (.var v)).under φ' = (s.apply (.var v)).under φ :=
          Ty.under_congr fun w hw => hφ' w fun hq =>
            (LetRule.mem_vars_scheme.mp hq).2 (h.mem_freeVars_applySubst hΓ hv hw)
      _ = φ v := hφ.under_apply (.var v)
  · have htype : (t.under fun v => (s.apply (.var v)).under φ') = t.under φ' :=
      calc (t.under fun v => (s.apply (.var v)).under φ') = (s.apply t).under φ' := by
            rw [Subst.apply_eq_under, Ty.under_under]
            rfl
        _ = t.under φ' := by rw [Subst.apply_eq_self hres.unbound]
    have hself : s.applyScheme (LetRule.standard.scheme Γ x s t) =
        LetRule.standard.scheme Γ x s t :=
      Scheme.applyScheme_eq_self fun v hv => hres.unbound v (LetRule.mem_freeVars_scheme.mp hv).1
    rw [htype, LetRule.bodyContext_eq_insert, hself]
    exact (hrel.applySubst hΓ h hφ).insert x hbelow

/-- Along a run with the standard rule, the type is derivable under every valuation that
solves the substitution. -/
theorem Run.hasType (h : Run .standard .boundOnce Γ k e s t k') (hΓ : Γ.Settled k)
    (hφ : φ.Solves s) (hrel : Γ.Below φ Δ) : HasType Δ e (t.under φ) := by
  induction h generalizing φ Δ with
  | @var Γ k k' x σ t hx ht =>
      obtain ⟨ρ, hρ⟩ := exists_freshInstance ht
      obtain ⟨σ', hx', hbelow⟩ := hrel x σ hx
      refine .var hx' (hbelow _ ⟨fun v => φ (ρ v), fun v hv => ?_, ?_⟩)
      · exact congrArg φ (hρ.keeps v (Scheme.mem_freeVars.mp hv).2)
      · rw [hρ.eq_under, Ty.under_under]
        rfl
  | @lit Γ k l =>
      cases l with
      | int value => exact .int
      | bool value => exact .bool
  | @abs Γ k k₁ k' x a body s t ha _ ih =>
      rw [Ty.under_fn, hφ.under_apply]
      refine .abs (ih (hΓ.insert_fresh ha x) hφ (hrel.insert x fun u hu => ?_))
      exact Scheme.instance_mono.mpr (Scheme.instanceUnder_mono.mp hu)
  | @app Γ k k₀ k₁ k₂ r f a s₁ s₂ s₃ t₁ t₂ hr hf ha hu h₂₁ h₃ ihf iha =>
      have hΓ₀ := hΓ.mono (NameSupply.le_of_fresh hr)
      obtain ⟨hφ₃, hφ₂₁⟩ := hφ.of_compose h₃
      obtain ⟨hφ₂, hφ₁⟩ := hφ₂₁.of_compose h₂₁
      have hfunc := ihf hΓ₀ hφ₁ hrel
      have harg := iha (hΓ₀.applySubst hf) hφ₂ (hrel.applySubst hΓ₀ hf hφ₁)
      have hunified : t₁.under φ = .fn (t₂.under φ) (φ r) :=
        calc t₁.under φ = (s₃.apply (s₂.apply t₁)).under φ := by
              rw [hφ₃.under_apply, hφ₂.under_apply]
          _ = (s₃.apply (.fn t₂ (.var r))).under φ := by rw [unify_apply_eq hu]
          _ = .fn (t₂.under φ) (φ r) := hφ₃.under_apply _
      rw [hunified] at hfunc
      rw [hφ₃.under_apply]
      exact .app hfunc harg
  | @letIn Γ k k₁ k₂ x e₁ e₂ s₁ s₂ t₁ t₂ h₁ h₂ honce ih₁ ih₂ =>
      have hjoin : φ.Solves (s₂.compose s₁) := hφ
      obtain ⟨hφ₂, hφ₁⟩ := hjoin.of_compose fun v => (honce v).symm
      obtain ⟨φ₁, hsolves, hbound, hbody⟩ :=
        h₁.exists_below_bodyContext hΓ (h₁.resolves rfl hΓ) hφ₁ hrel x
      exact .letIn (ih₁ hΓ hsolves hbound) (ih₂ (hΓ.bodyContext h₁ .standard x) hφ₂ hbody)

/-- From scratch, the standard rule finds a type whose instances are all
derivable. -/
theorem hasType_of_typeOfBy (hΓ : Γ.Closed) (h : typeOfBy .standard Γ e = .ok t)
    (θ : Valuation) : HasType Γ e (t.under θ) := by
  obtain ⟨s, t₀, k, hrun, rfl⟩ := typeOfBy_eq_ok_iff.mp h
  have hset : Γ.Settled (.start Γ.freeVars) := hΓ.settled _
  have honce := hrun.boundOnce_of_resolves hset fun h hΓ => h.resolves rfl hΓ
  have htype := honce.hasType hset ((hrun.resolves rfl hset).isSolved.solves_val.after θ)
    (hΓ.below _)
  rw [Subst.apply_eq_under, Ty.under_under]
  exact htype

end LetPoly
