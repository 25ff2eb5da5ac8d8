import Mathlib.Logic.Function.Basic
import LetPoly.Proofs.Evaluation
import LetPoly.Proofs.Hygiene
import LetPoly.Proofs.Typing

/-! # Completeness

Inference accepts every typable expression, and its type has every derivable
type as an instance, whatever the rule for `let` (`HasType.exists_run`).

The proof builds a run beside a derivation, and with it a valuation of the names
that the run draws.  The valuation solves every substitution on the way, so it
does not matter in which order these are composed; and a scheme that quantifies
over more variables only has more instances, so it does not matter either
whether an older binding counts.
-/

namespace LetPoly

variable {R : LetRule} {D : Demand} {Γ Δ : Context} {k k' : NameSupply} {e : Expr} {s : Subst}
  {t τ : Ty} {θ φ : Valuation}

/-! ## Contexts with fewer instances -/

/-- Under the valuation, `σ` has all instances of `σ'`, and leaves no variable
open that `σ'` does not. -/
structure Scheme.Above (θ : Valuation) (σ σ' : Scheme) : Prop where
  /-- Every instance of `σ'` is one of `σ`. -/
  instances : ∀ t, σ'.Instance t → σ.InstanceUnder θ t
  /-- The variables in the values of the free variables of `σ` are free in `σ'`. -/
  vars : ∀ w, σ.VarUnder θ w → w ∈ σ'.freeVars

namespace Scheme

variable {σ σ' : Scheme}

theorem Above.congr (h : σ.Above θ σ') (hφ : ∀ v, v ∈ σ.freeVars → φ v = θ v) : σ.Above φ σ' where
  instances t ht := (h.instances t ht).congr hφ
  vars w hw := h.vars w (hw.congr fun v hv => (hφ v hv).symm)

/-- A valuation that solves the substitution sees no difference, as long as no variable
is captured. -/
theorem Above.applyScheme (h : σ.Above θ σ') (hs : θ.Solves s)
    (hcapture : ∀ v w, w ∈ σ.freeVars → v ∈ s.apply (.var w) → v ∉ σ.vars) :
    (s.applyScheme σ).Above θ σ' where
  instances t ht := (h.instances t ht).applyScheme hs hcapture
  vars w hw := h.vars w (hw.of_applyScheme hs)

/-- A closed scheme is above itself under every valuation. -/
theorem Closed.above (h : σ.Closed) (θ : Valuation) : σ.Above θ σ where
  instances _ ht := (instance_iff.mp ht).congr fun v hv => absurd hv (h v)
  vars := fun _ ⟨v, hv, _⟩ => absurd hv (h v)

theorem above_mono (θ : Valuation) (t : Ty) : (mono t).Above θ (mono (t.under θ)) where
  instances _ hu := instanceUnder_mono.mpr (instance_mono.mp hu)
  vars := fun _ ⟨v, hv, hw⟩ =>
    mem_freeVars_mono.mpr (Ty.mem_under.mpr ⟨v, mem_freeVars_mono.mp hv, hw⟩)

/-- Generalizing a type that was found, compared with generalizing its value. -/
theorem above_generalize (hs : θ.Solves s)
    (hvars : ∀ v w, v ∈ Γ.freeVars → w ∈ θ v → w ∈ Δ.freeVars) :
    (s.applyScheme (Γ.generalize t)).Above θ (Δ.generalize (t.under θ)) := by
  have hopen : ∀ w, (s.applyScheme (Γ.generalize t)).VarUnder θ w →
      w ∈ (Δ.generalize (t.under θ)).freeVars := by
    intro w hw
    obtain ⟨v, hv, hwv⟩ := hw.of_applyScheme hs
    obtain ⟨hvt, hvΓ⟩ := Context.mem_freeVars_generalize.mp hv
    exact Context.mem_freeVars_generalize.mpr
      ⟨Ty.mem_under.mpr ⟨v, hvt, hwv⟩, hvars v w hvΓ hwv⟩
  refine ⟨fun u hu => ?_, hopen⟩
  obtain ⟨ψ, hψ, rfl⟩ := instance_iff.mp hu
  -- the substitution may catch quantified variables, but `θ` followed by `ψ` solves it too
  refine ⟨fun v => (θ v).under ψ, fun v hv => ?_, ?_⟩
  · calc (θ v).under ψ = (θ v).under .var :=
          Ty.under_congr fun w hw => hψ w (hopen w ⟨v, hv, hw⟩)
      _ = θ v := Ty.under_id _
  · have hsolves : Valuation.Solves (fun v => (θ v).under ψ)
        (s.eraseAll (Γ.generalize t).vars) := by
      intro v u hv
      rw [NameMap.find?_eraseAll] at hv
      split at hv
      · cases hv
      · exact hs.after ψ v u hv
    exact (Ty.under_under θ ψ t).trans (hsolves.under_apply t).symm

end Scheme

/-- The contexts have the same term variables, with the schemes of `Γ` above
those of `Δ`. -/
structure Context.Above (θ : Valuation) (Γ Δ : Context) : Prop where
  /-- Every scheme of `Δ` has one above it. -/
  scheme : ∀ x σ', Δ.find? x = some σ' → ∃ σ, Γ.find? x = some σ ∧ σ.Above θ σ'
  /-- `Γ` has no other term variables. -/
  bound : ∀ x, Δ.find? x = none → Γ.find? x = none

namespace Context

/-- Variables in the value of an open variable are open in the other context. -/
theorem Above.mem_freeVars (h : Γ.Above θ Δ) {x w : Name} {σ : Scheme} (hx : Γ.find? x = some σ)
    (hw : σ.VarUnder θ w) : w ∈ Δ.freeVars := by
  cases hx' : Δ.find? x with
  | none =>
      rw [h.bound x hx'] at hx
      cases hx
  | some σ' =>
      obtain ⟨σ₀, hσ₀, habove⟩ := h.scheme x σ' hx'
      rw [hx] at hσ₀
      cases hσ₀
      exact mem_freeVars_of_find? hx' (habove.vars w hw)

/-- A closed context is above itself under every valuation. -/
theorem Closed.above (h : Γ.Closed) (θ : Valuation) : Γ.Above θ Γ where
  scheme x σ hx := ⟨σ, hx, (h x σ hx).above θ⟩
  bound _ hx := hx

theorem Above.congr (h : Γ.Above θ Δ) (hφ : ∀ v, v ∈ Γ.freeVars → φ v = θ v) : Γ.Above φ Δ where
  bound := h.bound
  scheme x σ' hx' := by
    obtain ⟨σ, hx, habove⟩ := h.scheme x σ' hx'
    exact ⟨σ, hx, habove.congr fun v hv => hφ v (mem_freeVars_of_find? hx hv)⟩

/-- Both contexts may be extended, with a scheme above the other. -/
theorem Above.insert (h : Γ.Above θ Δ) (x : Name) {σ σ' : Scheme} (hσ : σ.Above θ σ') :
    Context.Above θ (Γ.insert x σ) (Δ.insert x σ') := by
  constructor
  · intro y τ' hy
    rw [NameMap.find?_insert] at hy ⊢
    split at hy
    · cases hy
      exact ⟨σ, if_pos ‹_›, hσ⟩
    · rw [if_neg ‹_›]
      exact h.scheme y τ' hy
  · intro y hy
    rw [NameMap.find?_insert] at hy ⊢
    split at hy
    · cases hy
    · rw [if_neg ‹_›]
      exact h.bound y hy

/-- The substitution of a run keeps a context above another one, if the valuation solves
it. -/
theorem Above.applySubst (h : Γ.Above θ Δ) (hΓ : Γ.Settled k) (hrun : Run R D Γ k e s t k')
    (hs : θ.Solves s) : (Γ.applySubst s).Above θ Δ := by
  constructor
  · intro x σ' hx'
    obtain ⟨σ, hx, habove⟩ := h.scheme x σ' hx'
    refine ⟨s.applyScheme σ, by rw [find?_applySubst, hx, Option.map_some], ?_⟩
    exact habove.applyScheme hs fun v w hw hv => hrun.not_mem_vars_of_mem_apply hΓ hx hw hv
  · intro x hx
    rw [find?_applySubst, h.bound x hx, Option.map_none]

/-- The body of a `let` is inferred in a context above the one it is typed in. -/
theorem Above.bodyContext (h : Γ.Above θ Δ) (hΓ : Γ.Settled k) (hrun : Run R D Γ k e s t k')
    (hs : θ.Solves s) (R' : LetRule) (x : Name) :
    Context.Above θ (R'.bodyContext Γ x s t) (Δ.insert x (Δ.generalize (t.under θ))) := by
  rw [LetRule.bodyContext_eq_insert]
  refine (h.applySubst hΓ hrun hs).insert x (Scheme.above_generalize hs fun v w hv hw => ?_)
  obtain ⟨y, σ, hy, hvσ⟩ := mem_freeVars_applySubst hv
  have hopen : (s.applyScheme σ).VarUnder θ w := ⟨v, hvσ, hw⟩
  exact h.mem_freeVars (LetRule.find?_of_find?_scope hy) (hopen.of_applyScheme hs)

end Context

/-! ## Derivations have runs -/

/-- A solution of a run's substitution depends only on names that are no longer
pending. -/
theorem Run.solves_congr (h : Run R D Γ k e s t k') (hΓ : Γ.Settled k) (hs : θ.Solves s)
    (hφ : ∀ v, ¬ k'.Pending v → φ v = θ v) : φ.Solves s :=
  hs.congr fun v hv => hφ v (hΓ.not_pending h.le (h.within (.inl hv)))

/-- Only the values of names that are not pending matter for the type of a run. -/
theorem Run.under_congr (h : Run R D Γ k e s t k') (hΓ : Γ.Settled k)
    (hφ : ∀ v, ¬ k'.Pending v → φ v = θ v) : t.under φ = t.under θ :=
  Ty.under_congr fun v hv => hφ v (hΓ.not_pending h.le (h.within (.inr hv)))

/-- A valuation can give any value to a fresh name. -/
theorem Context.Above.update (h : Γ.Above θ Δ) (hΓ : Γ.Settled k) {a : Name}
    (ha : k.fresh = (a, k')) (u : Ty) : Γ.Above (Function.update θ a u) Δ :=
  h.congr fun v hv => Function.update_of_ne (fun heq : v = a =>
    hΓ.old v hv (heq ▸ (NameSupply.drawn_of_fresh ha).pending)) u θ

/-- `θ'` goes on from `θ` after a run from `k` with results `s` and `t`: it
keeps the values of old names, solves `s` and gives `t` the value `τ`. -/
structure Valuation.Extends (θ' θ : Valuation) (k : NameSupply) (s : Subst) (t τ : Ty) :
    Prop where
  /-- Names that were not pending keep their values. -/
  old : ∀ v, ¬ k.Pending v → θ' v = θ v
  /-- The substitution is solved. -/
  solves : θ'.Solves s
  /-- The value of `t` is `τ`. -/
  under_eq : t.under θ' = τ

/-- A variable is inferred by an instantiation, and the valuation goes on to the fresh
names. -/
theorem exists_run_var (R : LetRule) (hΓ : Γ.Settled k) {x : Name} {σ : Scheme}
    (hx : Γ.find? x = some σ) (hτ : σ.InstanceUnder θ τ) :
    ∃ s t k', ∃ θ' : Valuation, Run R .nothing Γ k (.var x) s t k' ∧ θ'.Extends θ k s t τ := by
  obtain ⟨ψ, hψ, rfl⟩ := hτ
  obtain ⟨ρ, hρ⟩ := exists_freshInstance (k := k) (σ := σ) rfl
  have hold : ∀ v, ¬ k.Pending v → θ.redirect ψ σ ρ v = θ v := fun v hv =>
    hρ.redirect_old θ ψ fun hd => hv hd.pending
  refine ⟨∅, _, _, θ.redirect ψ σ ρ, .var hx rfl, hold, Valuation.solves_empty _, ?_⟩
  rw [hρ.eq_under, Ty.under_under]
  refine Ty.under_congr fun v hv => ?_
  by_cases hq : v ∈ σ.vars
  · exact hρ.redirect_fresh θ ψ hq
  · have hfree : v ∈ σ.freeVars := Scheme.mem_freeVars.mpr ⟨hv, hq⟩
    rw [Ty.under_var, hρ.keeps v hq, hψ v hfree]
    exact hold v (hΓ.old v (Context.mem_freeVars_of_find? hx hfree))

/-- Every derivation has a run, with any rule for `let`. -/
theorem HasType.exists_run (R : LetRule) (h : HasType Δ e τ) (hrel : Γ.Above θ Δ)
    (hΓ : Γ.Settled k) :
    ∃ s t k', ∃ θ' : Valuation, Run R .nothing Γ k e s t k' ∧ θ'.Extends θ k s t τ := by
  induction h generalizing Γ k θ with
  | @var Δ x σ' τ hx' hτ =>
      obtain ⟨σ, hx, habove⟩ := hrel.scheme x σ' hx'
      exact exists_run_var R hΓ hx (habove.instances τ hτ)
  | int => exact ⟨∅, .int, k, θ, .lit, fun _ _ => rfl, Valuation.solves_empty θ, rfl⟩
  | bool => exact ⟨∅, .bool, k, θ, .lit, fun _ _ => rfl, Valuation.solves_empty θ, rfl⟩
  | @abs Δ x body τ₁ τ₂ _ ih =>
      obtain ⟨a, k₁, ha⟩ : ∃ a k₁, k.fresh = (a, k₁) := ⟨_, _, rfl⟩
      have hdrawn := NameSupply.drawn_of_fresh ha
      have hparam := (hrel.update hΓ ha τ₁).insert x (Scheme.above_mono _ (.var a))
      rw [Ty.under_var, Function.update_self] at hparam
      obtain ⟨s, t, k', θ', hrun, hθ'⟩ := ih hparam (hΓ.insert_fresh ha x)
      refine ⟨s, _, k', θ', .abs ha hrun, fun v hv => ?_, hθ'.solves, ?_⟩
      · have hne : v ≠ a := fun heq => hv (heq ▸ hdrawn.pending)
        rw [hθ'.old v fun hp => hv (hp.of_le (NameSupply.le_of_fresh ha)),
          Function.update_of_ne hne]
      · rw [Ty.under_fn, hθ'.solves.under_apply, hθ'.under_eq, Ty.under_var,
          hθ'.old a hdrawn.not_pending, Function.update_self]
  | @app Δ f a τ₁ τ₂ _ _ ihf iha =>
      obtain ⟨r, k₀, hr⟩ : ∃ r k₀, k.fresh = (r, k₀) := ⟨_, _, rfl⟩
      have hle := NameSupply.le_of_fresh hr
      have hdrawn := NameSupply.drawn_of_fresh hr
      have hΓ₀ := hΓ.mono hle
      have hrel₀ := hrel.update hΓ hr τ₂
      obtain ⟨s₁, t₁, k₁, θ₁, hf, hθ₁⟩ := ihf hrel₀ hΓ₀
      have hrel₁ := hrel₀.congr fun v hv => hθ₁.old v (hΓ₀.old v hv)
      obtain ⟨s₂, t₂, k₂, θ₂, ha, hθ₂⟩ :=
        iha (hrel₁.applySubst hΓ₀ hf hθ₁.solves) (hΓ₀.applySubst hf)
      have hresult : θ₂ r = τ₂ := by
        rw [hθ₂.old r fun hp => hdrawn.not_pending (hp.of_le hf.le),
          hθ₁.old r hdrawn.not_pending, Function.update_self]
      have hunifies : (s₂.apply t₁).under θ₂ = (Ty.fn t₂ (.var r)).under θ₂ := by
        rw [hθ₂.solves.under_apply, hf.under_congr hΓ₀ hθ₂.old, hθ₁.under_eq, Ty.under_fn,
          hθ₂.under_eq, Ty.under_var, hresult]
      obtain ⟨s₃, hu, hθ₃⟩ := exists_unify_of_under_eq hunifies
      refine ⟨_, _, k₂, θ₂, .app hr hf ha hu trivial trivial, fun v hv => ?_, ?_, ?_⟩
      · have hne : v ≠ r := fun heq => hv (heq ▸ hdrawn.pending)
        rw [hθ₂.old v fun hp => hv (hp.of_le (NameSupply.le_trans hle hf.le)),
          hθ₁.old v fun hp => hv (hp.of_le hle), Function.update_of_ne hne]
      · exact hθ₃.compose (hθ₂.solves.compose (hf.solves_congr hΓ₀ hθ₁.solves hθ₂.old))
      · rw [hθ₃.under_apply]
        exact hresult
  | @letIn Δ x e₁ e₂ τ₁ τ₂ _ _ ih₁ ih₂ =>
      obtain ⟨s₁, t₁, k₁, θ₁, h₁, hθ₁⟩ := ih₁ hrel hΓ
      have hrel₁ := hrel.congr fun v hv => hθ₁.old v (hΓ.old v hv)
      have hbody := hrel₁.bodyContext hΓ h₁ hθ₁.solves R x
      rw [hθ₁.under_eq] at hbody
      obtain ⟨s₂, t₂, k₂, θ₂, h₂, hθ₂⟩ := ih₂ hbody (hΓ.bodyContext h₁ R x)
      refine ⟨_, t₂, k₂, θ₂, .letIn h₁ h₂ trivial, fun v hv => ?_, ?_, hθ₂.under_eq⟩
      · rw [hθ₂.old v fun hp => hv (hp.of_le h₁.le), hθ₁.old v hv]
      · have hsolves := h₁.solves_congr hΓ hθ₁.solves hθ₂.old
        rw [LetRule.join]
        split
        · exact hθ₂.solves.compose hsolves
        · exact hsolves.compose hθ₂.solves

/-! ## Inference from scratch -/

/-- With every rule for `let`, a typable expression is given a type, and the other types
are its instances. -/
theorem exists_typeOfBy (R : LetRule) (hΓ : Γ.Closed) (h : HasType Γ e τ) :
    ∃ t, typeOfBy R Γ e = .ok t ∧ ∃ θ : Valuation, τ = t.under θ := by
  obtain ⟨s, t, k, θ, hrun, hθ⟩ := h.exists_run R (hΓ.above .var) (hΓ.settled _)
  refine ⟨s.apply t, typeOfBy_eq_ok_iff.mpr ⟨s, t, k, hrun, rfl⟩, θ, ?_⟩
  rw [hθ.solves.under_apply, hθ.under_eq]

/-- In a closed context every typable expression is accepted, and all its types
are instances of the one that is found. -/
theorem typeOf_complete (hΓ : Γ.Closed) (h : HasType Γ e τ) :
    ∃ t, typeOf Γ e = .ok t ∧ ∃ θ : Subst, τ = θ.apply t := by
  obtain ⟨t, ht, θ, rfl⟩ := exists_typeOfBy .ofInfer hΓ h
  exact ⟨t, typeOf_eq_ok_iff_typeOfBy.mpr ht, θ.restrict t.freeVars, (θ.apply_restrict t).symm⟩

/-- `let id = \x -> x in id id`. -/
def idOfId : Expr :=
  .letIn "id" (.abs "x" (.var "x")) (.app (.var "id") (.var "id"))

/-- Among the types of `idOfId` is `Int -> Int`, an instance of the `d -> d` that is
found. -/
theorem typeOf_complete_id :
    HasType ∅ idOfId (.fn .int .int) ∧ typeOf ∅ idOfId = .ok (.fn (.var "d") (.var "d")) ∧
      ∃ θ : Subst, Ty.fn .int .int = θ.apply (.fn (.var "d") (.var "d")) := by
  have hid : HasType ∅ (.abs "x" (.var "x")) (.fn (.var "a") (.var "a")) :=
    .abs (.var rfl (Scheme.instance_mono.mpr rfl))
  have huse : ∀ ψ : Valuation, HasType
      (NameMap.insert ∅ "id" (Context.generalize ∅ (.fn (.var "a") (.var "a")))) (.var "id")
      (.fn (ψ "a") (ψ "a")) := fun ψ =>
    .var rfl (Context.closed_empty.instance_generalize (.fn (.var "a") (.var "a")) ψ)
  have htype : HasType ∅ idOfId (.fn .int .int) :=
    .letIn hid (.app (huse fun _ => .fn .int .int) (huse fun _ => .int))
  have hfound : typeOf ∅ idOfId = .ok (.fn (.var "d") (.var "d")) := by
    simp only [typeOf, typing, trace, inferAnew, infer, InferM.unifier, Unify.solve_eq_compute,
      idOfId]
    decide +kernel
  obtain ⟨t, ht, hinstance⟩ := typeOf_complete Context.closed_empty htype
  rw [hfound] at ht
  cases ht
  exact ⟨htype, hfound, hinstance⟩

end LetPoly
