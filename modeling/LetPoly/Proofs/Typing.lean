import LetPoly.Infer
import LetPoly.Proofs.FreeVariables

/-! # The typing rules

`HasType` is the Hindley-Milner type system in its syntax-directed form: a
variable has every instance of its scheme, and a `let` generalizes the type of
its bound expression over the variables that are not free in the context.

To compare a scheme with open variables to a scheme of a derivation, the open
variables are read under a valuation: `Scheme.InstanceUnder` are the instances
that the scheme then has, `Scheme.VarUnder` the variables that it then leaves
open.  A substitution that the valuation solves does not change either, unless
it catches a quantified variable.
-/

namespace LetPoly

/-! ## Rules -/

/-- A type that comes from the body of the scheme by replacing quantified
variables. -/
def Scheme.Instance (σ : Scheme) (t : Ty) : Prop :=
  ∃ s : Subst, (∀ v, v ∈ s.keys → v ∈ σ.vars) ∧ t = s.apply σ.body

/-- `e` has type `t` in `Γ`. -/
inductive HasType : Context → Expr → Ty → Prop where
  | var {Γ : Context} {x : Name} {σ : Scheme} {t : Ty} :
      Γ.find? x = some σ → σ.Instance t → HasType Γ (.var x) t
  | int {Γ : Context} {value : Int64} : HasType Γ (.lit (.int value)) .int
  | bool {Γ : Context} {value : Bool} : HasType Γ (.lit (.bool value)) .bool
  | abs {Γ : Context} {x : Name} {body : Expr} {t u : Ty} :
      HasType (Γ.insert x (.mono t)) body u → HasType Γ (.abs x body) (.fn t u)
  | app {Γ : Context} {f a : Expr} {t u : Ty} :
      HasType Γ f (.fn t u) → HasType Γ a t → HasType Γ (.app f a) u
  | letIn {Γ : Context} {x : Name} {bound body : Expr} {t u : Ty} :
      HasType Γ bound t → HasType (Γ.insert x (Γ.generalize t)) body u →
      HasType Γ (.letIn x bound body) u

/-! ## Schemes under a valuation -/

namespace Scheme

variable {θ φ : Valuation} {σ : Scheme} {s : Subst} {t : Ty}

/-- A type that comes from the body of the scheme by giving the free variables
their values and the quantified ones any. -/
def InstanceUnder (θ : Valuation) (σ : Scheme) (t : Ty) : Prop :=
  ∃ ψ : Valuation, (∀ v, v ∈ σ.freeVars → ψ v = θ v) ∧ t = σ.body.under ψ

/-- A variable in the value of a free variable. -/
def VarUnder (θ : Valuation) (σ : Scheme) (w : Name) : Prop :=
  ∃ v, v ∈ σ.freeVars ∧ w ∈ θ v

/-- The instances of a scheme are those that leave the free variables alone. -/
theorem instance_iff : σ.Instance t ↔ σ.InstanceUnder .var t := by
  constructor
  · rintro ⟨s, hkeys, rfl⟩
    refine ⟨s.val, fun v hv => ?_, s.apply_eq_under σ.body⟩
    have hnone : s.find? v = none :=
      NameMap.find?_eq_none_iff.mpr fun hkey => (mem_freeVars.mp hv).2 (hkeys v hkey)
    rw [Subst.val, Subst.apply_var, hnone, Option.getD_none]
  · rintro ⟨ψ, hfree, rfl⟩
    refine ⟨ψ.restrict (.ofList σ.vars), fun v hv => ?_, ?_⟩
    · obtain ⟨u, hu⟩ := NameMap.mem_keys_iff.mp hv
      rw [Valuation.find?_restrict] at hu
      split at hu
      · next hmem => exact NameSet.mem_ofList.mp hmem
      · cases hu
    · rw [Subst.apply_eq_under]
      refine Ty.under_congr fun v hv => ?_
      rw [Subst.val, Subst.apply_var, Valuation.find?_restrict]
      split
      · rfl
      · next hq =>
        exact hfree v (mem_freeVars.mpr ⟨hv, fun hmem => hq (NameSet.mem_ofList.mpr hmem)⟩)

theorem InstanceUnder.congr (h : σ.InstanceUnder θ t) (hφ : ∀ v, v ∈ σ.freeVars → φ v = θ v) :
    σ.InstanceUnder φ t := by
  obtain ⟨ψ, hψ, rfl⟩ := h
  exact ⟨ψ, fun v hv => (hψ v hv).trans (hφ v hv).symm, rfl⟩

theorem VarUnder.congr {w : Name} (h : σ.VarUnder θ w) (hφ : ∀ v, v ∈ σ.freeVars → φ v = θ v) :
    σ.VarUnder φ w := by
  obtain ⟨v, hv, hw⟩ := h
  exact ⟨v, hv, (hφ v hv).symm ▸ hw⟩

/-- A type is the only instance of the scheme that quantifies over nothing. -/
theorem instanceUnder_mono {u : Ty} : (mono u).InstanceUnder θ t ↔ t = u.under θ := by
  constructor
  · rintro ⟨ψ, hψ, rfl⟩
    exact Ty.under_congr fun v hv => hψ v (mem_freeVars_mono.mpr hv)
  · rintro rfl
    exact ⟨θ, fun _ _ => rfl, rfl⟩

theorem instance_mono {u : Ty} : (mono u).Instance t ↔ t = u := by
  rw [instance_iff, instanceUnder_mono, Ty.under_id]

/-- Without capture, a substituted scheme has no further instances. -/
theorem InstanceUnder.of_applyScheme (h : (s.applyScheme σ).InstanceUnder θ t) (hs : θ.Solves s)
    (hcapture : ∀ v w, w ∈ σ.freeVars → v ∈ s.apply (.var w) → v ∉ σ.vars) :
    σ.InstanceUnder θ t := by
  obtain ⟨ψ, hψ, rfl⟩ := h
  refine ⟨fun v => (Subst.apply (s.eraseAll σ.vars) (.var v)).under ψ, fun v hv => ?_, ?_⟩
  · calc (Subst.apply (s.eraseAll σ.vars) (.var v)).under ψ = (s.apply (.var v)).under ψ := by
          rw [apply_eraseAll_var, if_neg (mem_freeVars.mp hv).2]
      _ = (s.apply (.var v)).under θ := Ty.under_congr fun w hw =>
          hψ w (mem_freeVars_applyScheme.mpr ⟨hcapture w v hv hw, v, hv, hw⟩)
      _ = θ v := hs.under_apply (.var v)
  · rw [Subst.applyScheme, Subst.apply_eq_under, Ty.under_under]
    rfl

/-- Without capture, a substituted scheme keeps its instances. -/
theorem InstanceUnder.applyScheme (h : σ.InstanceUnder θ t) (hs : θ.Solves s)
    (hcapture : ∀ v w, w ∈ σ.freeVars → v ∈ s.apply (.var w) → v ∉ σ.vars) :
    (s.applyScheme σ).InstanceUnder θ t := by
  obtain ⟨ψ, hψ, rfl⟩ := h
  refine ⟨fun v => if v ∈ σ.vars then ψ v else θ v, fun v hv => ?_, ?_⟩
  · exact if_neg (mem_freeVars_applyScheme.mp hv).1
  · rw [Subst.applyScheme, Subst.apply_eq_under, Ty.under_under]
    refine Ty.under_congr fun v hv => ?_
    rw [Subst.val, apply_eraseAll_var]
    by_cases hq : v ∈ σ.vars
    · rw [if_pos hq, Ty.under_var, if_pos hq]
    · have hfree : v ∈ σ.freeVars := mem_freeVars.mpr ⟨hv, hq⟩
      rw [if_neg hq, hψ v hfree]
      calc θ v = (s.apply (.var v)).under θ := (hs.under_apply (.var v)).symm
        _ = (s.apply (.var v)).under fun w => if w ∈ σ.vars then ψ w else θ w :=
            Ty.under_congr fun w hw => (if_neg (hcapture w v hfree hw)).symm

/-- The variables in the values of a substituted scheme were there before, if the
valuation solves the substitution. -/
theorem VarUnder.of_applyScheme {w : Name} (h : (s.applyScheme σ).VarUnder θ w)
    (hs : θ.Solves s) : σ.VarUnder θ w := by
  obtain ⟨v, hv, hw⟩ := h
  obtain ⟨-, u, hu, hvu⟩ := mem_freeVars_applyScheme.mp hv
  refine ⟨u, hu, ?_⟩
  have hmem : w ∈ (s.apply (.var u)).under θ := Ty.mem_under.mpr ⟨v, hvu, hw⟩
  rwa [hs.under_apply] at hmem

end Scheme

/-- In a closed context, generalizing quantifies over everything. -/
theorem Context.Closed.instance_generalize {Γ : Context} (h : Γ.Closed) (t : Ty) (ψ : Valuation) :
    (Γ.generalize t).Instance (t.under ψ) := by
  refine Scheme.instance_iff.mpr ⟨ψ, fun v hv => ?_, rfl⟩
  exact absurd (mem_freeVars_generalize.mp hv).2 (h.not_mem_freeVars v)

end LetPoly
