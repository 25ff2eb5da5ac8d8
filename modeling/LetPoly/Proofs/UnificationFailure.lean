import LetPoly.Proofs.Evaluation
import LetPoly.Proofs.MostGeneralUnifier

/-! # Failed unification

An error of `unify` reports two types that nothing can make equal: types with
different heads, or a variable and a function type in which it occurs
(`UnifyError.Absurd`).  They need not be parts of the types that were given,
since the bindings made so far have been applied to them.

That the reported types would have to be equal is derived from the given equation
by rules for equality and by taking function types apart (`Ty.Entails`).  What is
entailed holds under every substitution that makes the given types equal
(`Ty.Entails.apply_eq`), but a failing equation has none of these; the derivation
is there all the same.
-/

namespace LetPoly

/-! ## Consequences of an equation -/

/-- If `t` and `u` are equal, then so are two other types, because equality is an
equivalence and function types are equal exactly if their parts are. -/
inductive Ty.Entails (t u : Ty) : Ty → Ty → Prop where
  | given : Entails t u t u
  | refl (a : Ty) : Entails t u a a
  | symm {a b : Ty} : Entails t u a b → Entails t u b a
  | trans {a b c : Ty} : Entails t u a b → Entails t u b c → Entails t u a c
  | fn {a b c d : Ty} :
      Entails t u a c → Entails t u b d → Entails t u (.fn a b) (.fn c d)
  | dom {a b c d : Ty} : Entails t u (.fn a b) (.fn c d) → Entails t u a c
  | cod {a b c d : Ty} : Entails t u (.fn a b) (.fn c d) → Entails t u b d

namespace Ty.Entails

variable {t u a b c d : Ty}

/-- What an entailed equation entails is entailed. -/
theorem cut (h : Entails a c b d) (hac : Entails t u a c) : Entails t u b d := by
  induction h with
  | given => exact hac
  | refl a => exact .refl a
  | symm _ ih => exact ih.symm
  | trans _ _ ih₁ ih₂ => exact ih₁.trans ih₂
  | fn _ _ ihDom ihCod => exact .fn ihDom ihCod
  | dom _ ih => exact ih.dom
  | cod _ ih => exact ih.cod

/-- A substitution that makes the given types equal makes all entailed ones
equal. -/
theorem apply_eq {θ : Subst} (h : Entails t u a b) (hθ : θ.apply t = θ.apply u) :
    θ.apply a = θ.apply b := by
  induction h with
  | given => exact hθ
  | refl a => rfl
  | symm _ ih => exact ih.symm
  | trans _ _ ih₁ ih₂ => exact ih₁.trans ih₂
  | fn _ _ ihDom ihCod => rw [Subst.apply_fn, Subst.apply_fn, ihDom, ihCod]
  | dom _ ih => exact (Ty.fn.inj ih).1
  | cod _ ih => exact (Ty.fn.inj ih).2

end Ty.Entails

/-! ## Entailed bindings -/

namespace Subst

variable {s s₁ s₂ : Subst} {t u a b c d : Ty}

/-- Every binding is a consequence of the equation of `t` and `u`. -/
def EntailedBy (s : Subst) (t u : Ty) : Prop :=
  ∀ v w, s.find? v = some w → Ty.Entails t u (.var v) w

theorem entailedBy_empty (t u : Ty) : EntailedBy ∅ t u := by
  intro v w h
  simp at h

theorem entailedBy_single {v : Name} {w : Ty} (h : Ty.Entails t u (.var v) w) :
    EntailedBy (NameMap.single v w) t u := by
  intro x y hx
  obtain ⟨rfl, rfl⟩ := NameMap.find?_single_eq_some_iff.mp hx
  exact h

namespace EntailedBy

/-- A type is equal to what the bindings make of it. -/
theorem apply (h : s.EntailedBy t u) (w : Ty) : Ty.Entails t u w (s.apply w) := by
  induction w with
  | var v =>
      rw [apply_var]
      cases hf : s.find? v with
      | none => exact .refl _
      | some w => exact h v w hf
  | int => exact .refl _
  | bool => exact .refl _
  | fn dom cod ihDom ihCod => exact .fn ihDom ihCod

theorem cut (h : s.EntailedBy a c) (hac : Ty.Entails t u a c) : s.EntailedBy t u :=
  fun v w hv => (h v w hv).cut hac

theorem compose (h₂ : s₂.EntailedBy t u) (h₁ : s₁.EntailedBy t u) :
    (s₂.compose s₁).EntailedBy t u := by
  intro v w hv
  rw [find?_compose] at hv
  cases hf : s₂.find? v with
  | some w₂ =>
      rw [hf, Option.some_or] at hv
      cases hv
      exact h₂ v w hf
  | none =>
      rw [hf, Option.none_or] at hv
      obtain ⟨w₁, hf₁, rfl⟩ := Option.map_eq_some_iff.mp hv
      exact (h₁ v w₁ hf₁).trans (h₂.apply w₁)

/-- Under bindings that the equation of the domains entails, the equation of the
function types entails that of the codomains. -/
theorem codomains (h : s.EntailedBy a c) :
    Ty.Entails (.fn a b) (.fn c d) (s.apply b) (s.apply d) := by
  have hs : s.EntailedBy (.fn a b) (.fn c d) := h.cut (.dom .given)
  exact ((hs.apply b).symm.trans (.cod .given)).trans (hs.apply d)

end EntailedBy

end Subst

/-- Binding a variable follows from the equation of the variable and the type. -/
theorem bindVar_entailedBy {v : Name} {w t u : Ty} {s : Subst} (h : bindVar v w = .ok s)
    (hvw : Ty.Entails t u (.var v) w) : s.EntailedBy t u := by
  rcases bindVar_ok h with ⟨-, rfl⟩ | ⟨-, rfl⟩
  · exact Subst.entailedBy_empty t u
  · exact Subst.entailedBy_single hvw

/-- A unifier only binds what the equation entails. -/
theorem unify_entailedBy {t u : Ty} {s : Subst} (h : unify t u = .ok s) : s.EntailedBy t u := by
  induction t, u using unify_induct generalizing s with
  | varLeft v u =>
      rw [unify_var_left] at h
      exact bindVar_entailedBy h .given
  | varRight t v ht =>
      rw [unify_var_right v ht] at h
      exact bindVar_entailedBy h (.symm .given)
  | int =>
      rw [unify_int] at h
      cases h
      exact Subst.entailedBy_empty _ _
  | bool =>
      rw [unify_bool] at h
      cases h
      exact Subst.entailedBy_empty _ _
  | fn a b c d ihDom ihCod =>
      obtain ⟨s₁, s₂, h₁, h₂, rfl⟩ := unify_fn_ok h
      have hdom : s₁.EntailedBy a c := ihDom h₁
      have hcod : s₂.EntailedBy (s₁.apply b) (s₁.apply d) := ihCod s₁ h₁ h₂
      exact (hcod.cut hdom.codomains).compose (hdom.cut (.dom .given))
  | clash t u hc => rw [unify_clash hc] at h; cases h

/-! ## What an error reports -/

namespace UnifyError

/-- The first of the two types that would have to be equal. -/
def left : UnifyError → Ty
  | .mismatch left _ => left
  | .occurs var _ => .var var

/-- The second of the two types that would have to be equal. -/
def right : UnifyError → Ty
  | .mismatch _ right => right
  | .occurs _ ty => ty

/-- The reported types have different heads, neither of them a variable, or are a
variable and a function type in which it occurs. -/
def Absurd : UnifyError → Prop
  | .mismatch left right => left.Clash right
  | .occurs var ty => (∃ dom cod, ty = .fn dom cod) ∧ var ∈ ty

/-- No substitution makes the reported types equal: the heads stay different, or
the function type stays larger than the variable in it. -/
theorem Absurd.apply_ne {err : UnifyError} (h : err.Absurd) (θ : Subst) :
    θ.apply err.left ≠ θ.apply err.right := by
  rw [Subst.apply_eq_under, Subst.apply_eq_under]
  cases err with
  | mismatch left right => exact Ty.Clash.under_ne h θ.val
  | occurs var ty =>
      obtain ⟨⟨dom, cod, rfl⟩, hocc⟩ := h
      have hne : Ty.fn dom cod ≠ .var var := fun heq => nomatch heq
      exact Ty.ne_under_of_mem hocc hne

end UnifyError

/-- Binding a variable fails only if it occurs in the type. -/
theorem bindVar_error {v : Name} {t : Ty} {err : UnifyError} (h : bindVar v t = .error err) :
    err = .occurs v t ∧ err.Absurd := by
  rw [bindVar] at h
  split at h
  · cases h
  · next hne =>
    split at h
    · next hocc =>
      cases h
      refine ⟨rfl, ?_, hocc⟩
      cases t with
      | var w => exact absurd (by rw [Ty.mem_var.mp hocc]) hne
      | int => exact absurd hocc (Ty.not_mem_int v)
      | bool => exact absurd hocc (Ty.not_mem_bool v)
      | fn dom cod => exact ⟨dom, cod, rfl⟩
    · cases h

/-- Two function types fail at their domains, or at their codomains under the
unifier of the domains. -/
theorem unify_fn_error {a b c d : Ty} {err : UnifyError}
    (h : unify (.fn a b) (.fn c d) = .error err) :
    unify a c = .error err ∨
      ∃ s, unify a c = .ok s ∧ unify (s.apply b) (s.apply d) = .error err := by
  rw [unify_fn] at h
  cases h₁ : unify a c with
  | error e =>
      rw [h₁] at h
      cases h
      exact .inl rfl
  | ok s =>
      rw [h₁] at h
      refine .inr ⟨s, rfl, ?_⟩
      cases h₂ : unify (s.apply b) (s.apply d) with
      | error e =>
          simp only [bind, Except.bind, h₂] at h
          cases h
          rfl
      | ok s₂ =>
          simp only [bind, Except.bind, h₂] at h
          cases h

/-- An error reports types that cannot be equal, and that the given equation
entails to be equal. -/
theorem unify_error_entails {t u : Ty} {err : UnifyError} (h : unify t u = .error err) :
    err.Absurd ∧ Ty.Entails t u err.left err.right := by
  induction t, u using unify_induct with
  | varLeft v u =>
      rw [unify_var_left] at h
      obtain ⟨rfl, habsurd⟩ := bindVar_error h
      exact ⟨habsurd, .given⟩
  | varRight t v ht =>
      rw [unify_var_right v ht] at h
      obtain ⟨rfl, habsurd⟩ := bindVar_error h
      exact ⟨habsurd, .symm .given⟩
  | int => rw [unify_int] at h; cases h
  | bool => rw [unify_bool] at h; cases h
  | fn a b c d ihDom ihCod =>
      rcases unify_fn_error h with hdom | ⟨s, hs, hcod⟩
      · obtain ⟨habsurd, hent⟩ := ihDom hdom
        exact ⟨habsurd, hent.cut (.dom .given)⟩
      · obtain ⟨habsurd, hent⟩ := ihCod s hs hcod
        exact ⟨habsurd, hent.cut (unify_entailedBy hs).codomains⟩
  | clash t u hc =>
      rw [unify_clash hc] at h
      cases h
      exact ⟨hc, .given⟩

/-- A failure is genuine: the reported types cannot be equal, the given equation
entails that they are, every substitution that made the given types equal would
make them equal as well, and so there is none. -/
theorem unify_error_genuine {t u : Ty} {err : UnifyError} (h : unify t u = .error err) :
    err.Absurd ∧ Ty.Entails t u err.left err.right ∧
      (∀ θ : Subst, θ.apply t = θ.apply u → θ.apply err.left = θ.apply err.right) ∧
      ¬ ∃ θ : Subst, θ.apply t = θ.apply u := by
  obtain ⟨habsurd, hent⟩ := unify_error_entails h
  refine ⟨habsurd, hent, fun θ hθ => hent.apply_eq hθ, ?_⟩
  rintro ⟨θ, hθ⟩
  exact habsurd.apply_ne θ (hent.apply_eq hθ)

/-- `a -> a`, the type of an operation on one type. -/
def sameType : Ty :=
  .fn (.var "a") (.var "a")

/-- With `Int -> Bool` it fails at `Int`, which has replaced `a`, and `Bool`; with
`b -> b -> Int` at `b`, which has replaced `a`, and `b -> Int`. -/
theorem unify_error_genuine_sameType :
    (unify sameType (.fn .int .bool) = .error (.mismatch .int .bool) ∧ Ty.Clash .int .bool ∧
      Ty.Entails sameType (.fn .int .bool) .int .bool ∧
      ¬ ∃ θ : Subst, θ.apply sameType = θ.apply (.fn .int .bool)) ∧
    (unify sameType (.fn (.var "b") (.fn (.var "b") .int)) =
        .error (.occurs "b" (.fn (.var "b") .int)) ∧
      Ty.Entails sameType (.fn (.var "b") (.fn (.var "b") .int)) (.var "b") (.fn (.var "b") .int) ∧
      ¬ ∃ θ : Subst, θ.apply sameType = θ.apply (.fn (.var "b") (.fn (.var "b") .int))) := by
  have hclash : unify sameType (.fn .int .bool) = .error (.mismatch .int .bool) := by
    rw [unify_eq_compute]
    decide +kernel
  have hocc : unify sameType (.fn (.var "b") (.fn (.var "b") .int)) =
      .error (.occurs "b" (.fn (.var "b") .int)) := by
    rw [unify_eq_compute]
    decide +kernel
  obtain ⟨hheads, hent, -, hnone⟩ := unify_error_genuine hclash
  obtain ⟨-, hent', -, hnone'⟩ := unify_error_genuine hocc
  exact ⟨⟨hclash, hheads, hent, hnone⟩, hocc, hent', hnone'⟩

end LetPoly
