import LetPoly.Proofs.Evaluation
import LetPoly.Proofs.SolvedForm

/-! # The order of composition in a `let`

The rule of `infer` composes the substitutions of a `let` with the bound
expression last.  The final substitution is in solved form all the same if no
`let` has a body that binds a variable in an image of the bound expression's
substitution, and, as long as no application binds a variable twice, only then
(`typing_isSolved_iff`).
-/

namespace LetPoly

variable {Γ : Context} {k k' : NameSupply} {e : Expr} {s : Subst} {t : Ty}

/-- The rule of `infer`, with the body last. -/
def LetRule.reordered : LetRule := ⟨false, true⟩

/-- No `let` has a body that binds a variable in an image of the bound
expression's substitution. -/
def Demand.imagesKept : Demand where
  app _ _ := True
  letIn s₁ s₂ := ∀ v t w, s₁.find? v = some t → w ∈ t → s₂.find? w = none

/-- No application composes two substitutions that bind the same variable. -/
def Demand.appsBoundOnce : Demand where
  app := Demand.boundOnce.app
  letIn _ _ := True

/-- Inferring `e` from scratch meets the demand. -/
def Demand.MetBy (D : Demand) (Γ : Context) (e : Expr) : Prop :=
  ∃ s t k, Run .ofInfer D Γ (.start Γ.freeVars) e s t k

/-- If images are kept, the order of composition does not matter. -/
theorem Run.reorder (h : Run .ofInfer .imagesKept Γ k e s t k') (hΓ : Γ.Settled k) :
    Run .reordered .nothing Γ k e s t k' := by
  induction h with
  | var hx ht => exact .var hx ht
  | lit => exact .lit
  | @abs _ _ _ _ x _ _ _ _ ha _ ih => exact .abs ha (ih (hΓ.insert_fresh ha x))
  | app hr hf _ hu _ _ ihf iha =>
      have hΓ₀ := hΓ.mono (NameSupply.le_of_fresh hr)
      exact .app hr (ihf hΓ₀) (iha (hΓ₀.applySubst hf)) hu trivial trivial
  | @letIn Γ k k₁ k₂ x e₁ e₂ s₁ s₂ t₁ t₂ h₁ h₂ hkept ih₁ ih₂ =>
      have hrun₁ := ih₁ hΓ
      have hrun₂ := ih₂ (hΓ.bodyContext h₁ .ofInfer x)
      have hsolved : s₁.IsSolved := (hrun₁.resolves rfl hΓ).isSolved
      have hapart : ∀ v, v ∈ s₂.names → s₁.find? v = none := fun v hv =>
        h₁.find?_of_later hΓ hsolved h₂ (.inl hv)
      have hjoin : LetRule.ofInfer.join s₁ s₂ = LetRule.reordered.join s₁ s₂ :=
        Subst.compose_comm hapart hkept
      rw [hjoin]
      exact .letIn hrun₁ hrun₂ trivial

/-- If images are kept, the result is in solved form and the type is resolved. -/
theorem Run.resolves_of_imagesKept (h : Run .ofInfer .imagesKept Γ k e s t k') (hΓ : Γ.Settled k) :
    s.Resolves t :=
  (h.reorder hΓ).resolves rfl hΓ

/-- If images are kept, no application binds a variable twice. -/
theorem Run.appsBoundOnce_of_imagesKept (h : Run .ofInfer .imagesKept Γ k e s t k')
    (hΓ : Γ.Settled k) : Run .ofInfer .appsBoundOnce Γ k e s t k' :=
  (h.boundOnce_of_resolves hΓ Run.resolves_of_imagesKept).imp (fun _ _ h => h) fun _ _ _ => trivial

/-- A `let` ends in solved form only if the images are kept and both parts end
in solved form. -/
theorem Run.isSolved_parts_of_let {R R' : LetRule} {D D' : Demand} {x : Name} {e₁ e₂ : Expr}
    {s₁ s₂ : Subst} {t₁ t₂ : Ty} {k₁ k₂ : NameSupply} (hΓ : Γ.Settled k)
    (h₁ : Run R D Γ k e₁ s₁ t₁ k₁) (h₂ : Run R' D' (R'.bodyContext Γ x s₁ t₁) k₁ e₂ s₂ t₂ k₂)
    (h : (s₁.compose s₂).IsSolved) :
    s₁.IsSolved ∧ s₂.IsSolved ∧ Demand.imagesKept.letIn s₁ s₂ := by
  have himage : ∀ v t w, s₁.find? v = some t → w ∈ t → s₁.find? w = none ∧ s₂.find? w = none := by
    intro v t w hv hw
    have hcomp : (s₁.compose s₂).find? v = some t := by
      rw [Subst.find?_compose, hv, Option.some_or]
    exact Subst.find?_compose_eq_none.mp (h v t w hcomp hw)
  have hs₁ : s₁.IsSolved := fun v t w hv hw => (himage v t w hv hw).1
  have hapart : ∀ v, v ∈ s₂.names → s₁.find? v = none := fun v hv =>
    h₁.find?_of_later hΓ hs₁ h₂ (.inl hv)
  obtain ⟨-, hs₂⟩ := h.of_compose fun v => (Subst.apart_of_names hapart v).symm
  exact ⟨hs₁, hs₂, fun v t w hv hw => (himage v t w hv hw).2⟩

/-- If no application binds a variable twice, a solved form at the end was one
all along. -/
theorem Run.imagesKept_of_isSolved (h : Run .ofInfer .appsBoundOnce Γ k e s t k')
    (hΓ : Γ.Settled k) (hs : s.IsSolved) : Run .ofInfer .imagesKept Γ k e s t k' := by
  induction h with
  | var hx ht => exact .var hx ht
  | lit => exact .lit
  | @abs _ _ _ _ x _ _ _ _ ha _ ih => exact .abs ha (ih (hΓ.insert_fresh ha x) hs)
  | app hr hf _ hu h₂₁ h₃ ihf iha =>
      have hΓ₀ := hΓ.mono (NameSupply.le_of_fresh hr)
      obtain ⟨-, hparts⟩ := hs.of_compose h₃
      obtain ⟨hs₂, hs₁⟩ := hparts.of_compose h₂₁
      exact .app hr (ihf hΓ₀ hs₁) (iha (hΓ₀.applySubst hf) hs₂) hu trivial trivial
  | @letIn Γ k k₁ k₂ x e₁ e₂ s₁ s₂ t₁ t₂ h₁ h₂ _ ih₁ ih₂ =>
      obtain ⟨hs₁, hs₂, hkept⟩ := Run.isSolved_parts_of_let hΓ h₁ h₂ hs
      exact .letIn (ih₁ hΓ hs₁) (ih₂ (hΓ.bodyContext h₁ .ofInfer x) hs₂) hkept

/-- If every `let` keeps the images of its bound expression, the final
substitution is in solved form, the type is resolved and no application binds a
variable twice.  These three together hold only then. -/
theorem typing_isSolved_iff (hΓ : Γ.Closed) (h : typing Γ e = .ok (s, t)) :
    Demand.imagesKept.MetBy Γ e ↔
      (∀ v u w, s.find? v = some u → w ∈ u → s.find? w = none) ∧ s.apply t = t ∧
        Demand.appsBoundOnce.MetBy Γ e := by
  obtain ⟨t₀, k, hrun, rfl⟩ := typing_eq_ok_iff.mp h
  have hset : Γ.Settled (.start Γ.freeVars) := hΓ.settled _
  constructor
  · rintro ⟨s', t', k', hkept⟩
    obtain ⟨rfl, -, -⟩ := hrun.unique hkept
    have hsolved := (hkept.resolves_of_imagesKept hset).isSolved
    exact ⟨hsolved, hsolved.apply_apply t₀, _, _, _, hkept.appsBoundOnce_of_imagesKept hset⟩
  · rintro ⟨hsolved, -, s', t', k', honce⟩
    obtain ⟨rfl, -, -⟩ := hrun.unique honce
    exact ⟨_, _, _, honce.imagesKept_of_isSolved hset hsolved⟩

/-- `\f -> let g = f 1 in g 2`, where the body binds the variable in the image
of the type of `f`. -/
def callTwice : Expr :=
  .abs "f" (.letIn "g" (.app (.var "f") (.int 1)) (.app (.var "g") (.int 2)))

/-- What `infer` binds for `callTwice`. -/
def callTwiceSubst : Subst :=
  .ofList [("a", .fn .int (.var "b")), ("b", .fn .int (.var "c"))]

theorem typing_callTwice :
    typing ∅ callTwice =
      .ok (callTwiceSubst, .fn (.fn .int (.fn .int (.var "c"))) (.var "c")) := by
  simp only [typing, trace, inferAnew, infer, InferM.unifier, Unify.solve_eq_compute, callTwice]
  decide +kernel

/-- `a` is bound to a type that mentions `b`, which is bound. -/
theorem not_isSolved_callTwiceSubst : ¬ callTwiceSubst.IsSolved := by
  intro hsolved
  have hnone := hsolved "a" (.fn .int (.var "b")) "b" rfl (by simp)
  have hsome : callTwiceSubst.find? "b" = some (.fn .int (.var "c")) := rfl
  rw [hsome] at hnone
  cases hnone

/-- `\f -> (let g = f 1 in g 1) f`. -/
def callItself : Expr :=
  .abs "f" (.app (.letIn "g" (.app (.var "f") (.int 1)) (.app (.var "g") (.int 1))) (.var "f"))

/-- What `infer` binds for `callItself`. -/
def callItselfSubst : Subst :=
  .ofList [("a", .fn .int (.var "c")), ("c", .fn .int (.fn (.fn .int (.var "c")) (.var "b"))),
    ("d", .fn (.fn .int (.var "c")) (.var "b"))]

/-- The type found for `callItself`. -/
def callItselfTy : Ty :=
  .fn (.fn .int (.fn .int (.fn (.fn .int (.var "c")) (.var "b")))) (.var "b")

theorem typing_callItself : typing ∅ callItself = .ok (callItselfSubst, callItselfTy) := by
  simp only [typing, trace, inferAnew, infer, InferM.unifier, Unify.solve_eq_compute, callItself]
  decide +kernel

/-- The bound expression's substitution is not rewritten, so `a` stays bound to a
type in which `b` is bound.  In `callItself` a variable ends up in its own image,
and the type is not resolved. -/
theorem typing_not_isSolved :
    (∃ s t, typing ∅ callTwice = .ok (s, t) ∧
        ¬ ∀ v u w, s.find? v = some u → w ∈ u → s.find? w = none) ∧
      ∃ e s t, typing ∅ e = .ok (s, t) ∧ (∃ v u, s.find? v = some u ∧ v ∈ u) ∧ s.apply t ≠ t := by
  have hself : callItselfSubst.find? "c" =
      some (.fn .int (.fn (.fn .int (.var "c")) (.var "b"))) := by decide +kernel
  have hunresolved : callItselfSubst.apply callItselfTy ≠ callItselfTy := by decide +kernel
  exact ⟨⟨_, _, typing_callTwice, not_isSolved_callTwiceSubst⟩,
    callItself, _, _, typing_callItself, ⟨"c", _, hself, by simp⟩, hunresolved⟩

/-- `\f -> let g = f 1 in (\x -> 2) g`, where the body binds only its own
variables. -/
def callOnce : Expr :=
  .abs "f" (.letIn "g" (.app (.var "f") (.int 1)) (.app (.abs "x" (.int 2)) (.var "g")))

/-- What `infer` binds for `callOnce`. -/
def callOnceSubst : Subst :=
  .ofList [("a", .fn .int (.var "b")), ("c", .int), ("d", .var "b")]

theorem typing_callOnce :
    typing ∅ callOnce = .ok (callOnceSubst, .fn (.fn .int (.var "b")) .int) := by
  simp only [typing, trace, inferAnew, infer, InferM.unifier, Unify.solve_eq_compute, callOnce]
  decide +kernel

/-- The context of the bound expression of `callOnce`. -/
def callOnceContext : Context :=
  .single "f" (.mono (.var "a"))

/-- What the bound expression of `callOnce` binds. -/
def callOnceBound : Subst :=
  .single "a" (.fn .int (.var "b"))

/-- What the body of `callOnce` binds. -/
def callOnceBody : Subst :=
  .ofList [("c", .int), ("d", .var "b")]

theorem run_callOnce_bound :
    Run .ofInfer .imagesKept callOnceContext ⟨1, ∅⟩ (.app (.var "f") (.int 1)) callOnceBound
      (.var "b") ⟨2, ∅⟩ := by
  have hresult : NameSupply.fresh ⟨1, ∅⟩ = ("b", ⟨2, ∅⟩) := by decide +kernel
  have hf : Run .ofInfer .imagesKept callOnceContext ⟨2, ∅⟩ (.var "f") ∅ (.var "a") ⟨2, ∅⟩ :=
    .var rfl rfl
  have hunify : unify (.var "a") (.fn .int (.var "b")) = .ok callOnceBound := by
    rw [unify_eq_compute]
    decide +kernel
  have happ := Run.app hresult hf (.lit (l := .int 1)) hunify trivial trivial
  rwa [Subst.compose_empty, Subst.compose_empty] at happ

theorem run_callOnce_body {Γ : Context} (hg : Γ.find? "g" = some (.mono (.var "b"))) :
    Run .ofInfer .imagesKept Γ ⟨2, ∅⟩ (.app (.abs "x" (.int 2)) (.var "g")) callOnceBody .int
      ⟨4, ∅⟩ := by
  have hresult : NameSupply.fresh ⟨2, ∅⟩ = ("c", ⟨3, ∅⟩) := by decide +kernel
  have hparam : NameSupply.fresh ⟨3, ∅⟩ = ("d", ⟨4, ∅⟩) := by decide +kernel
  have habs : Run .ofInfer .imagesKept Γ ⟨3, ∅⟩ (.abs "x" (.int 2)) ∅ (.fn (.var "d") .int)
      ⟨4, ∅⟩ :=
    .abs hparam (.lit (l := .int 2))
  have harg : Run .ofInfer .imagesKept (Γ.applySubst ∅) ⟨4, ∅⟩ (.var "g") ∅ (.var "b") ⟨4, ∅⟩ := by
    rw [Context.applySubst_eq_self fun v _ => NameMap.find?_empty v]
    exact .var hg rfl
  have hunify : unify (.fn (.var "d") .int) (.fn (.var "b") (.var "c")) = .ok callOnceBody := by
    rw [unify_eq_compute]
    decide +kernel
  have happ := Run.app hresult habs harg hunify trivial trivial
  rwa [Subst.compose_empty, Subst.compose_empty] at happ

/-- The bound expression of `callOnce` leaves `b` in an image, and the body does not
bind `b`. -/
theorem imagesKept_callOnce : Demand.imagesKept.MetBy ∅ callOnce := by
  have hparam : (NameSupply.start ∅).fresh = ("a", ⟨1, ∅⟩) := by decide +kernel
  have hg : (LetRule.ofInfer.bodyContext callOnceContext "g" callOnceBound (.var "b")).find? "g" =
      some (.mono (.var "b")) := by decide +kernel
  have hkept : Demand.imagesKept.letIn callOnceBound callOnceBody := by
    intro v t w hv hw
    obtain ⟨-, rfl⟩ := NameMap.find?_single_eq_some_iff.mp hv
    obtain rfl : w = "b" := by simpa using hw
    rfl
  exact ⟨_, _, _, .abs hparam (.letIn run_callOnce_bound (run_callOnce_body hg) hkept)⟩

/-- The `let` of `callOnce` keeps the images, and the result is in solved form.
That of `callTwice` does not keep them. -/
theorem typing_isSolved_iff_calls :
    (Demand.imagesKept.MetBy ∅ callOnce ∧
        typing ∅ callOnce = .ok (callOnceSubst, .fn (.fn .int (.var "b")) .int) ∧
        (∀ v u w, callOnceSubst.find? v = some u → w ∈ u → callOnceSubst.find? w = none) ∧
        callOnceSubst.apply (.fn (.fn .int (.var "b")) .int) = .fn (.fn .int (.var "b")) .int ∧
        Demand.appsBoundOnce.MetBy ∅ callOnce) ∧
      typing ∅ callTwice =
          .ok (callTwiceSubst, .fn (.fn .int (.fn .int (.var "c"))) (.var "c")) ∧
        ¬ Demand.imagesKept.MetBy ∅ callTwice :=
  ⟨⟨imagesKept_callOnce, typing_callOnce,
      (typing_isSolved_iff Context.closed_empty typing_callOnce).mp imagesKept_callOnce⟩,
    typing_callTwice, fun hkept => not_isSolved_callTwiceSubst
      ((typing_isSolved_iff Context.closed_empty typing_callTwice).mp hkept).1⟩

end LetPoly
