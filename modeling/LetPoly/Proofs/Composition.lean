import LetPoly.Proofs.Valuation

/-! # Composition of substitutions

Composition rewrites the images of its right argument by its left one, and keeps
the bindings of the left one as they are.  On a variable that both bind, the image
of the right one is lost.  So composition acts like the right argument followed by
the left one exactly on the types in whose variables this loses nothing
(`Subst.apply_compose_iff`): wherever both bind a variable, the left image is what
the left substitution makes of the right image (`Subst.AgreesAt`).  It does so on all
types exactly if this holds at every shared key (`Subst.apply_compose_forall_iff`).

Of three substitutions, the two ways to compose them differ only where the third
one brings in a variable on which the first two do not agree
(`Subst.apply_compose_assoc_iff`).  Where they agree everywhere, composition is
associative on the nose (`Subst.compose_assoc`).
-/

namespace LetPoly

/-- Two valuations give a type the same value only if they agree on its
variables. -/
theorem Ty.eq_of_under_eq {θ φ : Valuation} {t : Ty} (h : t.under θ = t.under φ) {v : Name}
    (hv : v ∈ t) : θ v = φ v := by
  induction t with
  | var w => rw [mem_var.mp hv]; exact h
  | int => exact absurd hv (not_mem_int v)
  | bool => exact absurd hv (not_mem_bool v)
  | fn dom cod ihDom ihCod =>
      obtain ⟨hdom, hcod⟩ := Ty.fn.inj h
      cases mem_fn.mp hv with
      | inl hv => exact ihDom hdom hv
      | inr hv => exact ihCod hcod hv

theorem Ty.under_eq_iff {θ φ : Valuation} {t : Ty} :
    t.under θ = t.under φ ↔ ∀ v, v ∈ t → θ v = φ v :=
  ⟨fun h _ hv => eq_of_under_eq h hv, under_congr⟩

namespace Subst

variable {s₁ s₂ s₃ : Subst} {t : Ty} {v : Name}

/-! ## Two substitutions -/

/-- If both substitutions bind the variable, then its image under the first is what
the first makes of its image under the second. -/
def AgreesAt (s₁ s₂ : Subst) (v : Name) : Prop :=
  ∀ t u, s₁.find? v = some t → s₂.find? v = some u → t = s₁.apply u

/-- Substitutions that bind no variable in common agree everywhere. -/
theorem agreesAt_of_apart (h : s₁.find? v = none ∨ s₂.find? v = none) : s₁.AgreesAt s₂ v := by
  intro t u h₁ h₂
  rcases h with hnone | hnone
  · rw [hnone] at h₁; cases h₁
  · rw [hnone] at h₂; cases h₂

/-- Composition acts one after the other at just the variables where the two agree. -/
theorem apply_compose_var_iff :
    (s₁.compose s₂).apply (.var v) = s₁.apply (s₂.apply (.var v)) ↔ s₁.AgreesAt s₂ v := by
  rw [apply_var, apply_var, find?_compose, AgreesAt]
  cases h₁ : s₁.find? v with
  | none => cases s₂.find? v <;> simp [h₁]
  | some t => cases s₂.find? v <;> simp [h₁]

/-- Composition acts on a type like the right substitution followed by the left one
exactly if the two agree at its variables. -/
theorem apply_compose_iff :
    (s₁.compose s₂).apply t = s₁.apply (s₂.apply t) ↔ ∀ v, v ∈ t → s₁.AgreesAt s₂ v := by
  rw [apply_eq_under, apply_eq_under s₂, apply_eq_under s₁, Ty.under_under, Ty.under_eq_iff]
  refine forall₂_congr fun v _ => ?_
  rw [← apply_eq_under]
  exact apply_compose_var_iff

/-- On all types, composition acts like the right substitution followed by the left one
exactly if, for every variable that both bind, its left image is what the left
substitution makes of its right image.  Disjoint keys leave nothing to ask for. -/
theorem apply_compose_forall_iff (s₁ s₂ : Subst) :
    ((∀ t, (s₁.compose s₂).apply t = s₁.apply (s₂.apply t)) ↔
      ∀ v a b, s₁.find? v = some a → s₂.find? v = some b → a = s₁.apply b) ∧
    ((∀ v, v ∈ s₁.keys → v ∉ s₂.keys) →
      ∀ t, (s₁.compose s₂).apply t = s₁.apply (s₂.apply t)) := by
  have hiff : (∀ t, (s₁.compose s₂).apply t = s₁.apply (s₂.apply t)) ↔
      ∀ v, s₁.AgreesAt s₂ v :=
    -- a disagreement already shows on the variable alone
    ⟨fun h v => apply_compose_var_iff.mp (h (.var v)),
      fun h _ => apply_compose_iff.mpr fun v _ => h v⟩
  refine ⟨hiff, fun hkeys => hiff.mpr fun v a b h₁ h₂ => ?_⟩
  exact absurd (NameMap.mem_keys_iff.mpr ⟨b, h₂⟩) (hkeys v (NameMap.mem_keys_iff.mpr ⟨a, h₁⟩))

/-- A shared key does no harm if the images agree: `a := Int, b := Int` makes `Int` of the
image of `a := b`.  Of `a := Int` and `a := Bool` the right one is lost.  The key `b` alone
may occur in the image of `a := b`. -/
theorem apply_compose_forall_iff_shared :
    (∀ t, apply (compose (.ofList [("a", .int), ("b", .int)]) (NameMap.single "a" (.var "b"))) t =
      apply (.ofList [("a", .int), ("b", .int)]) (apply (NameMap.single "a" (.var "b")) t)) ∧
    (¬ ∀ t, apply (compose (NameMap.single "a" .int) (NameMap.single "a" .bool)) t =
      apply (NameMap.single "a" .int) (apply (NameMap.single "a" .bool) t)) ∧
    ∀ t, apply (compose (NameMap.single "b" .int) (NameMap.single "a" (.var "b"))) t =
      apply (NameMap.single "b" .int) (apply (NameMap.single "a" (.var "b")) t) := by
  refine ⟨(apply_compose_forall_iff _ _).1.mpr fun v a b h₁ h₂ => ?_, fun h => ?_,
    (apply_compose_forall_iff _ _).2 fun v h₁ h₂ => ?_⟩
  · obtain ⟨rfl, rfl⟩ := NameMap.find?_single_eq_some_iff.mp h₂
    cases h₁
    decide
  · exact absurd ((apply_compose_forall_iff _ _).1.mp h "a" .int .bool rfl rfl) (by decide)
  · obtain ⟨t, h₁⟩ := NameMap.mem_keys_iff.mp h₁
    obtain ⟨u, h₂⟩ := NameMap.mem_keys_iff.mp h₂
    obtain ⟨rfl, -⟩ := NameMap.find?_single_eq_some_iff.mp h₁
    exact absurd (NameMap.find?_single_eq_some_iff.mp h₂).1 (by decide)

/-! ## Three substitutions -/

/-- The two compositions of three substitutions differ at a variable only if the
first two leave it alone and do not agree in its image under the third. -/
theorem find?_compose_assoc_iff :
    (s₁.compose (s₂.compose s₃)).find? v = ((s₁.compose s₂).compose s₃).find? v ↔
      (s₁.find? v = none → s₂.find? v = none → ∀ u, s₃.find? v = some u →
        ∀ w, w ∈ u → s₁.AgreesAt s₂ w) := by
  simp only [find?_compose]
  -- the third substitution is asked only if neither of the first two binds the variable
  cases h₁ : s₁.find? v with
  | some t => simp
  | none =>
      cases h₂ : s₂.find? v with
      | some t => simp
      | none =>
          cases h₃ : s₃.find? v with
          | none => simp
          | some u => simp [← apply_compose_iff, eq_comm]

/-- Both ways of composing three substitutions bind the same variables. -/
theorem find?_compose_assoc_eq_none :
    (s₁.compose (s₂.compose s₃)).find? v = none ↔
      ((s₁.compose s₂).compose s₃).find? v = none := by
  simp only [find?_compose_eq_none, and_assoc]

/-- Both compositions bind the same variables, so they act alike on a variable
exactly if they answer its look-up alike. -/
theorem apply_compose_assoc_var_iff :
    (s₁.compose (s₂.compose s₃)).apply (.var v) = ((s₁.compose s₂).compose s₃).apply (.var v) ↔
      (s₁.compose (s₂.compose s₃)).find? v = ((s₁.compose s₂).compose s₃).find? v := by
  rw [apply_var, apply_var]
  cases hl : (s₁.compose (s₂.compose s₃)).find? v with
  | none => simp [find?_compose_assoc_eq_none.mp hl]
  | some t =>
      cases hr : ((s₁.compose s₂).compose s₃).find? v with
      | none => rw [find?_compose_assoc_eq_none.mpr hr] at hl; cases hl
      | some u => simp

/-- Composition is associative where the first two substitutions agree. -/
theorem compose_assoc (h : ∀ v, s₁.AgreesAt s₂ v) :
    s₁.compose (s₂.compose s₃) = (s₁.compose s₂).compose s₃ :=
  NameMap.ext_find? fun _ => find?_compose_assoc_iff.mpr fun _ _ _ _ w _ => h w

/-- The two ways to compose three substitutions act alike on a type exactly if, for
every variable of it that only the third one binds, the first two agree at the
variables of its image.  They do if they bind no variable in common. -/
theorem apply_compose_assoc_iff (s₁ s₂ s₃ : Subst) (t : Ty) :
    ((s₁.compose (s₂.compose s₃)).apply t = ((s₁.compose s₂).compose s₃).apply t ↔
      ∀ v, v ∈ t → v ∉ s₁.keys → v ∉ s₂.keys → ∀ u, s₃.find? v = some u →
        ∀ w, w ∈ u → ∀ a b, s₁.find? w = some a → s₂.find? w = some b → a = s₁.apply b) ∧
    ((∀ v, v ∈ s₁.keys → v ∉ s₂.keys) →
      (s₁.compose (s₂.compose s₃)).apply t = ((s₁.compose s₂).compose s₃).apply t) := by
  constructor
  · rw [apply_eq_under, apply_eq_under, Ty.under_eq_iff]
    refine forall₂_congr fun v _ => ?_
    rw [val, val, apply_compose_assoc_var_iff, find?_compose_assoc_iff]
    simp only [NameMap.find?_eq_none_iff, AgreesAt]
  · intro hkeys
    have hagrees : ∀ v, s₁.AgreesAt s₂ v := by
      intro v
      refine agreesAt_of_apart ?_
      simp only [NameMap.find?_eq_none_iff]
      by_cases hv : v ∈ s₁.keys
      · exact .inr (hkeys v hv)
      · exact .inl hv
    rw [compose_assoc hagrees]

/-- With `b := Int`, `b := Bool` and `a := b`, the variable `a` becomes `Bool` if the
last two are composed first: they make it `Bool` before the first one is asked.  If
the first two are composed first, `b := Bool` is lost and `a` becomes `Int`. -/
theorem apply_compose_not_assoc :
    apply (compose (NameMap.single "b" .int)
        (compose (NameMap.single "b" .bool) (NameMap.single "a" (.var "b")))) (.var "a") ≠
      apply (compose (compose (NameMap.single "b" .int) (NameMap.single "b" .bool))
        (NameMap.single "a" (.var "b"))) (.var "a") := by
  decide

end Subst

end LetPoly
