import LetPoly.Subst.Solved

/-! # Valuations

A valuation gives a type to every type variable, where a substitution binds
only finitely many.  It solves a substitution if every bound variable has the
value of its image (`Valuation.Solves`).  Applying a substitution then changes
no value (`Valuation.Solves.under_apply`), in whatever order substitutions are
composed (`Valuation.Solves.compose`).

A substitution in solved form is solved by its own action
(`Subst.IsSolved.solves_val`), and what a valuation does to one type a finite
substitution does as well (`Valuation.apply_restrict`).
-/

namespace LetPoly

/-- A type for every type variable. -/
abbrev Valuation : Type := Name → Ty

/-! ## Types under a valuation -/

/-- The type with the value of each variable in its place. -/
def Ty.under (θ : Valuation) : Ty → Ty
  | .var v => θ v
  | .int => .int
  | .bool => .bool
  | .fn dom cod => .fn (dom.under θ) (cod.under θ)

namespace Ty

@[simp]
theorem under_var (θ : Valuation) (v : Name) : (Ty.var v).under θ = θ v := rfl

@[simp]
theorem under_int (θ : Valuation) : Ty.int.under θ = .int := rfl

@[simp]
theorem under_bool (θ : Valuation) : Ty.bool.under θ = .bool := rfl

@[simp]
theorem under_fn (θ : Valuation) (dom cod : Ty) :
    (Ty.fn dom cod).under θ = .fn (dom.under θ) (cod.under θ) := rfl

/-- Only the values of the variables of a type matter. -/
theorem under_congr {θ φ : Valuation} {t : Ty} (h : ∀ v, v ∈ t → θ v = φ v) :
    t.under θ = t.under φ := by
  induction t with
  | var v => exact h v (mem_var.mpr rfl)
  | int => rfl
  | bool => rfl
  | fn dom cod ihDom ihCod =>
      rw [under_fn, under_fn, ihDom fun v hv => h v (mem_fn.mpr (.inl hv)),
        ihCod fun v hv => h v (mem_fn.mpr (.inr hv))]

theorem under_under (θ φ : Valuation) (t : Ty) :
    (t.under θ).under φ = t.under fun v => (θ v).under φ := by
  induction t with
  | var v => rfl
  | int => rfl
  | bool => rfl
  | fn dom cod ihDom ihCod => rw [under_fn, under_fn, ihDom, ihCod, under_fn]

theorem under_id (t : Ty) : t.under .var = t := by
  induction t with
  | var v => rfl
  | int => rfl
  | bool => rfl
  | fn dom cod ihDom ihCod => rw [under_fn, ihDom, ihCod]

/-- The variables of a type under a valuation are those of the values. -/
theorem mem_under {θ : Valuation} {w : Name} {t : Ty} :
    w ∈ t.under θ ↔ ∃ v, v ∈ t ∧ w ∈ θ v := by
  induction t with
  | var v => simp
  | int => simp
  | bool => simp
  | fn dom cod ihDom ihCod =>
      rw [under_fn, mem_fn, ihDom, ihCod]
      constructor
      · rintro (⟨v, hv, hw⟩ | ⟨v, hv, hw⟩)
        · exact ⟨v, mem_fn.mpr (.inl hv), hw⟩
        · exact ⟨v, mem_fn.mpr (.inr hv), hw⟩
      · rintro ⟨v, hv, hw⟩
        cases mem_fn.mp hv with
        | inl hv => exact .inl ⟨v, hv, hw⟩
        | inr hv => exact .inr ⟨v, hv, hw⟩

/-- The value of a variable is no larger than the value of a type in which it
occurs. -/
theorem size_le_size_under {θ : Valuation} {v : Name} {t : Ty} (h : v ∈ t) :
    (θ v).size ≤ (t.under θ).size := by
  induction t with
  | var w => rw [mem_var.mp h]; exact Nat.le_refl _
  | int => exact absurd h (not_mem_int v)
  | bool => exact absurd h (not_mem_bool v)
  | fn dom cod ihDom ihCod =>
      rw [under_fn, size]
      cases mem_fn.mp h with
      | inl hd =>
          have := ihDom hd
          omega
      | inr hc =>
          have := ihCod hc
          omega

/-- No valuation makes a variable equal to a larger type in which it occurs. -/
theorem ne_under_of_mem {θ : Valuation} {v : Name} {t : Ty} (hv : v ∈ t) (hne : t ≠ .var v) :
    θ v ≠ t.under θ := by
  intro heq
  cases t with
  | var w => exact hne (by rw [mem_var.mp hv])
  | int => exact not_mem_int v hv
  | bool => exact not_mem_bool v hv
  | fn dom cod =>
      have hsize := congrArg size heq
      rw [under_fn, size] at hsize
      cases mem_fn.mp hv with
      | inl hd =>
          have := size_le_size_under (θ := θ) hd
          omega
      | inr hc =>
          have := size_le_size_under (θ := θ) hc
          omega

end Ty

/-! ## Substitutions as valuations -/

namespace Subst

/-- The valuation that a substitution acts by. -/
def val (s : Subst) : Valuation :=
  fun v => s.apply (.var v)

/-- A substitution acts as a valuation. -/
theorem apply_eq_under (s : Subst) (t : Ty) : s.apply t = t.under s.val := by
  induction t with
  | var v => rfl
  | int => rfl
  | bool => rfl
  | fn dom cod ihDom ihCod => rw [apply_fn, ihDom, ihCod, Ty.under_fn]

/-- The variables that a substitution speaks of: its keys and the variables of
its images. -/
def names (s : Subst) : NameSet :=
  s.entries.foldr (fun e vs => insert e.1 (e.2.freeVars ∪ vs)) ∅

theorem mem_names {s : Subst} {v : Name} :
    v ∈ s.names ↔ ∃ w t, s.find? w = some t ∧ (v = w ∨ v ∈ t) := by
  have hfold : ∀ es : List (Name × Ty),
      v ∈ es.foldr (fun e vs => insert e.1 (e.2.freeVars ∪ vs)) (∅ : NameSet) ↔
        ∃ e ∈ es, v = e.1 ∨ v ∈ e.2 := by
    intro es
    induction es with
    | nil => simp
    | cons e es ih => simp [ih, or_assoc]
  rw [names, hfold]
  constructor
  · rintro ⟨⟨w, t⟩, he, hv⟩
    exact ⟨w, t, NameMap.find?_eq_some_iff.mpr he, hv⟩
  · rintro ⟨w, t, hw, hv⟩
    exact ⟨(w, t), NameMap.find?_eq_some_iff.mp hw, hv⟩

theorem mem_names_of_find? {s : Subst} {v : Name} {t : Ty} (h : s.find? v = some t) :
    v ∈ s.names :=
  mem_names.mpr ⟨v, t, h, .inl rfl⟩

theorem find?_of_not_mem_names {s : Subst} {v : Name} (h : v ∉ s.names) : s.find? v = none := by
  cases hf : s.find? v with
  | none => rfl
  | some t => exact absurd (mem_names_of_find? hf) h

theorem mem_names_of_mem_image {s : Subst} {v w : Name} {t : Ty} (h : s.find? w = some t)
    (hv : v ∈ t) : v ∈ s.names :=
  mem_names.mpr ⟨w, t, h, .inr hv⟩

theorem not_mem_names_empty (v : Name) : v ∉ names ∅ := by
  intro hv
  obtain ⟨w, t, hw, -⟩ := mem_names.mp hv
  simp at hw

/-- A variable either stays as it is or is replaced by an image. -/
theorem mem_apply_var {s : Subst} {v w : Name} (h : w ∈ s.apply (.var v)) :
    (w = v ∧ s.find? v = none) ∨ ∃ t, s.find? v = some t ∧ w ∈ t := by
  rw [apply_var] at h
  cases hf : s.find? v with
  | none =>
      rw [hf] at h
      exact .inl ⟨Ty.mem_var.mp h, rfl⟩
  | some t =>
      rw [hf] at h
      exact .inr ⟨t, rfl, h⟩

/-- A substituted type mentions no other variables than the type and the
substitution. -/
theorem mem_names_of_mem_apply {s : Subst} {w : Name} {t : Ty} (h : w ∈ s.apply t) :
    w ∈ t ∨ w ∈ s.names := by
  obtain ⟨v, hv, hw⟩ := Subst.mem_apply.mp h
  rcases mem_apply_var hw with ⟨rfl, -⟩ | ⟨u, hu, hwu⟩
  · exact .inl hv
  · exact .inr (mem_names_of_mem_image hu hwu)

/-- A composition speaks of no other variables than its parts. -/
theorem mem_names_compose {s₁ s₂ : Subst} {v : Name} (h : v ∈ (s₁.compose s₂).names) :
    v ∈ s₁.names ∨ v ∈ s₂.names := by
  obtain ⟨w, t, hw, hv⟩ := mem_names.mp h
  rw [find?_compose] at hw
  cases h₁ : s₁.find? w with
  | some u =>
      rw [h₁, Option.some_or] at hw
      cases hw
      exact .inl (mem_names.mpr ⟨w, t, h₁, hv⟩)
  | none =>
      rw [h₁, Option.none_or] at hw
      obtain ⟨u, h₂, rfl⟩ := Option.map_eq_some_iff.mp hw
      cases hv with
      | inl heq => exact .inr (mem_names.mpr ⟨w, u, h₂, .inl heq⟩)
      | inr hv =>
          cases mem_names_of_mem_apply hv with
          | inl hu => exact .inr (mem_names_of_mem_image h₂ hu)
          | inr h => exact .inl h

theorem find?_compose_eq_none {s₁ s₂ : Subst} {v : Name} :
    (s₁.compose s₂).find? v = none ↔ s₁.find? v = none ∧ s₂.find? v = none := by
  rw [find?_compose]
  cases s₁.find? v <;> simp

/-- A substitution that speaks of no key of another one shares none with it. -/
theorem apart_of_names {s₁ s₂ : Subst} (h : ∀ v, v ∈ s₂.names → s₁.find? v = none) (v : Name) :
    s₂.find? v = none ∨ s₁.find? v = none := by
  cases hf : s₂.find? v with
  | none => exact .inl rfl
  | some t => exact .inr (h v (mem_names_of_find? hf))

/-- Two substitutions commute under composition if neither rewrites the images
of the other and they bind no variable in common. -/
theorem compose_comm {s₁ s₂ : Subst} (h₁ : ∀ v, v ∈ s₂.names → s₁.find? v = none)
    (h₂ : ∀ v t w, s₁.find? v = some t → w ∈ t → s₂.find? w = none) :
    s₁.compose s₂ = s₂.compose s₁ := by
  refine NameMap.ext_find? fun v => ?_
  rw [find?_compose, find?_compose]
  cases hf₂ : s₂.find? v with
  | some u =>
      have hu : s₁.apply u = u := apply_eq_self fun w hw => h₁ w (mem_names_of_mem_image hf₂ hw)
      rw [h₁ v (mem_names_of_find? hf₂)]
      simp [hu]
  | none =>
      cases hf₁ : s₁.find? v with
      | none => rfl
      | some u =>
          have hu : s₂.apply u = u := apply_eq_self fun w hw => h₂ v u w hf₁ hw
          simp [hu]

theorem compose_comm_of_disjoint {s₁ s₂ : Subst} (h : ∀ v, v ∈ s₁.names → v ∉ s₂.names) :
    s₁.compose s₂ = s₂.compose s₁ := by
  refine compose_comm (fun v hv => ?_) fun v t w hv hw => ?_
  · exact find?_of_not_mem_names fun hv₁ => h v hv₁ hv
  · exact find?_of_not_mem_names (h w (mem_names_of_mem_image hv hw))

/-! ## Solved form -/

/-- No image mentions a bound variable. -/
def IsSolved (s : Subst) : Prop :=
  ∀ v t w, s.find? v = some t → w ∈ t → s.find? w = none

theorem isSolved_empty : IsSolved ∅ := by
  intro v t w h
  simp at h

theorem Solved.isSolved {s : Subst} {vs : NameSet} (h : s.Solved vs) : s.IsSolved :=
  fun _ _ _ hf hw => h.image_unbound hf hw

theorem IsSolved.solved {s : Subst} (h : s.IsSolved) : s.Solved s.names where
  key_mem hf := mem_names_of_find? hf
  image_mem hf hw := mem_names_of_mem_image hf hw
  image_unbound hf hw := h _ _ _ hf hw

/-- Solved forms compose if the later one speaks of no variable that the earlier
one binds. -/
theorem IsSolved.compose {s₁ s₂ : Subst} (h₁ : s₁.IsSolved) (h₂ : s₂.IsSolved)
    (h : ∀ v, v ∈ s₂.names → s₁.find? v = none) : (s₂.compose s₁).IsSolved := by
  have hleft : s₁.Solved (s₁.names ∪ s₂.names) :=
    h₁.solved.mono fun v hv => NameSet.mem_union.mpr (.inl hv)
  exact (hleft.compose h₂.solved (fun v hv => NameSet.mem_union.mpr (.inr hv)) h).isSolved

/-- Applying a solved form leaves no bound variable. -/
theorem IsSolved.find?_of_mem_apply {s : Subst} (h : s.IsSolved) {t : Ty} {w : Name}
    (hw : w ∈ s.apply t) : s.find? w = none := by
  obtain ⟨v, -, hv⟩ := Subst.mem_apply.mp hw
  rcases mem_apply_var hv with ⟨rfl, hnone⟩ | ⟨u, hu, hwu⟩
  · exact hnone
  · exact h _ _ _ hu hwu

/-- In solved form, applying a substitution twice is applying it once. -/
theorem IsSolved.apply_apply {s : Subst} (h : s.IsSolved) (t : Ty) :
    s.apply (s.apply t) = s.apply t :=
  apply_eq_self fun _ hv => h.find?_of_mem_apply hv

/-- A composition without shared keys is in solved form only if both parts
are. -/
theorem IsSolved.of_compose {s₁ s₂ : Subst} (h : (s₁.compose s₂).IsSolved)
    (hkeys : ∀ v, s₁.find? v = none ∨ s₂.find? v = none) : s₁.IsSolved ∧ s₂.IsSolved := by
  constructor
  · intro v t w hv hw
    have hf : (s₁.compose s₂).find? v = some t := by rw [find?_compose, hv, Option.some_or]
    exact (find?_compose_eq_none.mp (h _ _ _ hf hw)).1
  · intro v t w hv hw
    have hv₁ : s₁.find? v = none := by
      cases hkeys v with
      | inl h₁ => exact h₁
      | inr h₂ => rw [h₂] at hv; cases hv
    have hf : (s₁.compose s₂).find? v = some (s₁.apply t) := by
      rw [find?_compose, hv₁, Option.none_or, hv, Option.map_some]
    -- a key of the right part in its own image is not rewritten, so it survives
    cases hkeys w with
    | inr h₂ => exact h₂
    | inl h₁ =>
        have hmem : w ∈ s₁.apply t := by
          refine Subst.mem_apply.mpr ⟨w, hw, ?_⟩
          rw [apply_var, h₁]
          exact Ty.mem_var.mpr rfl
        exact (find?_compose_eq_none.mp (h _ _ _ hf hmem)).2

end Subst

/-! ## Solutions -/

namespace Valuation

/-- Every bound variable has the value of its image. -/
def Solves (θ : Valuation) (s : Subst) : Prop :=
  ∀ v t, s.find? v = some t → θ v = t.under θ

theorem solves_empty (θ : Valuation) : θ.Solves ∅ := by
  intro v t h
  simp at h

/-- Applying a substitution does not change the value of a type. -/
theorem Solves.under_apply {θ : Valuation} {s : Subst} (h : θ.Solves s) (t : Ty) :
    (s.apply t).under θ = t.under θ := by
  induction t with
  | var v =>
      rw [Subst.apply_var]
      cases hf : s.find? v with
      | none => rfl
      | some u => exact (h _ _ hf).symm
  | int => rfl
  | bool => rfl
  | fn dom cod ihDom ihCod => rw [Subst.apply_fn, Ty.under_fn, ihDom, ihCod, Ty.under_fn]

theorem Solves.congr {θ φ : Valuation} {s : Subst} (h : θ.Solves s)
    (hφ : ∀ v, v ∈ s.names → φ v = θ v) : φ.Solves s := by
  intro v t hv
  rw [hφ v (Subst.mem_names_of_find? hv), h v t hv]
  exact Ty.under_congr fun w hw => (hφ w (Subst.mem_names_of_mem_image hv hw)).symm

/-- What solves two substitutions solves their composition, in either order. -/
theorem Solves.compose {θ : Valuation} {s₁ s₂ : Subst} (h₁ : θ.Solves s₁) (h₂ : θ.Solves s₂) :
    θ.Solves (s₁.compose s₂) := by
  intro v t hv
  rw [Subst.find?_compose] at hv
  cases hf : s₁.find? v with
  | some u =>
      rw [hf, Option.some_or] at hv
      cases hv
      exact h₁ v t hf
  | none =>
      rw [hf, Option.none_or] at hv
      obtain ⟨u, hu, rfl⟩ := Option.map_eq_some_iff.mp hv
      rw [h₁.under_apply]
      exact h₂ v u hu

/-- What solves a composition without shared keys solves both parts. -/
theorem Solves.of_compose {θ : Valuation} {s₁ s₂ : Subst} (h : θ.Solves (s₁.compose s₂))
    (hkeys : ∀ v, s₁.find? v = none ∨ s₂.find? v = none) : θ.Solves s₁ ∧ θ.Solves s₂ := by
  have h₁ : θ.Solves s₁ := by
    intro v t hv
    exact h _ _ (by rw [Subst.find?_compose, hv, Option.some_or])
  refine ⟨h₁, ?_⟩
  intro v t hv
  have hv₁ : s₁.find? v = none := by
    cases hkeys v with
    | inl hnone => exact hnone
    | inr hnone => rw [hnone] at hv; cases hv
  rw [← h₁.under_apply t]
  exact h _ _ (by rw [Subst.find?_compose, hv₁, Option.none_or, hv, Option.map_some])

/-- A solution followed by any valuation is a solution. -/
theorem Solves.after {θ : Valuation} {s : Subst} (h : θ.Solves s) (φ : Valuation) :
    Solves (fun v => (θ v).under φ) s := by
  intro v t hv
  rw [← Ty.under_under, ← h v t hv]

/-! ## Finite parts of a valuation -/

/-- The substitution that binds the variables of a set to their values. -/
def restrict (θ : Valuation) (vs : NameSet) : Subst :=
  .ofList (vs.toList.map fun v => (v, θ v))

theorem find?_restrict (θ : Valuation) (vs : NameSet) (v : Name) :
    (θ.restrict vs).find? v = if v ∈ vs then some (θ v) else none := by
  have hlookup : ∀ xs : List Name,
      (xs.map fun x => (x, θ x)).lookup v = if v ∈ xs then some (θ v) else none := by
    intro xs
    induction xs with
    | nil => simp
    | cons x xs ih =>
        rw [List.map_cons, NameMap.lookup_cons_ite, ih]
        by_cases hvx : v = x <;> simp [hvx]
  rw [restrict, NameMap.find?_ofList, ← List.map_reverse, hlookup]
  simp only [List.mem_reverse, NameSet.mem_toList]

/-- On a type, a valuation acts like its restriction to the variables of the
type. -/
theorem apply_restrict (θ : Valuation) (t : Ty) : (θ.restrict t.freeVars).apply t = t.under θ := by
  rw [Subst.apply_eq_under]
  refine Ty.under_congr fun v hv => ?_
  rw [Subst.val, Subst.apply_var, find?_restrict, if_pos (Ty.mem_freeVars.mpr hv)]
  rfl

end Valuation

/-- A solved form is solved by its own action. -/
theorem Subst.IsSolved.solves_val {s : Subst} (h : s.IsSolved) : s.val.Solves s := by
  intro v t hv
  have himage : s.val v = t := by rw [val, apply_var, hv, Option.getD_some]
  rw [himage, ← apply_eq_under]
  exact (apply_eq_self fun w hw => h v t w hv hw).symm

end LetPoly
