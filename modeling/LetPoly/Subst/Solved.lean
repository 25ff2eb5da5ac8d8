import LetPoly.Subst

/-! # Substitutions in solved form

A substitution is in solved form over a set of names if its keys and the
variables of its images lie in the set and no image mentions a key.  Applying
such a substitution removes its keys for good (`Subst.Solved.mem_apply`), and
solved forms compose if the second one no longer speaks of the keys of the
first (`Subst.Solved.compose`).
-/

namespace LetPoly.Subst

/-- Keys and images stay within `names`, and no image mentions a key. -/
structure Solved (s : Subst) (names : NameSet) : Prop where
  /-- The bound variables are in `names`. -/
  key_mem : ∀ {v t}, s.find? v = some t → v ∈ names
  /-- The images mention variables in `names`. -/
  image_mem : ∀ {v t w}, s.find? v = some t → w ∈ t → w ∈ names
  /-- No image mentions a bound variable. -/
  image_unbound : ∀ {v t w}, s.find? v = some t → w ∈ t → s.find? w = none

theorem solved_empty (names : NameSet) : Solved ∅ names where
  key_mem h := by simp at h
  image_mem h := by simp at h
  image_unbound h := by simp at h

/-- A single binding is solved if the image does not mention its own key. -/
theorem solved_single {v : Name} {t : Ty} {names : NameSet} (hv : v ∈ names)
    (ht : ∀ w, w ∈ t → w ∈ names) (hocc : v ∉ t) : Solved (NameMap.single v t) names where
  key_mem {w u} h := by
    obtain ⟨rfl, -⟩ := NameMap.find?_single_eq_some_iff.mp h
    exact hv
  image_mem {w u x} h hx := by
    obtain ⟨-, rfl⟩ := NameMap.find?_single_eq_some_iff.mp h
    exact ht x hx
  image_unbound {w u x} h hx := by
    obtain ⟨-, rfl⟩ := NameMap.find?_single_eq_some_iff.mp h
    have hne : x ≠ v := fun heq => hocc (heq ▸ hx)
    rw [NameMap.find?_single, if_neg hne]

theorem Solved.mono {s : Subst} {names names' : NameSet} (hs : s.Solved names)
    (h : names ⊆ names') : s.Solved names' where
  key_mem hf := h _ (hs.key_mem hf)
  image_mem hf hw := h _ (hs.image_mem hf hw)
  image_unbound hf hw := hs.image_unbound hf hw

/-- A substituted type no longer mentions the keys. -/
theorem Solved.mem_apply {s : Subst} {names : NameSet} (hs : s.Solved names) {t : Ty}
    (ht : ∀ v, v ∈ t → v ∈ names) {w : Name} (hw : w ∈ s.apply t) :
    w ∈ names ∧ s.find? w = none := by
  obtain ⟨v, hv, hwv⟩ := Subst.mem_apply.mp hw
  cases hf : s.find? v with
  | none =>
      rw [apply_var, hf] at hwv
      obtain rfl := Ty.mem_var.mp hwv
      exact ⟨ht _ hv, hf⟩
  | some u =>
      rw [apply_var, hf] at hwv
      exact ⟨hs.image_mem hf hwv, hs.image_unbound hf hwv⟩

/-- Solved forms compose if the second one speaks of no key of the first. -/
theorem Solved.compose {s₁ s₂ : Subst} {names rest : NameSet} (h₁ : s₁.Solved names)
    (h₂ : s₂.Solved rest) (hsub : rest ⊆ names) (hkeys : ∀ v, v ∈ rest → s₁.find? v = none) :
    (s₂.compose s₁).Solved names := by
  have himage : ∀ {v t}, (s₂.compose s₁).find? v = some t → v ∈ names ∧
      ∀ w, w ∈ t → w ∈ names ∧ s₁.find? w = none ∧ s₂.find? w = none := by
    intro v t hv
    rw [find?_compose] at hv
    cases hf₂ : s₂.find? v with
    | some u =>
        rw [hf₂] at hv
        cases hv
        refine ⟨hsub _ (h₂.key_mem hf₂), fun w hw => ?_⟩
        have hw' := h₂.image_mem hf₂ hw
        exact ⟨hsub _ hw', hkeys _ hw', h₂.image_unbound hf₂ hw⟩
    | none =>
        rw [hf₂, Option.none_or] at hv
        obtain ⟨u, hf₁, rfl⟩ := Option.map_eq_some_iff.mp hv
        refine ⟨h₁.key_mem hf₁, fun w hw => ?_⟩
        obtain ⟨x, hx, hwx⟩ := Subst.mem_apply.mp hw
        cases hfx : s₂.find? x with
        | none =>
            rw [apply_var, hfx] at hwx
            obtain rfl := Ty.mem_var.mp hwx
            exact ⟨h₁.image_mem hf₁ hx, h₁.image_unbound hf₁ hx, hfx⟩
        | some t' =>
            rw [apply_var, hfx] at hwx
            have hw' := h₂.image_mem hfx hwx
            exact ⟨hsub _ hw', hkeys _ hw', h₂.image_unbound hfx hwx⟩
  constructor
  · exact fun hv => (himage hv).1
  · exact fun hv hw => ((himage hv).2 _ hw).1
  · intro v t w hv hw
    obtain ⟨-, hw₁, hw₂⟩ := (himage hv).2 w hw
    rw [find?_compose, hw₁, hw₂]
    rfl

end LetPoly.Subst
