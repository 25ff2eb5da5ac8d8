import LetPoly.Proofs.Evaluation
import LetPoly.Proofs.MostGeneralUnifier

/-! # Unifiers in solved form

A unifier speaks only of the variables of the two types, and none of its images
mentions a variable that it binds, so that applying it twice is applying it once.

The unifier of two function types is composed from those of the domains and of the
codomains.  Composition prefers its left argument where both bind a variable, but
while types are unified this never decides anything: the compositions on the way
(`Unify.compositions`) are all of substitutions without a common key
(`Unify.compositions_apart`).
-/

namespace LetPoly

namespace Unify

/-! ## The compositions of a unification -/

theorem Outcome.compositions_bind (v : Name) (t : Ty) (names : NameSet) (hv : v ∈ names)
    (ht : ∀ w, w ∈ t → w ∈ names) : (Outcome.bind v t names hv ht).compositions = [] := by
  rw [Outcome.bind]
  split
  · rfl
  · split <;> rfl

/-- Only equations between function types compose substitutions. -/
theorem compositions_eq_nil {t u : Ty} (h : (t.isFn && u.isFn) = false) :
    compositions t u = [] := by
  cases t <;> cases u <;>
    simp_all [compositions, solve, Outcome.compositions_bind, Outcome.trivial, Outcome.fail,
      Ty.isFn]

/-- A composition is made for the domains, for the codomains, or of the two
unifiers. -/
theorem mem_compositions_fn {a b c d : Ty} {p : Subst × Subst} :
    p ∈ compositions (.fn a b) (.fn c d) ↔
      p ∈ compositions a c ∨ ∃ s₁, unify a c = .ok s₁ ∧
        (p ∈ compositions (s₁.apply b) (s₁.apply d) ∨
          ∃ s₂, unify (s₁.apply b) (s₁.apply d) = .ok s₂ ∧ p = (s₂, s₁)) := by
  rw [compositions_fn, List.mem_append]
  refine or_congr_right ?_
  cases unify a c with
  | error e => simp
  | ok s₁ =>
      simp only [Except.ok.injEq, exists_eq_left', List.mem_append]
      refine or_congr_right ?_
      cases unify (s₁.apply b) (s₁.apply d) <;> simp

/-- The two arguments of a composition bind no variable in common. -/
theorem compositions_apart {t u : Ty} {p : Subst × Subst} (hp : p ∈ compositions t u) (v : Name) :
    p.1.find? v = none ∨ p.2.find? v = none := by
  induction t, u using unify_induct with
  | fn a b c d ihDom ihCod =>
      rcases mem_compositions_fn.mp hp with hp | ⟨s₁, h₁, hp | ⟨s₂, h₂, rfl⟩⟩
      · exact ihDom hp
      · exact ihCod s₁ h₁ hp
      · exact unify_fn_apart h₁ h₂ v
  | varLeft | int | bool =>
      rw [compositions_eq_nil rfl] at hp
      cases hp
  | varRight t v =>
      rw [compositions_eq_nil (Bool.and_false _)] at hp
      cases hp
  | clash t u hclash =>
      rw [compositions_eq_nil (by cases hclash <;> rfl)] at hp
      cases hp

end Unify

/-! ## Solved form -/

/-- A unifier speaks only of variables of the two types, its images mention none
of its keys, it is idempotent, and it was composed from substitutions without
common keys. -/
theorem unify_solvedForm {t u : Ty} {s : Subst} (h : unify t u = .ok s) :
    (∀ v ∈ s.keys, v ∈ t ∨ v ∈ u) ∧
      (∀ v w x, s.find? v = some w → x ∈ w → (x ∈ t ∨ x ∈ u) ∧ x ∉ s.keys) ∧
      (∀ w, s.apply (s.apply w) = s.apply w) ∧
      ∀ p ∈ Unify.compositions t u, ∀ v ∈ p.1.keys, v ∉ p.2.keys := by
  have hs : s.Solved (Unify.names t u) := unify_solved h
  refine ⟨fun v hv => ?_, fun v w x hv hx => ?_, hs.isSolved.apply_apply, fun p hp v hv => ?_⟩
  · obtain ⟨w, hw⟩ := NameMap.mem_keys_iff.mp hv
    exact Unify.mem_names.mp (hs.key_mem hw)
  · exact ⟨Unify.mem_names.mp (hs.image_mem hv hx),
      NameMap.find?_eq_none_iff.mp (hs.image_unbound hv hx)⟩
  · rcases Unify.compositions_apart hp v with hnone | hnone
    · exact absurd hv (NameMap.find?_eq_none_iff.mp hnone)
    · exact NameMap.find?_eq_none_iff.mp hnone

/-- `a -> b -> a`. -/
def nestedLeft : Ty :=
  .fn (.var "a") (.fn (.var "b") (.var "a"))

/-- `(b -> c) -> Int -> d`. -/
def nestedRight : Ty :=
  .fn (.fn (.var "b") (.var "c")) (.fn .int (.var "d"))

/-- The two types bind `a`, then `b`, then `d`.  Binding `b` rewrites the image of
`a`, and `d` gets that image as it is by then. -/
theorem unify_solvedForm_nested :
    ∃ s, unify nestedLeft nestedRight = .ok s ∧ s.keys.toList = ["a", "b", "d"] ∧
      (Unify.compositions nestedLeft nestedRight).map
        (fun p => (p.1.keys.toList, p.2.keys.toList)) = [(["d"], ["b"]), (["b", "d"], ["a"])] ∧
      (∀ v ∈ s.keys, v ∈ nestedLeft ∨ v ∈ nestedRight) ∧
      (∀ w, s.apply (s.apply w) = s.apply w) ∧
      ∀ p ∈ Unify.compositions nestedLeft nestedRight, ∀ v ∈ p.1.keys, v ∉ p.2.keys := by
  have hunify : unify nestedLeft nestedRight =
      .ok (.ofList [("a", .fn .int (.var "c")), ("b", .int), ("d", .fn .int (.var "c"))]) := by
    rw [unify_eq_compute]
    decide +kernel
  have hcompositions : (Unify.compositions nestedLeft nestedRight).map
      (fun p => (p.1.keys.toList, p.2.keys.toList)) = [(["d"], ["b"]), (["b", "d"], ["a"])] := by
    rw [Unify.compositions, Unify.solve_eq_compute]
    decide +kernel
  obtain ⟨hnames, -, hidem, hkeys⟩ := unify_solvedForm hunify
  exact ⟨_, hunify, by decide, hcompositions, hnames, hidem, hkeys⟩

end LetPoly
