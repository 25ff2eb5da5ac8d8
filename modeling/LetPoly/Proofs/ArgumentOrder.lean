import Mathlib.Logic.Equiv.Basic
import LetPoly.Proofs.Evaluation
import LetPoly.Proofs.MostGeneralUnifier

/-! # The order of the arguments of unification

Of two different variables, unification binds the left one to the right one.  With
the arguments exchanged it binds the other one, and from there on the two runs unify
different types.  They stay renamings of each other: exchanging the two variables
leads from one run to the other (`mirrors_two_vars`), and every other step is the
same for renamed types (`bindVar_rename`).

So the runs are compared for types that are renamed already, and each step may add to
the renaming (`unify_mirrors`).  In the end the two unifiers differ by a renaming of
the variables of the two types, and the two errors by a renaming and by the order in
which they report their types.
-/

namespace LetPoly

/-! ## Renaming type variables -/

namespace Ty

variable {σ : Equiv.Perm Name} {v : Name} {t : Ty}

/-- The type with every variable renamed. -/
def rename (ρ : Name → Name) (t : Ty) : Ty :=
  t.under fun v => .var (ρ v)

@[simp]
theorem rename_var (ρ : Name → Name) (v : Name) : (Ty.var v).rename ρ = .var (ρ v) := rfl

@[simp]
theorem rename_int (ρ : Name → Name) : Ty.int.rename ρ = .int := rfl

@[simp]
theorem rename_bool (ρ : Name → Name) : Ty.bool.rename ρ = .bool := rfl

@[simp]
theorem rename_fn (ρ : Name → Name) (dom cod : Ty) :
    (Ty.fn dom cod).rename ρ = .fn (dom.rename ρ) (cod.rename ρ) := rfl

theorem rename_refl (t : Ty) : t.rename (Equiv.refl Name) = t :=
  under_id t

/-- A renamed type has the renamed variables. -/
theorem mem_rename : σ v ∈ t.rename σ ↔ v ∈ t := by
  simp [rename, mem_under]

theorem rename_eq_var_iff : t.rename σ = .var (σ v) ↔ t = .var v := by
  cases t <;> simp [rename]

/-- Different heads stay different when they are renamed and exchanged. -/
theorem Clash.rename_symm {t u : Ty} (h : t.Clash u) : (u.rename σ).Clash (t.rename σ) := by
  cases h <;> constructor

end Ty

/-! ## Errors -/

namespace UnifyError

/-- What is wrong with an equation: two different heads, or a variable inside the type
that it should be. -/
inductive Kind where
  | mismatch
  | occurs
deriving DecidableEq

/-- The kind of an error. -/
def kind : UnifyError → Kind
  | .mismatch _ _ => .mismatch
  | .occurs _ _ => .occurs

/-- The error with every variable renamed. -/
def rename (ρ : Name → Name) : UnifyError → UnifyError
  | .mismatch left right => .mismatch (left.rename ρ) (right.rename ρ)
  | .occurs var ty => .occurs (ρ var) (ty.rename ρ)

/-- The error as it is reported with the arguments exchanged. -/
def flip : UnifyError → UnifyError
  | .mismatch left right => .mismatch right left
  | .occurs var ty => .occurs var ty

/-- Neither renaming nor exchange changes what is wrong. -/
theorem kind_rename_flip (e : UnifyError) (ρ : Name → Name) : (e.flip.rename ρ).kind = e.kind := by
  cases e <;> rfl

end UnifyError

/-! ## Runs with the arguments exchanged -/

namespace Unify

variable {v w : Name} {t : Ty}

/-- The second result is that of a run on types renamed by `σ`, with the arguments
exchanged.  Unifiers differ by the renaming `ρ` of what they make of a type, errors by
`ρ` and by the order of the reported types. -/
def Mirrors (σ ρ : Name → Name) (r r' : Except UnifyError Subst) : Prop :=
  (∃ s s', r = .ok s ∧ r' = .ok s' ∧ ∀ w, s'.apply (w.rename σ) = (s.apply w).rename ρ) ∨
    ∃ e, r = .error e ∧ r' = .error (e.flip.rename ρ)

/-- Unifiers are compared on variables. -/
theorem mirrors_ok {σ ρ : Name → Name} {s s' : Subst}
    (h : ∀ x, s'.apply (.var (σ x)) = (s.apply (.var x)).rename ρ) :
    Mirrors σ ρ (.ok s) (.ok s') := by
  refine .inl ⟨s, s', rfl, rfl, fun w => ?_⟩
  induction w with
  | var x => exact h x
  | int => rfl
  | bool => rfl
  | fn dom cod ihDom ihCod =>
      simp only [Ty.rename_fn, Subst.apply_fn, ihDom, ihCod]

/-- Binding a variable commutes with renaming. -/
theorem bindVar_rename (σ : Equiv.Perm Name) (v : Name) (t : Ty) :
    Mirrors σ σ (bindVar v t) (bindVar (σ v) (t.rename σ)) := by
  simp only [bindVar, Ty.rename_eq_var_iff, Ty.mem_rename]
  split
  · exact mirrors_ok fun x => by simp
  · split
    · exact .inr ⟨_, rfl, rfl⟩
    · refine mirrors_ok fun x => ?_
      by_cases hx : x = v <;> simp [hx]

/-- Two different variables are bound the other way round if they are exchanged. -/
theorem mirrors_two_vars (σ : Equiv.Perm Name) (hne : v ≠ w) :
    Mirrors σ ((Equiv.swap v w).trans σ) (bindVar v (.var w)) (bindVar (σ w) (.var (σ v))) := by
  have hleft : bindVar v (.var w) = .ok (NameMap.single v (.var w)) := by
    simp [bindVar, hne, hne.symm]
  have hright : bindVar (σ w) (.var (σ v)) = .ok (NameMap.single (σ w) (.var (σ v))) := by
    simp [bindVar, hne, hne.symm]
  rw [hleft, hright]
  refine mirrors_ok fun x => ?_
  by_cases hxv : x = v
  · subst hxv
    simp [hne]
  · by_cases hxw : x = w
    · subst hxw
      simp [hxv]
    · simp [hxv, hxw, Equiv.swap_apply_of_ne_of_ne]

/-- A variable on the right is bound like one on the left, unless there is another one
on the left. -/
theorem unify_var_right_of_eq (ht : ∀ w, t = .var w → w = v) :
    unify t (.var v) = bindVar v t := by
  by_cases hvar : ∃ w, t = .var w
  · obtain ⟨w, rfl⟩ := hvar
    obtain rfl := ht w rfl
    exact unify_var_left w (.var w)
  · exact unify_var_right v fun w heq => hvar ⟨w, heq⟩

/-- Unifying renamed types in the other order mirrors unifying the types, up to a
renaming that differs from the given one only at variables of the types.  The renaming
grows along the recursion: the codomains are compared under the one that the domains
have led to. -/
theorem unify_mirrors (t u : Ty) : ∀ σ : Equiv.Perm Name, ∃ ρ : Equiv.Perm Name,
    (∀ v, v ∉ t → v ∉ u → ρ v = σ v) ∧
      Mirrors σ ρ (unify t u) (unify (u.rename σ) (t.rename σ)) := by
  induction t, u using unify_induct with
  | varLeft v u =>
      intro σ
      rw [unify_var_left]
      by_cases hu : ∃ w, w ≠ v ∧ u = .var w
      · obtain ⟨w, hne, rfl⟩ := hu
        refine ⟨(Equiv.swap v w).trans σ, fun x hv hw => ?_, ?_⟩
        · rw [Equiv.trans_apply, Equiv.swap_apply_of_ne_of_ne hv hw]
        · rw [Ty.rename_var, unify_var_left]
          exact mirrors_two_vars σ hne.symm
      · have hright : unify (u.rename σ) (.var (σ v)) = bindVar (σ v) (u.rename σ) := by
          refine unify_var_right_of_eq fun w hw => ?_
          rw [← σ.apply_symm_apply w, Ty.rename_eq_var_iff] at hw
          rw [← σ.symm_apply_eq]
          exact Classical.byContradiction fun hne => hu ⟨_, hne, hw⟩
        refine ⟨σ, fun _ _ _ => rfl, ?_⟩
        rw [Ty.rename_var, hright]
        exact bindVar_rename σ v u
  | varRight t v ht =>
      intro σ
      refine ⟨σ, fun _ _ _ => rfl, ?_⟩
      rw [unify_var_right v ht, Ty.rename_var, unify_var_left]
      exact bindVar_rename σ v t
  | int =>
      intro σ
      refine ⟨σ, fun _ _ _ => rfl, ?_⟩
      rw [Ty.rename_int, unify_int]
      exact mirrors_ok fun x => rfl
  | bool =>
      intro σ
      refine ⟨σ, fun _ _ _ => rfl, ?_⟩
      rw [Ty.rename_bool, unify_bool]
      exact mirrors_ok fun x => rfl
  | fn a b c d ihDom ihCod =>
      intro σ
      obtain ⟨ρ₁, hdomFix, hdom⟩ := ihDom σ
      have hfix₁ : ∀ v, v ∉ Ty.fn a b → v ∉ Ty.fn c d → ρ₁ v = σ v := fun v hv hv' =>
        hdomFix v (fun h => hv (.inl h)) fun h => hv' (.inl h)
      rcases hdom with ⟨s₁, s₁', h₁, h₁', hs₁⟩ | ⟨e, h₁, h₁'⟩
      · obtain ⟨ρ₂, hfix₂, hcod⟩ := ihCod s₁ h₁ ρ₁
        -- the second calls of the two runs are on types that differ by `ρ₁`
        rw [← hs₁, ← hs₁] at hcod
        refine ⟨ρ₂, fun v hv hv' => ?_, ?_⟩
        · have hgone : v ∉ names (s₁.apply b) (s₁.apply d) := fun hmem =>
            (mem_names.mp (names_codomains (unify_solved h₁) v hmem)).elim hv hv'
          rw [mem_names, not_or] at hgone
          rw [hfix₂ v hgone.1 hgone.2, hfix₁ v hv hv']
        · rcases hcod with ⟨s₂, s₂', h₂, h₂', hs₂⟩ | ⟨e, h₂, h₂'⟩
          · refine .inl ⟨_, _, unify_fn_eq_ok h₁ h₂, unify_fn_eq_ok h₁' h₂', fun w => ?_⟩
            rw [apply_unify_fn h₁ h₂, apply_unify_fn h₁' h₂', hs₁, hs₂]
          · exact .inr ⟨e, unify_fn_eq_error_of_codomains h₁ h₂,
              unify_fn_eq_error_of_codomains h₁' h₂'⟩
      · exact ⟨ρ₁, hfix₁, .inr ⟨e, unify_fn_eq_error_of_domains h₁,
          unify_fn_eq_error_of_domains h₁'⟩⟩
  | clash t u hc =>
      intro σ
      exact ⟨σ, fun _ _ _ => rfl, .inr ⟨_, unify_clash hc, unify_clash hc.rename_symm⟩⟩

end Unify

/-- The order of the arguments does not matter up to renaming.  Two types have a
unifier in one order if and only if they have one in the other.  The two unifiers
differ by a permutation of the variables of the types, and two errors are of the same
kind. -/
theorem unify_comm_upToRenaming (t u : Ty) :
    ((∃ s, unify t u = .ok s) ↔ ∃ s', unify u t = .ok s') ∧
      (∀ s s', unify t u = .ok s → unify u t = .ok s' →
        ∃ ρ : Equiv.Perm Name, (∀ v, ρ v ≠ v → v ∈ t ∨ v ∈ u) ∧
          ∀ w, s'.apply w = (s.apply w).rename ρ) ∧
      ∀ e e', unify t u = .error e → unify u t = .error e' → e.kind = e'.kind := by
  obtain ⟨ρ, hfix, hmirrors⟩ := Unify.unify_mirrors t u (Equiv.refl Name)
  simp only [Ty.rename_refl, Unify.Mirrors] at hmirrors
  rcases hmirrors with ⟨s, s', h, h', hs⟩ | ⟨e, h, h'⟩
  · rw [h, h']
    refine ⟨by simp, ?_, fun e e' he => nomatch he⟩
    rintro _ _ ⟨⟩ ⟨⟩
    refine ⟨ρ, fun v hv => ?_, hs⟩
    exact Classical.byContradiction fun hno =>
      hv (hfix v (fun ht => hno (.inl ht)) fun hu => hno (.inr hu))
  · rw [h, h']
    refine ⟨by simp, fun s s' hs => (nomatch hs), ?_⟩
    rintro _ _ ⟨⟩ ⟨⟩
    exact (e.kind_rename_flip ρ).symm

/-- `a -> a -> c`. -/
def twoParams : Ty :=
  .fn (.var "a") (.fn (.var "a") (.var "c"))

/-- `b -> d -> d`. -/
def sameResult : Ty :=
  .fn (.var "b") (.fn (.var "d") (.var "d"))

/-- `b -> b -> Int`. -/
def intResult : Ty :=
  .fn (.var "b") (.fn (.var "b") .int)

/-- In one order all variables of `a -> a -> c` and `b -> d -> d` become `d`, in the other
`c`.  With `a -> a` in place of the first type and `b -> b -> Int` in place of the second,
one order reports `b` inside `b -> Int` and the other `a` inside `a -> Int`. -/
theorem unify_comm_upToRenaming_twoParams :
    (∃ s s', unify twoParams sameResult = .ok s ∧ unify sameResult twoParams = .ok s' ∧
      s.apply (.var "a") = .var "d" ∧ s'.apply (.var "a") = .var "c" ∧
      ∃ ρ : Equiv.Perm Name, ρ "d" = "c" ∧ ∀ w, s'.apply w = (s.apply w).rename ρ) ∧
    unify (.fn (.var "a") (.var "a")) intResult = .error (.occurs "b" (.fn (.var "b") .int)) ∧
    unify intResult (.fn (.var "a") (.var "a")) = .error (.occurs "a" (.fn (.var "a") .int)) ∧
    (UnifyError.occurs "b" (.fn (.var "b") .int)).kind =
      (UnifyError.occurs "a" (.fn (.var "a") .int)).kind := by
  have hforth : unify twoParams sameResult =
      .ok (.ofList [("a", .var "d"), ("b", .var "d"), ("c", .var "d")]) := by
    rw [unify_eq_compute]
    decide +kernel
  have hback : unify sameResult twoParams =
      .ok (.ofList [("a", .var "c"), ("b", .var "c"), ("d", .var "c")]) := by
    rw [unify_eq_compute]
    decide +kernel
  have hfail : unify (.fn (.var "a") (.var "a")) intResult =
      .error (.occurs "b" (.fn (.var "b") .int)) := by
    rw [unify_eq_compute]
    decide +kernel
  have hfail' : unify intResult (.fn (.var "a") (.var "a")) =
      .error (.occurs "a" (.fn (.var "a") .int)) := by
    rw [unify_eq_compute]
    decide +kernel
  obtain ⟨ρ, -, hρ⟩ := (unify_comm_upToRenaming _ _).2.1 _ _ hforth hback
  have hkind := (unify_comm_upToRenaming _ _).2.2 _ _ hfail hfail'
  exact ⟨⟨_, _, hforth, hback, by decide, by decide, ρ, (Ty.var.inj (hρ (.var "a"))).symm, hρ⟩,
    hfail, hfail', hkind⟩

end LetPoly
