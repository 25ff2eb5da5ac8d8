import Mathlib.Tactic.IntervalCases
import LetPoly.Proofs.Evaluation
import LetPoly.Proofs.Lockstep

/-! # Renaming quantified type variables

Two schemes are renamings of each other if they differ only in the names of their
quantified variables (`Scheme.Renamed`).  They have the same free variables and the
same instances.  A substitution keeps them renamings as long as none of its images
holds a quantified variable (`Scheme.RenamedBy.applyScheme`): images are put into
the body of a scheme as they are, so that a quantified variable in one is caught.

Inference gives the same result in contexts that are renamings of each other if no
scheme with free variables quantifies over a variable that the run speaks of
(`follows_renamed`).  The supply only avoids the free variables of the context.  It
may hand out a quantified one, and then the result depends on its name.
-/

namespace LetPoly

open InferM

variable {R : LetRule} {D : Demand} {Γ Γ' : Context} {k k' limit : NameSupply} {e : Expr}
  {s : Subst} {t : Ty} {σ σ' : Scheme} {ρ : Name → Name} {x : Name}

/-! ## Renamings of a scheme -/

namespace Scheme

/-- The scheme with its quantified variables renamed. -/
def rename (σ : Scheme) (ρ : Name → Name) : Scheme :=
  ⟨σ.vars.map ρ, σ.body.under fun v => .var (if v ∈ σ.vars then ρ v else v)⟩

/-- The quantified variables are renamed to different names, none of which is free
in the scheme. -/
structure RenamedBy (ρ : Name → Name) (σ σ' : Scheme) : Prop where
  /-- The quantified variables are renamed by `ρ`. -/
  eq_rename : σ' = σ.rename ρ
  /-- They stay different. -/
  inj : ∀ v w, v ∈ σ.vars → w ∈ σ.vars → ρ v = ρ w → v = w
  /-- They do not catch a free variable. -/
  apart : ∀ v, v ∈ σ.vars → ρ v ∉ σ.freeVars

/-- The schemes differ only in the names of their quantified variables. -/
def Renamed (σ σ' : Scheme) : Prop :=
  ∃ ρ, RenamedBy ρ σ σ'

theorem Renamed.refl (σ : Scheme) : σ.Renamed σ := by
  refine ⟨id, ?_, fun _ _ _ _ h => h, fun v hv hfree => (mem_freeVars.mp hfree).2 hv⟩
  simp only [rename, List.map_id, id_eq, ite_self, Ty.under_id]

namespace RenamedBy

theorem vars_eq (h : RenamedBy ρ σ σ') : σ'.vars = σ.vars.map ρ := by
  rw [h.eq_rename, rename]

theorem mem_vars (h : RenamedBy ρ σ σ') {v : Name} (hv : v ∈ σ.vars) : ρ v ∈ σ'.vars :=
  h.vars_eq ▸ List.mem_map_of_mem hv

/-- No free variable is caught by the new names. -/
theorem not_mem_vars (h : RenamedBy ρ σ σ') {v : Name} (hv : v ∈ σ.freeVars) : v ∉ σ'.vars := by
  rw [h.vars_eq]
  intro hmem
  obtain ⟨w, hw, rfl⟩ := List.mem_map.mp hmem
  exact h.apart w hw hv

/-- Renaming quantified variables leaves the free ones as they are. -/
theorem freeVars_eq (h : RenamedBy ρ σ σ') : σ'.freeVars = σ.freeVars := by
  refine NameSet.ext fun v => ?_
  constructor
  · intro hv
    obtain ⟨hbody, hnot⟩ := mem_freeVars.mp hv
    rw [h.eq_rename, rename, Ty.mem_under] at hbody
    obtain ⟨w, hw, hvw⟩ := hbody
    obtain rfl := Ty.mem_var.mp hvw
    by_cases hq : w ∈ σ.vars
    · rw [if_pos hq] at hnot
      exact absurd (h.mem_vars hq) hnot
    · rw [if_neg hq]
      exact mem_freeVars.mpr ⟨hw, hq⟩
  · intro hv
    obtain ⟨hbody, hq⟩ := mem_freeVars.mp hv
    refine mem_freeVars.mpr ⟨?_, h.not_mem_vars hv⟩
    rw [h.eq_rename, rename, Ty.mem_under]
    exact ⟨v, hbody, by rw [if_neg hq]; exact Ty.mem_var.mpr rfl⟩

end RenamedBy

end Scheme

/-! ## Instances of a renaming -/

/-- Looking a renamed name up among renamed names. -/
theorem lookup_map_fst {α : Type} {v : Name} : ∀ {es : List (Name × α)},
    (∀ e ∈ es, ρ v = ρ e.1 → v = e.1) →
      (es.map fun e => (ρ e.1, e.2)).lookup (ρ v) = es.lookup v
  | [], _ => rfl
  | (w, a) :: es, h => by
      have hiff : ρ v = ρ w ↔ v = w := ⟨h (w, a) List.mem_cons_self, congrArg ρ⟩
      rw [List.map_cons, NameMap.lookup_cons_ite, NameMap.lookup_cons_ite,
        lookup_map_fst fun e he => h e (List.mem_cons_of_mem _ he)]
      simp only [hiff]

/-- Names that are renamed apart keep their partners. -/
theorem partner_map {vs xs : List Name} {v : Name} (hlen : xs.length = vs.length) (hv : v ∈ vs)
    (hinj : ∀ w, w ∈ vs → ρ v = ρ w → v = w) :
    partner (vs.map ρ) xs (ρ v) = partner vs xs v := by
  have hlookup : ((vs.map ρ).zip xs).reverse.lookup (ρ v) = (vs.zip xs).reverse.lookup v := by
    rw [List.zip_map_left, ← List.map_reverse]
    refine lookup_map_fst fun e he => hinj e.1 ?_
    exact (List.of_mem_zip (List.mem_reverse.mp he)).1
  rw [partner, partner, hlookup]
  cases hl : (vs.zip xs).reverse.lookup v with
  | some w => rfl
  | none =>
      have hmem := List.mem_reverse.mpr (mem_zip_partner hlen hv)
      exact absurd (List.lookup_eq_none_iff.mp hl _ hmem) (by simp)

/-- Instances do not show the names of the quantified variables. -/
theorem Scheme.RenamedBy.instantiate_eq (h : σ.RenamedBy ρ σ') (k : NameSupply) :
    k.instantiate σ' = k.instantiate σ := by
  obtain ⟨xs, hxs⟩ : ∃ xs, xs = (k.freshMany σ.vars.length).1 := ⟨_, rfl⟩
  have hlen : xs.length = σ.vars.length := hxs ▸ NameSupply.length_freshMany _ k
  have hbody : σ'.body.under (fun v => .var (partner σ'.vars xs v)) =
      σ.body.under fun v => .var (partner σ.vars xs v) := by
    rw [h.vars_eq, h.eq_rename, rename, Ty.under_under]
    refine Ty.under_congr fun v hv => ?_
    rw [Ty.under_var]
    by_cases hq : v ∈ σ.vars
    · rw [if_pos hq, partner_map hlen hq fun w hw => h.inj v w hq hw]
    · have hnot := h.not_mem_vars (mem_freeVars.mpr ⟨hv, hq⟩)
      rw [if_neg hq, partner_of_not_mem (h.vars_eq ▸ hnot), partner_of_not_mem hq]
  have hvars : σ'.vars.length = σ.vars.length := by rw [h.vars_eq, List.length_map]
  rw [NameSupply.instantiate, NameSupply.instantiate, hvars]
  simp only [apply_zip_eq_under, ← hxs, hbody]

/-! ## Substitution in a renaming -/

/-- A substitution keeps renamings if no image that it puts into the body holds a
quantified variable of either scheme. -/
theorem Scheme.RenamedBy.applyScheme (h : σ.RenamedBy ρ σ')
    (hσ : ∀ w v, w ∈ σ.freeVars → v ∈ s.apply (.var w) → v ∉ σ.vars)
    (hσ' : ∀ w v, w ∈ σ.freeVars → v ∈ s.apply (.var w) → v ∉ σ'.vars) :
    RenamedBy ρ (s.applyScheme σ) (s.applyScheme σ') := by
  constructor
  · have hbody : Subst.apply (s.eraseAll σ'.vars) σ'.body =
        (Subst.apply (s.eraseAll σ.vars) σ.body).under
          fun v => .var (if v ∈ σ.vars then ρ v else v) := by
      rw [Subst.apply_eq_under, Subst.apply_eq_under, Ty.under_under, h.eq_rename, rename,
        Ty.under_under, ← rename, ← h.eq_rename]
      refine Ty.under_congr fun v hv => ?_
      rw [Ty.under_var, Subst.val, Subst.val, apply_eraseAll_var, apply_eraseAll_var]
      by_cases hq : v ∈ σ.vars
      · rw [if_pos hq, if_pos hq, if_pos (h.mem_vars hq), Ty.under_var, if_pos hq]
      · have hfree : v ∈ σ.freeVars := mem_freeVars.mpr ⟨hv, hq⟩
        rw [if_neg hq, if_neg hq, if_neg (h.not_mem_vars hfree)]
        refine (Ty.under_id _).symm.trans (Ty.under_congr fun w hw => ?_)
        rw [if_neg (hσ v w hfree hw)]
    rw [Subst.applyScheme, Subst.applyScheme, hbody, h.vars_eq]
    rfl
  · exact h.inj
  · intro v hv hmem
    obtain ⟨-, w, hw, hvw⟩ := mem_freeVars_applyScheme.mp hmem
    exact hσ' w (ρ v) hw hvw (h.mem_vars hv)

/-! ## Contexts -/

namespace Context

/-- The contexts bind the same names to renamings of the same schemes. -/
def Renamed (Γ Γ' : Context) : Prop :=
  ∀ x, Option.Rel Scheme.Renamed (Γ.find? x) (Γ'.find? x)

/-- No scheme with free variables quantifies over a variable in `V`. -/
def Uncaught (V : Name → Prop) (Γ : Context) : Prop :=
  ∀ x σ w v, Γ.find? x = some σ → w ∈ σ.freeVars → v ∈ σ.vars → ¬ V v

namespace Renamed

theorem of_find? (h : Γ.Renamed Γ') (hx : Γ.find? x = some σ) :
    ∃ σ' ρ, Γ'.find? x = some σ' ∧ σ.RenamedBy ρ σ' := by
  have hrel := h x
  rw [hx] at hrel
  generalize Γ'.find? x = found at hrel
  cases hrel with
  | some hren =>
      obtain ⟨ρ, hρ⟩ := hren
      exact ⟨_, ρ, rfl, hρ⟩

theorem of_find?_right (h : Γ.Renamed Γ') (hx : Γ'.find? x = some σ') :
    ∃ σ ρ, Γ.find? x = some σ ∧ σ.RenamedBy ρ σ' := by
  have hrel := h x
  rw [hx] at hrel
  generalize Γ.find? x = found at hrel
  cases hrel with
  | some hren =>
      obtain ⟨ρ, hρ⟩ := hren
      exact ⟨_, ρ, rfl, hρ⟩

/-- Renamed contexts have the same free variables. -/
theorem freeVars_eq (h : Γ.Renamed Γ') : Γ'.freeVars = Γ.freeVars := by
  refine NameSet.ext fun v => ?_
  rw [mem_freeVars, mem_freeVars]
  constructor
  · rintro ⟨x, σ', hx, hv⟩
    obtain ⟨σ, ρ, hσ, hρ⟩ := h.of_find?_right hx
    exact ⟨x, σ, hσ, hρ.freeVars_eq ▸ hv⟩
  · rintro ⟨x, σ, hx, hv⟩
    obtain ⟨σ', ρ, hσ', hρ⟩ := h.of_find? hx
    exact ⟨x, σ', hσ', hρ.freeVars_eq.symm ▸ hv⟩

theorem insert (h : Γ.Renamed Γ') (x : Name) (σ : Scheme) :
    Context.Renamed (Γ.insert x σ) (Γ'.insert x σ) := by
  intro y
  rw [NameMap.find?_insert, NameMap.find?_insert]
  split
  · exact .some (.refl σ)
  · exact h y

/-- What the generalization of a `let` sees is renamed as well. -/
theorem scope (h : Γ.Renamed Γ') (R : LetRule) (x : Name) :
    (R.scope Γ x).Renamed (R.scope Γ' x) := by
  rw [LetRule.scope, LetRule.scope]
  split
  · exact h
  · intro y
    rw [NameMap.find?_erase, NameMap.find?_erase]
    split
    · exact .none
    · exact h y

end Renamed

namespace Uncaught

variable {V V' : Name → Prop}

theorem mono (h : Γ.Uncaught V) (hV : ∀ v, V' v → V v) : Γ.Uncaught V' :=
  fun x σ w v hx hw hv hmem => h x σ w v hx hw hv (hV v hmem)

theorem insert (h : Γ.Uncaught V) (hσ : ∀ w v, w ∈ σ.freeVars → v ∈ σ.vars → ¬ V v) (x : Name) :
    Context.Uncaught V (Γ.insert x σ) := by
  intro y τ w v hy
  rw [NameMap.find?_insert] at hy
  split at hy
  · cases hy
    exact hσ w v
  · exact h y τ w v hy

theorem applySubst (h : Γ.Uncaught V) (s : Subst) : (Γ.applySubst s).Uncaught V := by
  intro x τ w v hx hw hv
  rw [find?_applySubst] at hx
  obtain ⟨σ, hσ, rfl⟩ := Option.map_eq_some_iff.mp hx
  obtain ⟨-, u, hu, -⟩ := Scheme.mem_freeVars_applyScheme.mp hw
  exact h x σ u v hσ hu hv

theorem scope (h : Γ.Uncaught V) (R : LetRule) (x : Name) : (R.scope Γ x).Uncaught V :=
  fun y σ w v hy => h y σ w v (LetRule.find?_of_find?_scope hy)

/-- A substitution that speaks only of variables in `V` puts no quantified one
into a body. -/
theorem not_mem_vars (h : Γ.Uncaught V) (hs : ∀ v, v ∈ s.names → V v) (hx : Γ.find? x = some σ)
    {w v : Name} (hw : w ∈ σ.freeVars) (hv : v ∈ s.apply (.var w)) : v ∉ σ.vars := by
  intro hq
  rcases Subst.mem_names_of_mem_apply hv with heq | hmem
  · exact (Scheme.mem_freeVars.mp hw).2 (Ty.mem_var.mp heq ▸ hq)
  · exact h x σ w v hx hw hq (hs v hmem)

end Uncaught

/-- A substitution that speaks only of variables that no scheme catches keeps contexts
renamed. -/
theorem Renamed.applySubst {V : Name → Prop} (h : Γ.Renamed Γ') (hΓ : Γ.Uncaught V)
    (hΓ' : Γ'.Uncaught V) (hs : ∀ v, v ∈ s.names → V v) :
    (Γ.applySubst s).Renamed (Γ'.applySubst s) := by
  intro x
  have hrel := h x
  rw [find?_applySubst, find?_applySubst]
  generalize hx : Γ.find? x = found at hrel
  generalize hx' : Γ'.find? x = found' at hrel
  cases hrel with
  | none => exact .none
  | some hren =>
      obtain ⟨ρ, hρ⟩ := hren
      refine .some ⟨ρ, hρ.applyScheme (fun w v => hΓ.not_mem_vars hs hx) fun w v hw => ?_⟩
      exact hΓ'.not_mem_vars hs hx' (hρ.freeVars_eq.symm ▸ hw)

/-! ## What a run speaks of -/

/-- The variable is free in the scheme of a free variable of `e`, or may be drawn
before the supply reaches the limit. -/
def Spoken (Γ : Context) (e : Expr) (k limit : NameSupply) (v : Name) : Prop :=
  Γ.FreeFor e v ∨ k.Drawn limit v

/-- The contexts are renamings of each other, no free variable is drawn before the
limit, and no variable that a run of `e` speaks of is caught. -/
structure Twins (limit k : NameSupply) (e : Expr) (Γ Γ' : Context) : Prop where
  /-- The contexts are renamings of each other. -/
  renamed : Γ.Renamed Γ'
  /-- No free variable is drawn before the limit. -/
  old : ∀ v, v ∈ Γ.freeVars → ¬ k.Drawn limit v
  /-- Nothing that is spoken of is caught in `Γ`. -/
  left : Γ.Uncaught (Γ.Spoken e k limit)
  /-- Nothing that is spoken of is caught in `Γ'`. -/
  right : Γ'.Uncaught (Γ.Spoken e k limit)

end Context

theorem NameSupply.Drawn.not_drawn_later {k₁ : NameSupply} {v : Name} (h : k.Drawn k₁ v) :
    ¬ k₁.Drawn limit v :=
  fun hlater => h.not_pending hlater.pending

theorem Run.spoken (h : Run R D Γ k e s t k') (hle : k' ≤ limit) {v : Name}
    (hv : v ∈ s.names ∨ v ∈ t) : Γ.Spoken e k limit v :=
  (h.mentions hv).imp_right fun hd => hd.of_le_right hle

namespace Context.Twins

/-- A part of the expression, from a later supply. -/
theorem part (h : Twins limit k e Γ Γ') {e₁ : Expr} (he : ∀ y, e₁.Free y → e.Free y)
    (hle : k ≤ k') : Twins limit k' e₁ Γ Γ' := by
  have hspoken : ∀ v, Γ.Spoken e₁ k' limit v → Γ.Spoken e k limit v := fun v hv =>
    hv.imp (.mono he) fun hd => hd.of_le_left hle
  exact ⟨h.renamed, fun v hv hd => h.old v hv (hd.of_le_left hle), h.left.mono hspoken,
    h.right.mono hspoken⟩

/-- Below an abstraction, the contexts are twins again. -/
theorem abs {body : Expr} {a : Name} (h : Twins limit k (.abs x body) Γ Γ')
    (ha : k.fresh = (a, k')) (hle : k' ≤ limit) :
    Twins limit k' body (Γ.insert x (.mono (.var a))) (Γ'.insert x (.mono (.var a))) := by
  have hdrawn : k.Drawn k' a := NameSupply.drawn_of_fresh ha
  have hk := NameSupply.le_of_fresh ha
  have hspoken : ∀ v, Spoken (Γ.insert x (.mono (.var a))) body k' limit v →
      Γ.Spoken (.abs x body) k limit v := by
    rintro v (hfree | hd)
    · have habs : ∀ y, y ≠ x → body.Free y → (Expr.abs x body).Free y :=
        fun _ hne hy => ⟨hne, hy⟩
      rcases hfree.of_insert habs with hfree | hmem
      · exact .inl hfree
      · rw [Ty.mem_var.mp (Scheme.mem_freeVars_mono.mp hmem)]
        exact .inr (hdrawn.of_le_right hle)
    · exact .inr (hd.of_le_left hk)
  have hmono : ∀ w v, w ∈ (Scheme.mono (.var a)).freeVars → v ∈ (Scheme.mono (.var a)).vars →
      ¬ Spoken (Γ.insert x (.mono (.var a))) body k' limit v :=
    fun _ _ _ hv => absurd hv List.not_mem_nil
  refine ⟨h.renamed.insert x _, fun v hv => ?_, (h.left.mono hspoken).insert hmono x,
    (h.right.mono hspoken).insert hmono x⟩
  rcases mem_freeVars_insert hv with hv | hv
  · rw [Ty.mem_var.mp (Scheme.mem_freeVars_mono.mp hv)]
    exact hdrawn.not_drawn_later
  · exact fun hd => h.old v hv (hd.of_le_left hk)

/-- A free variable of the context, or one drawn since, is not drawn again. -/
theorem not_drawn (h : Twins limit k e Γ Γ') (hle : k ≤ k') {v : Name}
    (hv : v ∈ Γ.freeVars ∨ k.Drawn k' v) : ¬ k'.Drawn limit v := by
  rcases hv with hv | hv
  · exact fun hd => h.old v hv (hd.of_le_left hle)
  · exact hv.not_drawn_later

/-- For the argument of an application, the contexts are twins again. -/
theorem arg {f a : Expr} (h : Twins limit k (.app f a) Γ Γ') (hf : Run R D Γ k f s t k')
    (hle : k' ≤ limit) : Twins limit k' a (Γ.applySubst s) (Γ'.applySubst s) := by
  have hs : ∀ v, v ∈ s.names → Γ.Spoken (.app f a) k limit v := fun v hv =>
    (hf.spoken hle (.inl hv)).imp_left (.mono fun _ => .inl)
  have hspoken : ∀ v, (Γ.applySubst s).Spoken a k' limit v → Γ.Spoken (.app f a) k limit v := by
    rintro v (hfree | hd)
    · rcases hfree.of_applySubst with hfree | hv
      · exact .inl (hfree.mono fun _ => .inr)
      · exact hs v hv
    · exact .inr (hd.of_le_left hf.le)
  exact ⟨h.renamed.applySubst h.left h.right hs,
    fun v hv => h.not_drawn hf.le (mem_freeVars_applySubst_run hf hv),
    (h.left.applySubst s).mono hspoken, (h.right.applySubst s).mono hspoken⟩

variable {e₁ e₂ : Expr}

theorem spoken_bound (h₁ : Run R D Γ k e₁ s t k') (hle : k' ≤ limit) {v : Name}
    (hv : v ∈ s.names ∨ v ∈ t) : Γ.Spoken (.letIn x e₁ e₂) k limit v :=
  (h₁.spoken hle hv).imp_left (.mono fun _ => .inl)

/-- The bound expression of a `let` gets the same scheme in both contexts, and not only
a renamed one. -/
theorem scheme_eq (h : Twins limit k (.letIn x e₁ e₂) Γ Γ') (h₁ : Run R D Γ k e₁ s t k')
    (hle : k' ≤ limit) (R' : LetRule) : R'.scheme Γ' x s t = R'.scheme Γ x s t := by
  have hscope := (h.renamed.scope R' x).applySubst (h.left.scope R' x) (h.right.scope R' x)
    fun v hv => spoken_bound h₁ hle (.inl hv)
  rw [LetRule.scheme, LetRule.scheme, generalize, generalize, hscope.freeVars_eq]

/-- A variable that the body speaks of is one of the whole. -/
theorem spoken_body (h₁ : Run R D Γ k e₁ s t k') (hle : k' ≤ limit) (R' : LetRule) {v : Name}
    (hv : (R'.bodyContext Γ x s t).Spoken e₂ k' limit v) :
    Γ.Spoken (.letIn x e₁ e₂) k limit v := by
  rcases hv with hfree | hd
  · rw [LetRule.bodyContext_eq_insert] at hfree
    have hlet : ∀ y, y ≠ x → e₂.Free y → (Expr.letIn x e₁ e₂).Free y :=
      fun _ hne hy => .inr ⟨hne, hy⟩
    rcases hfree.of_insert hlet with hfree | hmem
    · rcases hfree.of_applySubst with hfree | hv
      · exact .inl hfree
      · exact spoken_bound h₁ hle (.inl hv)
    · rcases Scheme.mem_names_of_mem_freeVars_applyScheme hmem with hmem | hv
      · exact spoken_bound h₁ hle (.inr (LetRule.mem_freeVars_scheme.mp hmem).1)
      · exact spoken_bound h₁ hle (.inl hv)
  · exact .inr (hd.of_le_left h₁.le)

/-- The body does not speak of a variable that the new scheme quantifies. -/
theorem not_spoken_body (h : Twins limit k (.letIn x e₁ e₂) Γ Γ') (h₁ : Run R D Γ k e₁ s t k')
    (R' : LetRule) {v : Name} (hv : v ∈ (R'.scheme Γ x s t).vars) :
    ¬ (R'.bodyContext Γ x s t).Spoken e₂ k' limit v := by
  obtain ⟨ht, hscope⟩ := LetRule.mem_vars_scheme.mp hv
  rintro (hfree | hd)
  · rcases LetRule.mem_freeVars_bodyContext hfree.mem_freeVars with hmem | ⟨y, σ, hyx, hy, hmem⟩
    · exact (Scheme.mem_freeVars_applyScheme.mp hmem).1 hv
    · rw [← LetRule.find?_scope R' Γ hyx] at hy
      exact hscope (mem_freeVars_applySubst_of_find? hy hmem)
  · exact h.not_drawn h₁.le (h₁.within (.inr ht)) hd

/-- For the body of a `let`, the contexts are twins again. -/
theorem body (h : Twins limit k (.letIn x e₁ e₂) Γ Γ') (h₁ : Run R D Γ k e₁ s t k')
    (hle : k' ≤ limit) (R' : LetRule) :
    Twins limit k' e₂ (R'.bodyContext Γ x s t) (R'.bodyContext Γ' x s t) := by
  have hspoken : ∀ v, (R'.bodyContext Γ x s t).Spoken e₂ k' limit v →
      Γ.Spoken (.letIn x e₁ e₂) k limit v := fun v hv => spoken_body h₁ hle R' hv
  have hnew : ∀ w v, w ∈ (s.applyScheme (R'.scheme Γ x s t)).freeVars →
      v ∈ (s.applyScheme (R'.scheme Γ x s t)).vars →
        ¬ (R'.bodyContext Γ x s t).Spoken e₂ k' limit v :=
    fun w v _ hv => h.not_spoken_body h₁ R' hv
  have hren := h.renamed.applySubst h.left h.right fun v hv => spoken_bound h₁ hle (.inl hv)
  constructor
  · rw [LetRule.bodyContext_eq_insert, LetRule.bodyContext_eq_insert, h.scheme_eq h₁ hle]
    exact hren.insert x _
  · exact fun v hv => h.not_drawn h₁.le (mem_freeVars_bodyContext_run h₁ hv)
  · have := ((h.left.applySubst s).mono hspoken).insert hnew x
    rwa [← LetRule.bodyContext_eq_insert] at this
  · have := ((h.right.applySubst s).mono hspoken).insert hnew x
    rwa [← h.scheme_eq h₁ hle, ← LetRule.bodyContext_eq_insert] at this

end Context.Twins

/-! ## Inference -/

/-- In twins, both inferences draw the same names and find the same. -/
theorem follows_renamed (R : LetRule) (e : Expr) : ∀ {Γ Γ' : Context} {k : NameSupply},
    Context.Twins limit k e Γ Γ' → Follows limit k (inferBy R Γ e) (inferBy R Γ' e) := by
  induction e with
  | var x =>
      intro Γ Γ' k h
      refine follows_var (fun σ hx => ?_) fun hx => ?_
      · obtain ⟨σ', ρ, hx', hρ⟩ := h.renamed.of_find? hx
        exact ⟨σ', hx', hρ.instantiate_eq k⟩
      · have hrel := h.renamed x
        rw [hx] at hrel
        generalize Γ'.find? x = found at hrel
        cases hrel
        exact ⟨rfl, rfl⟩
  | lit l => exact fun _ => follows_pure _
  | abs x body ih =>
      intro Γ Γ' k h
      exact follows_abs fun a k₁ ha hle => ih (h.abs ha hle)
  | app f a ihf iha =>
      intro Γ Γ' k h
      refine follows_app fun r k₀ hr => ?_
      have h₀ := h.part (fun _ hy => hy) (NameSupply.le_of_fresh hr)
      refine ⟨ihf (h₀.part (fun _ => .inl) (NameSupply.le_refl k₀)), fun s t k₁ hf _ hle => ?_⟩
      exact iha (h₀.arg hf hle)
  | letIn x e₁ e₂ ih₁ ih₂ =>
      intro Γ Γ' k h
      refine follows_letIn rfl (ih₁ (h.part (fun _ => .inl) (NameSupply.le_refl k))) ?_
      intro s t k₁ h₁ _ hle
      exact ⟨h.scheme_eq h₁ hle R, ih₂ (h.body h₁ hle R)⟩

/-- The supply that a run from scratch leaves, also where it fails. -/
def supplyAfter (Γ : Context) (e : Expr) : NameSupply :=
  ((infer Γ e).outcome ⟨.start Γ.freeVars, #[]⟩).2

/-- In contexts that are renamings of each other, inference gives the same result if
no scheme with free variables quantifies over a variable that is free in the scheme
of a free variable of the expression or that the run draws. -/
theorem typing_renamed (h : Γ.Renamed Γ')
    (hΓ : Γ.Uncaught (Γ.Spoken e (.start Γ.freeVars) (supplyAfter Γ e)))
    (hΓ' : Γ'.Uncaught (Γ.Spoken e (.start Γ.freeVars) (supplyAfter Γ e))) :
    typing Γ' e = typing Γ e := by
  have hold : ∀ v, v ∈ Γ.freeVars →
      ¬ (NameSupply.start Γ.freeVars).Drawn (supplyAfter Γ e) v := by
    rintro v hv ⟨i, -, -, -, hreserved⟩
    exact hreserved hv
  rw [supplyAfter, infer_eq_inferBy] at *
  rw [typing_eq_typingBy, typing_eq_typingBy]
  exact typingBy_eq_of_follows h.freeVars_eq (follows_renamed .ofInfer e ⟨h, hold, hΓ, hΓ'⟩)

/-! ## A scheme with a free variable -/

/-- `f : forall q. q -> c` and `x : c`. -/
def openContext (q : Name) : Context :=
  .ofList [("f", ⟨[q], .fn (.var q) (.var "c")⟩), ("x", .mono (.var "c"))]

/-- `let u = x 1 in f`, which binds `c` before `f` is used. -/
def useAfterBinding : Expr :=
  .letIn "u" (.app (.var "x") (.int 1)) (.var "f")

theorem find?_openContext (q y : Name) :
    (openContext q).find? y =
      if y = "x" then some (.mono (.var "c"))
      else if y = "f" then some ⟨[q], .fn (.var q) (.var "c")⟩ else none := by
  rw [openContext, NameMap.find?_ofList]
  simp only [List.reverse_cons, List.reverse_nil, List.nil_append, List.cons_append,
    NameMap.lookup_cons_ite, List.lookup_nil]

/-- The name of the quantified variable does not matter as long as it is not the free
one. -/
theorem renamed_openContext {q r : Name} (hq : q ≠ "c") (hr : r ≠ "c") :
    (openContext q).Renamed (openContext r) := by
  intro y
  rw [find?_openContext, find?_openContext]
  split
  · exact .some (.refl _)
  · split
    · refine .some ⟨fun _ => r, ?_, ?_, ?_⟩
      · simp [Scheme.rename, hq.symm]
      · intro v w hv hw _
        rw [List.mem_singleton.mp hv, List.mem_singleton.mp hw]
      · simp [hr]
    · exact .none

/-- Of the two schemes of `openContext q`, only that of `f` has both kinds of
variables. -/
theorem uncaught_openContext {V : Name → Prop} {q : Name} (hq : ¬ V q) :
    (openContext q).Uncaught V := by
  intro y σ w v hy _ hv
  rw [find?_openContext] at hy
  split at hy
  · cases hy
    exact absurd hv List.not_mem_nil
  · split at hy
    · cases hy
      rwa [List.mem_singleton.mp hv]
    · cases hy

/-- A run that draws two names speaks of `a`, `b` and `c` at most. -/
theorem not_spoken_openContext {q r : Name} (ha : r ≠ "a") (hb : r ≠ "b") (hc : r ≠ "c")
    (hnext : (supplyAfter (openContext q) e).next = 2) :
    ¬ (openContext q).Spoken e (.start (openContext q).freeVars)
      (supplyAfter (openContext q) e) r := by
  rintro (⟨y, σ, -, hy, hmem⟩ | ⟨i, -, hi, heq, -⟩)
  · rw [find?_openContext] at hy
    split at hy
    · cases hy
      exact hc (Ty.mem_var.mp (Scheme.mem_freeVars_mono.mp hmem))
    · split at hy
      · cases hy
        exact absurd hmem (by simp [hc])
      · cases hy
  · rw [hnext] at hi
    interval_cases i
    · exact ha (heq.trans (by decide +kernel))
    · exact hb (heq.trans (by decide +kernel))

/-- With a quantified variable that the run does not draw, its name does not
matter. -/
theorem typing_renamed_openContext :
    (openContext "y").Renamed (openContext "z") ∧
      typing (openContext "z") useAfterBinding = typing (openContext "y") useAfterBinding := by
  have hren : (openContext "y").Renamed (openContext "z") :=
    renamed_openContext (by decide) (by decide)
  have hnext : (supplyAfter (openContext "y") useAfterBinding).next = 2 := by
    simp only [supplyAfter, infer, InferM.unifier, Unify.solve_eq_compute, useAfterBinding]
    decide +kernel
  have hy := not_spoken_openContext (r := "y") (by decide) (by decide) (by decide) hnext
  have hz := not_spoken_openContext (r := "z") (by decide) (by decide) (by decide) hnext
  exact ⟨hren, typing_renamed hren (uncaught_openContext hy) (uncaught_openContext hz)⟩

/-- If `f` quantifies over `a`, the first name of the supply, then binding `c` to
`Int -> a` catches it: `f` gets `b -> Int -> b` in place of `b -> Int -> a`. -/
theorem typing_not_renamed :
    (openContext "z").Renamed (openContext "a") ∧
      typing (openContext "a") useAfterBinding ≠ typing (openContext "z") useAfterBinding := by
  have hfree : typing (openContext "z") useAfterBinding =
      .ok (.ofList [("c", .fn .int (.var "a"))],
        .fn (.var "b") (.fn .int (.var "a"))) := by
    simp only [typing, trace, inferAnew, infer, InferM.unifier, Unify.solve_eq_compute,
      useAfterBinding]
    decide +kernel
  have hcaught : typing (openContext "a") useAfterBinding =
      .ok (.ofList [("c", .fn .int (.var "a"))],
        .fn (.var "b") (.fn .int (.var "b"))) := by
    simp only [typing, trace, inferAnew, infer, InferM.unifier, Unify.solve_eq_compute,
      useAfterBinding]
    decide +kernel
  refine ⟨renamed_openContext (by decide) (by decide), ?_⟩
  rw [hfree, hcaught]
  decide

end LetPoly
