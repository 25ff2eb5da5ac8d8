import LetPoly.Proofs.FreeVariables

/-! # Hygiene of runs

A run speaks only of type variables that are free in the scheme of a free term
variable of its expression, or that it has drawn itself (`Run.mentions`).

A context is *settled* for a supply if none of its free type variables is still
to be drawn, and the quantified variables of an open scheme are neither free in
the context nor still to be drawn.  Runs keep contexts settled
(`Context.Settled.applySubst`, `Context.Settled.bodyContext`), and in a settled
context the substitution of a run catches no quantified variable
(`Run.not_mem_vars_of_mem_apply`).
-/

namespace LetPoly

variable {R : LetRule} {D : Demand} {Γ : Context} {k k' : NameSupply} {e : Expr} {s : Subst}
  {t : Ty}

/-! ## The variables of a run -/

/-- A type variable is free in the scheme of a free term variable of `e`. -/
def Context.FreeFor (Γ : Context) (e : Expr) (v : Name) : Prop :=
  ∃ x σ, e.Free x ∧ Γ.find? x = some σ ∧ v ∈ σ.freeVars

namespace Context.FreeFor

variable {x v : Name}

theorem mem_freeVars (h : Γ.FreeFor e v) : v ∈ Γ.freeVars := by
  obtain ⟨x, σ, -, hx, hv⟩ := h
  exact mem_freeVars_of_find? hx hv

/-- Fewer free term variables leave fewer free type variables. -/
theorem mono {e' : Expr} (he : ∀ y, e.Free y → e'.Free y) (h : Γ.FreeFor e v) :
    Γ.FreeFor e' v := by
  obtain ⟨y, σ, hy, hσ, hv⟩ := h
  exact ⟨y, σ, he y hy, hσ, hv⟩

/-- Under a binder, a variable comes from the new scheme or from around. -/
theorem of_insert {e' : Expr} {σ : Scheme} (he : ∀ y, y ≠ x → e.Free y → e'.Free y)
    (h : Context.FreeFor (Γ.insert x σ) e v) : Γ.FreeFor e' v ∨ v ∈ σ.freeVars := by
  obtain ⟨y, τ, hy, hτ, hv⟩ := h
  rw [NameMap.find?_insert] at hτ
  split at hτ
  · cases hτ
    exact .inr hv
  · next hyx => exact .inl ⟨y, τ, he y hyx hy, hτ, hv⟩

/-- What is free for an expression after a substitution was so before, or was put
there. -/
theorem of_applySubst (h : (Γ.applySubst s).FreeFor e v) : Γ.FreeFor e v ∨ v ∈ s.names := by
  obtain ⟨y, τ, hy, hτ, hv⟩ := h
  rw [find?_applySubst] at hτ
  obtain ⟨σ, hσ, rfl⟩ := Option.map_eq_some_iff.mp hτ
  cases Scheme.mem_names_of_mem_freeVars_applyScheme hv with
  | inl hv => exact .inl ⟨y, σ, hy, hσ, hv⟩
  | inr hv => exact .inr hv

end Context.FreeFor

theorem Run.le (h : Run R D Γ k e s t k') : k ≤ k' := by
  induction h with
  | var _ ht => exact NameSupply.le_of_instantiate ht
  | lit => exact NameSupply.le_refl _
  | abs ha _ ih => exact NameSupply.le_trans (NameSupply.le_of_fresh ha) ih
  | app hr _ _ _ _ _ ihf iha =>
      exact NameSupply.le_trans (NameSupply.le_of_fresh hr) (NameSupply.le_trans ihf iha)
  | letIn _ _ _ ih₁ ih₂ => exact NameSupply.le_trans ih₁ ih₂

/-- A unifier speaks only of variables of the two types. -/
theorem mem_of_mem_names_unify {t u : Ty} (h : unify t u = .ok s) {v : Name} (hv : v ∈ s.names) :
    v ∈ t ∨ v ∈ u := by
  have hs := unify_solved h
  obtain ⟨w, t', hw, heq | hmem⟩ := Subst.mem_names.mp hv
  · exact Unify.mem_names.mp (heq ▸ hs.key_mem hw)
  · exact Unify.mem_names.mp (hs.image_mem hw hmem)

/-- The result of an abstraction speaks of what its body speaks of, and of the
parameter. -/
theorem mem_body_of_mem_abs {a v : Name}
    (hv : v ∈ s.names ∨ v ∈ Ty.fn (s.apply (.var a)) t) : (v ∈ s.names ∨ v ∈ t) ∨ v = a := by
  rcases hv with hv | hv
  · exact .inl (.inl hv)
  · rcases Ty.mem_fn.mp hv with hv | hv
    · rcases Subst.mem_names_of_mem_apply hv with hv | hv
      · exact .inr (Ty.mem_var.mp hv)
      · exact .inl (.inl hv)
    · exact .inl (.inr hv)

/-- The result of an application speaks of what its parts speak of, and of the
variable for the result. -/
theorem mem_parts_of_mem_app {s₁ s₂ s₃ : Subst} {t₁ t₂ : Ty} {r v : Name}
    (hu : unify (s₂.apply t₁) (.fn t₂ (.var r)) = .ok s₃)
    (hv : v ∈ (s₃.compose (s₂.compose s₁)).names ∨ v ∈ s₃.apply (.var r)) :
    (v ∈ s₁.names ∨ v ∈ t₁) ∨ (v ∈ s₂.names ∨ v ∈ t₂) ∨ v = r := by
  have hunifier : v ∈ s₃.names → (v ∈ s₁.names ∨ v ∈ t₁) ∨ (v ∈ s₂.names ∨ v ∈ t₂) ∨ v = r := by
    intro hv
    rcases mem_of_mem_names_unify hu hv with hv | hv
    · rcases Subst.mem_names_of_mem_apply hv with hv | hv
      · exact .inl (.inr hv)
      · exact .inr (.inl (.inl hv))
    · rcases Ty.mem_fn.mp hv with hv | hv
      · exact .inr (.inl (.inr hv))
      · exact .inr (.inr (Ty.mem_var.mp hv))
  rcases hv with hv | hv
  · rcases Subst.mem_names_compose hv with hv | hv
    · exact hunifier hv
    · rcases Subst.mem_names_compose hv with hv | hv
      · exact .inr (.inl (.inl hv))
      · exact .inl (.inl hv)
  · rcases Subst.mem_names_of_mem_apply hv with hv | hv
    · exact .inr (.inr (Ty.mem_var.mp hv))
    · exact hunifier hv

/-- A run speaks only of variables that are free for its expression or drawn on
the way. -/
theorem Run.mentions (h : Run R D Γ k e s t k') {v : Name} (hv : v ∈ s.names ∨ v ∈ t) :
    Γ.FreeFor e v ∨ k.Drawn k' v := by
  induction h generalizing v with
  | @var Γ k k' x σ t hx ht =>
      obtain ⟨ρ, hρ⟩ := exists_freshInstance ht
      rcases hv with hv | hv
      · exact absurd hv (Subst.not_mem_names_empty v)
      · exact (hρ.mem hv).imp_left fun hfree => ⟨x, σ, rfl, hx, hfree⟩
  | @lit Γ k l =>
      rcases hv with hv | hv
      · exact absurd hv (Subst.not_mem_names_empty v)
      · cases l <;> exact absurd hv (by simp [Literal.ty])
  | @abs Γ k k₁ k' x a body s t ha hb ih =>
      have hparam : k.Drawn k' a := (NameSupply.drawn_of_fresh ha).of_le_right hb.le
      rcases mem_body_of_mem_abs hv with hv | rfl
      · rcases ih hv with hfree | hd
        · have habs : ∀ y, y ≠ x → body.Free y → (Expr.abs x body).Free y :=
            fun _ hyx hy => ⟨hyx, hy⟩
          refine (hfree.of_insert habs).imp_right fun hmem => ?_
          rwa [Ty.mem_var.mp (Scheme.mem_freeVars_mono.mp hmem)]
        · exact .inr (hd.of_le_left (NameSupply.le_of_fresh ha))
      · exact .inr hparam
  | @app Γ k k₀ k₁ k₂ r f a s₁ s₂ s₃ t₁ t₂ hr hf ha hu _ _ ihf iha =>
      have hle := NameSupply.le_of_fresh hr
      have hfunc : ∀ {w}, w ∈ s₁.names ∨ w ∈ t₁ → Γ.FreeFor (.app f a) w ∨ k.Drawn k₂ w :=
        fun hw => (ihf hw).imp (.mono fun _ => .inl)
          fun hd => (hd.of_le_left hle).of_le_right ha.le
      rcases mem_parts_of_mem_app hu hv with hv | hv | rfl
      · exact hfunc hv
      · rcases iha hv with hfree | hd
        · rcases hfree.of_applySubst with hfree | hv
          · exact .inl (hfree.mono fun _ => .inr)
          · exact hfunc (.inl hv)
        · exact .inr (hd.of_le_left (NameSupply.le_trans hle hf.le))
      · exact .inr ((NameSupply.drawn_of_fresh hr).of_le_right (NameSupply.le_trans hf.le ha.le))
  | @letIn Γ k k₁ k₂ x e₁ e₂ s₁ s₂ t₁ t₂ h₁ h₂ _ ih₁ ih₂ =>
      have hbound : ∀ {w}, w ∈ s₁.names ∨ w ∈ t₁ →
          Γ.FreeFor (.letIn x e₁ e₂) w ∨ k.Drawn k₂ w :=
        fun hw => (ih₁ hw).imp (.mono fun _ => .inl) fun hd => hd.of_le_right h₂.le
      have hbody : ∀ {w}, w ∈ s₂.names ∨ w ∈ t₂ →
          Γ.FreeFor (.letIn x e₁ e₂) w ∨ k.Drawn k₂ w := by
        intro w hw
        rcases ih₂ hw with hfree | hd
        · rw [LetRule.bodyContext_eq_insert] at hfree
          have hlet : ∀ y, y ≠ x → e₂.Free y → (Expr.letIn x e₁ e₂).Free y :=
            fun _ hyx hy => .inr ⟨hyx, hy⟩
          rcases hfree.of_insert hlet with hfree | hmem
          · exact hfree.of_applySubst.elim .inl fun hw => hbound (.inl hw)
          · rcases Scheme.mem_names_of_mem_freeVars_applyScheme hmem with hmem | hmem
            · exact hbound (.inr (LetRule.mem_freeVars_scheme.mp hmem).1)
            · exact hbound (.inl hmem)
        · exact .inr (hd.of_le_left h₁.le)
      rcases hv with hv | hv
      · rcases LetRule.mem_names_join hv with hv | hv
        · exact hbound (.inl hv)
        · exact hbody (.inl hv)
      · exact hbody (.inr hv)

/-- A run speaks only of free variables of its context and drawn names. -/
theorem Run.within (h : Run R D Γ k e s t k') {v : Name} (hv : v ∈ s.names ∨ v ∈ t) :
    v ∈ Γ.freeVars ∨ k.Drawn k' v :=
  (h.mentions hv).imp_left Context.FreeFor.mem_freeVars

/-! ## Settled contexts -/

/-- No free type variable of the context is still to be drawn, and the
quantified variables of a scheme with free ones are neither free in the context
nor still to be drawn. -/
structure Context.Settled (Γ : Context) (k : NameSupply) : Prop where
  /-- Free variables are not drawn any more. -/
  old : ∀ v, v ∈ Γ.freeVars → ¬ k.Pending v
  /-- The quantified variables of a scheme with free ones are not free elsewhere, nor
  drawn any more. -/
  apart : ∀ x σ v w, Γ.find? x = some σ → w ∈ σ.freeVars → v ∈ σ.vars →
    v ∉ Γ.freeVars ∧ ¬ k.Pending v

namespace Context

/-- A closed context is settled for every supply. -/
theorem Closed.settled (h : Γ.Closed) (k : NameSupply) : Γ.Settled k where
  old v hv := absurd hv (h.not_mem_freeVars v)
  apart x σ _ w hx hw := absurd hw (h x σ hx w)

theorem Settled.mono (h : Γ.Settled k) (hle : k ≤ k') : Γ.Settled k' where
  old v hv hp := h.old v hv (hp.of_le hle)
  apart x σ v w hx hw hv :=
    ⟨(h.apart x σ v w hx hw hv).1, fun hp => (h.apart x σ v w hx hw hv).2 (hp.of_le hle)⟩

/-- Binding a term variable to a fresh type variable. -/
theorem Settled.insert_fresh (h : Γ.Settled k) {a : Name} (ha : k.fresh = (a, k')) (x : Name) :
    Settled (Γ.insert x (.mono (.var a))) k' := by
  have hle := NameSupply.le_of_fresh ha
  have hdrawn := NameSupply.drawn_of_fresh ha
  have hfree : ∀ {v}, v ∈ freeVars (Γ.insert x (.mono (.var a))) → v = a ∨ v ∈ Γ.freeVars := by
    intro v hv
    rcases mem_freeVars_insert hv with hv | hv
    · exact .inl (Ty.mem_var.mp (Scheme.mem_freeVars_mono.mp hv))
    · exact .inr hv
  constructor
  · intro v hv hp
    rcases hfree hv with rfl | hv
    · exact hdrawn.not_pending hp
    · exact h.old v hv (hp.of_le hle)
  · intro y σ v w hy hw hv
    rw [NameMap.find?_insert] at hy
    split at hy
    · cases hy
      exact absurd hv List.not_mem_nil
    · obtain ⟨hnot, hpend⟩ := h.apart y σ v w hy hw hv
      refine ⟨fun hmem => ?_, fun hp => hpend (hp.of_le hle)⟩
      rcases hfree hmem with rfl | hmem
      · exact hpend hdrawn.pending
      · exact hnot hmem

/-- A variable of a settled context or drawn since is not still to be drawn. -/
theorem Settled.not_pending (h : Γ.Settled k) (hle : k ≤ k') {v : Name}
    (hv : v ∈ Γ.freeVars ∨ k.Drawn k' v) : ¬ k'.Pending v := by
  intro hp
  cases hv with
  | inl hv => exact h.old v hv (hp.of_le hle)
  | inr hd => exact hd.not_pending hp

end Context

/-- In a settled context, no image of a run's substitution holds a variable
that an open scheme quantifies. -/
theorem Run.not_mem_vars_of_mem_apply (h : Run R D Γ k e s t k') (hΓ : Γ.Settled k) {x v w : Name}
    {σ : Scheme} (hx : Γ.find? x = some σ) (hw : w ∈ σ.freeVars) (hv : v ∈ s.apply (.var w)) :
    v ∉ σ.vars := by
  intro hq
  obtain ⟨hnot, hpend⟩ := hΓ.apart x σ v w hx hw hq
  rcases Subst.mem_names_of_mem_apply hv with heq | hmem
  · exact hnot (Ty.mem_var.mp heq ▸ Context.mem_freeVars_of_find? hx hw)
  · rcases h.within (.inl hmem) with hmem | hd
    · exact hnot hmem
    · exact hpend hd.pending

namespace Context

/-- The free variables of a scheme after a run were free in the context, or were
drawn. -/
theorem mem_freeVars_applyScheme_run (h : Run R D Γ k e s t k') {v : Name} {x : Name} {σ : Scheme}
    (hx : Γ.find? x = some σ) (hv : v ∈ (s.applyScheme σ).freeVars) :
    v ∈ Γ.freeVars ∨ k.Drawn k' v := by
  cases Scheme.mem_names_of_mem_freeVars_applyScheme hv with
  | inl hv => exact .inl (mem_freeVars_of_find? hx hv)
  | inr hv => exact h.within (.inl hv)

/-- The free variables of the rewritten context are old or were drawn by the
run. -/
theorem mem_freeVars_applySubst_run (h : Run R D Γ k e s t k') {v : Name}
    (hv : v ∈ (Γ.applySubst s).freeVars) : v ∈ Γ.freeVars ∨ k.Drawn k' v := by
  obtain ⟨x, σ, hx, hσ⟩ := mem_freeVars_applySubst hv
  exact mem_freeVars_applyScheme_run h hx hσ

/-- After a run, the rewritten context is settled for the supply that is left. -/
theorem Settled.applySubst (hΓ : Γ.Settled k) (h : Run R D Γ k e s t k') :
    (Γ.applySubst s).Settled k' := by
  constructor
  · exact fun v hv => hΓ.not_pending h.le (mem_freeVars_applySubst_run h hv)
  · intro x σ' v w hx hw hv
    rw [find?_applySubst] at hx
    obtain ⟨σ, hσ, rfl⟩ := Option.map_eq_some_iff.mp hx
    obtain ⟨-, u, hu, -⟩ := Scheme.mem_freeVars_applyScheme.mp hw
    obtain ⟨hnot, hpend⟩ := hΓ.apart x σ v u hσ hu hv
    refine ⟨fun hmem => ?_, fun hp => hpend (hp.of_le h.le)⟩
    rcases mem_freeVars_applySubst_run h hmem with hmem | hd
    · exact hnot hmem
    · exact hpend hd.pending

/-- The free variables of the body's context are old or were drawn for the
bound expression. -/
theorem mem_freeVars_bodyContext_run (h : Run R D Γ k e s t k') {R' : LetRule} {x v : Name}
    (hv : v ∈ (R'.bodyContext Γ x s t).freeVars) : v ∈ Γ.freeVars ∨ k.Drawn k' v := by
  rcases LetRule.mem_freeVars_bodyContext hv with hv | ⟨y, σ, -, hy, hv⟩
  · cases Scheme.mem_names_of_mem_freeVars_applyScheme hv with
    | inl hv => exact h.within (.inr (LetRule.mem_freeVars_scheme.mp hv).1)
    | inr hv => exact h.within (.inl hv)
  · exact mem_freeVars_applyScheme_run h hy hv

/-- After the bound expression, the context of the body is settled for the supply that
is left. -/
theorem Settled.bodyContext (hΓ : Γ.Settled k) (h : Run R D Γ k e s t k') (R' : LetRule)
    (x : Name) : (R'.bodyContext Γ x s t).Settled k' := by
  constructor
  · exact fun v hv => hΓ.not_pending h.le (mem_freeVars_bodyContext_run h hv)
  · intro y σ' v w hy hw hv
    rw [LetRule.find?_bodyContext] at hy
    split at hy
    · cases hy
      obtain ⟨hvt, hscope⟩ := LetRule.mem_vars_scheme.mp hv
      refine ⟨fun hmem => ?_, hΓ.not_pending h.le (h.within (.inr hvt))⟩
      -- a quantified variable is free neither in its own scheme nor in the scope
      rcases LetRule.mem_freeVars_bodyContext hmem with hmem | ⟨z, τ, hzx, hz, hmem⟩
      · exact (Scheme.mem_freeVars_applyScheme.mp hmem).1 hv
      · have hz' : (R'.scope Γ x).find? z = some τ := by rw [LetRule.find?_scope R' Γ hzx, hz]
        exact hscope (mem_freeVars_applySubst_of_find? hz' hmem)
    · obtain ⟨σ, hσ, rfl⟩ := Option.map_eq_some_iff.mp hy
      obtain ⟨-, u, hu, -⟩ := Scheme.mem_freeVars_applyScheme.mp hw
      obtain ⟨hnot, hpend⟩ := hΓ.apart y σ v u hσ hu hv
      refine ⟨fun hmem => ?_, fun hp => hpend (hp.of_le h.le)⟩
      rcases mem_freeVars_bodyContext_run h hmem with hmem | hd
      · exact hnot hmem
      · exact hpend hd.pending

end Context

end LetPoly
