import Mathlib.Data.List.Nodup
import Mathlib.Data.Set.Operations
import LetPoly.Proofs.ArgumentOrder
import LetPoly.Proofs.Evaluation
import LetPoly.Proofs.Hygiene

/-! # Fresh copies of a type

Generalizing a type in a context and instantiating the scheme gives a copy of the
type.  The variables that are free in the context stay, and each of the others gets
a name of its own, which the supply hands out this one time
(`NameSupply.HandsOutOnce`).

The names may be among those that they replace, since all variables are replaced at
once.  They must not be free in the context, though, or two variables of the type
could become one (`FreshInstance.injOn`).  So the free variables of the context have
to be withheld by the supply: reserved, or passed by it (`Context.WithheldBy`).  A run
from scratch starts like that, and hands it on to every call that it makes
(`Call.Makes.withheldBy`), so each `let` of the run generalizes in such a state.
-/

namespace LetPoly

/-! ## Names that are handed out once -/

namespace NameSupply

variable {k : NameSupply} {n : Nat} {v : Name}

/-- The next `n` draws hand the name out, and no other draw does: none since the
supply was started, and none that may follow. -/
def HandsOutOnce (k : NameSupply) (n : Nat) (v : Name) : Prop :=
  (∀ reserved i, ((start reserved).freshMany i).2 = k →
    v ∉ ((start reserved).freshMany i).1) ∧
    ∀ m, (k.freshMany (n + m)).1.count v = 1

/-- A name drawn by the next `n` draws is handed out once. -/
theorem Drawn.handsOutOnce (h : k.Drawn (k.freshMany n).2 v) : k.HandsOutOnce n v := by
  constructor
  · rintro reserved i rfl hmem
    exact (drawn_of_mem_freshMany hmem).not_pending h.pending
  · intro m
    refine List.count_eq_one_of_mem (nodup_freshMany (n + m) k) ?_
    rw [freshMany_add]
    exact List.mem_append_left _ (mem_freshMany_of_drawn h)

/-- The supply does not hand the name out any more: it is reserved or has been
passed. -/
def Withholds (k : NameSupply) (v : Name) : Prop :=
  v ∈ k.reserved ∨ ∃ i, i < k.next ∧ v = Name.ofIndex i

theorem Withholds.not_pending (h : k.Withholds v) : ¬ k.Pending v := by
  rintro ⟨j, hj, hv, hr⟩
  rcases h with hmem | ⟨i, hi, hi'⟩
  · exact hr hmem
  · have := Name.ofIndex_injective (hi'.symm.trans hv)
    omega

theorem Withholds.mono {k' : NameSupply} (h : k.Withholds v) (hle : k ≤ k') : k'.Withholds v := by
  rcases h with hmem | ⟨i, hi, hv⟩
  · exact .inl (hle.1 ▸ hmem)
  · exact .inr ⟨i, Nat.lt_of_lt_of_le hi hle.2, hv⟩

/-- A name that was drawn is withheld from then on. -/
theorem Drawn.withholds {k' : NameSupply} (h : k.Drawn k' v) : k'.Withholds v := by
  obtain ⟨i, -, hi, hv, -⟩ := h
  exact .inr ⟨i, hi, hv⟩

end NameSupply

/-! ## Contexts with withheld variables -/

section Withheld

variable {Γ Δ : Context} {k k' : NameSupply} {e : Expr} {s : Subst} {t : Ty} {x v : Name}
  {σ : Scheme} {st st' : InferState}

namespace Context

/-- The supply withholds every free variable of the context. -/
def WithheldBy (Γ : Context) (k : NameSupply) : Prop :=
  ∀ v, v ∈ Γ.freeVars → k.Withholds v

/-- A supply that starts for a context withholds its free variables. -/
theorem withheldBy_start (Γ : Context) : Γ.WithheldBy (.start Γ.freeVars) :=
  fun _ => .inl

namespace WithheldBy

theorem mono (h : Γ.WithheldBy k) (hle : k ≤ k') : Γ.WithheldBy k' :=
  fun v hv => (h v hv).mono hle

theorem erase (h : Γ.WithheldBy k) (x : Name) : WithheldBy (Γ.erase x) k := by
  intro v hv
  obtain ⟨y, σ, hy, hσ⟩ := mem_freeVars.mp hv
  rw [NameMap.find?_erase] at hy
  split at hy
  · cases hy
  · exact h v (mem_freeVars_of_find? hy hσ)

/-- Inserting a scheme with withheld free variables keeps them withheld. -/
theorem insert (h : Γ.WithheldBy k) (hσ : ∀ v, v ∈ σ.freeVars → k.Withholds v) :
    WithheldBy (Γ.insert x σ) k := by
  intro v hv
  rcases mem_freeVars_insert hv with hv | hv
  · exact hσ v hv
  · exact h v hv

/-- Substituting withheld names keeps them withheld. -/
theorem applySubst (h : Γ.WithheldBy k) (hs : ∀ v, v ∈ s.names → k.Withholds v) :
    (Γ.applySubst s).WithheldBy k := by
  intro v hv
  obtain ⟨y, σ, hy, hσ⟩ := mem_freeVars_applySubst hv
  rcases Scheme.mem_names_of_mem_freeVars_applyScheme hσ with hσ | hv
  · exact h v (mem_freeVars_of_find? hy hσ)
  · exact hs v hv

end WithheldBy

end Context

/-- What a run speaks of was withheld before or has been drawn. -/
theorem withholds_of_infer (h : (infer Γ e).run st = .ok (s, t) st')
    (hΓ : Γ.WithheldBy st.supply) (hv : v ∈ s.names ∨ v ∈ t) : st'.supply.Withholds v := by
  rw [infer_eq_inferBy] at h
  have hrun := run_of_inferBy e h
  rcases hrun.mentions hv with hfree | hdrawn
  · exact (hΓ v hfree.mem_freeVars).mono hrun.le
  · exact hdrawn.withholds

/-- Inference moves the supply on. -/
theorem supply_le_of_infer (h : (infer Γ e).run st = .ok (s, t) st') : st.supply ≤ st'.supply := by
  rw [infer_eq_inferBy] at h
  exact (run_of_inferBy e h).le

/-- A context that was withheld before a run, rewritten by what the run finds. -/
theorem withheldBy_applySubst_of_infer (h : (infer Γ e).run st = .ok (s, t) st')
    (hΓ : Γ.WithheldBy st.supply) (hΔ : Δ.WithheldBy st.supply) :
    (Δ.applySubst s).WithheldBy st'.supply :=
  (hΔ.mono (supply_le_of_infer h)).applySubst fun _ hv => withholds_of_infer h hΓ (.inl hv)

/-- A context stays withheld over a draw, and the drawn name is withheld too. -/
theorem withheldBy_of_fresh {p : Ty} (h : InferM.fresh.run st = .ok p st')
    (hΓ : Γ.WithheldBy st.supply) :
    Γ.WithheldBy st'.supply ∧ ∀ v, v ∈ p → st'.supply.Withholds v := by
  rw [InferM.run_fresh] at h
  cases h
  refine ⟨hΓ.mono (NameSupply.le_of_fresh rfl), fun v hv => ?_⟩
  rw [Ty.mem_var.mp hv]
  exact (NameSupply.drawn_of_fresh rfl).withholds

/-- A call of inference: the expression, with the context and the state that it is
inferred from. -/
structure Call where
  /-- The schemes of the term variables. -/
  context : Context
  /-- The supply and the log at the start of the call. -/
  state : InferState
  /-- The expression. -/
  expr : Expr

/-- The calls that a call makes, after what it does before them. -/
inductive Call.Makes : Call → Call → Prop where
  | param {Γ : Context} {st st₁ : InferState} {x : Name} {p : Ty} {body : Expr} :
      InferM.fresh.run st = .ok p st₁ →
      Makes ⟨Γ, st, .abs x body⟩ ⟨Γ.insert x (.mono p), st₁, body⟩
  | func {Γ : Context} {st st₀ : InferState} {r : Ty} {f a : Expr} :
      InferM.fresh.run st = .ok r st₀ → Makes ⟨Γ, st, .app f a⟩ ⟨Γ, st₀, f⟩
  | arg {Γ : Context} {st st₀ st₁ : InferState} {r t : Ty} {s : Subst} {f a : Expr} :
      InferM.fresh.run st = .ok r st₀ → (infer Γ f).run st₀ = .ok (s, t) st₁ →
      Makes ⟨Γ, st, .app f a⟩ ⟨Γ.applySubst s, st₁, a⟩
  | bound {Γ : Context} {st : InferState} {x : Name} {e₁ e₂ : Expr} :
      Makes ⟨Γ, st, .letIn x e₁ e₂⟩ ⟨Γ, st, e₁⟩
  | body {Γ : Context} {st st₁ st₂ : InferState} {x : Name} {e₁ e₂ : Expr} {s : Subst} {t : Ty}
      {σ : Scheme} :
      (infer Γ e₁).run st = .ok (s, t) st₁ →
      (InferM.generalize (Context.applySubst s (Γ.erase x)) t).run st₁ = .ok σ st₂ →
      Makes ⟨Γ, st, .letIn x e₁ e₂⟩ ⟨Context.applySubst s ((Γ.erase x).insert x σ), st₂, e₂⟩

/-- Every call has a context that is withheld by its supply, if the call that makes it
has. -/
theorem Call.Makes.withheldBy {c d : Call} (h : c.Makes d)
    (hc : c.context.WithheldBy c.state.supply) : d.context.WithheldBy d.state.supply := by
  cases h with
  | param hp =>
      obtain ⟨hΓ, hp⟩ := withheldBy_of_fresh hp hc
      exact hΓ.insert fun v hv => hp v (Scheme.mem_freeVars_mono.mp hv)
  | func hr => exact (withheldBy_of_fresh hr hc).1
  | arg hr hf =>
      have hΓ := (withheldBy_of_fresh hr hc).1
      exact withheldBy_applySubst_of_infer hf hΓ hΓ
  | bound => exact hc
  | @body Γ st st₁ st₂ x e₁ e₂ s t σ h₁ hσ =>
      cases hσ
      have hothers := (hc.mono (supply_le_of_infer h₁)).erase x
      refine (hothers.insert fun v hv => ?_).applySubst fun v hv => withholds_of_infer h₁ hc (.inl hv)
      exact withholds_of_infer h₁ hc (.inr (Context.mem_freeVars_generalize.mp hv).1)

/-- Every call within a call starts in a state that withholds its context, if the first
one does. -/
theorem Call.withheldBy_of_makes {c d : Call} (h : Relation.ReflTransGen Call.Makes c d)
    (hc : c.context.WithheldBy c.state.supply) : d.context.WithheldBy d.state.supply := by
  induction h with
  | refl => exact hc
  | tail _ hstep ih => exact hstep.withheldBy ih

end Withheld

/-! ## Copies -/

variable {Γ : Context} {k k' : NameSupply} {t t' : Ty} {ρ : Name → Name}

/-- An instance of a generalized type keeps the variables of the type apart, if none
of the names it draws is free in the context. -/
theorem FreshInstance.injOn (h : FreshInstance (Γ.generalize t) k k' ρ t')
    (hdrawn : ∀ v, k.Drawn k' v → v ∉ Γ.freeVars) : Set.InjOn ρ {v | v ∈ t} := by
  -- a variable that is not quantified is free in the context and stays
  have hkept : ∀ v, v ∈ t → v ∉ (Γ.generalize t).vars → v ∈ Γ.freeVars ∧ ρ v = v := by
    intro v hv hvars
    refine ⟨?_, h.keeps v hvars⟩
    by_contra hfree
    exact hvars (Context.mem_vars_generalize.mpr ⟨hv, hfree⟩)
  have hmixed : ∀ v w, v ∈ (Γ.generalize t).vars → w ∈ t → w ∉ (Γ.generalize t).vars →
      ρ v ≠ ρ w := by
    intro v w hv hw hwvars heq
    obtain ⟨hfree, hstays⟩ := hkept w hw hwvars
    rw [hstays] at heq
    exact hdrawn _ (h.drawn v hv) (heq ▸ hfree)
  intro v hv w hw heq
  by_cases hvq : v ∈ (Γ.generalize t).vars
  · by_cases hwq : w ∈ (Γ.generalize t).vars
    · exact h.inj v w hvq hwq heq
    · exact absurd heq (hmixed v w hvq hw hwq)
  · by_cases hwq : w ∈ (Γ.generalize t).vars
    · exact absurd heq.symm (hmixed w v hwq hv hvq)
    · rw [(hkept v hv hvq).2, (hkept w hw hwq).2] at heq
      exact heq

/-- Generalizing and instantiating at once draws a fresh copy of the generalized
type. -/
theorem run_generalize_instantiate (Γ : Context) (t : Ty) (st : InferState) :
    ∃ log, (InferM.generalize Γ t >>= InferM.instantiate).run st =
      .ok (st.supply.instantiate (Γ.generalize t)).1
        ⟨(st.supply.instantiate (Γ.generalize t)).2, log⟩ :=
  ⟨_, InferM.run_instantiate (Γ.generalize t) ⟨st.supply, st.log.push (.generalize _)⟩⟩

/-- A copy of a type whose context is withheld by the supply: different variables stay
different, those free in the context stay as they are, and each of the others gets a
name that is not free in the context and that no other draw hands out. -/
theorem exists_freshCopy (t : Ty) {st : InferState} (hΓ : Γ.WithheldBy st.supply) :
    ∃ (ρ : Name → Name) (n : Nat) (st' : InferState),
      (InferM.generalize Γ t >>= InferM.instantiate).run st = .ok (t.rename ρ) st' ∧
        st'.supply = (st.supply.freshMany n).2 ∧
        Set.InjOn ρ {v | v ∈ t} ∧
        (∀ v, v ∈ t → v ∈ Γ.freeVars → ρ v = v) ∧
        ∀ v, v ∈ t → v ∉ Γ.freeVars → ρ v ∉ Γ.freeVars ∧ st.supply.HandsOutOnce n (ρ v) := by
  obtain ⟨log, hrun⟩ := run_generalize_instantiate Γ t st
  obtain ⟨⟨t', k'⟩, hinst⟩ : ∃ r, st.supply.instantiate (Γ.generalize t) = r := ⟨_, rfl⟩
  obtain ⟨ρ, hρ⟩ := exists_freshInstance hinst
  have hcopy : t' = t.rename ρ := hρ.eq_under
  have hk' : k' = (st.supply.freshMany (Γ.generalize t).vars.length).2 :=
    (congrArg Prod.snd hinst).symm
  have hdrawn : ∀ v, st.supply.Drawn k' v → v ∉ Γ.freeVars :=
    fun v hv hmem => (hΓ v hmem).not_pending hv.pending
  rw [hinst, hcopy] at hrun
  refine ⟨ρ, _, ⟨k', log⟩, hrun, hk', hρ.injOn hdrawn, ?_, ?_⟩
  · intro v _ hfree
    exact hρ.keeps v fun hq => (Context.mem_vars_generalize.mp hq).2 hfree
  · intro v hv hfree
    have hv' := hρ.drawn v (Context.mem_vars_generalize.mpr ⟨hv, hfree⟩)
    exact ⟨hdrawn _ hv', (hk' ▸ hv').handsOutOnce⟩

/-- Generalizing and instantiating renames a type, wherever the supply withholds the free
variables of the context: different variables stay different, those free in the context
stay as they are, and each of the others gets a name that is not free in the context and
that no other draw hands out.  In a run from scratch every `let` generalizes in such a
state. -/
theorem instantiate_generalize :
    (∀ (Γ : Context) (t : Ty) (st : InferState), Γ.WithheldBy st.supply →
      ∃ (ρ : Name → Name) (n : Nat) (st' : InferState),
        (InferM.generalize Γ t >>= InferM.instantiate).run st = .ok (t.rename ρ) st' ∧
          st'.supply = (st.supply.freshMany n).2 ∧
          Set.InjOn ρ {v | v ∈ t} ∧
          (∀ v, v ∈ t → v ∈ Γ.freeVars → ρ v = v) ∧
          ∀ v, v ∈ t → v ∉ Γ.freeVars → ρ v ∉ Γ.freeVars ∧ st.supply.HandsOutOnce n (ρ v)) ∧
      ∀ (Γ Δ : Context) (log : Array Event) (st st₁ : InferState) (e e₁ e₂ : Expr) (x : Name)
        (s : Subst) (t : Ty),
        Relation.ReflTransGen Call.Makes ⟨Γ, ⟨.start Γ.freeVars, log⟩, e⟩
          ⟨Δ, st, .letIn x e₁ e₂⟩ →
        (infer Δ e₁).run st = .ok (s, t) st₁ →
        (Context.applySubst s (Δ.erase x)).WithheldBy st₁.supply := by
  refine ⟨fun Γ t st hΓ => exists_freshCopy t hΓ, ?_⟩
  intro Γ Δ log st st₁ e e₁ e₂ x s t hcalls hbound
  have hΔ : Δ.WithheldBy st.supply := Call.withheldBy_of_makes hcalls Γ.withheldBy_start
  exact withheldBy_applySubst_of_infer hbound hΔ (hΔ.erase x)

/-- The context `x : c`. -/
def openX : Context :=
  .ofList [("x", .mono (.var "c"))]

/-- The type `(b -> c) -> d -> a`. -/
def mixedType : Ty :=
  .fn (.fn (.var "b") (.var "c")) (.fn (.var "d") (.var "a"))

/-- One name has been drawn, and `c` is reserved. -/
def afterOneDraw : InferState :=
  ⟨⟨1, .ofList ["c"]⟩, #[]⟩

/-- The context `x : c, y : a`. -/
def openXY : Context :=
  openX.insert "y" (.mono (.var "a"))

/-- The names `b`, `d` and `e` come next.  They replace `a`, `b` and `d`, and no
variable is replaced twice.  The `let` of `\y -> let g = y in x` is reached in that
state, with `c` reserved and `a` passed. -/
theorem instantiate_generalize_overlap :
    (openX.WithheldBy afterOneDraw.supply ∧
      ∃ (ρ : Name → Name) (n : Nat) (st : InferState),
        (InferM.generalize openX mixedType >>= InferM.instantiate).run afterOneDraw =
          .ok (.fn (.fn (.var "d") (.var "c")) (.fn (.var "e") (.var "b"))) st ∧
        mixedType.rename ρ = .fn (.fn (.var "d") (.var "c")) (.fn (.var "e") (.var "b")) ∧
        Set.InjOn ρ {v | v ∈ mixedType} ∧
        "b" ∉ openX.freeVars ∧ afterOneDraw.supply.HandsOutOnce n "b") ∧
      ∃ st : InferState, (infer openXY (.var "y")).run afterOneDraw = .ok (∅, .var "a") st ∧
        (Context.applySubst ∅ (openXY.erase "g")).WithheldBy st.supply := by
  have hfree : openX.freeVars = afterOneDraw.supply.reserved := by decide +kernel
  have hwithheld : openX.WithheldBy afterOneDraw.supply := fun v hv => .inl (hfree ▸ hv)
  have hrun : ∃ st, (InferM.generalize openX mixedType >>= InferM.instantiate).run afterOneDraw =
      .ok (.fn (.fn (.var "d") (.var "c")) (.fn (.var "e") (.var "b"))) st := by decide +kernel
  obtain ⟨st, hst⟩ := hrun
  obtain ⟨ρ, n, st', hcopy, -, hinj, -, hfresh⟩ :=
    instantiate_generalize.1 openX mixedType afterOneDraw hwithheld
  rw [hst] at hcopy
  have hrename := (EStateM.Result.ok.inj hcopy).1
  have ha : ρ "a" = "b" := by
    simpa [mixedType] using (Ty.fn.inj (Ty.fn.inj hrename).2).2.symm
  have hb := hfresh "a" (by decide) (by rw [hfree]; decide)
  rw [ha] at hb
  refine ⟨⟨hwithheld, ρ, n, st, hst, hrename.symm, hinj, hb⟩, ?_⟩
  have hparam : InferM.fresh.run ⟨.start openX.freeVars, #[]⟩ =
      .ok (.var "a") afterOneDraw := by decide +kernel
  have hbound : ∃ st, (infer openXY (.var "y")).run afterOneDraw = .ok (∅, .var "a") st :=
    by decide +kernel
  obtain ⟨st₁, hst₁⟩ := hbound
  exact ⟨st₁, hst₁, instantiate_generalize.2 openX openXY #[] afterOneDraw st₁
    (.abs "y" (.letIn "g" (.var "y") (.var "x"))) (.var "y") (.var "x") "g" ∅ (.var "a")
    (.single (.param hparam)) hst₁⟩

/-- Where nothing is reserved, the name that `b` gets may be the `a` of the context. -/
example : ∃ st, (InferM.generalize (.ofList [("x", .mono (.var "a"))])
    (.fn (.var "a") (.var "b")) >>= InferM.instantiate).run InferM.initial =
      .ok (.fn (.var "a") (.var "a")) st :=
  by decide +kernel

end LetPoly
