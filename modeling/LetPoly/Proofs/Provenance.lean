import LetPoly.Proofs.Evaluation
import LetPoly.Proofs.Hygiene

/-! # Where the variables of a result come from

Inference may start from any supply and in any context.  Whatever type variables
its result speaks of, each of them is free in the scheme of a free variable of the
expression or was drawn on the way (`Run.mentions`); both can be true of one
variable if the supply does not avoid those of the context.

A run from scratch reserves the free variables of the whole context.  Then no
variable has both origins, and entries that share no variable with those in use
are left alone (`infer_mentions`).
-/

namespace LetPoly

variable {Γ : Context} {k k' : NameSupply} {e : Expr} {s : Subst} {t : Ty} {v : Name}

theorem NameSupply.Drawn.not_mem_reserved (h : k.Drawn k' v) : v ∉ k.reserved := by
  obtain ⟨i, -, -, -, hr⟩ := h
  exact hr

/-- A supply that reserves the free variables of a context draws none of them. -/
theorem Context.not_drawn_of_mem_freeVars (hv : v ∈ Γ.freeVars) :
    ¬ (NameSupply.start Γ.freeVars).Drawn k v :=
  fun hd => hd.not_mem_reserved hv

/-- From scratch, the variables of the substitution and of the type after it come
from the context or were drawn. -/
theorem mentions_of_inferAnew {st st' : InferState}
    (h : (inferAnew Γ e).run st = .ok (s, t) st') (hv : v ∈ s.names ∨ v ∈ t) :
    Γ.FreeFor e v ∨ (NameSupply.start Γ.freeVars).Drawn st'.supply v := by
  obtain ⟨t₀, hrun, rfl⟩ := exists_run_of_inferAnew h
  refine hrun.mentions ?_
  rcases hv with hv | hv
  · exact .inl hv
  · exact (Subst.mem_names_of_mem_apply hv).symm

/-- From scratch, a free variable of the context is mentioned only if it is free
in the scheme of a variable in use. -/
theorem freeFor_of_inferAnew {st st' : InferState}
    (h : (inferAnew Γ e).run st = .ok (s, t) st') (hv : v ∈ s.names ∨ v ∈ t)
    (hΓ : v ∈ Γ.freeVars) : Γ.FreeFor e v :=
  (mentions_of_inferAnew h hv).resolve_right (Context.not_drawn_of_mem_freeVars hΓ)

/-- Inference from any state of the supply moves it forward, and speaks only of
variables that are free for the expression or drawn on the way.  From scratch
these are two different kinds of variables, and an entry of the context that
shares none with the entries in use has no variable that is bound or
mentioned. -/
theorem infer_mentions (Γ : Context) (e : Expr) (st st' : InferState) (s : Subst) (t : Ty) :
    ((infer Γ e).run st = .ok (s, t) st' →
      st.supply.next ≤ st'.supply.next ∧
        ∀ v, v ∈ s.names ∨ v ∈ t → Γ.FreeFor e v ∨ st.supply.Drawn st'.supply v) ∧
    ((inferAnew Γ e).run st = .ok (s, t) st' →
      (∀ v, v ∈ s.names ∨ v ∈ t →
          Γ.FreeFor e v ∨ (NameSupply.start Γ.freeVars).Drawn st'.supply v) ∧
        (∀ v, Γ.FreeFor e v → ¬ (NameSupply.start Γ.freeVars).Drawn st'.supply v) ∧
        ∀ y τ, Γ.find? y = some τ → (∀ v, v ∈ τ.freeVars → ¬ Γ.FreeFor e v) →
          ∀ v, v ∈ τ.freeVars → v ∉ s.names ∧ v ∉ t) := by
  constructor
  · intro h
    rw [infer_eq_inferBy] at h
    have hrun := run_of_inferBy e h
    exact ⟨hrun.le.2, fun v hv => hrun.mentions hv⟩
  · intro h
    refine ⟨fun v hv => mentions_of_inferAnew h hv,
      fun v hv => Context.not_drawn_of_mem_freeVars hv.mem_freeVars, ?_⟩
    intro y τ hy hapart v hv
    have hΓ : v ∈ Γ.freeVars := Context.mem_freeVars_of_find? hy hv
    exact ⟨fun hs => hapart v hv (freeFor_of_inferAnew h (.inl hs) hΓ),
      fun ht => hapart v hv (freeFor_of_inferAnew h (.inr ht) hΓ)⟩

/-- `f : forall a. a -> c`, `x : c` and `y : b -> Int`. -/
def threeEntries : Context :=
  .ofList [("f", ⟨["a"], .fn (.var "a") (.var "c")⟩), ("x", .mono (.var "c")),
    ("y", .mono (.fn (.var "b") .int))]

/-- `f x`, which does not use `y`. -/
def callWithoutY : Expr :=
  .app (.var "f") (.var "x")

/-- The state after inferring `callWithoutY` in `threeEntries` from scratch. -/
def afterCallWithoutY : InferState :=
  ⟨⟨4, .ofList ["b", "c"]⟩,
    #[.instantiate ⟨["a"], .fn (.var "a") (.var "c")⟩ (.fn (.var "d") (.var "c")),
      .instantiate (.mono (.var "c")) (.var "c"), .bind "d" (.var "c"),
      .bind "c" (.var "a")]⟩

/-- The schemes of `f` and `x` have the free variable `c` only. -/
theorem not_freeFor_callWithoutY (hv : v ≠ "c") : ¬ threeEntries.FreeFor callWithoutY v := by
  rintro ⟨x, σ, rfl | rfl, hx, hmem⟩
  · have hf : threeEntries.find? "f" = some ⟨["a"], .fn (.var "a") (.var "c")⟩ := by decide
    rw [hf] at hx
    cases hx
    simp [hv] at hmem
  · have hx' : threeEntries.find? "x" = some (.mono (.var "c")) := by decide
    rw [hx'] at hx
    cases hx
    exact hv (Ty.mem_var.mp (Scheme.mem_freeVars_mono.mp hmem))

/-- The supply passes over `b` and `c`, and the run binds `c`, which is in use, and
the drawn `d`; the `b` of `y` is left alone. -/
theorem infer_mentions_callWithoutY :
    ∃ s t st, (inferAnew threeEntries callWithoutY).run InferM.initial = .ok (s, t) st ∧
      s.keys.toList = ["c", "d"] ∧ t = .var "a" ∧
      (infer threeEntries callWithoutY).run ⟨.start threeEntries.freeVars, #[]⟩ =
        .ok (s, t) st ∧
      (∀ v, v ∈ s.names ∨ v ∈ t → threeEntries.FreeFor callWithoutY v ∨
        (NameSupply.start threeEntries.freeVars).Drawn st.supply v) ∧
      "b" ∉ s.names ∧ "b" ∉ t := by
  have hanew : (inferAnew threeEntries callWithoutY).run InferM.initial =
      .ok (.ofList [("c", .var "a"), ("d", .var "a")], .var "a") afterCallWithoutY := by
    simp only [inferAnew, infer, InferM.unifier, Unify.solve_eq_compute, callWithoutY]
    decide +kernel
  have hinfer : (infer threeEntries callWithoutY).run ⟨.start threeEntries.freeVars, #[]⟩ =
      .ok (.ofList [("c", .var "a"), ("d", .var "a")], .var "a") afterCallWithoutY := by
    simp only [infer, InferM.unifier, Unify.solve_eq_compute, callWithoutY]
    decide +kernel
  have hy : threeEntries.find? "y" = some (.mono (.fn (.var "b") .int)) := by decide
  have hunused : ∀ v, v ∈ (Scheme.mono (.fn (.var "b") .int)).freeVars →
      ¬ threeEntries.FreeFor callWithoutY v := by
    intro v hv
    refine not_freeFor_callWithoutY fun heq => ?_
    rw [heq, Scheme.mem_freeVars_mono] at hv
    simp at hv
  obtain ⟨-, horigin⟩ := (infer_mentions _ _ _ _ _ _).1 hinfer
  obtain ⟨-, -, hspared⟩ := (infer_mentions _ _ _ _ _ _).2 hanew
  have hb := hspared "y" _ hy hunused "b" (Scheme.mem_freeVars_mono.mpr (by simp))
  exact ⟨_, _, _, hanew, by decide, rfl, hinfer, horigin, hb⟩

end LetPoly
