import LetPoly.Proofs.Evaluation
import LetPoly.Proofs.LetScope

/-! # Renaming bound term variables

Two expressions are alpha-equivalent if they differ only in the names of
parameters and of `let`s (`AlphaEquiv`).  Going under binders, the names that
correspond to each other are kept as a list of pairs, innermost first.

Inference in which the older binding of a rebound name counts gives the same
result for alpha-equivalent expressions (`typingBy_alphaEquiv`).  The rule of
`infer` drops the older binding, so its result may depend on names: in
`\x -> let x = x in x` the new `x` gets a type of its own, in
`\x -> let y = x in y` it does not.
-/

namespace LetPoly

open InferM

variable {R : LetRule} {Γ Γ' : Context} {k limit : NameSupply} {e e' : Expr} {x y : Name}
  {ps : List (Name × Name)}

/-! ## Alpha-equivalence -/

/-- Two names correspond to each other under paired binders, innermost first: they
are bound by the same pair, or they are equal and free. -/
def Linked : List (Name × Name) → Name → Name → Prop
  | [], x, y => x = y
  | (a, b) :: ps, x, y => (x = a ∧ y = b) ∨ (x ≠ a ∧ y ≠ b ∧ Linked ps x y)

/-- Two expressions are equal up to the names that they bind, where `ps` pairs the
binders around them. -/
inductive AlphaEquiv : List (Name × Name) → Expr → Expr → Prop where
  | var {ps : List (Name × Name)} {x y : Name} : Linked ps x y → AlphaEquiv ps (.var x) (.var y)
  | lit {ps : List (Name × Name)} {l : Literal} : AlphaEquiv ps (.lit l) (.lit l)
  | app {ps : List (Name × Name)} {f f' a a' : Expr} :
      AlphaEquiv ps f f' → AlphaEquiv ps a a' → AlphaEquiv ps (.app f a) (.app f' a')
  | abs {ps : List (Name × Name)} {x y : Name} {body body' : Expr} :
      AlphaEquiv ((x, y) :: ps) body body' → AlphaEquiv ps (.abs x body) (.abs y body')
  | letIn {ps : List (Name × Name)} {x y : Name} {e₁ e₁' e₂ e₂' : Expr} :
      AlphaEquiv ps e₁ e₁' → AlphaEquiv ((x, y) :: ps) e₂ e₂' →
      AlphaEquiv ps (.letIn x e₁ e₂) (.letIn y e₁' e₂')

/-- Free variables have free partners. -/
theorem AlphaEquiv.exists_free_right (h : AlphaEquiv ps e e') (hx : e.Free x) :
    ∃ y, Linked ps x y ∧ e'.Free y := by
  induction h generalizing x with
  | @var ps z y hzy => exact ⟨y, hx ▸ hzy, rfl⟩
  | lit => exact absurd hx id
  | app _ _ ihf iha =>
      rcases hx with hx | hx
      · obtain ⟨y, hy, hfree⟩ := ihf hx
        exact ⟨y, hy, .inl hfree⟩
      · obtain ⟨y, hy, hfree⟩ := iha hx
        exact ⟨y, hy, .inr hfree⟩
  | abs _ ih =>
      obtain ⟨hne, hx⟩ := hx
      obtain ⟨y, ⟨heq, -⟩ | ⟨-, hy, hlink⟩, hfree⟩ := ih hx
      · exact absurd heq hne
      · exact ⟨y, hlink, hy, hfree⟩
  | letIn _ _ ih₁ ih₂ =>
      rcases hx with hx | ⟨hne, hx⟩
      · obtain ⟨y, hy, hfree⟩ := ih₁ hx
        exact ⟨y, hy, .inl hfree⟩
      · obtain ⟨y, ⟨heq, -⟩ | ⟨-, hy, hlink⟩, hfree⟩ := ih₂ hx
        · exact absurd heq hne
        · exact ⟨y, hlink, .inr ⟨hy, hfree⟩⟩

theorem Linked.swap : ∀ {ps : List (Name × Name)} {x y : Name},
    Linked ps x y → Linked (ps.map Prod.swap) y x
  | [], _, _, h => h.symm
  | (_, _) :: _, _, _, .inl ⟨hx, hy⟩ => .inl ⟨hy, hx⟩
  | (_, _) :: _, _, _, .inr ⟨hx, hy, h⟩ => .inr ⟨hy, hx, h.swap⟩

/-- The relation is symmetric, with the pairs of binders exchanged. -/
theorem AlphaEquiv.swap (h : AlphaEquiv ps e e') : AlphaEquiv (ps.map Prod.swap) e' e := by
  induction h with
  | var h => exact .var h.swap
  | lit => exact .lit
  | app _ _ ihf iha => exact .app ihf iha
  | abs _ ih => exact .abs ih
  | letIn _ _ ih₁ ih₂ => exact .letIn ih₁ ih₂

/-- A free variable on the right corresponds to one on the left. -/
theorem AlphaEquiv.exists_free_left (h : AlphaEquiv ps e e') (hy : e'.Free y) :
    ∃ x, Linked ps x y ∧ e.Free x := by
  obtain ⟨x, hlink, hfree⟩ := h.swap.exists_free_right hy
  have hback := hlink.swap
  rw [List.map_map, Prod.swap_swap_eq, List.map_id] at hback
  exact ⟨x, hback, hfree⟩

/-! ## Matching contexts -/

/-- Corresponding names have the same scheme, or are unbound and equal. -/
def Context.Match (ps : List (Name × Name)) (e : Expr) (Γ Γ' : Context) : Prop :=
  ∀ x y, Linked ps x y → e.Free x → Γ'.find? y = Γ.find? x ∧ (Γ.find? x = none → y = x)

namespace Context.Match

theorem self (e : Expr) (Γ : Context) : Match [] e Γ Γ := by
  rintro x y rfl _
  exact ⟨rfl, fun _ => rfl⟩

theorem mono {e₁ : Expr} (h : Match ps e Γ Γ') (he : ∀ x, e₁.Free x → e.Free x) :
    Match ps e₁ Γ Γ' :=
  fun x y hlink hx => h x y hlink (he x hx)

/-- Substitutions keep a match, as matched names have the same scheme. -/
theorem applySubst (h : Match ps e Γ Γ') (s : Subst) :
    Match ps e (Γ.applySubst s) (Γ'.applySubst s) := by
  intro x y hlink hx
  obtain ⟨hfind, hnone⟩ := h x y hlink hx
  rw [find?_applySubst, find?_applySubst, hfind]
  exact ⟨rfl, fun h => hnone (Option.map_eq_none_iff.mp h)⟩

/-- Under a pair of binders with one scheme. -/
theorem insert {e₁ : Expr} (h : Match ps e Γ Γ') (he : ∀ z, z ≠ x → e₁.Free z → e.Free z)
    (σ : Scheme) : Match ((x, y) :: ps) e₁ (Γ.insert x σ) (Γ'.insert y σ) := by
  intro z z' hlink hz
  rw [NameMap.find?_insert, NameMap.find?_insert]
  rcases hlink with ⟨rfl, rfl⟩ | ⟨hzx, hzy, hlink⟩
  · rw [if_pos rfl, if_pos rfl]
    exact ⟨rfl, fun h => absurd h (by simp)⟩
  · rw [if_neg hzx, if_neg hzy]
    exact h z z' hlink (he z hzx hz)

/-- Matching contexts have the same free variables for alpha-equivalent
expressions. -/
theorem freeFor_iff (h : Match ps e Γ Γ') (he : AlphaEquiv ps e e') {v : Name} :
    Γ'.FreeFor e' v ↔ Γ.FreeFor e v := by
  constructor
  · rintro ⟨y, σ, hy, hσ, hv⟩
    obtain ⟨x, hlink, hx⟩ := he.exists_free_left hy
    exact ⟨x, σ, hx, (h x y hlink hx).1 ▸ hσ, hv⟩
  · rintro ⟨x, σ, hx, hσ, hv⟩
    obtain ⟨y, hlink, hy⟩ := he.exists_free_right hx
    exact ⟨y, σ, hy, (h x y hlink hx).1.trans hσ, hv⟩

end Context.Match

/-! ## Inference that heeds older bindings -/

/-- Along the derivation of the equivalence, both inferences draw the same names and
find the same, if the older binding of a name counts. -/
theorem follows_alphaEquiv (hR : R.heedsOld = true) (h : AlphaEquiv ps e e') :
    ∀ {Γ Γ' : Context} {k : NameSupply}, Γ.Settled k → Γ'.Settled k → Context.Match ps e Γ Γ' →
      Follows limit k (inferBy R Γ e) (inferBy R Γ' e') := by
  induction h with
  | @var ps x y hlink =>
      intro Γ Γ' k _ _ hm
      obtain ⟨hfind, hnone⟩ := hm x y hlink rfl
      exact follows_var (fun σ hx => ⟨σ, hfind.trans hx, rfl⟩) fun hx =>
        ⟨hfind.trans hx, hnone hx⟩
  | lit => exact fun _ _ _ => follows_pure _
  | @app ps f f' a a' _ _ ihf iha =>
      intro Γ Γ' k hΓ hΓ' hm
      refine follows_app fun r k₀ hr => ?_
      have hle := NameSupply.le_of_fresh hr
      have hΓ₀ := hΓ.mono hle
      have hΓ₀' := hΓ'.mono hle
      refine ⟨ihf hΓ₀ hΓ₀' (hm.mono fun _ => .inl), fun s t k₁ hf hf' _ => ?_⟩
      exact iha (hΓ₀.applySubst hf) (hΓ₀'.applySubst hf') ((hm.mono fun _ => .inr).applySubst s)
  | @abs ps x y body body' _ ih =>
      intro Γ Γ' k hΓ hΓ' hm
      refine follows_abs fun a k₁ ha _ => ?_
      exact ih (hΓ.insert_fresh ha x) (hΓ'.insert_fresh ha y)
        (hm.insert (fun _ hne hz => ⟨hne, hz⟩) _)
  | @letIn ps x y e₁ e₁' e₂ e₂' he₁ _ ih₁ ih₂ =>
      intro Γ Γ' k hΓ hΓ' hm
      have hm₁ : Context.Match ps e₁ Γ Γ' := hm.mono fun _ => .inl
      refine follows_letIn rfl (ih₁ hΓ hΓ' hm₁) fun s t k₁ h₁ h₁' _ => ?_
      have hscheme : R.scheme Γ' y s t = R.scheme Γ x s t := by
        refine Context.generalize_congr fun v hv => ?_
        rw [h₁'.mem_scope_iff hΓ' (.inl hR) hv, h₁.mem_scope_iff hΓ (.inl hR) hv]
        exact (hm₁.applySubst s).freeFor_iff he₁
      refine ⟨hscheme, ih₂ (hΓ.bodyContext h₁ R x) (hΓ'.bodyContext h₁' R y) ?_⟩
      rw [LetRule.bodyContext_eq_insert, LetRule.bodyContext_eq_insert, hscheme]
      exact (hm.applySubst s).insert (fun _ hne hz => .inr ⟨hne, hz⟩) _

/-- If the older binding of a name counts, what is found does not depend on the names of
bound variables. -/
theorem typingBy_alphaEquiv (hR : R.heedsOld = true) (hΓ : Γ.Closed) (h : AlphaEquiv [] e e') :
    typingBy R Γ e' = typingBy R Γ e :=
  typingBy_eq_of_follows rfl
    (follows_alphaEquiv hR h (hΓ.settled _) (hΓ.settled _) (.self e Γ))

/-! ## The rule of `infer` -/

/-- If no `let` of `e` takes an open name for itself and mentions it, then a
renaming of `e` gets the same result exactly if older bindings make no difference
to it, and always if it is of this kind too. -/
theorem typing_alphaEquiv_iff (hΓ : Γ.Closed) (h : AlphaEquiv [] e e') (he : e.RebindsClosed []) :
    (typing Γ e' = typing Γ e ↔ typing Γ e' = typingBy .heedful Γ e') ∧
      (e'.RebindsClosed [] → typing Γ e' = typing Γ e) := by
  have hsame : typingBy .heedful Γ e' = typing Γ e := by
    rw [typingBy_alphaEquiv rfl hΓ h, typing_eq_heedful hΓ he]
  constructor
  · rw [hsame]
  · intro he'
    rw [typing_eq_heedful hΓ he', hsame]

/-- `let id = \x -> x in \y -> let id = id in id y`, where the inner `let` takes the
name of a closed one, and the same with four different names. -/
theorem typing_alphaEquiv_iff_shared :
    AlphaEquiv []
        (.letIn "id" (.abs "x" (.var "x")) (.abs "y" (.letIn "id" (.var "id")
          (.app (.var "id") (.var "y")))))
        (.letIn "f" (.abs "y" (.var "y")) (.abs "x" (.letIn "g" (.var "f")
          (.app (.var "g") (.var "x"))))) ∧
      typing ∅ (.letIn "f" (.abs "y" (.var "y")) (.abs "x" (.letIn "g" (.var "f")
          (.app (.var "g") (.var "x"))))) =
        typing ∅ (.letIn "id" (.abs "x" (.var "x")) (.abs "y" (.letIn "id" (.var "id")
          (.app (.var "id") (.var "y"))))) := by
  have halpha : AlphaEquiv []
      (.letIn "id" (.abs "x" (.var "x")) (.abs "y" (.letIn "id" (.var "id")
        (.app (.var "id") (.var "y")))))
      (.letIn "f" (.abs "y" (.var "y")) (.abs "x" (.letIn "g" (.var "f")
        (.app (.var "g") (.var "x"))))) :=
    .letIn (.abs (.var (by simp [Linked]))) (.abs (.letIn (.var (by simp [Linked]))
      (.app (.var (by simp [Linked])) (.var (by simp [Linked])))))
  exact ⟨halpha, (typing_alphaEquiv_iff Context.closed_empty halpha (by decide)).2 (by decide)⟩

/-- A `let` that takes the name of the parameter it binds: `\x -> let x = x in x`
gets `a -> b`, and `\x -> let y = x in y` gets `a -> a`. -/
theorem typing_not_alphaEquiv :
    AlphaEquiv [] (.abs "x" (.letIn "y" (.var "x") (.var "y")))
        (.abs "x" (.letIn "x" (.var "x") (.var "x"))) ∧
      typing ∅ (.abs "x" (.letIn "x" (.var "x") (.var "x"))) ≠
        typing ∅ (.abs "x" (.letIn "y" (.var "x") (.var "y"))) := by
  have hkept : typing ∅ (.abs "x" (.letIn "y" (.var "x") (.var "y"))) =
      .ok (∅, .fn (.var "a") (.var "a")) := by decide +kernel
  have hrebound : typing ∅ (.abs "x" (.letIn "x" (.var "x") (.var "x"))) =
      .ok (∅, .fn (.var "a") (.var "b")) := by decide +kernel
  refine ⟨.abs (.letIn (.var (by simp [Linked])) (.var (by simp [Linked]))), ?_⟩
  rw [hkept, hrebound]
  decide

end LetPoly
