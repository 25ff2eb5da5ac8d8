import LetPoly.Subst.Solved

/-! # Unification

Equations between types are solved by recursion on both sides at once: the
domains of two function types first, then the codomains under the unifier of
the domains.  Under that unifier the codomains may grow, so the recursion ends
because the number of distinct variables drops wherever the types change
(`Unify.rank_codomains`).  The result therefore carries the proof that it is
in solved form over the variables of the equation.

`unify` is the unifier alone, `Unify.bindings` the variables in the order in
which they were bound, and `Unify.compositions` the substitutions that were
composed; `unify_fn` and its companions are their equations.
-/

namespace LetPoly

/-- Why two types have no unifier. -/
inductive UnifyError where
  | mismatch (left right : Ty)
  | occurs (var : Name) (ty : Ty)
deriving DecidableEq

namespace UnifyError

/-- The text of the error. -/
def message : UnifyError → String
  | .mismatch left right => "types do not unify: " ++ left.render ++ " vs. " ++ right.render
  | .occurs var ty => "occurs check fails: " ++ var ++ " vs. " ++ ty.render

end UnifyError

namespace Unify

/-- What solving an equation over `names` yields.  An equation that fails may
have bound variables and composed substitutions on the way. -/
structure Outcome (names : NameSet) where
  /-- The bindings made, in order. -/
  bindings : List (Name × Ty)
  /-- The two arguments of every composition made, in order. -/
  compositions : List (Subst × Subst)
  /-- A unifier in solved form, or the reason why there is none. -/
  result : Except UnifyError {s : Subst // s.Solved names}

namespace Outcome

/-- The unifier without its proof. -/
def unifier {names : NameSet} (o : Outcome names) : Except UnifyError Subst :=
  o.result.map (·.1)

/-- An outcome that needs no binding. -/
def trivial (names : NameSet) : Outcome names :=
  ⟨[], [], .ok ⟨∅, Subst.solved_empty names⟩⟩

/-- An outcome that fails at once. -/
def fail (names : NameSet) (e : UnifyError) : Outcome names :=
  ⟨[], [], .error e⟩

/-- Bind a variable to a type.  A variable is not bound to itself, and not to
a larger type in which it occurs. -/
def bind (v : Name) (t : Ty) (names : NameSet) (hv : v ∈ names) (ht : ∀ w, w ∈ t → w ∈ names) :
    Outcome names :=
  if t = .var v then trivial names
  else if hocc : v ∈ t then fail names (.occurs v t)
  else ⟨[(v, t)], [], .ok ⟨NameMap.single v t, Subst.solved_single hv ht hocc⟩⟩

end Outcome

/-! ## The order of equations -/

/-- The variables of an equation. -/
def names (t u : Ty) : NameSet :=
  t.freeVars ∪ u.freeVars

@[simp]
theorem mem_names {t u : Ty} {v : Name} : v ∈ names t u ↔ v ∈ t ∨ v ∈ u := by
  simp [names]

/-- Equations are ordered by the number of their variables, then by the size of
the left side. -/
def rank (t u : Ty) : Nat × Nat :=
  ((names t u).size, t.size)

/-- The variables of the domains are among those of the function types. -/
theorem names_domains (a b c d : Ty) : names a c ⊆ names (.fn a b) (.fn c d) := by
  intro v hv
  simp only [mem_names, Ty.mem_fn] at hv ⊢
  exact hv.imp .inl .inl

/-- After the domains are solved, the codomains mention no new variables. -/
theorem names_codomains {a b c d : Ty} {s : Subst} (hs : s.Solved (names a c)) :
    names (s.apply b) (s.apply d) ⊆ names (.fn a b) (.fn c d) := by
  intro v hv
  have hs' := hs.mono (names_domains a b c d)
  simp only [mem_names] at hv
  cases hv with
  | inl hv => exact (hs'.mem_apply (fun w hw => by simp [hw]) hv).1
  | inr hv => exact (hs'.mem_apply (fun w hw => by simp [hw]) hv).1

/-- After the domains are solved, the codomains mention no solved variable. -/
theorem unbound_codomains {a b c d : Ty} {s : Subst} (hs : s.Solved (names a c)) {v : Name}
    (hv : v ∈ names (s.apply b) (s.apply d)) : s.find? v = none := by
  have hs' := hs.mono (names_domains a b c d)
  simp only [mem_names] at hv
  cases hv with
  | inl hv => exact (hs'.mem_apply (fun w hw => by simp [hw]) hv).2
  | inr hv => exact (hs'.mem_apply (fun w hw => by simp [hw]) hv).2

/-- The unifiers of the domains and of the codomains compose to a solved form. -/
theorem solved_compose {a b c d : Ty} {s₁ s₂ : Subst} (h₁ : s₁.Solved (names a c))
    (h₂ : s₂.Solved (names (s₁.apply b) (s₁.apply d))) :
    (s₂.compose s₁).Solved (names (.fn a b) (.fn c d)) :=
  (h₁.mono (names_domains a b c d)).compose h₂ (names_codomains h₁) fun _ hv =>
    unbound_codomains h₁ hv

/-- The equation of the domains is smaller. -/
theorem rank_domains (a b c d : Ty) :
    Prod.Lex (· < ·) (· < ·) (rank a c) (rank (.fn a b) (.fn c d)) := by
  refine Prod.Lex.right' _ (NameSet.size_le_of_subset (names_domains a b c d)) ?_
  simp only [Ty.size]
  omega

/-- If the unifier of the domains binds a variable, that variable is gone from the
codomains. -/
theorem size_names_codomains_lt {a b c d : Ty} {s : Subst} (hs : s.Solved (names a c))
    (hne : s ≠ ∅) :
    (names (s.apply b) (s.apply d)).size < (names (.fn a b) (.fn c d)).size := by
  obtain ⟨v, hv⟩ : ∃ v, v ∈ s.keys := by
    refine Classical.byContradiction fun hno => hne ?_
    exact NameMap.eq_empty_iff.mpr fun v hv => hno ⟨v, hv⟩
  obtain ⟨t, hf⟩ := NameMap.mem_keys_iff.mp hv
  refine NameSet.size_lt_of_subset (names_codomains hs)
    (names_domains a b c d v (hs.key_mem hf)) fun hmem => ?_
  rw [unbound_codomains hs hmem] at hf
  cases hf

/-- The equation of the codomains is smaller: they have fewer variables, or they
are as they were. -/
theorem rank_codomains {a b c d : Ty} {s : Subst} (hs : s.Solved (names a c)) :
    Prod.Lex (· < ·) (· < ·) (rank (s.apply b) (s.apply d)) (rank (.fn a b) (.fn c d)) := by
  by_cases hempty : s = ∅
  · subst hempty
    refine Prod.Lex.right' _ (NameSet.size_le_of_subset (names_codomains hs)) ?_
    simp only [Subst.apply_empty, Ty.size]
    omega
  · exact Prod.Lex.left _ _ (size_names_codomains_lt hs hempty)

/-! ## Solving -/

/-- Bind a variable on the left. -/
abbrev bindLeft (v : Name) (u : Ty) : Outcome (names (.var v) u) :=
  .bind v u _ (by simp) fun w hw => by simp [hw]

/-- Bind a variable on the right. -/
abbrev bindRight (t : Ty) (v : Name) : Outcome (names t (.var v)) :=
  .bind v t _ (by simp) fun w hw => by simp [hw]

/-- Solve an equation between two types.  A variable on the left is bound
before one on the right. -/
def solve (t u : Ty) : Outcome (names t u) :=
  match t, u with
  | .fn a b, .fn c d =>
      match solve a c with
      | ⟨bs₁, cs₁, .error e⟩ => ⟨bs₁, cs₁, .error e⟩
      | ⟨bs₁, cs₁, .ok ⟨s₁, h₁⟩⟩ =>
          match solve (s₁.apply b) (s₁.apply d) with
          | ⟨bs₂, cs₂, .error e⟩ => ⟨bs₁ ++ bs₂, cs₁ ++ cs₂, .error e⟩
          | ⟨bs₂, cs₂, .ok ⟨s₂, h₂⟩⟩ =>
              ⟨bs₁ ++ bs₂, cs₁ ++ cs₂ ++ [(s₂, s₁)],
                .ok ⟨s₂.compose s₁, solved_compose h₁ h₂⟩⟩
  | .var v, u => bindLeft v u
  | t, .var v => bindRight t v
  | .int, .int => .trivial _
  | .bool, .bool => .trivial _
  | t, u => .fail _ (.mismatch t u)
termination_by rank t u
decreasing_by
  · exact rank_domains a b c d
  · exact rank_codomains h₁

/-- The bindings made while solving an equation, in order. -/
def bindings (t u : Ty) : List (Name × Ty) :=
  (solve t u).bindings

/-- The compositions made while solving an equation, in order.  Each is given by
its two arguments, the unifier of the codomains and before it that of the
domains. -/
def compositions (t u : Ty) : List (Subst × Subst) :=
  (solve t u).compositions

end Unify

/-- The most general unifier of two types. -/
def unify (t u : Ty) : Except UnifyError Subst :=
  (Unify.solve t u).unifier

/-- The most general unifier of a variable and a type. -/
def bindVar (v : Name) (t : Ty) : Except UnifyError Subst :=
  if t = .var v then .ok ∅
  else if v ∈ t then .error (.occurs v t)
  else .ok (NameMap.single v t)

/-- Unify two types under a substitution: the unifier of what they are under it,
and the substitution followed by that unifier. -/
def Subst.refine (s : Subst) (t u : Ty) : Except UnifyError (Subst × Subst) :=
  (unify (s.apply t) (s.apply u)).map fun r => (r, r.compose s)

/-! ## Equations -/

theorem Unify.Outcome.unifier_bind (v : Name) (t : Ty) (names : NameSet) (hv : v ∈ names)
    (ht : ∀ w, w ∈ t → w ∈ names) : (Outcome.bind v t names hv ht).unifier = bindVar v t := by
  rw [Outcome.bind, bindVar]
  split
  · rfl
  · split <;> rfl

/-- A variable on the left is bound to the other side. -/
theorem unify_var_left (v : Name) (u : Ty) : unify (.var v) u = bindVar v u := by
  rw [unify, Unify.solve]
  exact Unify.Outcome.unifier_bind ..

/-- A variable on the right is bound to the other side, unless that is a variable
too. -/
theorem unify_var_right {t : Ty} (v : Name) (ht : ∀ w, t ≠ .var w) :
    unify t (.var v) = bindVar v t := by
  rw [unify, Unify.solve]
  · exact Unify.Outcome.unifier_bind ..
  · exact ht

/-- Function types are unified domain first, and the codomains under what was found for
the domains. -/
theorem unify_fn (a b c d : Ty) :
    unify (.fn a b) (.fn c d) = (do
      let s₁ ← unify a c
      let s₂ ← unify (s₁.apply b) (s₁.apply d)
      pure (s₂.compose s₁)) := by
  rw [unify, Unify.solve, unify]
  rcases Unify.solve a c with ⟨bs₁, cs₁, e | ⟨s₁, h₁⟩⟩
  · rfl
  · simp only [Unify.Outcome.unifier, Except.map, bind, Except.bind, unify]
    rcases Unify.solve (s₁.apply b) (s₁.apply d) with ⟨bs₂, cs₂, e | ⟨s₂, h₂⟩⟩ <;> rfl

/-- The domains bind first; the codomains bind only if the domains unify. -/
theorem Unify.bindings_fn (a b c d : Ty) :
    bindings (.fn a b) (.fn c d) = bindings a c ++
      match unify a c with
      | .ok s => bindings (s.apply b) (s.apply d)
      | .error _ => [] := by
  rw [bindings, solve, bindings, unify]
  rcases solve a c with ⟨bs₁, cs₁, e | ⟨s₁, h₁⟩⟩
  · simp [Outcome.unifier, Except.map]
  · simp only [Outcome.unifier, Except.map, bindings]
    rcases solve (s₁.apply b) (s₁.apply d) with ⟨bs₂, cs₂, e | ⟨s₂, h₂⟩⟩ <;> rfl

/-- The unifiers of the domains and of the codomains are composed last. -/
theorem Unify.compositions_fn (a b c d : Ty) :
    compositions (.fn a b) (.fn c d) = compositions a c ++
      match unify a c with
      | .ok s₁ => compositions (s₁.apply b) (s₁.apply d) ++
          match unify (s₁.apply b) (s₁.apply d) with
          | .ok s₂ => [(s₂, s₁)]
          | .error _ => []
      | .error _ => [] := by
  rw [compositions, solve, compositions, unify]
  rcases solve a c with ⟨bs₁, cs₁, e | ⟨s₁, h₁⟩⟩
  · simp [Outcome.unifier, Except.map]
  · simp only [Outcome.unifier, Except.map, compositions, unify]
    rcases solve (s₁.apply b) (s₁.apply d) with ⟨bs₂, cs₂, e | ⟨s₂, h₂⟩⟩ <;> simp

end LetPoly
