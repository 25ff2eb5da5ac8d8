import Mathlib.Data.List.Induction
import LetPoly.Proofs.Composition
import LetPoly.Proofs.Evaluation
import LetPoly.Proofs.Run

/-! # Unifiers and the bindings that made them

Unification binds one variable at a time and logs every binding.  A unifier is
composed from those of domains and codomains, in the order of the recursion; the log
is flat.  Still the log says what the unifier is: composing the bindings one after
the other gives it back (`unify_eq_replay`).

Regrouping the compositions needs associativity, which composition only has for
substitutions that agree where both bind a variable (`Subst.compose_assoc`).  Here
they bind no variable twice: a variable that has been bound occurs in nothing that is
unified afterwards, hence in no later binding (`Unify.Triangular`).
-/

namespace LetPoly

/-! ## Replaying bindings -/

namespace Subst

variable {bs cs : List (Name × Ty)} {v : Name}

/-- The bindings of a list composed one after the other, each one applied to what
those before it have made. -/
def replay (bs : List (Name × Ty)) : Subst :=
  bs.foldl (fun s b => compose (NameMap.single b.1 b.2) s) ∅

@[simp]
theorem replay_nil : replay [] = ∅ := rfl

@[simp]
theorem replay_singleton (b : Name × Ty) : replay [b] = NameMap.single b.1 b.2 :=
  compose_empty _

/-- The last binding is applied to all that the others have made. -/
theorem replay_concat (bs : List (Name × Ty)) (b : Name × Ty) :
    replay (bs ++ [b]) = compose (NameMap.single b.1 b.2) (replay bs) := by
  simp [replay]

/-- Exactly the listed variables are bound. -/
theorem find?_replay_eq_none : (replay bs).find? v = none ↔ v ∉ bs.map Prod.fst := by
  induction bs using List.reverseRecOn with
  | nil => simp
  | append_singleton bs b ih =>
      rw [replay_concat, find?_compose_eq_none, ih, NameMap.find?_single]
      simp [and_comm]

/-- The bindings of a second list may be composed on their own first if they are of
different variables. -/
theorem replay_append (h : (cs.map Prod.fst).Nodup) :
    replay (bs ++ cs) = (replay cs).compose (replay bs) := by
  induction cs using List.reverseRecOn with
  | nil => simp
  | append_singleton cs c ih =>
      rw [List.map_append, List.nodup_append] at h
      obtain ⟨hcs, -, hc⟩ := h
      -- the last binding is of a variable that those before it do not bind
      have hagrees : ∀ v, AgreesAt (NameMap.single c.1 c.2) (replay cs) v := by
        intro v
        refine agreesAt_of_apart ?_
        rw [NameMap.find?_single, find?_replay_eq_none]
        by_cases hv : v = c.1
        · exact .inr fun hmem => hc v hmem c.1 (by simp) hv
        · exact .inl (if_neg hv)
      rw [← List.append_assoc, replay_concat, ih hcs, compose_assoc hagrees, replay_concat]

end Subst

/-! ## The bindings of a unification -/

namespace Unify

/-- Bindings of and to variables in `names`, where no variable occurs in its own
image or in a later binding. -/
structure Triangular (names : NameSet) (bs : List (Name × Ty)) : Prop where
  /-- Variables in `names` are bound. -/
  key_mem : ∀ b ∈ bs, b.1 ∈ names
  /-- Images mention variables in `names`. -/
  image_mem : ∀ b ∈ bs, ∀ w, w ∈ b.2 → w ∈ names
  /-- No variable occurs in its own image. -/
  not_mem_image : ∀ b ∈ bs, b.1 ∉ b.2
  /-- No variable is bound or mentioned after its binding. -/
  later : bs.Pairwise fun b c => b.1 ≠ c.1 ∧ b.1 ∉ c.2

namespace Triangular

variable {names names' : NameSet} {bs cs : List (Name × Ty)}

theorem nil (names : NameSet) : Triangular names [] where
  key_mem _ hb := absurd hb List.not_mem_nil
  image_mem _ hb := absurd hb List.not_mem_nil
  not_mem_image _ hb := absurd hb List.not_mem_nil
  later := .nil

/-- No variable is bound twice. -/
theorem nodup (h : Triangular names bs) : (bs.map Prod.fst).Nodup :=
  List.pairwise_map.mpr (h.later.imp And.left)

/-- There are no more bindings than variables. -/
theorem length_le (h : Triangular names bs) : bs.length ≤ names.size := by
  rw [← List.length_map Prod.fst]
  refine h.nodup.length_le_of_subset fun v hv => ?_
  obtain ⟨b, hb, rfl⟩ := List.mem_map.mp hv
  exact h.key_mem b hb

theorem mono (h : Triangular names bs) (hsub : names ⊆ names') : Triangular names' bs where
  key_mem b hb := hsub _ (h.key_mem b hb)
  image_mem b hb w hw := hsub _ (h.image_mem b hb w hw)
  not_mem_image := h.not_mem_image
  later := h.later

/-- Later bindings may follow if they speak of no variable that has been bound. -/
theorem append (hb : Triangular names bs) (hc : Triangular names' cs) (hsub : names' ⊆ names)
    (hgone : ∀ b ∈ bs, b.1 ∉ names') : Triangular names (bs ++ cs) where
  key_mem b h := (List.mem_append.mp h).elim (hb.key_mem b) fun h => hsub _ (hc.key_mem b h)
  image_mem b h w hw :=
    (List.mem_append.mp h).elim (fun h => hb.image_mem b h w hw)
      fun h => hsub _ (hc.image_mem b h w hw)
  not_mem_image b h := (List.mem_append.mp h).elim (hb.not_mem_image b) (hc.not_mem_image b)
  later := by
    refine List.pairwise_append.mpr ⟨hb.later, hc.later, fun b hb' c hc' => ⟨?_, ?_⟩⟩
    · intro heq
      exact hgone b hb' (heq ▸ hc.key_mem c hc')
    · exact fun hmem => hgone b hb' (hc.image_mem c hc' _ hmem)

end Triangular

/-! ## One variable -/

/-- The binding made for a variable and a type: none if the variable occurs in the
type, be it that it is the type. -/
def binding (v : Name) (t : Ty) : List (Name × Ty) :=
  if v ∈ t then [] else [(v, t)]

theorem Outcome.bindings_bind (v : Name) (t : Ty) (names : NameSet) (hv : v ∈ names)
    (ht : ∀ w, w ∈ t → w ∈ names) : (Outcome.bind v t names hv ht).bindings = binding v t := by
  rw [Outcome.bind, binding]
  split
  · next heq =>
    subst heq
    simp [Outcome.trivial]
  · split <;> rfl

/-- A variable on the left is bound, unless it occurs on the right. -/
theorem bindings_var_left (v : Name) (u : Ty) : bindings (.var v) u = binding v u := by
  rw [bindings, solve]
  exact Outcome.bindings_bind ..

/-- A variable on the right is bound, unless it occurs on the left. -/
theorem bindings_var_right {t : Ty} (v : Name) (ht : ∀ w, t ≠ .var w) :
    bindings t (.var v) = binding v t := by
  rw [bindings, solve]
  · exact Outcome.bindings_bind ..
  · exact ht

/-- The occurs check makes a single binding triangular. -/
theorem triangular_binding {v : Name} {t : Ty} {names : NameSet} (hv : v ∈ names)
    (ht : ∀ w, w ∈ t → w ∈ names) : Triangular names (binding v t) := by
  rw [binding]
  split
  · exact .nil names
  · next hocc =>
    exact
      { key_mem := by simp [hv]
        image_mem := by simpa using ht
        not_mem_image := by simp [hocc]
        later := List.pairwise_singleton _ _ }

/-- What is found for a variable is its binding, replayed. -/
theorem eq_replay_of_bindVar {v : Name} {t : Ty} {s : Subst} (h : bindVar v t = .ok s) :
    s = .replay (binding v t) := by
  rcases bindVar_ok h with ⟨rfl, rfl⟩ | ⟨hocc, rfl⟩
  · simp [binding]
  · simp [binding, hocc]

/-! ## Two types -/

theorem bindings_int : bindings .int .int = [] := by
  rw [bindings, solve]
  rfl

theorem bindings_bool : bindings .bool .bool = [] := by
  rw [bindings, solve]
  rfl

/-- Different heads bind nothing. -/
theorem bindings_clash {t u : Ty} (h : t.Clash u) : bindings t u = [] := by
  cases h <;> simp [bindings, solve, Outcome.fail]

variable {a b c d : Ty} {s : Subst}

/-- Function types bind for the domains first, then for the codomains. -/
theorem bindings_fn_ok (h : unify a c = .ok s) :
    bindings (.fn a b) (.fn c d) = bindings a c ++ bindings (s.apply b) (s.apply d) := by
  rw [bindings_fn, h]

/-- If the domains fail, the codomains bind nothing. -/
theorem bindings_fn_error {e : UnifyError} (h : unify a c = .error e) :
    bindings (.fn a b) (.fn c d) = bindings a c := by
  rw [bindings_fn, h, List.append_nil]

/-- The bindings are triangular, whether or not unification succeeds in the end, and
if it does, they give the unifier.  The two are proved together: that the codomains
bind nothing twice rests on what the unifier of the domains is. -/
theorem bindings_spec (t u : Ty) :
    Triangular (names t u) (bindings t u) ∧
      ∀ s, unify t u = .ok s → s = .replay (bindings t u) := by
  induction t, u using unify_induct with
  | varLeft v u =>
      rw [bindings_var_left, unify_var_left]
      exact ⟨triangular_binding (by simp) fun w hw => by simp [hw], fun _ => eq_replay_of_bindVar⟩
  | varRight t v ht =>
      rw [bindings_var_right v ht, unify_var_right v ht]
      exact ⟨triangular_binding (by simp) fun w hw => by simp [hw], fun _ => eq_replay_of_bindVar⟩
  | int =>
      rw [bindings_int, unify_int]
      exact ⟨.nil _, fun s h => (Except.ok.inj h).symm⟩
  | bool =>
      rw [bindings_bool, unify_bool]
      exact ⟨.nil _, fun s h => (Except.ok.inj h).symm⟩
  | fn a b c d ihDom ihCod =>
      have hdom : Triangular (names (.fn a b) (.fn c d)) (bindings a c) :=
        ihDom.1.mono (names_domains a b c d)
      cases h₁ : unify a c with
      | error e =>
          rw [bindings_fn_error h₁]
          refine ⟨hdom, fun s h => ?_⟩
          obtain ⟨s₁, -, hok, -⟩ := unify_fn_ok h
          rw [h₁] at hok
          cases hok
      | ok s₁ =>
          have hs₁ : s₁ = .replay (bindings a c) := ihDom.2 s₁ h₁
          obtain ⟨hcod, hreplay⟩ := ihCod s₁ h₁
          rw [bindings_fn_ok h₁]
          constructor
          · refine hdom.append hcod (names_codomains (unify_solved h₁)) fun x hx hmem => ?_
            -- what the domains have bound is gone from the codomains
            have hnone : s₁.find? x.1 = none := unbound_codomains (unify_solved h₁) hmem
            rw [hs₁, Subst.find?_replay_eq_none] at hnone
            exact hnone (List.mem_map_of_mem hx)
          · intro s h
            obtain ⟨s₁', s₂, h₁', h₂, rfl⟩ := unify_fn_ok h
            obtain rfl : s₁' = s₁ := Except.ok.inj (h₁'.symm.trans h₁)
            rw [Subst.replay_append hcod.nodup, ← hs₁, ← hreplay s₂ h₂]
  | clash t u hc =>
      rw [bindings_clash hc, unify_clash hc]
      exact ⟨.nil _, fun s h => nomatch h⟩

end Unify

/-- The log of a successful unification explains the unifier: it is what the logged
bindings give, composed one after the other.  They are of different variables, none
of which occurs in its own image or in a later one, and there are at most as many as
variables in the two types. -/
theorem unify_eq_replay {t u : Ty} {s : Subst} (h : unify t u = .ok s) :
    s = .replay (Unify.bindings t u) ∧
      ((Unify.bindings t u).map Prod.fst).Nodup ∧
      (∀ b ∈ Unify.bindings t u, b.1 ∉ b.2) ∧
      (Unify.bindings t u).Pairwise (fun b c => b.1 ∉ c.2) ∧
      (Unify.bindings t u).length ≤ (t.freeVars ∪ u.freeVars).size ∧
      ∀ st, (InferM.unifier t u).run st = .ok s
        { st with log := st.log ++ (Unify.bindings t u).map fun b => Event.bind b.1 b.2 } := by
  obtain ⟨htri, hreplay⟩ := Unify.bindings_spec t u
  refine ⟨hreplay s h, htri.nodup, htri.not_mem_image, htri.later.imp And.right,
    htri.length_le, fun st => ?_⟩
  rw [InferM.run_unifier_log, h]

/-- `(a -> b) -> b`. -/
def chainLeft : Ty :=
  .fn (.fn (.var "a") (.var "b")) (.var "b")

/-- `(b -> c -> c) -> Int -> d`. -/
def chainRight : Ty :=
  .fn (.fn (.var "b") (.fn (.var "c") (.var "c"))) (.fn .int (.var "d"))

/-- All four variables are bound.  The first two bindings are of the domains, and each
of the others rewrites what those before it have made. -/
theorem unify_eq_replay_chain :
    ∃ s, unify chainLeft chainRight = .ok s ∧
      Unify.bindings chainLeft chainRight =
        [("a", .var "b"), ("b", .fn (.var "c") (.var "c")), ("c", .int), ("d", .int)] ∧
      s = .ofList [("a", .fn .int .int), ("b", .fn .int .int), ("c", .int), ("d", .int)] ∧
      s = .replay (Unify.bindings chainLeft chainRight) ∧
      (Unify.bindings chainLeft chainRight).Pairwise (fun b c => b.1 ∉ c.2) ∧
      (Unify.bindings chainLeft chainRight).length ≤
        (chainLeft.freeVars ∪ chainRight.freeVars).size := by
  have hunify : unify chainLeft chainRight =
      .ok (.ofList [("a", .fn .int .int), ("b", .fn .int .int), ("c", .int), ("d", .int)]) := by
    rw [unify_eq_compute]
    decide +kernel
  have hbindings : Unify.bindings chainLeft chainRight =
      [("a", .var "b"), ("b", .fn (.var "c") (.var "c")), ("c", .int), ("d", .int)] := by
    rw [Unify.bindings, Unify.solve_eq_compute]
    decide +kernel
  obtain ⟨hreplay, -, -, hlater, hlength, -⟩ := unify_eq_replay hunify
  exact ⟨_, hunify, hbindings, rfl, hreplay, hlater, hlength⟩

end LetPoly
