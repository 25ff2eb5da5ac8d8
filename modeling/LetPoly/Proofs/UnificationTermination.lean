import Mathlib.Algebra.Group.Nat.Defs
import LetPoly.Name.Index
import LetPoly.Proofs.MostGeneralUnifier

/-! # Unification ends

Two function types are unified by two calls, one for the domains and one for the
codomains under the unifier of the domains.  The second call depends on the result of
the first, so the calls are described together with what they return: `Evaluates` has
one rule for each way to a result and says nothing about termination, and `Calls`
relates a call to the one that makes it.

Every call is of an equation with fewer variables, or with as many and with smaller
types on both sides (`Calls.below`).  So there are no endless chains of calls
(`wellFounded_calls`), and every equation evaluates to one result, that of `unify`
(`evaluates_iff`).  The sizes alone would not do: the types of the second call can be
exponentially larger than those given (`exists_codomains_large`).
-/

namespace LetPoly

namespace Unify

/-! ## Calls and their results -/

/-- Solving an equation leads to a unifier or to an error. -/
inductive Evaluates : Ty → Ty → Except UnifyError Subst → Prop where
  | varLeft (v : Name) (u : Ty) : Evaluates (.var v) u (bindVar v u)
  | varRight {t : Ty} (v : Name) (ht : ∀ w, t ≠ .var w) : Evaluates t (.var v) (bindVar v t)
  | int : Evaluates .int .int (.ok ∅)
  | bool : Evaluates .bool .bool (.ok ∅)
  | clash {t u : Ty} : t.Clash u → Evaluates t u (.error (.mismatch t u))
  | domainsFail {a b c d : Ty} {e : UnifyError} :
      Evaluates a c (.error e) → Evaluates (.fn a b) (.fn c d) (.error e)
  | codomainsFail {a b c d : Ty} {s₁ : Subst} {e : UnifyError} :
      Evaluates a c (.ok s₁) → Evaluates (s₁.apply b) (s₁.apply d) (.error e) →
      Evaluates (.fn a b) (.fn c d) (.error e)
  | fn {a b c d : Ty} {s₁ s₂ : Subst} :
      Evaluates a c (.ok s₁) → Evaluates (s₁.apply b) (s₁.apply d) (.ok s₂) →
      Evaluates (.fn a b) (.fn c d) (.ok (s₂.compose s₁))

/-- The first equation is solved on the way to solving the second. -/
inductive Calls : Ty × Ty → Ty × Ty → Prop where
  | domains (a b c d : Ty) : Calls (a, c) (.fn a b, .fn c d)
  | codomains {a c : Ty} (b d : Ty) {s : Subst} :
      Evaluates a c (.ok s) → Calls (s.apply b, s.apply d) (.fn a b, .fn c d)

/-- A derivation ends with the result of `unify`. -/
theorem Evaluates.unify_eq {t u : Ty} {r : Except UnifyError Subst} (h : Evaluates t u r) :
    unify t u = r := by
  induction h with
  | varLeft v u => exact unify_var_left v u
  | varRight v ht => exact unify_var_right v ht
  | int => exact unify_int
  | bool => exact unify_bool
  | clash hc => exact unify_clash hc
  | domainsFail _ ihDom => exact unify_fn_eq_error_of_domains ihDom
  | codomainsFail _ _ ihDom ihCod => exact unify_fn_eq_error_of_codomains ihDom ihCod
  | fn _ _ ihDom ihCod => exact unify_fn_eq_ok ihDom ihCod

/-- Every equation has a derivation, by the recursion of `unify`. -/
theorem evaluates_unify (t u : Ty) : Evaluates t u (unify t u) := by
  induction t, u using unify_induct with
  | varLeft v u => rw [unify_var_left]; exact .varLeft v u
  | varRight t v ht => rw [unify_var_right v ht]; exact .varRight v ht
  | int => rw [unify_int]; exact .int
  | bool => rw [unify_bool]; exact .bool
  | fn a b c d ihDom ihCod =>
      cases h₁ : unify a c with
      | error e =>
          rw [unify_fn_eq_error_of_domains h₁]
          exact .domainsFail (h₁ ▸ ihDom)
      | ok s₁ =>
          have hdom : Evaluates a c (.ok s₁) := h₁ ▸ ihDom
          have hcod := ihCod s₁ h₁
          cases h₂ : unify (s₁.apply b) (s₁.apply d) with
          | error e =>
              rw [unify_fn_eq_error_of_codomains h₁ h₂]
              exact .codomainsFail hdom (h₂ ▸ hcod)
          | ok s₂ =>
              rw [unify_fn_eq_ok h₁ h₂]
              exact .fn hdom (h₂ ▸ hcod)
  | clash t u hc => rw [unify_clash hc]; exact .clash hc

/-- Every equation evaluates to exactly one result. -/
theorem evaluates_iff {t u : Ty} {r : Except UnifyError Subst} :
    Evaluates t u r ↔ unify t u = r :=
  ⟨Evaluates.unify_eq, fun h => h ▸ evaluates_unify t u⟩

/-! ## Calls go down -/

/-- An equation has fewer variables than another one, or as many and a smaller type on
either side. -/
def Below (p q : Ty × Ty) : Prop :=
  (names p.1 p.2).size < (names q.1 q.2).size ∨
    (names p.1 p.2).size = (names q.1 q.2).size ∧ p.1.size < q.1.size ∧ p.2.size < q.2.size

theorem below_of_subset {p q : Ty × Ty} (hnames : names p.1 p.2 ⊆ names q.1 q.2)
    (hleft : p.1.size < q.1.size) (hright : p.2.size < q.2.size) : Below p q := by
  rcases Nat.lt_or_eq_of_le (NameSet.size_le_of_subset hnames) with hlt | heq
  · exact .inl hlt
  · exact .inr ⟨heq, hleft, hright⟩

theorem wellFounded_below : WellFounded Below := by
  refine Subrelation.wf (r := InvImage (Prod.Lex (· < ·) (· < ·)) fun p => rank p.1 p.2) ?_
    (InvImage.wf _ (Prod.lex Nat.lt_wfRel Nat.lt_wfRel).wf)
  rintro p q (hnames | ⟨hnames, hleft, -⟩)
  · exact Prod.Lex.left _ _ hnames
  · exact Prod.Lex.right' _ (Nat.le_of_eq hnames) hleft

/-- A call goes down.  The codomains may grow only under a unifier that binds a
variable, and then that variable is gone. -/
theorem Calls.below {p q : Ty × Ty} (h : Calls p q) : Below p q := by
  cases h with
  | domains a b c d =>
      refine below_of_subset (names_domains a b c d) ?_ ?_ <;> simp only [Ty.size] <;> omega
  | @codomains a c b d s heval =>
      have hsolved : s.Solved (names a c) := unify_solved heval.unify_eq
      by_cases hempty : s = ∅
      · subst hempty
        refine below_of_subset (names_codomains hsolved) ?_ ?_ <;>
          simp only [Subst.apply_empty, Ty.size] <;> omega
      · exact .inl (size_names_codomains_lt hsolved hempty)

/-- No equation leads to endless calls. -/
theorem wellFounded_calls : WellFounded Calls :=
  Subrelation.wf Calls.below wellFounded_below

end Unify

/-! ## Growing codomains -/

namespace Ty

/-- `f (n - 1) -> ... -> f 0 -> Int`. -/
def arrows (f : Nat → Ty) : Nat → Ty
  | 0 => .int
  | n + 1 => .fn (f n) (arrows f n)

theorem under_arrows (θ : Valuation) (f : Nat → Ty) (n : Nat) :
    (arrows f n).under θ = arrows (fun i => (f i).under θ) n := by
  induction n with
  | zero => rfl
  | succ n ih => rw [arrows, under_fn, ih, arrows]

theorem eq_of_arrows_eq {f g : Nat → Ty} {n i : Nat} (h : arrows f n = arrows g n) (hi : i < n) :
    f i = g i := by
  induction n with
  | zero => omega
  | succ n ih =>
      obtain ⟨hhead, htail⟩ := Ty.fn.inj h
      rcases Nat.lt_or_eq_of_le (Nat.le_of_lt_succ hi) with hlt | rfl
      · exact ih htail hlt
      · exact hhead

theorem size_arrows {f : Nat → Ty} {k : Nat} (hf : ∀ i, (f i).size = k) (n : Nat) :
    (arrows f n).size = (k + 1) * n + 1 := by
  induction n with
  | zero => simp [arrows, size]
  | succ n ih =>
      rw [arrows, size, ih, hf, Nat.mul_succ]
      omega

theorem size_pos (t : Ty) : 0 < t.size := by
  cases t <;> simp only [size] <;> omega

/-- Types that double at every step. -/
theorem two_pow_le_size {f : Nat → Ty} {n : Nat} (h : ∀ i, i < n → f (i + 1) = .fn (f i) (f i)) :
    2 ^ n ≤ (f n).size := by
  induction n with
  | zero => exact size_pos (f 0)
  | succ n ih =>
      have hn : 2 ^ n ≤ (f n).size := ih fun i hi => h i (Nat.lt_succ_of_lt hi)
      rw [h n (Nat.lt_succ_self n), size, Nat.pow_succ]
      omega

/-- The full binary tree of a depth, as a type. -/
def full : Nat → Ty
  | 0 => .int
  | n + 1 => .fn (full n) (full n)

/-- The type variable of an index. -/
def numbered (i : Nat) : Ty :=
  .var (Name.ofIndex i)

end Ty

namespace Unify

/-- The equations `xₙ = xₙ₋₁ -> xₙ₋₁`, ..., `x₁ = x₀ -> x₀` have a unifier. -/
theorem exists_unify_doubling (n : Nat) :
    ∃ s, unify (.arrows (fun i => .numbered (i + 1)) n)
      (.arrows (fun i => .fn (.numbered i) (.numbered i)) n) = .ok s := by
  have hunder : (Ty.arrows (fun i => .numbered (i + 1)) n).under (fun v => .full (Name.index v)) =
      (Ty.arrows (fun i => .fn (.numbered i) (.numbered i)) n).under
        (fun v => .full (Name.index v)) := by
    simp only [Ty.under_arrows, Ty.numbered, Ty.under_fn, Ty.under_var, Name.index_ofIndex,
      Ty.full]
  obtain ⟨s, hs, -⟩ := exists_unify_of_under_eq hunder
  exact ⟨s, hs⟩

/-- The types of the second call can be exponentially larger than the given ones. -/
theorem exists_codomains_large (n : Nat) :
    ∃ (a b c d : Ty) (s : Subst), (Ty.fn a b).size + (Ty.fn c d).size = 6 * n + 6 ∧
      Calls (s.apply b, s.apply d) (.fn a b, .fn c d) ∧
      2 ^ n ≤ (s.apply b).size ∧ 2 ^ n ≤ (s.apply d).size := by
  obtain ⟨s, hs⟩ := exists_unify_doubling n
  -- whatever the unifier is, it solves the equations, and they make it double
  have hdouble : ∀ i, i < n →
      s.apply (.numbered (i + 1)) = .fn (s.apply (.numbered i)) (s.apply (.numbered i)) := by
    intro i hi
    have happly := unify_apply_eq hs
    simp only [Subst.apply_eq_under, Ty.under_arrows] at happly
    simpa only [Subst.apply_eq_under, Ty.under_fn] using Ty.eq_of_arrows_eq happly hi
  have hlarge : 2 ^ n ≤ (s.apply (.numbered n)).size :=
    Ty.two_pow_le_size (f := fun i => s.apply (.numbered i)) hdouble
  refine ⟨_, .numbered n, _, .numbered n, s, ?_, .codomains _ _ (evaluates_iff.mpr hs),
    hlarge, hlarge⟩
  rw [Ty.size, Ty.size, Ty.size_arrows (k := 1) (fun i => rfl),
    Ty.size_arrows (k := 3) (fun i => rfl)]
  simp only [Ty.numbered, Ty.size]
  omega

end Unify

/-- The recursion of unification is well founded on all pairs of types: a call has
fewer variables, or as many and smaller types.  Hence every equation is solved, with
the result of `unify` and no other.  This is so although the second call of an equation
can be of types that are exponentially larger than those of the equation. -/
theorem unify_wellFounded :
    (∀ p q, Unify.Calls p q → Unify.Below p q) ∧ WellFounded Unify.Calls ∧
      (∀ t u r, Unify.Evaluates t u r ↔ unify t u = r) ∧
      ∀ n, ∃ (a b c d : Ty) (s : Subst), (Ty.fn a b).size + (Ty.fn c d).size = 6 * n + 6 ∧
        Unify.Calls (s.apply b, s.apply d) (.fn a b, .fn c d) ∧
        2 ^ n ≤ (s.apply b).size ∧ 2 ^ n ≤ (s.apply d).size :=
  ⟨fun _ _ => Unify.Calls.below, Unify.wellFounded_calls, fun _ _ _ => Unify.evaluates_iff,
    Unify.exists_codomains_large⟩

end LetPoly
