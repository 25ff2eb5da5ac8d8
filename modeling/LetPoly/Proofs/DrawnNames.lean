import LetPoly.NameSupply
import LetPoly.Proofs.Valuation

/-! # Drawn names

A supply only moves forward.  A name is *pending* if the supply may still hand
it out, and *drawn* between two states if it was handed out on the way; drawn
names are pending at the first state and never again from the second one on.

Instantiating a scheme draws one name for each listed variable.  What comes out
is the body under a renaming that is injective on the quantified variables
(`exists_freshInstance`); a name that is listed twice gets the later of its two
names.
-/

namespace LetPoly

namespace NameSupply

/-! ## Later states of a supply -/

/-- A later state of the same supply. -/
instance : LE NameSupply :=
  ⟨fun k k' => k'.reserved = k.reserved ∧ k.next ≤ k'.next⟩

theorem le_refl (k : NameSupply) : k ≤ k :=
  ⟨rfl, Nat.le_refl _⟩

theorem le_trans {k₁ k₂ k₃ : NameSupply} (h₁ : k₁ ≤ k₂) (h₂ : k₂ ≤ k₃) : k₁ ≤ k₃ :=
  ⟨h₂.1.trans h₁.1, Nat.le_trans h₁.2 h₂.2⟩

/-- The supply may still hand out the name. -/
def Pending (k : NameSupply) (v : Name) : Prop :=
  ∃ i, k.next ≤ i ∧ v = Name.ofIndex i ∧ v ∉ k.reserved

/-- The name was handed out between two states of a supply. -/
def Drawn (k k' : NameSupply) (v : Name) : Prop :=
  ∃ i, k.next ≤ i ∧ i < k'.next ∧ v = Name.ofIndex i ∧ v ∉ k.reserved

/-- What may still be drawn could be drawn before. -/
theorem Pending.of_le {k k' : NameSupply} (h : k ≤ k') {v : Name} (hv : k'.Pending v) :
    k.Pending v := by
  obtain ⟨i, hi, rfl, hr⟩ := hv
  exact ⟨i, Nat.le_trans h.2 hi, rfl, h.1 ▸ hr⟩

theorem Drawn.pending {k k' : NameSupply} {v : Name} (h : k.Drawn k' v) : k.Pending v := by
  obtain ⟨i, hi, -, rfl, hr⟩ := h
  exact ⟨i, hi, rfl, hr⟩

/-- A drawn name does not come again. -/
theorem Drawn.not_pending {k k' : NameSupply} {v : Name} (h : k.Drawn k' v) : ¬ k'.Pending v := by
  rintro ⟨j, hj, hv, -⟩
  obtain ⟨i, -, hi, rfl, -⟩ := h
  have := Name.ofIndex_injective hv
  omega

theorem Drawn.of_le_left {k₀ k k' : NameSupply} (h : k₀ ≤ k) {v : Name} (hv : k.Drawn k' v) :
    k₀.Drawn k' v := by
  obtain ⟨i, hi, hi', rfl, hr⟩ := hv
  exact ⟨i, Nat.le_trans h.2 hi, hi', rfl, h.1 ▸ hr⟩

theorem Drawn.of_le_right {k k' k'' : NameSupply} (h : k' ≤ k'') {v : Name} (hv : k.Drawn k' v) :
    k.Drawn k'' v := by
  obtain ⟨i, hi, hi', rfl, hr⟩ := hv
  exact ⟨i, hi, Nat.lt_of_lt_of_le hi' h.2, rfl, hr⟩

/-! ## Drawing -/

theorem le_of_fresh {k k' : NameSupply} {v : Name} (h : k.fresh = (v, k')) : k ≤ k' := by
  cases h
  exact ⟨rfl, Nat.le_succ_of_le (le_firstIndex k.reserved k.next)⟩

theorem drawn_of_fresh {k k' : NameSupply} {v : Name} (h : k.fresh = (v, k')) : k.Drawn k' v := by
  cases h
  exact ⟨_, le_firstIndex k.reserved k.next, Nat.lt_succ_self _, rfl,
    ofIndex_firstIndex_not_mem k.reserved k.next⟩

theorem freshMany_succ (k : NameSupply) (n : Nat) :
    k.freshMany (n + 1) =
      (k.fresh.1 :: (k.fresh.2.freshMany n).1, (k.fresh.2.freshMany n).2) := rfl

theorem length_freshMany (n : Nat) : ∀ k : NameSupply, (k.freshMany n).1.length = n := by
  induction n with
  | zero => intro k; rfl
  | succ n ih => intro k; rw [freshMany_succ, List.length_cons, ih]

theorem le_freshMany (n : Nat) : ∀ k : NameSupply, k ≤ (k.freshMany n).2 := by
  induction n with
  | zero => exact le_refl
  | succ n ih => exact fun k => le_trans (le_of_fresh rfl) (ih k.fresh.2)

theorem drawn_of_mem_freshMany {n : Nat} {v : Name} :
    ∀ {k : NameSupply}, v ∈ (k.freshMany n).1 → k.Drawn (k.freshMany n).2 v := by
  induction n with
  | zero => intro k hv; exact absurd hv List.not_mem_nil
  | succ n ih =>
      intro k hv
      rw [freshMany_succ] at hv ⊢
      cases List.mem_cons.mp hv with
      | inl heq =>
          rw [heq]
          exact (drawn_of_fresh rfl).of_le_right (le_freshMany n k.fresh.2)
      | inr hv => exact (ih hv).of_le_left (le_of_fresh rfl)

/-- No name is passed over unless it is reserved. -/
theorem mem_freshMany_of_drawn {n : Nat} {v : Name} :
    ∀ {k : NameSupply}, k.Drawn (k.freshMany n).2 v → v ∈ (k.freshMany n).1 := by
  induction n with
  | zero =>
      rintro k ⟨i, hle, hlt, -, -⟩
      exact absurd hlt (Nat.not_lt.mpr hle)
  | succ n ih =>
      rintro k ⟨i, hle, hlt, rfl, hr⟩
      rw [freshMany_succ] at hlt ⊢
      rcases Nat.lt_trichotomy i (firstIndex k.reserved k.next) with hi | rfl | hi
      · exact absurd (ofIndex_mem_of_lt_firstIndex hle hi) hr
      · exact List.mem_cons_self
      · exact List.mem_cons_of_mem _ (ih ⟨i, hi, hlt, rfl, hr⟩)

/-- Drawing in two batches is drawing at once. -/
theorem freshMany_add (n m : Nat) : ∀ k : NameSupply,
    k.freshMany (n + m) =
      ((k.freshMany n).1 ++ ((k.freshMany n).2.freshMany m).1,
        ((k.freshMany n).2.freshMany m).2) := by
  induction n with
  | zero => intro k; rw [Nat.zero_add]; rfl
  | succ n ih => intro k; rw [Nat.succ_add, freshMany_succ, ih, freshMany_succ, List.cons_append]

/-- No name is drawn twice: the later ones are pending when the first is gone. -/
theorem nodup_freshMany (n : Nat) : ∀ k : NameSupply, (k.freshMany n).1.Nodup := by
  induction n with
  | zero => exact fun _ => List.nodup_nil
  | succ n ih =>
      intro k
      rw [freshMany_succ, List.nodup_cons]
      refine ⟨fun hmem => ?_, ih k.fresh.2⟩
      exact (drawn_of_fresh rfl).not_pending (drawn_of_mem_freshMany hmem).pending

/-! ## Instantiation -/

/-- The body of a scheme with a fresh name for each quantified variable. -/
def instantiate (k : NameSupply) (σ : Scheme) : Ty × NameSupply :=
  let (xs, k') := k.freshMany σ.vars.length
  (Subst.apply (.ofList (σ.vars.zip (xs.map .var))) σ.body, k')

end NameSupply

/-! ## Fresh instances -/

/-- The partner of a name in two lists, or the name itself if it is not listed.
The last place of a name counts. -/
def partner (vs xs : List Name) (v : Name) : Name :=
  ((vs.zip xs).reverse.lookup v).getD v

theorem mem_zip_of_lookup {vs xs : List Name} {v x : Name}
    (h : (vs.zip xs).reverse.lookup v = some x) : (v, x) ∈ vs.zip xs := by
  obtain ⟨l₁, l₂, heq, -⟩ := List.lookup_eq_some_iff.mp h
  rw [← List.mem_reverse, heq]
  simp

theorem partner_of_not_mem {vs : List Name} {v : Name} (h : v ∉ vs) (xs : List Name) :
    partner vs xs v = v := by
  rw [partner]
  cases hl : (vs.zip xs).reverse.lookup v with
  | none => rfl
  | some x => exact absurd (List.of_mem_zip (mem_zip_of_lookup hl)).1 h

theorem mem_zip_partner {vs xs : List Name} (hlen : xs.length = vs.length) {v : Name}
    (h : v ∈ vs) : (v, partner vs xs v) ∈ vs.zip xs := by
  rw [partner]
  cases hl : (vs.zip xs).reverse.lookup v with
  | some x => exact mem_zip_of_lookup hl
  | none =>
      rw [← List.map_fst_zip (Nat.le_of_eq hlen.symm)] at h
      obtain ⟨e, he, rfl⟩ := List.mem_map.mp h
      have := List.lookup_eq_none_iff.mp hl e (List.mem_reverse.mpr he)
      simp at this

/-- The partner of a name in a list without repetitions determines the name. -/
theorem fst_eq_of_mem_zip {x y z : Name} :
    ∀ {vs xs : List Name}, xs.Nodup → (x, z) ∈ vs.zip xs → (y, z) ∈ vs.zip xs → x = y
  | [], _, _, hx, _ => by simp at hx
  | _ :: _, [], _, hx, _ => by simp at hx
  | v :: vs, w :: xs, hnd, hx, hy => by
      obtain ⟨hw, hxs⟩ := List.nodup_cons.mp hnd
      rw [List.zip_cons_cons, List.mem_cons, Prod.mk.injEq] at hx hy
      rcases hx with ⟨rfl, rfl⟩ | hx
      · rcases hy with ⟨rfl, -⟩ | hy
        · rfl
        · exact absurd (List.of_mem_zip hy).2 hw
      · rcases hy with ⟨rfl, rfl⟩ | hy
        · exact absurd (List.of_mem_zip hx).2 hw
        · exact fst_eq_of_mem_zip hxs hx hy

/-- Replacing listed names by variables is renaming. -/
theorem apply_zip_eq_under (vs xs : List Name) (t : Ty) :
    Subst.apply (.ofList (vs.zip (xs.map .var))) t = t.under fun v => .var (partner vs xs v) := by
  rw [Subst.apply_eq_under]
  refine Ty.under_congr fun v _ => ?_
  have hfind : (NameMap.ofList (vs.zip (xs.map Ty.var))).find? v =
      ((vs.zip xs).reverse.lookup v).map Ty.var := by
    rw [NameMap.find?_ofList, List.zip_map_right, ← List.map_reverse]
    exact NameMap.lookup_map Ty.var v _
  rw [Subst.val, Subst.apply_var, hfind, partner]
  cases (vs.zip xs).reverse.lookup v <;> rfl

/-- `t` is the body of `σ` with every quantified variable renamed to a name of
its own, drawn between `k` and `k'`. -/
structure FreshInstance (σ : Scheme) (k k' : NameSupply) (ρ : Name → Name) (t : Ty) : Prop where
  /-- The type is the renamed body. -/
  eq_under : t = σ.body.under fun v => .var (ρ v)
  /-- Quantified variables are renamed to drawn names. -/
  drawn : ∀ v, v ∈ σ.vars → k.Drawn k' (ρ v)
  /-- The other variables stay as they are. -/
  keeps : ∀ v, v ∉ σ.vars → ρ v = v
  /-- Different quantified variables get different names. -/
  inj : ∀ v w, v ∈ σ.vars → w ∈ σ.vars → ρ v = ρ w → v = w

/-- Instantiation makes a fresh instance. -/
theorem exists_freshInstance {k k' : NameSupply} {σ : Scheme} {t : Ty}
    (h : k.instantiate σ = (t, k')) : ∃ ρ, FreshInstance σ k k' ρ t := by
  obtain ⟨xs, hxs⟩ : ∃ xs, xs = (k.freshMany σ.vars.length).1 := ⟨_, rfl⟩
  have hlen : xs.length = σ.vars.length := hxs ▸ NameSupply.length_freshMany _ k
  have hk' : k' = (k.freshMany σ.vars.length).2 := (congrArg Prod.snd h).symm
  have ht : t = Subst.apply (.ofList (σ.vars.zip (xs.map .var))) σ.body :=
    hxs ▸ (congrArg Prod.fst h).symm
  refine ⟨partner σ.vars xs, ht.trans (apply_zip_eq_under _ _ _), fun v hv => ?_,
    fun v hv => partner_of_not_mem hv xs, fun v w hv hw heq => ?_⟩
  · have hmem := (List.of_mem_zip (mem_zip_partner hlen hv)).2
    rw [hk']
    exact NameSupply.drawn_of_mem_freshMany (hxs ▸ hmem)
  · have hnd : xs.Nodup := hxs ▸ NameSupply.nodup_freshMany _ k
    exact fst_eq_of_mem_zip hnd (mem_zip_partner hlen hv) (heq ▸ mem_zip_partner hlen hw)

theorem NameSupply.le_of_instantiate {k k' : NameSupply} {σ : Scheme} {t : Ty}
    (h : k.instantiate σ = (t, k')) : k ≤ k' := by
  have hk' : k' = (k.freshMany σ.vars.length).2 := (congrArg Prod.snd h).symm
  rw [hk']
  exact le_freshMany _ k

/-- The variables of an instance are free in the scheme or drawn. -/
theorem FreshInstance.mem {σ : Scheme} {k k' : NameSupply} {ρ : Name → Name} {t : Ty}
    (h : FreshInstance σ k k' ρ t) {v : Name} (hv : v ∈ t) :
    v ∈ σ.freeVars ∨ k.Drawn k' v := by
  rw [h.eq_under] at hv
  obtain ⟨w, hw, hvw⟩ := Ty.mem_under.mp hv
  obtain rfl := Ty.mem_var.mp hvw
  by_cases hq : w ∈ σ.vars
  · exact .inr (h.drawn w hq)
  · rw [h.keeps w hq]
    exact .inl (Scheme.mem_freeVars.mpr ⟨hw, hq⟩)

/-- The valuation that gives `ψ v` to the fresh name `ρ v` of each quantified
variable `v` and follows `θ` elsewhere. -/
def Valuation.redirect (θ ψ : Valuation) (σ : Scheme) (ρ : Name → Name) : Valuation :=
  fun w => ((σ.vars.find? fun v => ρ v == w).map ψ).getD (θ w)

namespace FreshInstance

variable {σ : Scheme} {k k' : NameSupply} {ρ : Name → Name} {t : Ty}

/-- Fresh names get the new values. -/
theorem redirect_fresh (h : FreshInstance σ k k' ρ t) (θ ψ : Valuation) {v : Name}
    (hv : v ∈ σ.vars) : θ.redirect ψ σ ρ (ρ v) = ψ v := by
  rw [Valuation.redirect]
  cases hf : σ.vars.find? fun w => ρ w == ρ v with
  | none =>
      have := List.find?_eq_none.mp hf v hv
      simp at this
  | some w =>
      have hw : ρ w = ρ v := by simpa using List.find?_some hf
      rw [h.inj w v (List.mem_of_find?_eq_some hf) hv hw]
      rfl

/-- All names that were not drawn keep their values. -/
theorem redirect_old (h : FreshInstance σ k k' ρ t) (θ ψ : Valuation) {w : Name}
    (hw : ¬ k.Drawn k' w) : θ.redirect ψ σ ρ w = θ w := by
  rw [Valuation.redirect]
  cases hf : σ.vars.find? fun v => ρ v == w with
  | none => rfl
  | some v =>
      have hv : ρ v = w := by simpa using List.find?_some hf
      exact absurd (hv ▸ h.drawn v (List.mem_of_find?_eq_some hf)) hw

end FreshInstance

end LetPoly
