import Mathlib.Data.Nat.Nth
import LetPoly.Proofs.DrawnNames

/-! # A supply enumerates the names that are not reserved

To draw a name is to try the names from the next index on until one is not reserved.
`Draws` says what such a search does round by round and does not bound the rounds; every
search ends all the same, with the result of `fresh` (`draws_iff`), because the names of
different indices are different and only finitely many of them are reserved.

The search skips nothing else.  So the draws that follow a restart yield, in order, the
first names that are not reserved (`freshMany_eq_map_unreserved`), whatever was asked of the
supply before.  They try no more names than they hand out and pass over
(`next_freshMany_start_le`).
-/

namespace LetPoly.NameSupply

variable {R : NameSet} {n m : Nat}

/-! ## The search for a name -/

/-- Drawing a name: one that is not reserved is handed out, and after a reserved one the
next one is tried. -/
inductive Draws : NameSupply → Name → NameSupply → Prop where
  | handOut {k : NameSupply} : Name.ofIndex k.next ∉ k.reserved →
      Draws k (Name.ofIndex k.next) { k with next := k.next + 1 }
  | pass {k k' : NameSupply} {v : Name} : Name.ofIndex k.next ∈ k.reserved →
      Draws { k with next := k.next + 1 } v k' → Draws k v k'

/-- What `firstIndex` promises determines it. -/
theorem firstIndex_eq (hle : n ≤ m) (hm : Name.ofIndex m ∉ R)
    (hall : ∀ i, n ≤ i → i < m → Name.ofIndex i ∈ R) : firstIndex R n = m := by
  rcases Nat.lt_trichotomy (firstIndex R n) m with hlt | heq | hgt
  · exact absurd (hall _ (le_firstIndex R n) hlt) (ofIndex_firstIndex_not_mem R n)
  · exact heq
  · exact absurd (ofIndex_mem_of_lt_firstIndex hle hgt) hm

theorem firstIndex_of_not_mem (h : Name.ofIndex n ∉ R) : firstIndex R n = n :=
  firstIndex_eq (Nat.le_refl n) h fun _ hle hlt => absurd hlt (Nat.not_lt.mpr hle)

/-- A search that starts at a reserved name ends where it would from the next one on. -/
theorem firstIndex_of_mem (h : Name.ofIndex n ∈ R) : firstIndex R n = firstIndex R (n + 1) := by
  have hle := le_firstIndex R (n + 1)
  refine firstIndex_eq (by omega) (ofIndex_firstIndex_not_mem R (n + 1)) fun i hni hi => ?_
  rcases Nat.eq_or_lt_of_le hni with rfl | hlt
  · exact h
  · exact ofIndex_mem_of_lt_firstIndex hlt hi

/-- The draw that a supply makes is the one by single steps. -/
theorem Draws.fresh_eq {k k' : NameSupply} {v : Name} (h : Draws k v k') : k.fresh = (v, k') := by
  induction h with
  | handOut hfree => rw [fresh, firstIndex_of_not_mem hfree]
  | pass hmem _ ih => rw [← ih, fresh, fresh, firstIndex_of_mem hmem]

theorem draws_fresh (k : NameSupply) : Draws k k.fresh.1 k.fresh.2 := by
  -- the induction is on the number of names that will be passed
  obtain ⟨rounds, hrounds⟩ : ∃ rounds, firstIndex k.reserved k.next = k.next + rounds :=
    Nat.exists_eq_add_of_le (le_firstIndex k.reserved k.next)
  induction rounds generalizing k with
  | zero =>
      have hfree := ofIndex_firstIndex_not_mem k.reserved k.next
      rw [hrounds] at hfree
      rw [fresh, hrounds]
      exact .handOut hfree
  | succ rounds ih =>
      have hmem : Name.ofIndex k.next ∈ k.reserved :=
        ofIndex_mem_of_lt_firstIndex (Nat.le_refl _) (by omega)
      have hfirst := firstIndex_of_mem hmem
      have hlater := ih { k with next := k.next + 1 } (by simp only; omega)
      rw [fresh, ← hfirst] at hlater
      exact .pass hmem hlater

/-- Every search ends, with one result. -/
theorem draws_iff {k k' : NameSupply} {v : Name} : Draws k v k' ↔ k.fresh = (v, k') := by
  refine ⟨Draws.fresh_eq, fun h => ?_⟩
  have hdraws := draws_fresh k
  rwa [h] at hdraws

/-! ## The names that are not reserved -/

/-- The `i`-th name that is not reserved, in the order of indices. -/
noncomputable def unreserved (R : NameSet) (i : Nat) : Name :=
  Name.ofIndex (Nat.nth (fun j => Name.ofIndex j ∉ R) i)

/-- How many of the first `n` names are not reserved. -/
def unreservedBelow (R : NameSet) (n : Nat) : Nat :=
  Nat.count (fun j => Name.ofIndex j ∉ R) n

/-- A name that is not reserved has as its place the number of those before it. -/
theorem unreserved_unreservedBelow (h : Name.ofIndex n ∉ R) :
    unreserved R (unreservedBelow R n) = Name.ofIndex n := by
  rw [unreserved, unreservedBelow, Nat.nth_count h]

theorem unreservedBelow_succ_of_mem (h : Name.ofIndex n ∈ R) :
    unreservedBelow R (n + 1) = unreservedBelow R n := by
  rw [unreservedBelow, Nat.count_succ, if_neg (not_not_intro h)]
  rfl

theorem unreservedBelow_succ_of_not_mem (h : Name.ofIndex n ∉ R) :
    unreservedBelow R (n + 1) = unreservedBelow R n + 1 := by
  rw [unreservedBelow, Nat.count_succ, if_pos h]
  rfl

/-- The search for a name passes none that is not reserved. -/
theorem unreservedBelow_firstIndex (R : NameSet) (n : Nat) :
    unreservedBelow R (firstIndex R n) = unreservedBelow R n := by
  have hpassed : ∀ m, n ≤ m → m ≤ firstIndex R n → unreservedBelow R m = unreservedBelow R n := by
    intro m hle
    induction m, hle using Nat.le_induction with
    | base => exact fun _ => rfl
    | succ m hle ih =>
        intro hm
        have hmem := ofIndex_mem_of_lt_firstIndex hle (Nat.lt_of_succ_le hm)
        rw [unreservedBelow_succ_of_mem hmem, ih (Nat.le_of_succ_le hm)]
  exact hpassed _ (le_firstIndex R n) (Nat.le_refl _)

/-- Draws yield the names behind those that are not reserved and have been passed, one after
the other. -/
theorem freshMany_eq_map_unreserved (R : NameSet) (n : Nat) : ∀ m,
    (freshMany ⟨m, R⟩ n).1 =
      (List.range n).map fun i => unreserved R (unreservedBelow R m + i) := by
  induction n with
  | zero => exact fun _ => rfl
  | succ n ih =>
      intro m
      have hfree := ofIndex_firstIndex_not_mem R m
      have hhead : Name.ofIndex (firstIndex R m) = unreserved R (unreservedBelow R m + 0) := by
        rw [← unreserved_unreservedBelow hfree, unreservedBelow_firstIndex, Nat.add_zero]
      have htail : ∀ i, unreservedBelow R (firstIndex R m + 1) + i =
          unreservedBelow R m + (i + 1) := by
        intro i
        rw [unreservedBelow_succ_of_not_mem hfree, unreservedBelow_firstIndex, Nat.add_assoc,
          Nat.add_comm 1 i]
      rw [freshMany_succ, List.range_succ_eq_map, List.map_cons, List.map_map, ← hhead]
      refine congrArg (List.cons _) ((ih (firstIndex R m + 1)).trans ?_)
      exact List.map_congr_left fun i _ => congrArg (unreserved R) (htail i)

/-- A new supply hands out the names that are not reserved, in order. -/
theorem freshMany_start (R : NameSet) (n : Nat) :
    ((start R).freshMany n).1 = (List.range n).map (unreserved R) := by
  rw [start, freshMany_eq_map_unreserved, unreservedBelow, Nat.count_zero]
  exact List.map_congr_left fun i _ => congrArg (unreserved R) (Nat.zero_add i)

/-- Without reserved names, all names are handed out. -/
theorem unreserved_empty (i : Nat) : unreserved ∅ i = Name.ofIndex i := by
  rw [unreserved, Nat.nth_of_forall fun j _ => NameSet.not_mem_empty _]

/-- Every name that has been tried was handed out or is reserved. -/
theorem next_freshMany_start_le (R : NameSet) (n : Nat) :
    ((start R).freshMany n).2.next ≤ n + R.size := by
  have hnodup : ((List.range ((start R).freshMany n).2.next).map Name.ofIndex).Nodup :=
    List.nodup_range.map fun _ _ => Name.ofIndex_injective
  have hsub : (List.range ((start R).freshMany n).2.next).map Name.ofIndex ⊆
      ((start R).freshMany n).1 ++ R.toList := by
    intro v hv
    obtain ⟨i, hi, rfl⟩ := List.mem_map.mp hv
    by_cases hr : Name.ofIndex i ∈ R
    · exact List.mem_append_right _ hr
    · exact List.mem_append_left _
        (mem_freshMany_of_drawn ⟨i, Nat.zero_le i, List.mem_range.mp hi, rfl, hr⟩)
  simpa [length_freshMany, NameSet.size] using hnodup.length_le_of_subset hsub

/-! ## Requests -/

/-- What a supply is asked for: a name, or to start again with other reserved names. -/
inductive Request where
  | fresh
  | restart (reserved : NameSet)

/-- The names that requests yield, and the supply after them. -/
def serve (k : NameSupply) : List Request → List Name × NameSupply
  | [] => ([], k)
  | .fresh :: requests =>
      (k.fresh.1 :: (k.fresh.2.serve requests).1, (k.fresh.2.serve requests).2)
  | .restart reserved :: requests => (start reserved).serve requests

/-- Requests are served one after the other. -/
theorem serve_append (requests requests' : List Request) : ∀ k : NameSupply,
    k.serve (requests ++ requests') =
      ((k.serve requests).1 ++ ((k.serve requests).2.serve requests').1,
        ((k.serve requests).2.serve requests').2) := by
  induction requests with
  | nil => exact fun _ => rfl
  | cons request requests ih =>
      intro k
      cases request with
      | fresh => simp only [List.cons_append, serve, ih]
      | restart reserved => exact ih (start reserved)

/-- Requests for a single name each are served like a request for several. -/
theorem serve_replicate_fresh (n : Nat) : ∀ k : NameSupply,
    k.serve (List.replicate n .fresh) = k.freshMany n := by
  induction n with
  | zero => exact fun _ => rfl
  | succ n ih => intro k; rw [List.replicate_succ, serve, ih, freshMany_succ]

/-- What was asked before a restart only stands in front of what is drawn after it. -/
theorem serve_restart (k : NameSupply) (history : List Request) (R : NameSet) (n : Nat) :
    k.serve (history ++ .restart R :: List.replicate n .fresh) =
      ((k.serve history).1 ++ ((start R).freshMany n).1, ((start R).freshMany n).2) := by
  rw [serve_append, serve, serve_replicate_fresh]

/-- Every search for a name ends, with one result.  After a restart, whatever was asked
before, the draws yield in order the first names that are not reserved, and a new supply
yields all names.  So no name comes twice and none is reserved, and the next index stays
within the number of the draws and of the reserved names. -/
theorem serve_enumerates :
    (∀ (k k' : NameSupply) (v : Name), Draws k v k' ↔ k.fresh = (v, k')) ∧
    (∀ (k : NameSupply) (history : List Request) (R : NameSet) (n : Nat),
      (k.serve (history ++ .restart R :: List.replicate n .fresh)).1 =
          (k.serve history).1 ++ (List.range n).map (unreserved R) ∧
        ((List.range n).map (unreserved R)).Nodup ∧
        (∀ v ∈ (List.range n).map (unreserved R), v ∉ R) ∧
        (k.serve (history ++ .restart R :: List.replicate n .fresh)).2.next ≤ n + R.size) ∧
    ∀ n, ((start ∅).serve (List.replicate n .fresh)).1 = (List.range n).map Name.ofIndex := by
  refine ⟨fun _ _ _ => draws_iff, fun k history R n => ?_, fun n => ?_⟩
  · rw [serve_restart, ← freshMany_start]
    refine ⟨rfl, nodup_freshMany n (start R), fun v hv => ?_, next_freshMany_start_le R n⟩
    obtain ⟨i, -, -, -, hr⟩ := drawn_of_mem_freshMany hv
    exact hr
  · rw [serve_replicate_fresh, freshMany_start]
    exact List.map_congr_left fun i _ => unreserved_empty i

end LetPoly.NameSupply
