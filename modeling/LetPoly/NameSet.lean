import LetPoly.Name

/-! # Finite sets of names

A `NameSet` lists its members in increasing order.  The order is part of the
type, so a set has exactly one listing: sets with the same members are equal
(`NameSet.ext`), and whatever is printed from a set comes out sorted.
-/

namespace LetPoly

/-- A finite set of names, listed in increasing order. -/
structure NameSet where
  /-- The members in order. -/
  toList : List Name
  /-- Every member is greater than the ones before it, so none is listed twice. -/
  sorted : toList.Pairwise (· < ·)
deriving DecidableEq

namespace NameSet

/-! ## Sorted lists of names -/

/-- Put a name at its place in a sorted list, unless it is there already. -/
def insertSorted (x : Name) : List Name → List Name
  | [] => [x]
  | y :: ys =>
      if x < y then x :: y :: ys
      else if x = y then y :: ys
      else y :: insertSorted x ys

/-- Insertion adds its name and keeps the other members. -/
theorem mem_insertSorted {x z : Name} :
    ∀ {ys : List Name}, z ∈ insertSorted x ys ↔ z = x ∨ z ∈ ys
  | [] => by simp [insertSorted]
  | y :: ys => by
      rw [insertSorted]
      split
      · simp
      · split
        · next heq => subst heq; simp
        · simp only [List.mem_cons, @mem_insertSorted x z ys]
          exact or_left_comm

theorem pairwise_insertSorted (x : Name) :
    ∀ {ys : List Name}, ys.Pairwise (· < ·) → (insertSorted x ys).Pairwise (· < ·)
  | [], _ => by simp [insertSorted]
  | y :: ys, h => by
      obtain ⟨hy, hys⟩ := List.pairwise_cons.mp h
      rw [insertSorted]
      split
      · next hlt =>
        refine List.pairwise_cons.mpr ⟨fun z hz => ?_, h⟩
        cases List.mem_cons.mp hz with
        | inl he => exact he ▸ hlt
        | inr hz' => exact String.lt_trans hlt (hy z hz')
      · split
        · exact h
        · next hlt hne =>
          have hyx : y < x := by
            rcases Name.lt_or_eq_or_gt x y with h' | h' | h'
            · exact absurd h' hlt
            · exact absurd h' hne
            · exact h'
          refine List.pairwise_cons.mpr ⟨fun z hz => ?_, pairwise_insertSorted x hys⟩
          cases mem_insertSorted.mp hz with
          | inl he => exact he ▸ hyx
          | inr hz' => exact hy z hz'

/-- A sorted list is determined by its members. -/
theorem eq_of_mem_iff :
    ∀ {xs ys : List Name}, xs.Pairwise (· < ·) → ys.Pairwise (· < ·) →
      (∀ z, z ∈ xs ↔ z ∈ ys) → xs = ys
  | [], [], _, _, _ => rfl
  | [], y :: _, _, _, h => absurd ((h y).mpr List.mem_cons_self) List.not_mem_nil
  | x :: _, [], _, _, h => absurd ((h x).mp List.mem_cons_self) List.not_mem_nil
  | x :: xs, y :: ys, hx, hy, h => by
      obtain ⟨hx', hxs⟩ := List.pairwise_cons.mp hx
      obtain ⟨hy', hys⟩ := List.pairwise_cons.mp hy
      have hxy : x = y := by
        rcases List.mem_cons.mp ((h x).mp List.mem_cons_self) with he | hm
        · exact he
        · rcases List.mem_cons.mp ((h y).mpr List.mem_cons_self) with he | hm'
          · exact he.symm
          · exact absurd (String.lt_trans (hx' y hm') (hy' x hm)) (String.lt_irrefl x)
      subst hxy
      have htail : ∀ z, z ∈ xs ↔ z ∈ ys := by
        intro z
        constructor
        · intro hz
          rcases List.mem_cons.mp ((h z).mp (List.mem_cons_of_mem _ hz)) with he | hm
          · exact absurd he.symm (Name.ne_of_lt (hx' z hz))
          · exact hm
        · intro hz
          rcases List.mem_cons.mp ((h z).mpr (List.mem_cons_of_mem _ hz)) with he | hm
          · exact absurd he.symm (Name.ne_of_lt (hy' z hz))
          · exact hm
      rw [eq_of_mem_iff hxs hys htail]

/-! ## Operations -/

instance : Membership Name NameSet := ⟨fun s x => x ∈ s.toList⟩

instance (x : Name) (s : NameSet) : Decidable (x ∈ s) :=
  inferInstanceAs (Decidable (x ∈ s.toList))

instance : EmptyCollection NameSet := ⟨⟨[], List.Pairwise.nil⟩⟩

instance : Inhabited NameSet := ⟨∅⟩

instance : Insert Name NameSet :=
  ⟨fun x s => ⟨insertSorted x s.toList, pairwise_insertSorted x s.sorted⟩⟩

instance : Singleton Name NameSet := ⟨fun x => insert x ∅⟩

/-- All names of a list. -/
def ofList (xs : List Name) : NameSet :=
  xs.foldr insert ∅

instance : Union NameSet := ⟨fun s t => s.toList.foldr insert t⟩

instance : SDiff NameSet :=
  ⟨fun s t => ⟨s.toList.filter (· ∉ t), s.sorted.sublist List.filter_sublist⟩⟩

/-- The set without one name. -/
def erase (s : NameSet) (x : Name) : NameSet :=
  ⟨s.toList.filter (· ≠ x), s.sorted.sublist List.filter_sublist⟩

/-- The number of members. -/
def size (s : NameSet) : Nat :=
  s.toList.length

instance : HasSubset NameSet := ⟨fun s t => ∀ x, x ∈ s → x ∈ t⟩

/-! ## Members -/

theorem mem_toList {x : Name} {s : NameSet} : x ∈ s.toList ↔ x ∈ s := Iff.rfl

/-- Sets with the same members are equal. -/
theorem ext {s t : NameSet} (h : ∀ x, x ∈ s ↔ x ∈ t) : s = t := by
  cases s with
  | mk xs hxs =>
    cases t with
    | mk ys hys =>
      congr
      exact eq_of_mem_iff hxs hys h

@[simp]
theorem not_mem_empty (x : Name) : x ∉ (∅ : NameSet) := List.not_mem_nil

@[simp]
theorem mem_insert {x y : Name} {s : NameSet} : x ∈ insert y s ↔ x = y ∨ x ∈ s :=
  mem_insertSorted

@[simp]
theorem mem_singleton {x y : Name} : x ∈ ({y} : NameSet) ↔ x = y :=
  mem_insertSorted.trans (by simp [EmptyCollection.emptyCollection])

theorem mem_foldr_insert {x : Name} {t : NameSet} :
    ∀ {xs : List Name}, x ∈ xs.foldr insert t ↔ x ∈ xs ∨ x ∈ t
  | [] => by simp
  | y :: xs => by simp [@mem_foldr_insert x t xs, or_assoc]

@[simp]
theorem mem_ofList {x : Name} {xs : List Name} : x ∈ ofList xs ↔ x ∈ xs := by
  simp [ofList, mem_foldr_insert]

@[simp]
theorem mem_union {x : Name} {s t : NameSet} : x ∈ s ∪ t ↔ x ∈ s ∨ x ∈ t :=
  mem_foldr_insert

@[simp]
theorem mem_sdiff {x : Name} {s t : NameSet} : x ∈ s \ t ↔ x ∈ s ∧ x ∉ t :=
  List.mem_filter.trans (by simp [mem_toList])

@[simp]
theorem mem_erase {x y : Name} {s : NameSet} : x ∈ s.erase y ↔ x ∈ s ∧ x ≠ y :=
  List.mem_filter.trans (by simp [mem_toList])

/-! ## Sizes -/

/-- No name is listed twice. -/
theorem nodup (s : NameSet) : s.toList.Nodup :=
  s.sorted.imp Name.ne_of_lt

theorem size_le_of_subset {s t : NameSet} (h : s ⊆ t) : s.size ≤ t.size :=
  s.nodup.length_le_of_subset h

/-- A set that lacks a member of a larger set is smaller. -/
theorem size_lt_of_subset {s t : NameSet} {x : Name} (h : s ⊆ t) (hx : x ∈ t) (hs : x ∉ s) :
    s.size < t.size := by
  have hle : (x :: s.toList).length ≤ t.toList.length := by
    refine List.Nodup.length_le_of_subset (List.nodup_cons.mpr ⟨hs, s.nodup⟩) ?_
    intro y hy
    cases List.mem_cons.mp hy with
    | inl he => exact he ▸ hx
    | inr hy' => exact h y hy'
  exact hle

theorem size_erase_lt {s : NameSet} {x : Name} (h : x ∈ s) : (s.erase x).size < s.size :=
  size_lt_of_subset (fun _ hy => (mem_erase.mp hy).1) h (by simp)

end NameSet

end LetPoly
