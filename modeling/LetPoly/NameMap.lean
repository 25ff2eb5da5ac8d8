import LetPoly.NameSet

/-! # Finite maps from names

A `NameMap α` lists its entries by increasing name.  Looking a name up
(`NameMap.find?`) is the view through which every operation is described, and
maps that answer every look-up alike are equal (`NameMap.ext_find?`).
-/

namespace LetPoly

/-- A finite map from names to `α`, listed by increasing name. -/
structure NameMap (α : Type) where
  /-- The entries, each a name and its value. -/
  entries : List (Name × α)
  /-- Every name is greater than the ones before it, so none has two entries. -/
  sorted : entries.Pairwise (·.1 < ·.1)
deriving DecidableEq

namespace NameMap

variable {α β : Type}

/-! ## Sorted lists of entries -/

/-- Put an entry at its place in a sorted list, replacing an entry of the same
name. -/
def insertEntry (x : Name) (a : α) : List (Name × α) → List (Name × α)
  | [] => [(x, a)]
  | (y, b) :: es =>
      if x < y then (x, a) :: (y, b) :: es
      else if x = y then (x, a) :: es
      else (y, b) :: insertEntry x a es

theorem lookup_cons_ite (x y : Name) (b : α) (es : List (Name × α)) :
    ((y, b) :: es).lookup x = if x = y then some b else es.lookup x := by
  by_cases h : x = y
  · simp [h]
  · have hb : (x == y) = false := by simp [h]
    simp [List.lookup_cons, h, hb]

/-- The names of the entries after an insertion. -/
theorem fst_mem_insertEntry {x : Name} {a : α} {e : Name × α} :
    ∀ {es : List (Name × α)}, e ∈ insertEntry x a es → e.1 = x ∨ e ∈ es
  | [], h => by simp_all [insertEntry]
  | (y, b) :: es, h => by
      rw [insertEntry] at h
      split at h
      · cases List.mem_cons.mp h with
        | inl he => exact .inl (he ▸ rfl)
        | inr he => exact .inr he
      · split at h
        · cases List.mem_cons.mp h with
          | inl he => exact .inl (he ▸ rfl)
          | inr he => exact .inr (List.mem_cons_of_mem _ he)
        · cases List.mem_cons.mp h with
          | inl he => exact .inr (he ▸ List.mem_cons_self)
          | inr he =>
              cases fst_mem_insertEntry he with
              | inl h' => exact .inl h'
              | inr h' => exact .inr (List.mem_cons_of_mem _ h')

theorem pairwise_insertEntry (x : Name) (a : α) :
    ∀ {es : List (Name × α)}, es.Pairwise (·.1 < ·.1) →
      (insertEntry x a es).Pairwise (·.1 < ·.1)
  | [], _ => by simp [insertEntry]
  | (y, b) :: es, h => by
      obtain ⟨hy, hes⟩ := List.pairwise_cons.mp h
      rw [insertEntry]
      split
      · next hlt =>
        refine List.pairwise_cons.mpr ⟨fun e he => ?_, h⟩
        cases List.mem_cons.mp he with
        | inl heq => exact heq ▸ hlt
        | inr he' => exact String.lt_trans hlt (hy e he')
      · split
        · next _ heq =>
          subst heq
          exact List.pairwise_cons.mpr ⟨hy, hes⟩
        · next hlt hne =>
          have hyx : y < x := by
            rcases Name.lt_or_eq_or_gt x y with h' | h' | h'
            · exact absurd h' hlt
            · exact absurd h' hne
            · exact h'
          refine List.pairwise_cons.mpr ⟨fun e he => ?_, pairwise_insertEntry x a hes⟩
          cases fst_mem_insertEntry he with
          | inl heq => exact heq ▸ hyx
          | inr he' => exact hy e he'

/-- What is found after an insertion: the new entry at its name, and the old ones
elsewhere. -/
theorem lookup_insertEntry (x z : Name) (a : α) :
    ∀ es : List (Name × α),
      (insertEntry x a es).lookup z = if z = x then some a else es.lookup z
  | [] => by simp [insertEntry, lookup_cons_ite]
  | (y, b) :: es => by
      rw [insertEntry]
      split
      · simp [lookup_cons_ite]
      · split
        · next _ heq =>
          subst heq
          by_cases hz : z = x <;> simp [lookup_cons_ite, hz]
        · next _ hne =>
          simp only [lookup_cons_ite, lookup_insertEntry x z a es]
          by_cases hzy : z = y
          · subst hzy
            simp [Ne.symm hne]
          · simp [hzy]

/-- A name smaller than all names of a list is not found in it. -/
theorem lookup_eq_none_of_lt {x : Name} :
    ∀ {es : List (Name × α)}, (∀ e ∈ es, x < e.1) → es.lookup x = none
  | [], _ => rfl
  | (y, b) :: es, h => by
      have hxy : x < y := h (y, b) List.mem_cons_self
      rw [lookup_cons_ite, if_neg (Name.ne_of_lt hxy)]
      exact lookup_eq_none_of_lt fun e he => h e (List.mem_cons_of_mem _ he)

/-- A sorted list of entries is determined by its look-ups. -/
theorem eq_of_lookup_eq :
    ∀ {es fs : List (Name × α)}, es.Pairwise (·.1 < ·.1) → fs.Pairwise (·.1 < ·.1) →
      (∀ x, es.lookup x = fs.lookup x) → es = fs
  | [], [], _, _, _ => rfl
  | [], (y, b) :: _, _, _, h => by
      have := h y
      simp at this
  | (x, a) :: _, [], _, _, h => by
      have := h x
      simp at this
  | (x, a) :: es, (y, b) :: fs, he, hf, h => by
      obtain ⟨hx, hes⟩ := List.pairwise_cons.mp he
      obtain ⟨hy, hfs⟩ := List.pairwise_cons.mp hf
      have hxy : x = y := by
        rcases Name.lt_or_eq_or_gt x y with hlt | heq | hgt
        · have hnone : ((y, b) :: fs).lookup x = none := by
            refine lookup_eq_none_of_lt fun e he' => ?_
            cases List.mem_cons.mp he' with
            | inl h' => exact h' ▸ hlt
            | inr h' => exact String.lt_trans hlt (hy e h')
          have := h x
          rw [hnone] at this
          simp at this
        · exact heq
        · have hnone : ((x, a) :: es).lookup y = none := by
            refine lookup_eq_none_of_lt fun e he' => ?_
            cases List.mem_cons.mp he' with
            | inl h' => exact h' ▸ hgt
            | inr h' => exact String.lt_trans hgt (hx e h')
          have := h y
          rw [hnone] at this
          simp at this
      subst hxy
      have hab : a = b := by
        have := h x
        simpa [lookup_cons_ite] using this
      subst hab
      have htail : ∀ z, es.lookup z = fs.lookup z := by
        intro z
        by_cases hz : z = x
        · subst hz
          rw [lookup_eq_none_of_lt hx, lookup_eq_none_of_lt hy]
        · have := h z
          simpa [lookup_cons_ite, hz] using this
      rw [eq_of_lookup_eq hes hfs htail]

theorem lookup_filter (p : Name → Bool) (x : Name) :
    ∀ es : List (Name × α),
      (es.filter fun e => p e.1).lookup x = if p x then es.lookup x else none
  | [] => by simp
  | (y, b) :: es => by
      rw [List.filter_cons]
      by_cases hxy : x = y
      · subst hxy
        by_cases hp : p x <;> simp [hp, lookup_filter p x es]
      · by_cases hp : p y <;> simp [hp, lookup_cons_ite, lookup_filter p x es, hxy]

theorem lookup_map (f : α → β) (x : Name) :
    ∀ es : List (Name × α),
      (es.map fun e => (e.1, f e.2)).lookup x = (es.lookup x).map f
  | [] => rfl
  | (y, b) :: es => by
      by_cases hxy : x = y <;> simp [lookup_cons_ite, lookup_map f x es, hxy]

/-- In a sorted list, look-up finds exactly the entries. -/
theorem lookup_eq_some_iff {x : Name} {a : α} :
    ∀ {es : List (Name × α)}, es.Pairwise (·.1 < ·.1) →
      (es.lookup x = some a ↔ (x, a) ∈ es)
  | [], _ => by simp
  | (y, b) :: es, h => by
      obtain ⟨hy, hes⟩ := List.pairwise_cons.mp h
      rw [lookup_cons_ite, List.mem_cons, Prod.mk.injEq]
      by_cases hxy : x = y
      · subst hxy
        have hnot : (x, a) ∉ es := fun hm => String.lt_irrefl x (hy _ hm)
        simp [hnot, eq_comm]
      · simp [hxy, lookup_eq_some_iff hes]

/-! ## Operations -/

instance : EmptyCollection (NameMap α) := ⟨⟨[], List.Pairwise.nil⟩⟩

instance : Inhabited (NameMap α) := ⟨∅⟩

/-- The value at a name. -/
def find? (m : NameMap α) (x : Name) : Option α :=
  m.entries.lookup x

/-- The map with `x` bound to `a`, in place of any earlier binding of `x`. -/
def insert (m : NameMap α) (x : Name) (a : α) : NameMap α :=
  ⟨insertEntry x a m.entries, pairwise_insertEntry x a m.sorted⟩

/-- The map that binds one name. -/
def single (x : Name) (a : α) : NameMap α :=
  (∅ : NameMap α).insert x a

/-- The map without the names of a list. -/
def eraseAll (m : NameMap α) (xs : List Name) : NameMap α :=
  ⟨m.entries.filter (·.1 ∉ xs), m.sorted.sublist List.filter_sublist⟩

/-- The map without one name. -/
def erase (m : NameMap α) (x : Name) : NameMap α :=
  m.eraseAll [x]

/-- Apply a function to every value. -/
def map (f : α → β) (m : NameMap α) : NameMap β :=
  ⟨m.entries.map fun e => (e.1, f e.2), List.pairwise_map.mpr m.sorted⟩

/-- The entries of a list; where a name is repeated, its last entry counts. -/
def ofList (es : List (Name × α)) : NameMap α :=
  es.foldl (fun m e => m.insert e.1 e.2) ∅

/-- All bindings of `top`, and those of `bottom` at other names. -/
def overlay (top bottom : NameMap α) : NameMap α :=
  top.entries.foldr (fun e m => m.insert e.1 e.2) bottom

/-- The bound names. -/
def keys (m : NameMap α) : NameSet :=
  ⟨m.entries.map (·.1), List.pairwise_map.mpr m.sorted⟩

/-- Whether no name is bound. -/
def isEmpty (m : NameMap α) : Bool :=
  m.entries.isEmpty

/-! ## Look-ups -/

/-- Maps that answer every look-up alike are equal. -/
theorem ext_find? {m n : NameMap α} (h : ∀ x, m.find? x = n.find? x) : m = n := by
  cases m with
  | mk es hes =>
    cases n with
    | mk fs hfs =>
      congr
      exact eq_of_lookup_eq hes hfs h

@[simp]
theorem find?_empty (x : Name) : (∅ : NameMap α).find? x = none := rfl

@[simp]
theorem find?_insert (m : NameMap α) (x z : Name) (a : α) :
    (m.insert x a).find? z = if z = x then some a else m.find? z :=
  lookup_insertEntry x z a m.entries

@[simp]
theorem find?_single (x z : Name) (a : α) :
    (single x a).find? z = if z = x then some a else none := by
  simp [single]

theorem find?_single_eq_some_iff {x z : Name} {a b : α} :
    (single x a).find? z = some b ↔ z = x ∧ b = a := by
  rw [find?_single]
  by_cases hz : z = x <;> simp [hz, eq_comm]

@[simp]
theorem find?_eraseAll (m : NameMap α) (xs : List Name) (z : Name) :
    (m.eraseAll xs).find? z = if z ∈ xs then none else m.find? z := by
  have h := lookup_filter (fun y => decide (y ∉ xs)) z m.entries
  refine Eq.trans h ?_
  by_cases hz : z ∈ xs <;> simp [hz, find?]

@[simp]
theorem find?_erase (m : NameMap α) (x z : Name) :
    (m.erase x).find? z = if z = x then none else m.find? z := by
  simp [erase]

@[simp]
theorem find?_map (f : α → β) (m : NameMap α) (z : Name) :
    (m.map f).find? z = (m.find? z).map f :=
  lookup_map f z m.entries

@[simp]
theorem find?_overlay (top bottom : NameMap α) (z : Name) :
    (top.overlay bottom).find? z = (top.find? z).or (bottom.find? z) := by
  obtain ⟨es, hes⟩ := top
  simp only [overlay, find?]
  induction es with
  | nil => simp
  | cons e es ih =>
      obtain ⟨x, a⟩ := e
      have ih' := ih (List.pairwise_cons.mp hes).2
      rw [List.foldr_cons, ← find?, find?_insert, find?, ih', lookup_cons_ite]
      by_cases hz : z = x <;> simp [hz]

/-- The last entry of a name counts. -/
theorem find?_ofList (es : List (Name × α)) (z : Name) :
    (ofList es).find? z = es.reverse.lookup z := by
  have hfold : ∀ fs : List (Name × α),
      (fs.foldr (fun e m => m.insert e.1 e.2) (∅ : NameMap α)).find? z = fs.lookup z := by
    intro fs
    induction fs with
    | nil => rfl
    | cons e fs ih => rw [List.foldr_cons, find?_insert, ih, lookup_cons_ite]
  rw [← hfold, List.foldr_reverse]
  rfl

theorem find?_eq_some_iff {m : NameMap α} {x : Name} {a : α} :
    m.find? x = some a ↔ (x, a) ∈ m.entries :=
  lookup_eq_some_iff m.sorted

theorem mem_keys_iff {m : NameMap α} {x : Name} : x ∈ m.keys ↔ ∃ a, m.find? x = some a := by
  simp only [find?_eq_some_iff]
  constructor
  · intro h
    obtain ⟨e, he, rfl⟩ := List.mem_map.mp h
    exact ⟨e.2, he⟩
  · rintro ⟨a, ha⟩
    exact List.mem_map.mpr ⟨(x, a), ha, rfl⟩

theorem find?_eq_none_iff {m : NameMap α} {x : Name} : m.find? x = none ↔ x ∉ m.keys := by
  rw [mem_keys_iff]
  cases h : m.find? x <;> simp

theorem eq_empty_iff {m : NameMap α} : m = ∅ ↔ ∀ x, x ∉ m.keys := by
  constructor
  · rintro rfl x
    simp [mem_keys_iff]
  · intro h
    refine ext_find? fun x => ?_
    rw [find?_empty, find?_eq_none_iff]
    exact h x

end NameMap

end LetPoly
