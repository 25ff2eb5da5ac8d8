/-! # Names

Term variables and type variables are both named by strings.  Names are
ordered by code points, so that a sorted collection of names has one listing
and two collections with the same members are equal.
-/

namespace LetPoly

/-- Names of term variables and of type variables. -/
abbrev Name : Type := String

namespace Name

/-- The order of names is total. -/
theorem lt_or_eq_or_gt (x y : Name) : x < y ∨ x = y ∨ y < x := by
  by_cases hxy : x < y
  · exact Or.inl hxy
  · by_cases hyx : y < x
    · exact Or.inr (Or.inr hyx)
    · exact Or.inr (Or.inl (String.le_antisymm (String.not_lt.mp hyx) (String.not_lt.mp hxy)))

theorem ne_of_lt {x y : Name} (h : x < y) : x ≠ y := by
  rintro rfl
  exact String.lt_irrefl x h

end Name

end LetPoly
