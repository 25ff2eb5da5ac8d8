/-! # Positional numerals

The digits of a natural number in a base of at least two, most significant
digit first, and the value that a list of digits denotes.  Zero has the single
digit zero, and no other number starts with it.  Main statement: a number is
the value of its digits (`Numeral.value_digits`).
-/

namespace LetPoly.Numeral

/-- The digits of `n` in base `b`, most significant first. -/
def digits (b n : Nat) : List Nat :=
  if n < b ∨ b < 2 then [n] else digits b (n / b) ++ [n % b]
termination_by n
decreasing_by exact Nat.div_lt_self (by omega) (by omega)

/-- The number that a list of digits denotes in base `b`. -/
def value (b : Nat) (ds : List Nat) : Nat :=
  ds.foldl (fun n d => n * b + d) 0

@[simp]
theorem value_nil (b : Nat) : value b [] = 0 := rfl

@[simp]
theorem value_append_singleton (b : Nat) (ds : List Nat) (d : Nat) :
    value b (ds ++ [d]) = value b ds * b + d := by
  simp [value]

/-- A number is the value of its digits. -/
@[simp]
theorem value_digits (b n : Nat) : value b (digits b n) = n := by
  fun_induction digits b n with
  | case1 n h => simp [value]
  | case2 n h ih =>
      rw [value_append_singleton, ih, Nat.mul_comm]
      exact Nat.div_add_mod n b

/-- The digits lie below the base. -/
theorem lt_of_mem_digits {b : Nat} (hb : 2 ≤ b) {n d : Nat} (h : d ∈ digits b n) : d < b := by
  fun_induction digits b n with
  | case1 n hn =>
      rw [List.mem_singleton.mp h]
      omega
  | case2 n hn ih =>
      rcases List.mem_append.mp h with h' | h'
      · exact ih h'
      · rw [List.mem_singleton.mp h']
        exact Nat.mod_lt n (by omega)

/-- A numeral has at least one digit. -/
theorem digits_ne_nil (b n : Nat) : digits b n ≠ [] := by
  rw [digits]
  split <;> simp

end LetPoly.Numeral
