import LetPoly.Name
import LetPoly.Numeral

/-! # Numbered names

Names are numbered: the name of an index is its base-26 numeral, written with
the letters `a` to `z` as digits zero to twenty-five.  Reading the numeral
gives the index back (`Name.index_ofIndex`), so different indices have
different names.
-/

namespace LetPoly.Name

/-- The letter that stands for a digit below twenty-six. -/
def letter (d : Nat) : Char :=
  Char.ofNat ('a'.toNat + d)

/-- The digit for which a letter stands. -/
def letterValue (c : Char) : Nat :=
  c.toNat - 'a'.toNat

/-- The name of an index: `a` for 0, `z` for 25, `ba` for 26, `baa` for 676. -/
def ofIndex (n : Nat) : Name :=
  String.ofList ((Numeral.digits 26 n).map letter)

/-- The number that a name denotes as a numeral. -/
def index (x : Name) : Nat :=
  Numeral.value 26 (x.toList.map letterValue)

theorem letterValue_letter : ∀ {d : Nat}, d < 26 → letterValue (letter d) = d := by
  decide

/-- The name of an index denotes that index. -/
@[simp]
theorem index_ofIndex (n : Nat) : (ofIndex n).index = n := by
  have hmap : (Numeral.digits 26 n).map (letterValue ∘ letter) = Numeral.digits 26 n := by
    refine (List.map_congr_left fun d hd => ?_).trans (List.map_id _)
    exact letterValue_letter (Numeral.lt_of_mem_digits (by omega) hd)
  rw [index, ofIndex, String.toList_ofList, List.map_map, hmap, Numeral.value_digits]

/-- Different indices have different names. -/
theorem ofIndex_injective {m n : Nat} (h : ofIndex m = ofIndex n) : m = n := by
  rw [← index_ofIndex m, h, index_ofIndex]

end LetPoly.Name
