import Mathlib.Data.List.Induction
import Mathlib.Data.List.Shortlex
import Mathlib.Data.String.Basic
import LetPoly.Proofs.PrintedTypes

/-! # Numbered names are numerals

The name of an index is its numeral in base 26, with `a` to `z` as digits.  Since `a` is
the digit zero, a name is a numeral of this kind if it does not start with `a`, or is `a`
itself; `aa` is none.  Naming and reading are inverse to each other
(`Name.index_ofIndex`, `Name.ofIndex_index`), and longer names have greater indices, as
have later ones among names of one length (`Name.ofIndex_lt_iff`).

All of it follows the division that yields the digits: the last one is the remainder, and
those before it are the digits of the quotient.
-/

namespace LetPoly

/-! ## Digits -/

namespace Numeral

variable {b n m : Nat}

theorem digits_of_lt (h : n < b) : digits b n = [n] := by
  rw [digits, if_pos (.inl h)]

theorem digits_of_le (hb : 2 ≤ b) (h : b ≤ n) : digits b n = digits b (n / b) ++ [n % b] := by
  rw [digits, if_neg (by omega)]

/-- No number but zero starts with the digit zero. -/
theorem eq_zero_of_head?_digits (h : (digits b n).head? = some 0) : n = 0 := by
  fun_induction digits b n with
  | case1 n hn => simpa using h
  | case2 n hn ih =>
      rw [List.head?_append_of_ne_nil _ (digits_ne_nil b (n / b))] at h
      have hquot : n / b = 0 := ih h
      have hlt : n < b := (Nat.div_eq_zero_iff.mp hquot).resolve_left (by omega)
      exact absurd (.inl hlt) hn

/-- The digits of the value of digits are those digits again, if the first one is not zero
or the only one. -/
theorem digits_value (hb : 2 ≤ b) {ds : List Nat} (hne : ds ≠ []) (hds : ∀ d ∈ ds, d < b)
    (hzero : ds.head? = some 0 → ds = [0]) : digits b (value b ds) = ds := by
  induction ds using List.reverseRecOn with
  | nil => exact absurd rfl hne
  | append_singleton ds d ih =>
      have hd : d < b := hds d (by simp)
      rw [value_append_singleton]
      by_cases hds' : ds = []
      · subst hds'
        simpa using digits_of_lt hd
      · have hhead : ds.head? ≠ some 0 := by
          intro h0
          have hall : (ds ++ [d]).head? = some 0 := by rwa [List.head?_append_of_ne_nil ds hds']
          simpa [List.append_eq_singleton_iff, hds'] using hzero hall
        have hprev : digits b (value b ds) = ds :=
          ih hds' (fun e he => hds e (List.mem_append_left _ he)) fun h0 => absurd h0 hhead
        -- the digits before the last one do not denote zero, so there is a division to undo
        have hpos : value b ds ≠ 0 := by
          intro h0
          rw [h0, digits_of_lt (by omega)] at hprev
          exact hhead (hprev ▸ rfl)
        have hle : b ≤ value b ds * b + d :=
          Nat.le_trans (Nat.le_mul_of_pos_left b (Nat.pos_of_ne_zero hpos)) (Nat.le_add_right _ d)
        have hdiv : (value b ds * b + d) / b = value b ds := by
          rw [Nat.mul_comm, Nat.mul_add_div (by omega), Nat.div_eq_of_lt hd, Nat.add_zero]
        have hmod : (value b ds * b + d) % b = d := by
          rw [Nat.mul_add_mod_self_right, Nat.mod_eq_of_lt hd]
        rw [digits_of_le hb hle, hdiv, hmod, hprev]

/-- Of two lists of one length the former stays the former whatever is added behind. -/
theorem lex_append {α : Type} {r : α → α → Prop} {xs ys : List α} (h : List.Lex r xs ys)
    (hlen : xs.length = ys.length) (us vs : List α) : List.Lex r (xs ++ us) (ys ++ vs) := by
  induction h with
  | nil => simp at hlen
  | cons _ ih => exact .cons (ih (Nat.succ.inj hlen))
  | rel hr => exact .rel hr

/-- The digits of a greater number are more, or as many and lexicographically later. -/
theorem shortlex_digits (hb : 2 ≤ b) (h : n < m) :
    List.Shortlex (· < ·) (digits b n) (digits b m) := by
  induction m using Nat.strongRecOn generalizing n with
  | ind m ih =>
      by_cases hm : m < b
      · rw [digits_of_lt hm, digits_of_lt (by omega), List.shortlex_singleton_iff]
        exact h
      · rw [digits_of_le hb (by omega : b ≤ m)]
        by_cases hn : n < b
        · rw [digits_of_lt hn]
          refine .of_length_lt ?_
          have := List.length_pos_of_ne_nil (digits_ne_nil b (m / b))
          simpa
        · rw [digits_of_le hb (by omega : b ≤ n)]
          rcases Nat.lt_or_eq_of_le (Nat.div_le_div_right (c := b) (Nat.le_of_lt h)) with hlt | heq
          · -- the quotients decide
            rcases List.shortlex_def.mp (ih (m / b) (Nat.div_lt_self (by omega) hb) hlt) with
              hlen | ⟨hlen, hlex⟩
            · exact .of_length_lt (by simpa using hlen)
            · exact .of_lex (by simpa using hlen) (lex_append hlex hlen _ _)
          · -- the quotients are equal, and the remainders decide
            rw [heq]
            refine List.Shortlex.append_left ?_ _
            rw [List.shortlex_singleton_iff]
            have hn' := Nat.div_add_mod n b
            have hm' := Nat.div_add_mod m b
            rw [heq] at hn'
            omega

end Numeral

/-! ## Names -/

namespace Name

variable {x : Name} {c : Char} {n m : Nat}

theorem letter_lt_letter :
    ∀ {d : Nat}, d < 26 → ∀ {e : Nat}, e < 26 → d < e → letter d < letter e := by
  decide

theorem toNat_of_isLower (h : c.isLower = true) : 'a'.toNat ≤ c.toNat ∧ c.toNat ≤ 'z'.toNat := by
  obtain ⟨hge, hle⟩ := Bool.and_eq_true_iff.mp h
  exact ⟨UInt32.le_iff_toNat_le.mp (of_decide_eq_true hge),
    UInt32.le_iff_toNat_le.mp (of_decide_eq_true hle)⟩

theorem letterValue_lt (h : c.isLower = true) : letterValue c < 26 := by
  have hz : c.toNat ≤ 'a'.toNat + 25 := (toNat_of_isLower h).2
  rw [letterValue]
  omega

theorem letter_letterValue (h : c.isLower = true) : letter (letterValue c) = c := by
  rw [letter, letterValue, Nat.add_sub_cancel' (toNat_of_isLower h).1, Char.ofNat_toNat]

theorem toList_ofIndex (n : Nat) : (ofIndex n).toList = (Numeral.digits 26 n).map letter :=
  String.toList_ofList

/-- Only the name of zero starts with `a`. -/
theorem eq_zero_of_head?_ofIndex (h : (ofIndex n).toList.head? = some 'a') : n = 0 := by
  rw [toList_ofIndex, List.head?_map, Option.map_eq_some_iff] at h
  obtain ⟨d, hd, hletter⟩ := h
  have hlt : d < 26 := Numeral.lt_of_mem_digits (by omega) (List.mem_of_head? hd)
  have hzero : d = 0 := by
    rw [← letterValue_letter hlt, hletter]
    rfl
  exact Numeral.eq_zero_of_head?_digits (hzero ▸ hd)

/-- A lowercase name that does not start with `a`, or is `a`, is the name of the number that
it denotes. -/
theorem ofIndex_index (hlow : x.IsLowercase) (ha : x.toList.head? = some 'a' → x = "a") :
    ofIndex x.index = x := by
  obtain ⟨hne, hlower⟩ := hlow
  have hdigits : Numeral.digits 26 x.index = x.toList.map letterValue := by
    refine Numeral.digits_value (by omega) (by simpa using hne) ?_ ?_
    · intro d hd
      obtain ⟨c, hc, rfl⟩ := List.mem_map.mp hd
      exact letterValue_lt (hlower c hc)
    · intro hzero
      rw [List.head?_map, Option.map_eq_some_iff] at hzero
      obtain ⟨c, hc, hvalue⟩ := hzero
      have hca : c = 'a' := by
        rw [← letter_letterValue (hlower c (List.mem_of_head? hc)), hvalue]
        rfl
      rw [ha (hca ▸ hc)]
      rfl
  have hmap : (x.toList.map letterValue).map letter = x.toList := by
    rw [List.map_map]
    exact (List.map_congr_left fun c hc => letter_letterValue (hlower c hc)).trans (List.map_id _)
  rw [ofIndex, hdigits, hmap, String.ofList_toList]

/-! ## The order of names -/

/-- The letters of digits are ordered as the digits are. -/
theorem lex_map_letter {ds es : List Nat} (h : List.Lex (· < ·) ds es) (hds : ∀ d ∈ ds, d < 26)
    (hes : ∀ e ∈ es, e < 26) : List.Lex (· < ·) (ds.map letter) (es.map letter) := by
  induction h with
  | nil => exact .nil
  | cons _ ih =>
      simp only [List.forall_mem_cons] at hds hes
      exact .cons (ih hds.2 hes.2)
  | rel hlt =>
      simp only [List.forall_mem_cons] at hds hes
      exact .rel (letter_lt_letter hds.1 hes.1 hlt)

/-- A name has as many letters as its index has digits. -/
theorem length_ofIndex (n : Nat) : (ofIndex n).length = (Numeral.digits 26 n).length := by
  rw [← String.length_toList, toList_ofIndex, List.length_map]

/-- Names come in the order of their length, and of the alphabet among those of one
length. -/
theorem ofIndex_lt_of_lt (h : n < m) :
    (ofIndex n).length < (ofIndex m).length ∨
      (ofIndex n).length = (ofIndex m).length ∧ ofIndex n < ofIndex m := by
  rw [length_ofIndex, length_ofIndex]
  refine (List.shortlex_def.mp (Numeral.shortlex_digits (by omega) h)).imp_right ?_
  rintro ⟨hlen, hlex⟩
  refine ⟨hlen, String.lt_iff_toList_lt.mpr ?_⟩
  rw [toList_ofIndex, toList_ofIndex]
  exact lex_map_letter hlex (fun d => Numeral.lt_of_mem_digits (by omega))
    fun e => Numeral.lt_of_mem_digits (by omega)

/-- Names are ordered like their indices, by their length and then lexicographically. -/
theorem ofIndex_lt_iff :
    n < m ↔ (ofIndex n).length < (ofIndex m).length ∨
      (ofIndex n).length = (ofIndex m).length ∧ ofIndex n < ofIndex m := by
  refine ⟨ofIndex_lt_of_lt, fun h => ?_⟩
  rcases Nat.lt_trichotomy n m with hlt | rfl | hgt
  · exact hlt
  · exact (h.elim (Nat.lt_irrefl _) fun h => String.lt_irrefl _ h.2).elim
  · rcases ofIndex_lt_of_lt hgt with hlen | ⟨hlen, hlt⟩
    · omega
    · exact (h.elim (by omega) fun h => String.lt_asymm h.2 hlt).elim

/-- The name of an index is a lowercase word that starts with `a` only for zero and denotes
the index.  Every lowercase word that does not start with `a`, or is `a`, is the name of the
number that it denotes.  So different indices have different names, and a greater index has a
longer name, or one as long that comes later. -/
theorem ofIndex_faithful :
    (∀ n, (ofIndex n).IsLowercase ∧ ((ofIndex n).toList.head? = some 'a' → n = 0) ∧
      (ofIndex n).index = n) ∧
    (∀ x : Name, x.IsLowercase → (x.toList.head? ≠ some 'a' ∨ x = "a") → ofIndex x.index = x) ∧
    Function.Injective ofIndex ∧
    ∀ n m, n < m ↔ (ofIndex n).length < (ofIndex m).length ∨
      (ofIndex n).length = (ofIndex m).length ∧ ofIndex n < ofIndex m :=
  ⟨fun n => ⟨isLowercase_ofIndex n, eq_zero_of_head?_ofIndex, index_ofIndex n⟩,
    fun _ hlow ha => ofIndex_index hlow fun h => ha.resolve_left (not_not_intro h),
    fun _ _ => ofIndex_injective, fun _ _ => ofIndex_lt_iff⟩

/-- The name after `z` is `ba`, and no index has the name `aa`. -/
theorem ofIndex_faithful_ba :
    ofIndex 25 = "z" ∧ ofIndex 26 = "ba" ∧ ∀ n, ofIndex n ≠ "aa" := by
  refine ⟨ofIndex_faithful.2.1 "z" (by decide) (.inl (by decide)),
    ofIndex_faithful.2.1 "ba" (by decide) (.inl (by decide)), fun n h => ?_⟩
  have hzero : n = 0 := (ofIndex_faithful.1 n).2.1 (h ▸ rfl)
  have ha : ofIndex 0 = "a" := ofIndex_faithful.2.1 "a" (by decide) (.inr rfl)
  rw [hzero, ha] at h
  exact absurd h (by decide)

end Name

end LetPoly
