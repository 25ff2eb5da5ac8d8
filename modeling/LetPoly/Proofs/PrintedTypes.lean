import LetPoly.NameSupply
import LetPoly.Proofs.Lexing
import LetPoly.Subst

/-! # Printed types are unambiguous

Types, schemes and substitutions whose type variables are words of lowercase
letters can be read off their texts in one way only (`render_unambiguous`).  A
type ends before any text that goes on neither with a letter nor with an arrow
(`Ty.Ends`), and no other type has a text that starts the same and ends there
(`Ty.Determined`).
-/

namespace LetPoly

/-! ## Texts without a character -/

section

variable {p : Char → Bool} {cs cs' rest rest' : List Char}

/-- Two words of a class that end where the class ends are equal, and so is what follows. -/
theorem eq_of_append_eq_of_stops (hcs : ∀ c ∈ cs, p c = true) (hcs' : ∀ c ∈ cs', p c = true)
    (hrest : Stops p rest) (hrest' : Stops p rest') (h : cs ++ rest = cs' ++ rest') :
    cs = cs' ∧ rest = rest' := by
  have hword : cs = cs' := by
    rw [← takeWhile_append_of_stops hcs hrest, h, takeWhile_append_of_stops hcs' hrest']
  subst hword
  exact ⟨rfl, List.append_cancel_left h⟩

/-- The same for words before the first occurrence of a character. -/
theorem eq_of_append_cons_eq {c : Char} (hcs : c ∉ cs) (hcs' : c ∉ cs')
    (h : cs ++ c :: rest = cs' ++ c :: rest') : cs = cs' ∧ rest = rest' := by
  have hstops : ∀ rest, Stops (· != c) (c :: rest) := fun rest => stops_cons.mpr (by simp)
  have hall : ∀ {cs : List Char}, c ∉ cs → ∀ d ∈ cs, (d != c) = true := by
    intro cs hcs d hd
    simpa using ne_of_mem_of_not_mem hd hcs
  obtain ⟨hword, hrest⟩ :=
    eq_of_append_eq_of_stops (hall hcs) (hall hcs') (hstops rest) (hstops rest') h
  exact ⟨hword, List.tail_eq_of_cons_eq hrest⟩

end

theorem intercalate_append_sep {sep : List Char} {texts : List (List Char)} (h : texts ≠ []) :
    sep.intercalate texts ++ sep = texts.flatMap (· ++ sep) := by
  induction texts with
  | nil => exact absurd rfl h
  | cons text texts ih =>
      cases texts with
      | nil => simp
      | cons text' texts =>
          rw [List.intercalate_cons_cons, List.append_assoc, ih (List.cons_ne_nil _ _)]
          rfl

theorem not_mem_intercalate {c : Char} {sep : List Char} {texts : List (List Char)} (hsep : c ∉ sep)
    (h : ∀ text ∈ texts, c ∉ text) : c ∉ sep.intercalate texts := by
  intro hc
  by_cases hne : texts = []
  · simp [hne] at hc
  · have hmem : c ∈ texts.flatMap (· ++ sep) := by
      rw [← intercalate_append_sep hne]
      exact List.mem_append_left sep hc
    obtain ⟨text, htext, hmem⟩ := List.mem_flatMap.mp hmem
    exact (List.mem_append.mp hmem).elim (h text htext) hsep

section

variable {α : Type} {text : α → List Char} {sep : Char} {tail : List Char} {as as' : List α}

/-- A list of texts can be read back from their concatenation if each one ends at the
first separator and each text has one source. -/
theorem eq_of_flatMap_text_eq (has : ∀ a ∈ as, sep ∉ text a) (has' : ∀ a ∈ as', sep ∉ text a)
    (hinj : ∀ a ∈ as, ∀ a' ∈ as', text a = text a' → a = a')
    (h : as.flatMap (text · ++ sep :: tail) = as'.flatMap (text · ++ sep :: tail)) : as = as' := by
  induction as generalizing as' with
  | nil =>
      cases as' with
      | nil => rfl
      | cons a' as' => simp at h
  | cons a as ih =>
      cases as' with
      | nil => simp at h
      | cons a' as' =>
          simp only [List.forall_mem_cons] at has has' hinj
          rw [List.flatMap_cons, List.flatMap_cons, List.append_assoc, List.append_assoc] at h
          obtain ⟨htext, hrest⟩ := eq_of_append_cons_eq has.1 has'.1 h
          have hhead : a = a' := hinj.1.1 htext
          have htail : as = as' := ih has.2 has'.2 (fun b hb => (hinj.2 b hb).2)
            (List.append_cancel_left hrest)
          rw [hhead, htail]

/-- Items can be told apart in a list of their texts, if the separator starts with a
character that none of the texts has. -/
theorem eq_of_intercalate_map_eq (has : ∀ a ∈ as, text a ≠ [] ∧ sep ∉ text a)
    (has' : ∀ a ∈ as', text a ≠ [] ∧ sep ∉ text a)
    (hinj : ∀ a ∈ as, ∀ a' ∈ as', text a = text a' → a = a')
    (h : (sep :: tail).intercalate (as.map text) = (sep :: tail).intercalate (as'.map text)) :
    as = as' := by
  have hnil : ∀ {bs : List α}, (∀ b ∈ bs, text b ≠ [] ∧ sep ∉ text b) →
      (sep :: tail).intercalate (bs.map text) = [] → bs = [] := by
    intro bs hbs hempty
    rcases bs with _ | ⟨b, _ | ⟨b', bs⟩⟩ <;> simp_all
  by_cases hne : as = []
  · subst hne
    exact (hnil has' h.symm).symm
  · have hne' : as' ≠ [] := by
      rintro rfl
      exact hne (hnil has h)
    have hjoined : ∀ {bs : List α}, bs ≠ [] → bs.flatMap (text · ++ sep :: tail) =
        (sep :: tail).intercalate (bs.map text) ++ sep :: tail := by
      intro bs hbs
      rw [intercalate_append_sep (by simpa using hbs), List.flatMap_map]
    have hflat : as.flatMap (text · ++ sep :: tail) = as'.flatMap (text · ++ sep :: tail) := by
      rw [hjoined hne, hjoined hne', h]
    exact eq_of_flatMap_text_eq (fun a ha => (has a ha).2) (fun a ha => (has' a ha).2) hinj hflat

end

/-! ## Lowercase names -/

/-- One lowercase letter or more. -/
def Name.IsLowercase (x : Name) : Prop :=
  x.toList ≠ [] ∧ ∀ c ∈ x.toList, c.isLower = true

instance (x : Name) : Decidable x.IsLowercase :=
  decidable_of_iff (x.toList ≠ [] ∧ x.toList.all Char.isLower = true) (by simp [Name.IsLowercase])

theorem Name.IsLowercase.not_mem {x : Name} (h : x.IsLowercase) {c : Char}
    (hc : c.isLower = false) : c ∉ x.toList := by
  intro hmem
  rw [h.2 c hmem] at hc
  cases hc

theorem Name.isLower_letter : ∀ {d : Nat}, d < 26 → (letter d).isLower = true := by
  decide

theorem Name.isLowercase_ofIndex (n : Nat) : (Name.ofIndex n).IsLowercase := by
  rw [IsLowercase, ofIndex, String.toList_ofList]
  constructor
  · simpa using Numeral.digits_ne_nil 26 n
  · intro c hc
    obtain ⟨d, hd, rfl⟩ := List.mem_map.mp hc
    exact isLower_letter (Numeral.lt_of_mem_digits (by omega) hd)

/-! ## Types -/

namespace Ty

/-- All variables of the type are lowercase. -/
def Lowercase (t : Ty) : Prop :=
  ∀ v, v ∈ t → v.IsLowercase

instance (t : Ty) : Decidable t.Lowercase :=
  decidable_of_iff (∀ v ∈ t.freeVars.toList, v.IsLowercase)
    (by simp [Lowercase, NameSet.mem_toList])

theorem lowercase_fn {dom cod : Ty} : (fn dom cod).Lowercase ↔ dom.Lowercase ∧ cod.Lowercase := by
  simp [Lowercase, or_imp, forall_and]

/-- The text of a type to the left of an arrow. -/
def domainText (t : Ty) : List Char :=
  (parensIf t.isFn t.render).toList

/-- The text of an arrow. -/
def arrowText : List Char :=
  [' ', '-', '>', ' ']

theorem toList_render_fn (dom cod : Ty) :
    (fn dom cod).render.toList = dom.domainText ++ (arrowText ++ cod.render.toList) := by
  simp [render, domainText, arrowText]

theorem domainText_of_isFn {t : Ty} (h : t.isFn = true) :
    t.domainText = '(' :: (t.render.toList ++ [')']) := by
  simp [domainText, h, parensIf]

theorem domainText_of_not_isFn {t : Ty} (h : t.isFn = false) : t.domainText = t.render.toList := by
  simp [domainText, h, parensIf]

theorem exists_eq_fn {t : Ty} (h : t.isFn = true) : ∃ dom cod, t = fn dom cod := by
  cases t with
  | fn dom cod => exact ⟨dom, cod, rfl⟩
  | _ => cases h

/-- A type ends here: neither a word nor an arrow goes on. -/
def Ends (rest : List Char) : Prop :=
  Stops Char.isAlpha rest ∧ ¬ arrowText <+: rest

/-- No other type has a text that starts the same text and ends. -/
def Determined (t : Ty) : Prop :=
  ∀ (u : Ty) (rest rest' : List Char), u.Lowercase → Ends rest → Ends rest' →
    t.render.toList ++ rest = u.render.toList ++ rest' → t = u ∧ rest = rest'

/-- The text of a variable or a base type is a word. -/
theorem word_of_not_isFn {t : Ty} (ht : t.Lowercase) (hfn : t.isFn = false) :
    t.render.toList ≠ [] ∧ ∀ c ∈ t.render.toList, c.isAlpha = true := by
  cases t with
  | var v =>
      obtain ⟨hne, hall⟩ := ht v (mem_var.mpr rfl)
      exact ⟨hne, fun c hc => (Bool.or_eq_true _ _).mpr (.inr (hall c hc))⟩
  | int => exact ⟨by decide, List.all_eq_true.mp (by decide)⟩
  | bool => exact ⟨by decide, List.all_eq_true.mp (by decide)⟩
  | fn dom cod => cases hfn

/-- Types that are no function types are told apart by their words. -/
theorem eq_of_render_eq_of_not_isFn {t u : Ty} (ht : t.Lowercase) (hu : u.Lowercase)
    (htfn : t.isFn = false) (hufn : u.isFn = false) (h : t.render = u.render) : t = u := by
  have hbase : ∀ {v : Name}, v.IsLowercase → v ≠ "Int" ∧ v ≠ "Bool" := by
    intro v hv
    constructor
    · rintro rfl
      exact absurd (hv.2 'I' (by decide)) (by decide)
    · rintro rfl
      exact absurd (hv.2 'B' (by decide)) (by decide)
  have hvar : ∀ {v : Name} {w : Ty}, v.IsLowercase → w.Lowercase → w.isFn = false →
      v = w.render → var v = w := by
    intro v w hv hw hwfn hrender
    cases w with
    | var v' => exact congrArg var hrender
    | int => exact absurd hrender (hbase hv).1
    | bool => exact absurd hrender (hbase hv).2
    | fn dom cod => cases hwfn
  cases t with
  | var v => exact hvar (ht v (mem_var.mpr rfl)) hu hufn h
  | int =>
      cases u with
      | var v => exact (hvar (hu v (mem_var.mpr rfl)) ht htfn h.symm).symm
      | int => rfl
      | bool => exact absurd h (by decide)
      | fn dom cod => cases hufn
  | bool =>
      cases u with
      | var v => exact (hvar (hu v (mem_var.mpr rfl)) ht htfn h.symm).symm
      | int => exact absurd h (by decide)
      | bool => rfl
      | fn dom cod => cases hufn
  | fn dom cod => cases htfn

/-- Only a function type starts with a parenthesis to the left of an arrow. -/
theorem word_append_ne_paren {t : Ty} {rest rest' : List Char} (ht : t.Lowercase)
    (hfn : t.isFn = false) : t.domainText ++ rest ≠ '(' :: rest' := by
  rw [domainText_of_not_isFn hfn]
  obtain ⟨hne, hall⟩ := word_of_not_isFn ht hfn
  cases htext : t.render.toList with
  | nil => exact absurd htext hne
  | cons c cs =>
      rintro ⟨⟩
      exact absurd (hall '(' (by simp [htext])) (by decide)

/-- The text to the left of an arrow is a word or stands in parentheses, so it tells where it
ends. -/
theorem eq_of_domainText_append_eq {t u : Ty} {rest rest' : List Char} (ht : t.Lowercase)
    (hu : u.Lowercase) (hdet : t.Determined ∨ t.isFn = false) (hrest : Stops Char.isAlpha rest)
    (hrest' : Stops Char.isAlpha rest') (h : t.domainText ++ rest = u.domainText ++ rest') :
    t = u ∧ rest = rest' := by
  cases htfn : t.isFn with
  | false =>
      cases hufn : u.isFn with
      | false =>
          rw [domainText_of_not_isFn htfn, domainText_of_not_isFn hufn] at h
          obtain ⟨htext, hrests⟩ := eq_of_append_eq_of_stops (word_of_not_isFn ht htfn).2
            (word_of_not_isFn hu hufn).2 hrest hrest' h
          exact ⟨eq_of_render_eq_of_not_isFn ht hu htfn hufn (String.toList_inj.mp htext), hrests⟩
      | true =>
          rw [domainText_of_isFn hufn] at h
          exact absurd h (word_append_ne_paren ht htfn)
  | true =>
      rw [domainText_of_isFn htfn] at h
      cases hufn : u.isFn with
      | false => exact absurd h.symm (word_append_ne_paren hu hufn)
      | true =>
          have hclose : ∀ rest, Ends (')' :: rest) := fun rest =>
            ⟨stops_cons.mpr (by decide), by simp [arrowText]⟩
          rw [domainText_of_isFn hufn] at h
          simp only [List.cons_append, List.append_assoc, List.nil_append, List.cons.injEq,
            true_and] at h
          have hdet := hdet.resolve_right (by simp [htfn])
          obtain ⟨heq, hrests⟩ := hdet u _ _ hu (hclose rest) (hclose rest') h
          exact ⟨heq, List.tail_eq_of_cons_eq hrests⟩

theorem stops_arrowText (rest : List Char) : Stops Char.isAlpha (arrowText ++ rest) :=
  stops_cons.mpr (by decide)

/-- A word is determined by where it ends. -/
theorem determined_of_not_isFn {t : Ty} (ht : t.Lowercase) (hfn : t.isFn = false) :
    t.Determined := by
  intro u rest rest' hu hrest hrest' h
  rw [← domainText_of_not_isFn hfn] at h
  cases hufn : u.isFn with
  | false =>
      rw [← domainText_of_not_isFn hufn] at h
      exact eq_of_domainText_append_eq ht hu (.inr hfn) hrest.1 hrest'.1 h
  | true =>
      obtain ⟨dom, cod, rfl⟩ := exists_eq_fn hufn
      rw [toList_render_fn, List.append_assoc, List.append_assoc] at h
      obtain ⟨-, hrests⟩ := eq_of_domainText_append_eq ht (lowercase_fn.mp hu).1 (.inr hfn)
        hrest.1 (stops_arrowText _) h
      exact absurd ⟨_, hrests.symm⟩ hrest.2

/-- Every type is determined by its text.  The domain of a function is read up to its arrow,
which cannot be missed. -/
theorem determined {t : Ty} (ht : t.Lowercase) : t.Determined := by
  induction t with
  | var v => exact determined_of_not_isFn ht rfl
  | int => exact determined_of_not_isFn ht rfl
  | bool => exact determined_of_not_isFn ht rfl
  | fn dom cod ihDom ihCod =>
      intro u rest rest' hu hrest hrest' h
      obtain ⟨hdom, hcod⟩ := lowercase_fn.mp ht
      rw [toList_render_fn, List.append_assoc, List.append_assoc] at h
      cases hufn : u.isFn with
      | false =>
          rw [← domainText_of_not_isFn hufn] at h
          obtain ⟨-, hrests⟩ := eq_of_domainText_append_eq hdom hu (.inl (ihDom hdom))
            (stops_arrowText _) hrest'.1 h
          exact absurd ⟨_, hrests⟩ hrest'.2
      | true =>
          obtain ⟨dom', cod', rfl⟩ := exists_eq_fn hufn
          obtain ⟨hdom', hcod'⟩ := lowercase_fn.mp hu
          rw [toList_render_fn, List.append_assoc, List.append_assoc] at h
          obtain ⟨rfl, hcods⟩ := eq_of_domainText_append_eq hdom hdom' (.inl (ihDom hdom))
            (stops_arrowText _) (stops_arrowText _) h
          obtain ⟨rfl, rfl⟩ :=
            ihCod hcod cod' rest rest' hcod' hrest hrest' (List.append_cancel_left hcods)
          exact ⟨rfl, rfl⟩

/-- Lowercase types with the same text are equal. -/
theorem eq_of_render_eq {t u : Ty} (ht : t.Lowercase) (hu : u.Lowercase)
    (h : t.render = u.render) : t = u := by
  have hends : Ends [] := ⟨stops_nil _, by simp [arrowText]⟩
  exact (determined ht u [] [] hu hends hends (by rw [h])).1

/-- Types are written with letters, parentheses and arrows. -/
theorem not_mem_render {t : Ty} (ht : t.Lowercase) {c : Char} (hletter : c.isAlpha = false)
    (hmark : c ∉ '(' :: ')' :: arrowText) : c ∉ t.render.toList := by
  have hword : ∀ {u : Ty}, u.Lowercase → u.isFn = false → c ∉ u.render.toList := by
    intro u hu hfn hmem
    rw [(word_of_not_isFn hu hfn).2 c hmem] at hletter
    cases hletter
  induction t with
  | var v => exact hword ht rfl
  | int => exact hword ht rfl
  | bool => exact hword ht rfl
  | fn dom cod ihDom ihCod =>
      obtain ⟨hdom, hcod⟩ := lowercase_fn.mp ht
      rw [toList_render_fn]
      cases hfn : dom.isFn with
      | false => simp_all [domainText_of_not_isFn hfn]
      | true => simp_all [domainText_of_isFn hfn]

end Ty

/-! ## Schemes -/

namespace Scheme

/-- All variables of the scheme are lowercase, quantified or not. -/
def Lowercase (σ : Scheme) : Prop :=
  (∀ v ∈ σ.vars, v.IsLowercase) ∧ σ.body.Lowercase

instance (σ : Scheme) : Decidable σ.Lowercase :=
  inferInstanceAs (Decidable (_ ∧ _))

/-- A scheme with quantified variables is printed with a prefix that lists them. -/
theorem toList_render_of_vars_ne_nil {σ : Scheme} (h : σ.vars ≠ []) :
    σ.render.toList = "forall ".toList ++
      ([' '].intercalate (σ.vars.map String.toList) ++ '.' :: ' ' :: σ.body.render.toList) := by
  have hvars : σ.vars.isEmpty = false := by simpa using h
  simp [render, hvars, String.toList_intercalate]

theorem render_of_vars_eq_nil {σ : Scheme} (h : σ.vars = []) : σ.render = σ.body.render := by
  simp [render, h]

/-- Only a quantifier is written with a dot. -/
theorem render_ne_of_vars {σ τ : Scheme} (hσ : σ.Lowercase) (hnil : σ.vars = [])
    (hne : τ.vars ≠ []) : σ.render ≠ τ.render := by
  intro h
  have hdot : '.' ∉ σ.body.render.toList := Ty.not_mem_render hσ.2 (by decide) (by decide)
  rw [← render_of_vars_eq_nil hnil, h, toList_render_of_vars_ne_nil hne] at hdot
  exact hdot (by simp)

theorem dot_not_mem_vars {σ : Scheme} (hσ : σ.Lowercase) :
    '.' ∉ [' '].intercalate (σ.vars.map String.toList) := by
  refine not_mem_intercalate (by decide) fun text htext => ?_
  obtain ⟨v, hv, rfl⟩ := List.mem_map.mp htext
  exact (hσ.1 v hv).not_mem (by decide)

/-- The quantified variables can be read back from the list of them. -/
theorem vars_eq_of_intercalate_eq {σ τ : Scheme} (hσ : σ.Lowercase) (hτ : τ.Lowercase)
    (h : [' '].intercalate (σ.vars.map String.toList) =
      [' '].intercalate (τ.vars.map String.toList)) : σ.vars = τ.vars := by
  have hblank : ∀ {ρ : Scheme}, ρ.Lowercase → ∀ v ∈ ρ.vars, v.toList ≠ [] ∧ ' ' ∉ v.toList :=
    fun hρ v hv => ⟨(hρ.1 v hv).1, (hρ.1 v hv).not_mem (by decide)⟩
  exact eq_of_intercalate_map_eq (hblank hσ) (hblank hτ)
    (fun v _ w _ heq => String.toList_inj.mp heq) h

/-- Lowercase schemes with the same text are equal: only a prefix has a dot, so the
prefix and the body can be told apart. -/
theorem eq_of_render_eq {σ τ : Scheme} (hσ : σ.Lowercase) (hτ : τ.Lowercase)
    (h : σ.render = τ.render) : σ = τ := by
  have hparts : σ.vars = τ.vars ∧ σ.body.render = τ.body.render := by
    by_cases hvars : σ.vars = [] <;> by_cases hvars' : τ.vars = []
    · rw [render_of_vars_eq_nil hvars, render_of_vars_eq_nil hvars'] at h
      exact ⟨hvars.trans hvars'.symm, h⟩
    · exact absurd h (render_ne_of_vars hσ hvars hvars')
    · exact absurd h.symm (render_ne_of_vars hτ hvars' hvars)
    · have htext := congrArg String.toList h
      rw [toList_render_of_vars_ne_nil hvars, toList_render_of_vars_ne_nil hvars'] at htext
      obtain ⟨hquantified, hbody⟩ := eq_of_append_cons_eq (dot_not_mem_vars hσ)
        (dot_not_mem_vars hτ) (List.append_cancel_left htext)
      exact ⟨vars_eq_of_intercalate_eq hσ hτ hquantified,
        String.toList_inj.mp (List.tail_eq_of_cons_eq hbody)⟩
  have hbody := Ty.eq_of_render_eq hσ.2 hτ.2 hparts.2
  cases σ
  cases τ
  exact congr (congrArg mk hparts.1) hbody

end Scheme

/-! ## Substitutions -/

namespace Subst

/-- All variables of the substitution are lowercase, bound or in images. -/
def Lowercase (s : Subst) : Prop :=
  ∀ v t, s.find? v = some t → v.IsLowercase ∧ t.Lowercase

theorem lowercase_iff {s : Subst} :
    s.Lowercase ↔ ∀ e ∈ s.entries, e.1.IsLowercase ∧ e.2.Lowercase := by
  simp only [Lowercase, NameMap.find?_eq_some_iff, Prod.forall]

instance (s : Subst) : Decidable s.Lowercase :=
  decidable_of_iff _ lowercase_iff.symm

/-- The text of a binding. -/
def entryText (e : Name × Ty) : List Char :=
  e.1.toList ++ ' ' :: ':' :: '=' :: ' ' :: e.2.render.toList

theorem toList_render (s : Subst) :
    s.render.toList = '\x7b' :: ([',', ' '].intercalate (s.entries.map entryText) ++ ['\x7d']) := by
  have hentries : (s.entries.map fun e => e.1 ++ " := " ++ e.2.render).map String.toList =
      s.entries.map entryText := by
    simp [entryText]
  rw [render, String.toList_append, String.toList_append, String.toList_intercalate, hentries]
  rfl

/-- No binding has a comma, so commas separate them. -/
theorem comma_not_mem_entryText {e : Name × Ty} (he : e.1.IsLowercase ∧ e.2.Lowercase) :
    ',' ∉ entryText e := by
  have hname : ',' ∉ e.1.toList := he.1.not_mem (by decide)
  have hty : ',' ∉ e.2.render.toList := Ty.not_mem_render he.2 (by decide) (by decide)
  simp [entryText, hname, hty]

/-- Bindings with the same text are equal. -/
theorem eq_of_entryText_eq {e e' : Name × Ty} (he : e.1.IsLowercase ∧ e.2.Lowercase)
    (he' : e'.1.IsLowercase ∧ e'.2.Lowercase) (h : entryText e = entryText e') : e = e' := by
  obtain ⟨hname, htext⟩ :=
    eq_of_append_cons_eq (he.1.not_mem (by decide)) (he'.1.not_mem (by decide)) h
  have hty : e.2.render.toList = e'.2.render.toList := by simpa using htext
  exact Prod.ext (String.toList_inj.mp hname)
    (Ty.eq_of_render_eq he.2 he'.2 (String.toList_inj.mp hty))

/-- Lowercase substitutions with the same text are equal. -/
theorem eq_of_render_eq {s₁ s₂ : Subst} (h₁ : s₁.Lowercase) (h₂ : s₂.Lowercase)
    (h : s₁.render = s₂.render) : s₁ = s₂ := by
  have hcomma : ∀ {s : Subst}, s.Lowercase → ∀ e ∈ s.entries,
      entryText e ≠ [] ∧ ',' ∉ entryText e :=
    fun hs e he => ⟨by simp [entryText], comma_not_mem_entryText (lowercase_iff.mp hs e he)⟩
  have htext := congrArg String.toList h
  rw [toList_render, toList_render] at htext
  have hentries : s₁.entries = s₂.entries :=
    eq_of_intercalate_map_eq (hcomma h₁) (hcomma h₂)
      (fun e he e' he' =>
        eq_of_entryText_eq (lowercase_iff.mp h₁ e he) (lowercase_iff.mp h₂ e' he'))
      (List.append_cancel_right (List.tail_eq_of_cons_eq htext))
  cases s₁
  cases s₂
  exact (NameMap.mk.injEq ..).mpr hentries

end Subst

/-! ## All printed things -/

/-- Two types, two schemes, or two substitutions with the same text are the same, if their
variables are words of lowercase letters.  The names that a supply draws always are. -/
theorem render_unambiguous :
    (∀ t u : Ty, t.Lowercase → u.Lowercase → t.render = u.render → t = u) ∧
      (∀ σ τ : Scheme, σ.Lowercase → τ.Lowercase → σ.render = τ.render → σ = τ) ∧
      (∀ s₁ s₂ : Subst, s₁.Lowercase → s₂.Lowercase → s₁.render = s₂.render → s₁ = s₂) ∧
      ∀ supply : NameSupply, supply.fresh.1.IsLowercase :=
  ⟨fun _ _ => Ty.eq_of_render_eq, fun _ _ => Scheme.eq_of_render_eq,
    fun _ _ => Subst.eq_of_render_eq, fun _ => Name.isLowercase_ofIndex _⟩

/-- Substitutions written down in different orders are equal because they print alike; types
and schemes that differ print differently. -/
theorem render_unambiguous_cases :
    (NameMap.ofList [("b", .fn (.var "c") (.var "c")), ("a", .int)] : Subst) =
        .ofList [("a", .int), ("b", .fn (.var "c") (.var "c"))] ∧
      (Ty.fn (.fn (.var "a") (.var "b")) .int).render ≠
        (Ty.fn (.var "a") (.fn (.var "b") .int)).render ∧
      Scheme.render ⟨["a", "b"], .var "b"⟩ ≠ Scheme.render ⟨["ab"], .var "b"⟩ := by
  refine ⟨?_, fun h => ?_, fun h => ?_⟩
  · exact render_unambiguous.2.2.1 _ _ (by decide) (by decide) (by decide)
  · exact absurd (render_unambiguous.1 _ _ (by decide) (by decide) h) (by decide)
  · exact absurd (render_unambiguous.2.1 _ _ (by decide) (by decide) h) (by decide)

end LetPoly
