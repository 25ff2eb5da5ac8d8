import LetPoly.Expr
import LetPoly.Numeral.Decimal
import LetPoly.Token
import Mathlib.Data.List.Induction

/-! # The grammar

```
expression  := "\" ident "->" expression
             | "let" ident "=" expression "in" expression
             | application
application := atom | application atom
atom        := ident | integer | "True" | "False" | "(" expression ")"
```

A parse tree (`Tree`) is built by these rules.  It always has a list of tokens
(`Tree.tokens`), and it denotes an expression (`Tree.Denotes`) if the texts of
its integers denote numbers that fit in 64 bits.  No two trees have the same
tokens (`Tree.eq_of_tokens_eq`).
-/

namespace LetPoly

/-! ## What numerals denote -/

namespace Numeral

/-- One digit denotes its own value, and a digit behind others adds its value to
ten times theirs. -/
inductive DigitsDenote : List Char → Nat → Prop where
  | single {d : Nat} (hd : d < 10) : DigitsDenote [decimalDigit d] d
  | snoc {cs : List Char} {n d : Nat} (h : DigitsDenote cs n) (hd : d < 10) :
      DigitsDenote (cs ++ [decimalDigit d]) (n * 10 + d)

/-- One digit or more, with or without a sign before them, denote an integer. -/
inductive Denotes : List Char → Int → Prop where
  | unsigned {cs : List Char} {n : Nat} (h : DigitsDenote cs n) : Denotes cs n
  | plus {cs : List Char} {n : Nat} (h : DigitsDenote cs n) : Denotes ('+' :: cs) n
  | minus {cs : List Char} {n : Nat} (h : DigitsDenote cs n) : Denotes ('-' :: cs) (-n)

/-- A list of digits, and not an empty one, reads as its value to the base ten. -/
theorem natural?_eq_some_iff {cs : List Char} {n : Nat} :
    natural? cs = some n ↔
      cs ≠ [] ∧ (∀ c ∈ cs, isDecimalDigit c = true) ∧ value 10 (cs.map decimalDigitValue) = n := by
  simp [natural?, and_assoc]

theorem exists_decimalDigit_eq {c : Char} (h : isDecimalDigit c = true) :
    ∃ d < 10, decimalDigit d = c ∧ decimalDigitValue c = d := by
  have hc : 48 ≤ c.toNat ∧ c.toNat ≤ 57 := by
    simpa [isDecimalDigit, Char.le_def, UInt32.le_iff_toNat_le] using h
  refine ⟨c.toNat - 48, by omega, ?_, rfl⟩
  have hadd : '0'.toNat + (c.toNat - 48) = c.toNat := by
    have : '0'.toNat = 48 := rfl
    omega
  rw [decimalDigit, hadd, Char.ofNat_toNat]

/-- Digits read as the number that they denote. -/
theorem DigitsDenote.natural?_eq {cs : List Char} {n : Nat} (h : DigitsDenote cs n) :
    natural? cs = some n := by
  induction h with
  | single hd =>
      refine natural?_eq_some_iff.mpr ⟨by simp, ?_, ?_⟩
      · simpa using isDecimalDigit_decimalDigit hd
      · simp [value, decimalDigitValue_decimalDigit hd]
  | snoc h hd ih =>
      obtain ⟨_, hall, hvalue⟩ := natural?_eq_some_iff.mp ih
      refine natural?_eq_some_iff.mpr ⟨by simp, ?_, ?_⟩
      · intro c hc
        rcases List.mem_append.mp hc with hc | hc
        · exact hall c hc
        · exact List.mem_singleton.mp hc ▸ isDecimalDigit_decimalDigit hd
      · simp [hvalue, decimalDigitValue_decimalDigit hd]

/-- Digits that read as a number denote it. -/
theorem digitsDenote_of_natural? {cs : List Char} {n : Nat} (h : natural? cs = some n) :
    DigitsDenote cs n := by
  obtain ⟨hne, hall, rfl⟩ := natural?_eq_some_iff.mp h
  clear h
  -- the last digit is the one added last
  induction cs using List.reverseRecOn with
  | nil => exact absurd rfl hne
  | append_singleton cs c ih =>
      obtain ⟨d, hd, rfl, hvalue⟩ := exists_decimalDigit_eq (hall c (by simp))
      by_cases hcs : cs = []
      · subst hcs
        simpa [value, hvalue] using DigitsDenote.single hd
      · have := DigitsDenote.snoc (ih hcs fun c hc => hall c (by simp [hc])) hd
        simpa [hvalue] using this

theorem DigitsDenote.isDecimalDigit_head {c : Char} {cs : List Char} {n : Nat}
    (h : DigitsDenote (c :: cs) n) : isDecimalDigit c = true :=
  (natural?_eq_some_iff.mp h.natural?_eq).2.1 c List.mem_cons_self

/-- Text reads as an integer exactly if it denotes it. -/
theorem integer?_eq_some_iff {cs : List Char} {i : Int} :
    integer? cs = some i ↔ Denotes cs i := by
  constructor
  · intro h
    rw [integer?.eq_def] at h
    split at h <;> obtain ⟨n, hn, rfl⟩ := Option.map_eq_some_iff.mp h
    · exact .minus (digitsDenote_of_natural? hn)
    · exact .plus (digitsDenote_of_natural? hn)
    · exact .unsigned (digitsDenote_of_natural? hn)
  · intro h
    cases h with
    | unsigned h =>
        rw [integer?, h.natural?_eq, Option.map_some]
        · rintro cs rfl
          exact absurd h.isDecimalDigit_head (by decide)
        · rintro cs rfl
          exact absurd h.isDecimalDigit_head (by decide)
    | plus h => rw [integer?, h.natural?_eq, Option.map_some]
    | minus h => rw [integer?, h.natural?_eq, Option.map_some]

/-- Reading into 64 bits finds the value of a text exactly where it has one that
fits. -/
theorem int64?_eq_some_iff {text : String} {v : Int64} :
    int64? text = some v ↔ Denotes text.toList v.toInt := by
  rw [← integer?_eq_some_iff, int64?, Option.bind_eq_some_iff]
  constructor
  · rintro ⟨i, hi, h⟩
    split at h
    · next hfits =>
      cases h
      rw [Int64.toInt_minValue, Int64.toInt_maxValue] at hfits
      rw [hi, Int64.toInt_ofInt_of_le hfits.1 (by omega)]
    · cases h
  · intro h
    refine ⟨v.toInt, h, ?_⟩
    rw [if_pos ⟨Int64.minValue_le_toInt v, Int64.toInt_le v⟩, Int64.ofInt_toInt]

end Numeral

/-! ## Parse trees -/

/-- The nonterminals of the grammar. -/
inductive Nonterminal where
  | expression
  | application
  | atom
deriving DecidableEq

/-- The token of a truth value. -/
def Token.truth : Bool → Token
  | true => .kwTrue
  | false => .kwFalse

/-- Parse trees with a nonterminal at the root, one constructor for each rule of
the grammar.  The truth values share one. -/
inductive Tree : Nonterminal → Type where
  | lambda (param : Name) (body : Tree .expression) : Tree .expression
  | letIn (name : Name) (bound body : Tree .expression) : Tree .expression
  | application (app : Tree .application) : Tree .expression
  | head (atom : Tree .atom) : Tree .application
  | argument (func : Tree .application) (arg : Tree .atom) : Tree .application
  | ident (name : Name) : Tree .atom
  | integer (text : String) : Tree .atom
  | truth (value : Bool) : Tree .atom
  | parens (inner : Tree .expression) : Tree .atom

namespace Tree

/-- The tokens at the leaves of a tree. -/
def tokens {n : Nonterminal} : Tree n → List Token
  | lambda param body => .backslash :: .ident param :: .arrow :: body.tokens
  | letIn name bound body =>
      .kwLet :: .ident name :: .equals :: bound.tokens ++ .kwIn :: body.tokens
  | application app => app.tokens
  | head atom => atom.tokens
  | argument func arg => func.tokens ++ arg.tokens
  | ident name => [.ident name]
  | integer text => [.integer text]
  | truth value => [.truth value]
  | parens inner => .lparen :: inner.tokens ++ [.rparen]

/-- The expression that a tree denotes.  An integer has to denote a number of 64
bits, so not every tree denotes one. -/
inductive Denotes : {n : Nonterminal} → Tree n → Expr → Prop where
  | lambda {param : Name} {body : Tree .expression} {e : Expr} (h : body.Denotes e) :
      (lambda param body).Denotes (.abs param e)
  | letIn {name : Name} {bound body : Tree .expression} {e₁ e₂ : Expr}
      (h₁ : bound.Denotes e₁) (h₂ : body.Denotes e₂) :
      (letIn name bound body).Denotes (.letIn name e₁ e₂)
  | application {app : Tree .application} {e : Expr} (h : app.Denotes e) :
      (application app).Denotes e
  | head {atom : Tree .atom} {e : Expr} (h : atom.Denotes e) : (head atom).Denotes e
  | argument {func : Tree .application} {arg : Tree .atom} {e₁ e₂ : Expr}
      (h₁ : func.Denotes e₁) (h₂ : arg.Denotes e₂) :
      (argument func arg).Denotes (.app e₁ e₂)
  | ident (name : Name) : (ident name).Denotes (.var name)
  | integer {text : String} {value : Int64} (h : Numeral.Denotes text.toList value.toInt) :
      (integer text).Denotes (.int value)
  | truth (value : Bool) : (truth value).Denotes (.bool value)
  | parens {inner : Tree .expression} {e : Expr} (h : inner.Denotes e) :
      (parens inner).Denotes e

end Tree

/-! ## One tree for a list of tokens -/

/-- The tokens with which an atom starts. -/
def Token.startsAtom : Token → Bool
  | .ident _ | .integer _ | .kwTrue | .kwFalse | .lparen => true
  | _ => false

/-- No atom starts here, so an application to the left ends. -/
def NoAtom (rest : List Token) : Prop :=
  ∀ token ∈ rest.head?, token.startsAtom = false

theorem noAtom_nil : NoAtom [] := by
  simp [NoAtom]

theorem noAtom_cons {token : Token} {rest : List Token} :
    NoAtom (token :: rest) ↔ token.startsAtom = false := by
  simp [NoAtom]

/-- What may stand behind a tree that ends there: anything behind an atom, and no
further atom behind an application. -/
def Nonterminal.Follow : Nonterminal → List Token → Prop
  | .atom, _ => True
  | _, rest => NoAtom rest

namespace Tree

attribute [local simp] tokens

/-- All trees but those of abstractions and `let` start as an atom does. -/
theorem exists_tokens_eq {n : Nonterminal} (T : Tree n) (hn : n ≠ .expression) :
    ∃ token rest, T.tokens = token :: rest ∧ token.startsAtom = true := by
  induction T with
  | lambda | letIn | application => exact absurd rfl hn
  | head atom ih => exact ih (by decide)
  | argument func arg ih =>
      obtain ⟨token, rest, htokens, hstarts⟩ := ih (by decide)
      exact ⟨token, rest ++ arg.tokens, by rw [tokens, htokens, List.cons_append], hstarts⟩
  | ident name => exact ⟨_, _, rfl, rfl⟩
  | integer text => exact ⟨_, _, rfl, rfl⟩
  | truth value => cases value <;> exact ⟨_, _, rfl, rfl⟩
  | parens inner => exact ⟨_, _, rfl, rfl⟩

theorem tokens_ne_nil (T : Tree .expression) : T.tokens ≠ [] := by
  cases T with
  | lambda | letIn => exact List.cons_ne_nil _ _
  | application app =>
      obtain ⟨token, rest, htokens, -⟩ := app.exists_tokens_eq (by decide)
      rw [tokens, htokens]
      exact List.cons_ne_nil token rest

/-- The atoms of an application, function first. -/
def atoms {n : Nonterminal} : Tree n → List (Tree .atom)
  | head atom => [atom]
  | argument func arg => func.atoms ++ [arg]
  | _ => []

/-- The tokens of an application are those of its atoms, in order. -/
theorem tokens_eq_flatMap_atoms : (T : Tree .application) → T.tokens = T.atoms.flatMap tokens
  | head atom => by simp [atoms]
  | argument func arg => by simp [atoms, tokens_eq_flatMap_atoms func]

theorem atoms_ne_nil : (T : Tree .application) → T.atoms ≠ []
  | head atom => by simp [atoms]
  | argument func arg => by simp [atoms]

/-- An application is determined by its atoms. -/
theorem eq_of_atoms_eq : {T T' : Tree .application} → T.atoms = T'.atoms → T = T'
  | head atom, head atom', h => by simpa [atoms] using h
  | head atom, argument func' arg', h => by
      have h' : [] ++ [atom] = func'.atoms ++ [arg'] := h
      exact absurd (List.append_inj' h' rfl).1.symm (atoms_ne_nil func')
  | argument func arg, head atom', h => by
      have h' : func.atoms ++ [arg] = [] ++ [atom'] := h
      exact absurd (List.append_inj' h' rfl).1 (atoms_ne_nil func)
  | argument func arg, argument func' arg', h => by
      obtain ⟨hfunc, harg⟩ := List.append_inj' h rfl
      rw [eq_of_atoms_eq hfunc, List.singleton_inj.mp harg]

/-- No other tree with the same root starts the same list of tokens. -/
def Determined {n : Nonterminal} (T : Tree n) : Prop :=
  ∀ (T' : Tree n) (rest rest' : List Token), n.Follow rest → n.Follow rest' →
    T.tokens ++ rest = T'.tokens ++ rest' → T = T' ∧ rest = rest'

/-- An atom or an application starts with a token of an atom. -/
theorem not_noAtom_append {n : Nonterminal} (T : Tree n) (hn : n ≠ .expression)
    (rest : List Token) : ¬ NoAtom (T.tokens ++ rest) := by
  obtain ⟨token, rest', htokens, hstarts⟩ := T.exists_tokens_eq hn
  rw [htokens, List.cons_append, noAtom_cons, hstarts]
  decide

/-- Lists of determined atoms are equal if their tokens are, up to where no further atom
starts. -/
theorem eq_of_flatMap_tokens_eq {as as' : List (Tree .atom)} {rest rest' : List Token}
    (has : ∀ a ∈ as, a.Determined) (hrest : NoAtom rest) (hrest' : NoAtom rest')
    (h : as.flatMap tokens ++ rest = as'.flatMap tokens ++ rest') : as = as' ∧ rest = rest' := by
  induction as generalizing as' with
  | nil =>
      cases as' with
      | nil => exact ⟨rfl, h⟩
      | cons a' as' =>
          rw [List.flatMap_nil, List.nil_append, List.flatMap_cons, List.append_assoc] at h
          exact absurd (h ▸ hrest) (a'.not_noAtom_append (by decide) _)
  | cons a as ih =>
      rw [List.flatMap_cons, List.append_assoc] at h
      cases as' with
      | nil =>
          rw [List.flatMap_nil, List.nil_append] at h
          exact absurd (h ▸ hrest') (a.not_noAtom_append (by decide) _)
      | cons a' as' =>
          rw [List.flatMap_cons, List.append_assoc] at h
          obtain ⟨rfl, hrests⟩ := has a List.mem_cons_self a' _ _ trivial trivial h
          obtain ⟨rfl, rfl⟩ := ih (fun b hb => has b (List.mem_cons_of_mem a hb)) hrests
          exact ⟨rfl, rfl⟩

/-- An application is determined if its atoms are. -/
theorem determined_of_atoms {T : Tree .application} (h : ∀ a ∈ T.atoms, a.Determined) :
    T.Determined := by
  intro T' rest rest' hrest hrest' htokens
  rw [tokens_eq_flatMap_atoms, tokens_eq_flatMap_atoms] at htokens
  obtain ⟨hatoms, hrests⟩ := eq_of_flatMap_tokens_eq h hrest hrest' htokens
  exact ⟨eq_of_atoms_eq hatoms, hrests⟩

/-! ### The first token tells the rule -/

variable {rest rest' : List Token}

/-- Only an abstraction starts with a backslash. -/
theorem exists_eq_lambda {T : Tree .expression} (h : .backslash :: rest = T.tokens ++ rest') :
    ∃ param body, T = lambda param body ∧
      rest = .ident param :: .arrow :: (body.tokens ++ rest') := by
  cases T with
  | lambda param body => exact ⟨param, body, rfl, List.tail_eq_of_cons_eq h⟩
  | letIn name bound body => simp at h
  | application app =>
      exact absurd (noAtom_cons.mpr rfl) (h ▸ app.not_noAtom_append (by decide) rest')

theorem exists_eq_letIn {T : Tree .expression} (h : .kwLet :: rest = T.tokens ++ rest') :
    ∃ name bound body, T = letIn name bound body ∧
      rest = .ident name :: .equals :: (bound.tokens ++ .kwIn :: (body.tokens ++ rest')) := by
  cases T with
  | lambda param body => simp at h
  | letIn name bound body => exact ⟨name, bound, body, rfl, by simpa using h⟩
  | application app =>
      exact absurd (noAtom_cons.mpr rfl) (h ▸ app.not_noAtom_append (by decide) rest')

/-- Where an atom starts, the expression is an application. -/
theorem exists_eq_application {T : Tree .expression} (hrest : ¬ NoAtom rest)
    (h : rest = T.tokens ++ rest') : ∃ app, T = application app := by
  cases T with
  | lambda param body => exact absurd (h ▸ noAtom_cons.mpr rfl) hrest
  | letIn name bound body => exact absurd (h ▸ noAtom_cons.mpr rfl) hrest
  | application app => exact ⟨app, rfl⟩

theorem eq_ident {T : Tree .atom} {name : Name} (h : .ident name :: rest = T.tokens ++ rest') :
    ident name = T ∧ rest = rest' := by
  cases T with
  | ident name' => simpa using h
  | integer | parens => simp at h
  | truth value => cases value <;> simp [Token.truth] at h

theorem eq_integer {T : Tree .atom} {text : String}
    (h : .integer text :: rest = T.tokens ++ rest') : integer text = T ∧ rest = rest' := by
  cases T with
  | integer text' => simpa using h
  | ident | parens => simp at h
  | truth value => cases value <;> simp [Token.truth] at h

theorem eq_truth {T : Tree .atom} {value : Bool} (h : .truth value :: rest = T.tokens ++ rest') :
    truth value = T ∧ rest = rest' := by
  cases T with
  | truth value' => cases value <;> cases value' <;> simp_all [Token.truth]
  | ident | integer | parens => cases value <;> simp [Token.truth] at h

theorem exists_eq_parens {T : Tree .atom} (h : .lparen :: rest = T.tokens ++ rest') :
    ∃ inner, T = parens inner ∧ rest = inner.tokens ++ .rparen :: rest' := by
  cases T with
  | parens inner => exact ⟨inner, rfl, by simpa using h⟩
  | ident | integer => simp at h
  | truth value => cases value <;> simp [Token.truth] at h

/-! ### Unambiguity -/

/-- Every tree is determined by its tokens.  The atoms of an application are
compared from the left, so the induction also carries that they are determined. -/
theorem determined {n : Nonterminal} (T : Tree n) :
    T.Determined ∧ ∀ a ∈ T.atoms, a.Determined := by
  induction T with
  | lambda param body ih =>
      refine ⟨?_, by simp [atoms]⟩
      intro T' rest rest' hrest hrest' h
      simp only [tokens, List.cons_append] at h
      obtain ⟨param', body', rfl, htail⟩ := exists_eq_lambda h
      simp only [List.cons.injEq, Token.ident.injEq, true_and] at htail
      obtain ⟨rfl, hbody⟩ := htail
      obtain ⟨rfl, rfl⟩ := ih.1 body' rest rest' hrest hrest' hbody
      exact ⟨rfl, rfl⟩
  | letIn name bound body ih₁ ih₂ =>
      refine ⟨?_, by simp [atoms]⟩
      intro T' rest rest' hrest hrest' h
      simp only [tokens, List.cons_append, List.append_assoc] at h
      obtain ⟨name', bound', body', rfl, htail⟩ := exists_eq_letIn h
      simp only [List.cons.injEq, Token.ident.injEq, true_and] at htail
      obtain ⟨rfl, hbound⟩ := htail
      have hin : ∀ ts, NoAtom (.kwIn :: ts) := fun _ => noAtom_cons.mpr rfl
      obtain ⟨rfl, hbody⟩ := ih₁.1 bound' _ _ (hin _) (hin _) hbound
      obtain ⟨rfl, rfl⟩ :=
        ih₂.1 body' rest rest' hrest hrest' (List.tail_eq_of_cons_eq hbody)
      exact ⟨rfl, rfl⟩
  | application app ih =>
      refine ⟨?_, by simp [atoms]⟩
      intro T' rest rest' hrest hrest' h
      obtain ⟨app', rfl⟩ := exists_eq_application (app.not_noAtom_append (by decide) rest) h
      obtain ⟨rfl, rfl⟩ := ih.1 app' rest rest' hrest hrest' h
      exact ⟨rfl, rfl⟩
  | head atom ih =>
      have hatoms : ∀ a ∈ (head atom).atoms, a.Determined := by
        simpa [atoms] using ih.1
      exact ⟨determined_of_atoms hatoms, hatoms⟩
  | argument func arg ih₁ ih₂ =>
      have hatoms : ∀ a ∈ (argument func arg).atoms, a.Determined := by
        intro a ha
        rcases List.mem_append.mp ha with ha | ha
        · exact ih₁.2 a ha
        · exact List.mem_singleton.mp ha ▸ ih₂.1
      exact ⟨determined_of_atoms hatoms, hatoms⟩
  | ident name => exact ⟨fun T' rest rest' _ _ h => eq_ident h, by simp [atoms]⟩
  | integer text => exact ⟨fun T' rest rest' _ _ h => eq_integer h, by simp [atoms]⟩
  | truth value => exact ⟨fun T' rest rest' _ _ h => eq_truth h, by simp [atoms]⟩
  | parens inner ih =>
      refine ⟨?_, by simp [atoms]⟩
      intro T' rest rest' _ _ h
      simp only [tokens, List.cons_append, List.append_assoc, List.nil_append] at h
      obtain ⟨inner', rfl, htail⟩ := exists_eq_parens h
      have hparen : ∀ ts, NoAtom (.rparen :: ts) := fun _ => noAtom_cons.mpr rfl
      obtain ⟨rfl, hrests⟩ := ih.1 inner' _ _ (hparen _) (hparen _) htail
      exact ⟨rfl, List.tail_eq_of_cons_eq hrests⟩

/-- The grammar is unambiguous: a list of tokens has at most one tree. -/
theorem eq_of_tokens_eq {T T' : Tree .expression} (h : T.tokens = T'.tokens) : T = T' :=
  (T.determined.1 T' [] [] noAtom_nil noAtom_nil (by rw [h])).1

end Tree

end LetPoly
