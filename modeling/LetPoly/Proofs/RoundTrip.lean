import Mathlib.Control.Monad.Basic
import LetPoly.Expr.Printer
import LetPoly.Proofs.Lexing
import LetPoly.Proofs.Parsing

/-! # Printing and parsing

A text is a written form of an expression if it has the tokens of a parse tree
that denotes the expression (`Written`).  Parsing finds the expression of a
written form (`Expr.parseBy_eq_ok_iff`).  For every rule of the grammar there is a
lemma that says how written forms are put together, and the printer puts
them together just so (`Expr.WellNamed.written_render`), as long as the names are
identifiers.  The same lemmas put together any two sources that can be parsed,
however they are written.

Both hold for every class of blanks (`parseBy_render_iff`,
`parseBy_compositional`), and so for the blanks of the language.
-/

namespace LetPoly

variable {B : Blanks}

/-! ## Written forms -/

/-- The text has the tokens of a tree that denotes the expression, with blanks
between them. -/
def Written (B : Blanks) (n : Nonterminal) (text : String) (e : Expr) : Prop :=
  ∃ T : Tree n, T.Denotes e ∧ Lexes B text.toList T.tokens

/-- Parsing accepts the written forms of expressions and no other text. -/
theorem Expr.parseBy_eq_ok_iff {source : String} {e : Expr} :
    parseBy B source = .ok e ↔ Written B .expression source e := by
  simp only [parseBy, Written, ← tokensBy_eq_ok_iff]
  cases tokensBy B source with
  | error err => simp
  | ok ts =>
      simp only [Except.ok.injEq]
      have hprogram : (∃ rest, program.run ts = .ok e rest) ↔
          ∃ T : Tree .expression, T.Denotes e ∧ ts = T.tokens := by
        rw [exists_run_program_iff]
        simp only [and_comm, eq_comm]
      rw [← hprogram]
      cases ts with
      | nil =>
          constructor
          · rintro ⟨⟩
          · intro h
            obtain ⟨T, htokens, -⟩ := exists_run_program_iff.mp h
            exact absurd htokens T.tokens_ne_nil
      | cons t ts =>
          simp only
          cases program.run (t :: ts) <;> simp

namespace Written

variable {text text₁ text₂ : String} {e e₁ e₂ : Expr} {x : Name}

theorem ident (hx : x.IsIdentifier) : Written B .atom x (.var x) :=
  ⟨.ident x, .ident x, hx.lexes⟩

theorem literal (l : Literal) : Written B .atom l.render (.lit l) := by
  cases l with
  | int value =>
      have hvalue := Numeral.int64?_eq_some_iff.mp (Numeral.int64?_decimal value)
      exact ⟨.integer _, .integer hvalue, lexes_decimal value.toInt⟩
  | bool value =>
      refine ⟨.truth value, .truth value, ?_⟩
      cases value
      · exact IsWord.lexes (by decide)
      · exact IsWord.lexes (by decide)

/-- Parentheses make every expression an atom. -/
theorem parens (h : Written B .expression text e) : Written B .atom ("(" ++ text ++ ")") e := by
  obtain ⟨T, hT, hlexes⟩ := h
  refine ⟨.parens T, .parens hT, ?_⟩
  have htext : ("(" ++ text ++ ")").toList = '(' :: (text.toList ++ [')']) := by simp
  rw [htext]
  exact .cons (.lparen _) (hlexes.append (stops_cons.mpr rfl) (.cons (.rparen _) .nil))

theorem head (h : Written B .atom text e) : Written B .application text e := by
  obtain ⟨T, hT, hlexes⟩ := h
  exact ⟨.head T, .head hT, hlexes⟩

/-- A space separates an argument from the function. -/
theorem argument (h₁ : Written B .application text₁ e₁) (h₂ : Written B .atom text₂ e₂) :
    Written B .application (text₁ ++ " " ++ text₂) (.app e₁ e₂) := by
  obtain ⟨T₁, hT₁, hlexes₁⟩ := h₁
  obtain ⟨T₂, hT₂, hlexes₂⟩ := h₂
  refine ⟨.argument T₁ T₂, .argument hT₁ hT₂, ?_⟩
  rw [String.append_assoc, String.toList_append, String.toList_append]
  exact hlexes₁.append (stops_cons.mpr rfl) hlexes₂.space

/-- An argument in parentheses needs no blank before it. -/
theorem call (h₁ : Written B .application text₁ e₁) (h₂ : Written B .expression text₂ e₂) :
    Written B .application (text₁ ++ "(" ++ text₂ ++ ")") (.app e₁ e₂) := by
  obtain ⟨T₁, hT₁, hlexes₁⟩ := h₁
  obtain ⟨T₂, hT₂, hlexes₂⟩ := h₂.parens
  refine ⟨.argument T₁ T₂, .argument hT₁ hT₂, ?_⟩
  have hparens : ("(" ++ text₂ ++ ")").toList = '(' :: (text₂.toList ++ [')']) := by simp
  have htext : (text₁ ++ "(" ++ text₂ ++ ")").toList =
      text₁.toList ++ '(' :: (text₂.toList ++ [')']) := by simp
  rw [hparens] at hlexes₂
  rw [htext]
  exact hlexes₁.append (stops_cons.mpr rfl) hlexes₂

theorem application (h : Written B .application text e) : Written B .expression text e := by
  obtain ⟨T, hT, hlexes⟩ := h
  exact ⟨.application T, .application hT, hlexes⟩

theorem lambda (hx : x.IsIdentifier) (h : Written B .expression text e) :
    Written B .expression ("\\" ++ x ++ " -> " ++ text) (.abs x e) := by
  obtain ⟨T, hT, hlexes⟩ := h
  refine ⟨.lambda x T, .lambda hT, ?_⟩
  have htext : ("\\" ++ x ++ " -> " ++ text).toList =
      '\\' :: (x.toList ++ ' ' :: '-' :: '>' :: ' ' :: text.toList) := by simp
  rw [htext]
  refine .cons (.backslash _) (hx.lexes.append (stops_cons.mpr rfl) (.space ?_))
  exact .cons (.arrow _) (.space hlexes)

theorem letIn (hx : x.IsIdentifier) (h₁ : Written B .expression text₁ e₁)
    (h₂ : Written B .expression text₂ e₂) :
    Written B .expression ("let " ++ x ++ " = " ++ text₁ ++ " in " ++ text₂) (.letIn x e₁ e₂) := by
  obtain ⟨T₁, hT₁, hlexes₁⟩ := h₁
  obtain ⟨T₂, hT₂, hlexes₂⟩ := h₂
  refine ⟨.letIn x T₁ T₂, .letIn hT₁ hT₂, ?_⟩
  have htext : ("let " ++ x ++ " = " ++ text₁ ++ " in " ++ text₂).toList =
      "let".toList ++ ' ' :: (x.toList ++ ' ' :: '=' :: ' ' ::
        (text₁.toList ++ ' ' :: ("in".toList ++ ' ' :: text₂.toList))) := by simp
  have hlet : Lexes B "let".toList [.kwLet] := IsWord.lexes (by decide)
  have hin : Lexes B "in".toList [.kwIn] := IsWord.lexes (by decide)
  have hblank : ∀ cs, Stops isWordRest (' ' :: cs) := fun _ => stops_cons.mpr rfl
  rw [htext]
  refine hlet.append (hblank _) (.space (hx.lexes.append (hblank _) (.space ?_)))
  refine .cons (.equals _) (.space (hlexes₁.append (hblank _) (.space ?_)))
  exact hin.append (hblank _) (.space hlexes₂)

theorem expression {n : Nonterminal} (h : Written B n text e) : Written B .expression text e := by
  cases n with
  | expression => exact h
  | application => exact h.application
  | atom => exact h.head.application

end Written

/-! ## Names -/

namespace Expr

/-- All variables, parameters and `let` names are identifiers. -/
def WellNamed : Expr → Prop
  | .var x => x.IsIdentifier
  | .lit _ => True
  | .app func arg => func.WellNamed ∧ arg.WellNamed
  | .abs x body => x.IsIdentifier ∧ body.WellNamed
  | .letIn x bound body => x.IsIdentifier ∧ bound.WellNamed ∧ body.WellNamed

instance decidableWellNamed : (e : Expr) → Decidable e.WellNamed
  | .var x => inferInstanceAs (Decidable x.IsIdentifier)
  | .lit _ => inferInstanceAs (Decidable True)
  | .app func arg =>
      let _ := decidableWellNamed func
      let _ := decidableWellNamed arg
      inferInstanceAs (Decidable (_ ∧ _))
  | .abs _ body =>
      let _ := decidableWellNamed body
      inferInstanceAs (Decidable (_ ∧ _))
  | .letIn _ bound body =>
      let _ := decidableWellNamed bound
      let _ := decidableWellNamed body
      inferInstanceAs (Decidable (_ ∧ _ ∧ _))

end Expr

/-- The names of an expression stand among the tokens of its tree. -/
theorem Tree.Denotes.wellNamed {n : Nonterminal} {T : Tree n} {e : Expr} (h : T.Denotes e)
    (hnames : ∀ x, .ident x ∈ T.tokens → x.IsIdentifier) : e.WellNamed := by
  induction h with
  | @lambda param body e h ih =>
      exact ⟨hnames param (by simp [tokens]), ih fun x hx => hnames x (by simp [tokens, hx])⟩
  | @letIn name bound body e₁ e₂ h₁ h₂ ih₁ ih₂ =>
      exact ⟨hnames name (by simp [tokens]), ih₁ fun x hx => hnames x (by simp [tokens, hx]),
        ih₂ fun x hx => hnames x (by simp [tokens, hx])⟩
  | application h ih => exact ih hnames
  | head h ih => exact ih hnames
  | @argument func arg e₁ e₂ h₁ h₂ ih₁ ih₂ =>
      exact ⟨ih₁ fun x hx => hnames x (by simp [tokens, hx]),
        ih₂ fun x hx => hnames x (by simp [tokens, hx])⟩
  | ident name => exact hnames name (by simp [tokens])
  | integer h => trivial
  | truth value => trivial
  | @parens inner e h ih => exact ih fun x hx => hnames x (by simp [tokens, hx])

/-- What can be written has identifiers for names. -/
theorem Written.wellNamed {n : Nonterminal} {text : String} {e : Expr} (h : Written B n text e) :
    e.WellNamed := by
  obtain ⟨T, hT, hlexes⟩ := h
  exact hT.wellNamed fun x hx => hlexes.isIdentifier hx

/-! ## The printer -/

namespace Expr

/-- The rule that an expression is printed by. -/
def shape : Expr → Nonterminal
  | .var _ | .lit _ => .atom
  | .app _ _ => .application
  | .abs _ _ | .letIn _ _ _ => .expression

/-- A function gets parentheses exactly if it could not stand before its argument. -/
theorem written_func {e : Expr} {text : String} (h : Written B e.shape text e) :
    Written B .application (parensIf e.isBinder text) e := by
  cases e with
  | var | lit => exact h.head
  | app => exact h
  | abs | letIn => exact h.parens.head

/-- An argument gets parentheses exactly if it is no atom. -/
theorem written_arg {e : Expr} {text : String} (h : Written B e.shape text e) :
    Written B .atom (parensIf (!e.isAtomic) text) e := by
  cases e with
  | var | lit => exact h
  | app => exact h.application.parens
  | abs | letIn => exact h.parens

/-- What the printer writes is a written form. -/
theorem WellNamed.written_render {e : Expr} (h : e.WellNamed) : Written B e.shape e.render e := by
  induction e with
  | var x => exact .ident h
  | lit l => exact .literal l
  | app func arg ih₁ ih₂ => exact (written_func (ih₁ h.1)).argument (written_arg (ih₂ h.2))
  | abs x body ih => exact .lambda h.1 (ih h.2).expression
  | letIn x bound body ih₁ ih₂ =>
      exact .letIn h.1 (ih₁ h.2.1).expression (ih₂ h.2.2).expression

/-- An expression with identifiers for names is read back from its text. -/
theorem WellNamed.parseBy_render {e : Expr} (h : e.WellNamed) :
    parseBy B e.render = .ok e :=
  parseBy_eq_ok_iff.mpr h.written_render.expression

end Expr

/-- Whatever the blanks are, printing and parsing give an expression back exactly
if its names are identifiers, and the names of a parsed expression always are. -/
theorem parseBy_render_iff (B : Blanks) :
    (∀ e : Expr, Expr.parseBy B e.render = .ok e ↔ e.WellNamed) ∧
      ∀ (source : String) (e : Expr), Expr.parseBy B source = .ok e →
        e.WellNamed ∧ Expr.parseBy B e.render = Expr.parseBy B source := by
  have hnames : ∀ (source : String) (e : Expr), Expr.parseBy B source = .ok e → e.WellNamed :=
    fun source e h => (Expr.parseBy_eq_ok_iff.mp h).wellNamed
  refine ⟨fun e => ⟨hnames e.render e, Expr.WellNamed.parseBy_render⟩, ?_⟩
  intro source e h
  exact ⟨hnames source e h, h ▸ (hnames source e h).parseBy_render⟩

/-- Printing and parsing give an expression back exactly if its names are
identifiers.  The names of a parsed expression always are, so what a source
denotes does not change by printing it. -/
theorem parse_render_iff :
    (∀ e : Expr, Expr.parse e.render = .ok e ↔ e.WellNamed) ∧
      ∀ (source : String) (e : Expr), Expr.parse source = .ok e →
        e.WellNamed ∧ Expr.parse e.render = Expr.parse source :=
  parseBy_render_iff .ascii

/-- What `\x'->(x' -007)in1` denotes. -/
def callInOne : Expr :=
  .abs "x'" (.app (.app (.var "x'") (.int (-7))) (.var "in1"))

/-- Neither blanks nor needless parentheses and zeros survive, and a keyword as a name
is not read back. -/
theorem parse_render_iff_callInOne :
    Expr.parse "\\x'->(x' -007)in1" = .ok callInOne ∧
      callInOne.WellNamed ∧ callInOne.render = "\\x' -> x' -7 in1" ∧
      Expr.parse callInOne.render = Expr.parse "\\x'->(x' -007)in1" ∧
      Expr.parse (Expr.var "in").render ≠ .ok (.var "in") := by
  have hparse : Expr.parse "\\x'->(x' -007)in1" = .ok callInOne := by decide +kernel
  have hrender : callInOne.render = "\\x' -> x' -7 in1" := by decide +kernel
  obtain ⟨hnames, hagain⟩ := parse_render_iff.2 _ _ hparse
  exact ⟨hparse, hnames, hrender, hagain, fun h => absurd ((parse_render_iff.1 _).mp h) (by decide)⟩

/-! ## Sources put together -/

section

variable {source₁ source₂ : String} {e₁ e₂ : Expr} {x : Name}

/-- Whatever the blanks are, sources that denote expressions can be put together as the
expressions can. -/
theorem parseBy_compositional (h₁ : Expr.parseBy B source₁ = .ok e₁)
    (h₂ : Expr.parseBy B source₂ = .ok e₂) (hx : x.IsIdentifier) :
    Expr.parseBy B ("(" ++ source₁ ++ ")") = .ok e₁ ∧
      Expr.parseBy B ("(" ++ source₁ ++ ")(" ++ source₂ ++ ")") = .ok (.app e₁ e₂) ∧
      Expr.parseBy B ("\\" ++ x ++ " -> " ++ source₁) = .ok (.abs x e₁) ∧
      Expr.parseBy B ("let " ++ x ++ " = " ++ source₁ ++ " in " ++ source₂) =
        .ok (.letIn x e₁ e₂) := by
  have hw₁ := Expr.parseBy_eq_ok_iff.mp h₁
  have hw₂ := Expr.parseBy_eq_ok_iff.mp h₂
  have hcall : "(" ++ source₁ ++ ")(" ++ source₂ ++ ")" =
      "(" ++ source₁ ++ ")" ++ "(" ++ source₂ ++ ")" := String.toList_inj.mp (by simp)
  refine ⟨?_, ?_, ?_, ?_⟩
  · exact Expr.parseBy_eq_ok_iff.mpr hw₁.parens.expression
  · rw [hcall]
    exact Expr.parseBy_eq_ok_iff.mpr (hw₁.parens.head.call hw₂).expression
  · exact Expr.parseBy_eq_ok_iff.mpr (.lambda hx hw₁)
  · exact Expr.parseBy_eq_ok_iff.mpr (.letIn hx hw₁ hw₂)

/-- Sources that denote expressions can be put together as the expressions can, whatever
blanks, parentheses and binders they hold. -/
theorem parse_compositional (h₁ : Expr.parse source₁ = .ok e₁) (h₂ : Expr.parse source₂ = .ok e₂)
    (hx : x.IsIdentifier) :
    Expr.parse ("(" ++ source₁ ++ ")") = .ok e₁ ∧
      Expr.parse ("(" ++ source₁ ++ ")(" ++ source₂ ++ ")") = .ok (.app e₁ e₂) ∧
      Expr.parse ("\\" ++ x ++ " -> " ++ source₁) = .ok (.abs x e₁) ∧
      Expr.parse ("let " ++ x ++ " = " ++ source₁ ++ " in " ++ source₂) =
        .ok (.letIn x e₁ e₂) :=
  parseBy_compositional h₁ h₂ hx

end

/-- A source that ends in a number. -/
def endsInNumber : String := "\\x'->x' -007"

/-- A source that ends in a word. -/
def endsInWord : String := "let in1=f in in1"

/-- The texts around them keep the number and the words apart, and the name is none of
the keywords, although it starts like one. -/
theorem parse_compositional_binders :
    ∃ e₁ e₂, Expr.parse endsInNumber = .ok e₁ ∧ Expr.parse endsInWord = .ok e₂ ∧
      e₁ = .abs "x'" (.app (.var "x'") (.int (-7))) ∧
      e₂ = .letIn "in1" (.var "f") (.var "in1") ∧
      Name.IsIdentifier "let'" ∧
      Expr.parse ("(" ++ endsInNumber ++ ")") = .ok e₁ ∧
      Expr.parse ("(" ++ endsInNumber ++ ")(" ++ endsInWord ++ ")") = .ok (.app e₁ e₂) ∧
      Expr.parse ("\\" ++ "let'" ++ " -> " ++ endsInNumber) = .ok (.abs "let'" e₁) ∧
      Expr.parse ("let " ++ "let'" ++ " = " ++ endsInNumber ++ " in " ++ endsInWord) =
        .ok (.letIn "let'" e₁ e₂) := by
  have h₁ : Expr.parse endsInNumber = .ok (.abs "x'" (.app (.var "x'") (.int (-7)))) := by
    decide +kernel
  have h₂ : Expr.parse endsInWord = .ok (.letIn "in1" (.var "f") (.var "in1")) := by decide +kernel
  have hx : Name.IsIdentifier "let'" := by decide
  exact ⟨_, _, h₁, h₂, rfl, rfl, hx, parse_compositional h₁ h₂ hx⟩

end LetPoly
