import Mathlib.Control.Monad.Basic
import LetPoly.Proofs.ParseFailure

/-! # Integers out of range

A source may have a tree and still denote nothing, because an integer in it
does not fit in 64 bits.  The parser of integers says so, but atoms try their
other alternatives then, so parsing ends as if no expression had come
(`parse_outOfRange`).  The integer is named by the error unless it stands in an
argument in parentheses, which is given back as a whole.
-/

namespace LetPoly

/-- The text of an integer that does not fit in 64 bits. -/
def Token.outOfRange? : Token → Option String
  | .integer text =>
      match Numeral.int64? text with
      | none => some text
      | some _ => none
  | _ => none

/-- The first integer that does not fit in 64 bits. -/
def firstOutOfRange (ts : List Token) : Option String :=
  ts.findSome? Token.outOfRange?

@[simp]
theorem firstOutOfRange_nil : firstOutOfRange [] = none :=
  rfl

@[simp]
theorem firstOutOfRange_cons (t : Token) (ts : List Token) :
    firstOutOfRange (t :: ts) = t.outOfRange?.or (firstOutOfRange ts) := by
  rw [firstOutOfRange, List.findSome?_cons]
  cases t.outOfRange? <;> rfl

@[simp]
theorem firstOutOfRange_append (ts ts' : List Token) :
    firstOutOfRange (ts ++ ts') = (firstOutOfRange ts).or (firstOutOfRange ts') :=
  List.findSome?_append

/-- An integer token is out of range if its text denotes no number of 64 bits. -/
theorem Token.outOfRange?_integer_eq_some_iff {text text' : String} :
    (Token.integer text).outOfRange? = some text' ↔ Numeral.int64? text = none ∧ text' = text := by
  rw [outOfRange?]
  cases Numeral.int64? text <;> simp [eq_comm]

namespace Tree

/-- Whether an atom is an expression in parentheses. -/
def isParens {n : Nonterminal} : Tree n → Bool
  | parens _ => true
  | _ => false

/-- Whether the first integer out of range stands in an argument in parentheses. -/
def literalInArgument {n : Nonterminal} : Tree n → Bool
  | lambda _ body => body.literalInArgument
  | letIn _ bound body =>
      if (firstOutOfRange bound.tokens).isSome then bound.literalInArgument
      else body.literalInArgument
  | application app => app.literalInArgument
  | head atom => atom.literalInArgument
  | argument func arg =>
      if (firstOutOfRange func.tokens).isSome then func.literalInArgument
      else arg.isParens && (firstOutOfRange arg.tokens).isSome
  | parens inner => inner.literalInArgument
  | _ => false

/-- The token that is blamed for the first integer out of range. -/
def blamed {n : Nonterminal} (T : Tree n) (text : String) : Token :=
  if T.literalInArgument then .lparen else .integer text

/-- A tree without such an integer denotes an expression. -/
theorem exists_denotes {n : Nonterminal} {T : Tree n} (h : firstOutOfRange T.tokens = none) :
    ∃ e, T.Denotes e := by
  induction T with
  | lambda param body ih =>
      obtain ⟨e, he⟩ := ih (by simpa [tokens, Token.outOfRange?] using h)
      exact ⟨.abs param e, .lambda he⟩
  | letIn name bound body ih₁ ih₂ =>
      obtain ⟨h₁, h₂⟩ :
          firstOutOfRange bound.tokens = none ∧ firstOutOfRange body.tokens = none := by
        simpa [tokens, Token.outOfRange?] using h
      obtain ⟨e₁, he₁⟩ := ih₁ h₁
      obtain ⟨e₂, he₂⟩ := ih₂ h₂
      exact ⟨.letIn name e₁ e₂, .letIn he₁ he₂⟩
  | application app ih =>
      obtain ⟨e, he⟩ := ih h
      exact ⟨e, .application he⟩
  | head atom ih =>
      obtain ⟨e, he⟩ := ih h
      exact ⟨e, .head he⟩
  | argument func arg ih₁ ih₂ =>
      obtain ⟨h₁, h₂⟩ : firstOutOfRange func.tokens = none ∧ firstOutOfRange arg.tokens = none := by
        simpa [tokens] using h
      obtain ⟨e₁, he₁⟩ := ih₁ h₁
      obtain ⟨e₂, he₂⟩ := ih₂ h₂
      exact ⟨.app e₁ e₂, .argument he₁ he₂⟩
  | ident name => exact ⟨.var name, .ident name⟩
  | integer text =>
      cases hvalue : Numeral.int64? text with
      | none => simp [tokens, Token.outOfRange?, hvalue] at h
      | some value => exact ⟨.int value, .integer (Numeral.int64?_eq_some_iff.mp hvalue)⟩
  | truth value => exact ⟨.bool value, .truth value⟩
  | parens inner ih =>
      obtain ⟨e, he⟩ := ih (by simpa [tokens, Token.outOfRange?] using h)
      exact ⟨e, .parens he⟩

end Tree

/-! ## Where the parser halts -/

/-- The parser comes to `t` and no further: it fails there, or ends before it. -/
def HaltsAt (p : Parser Expr) (ts : List Token) (t : Token) : Prop :=
  (∃ expected left, p.run ts = .error (.unexpectedToken expected t) left) ∨
    ∃ a left, p.run ts = .ok a (t :: left)

/-- What the parser of a nonterminal does on tokens for which `t` is blamed, whatever stands
behind them.  Atoms are read to their end or not at all. -/
def Halts : Nonterminal → List Token → Token → Prop
  | .expression, ts, t => ∀ rest, HaltsAt Expr.expression (ts ++ rest) t
  | .application, ts, t => ∀ rest, HaltsAt Expr.application (ts ++ rest) t
  | .atom, ts, t => ∀ rest, ∃ expected left,
      Expr.atom.run (ts ++ rest) = .error (.unexpectedToken expected t) left

/-- A rule that ends with a nested parser halts where this one does. -/
theorem HaltsAt.lift {p q : Parser Expr} {ts inner : List Token} {t : Token} (h : HaltsAt q inner t)
    (herror : ∀ e left, q.run inner = .error e left → p.run ts = .error e left)
    (hok : ∀ a left, q.run inner = .ok a left → ∃ b, p.run ts = .ok b left) : HaltsAt p ts t := by
  rcases h with ⟨expected, left, hrun⟩ | ⟨a, left, hrun⟩
  · exact .inl ⟨expected, left, herror _ _ hrun⟩
  · obtain ⟨b, hb⟩ := hok _ _ hrun
    exact .inr ⟨b, left, hb⟩

namespace Halts

variable {ts ts' : List Token} {t : Token}

/-- The parser halts within the body of an abstraction. -/
theorem lambda (param : Name) (h : Halts .expression ts t) :
    Halts .expression (.backslash :: .ident param :: .arrow :: ts) t := by
  intro rest
  refine (h rest).lift (fun e left hrun => ?_) fun a left hrun => ⟨.abs param a, ?_⟩
  · refine Expr.run_expression_backslash.trans (Expr.run_lambda_eq_error_iff.mpr ?_)
    exact .inr ⟨_, _, rfl, .inr ⟨_, rfl, hrun⟩⟩
  · refine Expr.run_expression_backslash.trans (Expr.run_lambda_eq_ok_iff.mpr ?_)
    exact ⟨param, a, _, rfl, hrun, rfl⟩

/-- A bound expression may end early, but then no `in` follows. -/
theorem bound (name : Name) (h : Halts .expression ts t) (ht : t ≠ .kwIn) :
    Halts .expression (.kwLet :: .ident name :: .equals :: (ts ++ ts')) t := by
  intro rest
  have hbound := h (ts' ++ rest)
  rw [← List.append_assoc] at hbound
  rcases hbound with ⟨expected, left, hrun⟩ | ⟨a, left, hrun⟩
  · refine .inl ⟨expected, left, Expr.run_expression_kwLet.trans ?_⟩
    exact Expr.run_letBinding_eq_error_iff.mpr (.inr ⟨_, _, rfl, .inr ⟨_, rfl, .inl hrun⟩⟩)
  · have hin : (t :: left).head? ≠ some .kwIn := by simpa using ht
    refine .inl ⟨Token.kwIn.describe, t :: left, Expr.run_expression_kwLet.trans ?_⟩
    exact Expr.run_letBinding_eq_error_iff.mpr
      (.inr ⟨_, _, rfl, .inr ⟨_, rfl, .inr ⟨a, _, hrun, .inl ⟨hin, rfl, rfl⟩⟩⟩⟩)

/-- The parser halts within the body of a `let`, behind a bound expression in range. -/
theorem letBody {T : Tree .expression} {e₁ : Expr} (name : Name) (h₁ : T.Denotes e₁)
    (h : Halts .expression ts t) :
    Halts .expression (.kwLet :: .ident name :: .equals :: (T.tokens ++ .kwIn :: ts)) t := by
  intro rest
  have hread := h₁.parsed (.kwIn :: (ts ++ rest)) (noAtom_cons.mpr rfl)
  rw [← List.cons_append, ← List.append_assoc] at hread
  refine (h rest).lift (fun e left hrun => ?_) fun a left hrun => ⟨.letIn name e₁ a, ?_⟩
  · refine Expr.run_expression_kwLet.trans (Expr.run_letBinding_eq_error_iff.mpr ?_)
    exact .inr ⟨_, _, rfl, .inr ⟨_, rfl, .inr ⟨e₁, _, hread, .inr ⟨_, rfl, hrun⟩⟩⟩⟩
  · refine Expr.run_expression_kwLet.trans (Expr.run_letBinding_eq_ok_iff.mpr ?_)
    exact ⟨name, e₁, a, _, _, rfl, hread, hrun, rfl⟩

theorem application {app : Tree .application} (h : Halts .application app.tokens t) :
    Halts .expression app.tokens t := by
  intro rest
  obtain ⟨next, tail, htokens, hstarts⟩ := app.exists_tokens_eq (by decide)
  have hrule : Expr.expression.run (app.tokens ++ rest) =
      Expr.application.run (app.tokens ++ rest) := by
    refine Expr.run_expression_of_head ?_
    rw [htokens]
    rintro _ ⟨⟩
    constructor <;> rintro rfl <;> cases hstarts
  exact (h rest).lift (fun e left hrun => hrule.trans hrun) fun a left hrun =>
    ⟨a, hrule.trans hrun⟩

theorem head (h : Halts .atom ts t) : Halts .application ts t := by
  intro rest
  obtain ⟨expected, left, hrun⟩ := h rest
  exact .inl ⟨expected, left, Expr.run_application_eq_error_iff.mpr hrun⟩

/-- Arguments behind the token that is blamed do not matter. -/
theorem func (h : Halts .application ts t) : Halts .application (ts ++ ts') t := by
  intro rest
  rw [List.append_assoc]
  exact h (ts' ++ rest)

/-- An application ends before an argument that fails, wherever this failed. -/
theorem argument {func : Tree .application} {e₁ : Expr} {t' : Token} (h₁ : func.Denotes e₁)
    (h : Halts .atom (t :: ts) t') : Halts .application (func.tokens ++ t :: ts) t := by
  intro rest
  obtain ⟨expected, left, hrun⟩ := h rest
  have hread := h₁.parsed (t :: ts ++ rest)
  rw [Parser.items_of_error hrun, ← List.append_assoc] at hread
  exact .inr ⟨_, ts ++ rest, hread⟩

/-- An integer out of range is blamed itself. -/
theorem integer {text : String} (h : Numeral.int64? text = none) :
    Halts .atom [.integer text] (.integer text) := by
  intro rest
  have hrefused : Refused (.integer text :: rest) := by
    rintro _ ⟨⟩
    exact .inr ⟨text, rfl, h⟩
  exact ⟨"expression", _, Expr.run_atom_of_refused hrefused⟩

/-- An expression in parentheses may end early, but then it is not closed. -/
theorem parens (h : Halts .expression ts t) (ht : t ≠ .rparen) :
    Halts .atom (.lparen :: (ts ++ ts')) t := by
  intro rest
  have hinner := h (ts' ++ rest)
  rw [← List.append_assoc] at hinner
  rcases hinner with ⟨expected, left, hrun⟩ | ⟨a, left, hrun⟩
  · exact ⟨expected, left, Expr.run_atom_lparen_eq_error_iff.mpr (.inl hrun)⟩
  · have hclose : (t :: left).head? ≠ some .rparen := by simpa using ht
    exact ⟨Token.rparen.describe, t :: left,
      Expr.run_atom_lparen_eq_error_iff.mpr (.inr ⟨hclose, rfl, a, hrun⟩)⟩

end Halts

namespace Tree

/-- The token that is blamed closes nothing. -/
theorem blamed_ne {n : Nonterminal} (T : Tree n) (text : String) {t : Token}
    (ht : t = .kwIn ∨ t = .rparen) : T.blamed text ≠ t := by
  unfold blamed
  rcases ht with rfl | rfl <;> split <;> simp

/-- An atom that cannot be read starts with the token to be blamed. -/
theorem exists_tokens_eq_of_outOfRange (arg : Tree .atom) {text : String}
    (h : firstOutOfRange arg.tokens = some text) :
    ∃ tail, arg.tokens = (if arg.isParens then .lparen else .integer text) :: tail := by
  cases arg with
  | ident name => simp [tokens, Token.outOfRange?] at h
  | integer text' =>
      have htext : (Token.integer text').outOfRange? = some text := by simpa [tokens] using h
      obtain ⟨-, rfl⟩ := Token.outOfRange?_integer_eq_some_iff.mp htext
      exact ⟨[], rfl⟩
  | truth value => cases value <;> simp [tokens, Token.truth, Token.outOfRange?] at h
  | parens inner => exact ⟨_, rfl⟩

/-- On the tokens of a tree with an integer out of range, the parser halts at the token
that is blamed. -/
theorem halts {n : Nonterminal} (T : Tree n) {text : String}
    (h : firstOutOfRange T.tokens = some text) : Halts n T.tokens (T.blamed text) := by
  induction T with
  | lambda param body ih => exact (ih (by simpa [tokens, Token.outOfRange?] using h)).lambda param
  | letIn name bound body ih₁ ih₂ =>
      cases hbound : firstOutOfRange bound.tokens with
      | some text' =>
          obtain rfl : text' = text := by simpa [tokens, Token.outOfRange?, hbound] using h
          have hblamed : (letIn name bound body).blamed text' = bound.blamed text' := by
            simp [blamed, literalInArgument, hbound]
          rw [hblamed]
          exact (ih₁ hbound).bound name (bound.blamed_ne text' (.inl rfl))
      | none =>
          obtain ⟨e₁, he₁⟩ := exists_denotes hbound
          have hblamed : (letIn name bound body).blamed text = body.blamed text := by
            simp [blamed, literalInArgument, hbound]
          rw [hblamed]
          exact (ih₂ (by simpa [tokens, Token.outOfRange?, hbound] using h)).letBody name he₁
  | application app ih => exact (ih h).application
  | head atom ih => exact (ih h).head
  | argument func arg ih₁ ih₂ =>
      cases hfunc : firstOutOfRange func.tokens with
      | some text' =>
          obtain rfl : text' = text := by simpa [tokens, hfunc] using h
          have hblamed : (argument func arg).blamed text' = func.blamed text' := by
            simp [blamed, literalInArgument, hfunc]
          rw [hblamed]
          exact (ih₁ hfunc).func
      | none =>
          have harg : firstOutOfRange arg.tokens = some text := by simpa [tokens, hfunc] using h
          obtain ⟨e₁, he₁⟩ := exists_denotes hfunc
          obtain ⟨tail, htail⟩ := arg.exists_tokens_eq_of_outOfRange harg
          have hblamed : (argument func arg).blamed text =
              if arg.isParens then .lparen else .integer text := by
            simp [blamed, literalInArgument, hfunc, harg]
          -- whatever the argument itself blames, its own first token is blamed instead
          have hhalts := ih₂ harg
          rw [htail] at hhalts
          rw [hblamed, tokens, htail]
          exact hhalts.argument he₁
  | ident name => simp [tokens, Token.outOfRange?] at h
  | integer text' =>
      have htext : (Token.integer text').outOfRange? = some text := by simpa [tokens] using h
      obtain ⟨hrange, rfl⟩ := Token.outOfRange?_integer_eq_some_iff.mp htext
      exact .integer hrange
  | truth value => cases value <;> simp [tokens, Token.truth, Token.outOfRange?] at h
  | parens inner ih =>
      exact (ih (by simpa [tokens, Token.outOfRange?] using h)).parens
        (inner.blamed_ne text (.inr rfl))

end Tree

/-! ## The error of a source -/

/-- A source that has a tree but holds an integer out of range is never accepted, and the
error is that of an unexpected token.  The token is the first such integer, or the
parenthesis that opens the argument around it. -/
theorem parse_outOfRange {source : String} {T : Tree .expression} {text : String}
    (hsource : tokens source = .ok T.tokens) (htext : firstOutOfRange T.tokens = some text) :
    ∃ expected, Expr.parse source = .error (.unexpectedToken expected
      (if T.literalInArgument then .lparen else .integer text)) := by
  have hprogram : ∃ expected left, Expr.program.run T.tokens =
      .error (.unexpectedToken expected (T.blamed text)) left := by
    have hhalts := T.halts htext []
    rw [List.append_nil] at hhalts
    rcases hhalts with ⟨expected, left, hrun⟩ | ⟨a, left, hrun⟩
    · exact ⟨expected, left, Expr.run_program_eq_error_iff.mpr (.inl hrun)⟩
    · refine ⟨"end of input", T.blamed text :: left, Expr.run_program_eq_error_iff.mpr ?_⟩
      exact .inr ⟨List.cons_ne_nil _ _, rfl, a, hrun⟩
  obtain ⟨expected, left, hrun⟩ := hprogram
  refine ⟨expected, ?_⟩
  rw [Expr.parse, Expr.parseBy, ← tokens, hsource]
  cases htokens : T.tokens with
  | nil => exact absurd htokens T.tokens_ne_nil
  | cons t ts =>
      rw [htokens] at hrun
      simp only [hrun, Tree.blamed]

/-- The tree of `\x -> f x (g 99999999999999999999)`. -/
def largeInArgument : Tree .expression :=
  .lambda "x" (.application (.argument (.argument (.head (.ident "f")) (.ident "x"))
    (.parens (.application (.argument (.head (.ident "g")) (.integer "99999999999999999999"))))))

/-- The tree of `let y = -9223372036854775809 in y`. -/
def largeInLet : Tree .expression :=
  .letIn "y" (.application (.head (.integer "-9223372036854775809")))
    (.application (.head (.ident "y")))

/-- The parenthesis of the argument is blamed, and the integer that is bound by a
`let`. -/
theorem parse_outOfRange_large :
    (∃ expected, Expr.parse "\\x -> f x (g 99999999999999999999)" =
        .error (.unexpectedToken expected .lparen)) ∧
      ∃ expected, Expr.parse "let y = -9223372036854775809 in y" =
        .error (.unexpectedToken expected (.integer "-9223372036854775809")) := by
  have hargument : tokens "\\x -> f x (g 99999999999999999999)" =
      .ok largeInArgument.tokens := by decide +kernel
  have hlet : tokens "let y = -9223372036854775809 in y" = .ok largeInLet.tokens := by
    decide +kernel
  have hfirst : firstOutOfRange largeInArgument.tokens = some "99999999999999999999" := by
    decide +kernel
  have hfirst' : firstOutOfRange largeInLet.tokens = some "-9223372036854775809" := by
    decide +kernel
  exact ⟨parse_outOfRange hargument hfirst, parse_outOfRange hlet hfirst'⟩

/-- The tree of `99999999999999999999`. -/
def largeAlone : Tree .expression :=
  .application (.head (.integer "99999999999999999999"))

/-- The error that the parser of integers has for an integer out of range does not reach the
outside, even if the integer is the whole source. -/
theorem parse_not_outOfRange :
    tokens "99999999999999999999" = .ok largeAlone.tokens ∧
      firstOutOfRange largeAlone.tokens = some "99999999999999999999" ∧
      Parser.integer.run largeAlone.tokens = .error (.outOfRange "99999999999999999999") [] ∧
      ∃ e, Expr.parse "99999999999999999999" = .error e ∧
        e.summary ≠ (ParseError.outOfRange "99999999999999999999").summary := by
  have hparse : Expr.parse "99999999999999999999" =
      .error (.unexpectedToken "expression" (.integer "99999999999999999999")) := by decide +kernel
  exact ⟨by decide +kernel, by decide +kernel, rfl, _, hparse, by decide⟩

end LetPoly
