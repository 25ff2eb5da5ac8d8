import LetPoly.Expr.Parser
import LetPoly.Parser.Progress

/-! # Progress of the grammar

Every rule of the grammar leaves a suffix of its tokens, and takes at least
one where it succeeds.  Nested expressions are therefore always shorter than
the expression around them, and the rule for expressions is the rule over
itself, without any bound on its recursion (`Expr.expression_eq`).
-/

namespace LetPoly.Expr

open LetPoly.Parser (Reads Consumes reads_expect consumes_expect reads_ident consumes_ident
  reads_integer consumes_integer reads_pure)

/-! ## Rules over nested expressions -/

namespace Rule

variable {nested nested' : Parser Expr}

theorem reads_parenthesized (h : nested.Reads) : (parenthesized nested).Reads :=
  ((reads_expect _).seqRight h).seqLeft (reads_expect _)

theorem consumes_parenthesized (h : nested.Reads) : (parenthesized nested).Consumes :=
  ((consumes_expect _).seqRight h).seqLeft (reads_expect _)

theorem reads_atom (h : nested.Reads) : (atom nested).Reads :=
  ((reads_ident.map _).orElse <| (reads_integer.map _).orElse <|
    ((reads_expect _).map _).orElse <| ((reads_expect _).map _).orElse <|
    reads_parenthesized h).label _

theorem consumes_atom (h : nested.Reads) : (atom nested).Consumes :=
  ((consumes_ident.map _).orElse <| (consumes_integer.map _).orElse <|
    ((consumes_expect _).map _).orElse <| ((consumes_expect _).map _).orElse <|
    consumes_parenthesized h).label _

theorem reads_application (h : nested.Reads) : (application nested).Reads :=
  (reads_atom h).bind fun _ => (reads_atom h).many.bind fun _ => reads_pure _

theorem consumes_application (h : nested.Reads) : (application nested).Consumes :=
  (consumes_atom h).bind fun _ => (reads_atom h).many.bind fun _ => reads_pure _

theorem reads_lambda (h : nested.Reads) : (lambda nested).Reads :=
  (reads_expect _).bind fun _ => reads_ident.bind fun _ => (reads_expect _).bind fun _ =>
    h.bind fun _ => reads_pure _

theorem consumes_lambda (h : nested.Reads) : (lambda nested).Consumes :=
  (consumes_expect _).bind fun _ => reads_ident.bind fun _ => (reads_expect _).bind fun _ =>
    h.bind fun _ => reads_pure _

theorem reads_letBinding (h : nested.Reads) : (letBinding nested).Reads :=
  (reads_expect _).bind fun _ => reads_ident.bind fun _ => (reads_expect _).bind fun _ =>
    h.bind fun _ => (reads_expect _).bind fun _ => h.bind fun _ => reads_pure _

theorem consumes_letBinding (h : nested.Reads) : (letBinding nested).Consumes :=
  (consumes_expect _).bind fun _ => reads_ident.bind fun _ => (reads_expect _).bind fun _ =>
    h.bind fun _ => (reads_expect _).bind fun _ => h.bind fun _ => reads_pure _

/-- An expression follows one of three rules. -/
theorem run_expression (nested : Parser Expr) (tokens : List Token) :
    (expression nested).run tokens = (lambda nested).run tokens ∨
      (expression nested).run tokens = (letBinding nested).run tokens ∨
      (expression nested).run tokens = (application nested).run tokens := by
  simp only [expression, Parser.run]
  split
  · exact .inl rfl
  · exact .inr (.inl rfl)
  · exact .inr (.inr rfl)

/-- The choice between the three rules reads on if the parser of nested expressions
does. -/
theorem reads_expression (h : nested.Reads) : (expression nested).Reads := by
  intro tokens
  unfold Parser.left
  rcases run_expression nested tokens with he | he | he <;> rw [he]
  · exact reads_lambda h tokens
  · exact reads_letBinding h tokens
  · exact reads_application h tokens

/-- Whichever of the three rules is followed, it takes a token. -/
theorem consumes_expression (h : nested.Reads) : (expression nested).Consumes := by
  intro tokens a rest hr
  rcases run_expression nested tokens with he | he | he <;> rw [he] at hr
  · exact consumes_lambda h tokens a rest hr
  · exact consumes_letBinding h tokens a rest hr
  · exact consumes_application h tokens a rest hr

/-! ### Rules look only at shorter nested expressions -/

/-- Behind the parenthesis only shorter inputs are left for the parser of nested
expressions, so parsers that agree on those cannot be told apart. -/
theorem parenthesized_congr {tokens : List Token}
    (h : ∀ rest, rest.length < tokens.length → nested.run rest = nested'.run rest) :
    (parenthesized nested).run tokens = (parenthesized nested').run tokens := by
  simp only [parenthesized, seqRight_eq_bind, seqLeft_eq_bind, bind_assoc]
  refine Parser.bind_congr rfl fun _ rest hr => ?_
  exact Parser.bind_congr (h rest (consumes_expect _ _ _ _ hr)) fun _ _ _ => rfl

theorem atom_congr {tokens : List Token}
    (h : ∀ rest, rest.length < tokens.length → nested.run rest = nested'.run rest) :
    (atom nested).run tokens = (atom nested').run tokens :=
  Parser.label_congr _ <| Parser.orElse_congr rfl <| Parser.orElse_congr rfl <|
    Parser.orElse_congr rfl <| Parser.orElse_congr rfl <| parenthesized_congr h

/-- The head of an application takes a token, so its arguments are read from shorter
inputs still. -/
theorem application_congr (hn : nested.Reads) {tokens : List Token}
    (h : ∀ rest, rest.length < tokens.length → nested.run rest = nested'.run rest) :
    (application nested).run tokens = (application nested').run tokens := by
  refine Parser.bind_congr (atom_congr h) fun head rest hr => ?_
  have hlt := consumes_atom hn _ _ _ hr
  refine Parser.bind_congr ?_ fun _ _ _ => rfl
  have hitems := Parser.items_congr rest fun r hle =>
    atom_congr fun r' hlt' => h r' (Nat.lt_trans hlt' (Nat.lt_of_le_of_lt hle hlt))
  rw [Parser.run_many, Parser.run_many, hitems]

theorem lambda_congr {tokens : List Token}
    (h : ∀ rest, rest.length < tokens.length → nested.run rest = nested'.run rest) :
    (lambda nested).run tokens = (lambda nested').run tokens := by
  refine Parser.bind_congr rfl fun _ r₁ h₁ => ?_
  refine Parser.bind_congr rfl fun _ r₂ h₂ => ?_
  refine Parser.bind_congr rfl fun _ r₃ h₃ => ?_
  have hlt₁ := consumes_expect _ _ _ _ h₁
  have hlt₂ := consumes_ident _ _ _ h₂
  have hlt₃ := consumes_expect _ _ _ _ h₃
  exact Parser.bind_congr (h r₃ (by omega)) fun _ _ _ => rfl

theorem letBinding_congr (hn : nested.Reads) {tokens : List Token}
    (h : ∀ rest, rest.length < tokens.length → nested.run rest = nested'.run rest) :
    (letBinding nested).run tokens = (letBinding nested').run tokens := by
  refine Parser.bind_congr rfl fun _ r₁ h₁ => ?_
  refine Parser.bind_congr rfl fun _ r₂ h₂ => ?_
  refine Parser.bind_congr rfl fun _ r₃ h₃ => ?_
  have hlt₁ := consumes_expect _ _ _ _ h₁
  have hlt₂ := consumes_ident _ _ _ h₂
  have hlt₃ := consumes_expect _ _ _ _ h₃
  refine Parser.bind_congr (h r₃ (by omega)) fun _ r₄ h₄ => ?_
  refine Parser.bind_congr rfl fun _ r₅ h₅ => ?_
  have hle₄ := (hn.of_ok h₄).length_le
  have hlt₅ := consumes_expect _ _ _ _ h₅
  exact Parser.bind_congr (h r₅ (by omega)) fun _ _ _ => rfl

/-- One layer of the grammar only runs the parser of nested expressions on shorter
inputs. -/
theorem expression_congr (hn : nested.Reads) {tokens : List Token}
    (h : ∀ rest, rest.length < tokens.length → nested.run rest = nested'.run rest) :
    (expression nested).run tokens = (expression nested').run tokens := by
  unfold expression
  simp only [Parser.run]
  split
  · exact lambda_congr h
  · exact letBinding_congr hn h
  · exact application_congr hn h

end Rule

/-! ## The rules -/

/-- The parser of expressions, cut off where no token has been taken. -/
def nestedIn (tokens : List Token) : Parser Expr := fun rest =>
  if rest.length < tokens.length then expression rest
  else .error (.unexpectedEnd "expression") rest

/-- The recursion of `expression`, as one layer over the parser of nested
expressions. -/
theorem run_expression_nestedIn (tokens : List Token) :
    expression.run tokens = (Rule.expression (nestedIn tokens)).run tokens := by
  rw [Parser.run, expression]
  rfl

/-- Within the bound, the parser of nested expressions is `expression` itself. -/
theorem run_nestedIn {tokens rest : List Token} (h : rest.length < tokens.length) :
    (nestedIn tokens).run rest = expression.run rest :=
  if_pos h

theorem reads_nestedIn {tokens : List Token}
    (h : ∀ rest, rest.length < tokens.length → expression.left rest <:+ rest) :
    (nestedIn tokens).Reads := by
  intro rest
  by_cases hlt : rest.length < tokens.length
  · have hleft : (nestedIn tokens).left rest = expression.left rest := by
      rw [Parser.left, Parser.left, run_nestedIn hlt]
    exact hleft ▸ h rest hlt
  · have hrun : (nestedIn tokens).run rest = .error (.unexpectedEnd "expression") rest :=
      if_neg hlt
    simp only [Parser.left_of_error hrun, List.suffix_refl]

/-- What `expression` leaves is a suffix of its input, by induction on the length. -/
theorem left_expression_suffix (tokens : List Token) : expression.left tokens <:+ tokens := by
  have hnested := @reads_nestedIn tokens fun rest _ => left_expression_suffix rest
  have hleft : expression.left tokens = (Rule.expression (nestedIn tokens)).left tokens := by
    rw [Parser.left, Parser.left, run_expression_nestedIn]
  exact hleft ▸ Rule.reads_expression hnested tokens
termination_by tokens.length

theorem reads_expression : expression.Reads :=
  left_expression_suffix

/-- The rule for expressions is the rule over itself. -/
theorem expression_eq : expression = Rule.expression expression := by
  funext tokens
  refine (run_expression_nestedIn tokens).trans ?_
  exact Rule.expression_congr (reads_nestedIn fun rest _ => left_expression_suffix rest)
    fun rest hlt => run_nestedIn hlt

theorem consumes_expression : expression.Consumes := by
  rw [expression_eq]
  exact Rule.consumes_expression reads_expression

end LetPoly.Expr
