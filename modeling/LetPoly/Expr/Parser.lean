import LetPoly.Expr
import LetPoly.Parser

/-! # Parsing expressions

The grammar has five rules:

* expression: a lambda, a `let`, or an application;
* lambda: `\`, an identifier, `->`, an expression;
* `let`: the keyword, an identifier, `=`, an expression, `in`, an expression;
* application: one or more atoms, grouped to the left;
* atom: an identifier, an integer, a truth value, or an expression in
  parentheses.

The rules are first written over a parser for the expressions nested in them
(namespace `Expr.Rule`).  Every rule reads a token before it comes to a nested
expression, so the recursion is on the number of tokens left
(`Expr.expression`).
-/

namespace LetPoly.Expr

open LetPoly.Parser (expect ident integer label many endOfInput)

/-! ## The rules over nested expressions -/

namespace Rule

/-- An expression in parentheses. -/
def parenthesized (nested : Parser Expr) : Parser Expr :=
  expect .lparen *> nested <* expect .rparen

/-- A variable, a literal, or an expression in parentheses. -/
def atom (nested : Parser Expr) : Parser Expr :=
  label "expression" <|
    Expr.var <$> ident
      <|> Expr.int <$> integer
      <|> (fun _ => Expr.bool true) <$> expect .kwTrue
      <|> (fun _ => Expr.bool false) <$> expect .kwFalse
      <|> parenthesized nested

/-- Atoms applied to each other from left to right. -/
def application (nested : Parser Expr) : Parser Expr := do
  let head ← atom nested
  let args ← many (atom nested)
  return head.applyAll args

/-- An abstraction. -/
def lambda (nested : Parser Expr) : Parser Expr := do
  let _ ← expect .backslash
  let param ← ident
  let _ ← expect .arrow
  let body ← nested
  return .abs param body

/-- A `let`. -/
def letBinding (nested : Parser Expr) : Parser Expr := do
  let _ ← expect .kwLet
  let name ← ident
  let _ ← expect .equals
  let bound ← nested
  let _ ← expect .kwIn
  let body ← nested
  return .letIn name bound body

/-- An expression; its first token tells which rule it follows. -/
def expression (nested : Parser Expr) : Parser Expr := fun tokens =>
  match tokens with
  | .backslash :: _ => (lambda nested).run tokens
  | .kwLet :: _ => (letBinding nested).run tokens
  | _ => (application nested).run tokens

end Rule

/-! ## The rules -/

/-- An expression. -/
def expression : Parser Expr := fun tokens =>
  let nested : Parser Expr := fun rest =>
    if rest.length < tokens.length then expression rest
    else .error (.unexpectedEnd "expression") rest
  (Rule.expression nested).run tokens
termination_by tokens => tokens.length

/-- A variable, a literal, or an expression in parentheses. -/
def atom : Parser Expr :=
  Rule.atom expression

/-- Atoms applied to each other from left to right. -/
def application : Parser Expr :=
  Rule.application expression

/-- An abstraction. -/
def lambda : Parser Expr :=
  Rule.lambda expression

/-- A `let`. -/
def letBinding : Parser Expr :=
  Rule.letBinding expression

/-- An expression that takes all tokens. -/
def program : Parser Expr :=
  expression <* endOfInput

/-- The expression that a source text denotes, between the given blanks. -/
def parseBy (B : Blanks) (source : String) : Except ParseError Expr :=
  match tokensBy B source with
  | .error e => .error (.lexing e)
  | .ok [] => .error .emptyInput
  | .ok ts =>
      match program.run ts with
      | .ok e _ => .ok e
      | .error e _ => .error e

/-- The expression that a source text denotes. -/
def parse (source : String) : Except ParseError Expr :=
  parseBy .ascii source

end LetPoly.Expr
