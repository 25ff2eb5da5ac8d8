import LetPoly.Parser

/-! # Cursors

A cursor is a list of tokens with a position in it, on which parsers can be
run one after the other.  The position counts the tokens before it, and may be
set anywhere; past the end there is nothing left to read.
-/

namespace LetPoly

/-- A position in a list of tokens. -/
structure Cursor where
  /-- The whole list of tokens. -/
  tokens : List Token
  /-- How many of them have been read. -/
  position : Nat
deriving DecidableEq

namespace Cursor

/-- The cursor at the first token. -/
def ofTokens (tokens : List Token) : Cursor :=
  ⟨tokens, 0⟩

/-- The tokens from the position on. -/
def rest (c : Cursor) : List Token :=
  c.tokens.drop c.position

/-- The next token. -/
def peek (c : Cursor) : Option Token :=
  c.rest.head?

/-- The cursor behind the next token, if there is one. -/
def advance (c : Cursor) : Cursor :=
  if c.peek.isSome then { c with position := c.position + 1 } else c

/-- The cursor at another position. -/
def restore (c : Cursor) (position : Nat) : Cursor :=
  { c with position := position }

/-- The cursor where a parser left `rest`. -/
def leaving (c : Cursor) (rest : List Token) : Cursor :=
  { c with position := c.position + (c.rest.length - rest.length) }

/-- Run a parser from the position on.  The cursor moves as far as the parser
came, also if it failed. -/
def run {α : Type} (p : Parser α) (c : Cursor) : Except ParseError α × Cursor :=
  match p.run c.rest with
  | .ok a rest => (.ok a, c.leaving rest)
  | .error e rest => (.error e, c.leaving rest)

end Cursor

end LetPoly
