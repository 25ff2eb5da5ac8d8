import LetPoly.Token.Lexer

/-! # Parse errors

A source text is no expression because it cannot be cut into tokens, because
it has none, or because a token or the end of the text stands where something
else is expected.  What was expected is kept beside the fault, so that an error
of any kind can be given another expectation.
-/

namespace LetPoly

/-- What is wrong with a source text. -/
inductive ParseFault where
  | unexpectedToken (found : Token)
  | unexpectedEnd
  | outOfRange (literal : String)
  | emptyInput
  | lexing (error : LexError)
deriving DecidableEq

/-- Why a source text is no expression. -/
structure ParseError where
  /-- What is wrong. -/
  fault : ParseFault
  /-- What should stand there instead. -/
  expected? : Option String
deriving DecidableEq

namespace ParseError

/-! ## The errors of parsing -/

/-- A token that stands where something else is expected. -/
abbrev unexpectedToken (expected : String) (found : Token) : ParseError :=
  ⟨.unexpectedToken found, some expected⟩

/-- The tokens end where something is expected. -/
abbrev unexpectedEnd (expected : String) : ParseError :=
  ⟨.unexpectedEnd, some expected⟩

/-- An integer that does not fit in 64 bits. -/
abbrev outOfRange (literal : String) : ParseError :=
  ⟨.outOfRange literal, none⟩

/-- A source without tokens. -/
abbrev emptyInput : ParseError :=
  ⟨.emptyInput, some "expression"⟩

/-- A source that cannot be cut into tokens. -/
abbrev lexing (error : LexError) : ParseError :=
  ⟨.lexing error, none⟩

/-- The same error with another expectation. -/
def expecting (expected : String) (e : ParseError) : ParseError :=
  { e with expected? := some expected }

/-! ## Messages -/

/-- What is wrong. -/
def summary (e : ParseError) : String :=
  match e.fault with
  | .unexpectedToken _ => "unexpected token"
  | .unexpectedEnd => "unexpected end of input"
  | .outOfRange _ => "integer literal out of range"
  | .emptyInput => "empty input"
  | .lexing error => "lexing failed: " ++ error.message

/-- What stands there. -/
def found? (e : ParseError) : Option String :=
  match e.fault with
  | .unexpectedToken found => some found.describe
  | .outOfRange literal => some (Token.quoted literal)
  | .unexpectedEnd | .emptyInput | .lexing _ => none

/-- The text of the error. -/
def message (e : ParseError) : String :=
  e.summary ++ (e.expected?.elim "" fun text => ", expected " ++ text) ++
    (e.found?.elim "" fun text => ", found " ++ text)

end ParseError

end LetPoly
