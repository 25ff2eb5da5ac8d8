import LetPoly.Name

/-! # Tokens

The words, literals and marks of which source text consists.
-/

namespace LetPoly

/-- Tokens of the language.  An integer keeps its text, since not every text
has a value in range. -/
inductive Token where
  | kwLet
  | kwIn
  | kwTrue
  | kwFalse
  | ident (name : Name)
  | integer (text : String)
  | equals
  | backslash
  | arrow
  | lparen
  | rparen
deriving DecidableEq

namespace Token

instance : Inhabited Token := ⟨.equals⟩

/-- The text of a token. -/
def text : Token → String
  | .kwLet => "let"
  | .kwIn => "in"
  | .kwTrue => "True"
  | .kwFalse => "False"
  | .ident name => name
  | .integer text => text
  | .equals => "="
  | .backslash => "\\"
  | .arrow => "->"
  | .lparen => "("
  | .rparen => ")"

/-- A text between single quotes. -/
def quoted (text : String) : String :=
  "'" ++ text ++ "'"

/-- How messages speak of a token. -/
def describe : Token → String
  | .ident name => "identifier " ++ quoted name
  | .integer text => "integer " ++ quoted text
  | token => quoted token.text

end Token

end LetPoly
