import LetPoly.ParseError

/-! # Parsers of token lists

A parser reads some of the tokens and leaves the rest, also where it fails:
then the rest tells how far it came.  Sequences are the sequences of the
monad, so a failure in the middle leaves the rest as it is there.  Choice and
repetition give the tokens of a failed attempt back.
-/

namespace LetPoly

/-- Parsers of token lists.  The state is the list of tokens still to be read. -/
def Parser (α : Type) : Type :=
  EStateM ParseError (List Token) α

namespace Parser

variable {α β : Type}

instance : Monad Parser :=
  inferInstanceAs (Monad (EStateM ParseError (List Token)))

instance : LawfulMonad Parser :=
  inferInstanceAs (LawfulMonad (EStateM ParseError (List Token)))

/-- What a parser makes of tokens: a value or an error, and the tokens left. -/
def run (p : Parser α) (tokens : List Token) : EStateM.Result ParseError (List Token) α :=
  p tokens

/-- Fail without reading a token. -/
def fail (e : ParseError) : Parser α := fun tokens =>
  .error e tokens

/-- Try the first parser; if it fails, give its tokens back and try the second. -/
def orElse (p : Parser α) (q : Unit → Parser α) : Parser α := fun tokens =>
  match p.run tokens with
  | .ok a rest => .ok a rest
  | .error _ _ => (q ()).run tokens

instance : OrElse (Parser α) := ⟨orElse⟩

@[simp]
theorem run_pure (a : α) (tokens : List Token) : (pure a : Parser α).run tokens = .ok a tokens :=
  rfl

/-- Sequencing passes on what is left, and the first failure ends it. -/
theorem run_bind (p : Parser α) (f : α → Parser β) (tokens : List Token) :
    (p >>= f).run tokens =
      match p.run tokens with
      | .ok a rest => (f a).run rest
      | .error e rest => .error e rest := by
  change EStateM.bind p f tokens = _
  simp only [EStateM.bind, run]
  cases p tokens <;> rfl

/-- The second parser is only tried if the first has failed, and starts where the first
one did. -/
theorem run_orElse (p q : Parser α) (tokens : List Token) :
    (p <|> q).run tokens =
      match p.run tokens with
      | .ok a rest => .ok a rest
      | .error _ _ => q.run tokens :=
  rfl

/-! ## Single tokens -/

/-- Read the next token if `select` takes it. -/
def token (expected : String) (select : Token → Option α) : Parser α := fun tokens =>
  match tokens with
  | [] => .error (.unexpectedEnd expected) []
  | next :: rest =>
      match select next with
      | some a => .ok a rest
      | none => .error (.unexpectedToken expected next) (next :: rest)

/-- Read one given token. -/
def expect (wanted : Token) : Parser Token :=
  token wanted.describe fun next => if next = wanted then some next else none

/-- Read an identifier. -/
def ident : Parser Name :=
  token "identifier" fun
    | .ident name => some name
    | _ => none

/-- Read the text of an integer. -/
def integerText : Parser String :=
  token "integer" fun
    | .integer text => some text
    | _ => none

/-- Read an integer, which must fit in 64 bits. -/
def integer : Parser Int64 := do
  let text ← integerText
  match Numeral.int64? text with
  | some value => return value
  | none => fail (.outOfRange text)

/-- Succeed where no token is left. -/
def endOfInput : Parser Unit := fun tokens =>
  match tokens with
  | [] => .ok () []
  | next :: rest => .error (.unexpectedToken "end of input" next) (next :: rest)

/-! ## Combinators -/

/-- One parser after the other. -/
def seq (p : Parser α) (q : Parser β) : Parser (α × β) := do
  let a ← p
  let b ← q
  return (a, b)

/-- Say what is expected, unless the parser had read a token before it failed. -/
def label (expected : String) (p : Parser α) : Parser α := fun tokens =>
  match p.run tokens with
  | .ok a rest => .ok a rest
  | .error e rest => .error (if rest.length = tokens.length then e.expecting expected else e) rest

/-- Read items until one fails, or reads no token.  Give back the tokens of the
last attempt. -/
def items (p : Parser α) (tokens : List Token) : List α × List Token :=
  match p.run tokens with
  | .ok a rest =>
      if rest.length < tokens.length then
        let (as, rest') := items p rest
        (a :: as, rest')
      else ([], tokens)
  | .error _ _ => ([], tokens)
termination_by tokens.length

/-- Any number of items, one after the other. -/
def many (p : Parser α) : Parser (List α) := fun tokens =>
  let (as, rest) := items p tokens
  .ok as rest

end Parser

end LetPoly
