import LetPoly.Numeral.Decimal
import LetPoly.Token

/-! # From source text to tokens

Blanks separate tokens and are otherwise skipped.  At every other place the
longest token is taken (`Token.munch`), so that a keyword with more letters
behind it is an identifier, and a minus sign belongs to the digits or to the
`>` behind it.  Tokens need no blanks between them.

Which characters are blanks is a parameter (`Blanks`) as far as the tokens are
concerned; the language has the five of `Blanks.ascii`.  `lexemes` cuts the
text, `locate` adds the lines and columns, and `lex` does both and says where
the text cannot be cut.
-/

namespace LetPoly

/-! ## Characters -/

/-- Blanks: space, tab, newline, carriage return and form feed. -/
def isBlank (c : Char) : Bool :=
  c = ' ' || c = '\t' || c = '\n' || c = '\r' || c = '\x0c'

/-- Letters and the underscore, with which words start. -/
def isWordStart (c : Char) : Bool :=
  ('a' ≤ c && c ≤ 'z') || ('A' ≤ c && c ≤ 'Z') || c = '_'

/-- What words go on with: also digits and single quotes. -/
def isWordRest (c : Char) : Bool :=
  isWordStart c || Numeral.isDecimalDigit c || c = '\x27'

/-! ## The longest token -/

namespace Token

/-- The token of a word: one of the four keywords, or an identifier. -/
def ofWord (word : String) : Token :=
  if word = "let" then .kwLet
  else if word = "in" then .kwIn
  else if word = "True" then .kwTrue
  else if word = "False" then .kwFalse
  else .ident word

/-- The longest token at the start of the text, and the text behind it. -/
def munch : List Char → Option (Token × List Char)
  | [] => none
  | '=' :: cs => some (.equals, cs)
  | '\\' :: cs => some (.backslash, cs)
  | '(' :: cs => some (.lparen, cs)
  | ')' :: cs => some (.rparen, cs)
  | '-' :: '>' :: cs => some (.arrow, cs)
  | '-' :: cs =>
      let ds := cs.takeWhile Numeral.isDecimalDigit
      if ds.isEmpty then none
      else some (.integer (String.ofList ('-' :: ds)), cs.dropWhile Numeral.isDecimalDigit)
  | c :: cs =>
      if Numeral.isDecimalDigit c then
        some (.integer (String.ofList (c :: cs.takeWhile Numeral.isDecimalDigit)),
          cs.dropWhile Numeral.isDecimalDigit)
      else if isWordStart c then
        some (.ofWord (String.ofList (c :: cs.takeWhile isWordRest)), cs.dropWhile isWordRest)
      else none

theorem length_dropWhile_le (p : Char → Bool) (cs : List Char) :
    (cs.dropWhile p).length ≤ cs.length :=
  (List.dropWhile_sublist p).length_le

/-- Behind a token the text is shorter. -/
theorem length_lt_of_munch {cs rest : List Char} {token : Token}
    (h : munch cs = some (token, rest)) : rest.length < cs.length := by
  rw [munch.eq_def] at h
  split at h
  · cases h
  · cases h; exact Nat.lt_succ_self _
  · cases h; exact Nat.lt_succ_self _
  · cases h; exact Nat.lt_succ_self _
  · cases h; exact Nat.lt_succ_self _
  · cases h; simp only [List.length_cons]; omega
  · next cs _ =>
    have := length_dropWhile_le Numeral.isDecimalDigit cs
    simp only at h
    split at h
    · cases h
    · cases h
      simp only [List.length_cons]
      omega
  · next c cs _ _ _ _ _ _ =>
    have hd := length_dropWhile_le Numeral.isDecimalDigit cs
    have hw := length_dropWhile_le isWordRest cs
    split at h
    · cases h
      simp only [List.length_cons]
      omega
    · split at h
      · cases h
        simp only [List.length_cons]
        omega
      · cases h

end Token

/-! ## Blanks -/

/-- The characters that are skipped between tokens. -/
structure Blanks where
  /-- The test for a blank. -/
  test : Char → Bool
  /-- A space is a blank. -/
  space : test ' ' = true
  /-- No token starts with a blank. -/
  munch_eq_none : ∀ c cs, test c = true → Token.munch (c :: cs) = none

/-- The blanks of the language. -/
def Blanks.ascii : Blanks where
  test := isBlank
  space := rfl
  munch_eq_none c cs h := by
    simp only [isBlank, Bool.or_eq_true, decide_eq_true_eq] at h
    rcases h with (((rfl | rfl) | rfl) | rfl) | rfl <;> rfl

/-! ## Cutting a text -/

/-- A token with the blanks before it. -/
structure Lexeme where
  /-- The blanks, in order. -/
  blanks : List Char
  /-- The token behind them. -/
  token : Token
deriving DecidableEq

/-- Cut a text into lexemes.  If some text behind blanks starts with no token,
that text is the error; blanks at the end are dropped. -/
def lexemesBy (B : Blanks) (cs : List Char) : Except (List Char) (List Lexeme) :=
  match _h : Token.munch (cs.dropWhile B.test) with
  | some (token, rest) => (lexemesBy B rest).map (⟨cs.takeWhile B.test, token⟩ :: ·)
  | none =>
      if (cs.dropWhile B.test).isEmpty then .ok []
      else .error (cs.dropWhile B.test)
termination_by cs.length
decreasing_by
  exact Nat.lt_of_lt_of_le (Token.length_lt_of_munch _h) (Token.length_dropWhile_le B.test cs)

/-- The lexemes of a text of the language. -/
def lexemes (cs : List Char) : Except (List Char) (List Lexeme) :=
  lexemesBy .ascii cs

/-! ## Lines and columns -/

/-- A place in a text.  Lines and columns count from zero. -/
structure Position where
  /-- The number of lines before it. -/
  line : Nat
  /-- The number of characters before it in its line. -/
  column : Nat
deriving DecidableEq

namespace Position

/-- The place behind one blank: a newline starts a line, any other blank takes
one column. -/
def skipBlank (pos : Position) (c : Char) : Position :=
  if c = '\n' then ⟨pos.line + 1, 0⟩ else ⟨pos.line, pos.column + 1⟩

/-- The place that many columns further on. -/
def advance (pos : Position) (columns : Nat) : Position :=
  ⟨pos.line, pos.column + columns⟩

end Position

/-- A token with the places where it starts and ends. -/
structure LocatedToken where
  /-- The token. -/
  token : Token
  /-- The place of its first character. -/
  start : Position
  /-- The place behind its last character. -/
  stop : Position
deriving DecidableEq

/-- The places of consecutive lexemes, the first of which starts at `pos`. -/
def locate (pos : Position) : List Lexeme → List LocatedToken
  | [] => []
  | lexeme :: rest =>
      let start := lexeme.blanks.foldl Position.skipBlank pos
      let stop := start.advance lexeme.token.text.length
      ⟨lexeme.token, start, stop⟩ :: locate stop rest

/-! ## Whole sources -/

/-- A source text that cannot be cut. -/
structure LexError where
  /-- The whole text. -/
  source : String
  /-- Where it has no token, counted in bytes of UTF-8. -/
  offset : Nat
  /-- What is left of it there. -/
  rest : String
deriving DecidableEq

/-- The text of the error. -/
def LexError.message (e : LexError) : String :=
  "Failed to lex '" ++ e.source ++ "' at position " ++ Numeral.decimal e.offset ++
    "; remaining '" ++ e.rest ++ "'"

/-- The error of a source of which `rest` cannot be cut. -/
def LexError.ofRest (source : String) (rest : List Char) : LexError :=
  ⟨source, source.utf8ByteSize - (String.ofList rest).utf8ByteSize, String.ofList rest⟩

/-- The tokens of a source text with their places. -/
def lex (source : String) : Except LexError (List LocatedToken) :=
  match lexemes source.toList with
  | .ok ls => .ok (locate ⟨0, 0⟩ ls)
  | .error rest => .error (.ofRest source rest)

/-- The tokens of a source text, between the given blanks. -/
def tokensBy (B : Blanks) (source : String) : Except LexError (List Token) :=
  match lexemesBy B source.toList with
  | .ok ls => .ok (ls.map (·.token))
  | .error rest => .error (.ofRest source rest)

/-- The tokens of a source text. -/
def tokens (source : String) : Except LexError (List Token) :=
  tokensBy .ascii source

end LetPoly
