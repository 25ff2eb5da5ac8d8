import Mathlib.Control.Monad.Basic
import LetPoly.Proofs.ParseFailure

/-! # Positions of parse errors

The position of a failed parser is a real place: what stands before it can be
continued to a program, and the error names the token that stands there, or
the end of the tokens (`program_error_at`).  That token is the first one that
cannot be continued, except for an opening parenthesis behind an expression
(`program_error_blames_iff`): arguments that fail are given back, so the
parenthesis is blamed for what is missed behind it.
-/

namespace LetPoly

/-! ## Failure of a program -/

namespace Expr

variable {ts rest : List Token} {e : ParseError}

/-- Something is missed in a program: within its expression, or the end behind it. -/
def ProgramMisses (read : List Token) (expected : String) (rest : List Token) : Prop :=
  Misses .expression read expected rest ∨
    expected = "end of input" ∧ rest ≠ [] ∧ ∃ a, expression.run (read ++ rest) = .ok a rest

/-- If a program fails, something is missed at the place of the error. -/
theorem programMisses_of_run (h : program.run ts = .error e rest) :
    ∃ read expected, ts = read ++ rest ∧ e = .missing expected rest ∧
      ProgramMisses read expected rest := by
  rcases run_program_eq_error_iff.mp h with h | ⟨hne, rfl, a, h⟩
  · obtain ⟨read, expected, rfl, rfl, hmiss⟩ := failsAt_expression h
    exact ⟨read, expected, rfl, rfl, .inl hmiss⟩
  · obtain ⟨read, rfl⟩ := reads_expression.of_ok h
    exact ⟨read, _, rfl, rfl, .inr ⟨rfl, hne, a, h⟩⟩

namespace ProgramMisses

variable {read rest rest' next : List Token} {expected : String}

/-- If something is missed in a program, the parser fails there. -/
theorem run (h : ProgramMisses read expected rest) :
    program.run (read ++ rest) = .error (.missing expected rest) rest := by
  rcases h with h | ⟨rfl, hne, a, h⟩
  · exact run_program_eq_error_iff.mpr (.inl h.run)
  · exact run_program_eq_error_iff.mpr (.inr ⟨hne, rfl, a, h⟩)

/-- What was read before a failure can be continued, with whatever may follow there. -/
theorem viable (h : ProgramMisses read expected rest) (hnext : MayFollow expected next) :
    Viable .expression (read ++ next) := by
  rcases h with h | ⟨rfl, hne, a, h⟩
  · exact h.viable hnext
  · exact hnext.viable h

/-- What is missed because of one token is missed whatever follows that token. -/
theorem congr_rest (h : ProgramMisses read expected rest) (hblocks : Blocks expected rest)
    (hhead : rest'.head? = rest.head?) : ProgramMisses read expected rest' := by
  rcases h with h | ⟨rfl, hne, a, h⟩
  · exact .inl (h.congr_rest hblocks hhead)
  · have hno : NoAtom rest := hblocks.noAtom (by decide) h
    have hne' : rest' ≠ [] := by
      rintro rfl
      exact hne (List.head?_eq_none_iff.mp hhead.symm)
    exact .inr ⟨rfl, hne', a, run_expression_append h (by rwa [NoAtom, hhead])⟩

end ProgramMisses

/-- A program accepts what is tokens of a tree, and so something viable. -/
theorem exists_program_of_viable {read : List Token} (h : Viable .expression read) :
    ∃ more a, (Cursor.run program (.ofTokens (read ++ more))).1 = .ok a := by
  obtain ⟨T, a, hT, more, hmore⟩ := h
  refine ⟨more, a, Cursor.run_ofTokens_eq_ok_iff.mpr (exists_run_program_iff.mpr ⟨T, ?_, hT⟩)⟩
  exact hmore.symm

end Expr

/-- The integers of a tree that denotes an expression are in range. -/
theorem Tree.Denotes.int64?_ne_none {n : Nonterminal} {T : Tree n} {e : Expr} (h : T.Denotes e)
    {text : String} (htext : .integer text ∈ T.tokens) : Numeral.int64? text ≠ none := by
  induction h with
  | @integer text' value h =>
      obtain rfl : text = text' := by simpa [tokens] using htext
      simp [Numeral.int64?_eq_some_iff.mpr h]
  | truth value => cases value <;> simp [tokens, Token.truth] at htext
  | _ => simp_all [tokens] <;> grind

/-- A cursor over the whole list fails where the parser fails, at the number of tokens
that were read. -/
theorem Cursor.run_ofTokens_eq_error_iff {α : Type} {p : Parser α} {ts : List Token}
    {e : ParseError} {c : Cursor} :
    Cursor.run p (.ofTokens ts) = (.error e, c) ↔
      ∃ rest, p.run ts = .error e rest ∧ c = ⟨ts, ts.length - rest.length⟩ := by
  have hrest : (Cursor.ofTokens ts).rest = ts := rfl
  have hleaving : ∀ rest, (Cursor.ofTokens ts).leaving rest = ⟨ts, ts.length - rest.length⟩ := by
    intro rest
    rw [Cursor.leaving, hrest, Cursor.ofTokens, Nat.zero_add]
  rw [Cursor.run, hrest]
  cases p.run ts with
  | ok a rest => simp
  | error e' rest =>
      simp only [hleaving]
      grind

/-- A cursor that was left behind by a program which failed: what was read, what was missed
and what is left. -/
theorem exists_programMisses_of_run {ts : List Token} {e : ParseError} {c : Cursor}
    (h : Cursor.run Expr.program (.ofTokens ts) = (.error e, c)) :
    ∃ read expected rest, Expr.ProgramMisses read expected rest ∧ ts = read ++ rest ∧
      e = .missing expected rest ∧ c.position = read.length := by
  obtain ⟨rest, hrun, rfl⟩ := Cursor.run_ofTokens_eq_error_iff.mp h
  obtain ⟨read, expected, rfl, rfl, hmiss⟩ := Expr.programMisses_of_run hrun
  exact ⟨read, expected, rest, hmiss, rfl, rfl, by simp⟩

/-! ## The position and the token that stands there -/

/-- Where a program fails, the tokens before the position can be continued to a program, and
the error says what was expected and names the token at the position, or the end.  Integers
may have any size. -/
theorem program_error_at {ts : List Token} {e : ParseError} {c : Cursor}
    (h : Cursor.run Expr.program (.ofTokens ts) = (.error e, c)) :
    c.position ≤ ts.length ∧
      (∃ more a, (Cursor.run Expr.program (.ofTokens (ts.take c.position ++ more))).1 = .ok a) ∧
      e.expected?.isSome ∧
      (c.position = ts.length → e.summary = "unexpected end of input" ∧ e.found? = none) ∧
      ∀ next, ts[c.position]? = some next →
        e.summary = "unexpected token" ∧ e.found? = some next.describe := by
  obtain ⟨read, expected, rest, hmiss, rfl, rfl, hposition⟩ := exists_programMisses_of_run h
  have hviable := Expr.exists_program_of_viable (hmiss.viable (.inl rfl))
  rw [List.append_nil] at hviable
  rw [hposition, List.take_left]
  refine ⟨by simp, hviable, ?_⟩
  cases rest with
  | nil => exact ⟨rfl, fun _ => ⟨rfl, rfl⟩, by simp⟩
  | cons next rest =>
      refine ⟨rfl, by simp, ?_⟩
      simp [ParseError.missing, ParseError.summary, ParseError.found?]

/-- The tokens of `let x = \y -> f (y in x`. -/
def openInLet : List Token :=
  [.kwLet, .ident "x", .equals, .backslash, .ident "y", .arrow, .ident "f", .lparen, .ident "y",
    .kwIn, .ident "x"]

/-- The tokens of `(f x`. -/
def openGroup : List Token :=
  [.lparen, .ident "f", .ident "x"]

/-- In `let x = \y -> f (y in x` the error is at the parenthesis, and in `(f x` it is at
the end. -/
theorem program_error_at_open :
    (∃ e c, Cursor.run Expr.program (.ofTokens openInLet) = (.error e, c) ∧ c.position = 7 ∧
        e.summary = "unexpected token" ∧ e.found? = some "'('" ∧
        ∃ more a, (Cursor.run Expr.program (.ofTokens (openInLet.take 7 ++ more))).1 = .ok a) ∧
      ∃ e c, Cursor.run Expr.program (.ofTokens openGroup) = (.error e, c) ∧ c.position = 3 ∧
        e.summary = "unexpected end of input" ∧ e.found? = none := by
  have hlet : Cursor.run Expr.program (.ofTokens openInLet) =
      (.error (.unexpectedToken "'in'" .lparen), ⟨openInLet, 7⟩) := by decide +kernel
  have hgroup : Cursor.run Expr.program (.ofTokens openGroup) =
      (.error (.unexpectedEnd "')'"), ⟨openGroup, 3⟩) := by decide +kernel
  obtain ⟨-, hviable, -, -, hfound⟩ := program_error_at hlet
  obtain ⟨-, -, -, hend, -⟩ := program_error_at hgroup
  exact ⟨⟨_, _, hlet, rfl, (hfound .lparen rfl).1, (hfound .lparen rfl).2, hviable⟩,
    _, _, hgroup, rfl, (hend rfl).1, (hend rfl).2⟩

/-! ## Right and wrong blame -/

/-- The parser blames a token rightly, that is, no program starts with the tokens up to it,
unless it is an opening parenthesis behind an expression. -/
theorem program_error_blames_iff {ts : List Token} {e : ParseError} {c : Cursor} {next : Token}
    (h : Cursor.run Expr.program (.ofTokens ts) = (.error e, c))
    (hnext : ts[c.position]? = some next) :
    (∀ more a, (Cursor.run Expr.program (.ofTokens (ts.take (c.position + 1) ++ more))).1 ≠ .ok a) ↔
      ¬ (next = .lparen ∧ ∃ expected ∈ expectedBehindExpression, e.expected? = some expected) := by
  obtain ⟨read, expected, rest, hmiss, rfl, rfl, hposition⟩ := exists_programMisses_of_run h
  obtain ⟨tail, rfl⟩ : ∃ tail, rest = next :: tail := by
    cases rest <;> simp_all
  have htake : (read ++ next :: tail).take (c.position + 1) = read ++ [next] := by
    rw [hposition, List.take_length_add_append]
    rfl
  have hexpected : (ParseError.missing expected (next :: tail)).expected? = some expected := rfl
  rw [htake, hexpected]
  constructor
  · rintro hnone ⟨rfl, _, hmem, ⟨⟩⟩
    obtain ⟨more, a, ha⟩ := Expr.exists_program_of_viable (hmiss.viable (.inr ⟨rfl, hmem⟩))
    exact hnone more a ha
  · intro hnot more a ha
    rw [Cursor.run_ofTokens_eq_ok_iff] at ha
    have hblocks : Blocks expected (next :: tail) := by
      constructor
      · rintro text ⟨⟩
        -- an integer out of range is blamed rightly: no program has one
        obtain ⟨T, htokens, hT⟩ := Expr.exists_run_program_iff.mp ha
        exact hT.int64?_ne_none (by simp [htokens])
      · rintro hmem ⟨⟩
        exact hnot ⟨rfl, expected, hmem, rfl⟩
    have hmiss' : Expr.ProgramMisses read expected (next :: more) := hmiss.congr_rest hblocks rfl
    obtain ⟨rest, ha⟩ := ha
    rw [List.append_assoc, List.singleton_append, hmiss'.run] at ha
    cases ha

/-- The tokens of `(f (x) in`. -/
def unclosedCall : List Token :=
  [.lparen, .ident "f", .lparen, .ident "x", .rparen, .kwIn]

/-- No program starts with `(f (x) in`, whatever follows. -/
theorem program_error_blames_iff_in :
    (∃ e c, Cursor.run Expr.program (.ofTokens unclosedCall) = (.error e, c) ∧ c.position = 5 ∧
        e.found? = some "'in'") ∧
      ∀ more a, (Cursor.run Expr.program (.ofTokens (unclosedCall ++ more))).1 ≠ .ok a := by
  have hrun : Cursor.run Expr.program (.ofTokens unclosedCall) =
      (.error (.unexpectedToken "')'" .kwIn), ⟨unclosedCall, 5⟩) := by decide +kernel
  have hnext : unclosedCall[(⟨unclosedCall, 5⟩ : Cursor).position]? = some .kwIn := rfl
  have hblame := (program_error_blames_iff hrun hnext).mpr (by simp)
  exact ⟨⟨_, _, hrun, rfl, rfl⟩, hblame⟩

/-- In `f (x` the parenthesis is blamed, although `f (x)` is a program. -/
theorem program_error_not_blames :
    Cursor.run Expr.program (.ofTokens unclosedArgument) =
        (.error (.unexpectedToken "end of input" .lparen), ⟨unclosedArgument, 1⟩) ∧
      (Cursor.run Expr.program (.ofTokens (unclosedArgument.take 2 ++ [.ident "x", .rparen]))).1 =
        .ok (.app (.var "f") (.var "x")) ∧
      ∀ text, .integer text ∉ unclosedArgument := by
  exact ⟨by decide +kernel, by decide +kernel, by simp [unclosedArgument]⟩

end LetPoly
