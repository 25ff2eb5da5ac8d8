import LetPoly.Proofs.Parsing

/-! # Where the parser fails

A failure is described by what was read before it and by what was missed there
(`Misses`), with one rule for each place of the grammar where something can be
missed.  The parser fails where these rules say (`Misses.run`) and nowhere else
(`Expr.failsAt_expression`), and what it had read when it failed can be
continued to a whole expression (`Misses.viable`).
-/

namespace LetPoly

/-- The error of a parser that misses what is expected. -/
def ParseError.missing (expected : String) : List Token → ParseError
  | [] => .unexpectedEnd expected
  | next :: _ => .unexpectedToken expected next

/-! ## Failure of a parser -/

namespace Parser

variable {α β : Type} {tokens rest : List Token} {e : ParseError}

/-- A sequence fails in its first part, or in its second part behind a success of the
first. -/
theorem run_bind_eq_error_iff {p : Parser α} {f : α → Parser β} :
    (p >>= f).run tokens = .error e rest ↔
      p.run tokens = .error e rest ∨
        ∃ a mid, p.run tokens = .ok a mid ∧ (f a).run mid = .error e rest := by
  rw [run_bind]
  cases p.run tokens <;> simp

/-- A choice fails if both alternatives do, with the error of the second. -/
theorem run_orElse_eq_error_iff {p q : Parser α} :
    (p <|> q).run tokens = .error e rest ↔
      (∀ a mid, p.run tokens ≠ .ok a mid) ∧ q.run tokens = .error e rest := by
  rw [run_orElse]
  cases p.run tokens <;> simp

/-- A label says what was expected if the parser has failed without reading. -/
theorem run_label_eq_error_iff {p : Parser α} {expected : String} :
    (label expected p).run tokens = .error e rest ↔
      ∃ e', p.run tokens = .error e' rest ∧
        e = if rest.length = tokens.length then e'.expecting expected else e' := by
  rw [run_label]
  cases p.run tokens <;> simp
  grind

/-- A token that is not asked for stays where it is. -/
theorem run_token_eq_error_iff {expected : String} {select : Token → Option α} :
    (token expected select).run tokens = .error e rest ↔
      (∀ next ∈ tokens.head?, select next = none) ∧ e = .missing expected tokens ∧
        rest = tokens := by
  cases tokens with
  | nil => simp [run, token, ParseError.missing, eq_comm]
  | cons next rest' => cases hs : select next <;> simp [run, token, ParseError.missing, hs, eq_comm]

theorem run_expect_eq_error_iff {wanted : Token} :
    (expect wanted).run tokens = .error e rest ↔
      tokens.head? ≠ some wanted ∧ e = .missing wanted.describe tokens ∧ rest = tokens := by
  rw [expect, run_token_eq_error_iff]
  cases tokens <;> simp

theorem run_ident_eq_error_iff :
    ident.run tokens = .error e rest ↔
      (∀ name, tokens.head? ≠ some (.ident name)) ∧ e = .missing "identifier" tokens ∧
        rest = tokens := by
  rw [ident, run_token_eq_error_iff]
  cases tokens with
  | nil => simp
  | cons next tail => cases next <;> simp

end Parser

/-! ## Failure of the rules -/

/-- No atom can be read here: none starts, or it is an integer out of range. -/
def Refused (rest : List Token) : Prop :=
  ∀ token ∈ rest.head?, token.startsAtom = false ∨
    ∃ text, token = .integer text ∧ Numeral.int64? text = none

namespace Expr

open LetPoly.Parser (run_bind_eq_error_iff run_bind_eq_ok_iff run_expect_eq_error_iff
  run_expect_eq_ok_iff run_ident_eq_error_iff run_ident_eq_ok_iff run_integer_eq_ok_iff
  run_map_eq_ok_iff run_label_eq_error_iff run_orElse_eq_error_iff)

variable {ts rest : List Token} {e : ParseError}

/-- An abstraction misses its parameter or its arrow, or fails in its body. -/
theorem run_lambda_eq_error_iff :
    lambda.run (.backslash :: ts) = .error e rest ↔
      (∀ name, ts.head? ≠ some (.ident name)) ∧ e = .missing "identifier" ts ∧ rest = ts ∨
      ∃ param inner, ts = .ident param :: inner ∧
        (inner.head? ≠ some .arrow ∧ e = .missing Token.arrow.describe inner ∧ rest = inner ∨
          ∃ body, inner = .arrow :: body ∧ expression.run body = .error e rest) := by
  simp only [lambda, Rule.lambda, run_bind_eq_error_iff, run_expect_eq_error_iff,
    run_expect_eq_ok_iff, run_ident_eq_error_iff, run_ident_eq_ok_iff, Parser.run_pure]
  grind

/-- A `let` misses its name, its equals sign or its `in`, or fails in one of its
expressions. -/
theorem run_letBinding_eq_error_iff :
    letBinding.run (.kwLet :: ts) = .error e rest ↔
      (∀ name, ts.head? ≠ some (.ident name)) ∧ e = .missing "identifier" ts ∧ rest = ts ∨
      ∃ name inner, ts = .ident name :: inner ∧
        (inner.head? ≠ some .equals ∧ e = .missing Token.equals.describe inner ∧ rest = inner ∨
          ∃ inner', inner = .equals :: inner' ∧
            (expression.run inner' = .error e rest ∨
              ∃ bound left, expression.run inner' = .ok bound left ∧
                (left.head? ≠ some .kwIn ∧ e = .missing Token.kwIn.describe left ∧ rest = left ∨
                  ∃ body, left = .kwIn :: body ∧ expression.run body = .error e rest))) := by
  simp only [letBinding, Rule.letBinding, run_bind_eq_error_iff, run_expect_eq_error_iff,
    run_expect_eq_ok_iff, run_ident_eq_error_iff, run_ident_eq_ok_iff, Parser.run_pure]
  grind

/-- Parentheses miss the opening or the closing one, or fail inside. -/
theorem run_parenthesized_eq_error_iff :
    (Rule.parenthesized expression).run ts = .error e rest ↔
      ts.head? ≠ some .lparen ∧ e = .missing Token.lparen.describe ts ∧ rest = ts ∨
      ∃ inner, ts = .lparen :: inner ∧
        (expression.run inner = .error e rest ∨
          rest.head? ≠ some .rparen ∧ e = .missing Token.rparen.describe rest ∧
            ∃ a, expression.run inner = .ok a rest) := by
  simp only [Rule.parenthesized, seqRight_eq_bind, seqLeft_eq_bind, run_bind_eq_error_iff,
    run_bind_eq_ok_iff, run_expect_eq_error_iff, run_expect_eq_ok_iff, Parser.run_pure]
  grind

/-- The alternatives of an atom hide each other's errors, also that of an integer out of
range. -/
theorem run_atom_of_refused (h : Refused ts) :
    atom.run ts = .error (.missing "expression" ts) ts := by
  simp only [atom, Rule.atom, run_label_eq_error_iff, run_orElse_eq_error_iff, run_map_eq_ok_iff,
    run_ident_eq_ok_iff, run_integer_eq_ok_iff, run_expect_eq_ok_iff,
    run_parenthesized_eq_error_iff, ne_eq]
  cases ts with
  | nil => simp [ParseError.missing, ParseError.expecting]
  | cons t ts =>
      have ht := h t rfl
      cases t <;> simp_all [Token.startsAtom, ParseError.missing, ParseError.expecting]

/-- Behind a parenthesis the label leaves errors as they are. -/
theorem run_atom_lparen_eq_error_iff :
    atom.run (.lparen :: ts) = .error e rest ↔
      expression.run ts = .error e rest ∨
        rest.head? ≠ some .rparen ∧ e = .missing Token.rparen.describe rest ∧
          ∃ a, expression.run ts = .ok a rest := by
  have hlt : expression.left ts = rest → rest.length ≠ ts.length + 1 := by
    rintro rfl
    have := (reads_expression ts).length_le
    omega
  simp only [atom, Rule.atom, run_label_eq_error_iff, run_orElse_eq_error_iff, run_map_eq_ok_iff,
    run_ident_eq_ok_iff, run_integer_eq_ok_iff, run_expect_eq_ok_iff,
    run_parenthesized_eq_error_iff, ne_eq]
  grind [Parser.left_of_ok, Parser.left_of_error]

/-- Where an atom cannot be read, none starts there or a parenthesis does. -/
theorem refused_or_lparen_of_run_atom (h : atom.run ts = .error e rest) :
    Refused ts ∨ ∃ inner, ts = .lparen :: inner := by
  have hnot : ∀ {a left}, ¬ atom.run ts = .ok a left := by simp [h]
  cases ts with
  | nil => exact .inl (by simp [Refused])
  | cons t ts =>
      cases t with
      | ident name => exact absurd (run_atom_eq_ok_iff.mpr (.inl ⟨name, rfl, rfl⟩)) hnot
      | integer text =>
          cases hvalue : Numeral.int64? text with
          | none => exact .inl (by simp [Refused, hvalue])
          | some value =>
              have hok : atom.run (.integer text :: ts) = .ok (.int value) ts :=
                run_atom_eq_ok_iff.mpr (.inr (.inl ⟨text, value, rfl, hvalue, rfl⟩))
              exact absurd hok hnot
      | kwTrue =>
          exact absurd (run_atom_eq_ok_iff.mpr (.inr (.inr (.inl ⟨true, rfl, rfl⟩)))) hnot
      | kwFalse =>
          exact absurd (run_atom_eq_ok_iff.mpr (.inr (.inr (.inl ⟨false, rfl, rfl⟩)))) hnot
      | lparen => exact .inr ⟨ts, rfl⟩
      | _ => exact .inl (by simp [Refused, Token.startsAtom])

/-- An application fails exactly if its head does: arguments may be missing. -/
theorem run_application_eq_error_iff :
    application.run ts = .error e rest ↔ atom.run ts = .error e rest := by
  rw [application, Rule.application, run_bind_eq_error_iff]
  simp only [run_bind_eq_error_iff, Parser.run_many, Parser.run_pure, atom]
  simp

theorem run_expression_backslash :
    expression.run (.backslash :: ts) = lambda.run (.backslash :: ts) := by
  rw [expression_eq, lambda]
  rfl

theorem run_expression_kwLet :
    expression.run (.kwLet :: ts) = letBinding.run (.kwLet :: ts) := by
  rw [expression_eq, letBinding]
  rfl

theorem run_expression_of_head (h : ∀ t ∈ ts.head?, t ≠ .backslash ∧ t ≠ .kwLet) :
    expression.run ts = application.run ts := by
  rw [expression_eq, application]
  cases ts with
  | nil => rfl
  | cons t ts =>
      have ht := h t rfl
      cases t with
      | backslash => exact absurd rfl ht.1
      | kwLet => exact absurd rfl ht.2
      | _ => rfl

/-- A program fails in its expression, or because something is left behind it. -/
theorem run_program_eq_error_iff :
    program.run ts = .error e rest ↔
      expression.run ts = .error e rest ∨
        rest ≠ [] ∧ e = .missing "end of input" rest ∧ ∃ a, expression.run ts = .ok a rest := by
  have hend : ∀ {mid : List Token}, Parser.endOfInput.run mid = .error e rest ↔
      mid ≠ [] ∧ e = .missing "end of input" mid ∧ rest = mid := by
    intro mid
    cases mid <;> simp [Parser.run, Parser.endOfInput, ParseError.missing, eq_comm]
  simp only [program, seqLeft_eq_bind, Parser.run_bind_eq_error_iff, Parser.run_pure, hend]
  grind

end Expr

/-! ## Places of failure -/

/-- `Misses n read expected rest`: on the tokens `read ++ rest` the parser of the nonterminal
comes to the end of `read` and misses there what is expected. -/
inductive Misses : Nonterminal → List Token → String → List Token → Prop where
  | param {rest : List Token} (h : ∀ name, rest.head? ≠ some (.ident name)) :
      Misses .expression [.backslash] "identifier" rest
  | arrow {param : Name} {rest : List Token} (h : rest.head? ≠ some .arrow) :
      Misses .expression [.backslash, .ident param] Token.arrow.describe rest
  | lambdaBody {param : Name} {read rest : List Token} {expected : String}
      (h : Misses .expression read expected rest) :
      Misses .expression (.backslash :: .ident param :: .arrow :: read) expected rest
  | name {rest : List Token} (h : ∀ name, rest.head? ≠ some (.ident name)) :
      Misses .expression [.kwLet] "identifier" rest
  | equals {name : Name} {rest : List Token} (h : rest.head? ≠ some .equals) :
      Misses .expression [.kwLet, .ident name] Token.equals.describe rest
  | bound {name : Name} {read rest : List Token} {expected : String}
      (h : Misses .expression read expected rest) :
      Misses .expression (.kwLet :: .ident name :: .equals :: read) expected rest
  | kwIn {name : Name} {bound rest : List Token} {e : Expr}
      (hbound : Expr.expression.run (bound ++ rest) = .ok e rest)
      (h : rest.head? ≠ some .kwIn) :
      Misses .expression (.kwLet :: .ident name :: .equals :: bound) Token.kwIn.describe rest
  | letBody {name : Name} {bound read rest : List Token} {e : Expr} {expected : String}
      (hbound : Expr.expression.run (bound ++ .kwIn :: (read ++ rest)) =
        .ok e (.kwIn :: (read ++ rest)))
      (h : Misses .expression read expected rest) :
      Misses .expression (.kwLet :: .ident name :: .equals :: (bound ++ .kwIn :: read)) expected
        rest
  | head {read rest : List Token} {expected : String}
      (hrule : ∀ t ∈ (read ++ rest).head?, t ≠ .backslash ∧ t ≠ .kwLet)
      (h : Misses .atom read expected rest) : Misses .expression read expected rest
  | start {rest : List Token} (h : Refused rest) : Misses .atom [] "expression" rest
  | inner {read rest : List Token} {expected : String} (h : Misses .expression read expected rest) :
      Misses .atom (.lparen :: read) expected rest
  | rparen {inner rest : List Token} {e : Expr}
      (hinner : Expr.expression.run (inner ++ rest) = .ok e rest)
      (h : rest.head? ≠ some .rparen) :
      Misses .atom (.lparen :: inner) Token.rparen.describe rest

namespace Expr

/-- The parser of a nonterminal. -/
def parserOf : Nonterminal → Parser Expr
  | .expression => expression
  | .application => application
  | .atom => atom

end Expr

section

open LetPoly.Expr (run_expression_backslash run_lambda_eq_error_iff run_expression_kwLet
  run_letBinding_eq_error_iff run_expression_of_head run_application_eq_error_iff
  run_atom_of_refused run_atom_lparen_eq_error_iff)

/-- The parser fails at the places that the rules give. -/
theorem Misses.run {n : Nonterminal} {read rest : List Token} {expected : String}
    (h : Misses n read expected rest) :
    (Expr.parserOf n).run (read ++ rest) = .error (.missing expected rest) rest := by
  induction h with
  | param h =>
      exact run_expression_backslash.trans (run_lambda_eq_error_iff.mpr (.inl ⟨h, rfl, rfl⟩))
  | arrow h =>
      refine run_expression_backslash.trans (run_lambda_eq_error_iff.mpr ?_)
      exact .inr ⟨_, _, rfl, .inl ⟨h, rfl, rfl⟩⟩
  | lambdaBody h ih =>
      refine run_expression_backslash.trans (run_lambda_eq_error_iff.mpr ?_)
      exact .inr ⟨_, _, rfl, .inr ⟨_, rfl, ih⟩⟩
  | name h =>
      exact run_expression_kwLet.trans (run_letBinding_eq_error_iff.mpr (.inl ⟨h, rfl, rfl⟩))
  | equals h =>
      refine run_expression_kwLet.trans (run_letBinding_eq_error_iff.mpr ?_)
      exact .inr ⟨_, _, rfl, .inl ⟨h, rfl, rfl⟩⟩
  | bound h ih =>
      refine run_expression_kwLet.trans (run_letBinding_eq_error_iff.mpr ?_)
      exact .inr ⟨_, _, rfl, .inr ⟨_, rfl, .inl ih⟩⟩
  | kwIn hbound h =>
      refine run_expression_kwLet.trans (run_letBinding_eq_error_iff.mpr ?_)
      exact .inr ⟨_, _, rfl, .inr ⟨_, rfl, .inr ⟨_, _, hbound, .inl ⟨h, rfl, rfl⟩⟩⟩⟩
  | @letBody name bound read rest e expected hbound h ih =>
      have htokens : (bound ++ .kwIn :: read) ++ rest = bound ++ .kwIn :: (read ++ rest) := by simp
      refine run_expression_kwLet.trans (run_letBinding_eq_error_iff.mpr ?_)
      have hbound' := (congrArg Expr.expression.run htokens).trans hbound
      exact .inr ⟨_, _, rfl, .inr ⟨_, rfl, .inr ⟨e, _, hbound', .inr ⟨_, rfl, ih⟩⟩⟩⟩
  | head hrule h ih =>
      exact (run_expression_of_head hrule).trans (run_application_eq_error_iff.mpr ih)
  | start h => exact run_atom_of_refused h
  | inner h ih => exact run_atom_lparen_eq_error_iff.mpr (.inl ih)
  | rparen hinner h => exact run_atom_lparen_eq_error_iff.mpr (.inr ⟨h, rfl, _, hinner⟩)

end

namespace Expr

variable {ts rest : List Token} {e : ParseError}

/-- Something is missed on the way to `rest`. -/
def FailsAt (n : Nonterminal) (ts : List Token) (e : ParseError) (rest : List Token) : Prop :=
  ∃ read expected, ts = read ++ rest ∧ e = .missing expected rest ∧ Misses n read expected rest

/-- An atom fails where something is missed, if nested expressions do. -/
theorem failsAt_atom
    (hnested : ∀ inner e rest, inner.length < ts.length → expression.run inner = .error e rest →
      FailsAt .expression inner e rest)
    (h : atom.run ts = .error e rest) : FailsAt .atom ts e rest := by
  rcases refused_or_lparen_of_run_atom h with hrefused | ⟨inner, rfl⟩
  · obtain ⟨rfl, rfl⟩ : ParseError.missing "expression" ts = e ∧ ts = rest := by
      simpa [run_atom_of_refused hrefused] using h
    exact ⟨[], "expression", rfl, rfl, .start hrefused⟩
  · rcases run_atom_lparen_eq_error_iff.mp h with hinner | ⟨hclose, rfl, a, hinner⟩
    · obtain ⟨read, expected, rfl, rfl, hmiss⟩ := hnested inner e rest (Nat.lt_succ_self _) hinner
      exact ⟨.lparen :: read, expected, rfl, rfl, .inner hmiss⟩
    · obtain ⟨read, rfl⟩ := reads_expression.of_ok hinner
      exact ⟨.lparen :: read, _, rfl, rfl, .rparen hinner hclose⟩

/-- An expression fails only where something is missed, by induction on the number of
tokens. -/
theorem failsAt_expression (h : expression.run ts = .error e rest) :
    FailsAt .expression ts e rest := by
  induction hlength : ts.length using Nat.strongRecOn generalizing ts e rest with
  | ind n ih =>
  subst hlength
  have hnested : ∀ inner e rest, inner.length < ts.length → expression.run inner = .error e rest →
      FailsAt .expression inner e rest :=
    fun inner e rest hlt hinner => ih inner.length hlt hinner rfl
  by_cases hrule : ∀ t ∈ ts.head?, t ≠ .backslash ∧ t ≠ .kwLet
  · rw [run_expression_of_head hrule, run_application_eq_error_iff] at h
    obtain ⟨read, expected, rfl, rfl, hmiss⟩ := failsAt_atom hnested h
    exact ⟨read, expected, rfl, rfl, .head hrule hmiss⟩
  · obtain ⟨inner, rfl | rfl⟩ : ∃ inner, ts = .backslash :: inner ∨ ts = .kwLet :: inner := by
      cases ts <;> grind
    · rw [run_expression_backslash, run_lambda_eq_error_iff] at h
      rcases h with ⟨hparam, rfl, rfl⟩ | ⟨param, inner, rfl, ⟨harrow, rfl, rfl⟩ |
        ⟨body, rfl, hbody⟩⟩
      · exact ⟨[.backslash], _, rfl, rfl, .param hparam⟩
      · exact ⟨[.backslash, .ident param], _, rfl, rfl, .arrow harrow⟩
      · obtain ⟨read, expected, rfl, rfl, hmiss⟩ :=
          hnested body e rest (by simp only [List.length_cons]; omega) hbody
        exact ⟨.backslash :: .ident param :: .arrow :: read, _, rfl, rfl, .lambdaBody hmiss⟩
    · rw [run_expression_kwLet, run_letBinding_eq_error_iff] at h
      rcases h with ⟨hname, rfl, rfl⟩ | ⟨name, inner, rfl, ⟨hequals, rfl, rfl⟩ | ⟨inner, rfl,
        hbound | ⟨a, left, hbound, ⟨hin, rfl, rfl⟩ | ⟨body, rfl, hbody⟩⟩⟩⟩
      · exact ⟨[.kwLet], _, rfl, rfl, .name hname⟩
      · exact ⟨[.kwLet, .ident name], _, rfl, rfl, .equals hequals⟩
      · obtain ⟨read, expected, rfl, rfl, hmiss⟩ :=
          hnested inner e rest (by simp only [List.length_cons]; omega) hbound
        exact ⟨.kwLet :: .ident name :: .equals :: read, _, rfl, rfl, .bound hmiss⟩
      · obtain ⟨read, rfl⟩ := reads_expression.of_ok hbound
        exact ⟨.kwLet :: .ident name :: .equals :: read, _, rfl, rfl, .kwIn hbound hin⟩
      · obtain ⟨bound, rfl⟩ := reads_expression.of_ok hbound
        obtain ⟨read, expected, rfl, rfl, hmiss⟩ := hnested body e rest
          (by simp only [List.length_cons, List.length_append]; omega) hbody
        exact ⟨.kwLet :: .ident name :: .equals :: (bound ++ .kwIn :: read), _, by simp, rfl,
          .letBody hbound hmiss⟩

end Expr

/-! ## What was read can be continued -/

/-- What an expression took are the tokens of a tree. -/
theorem Expr.exists_tree_of_run {ts rest : List Token} {e : Expr}
    (h : expression.run (ts ++ rest) = .ok e rest) :
    ∃ T : Tree .expression, T.tokens = ts ∧ T.Denotes e := by
  obtain ⟨T, htokens, hT⟩ := covers_expression h
  exact ⟨T, List.append_cancel_right htokens, hT⟩

/-- Tokens that can be continued: a tree that denotes an expression starts with them. -/
def Viable (n : Nonterminal) (read : List Token) : Prop :=
  ∃ (T : Tree n) (e : Expr), T.Denotes e ∧ read <+: T.tokens

namespace Viable

variable {n : Nonterminal} {read : List Token}

theorem mono {read' : List Token} (h : Viable n read) (hread : read' <+: read) :
    Viable n read' := by
  obtain ⟨T, e, hT, hpre⟩ := h
  exact ⟨T, e, hT, hread.trans hpre⟩

theorem head (h : Viable .atom read) : Viable .expression read := by
  obtain ⟨T, e, hT, hpre⟩ := h
  exact ⟨.application (.head T), e, .application (.head hT), hpre⟩

theorem atom_nil : Viable .atom [] :=
  ⟨.ident "x", .var "x", .ident "x", List.nil_prefix⟩

theorem nil : Viable .expression [] :=
  atom_nil.head

/-- The body of an abstraction can be continued to an abstraction. -/
theorem lambdaBody (param : Name) (h : Viable .expression read) :
    Viable .expression (.backslash :: .ident param :: .arrow :: read) := by
  obtain ⟨T, e, hT, hpre⟩ := h
  exact ⟨.lambda param T, .abs param e, .lambda hT, by simpa [Tree.tokens] using hpre⟩

/-- The body of a `let` can be continued to a `let`. -/
theorem letBody {T₁ : Tree .expression} {e₁ : Expr} (name : Name) (h₁ : T₁.Denotes e₁)
    (h : Viable .expression read) :
    Viable .expression (.kwLet :: .ident name :: .equals :: (T₁.tokens ++ .kwIn :: read)) := by
  obtain ⟨T, e, hT, hpre⟩ := h
  exact ⟨.letIn name T₁ T, .letIn name e₁ e, .letIn h₁ hT, by simpa [Tree.tokens] using hpre⟩

/-- The bound expression of a `let` can be continued to a `let`. -/
theorem bound (name : Name) (h : Viable .expression read) :
    Viable .expression (.kwLet :: .ident name :: .equals :: read) := by
  obtain ⟨T, e, hT, more, hmore⟩ := h
  refine (nil.letBody name hT).mono ⟨more ++ [.kwIn], ?_⟩
  simp [← hmore]

/-- What stands behind a parenthesis can be continued to an atom. -/
theorem inner (h : Viable .expression read) : Viable .atom (.lparen :: read) := by
  obtain ⟨T, e, hT, hpre⟩ := h
  refine ⟨.parens T, e, .parens hT, ?_⟩
  simpa [Tree.tokens] using hpre.trans (List.prefix_append _ _)

end Viable

/-- An argument may follow every expression: it goes to the application at its end. -/
theorem Tree.Denotes.viable_lparen {n : Nonterminal} {T : Tree n} {e : Expr} (h : T.Denotes e)
    (hn : n = .expression) : Viable .expression (T.tokens ++ [.lparen]) := by
  induction h with
  | @lambda param body e h ih => exact (ih rfl).lambdaBody param
  | @letIn name bound body e₁ e₂ h₁ h₂ ih₁ ih₂ =>
      simpa [tokens] using (ih₂ rfl).letBody name h₁
  | @application app e h ih =>
      refine ⟨.application (.argument app (.parens (.application (.head (.ident "x"))))), _,
        .application (.argument h (.parens (.application (.head (.ident "x"))))), ?_⟩
      simp [tokens]
  | _ => cases hn

/-- What is expected where an expression may end. -/
def expectedBehindExpression : List String :=
  ["end of input", Token.kwIn.describe, Token.rparen.describe]

/-- What can be put behind the tokens read: nothing, or an opening parenthesis if they end
with an expression. -/
def MayFollow (expected : String) (next : List Token) : Prop :=
  next = [] ∨ next = [.lparen] ∧ expected ∈ expectedBehindExpression

/-- Where no expression may end, nothing can be put behind the tokens. -/
theorem MayFollow.eq_nil {expected : String} {next : List Token} (h : MayFollow expected next)
    (hexpected : expected ∉ expectedBehindExpression) : next = [] := by
  rcases h with rfl | ⟨-, hmem⟩
  · rfl
  · exact absurd hmem hexpected

/-- An expression can be continued with what may follow it. -/
theorem MayFollow.viable {expected : String} {next bound rest : List Token} {e : Expr}
    (hnext : MayFollow expected next) (h : Expr.expression.run (bound ++ rest) = .ok e rest) :
    Viable .expression (bound ++ next) := by
  obtain ⟨T, rfl, hT⟩ := Expr.exists_tree_of_run h
  rcases hnext with rfl | ⟨rfl, -⟩
  · exact ⟨T, e, hT, by simp⟩
  · exact hT.viable_lparen rfl

/-- What was read when something was missed can be continued to a whole expression. -/
theorem Misses.viable {n : Nonterminal} {read rest next : List Token} {expected : String}
    (h : Misses n read expected rest) (hnext : MayFollow expected next) :
    Viable n (read ++ next) := by
  induction h with
  | param h =>
      obtain rfl := hnext.eq_nil (by decide)
      exact (Viable.nil.lambdaBody "x").mono ⟨_, rfl⟩
  | arrow h =>
      obtain rfl := hnext.eq_nil (by decide)
      exact (Viable.nil.lambdaBody _).mono ⟨_, rfl⟩
  | lambdaBody h ih => exact (ih hnext).lambdaBody _
  | name h =>
      obtain rfl := hnext.eq_nil (by decide)
      exact (Viable.nil.bound "x").mono ⟨_, rfl⟩
  | equals h =>
      obtain rfl := hnext.eq_nil (by decide)
      exact (Viable.nil.bound _).mono ⟨_, rfl⟩
  | bound h ih => exact (ih hnext).bound _
  | kwIn hbound h => exact (hnext.viable hbound).bound _
  | @letBody name bound read rest e expected hbound h ih =>
      obtain ⟨T, rfl, hT⟩ := Expr.exists_tree_of_run hbound
      simpa using (ih hnext).letBody name hT
  | head hrule h ih => exact (ih hnext).head
  | start h =>
      obtain rfl := hnext.eq_nil (by decide)
      exact Viable.atom_nil
  | inner h ih => exact (ih hnext).inner
  | rparen hinner h => exact (hnext.viable hinner).inner

/-! ## What was missed does not depend on what comes later -/

namespace Parser

/-- Repetition ends where its item fails. -/
theorem exists_run_items_eq_error {α : Type} {p : Parser α} (hp : p.Consumes)
    (tokens : List Token) : ∃ e rest, p.run (items p tokens).2 = .error e rest := by
  fun_induction items p tokens with
  | case1 tokens a rest h hlt as rest' hitems ih =>
      rw [hitems] at ih
      exact ih
  | case2 tokens a rest h hlt => exact absurd (hp tokens a rest h) hlt
  | case3 tokens e rest h => exact ⟨e, rest, h⟩

end Parser

namespace Expr

variable {ts rest rest' : List Token} {e : Expr}

/-- Behind an expression no atom can be read. -/
theorem exists_run_atom_eq_error (h : expression.run ts = .ok e rest) :
    ∃ err left, atom.run rest = .error err left := by
  induction hlength : ts.length using Nat.strongRecOn generalizing ts e rest with
  | ind n ih =>
  subst hlength
  rcases run_expression_eq_ok_iff.mp h with hrule | hrule | hrule
  · obtain ⟨param, body, inner, rfl, hbody, -⟩ := run_lambda_eq_ok_iff.mp hrule
    exact ih _ (by simp only [List.length_cons]; omega) hbody rfl
  · obtain ⟨name, bound, body, inner, inner', rfl, hbound, hbody, -⟩ :=
      run_letBinding_eq_ok_iff.mp hrule
    have hle := (reads_expression.of_ok hbound).length_le
    exact ih _ (by simp only [List.length_cons] at hle ⊢; omega) hbody rfl
  · obtain ⟨f, inner, hhead, -, rfl⟩ := run_application_eq_ok_iff.mp hrule
    exact Parser.exists_run_items_eq_error (Rule.consumes_atom reads_expression) inner

/-- An expression ends where no atom can be read, or before a parenthesis that was tried in
vain. -/
theorem refused_or_lparen_of_run_expression (h : expression.run ts = .ok e rest) :
    Refused rest ∨ ∃ inner, rest = .lparen :: inner := by
  obtain ⟨err, left, hatom⟩ := exists_run_atom_eq_error h
  exact refused_or_lparen_of_run_atom hatom

/-- An expression ends in the same way before other tokens that start no atom. -/
theorem run_expression_append (h : expression.run (ts ++ rest) = .ok e rest)
    (hrest' : NoAtom rest') : expression.run (ts ++ rest') = .ok e rest' := by
  obtain ⟨T, rfl, hT⟩ := exists_tree_of_run h
  exact hT.parsed rest' hrest'

end Expr

/-- The token that stands at `rest` is to blame for what is missed there.  It is no integer
out of range, and no parenthesis behind an expression. -/
structure Blocks (expected : String) (rest : List Token) : Prop where
  /-- An integer at `rest` is in range. -/
  inRange : ∀ text, rest.head? = some (.integer text) → Numeral.int64? text ≠ none
  /-- Where an expression may end, no parenthesis opens an argument. -/
  notParen : expected ∈ expectedBehindExpression → rest.head? ≠ some .lparen

/-- Where an expression may end and the next token is to blame, no atom starts. -/
theorem Blocks.noAtom {expected : String} {ts rest : List Token} {e : Expr}
    (h : Blocks expected rest) (hexpected : expected ∈ expectedBehindExpression)
    (hrun : Expr.expression.run ts = .ok e rest) : NoAtom rest := by
  rcases Expr.refused_or_lparen_of_run_expression hrun with hrefused | ⟨inner, rfl⟩
  · intro token htoken
    rcases hrefused token htoken with hstarts | ⟨text, rfl, htext⟩
    · exact hstarts
    · exact absurd htext (h.inRange text htoken)
  · exact absurd rfl (h.notParen hexpected)

/-- If the next token is to blame, those behind it do not matter. -/
theorem Misses.congr_rest {n : Nonterminal} {read rest rest' : List Token} {expected : String}
    (h : Misses n read expected rest) (hblocks : Blocks expected rest)
    (hhead : rest'.head? = rest.head?) : Misses n read expected rest' := by
  induction h with
  | param h => exact .param (hhead ▸ h)
  | arrow h => exact .arrow (hhead ▸ h)
  | lambdaBody h ih => exact .lambdaBody (ih hblocks hhead)
  | name h => exact .name (hhead ▸ h)
  | equals h => exact .equals (hhead ▸ h)
  | bound h ih => exact .bound (ih hblocks hhead)
  | kwIn hbound h =>
      -- the bound expression was read up to `rest`, so it must end before `rest'` as well
      have hno : NoAtom _ := hblocks.noAtom (by decide) hbound
      exact .kwIn (Expr.run_expression_append hbound (by rwa [NoAtom, hhead])) (hhead ▸ h)
  | letBody hbound h ih =>
      exact .letBody (Expr.run_expression_append hbound (noAtom_cons.mpr rfl)) (ih hblocks hhead)
  | head hrule h ih =>
      refine .head ?_ (ih hblocks hhead)
      rwa [List.head?_append, hhead, ← List.head?_append]
  | start h => exact .start (by rwa [Refused, hhead])
  | inner h ih => exact .inner (ih hblocks hhead)
  | rparen hinner h =>
      have hno : NoAtom _ := hblocks.noAtom (by decide) hinner
      exact .rparen (Expr.run_expression_append hinner (by rwa [NoAtom, hhead])) (hhead ▸ h)

/-- The tokens of `f (x`, which misses the closing parenthesis of an argument. -/
def unclosedArgument : List Token :=
  [.ident "f", .lparen, .ident "x"]

end LetPoly
