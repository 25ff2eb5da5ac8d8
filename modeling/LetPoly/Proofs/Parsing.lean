import LetPoly.Expr.Parser.Progress
import LetPoly.Parser.Cursor
import LetPoly.Proofs.Grammar

/-! # The parser follows the grammar

For every rule of the grammar there is one equivalence that says on which
tokens the parser of the rule succeeds, and with what.  Read from left to
right they build a tree of the tokens that were taken
(`Expr.covers_expression`), and read from right to left they run the parser
along a tree (`Tree.Denotes.parsed`).  Together: the parser accepts exactly the
tokens of the trees that denote an expression (`Expr.exists_run_program_iff`).
-/

namespace LetPoly

/-! ## Success of a parser -/

namespace Parser

variable {α β : Type} {tokens rest : List Token}

theorem run_bind_eq_ok_iff {p : Parser α} {f : α → Parser β} {b : β} :
    (p >>= f).run tokens = .ok b rest ↔
      ∃ a mid, p.run tokens = .ok a mid ∧ (f a).run mid = .ok b rest := by
  rw [run_bind]
  cases p.run tokens with
  | ok a mid =>
      constructor
      · exact fun h => ⟨a, mid, rfl, h⟩
      · rintro ⟨_, _, ⟨⟩, h⟩
        exact h
  | error e mid =>
      constructor
      · rintro ⟨⟩
      · rintro ⟨_, _, ⟨⟩, _⟩

theorem run_pure_eq_ok_iff {a b : α} :
    (pure a : Parser α).run tokens = .ok b rest ↔ b = a ∧ rest = tokens := by
  rw [run_pure, EStateM.Result.ok.injEq, eq_comm, @eq_comm _ tokens]

theorem run_map_eq_ok_iff {p : Parser α} {f : α → β} {b : β} :
    (f <$> p).run tokens = .ok b rest ↔ ∃ a, p.run tokens = .ok a rest ∧ b = f a := by
  simp only [map_eq_pure_bind, run_bind_eq_ok_iff, run_pure_eq_ok_iff]
  grind

/-- The second parser is asked only where the first one fails. -/
theorem run_orElse_eq_ok_iff {p q : Parser α} {a : α} :
    (p <|> q).run tokens = .ok a rest ↔
      p.run tokens = .ok a rest ∨
        (∀ b mid, p.run tokens ≠ .ok b mid) ∧ q.run tokens = .ok a rest := by
  rw [run_orElse]
  cases p.run tokens <;> simp

theorem run_label_eq_ok_iff {p : Parser α} {expected : String} {a : α} :
    (label expected p).run tokens = .ok a rest ↔ p.run tokens = .ok a rest := by
  rw [run_label]
  cases p.run tokens <;> simp

theorem run_token_eq_ok_iff {expected : String} {select : Token → Option α} {a : α} :
    (token expected select).run tokens = .ok a rest ↔
      ∃ next, tokens = next :: rest ∧ select next = some a := by
  cases tokens with
  | nil => simp [run, token]
  | cons next rest' =>
      cases hs : select next with
      | some b => grind [run, token]
      | none => grind [run, token]

theorem run_expect_eq_ok_iff {wanted found : Token} :
    (expect wanted).run tokens = .ok found rest ↔ tokens = wanted :: rest ∧ found = wanted := by
  rw [expect, run_token_eq_ok_iff]
  grind

theorem run_ident_eq_ok_iff {name : Name} :
    ident.run tokens = .ok name rest ↔ tokens = .ident name :: rest := by
  rw [ident, run_token_eq_ok_iff]
  grind

/-- An integer is accepted if it fits in 64 bits. -/
theorem run_integer_eq_ok_iff {value : Int64} :
    integer.run tokens = .ok value rest ↔
      ∃ text, tokens = .integer text :: rest ∧ Numeral.int64? text = some value := by
  rw [integer, run_bind_eq_ok_iff]
  simp only [integerText, run_token_eq_ok_iff]
  constructor
  · rintro ⟨text, mid, ⟨next, rfl, hnext⟩, h⟩
    have htext : next = .integer text := by grind
    split at h
    · next v hv =>
      obtain ⟨rfl, rfl⟩ := run_pure_eq_ok_iff.mp h
      exact ⟨text, by rw [htext], hv⟩
    · cases h
  · rintro ⟨text, rfl, h⟩
    refine ⟨text, rest, ⟨.integer text, rfl, rfl⟩, ?_⟩
    rw [h, run_pure]

end Parser

/-! ## Success of the rules -/

namespace Expr

open LetPoly.Parser (run_bind_eq_ok_iff run_pure_eq_ok_iff run_map_eq_ok_iff run_expect_eq_ok_iff
  run_ident_eq_ok_iff run_integer_eq_ok_iff run_orElse_eq_ok_iff run_label_eq_ok_iff)

variable {ts rest : List Token} {e : Expr}

/-- An abstraction is a backslash, a parameter, an arrow and a body. -/
theorem run_lambda_eq_ok_iff :
    lambda.run ts = .ok e rest ↔ ∃ param body inner,
      ts = .backslash :: .ident param :: .arrow :: inner ∧
        expression.run inner = .ok body rest ∧ e = .abs param body := by
  simp only [lambda, Rule.lambda, run_bind_eq_ok_iff, run_pure_eq_ok_iff, run_expect_eq_ok_iff,
    run_ident_eq_ok_iff]
  grind

/-- A `let` is its keyword, a name, an equals sign and two expressions around `in`. -/
theorem run_letBinding_eq_ok_iff :
    letBinding.run ts = .ok e rest ↔ ∃ name bound body inner inner',
      ts = .kwLet :: .ident name :: .equals :: inner ∧
        expression.run inner = .ok bound (.kwIn :: inner') ∧
        expression.run inner' = .ok body rest ∧ e = .letIn name bound body := by
  simp only [letBinding, Rule.letBinding, run_bind_eq_ok_iff, run_pure_eq_ok_iff,
    run_expect_eq_ok_iff, run_ident_eq_ok_iff]
  grind

/-- An expression in parentheses stands for itself. -/
theorem run_parenthesized_eq_ok_iff :
    (Rule.parenthesized expression).run ts = .ok e rest ↔ ∃ inner,
      ts = .lparen :: inner ∧ expression.run inner = .ok e (.rparen :: rest) := by
  simp only [Rule.parenthesized, seqRight_eq_bind, seqLeft_eq_bind, run_bind_eq_ok_iff,
    run_pure_eq_ok_iff, run_expect_eq_ok_iff]
  grind

/-- An atom is a variable, an integer in range, a truth value or an expression in
parentheses. -/
theorem run_atom_eq_ok_iff :
    atom.run ts = .ok e rest ↔
      (∃ name, ts = .ident name :: rest ∧ e = .var name) ∨
      (∃ text value, ts = .integer text :: rest ∧ Numeral.int64? text = some value ∧
        e = .int value) ∨
      (∃ value, ts = .truth value :: rest ∧ e = .bool value) ∨
      ∃ inner, ts = .lparen :: inner ∧ expression.run inner = .ok e (.rparen :: rest) := by
  simp only [atom, Rule.atom, run_label_eq_ok_iff, run_orElse_eq_ok_iff, run_map_eq_ok_iff,
    run_ident_eq_ok_iff, run_integer_eq_ok_iff, run_expect_eq_ok_iff,
    run_parenthesized_eq_ok_iff, ne_eq]
  -- the alternatives start with different tokens, so none of them hides another
  cases ts with
  | nil => simp
  | cons t ts =>
      cases t <;> simp [Token.truth]
      grind

/-- An application is an atom, applied to all atoms that follow. -/
theorem run_application_eq_ok_iff :
    application.run ts = .ok e rest ↔ ∃ head inner, atom.run ts = .ok head inner ∧
      e = head.applyAll (atom.items inner).1 ∧ rest = (atom.items inner).2 := by
  simp only [application, Rule.application, run_bind_eq_ok_iff, run_pure_eq_ok_iff,
    Parser.run_many, atom]
  grind

/-- The first token tells the rule, so an expression is what any of the three rules
accepts. -/
theorem run_expression_eq_ok_iff :
    expression.run ts = .ok e rest ↔
      lambda.run ts = .ok e rest ∨ letBinding.run ts = .ok e rest ∨
        application.run ts = .ok e rest := by
  constructor
  · intro h
    rw [expression_eq] at h
    rcases Rule.run_expression expression ts with hrule | hrule | hrule <;> rw [hrule] at h
    · exact .inl h
    · exact .inr (.inl h)
    · exact .inr (.inr h)
  · rw [expression_eq]
    rintro (h | h | h)
    · obtain ⟨param, body, inner, rfl, -, -⟩ := run_lambda_eq_ok_iff.mp h
      exact h
    · obtain ⟨name, bound, body, inner, inner', rfl, -, -, -⟩ := run_letBinding_eq_ok_iff.mp h
      exact h
    · obtain ⟨head, inner, hhead, -, -⟩ := run_application_eq_ok_iff.mp h
      rcases run_atom_eq_ok_iff.mp hhead with ⟨_, rfl, _⟩ | ⟨_, _, rfl, _⟩ | ⟨value, rfl, _⟩ |
        ⟨_, rfl, _⟩
      · exact h
      · exact h
      · cases value <;> exact h
      · exact h

/-! ## What the parser accepts has a tree -/

/-- Some tree of the tokens before `rest` denotes `e`. -/
def Covers (n : Nonterminal) (ts : List Token) (e : Expr) (rest : List Token) : Prop :=
  ∃ T : Tree n, T.tokens ++ rest = ts ∧ T.Denotes e

/-- An accepted atom has a tree, if nested expressions have one. -/
theorem covers_atom
    (hnested : ∀ inner e rest, inner.length < ts.length → expression.run inner = .ok e rest →
      Covers .expression inner e rest)
    (h : atom.run ts = .ok e rest) : Covers .atom ts e rest := by
  rcases run_atom_eq_ok_iff.mp h with ⟨name, rfl, rfl⟩ | ⟨text, value, rfl, hvalue, rfl⟩ |
    ⟨value, rfl, rfl⟩ | ⟨inner, rfl, hinner⟩
  · exact ⟨.ident name, rfl, .ident name⟩
  · exact ⟨.integer text, rfl, .integer (Numeral.int64?_eq_some_iff.mp hvalue)⟩
  · exact ⟨.truth value, rfl, .truth value⟩
  · obtain ⟨T, rfl, hT⟩ := hnested inner e _ (Nat.lt_succ_self _) hinner
    exact ⟨.parens T, by simp [Tree.tokens], .parens hT⟩

/-- Repeated atoms are arguments of the application before them. -/
theorem covers_application {func : Tree .application} {f : Expr} (hfunc : func.Denotes f)
    (hatom : ∀ ts' e rest, ts'.length ≤ ts.length → atom.run ts' = .ok e rest →
      Covers .atom ts' e rest) :
    Covers .application (func.tokens ++ ts) (f.applyAll (atom.items ts).1) (atom.items ts).2 := by
  fun_induction Parser.items atom ts generalizing func f with
  | case1 ts a mid hrun hlt as rest' hitems ih =>
      obtain ⟨arg, rfl, harg⟩ := hatom ts a mid (Nat.le_refl _) hrun
      have hmore := ih (.argument hfunc harg) fun ts' e rest hle => hatom ts' e rest (by omega)
      rw [hitems, Tree.tokens, List.append_assoc] at hmore
      exact hmore
  | case2 ts a mid hrun hlt => exact ⟨func, rfl, hfunc⟩
  | case3 ts e mid hrun => exact ⟨func, rfl, hfunc⟩

/-- An accepted expression has a tree, by induction on the number of tokens. -/
theorem covers_expression (h : expression.run ts = .ok e rest) : Covers .expression ts e rest := by
  induction hlength : ts.length using Nat.strongRecOn generalizing ts e rest with
  | ind n ih =>
  subst hlength
  have hnested : ∀ inner e rest, inner.length < ts.length → expression.run inner = .ok e rest →
      Covers .expression inner e rest :=
    fun inner e rest hlt hinner => ih inner.length hlt hinner rfl
  rcases run_expression_eq_ok_iff.mp h with hrule | hrule | hrule
  · obtain ⟨param, body, inner, rfl, hbody, rfl⟩ := run_lambda_eq_ok_iff.mp hrule
    obtain ⟨T, rfl, hT⟩ := hnested inner body rest (by simp only [List.length_cons]; omega) hbody
    exact ⟨.lambda param T, rfl, .lambda hT⟩
  · obtain ⟨name, bound, body, inner, inner', rfl, hbound, hbody, rfl⟩ :=
      run_letBinding_eq_ok_iff.mp hrule
    obtain ⟨T₁, rfl, hT₁⟩ :=
      hnested inner bound (.kwIn :: inner') (by simp only [List.length_cons]; omega) hbound
    obtain ⟨T₂, rfl, hT₂⟩ := hnested inner' body rest
      (by simp only [List.length_append, List.length_cons]; omega) hbody
    exact ⟨.letIn name T₁ T₂, by simp [Tree.tokens], .letIn hT₁ hT₂⟩
  · obtain ⟨f, inner, hhead, rfl, rfl⟩ := run_application_eq_ok_iff.mp hrule
    have hatom : ∀ ts' e rest, ts'.length ≤ ts.length → atom.run ts' = .ok e rest →
        Covers .atom ts' e rest := fun ts' e rest hle =>
      covers_atom fun inner e rest hlt => hnested inner e rest (Nat.lt_of_lt_of_le hlt hle)
    obtain ⟨T, rfl, hT⟩ := hatom ts f inner (Nat.le_refl _) hhead
    have happlication : Covers .application ((Tree.head T).tokens ++ inner) _ _ :=
      covers_application (.head hT) fun ts' e rest hle =>
        hatom ts' e rest (by rw [List.length_append]; omega)
    obtain ⟨app, happ, hdenotes⟩ := happlication
    exact ⟨.application app, happ, .application hdenotes⟩

/-! ## What has a tree is accepted -/

/-- What the parser of a nonterminal does on the tokens of a tree, whatever stands
behind them.  An application goes on with the atoms that follow. -/
def Parsed : Nonterminal → List Token → Expr → Prop
  | .expression, ts, e => ∀ rest, NoAtom rest → expression.run (ts ++ rest) = .ok e rest
  | .application, ts, e => ∀ rest,
      application.run (ts ++ rest) = .ok (e.applyAll (atom.items rest).1) (atom.items rest).2
  | .atom, ts, e => ∀ rest, atom.run (ts ++ rest) = .ok e rest

theorem items_of_noAtom (h : NoAtom rest) : atom.items rest = ([], rest) := by
  cases hrun : atom.run rest with
  | error e left => exact Parser.items_of_error hrun
  | ok e left =>
      obtain ⟨T, rfl, -⟩ := covers_atom (fun _ _ _ _ => covers_expression) hrun
      exact absurd h (T.not_noAtom_append (by decide) left)

end Expr

/-- The parser follows a tree, along its denotation. -/
theorem Tree.Denotes.parsed {n : Nonterminal} {T : Tree n} {e : Expr} (h : T.Denotes e) :
    Expr.Parsed n T.tokens e := by
  induction h with
  | @lambda param body e h ih =>
      intro rest hrest
      refine Expr.run_expression_eq_ok_iff.mpr (.inl (Expr.run_lambda_eq_ok_iff.mpr ?_))
      exact ⟨param, e, body.tokens ++ rest, rfl, ih rest hrest, rfl⟩
  | @letIn name bound body e₁ e₂ h₁ h₂ ih₁ ih₂ =>
      intro rest hrest
      refine Expr.run_expression_eq_ok_iff.mpr (.inr (.inl (Expr.run_letBinding_eq_ok_iff.mpr ?_)))
      refine ⟨name, e₁, e₂, bound.tokens ++ .kwIn :: (body.tokens ++ rest), body.tokens ++ rest,
        by simp [tokens], ?_, ih₂ rest hrest, rfl⟩
      exact ih₁ _ (noAtom_cons.mpr rfl)
  | @application app e h ih =>
      intro rest hrest
      have happ := ih rest
      -- no atom follows, so the application ends with its tree
      rw [Expr.items_of_noAtom hrest] at happ
      exact Expr.run_expression_eq_ok_iff.mpr (.inr (.inr happ))
  | @head atom e h ih =>
      intro rest
      exact Expr.run_application_eq_ok_iff.mpr ⟨e, rest, ih rest, rfl, rfl⟩
  | @argument func arg e₁ e₂ h₁ h₂ ih₁ ih₂ =>
      intro rest
      have hfunc := ih₁ (arg.tokens ++ rest)
      have hlt := Expr.Rule.consumes_atom Expr.reads_expression _ _ _ (ih₂ rest)
      -- the argument is the first of the atoms that the function goes on with
      rw [Parser.items_of_ok (ih₂ rest) hlt, ← List.append_assoc] at hfunc
      exact hfunc
  | ident name => exact fun rest => Expr.run_atom_eq_ok_iff.mpr (.inl ⟨name, rfl, rfl⟩)
  | @integer text value h =>
      intro rest
      have hvalue := Numeral.int64?_eq_some_iff.mpr h
      exact Expr.run_atom_eq_ok_iff.mpr (.inr (.inl ⟨text, value, rfl, hvalue, rfl⟩))
  | truth value =>
      exact fun rest => Expr.run_atom_eq_ok_iff.mpr (.inr (.inr (.inl ⟨value, rfl, rfl⟩)))
  | @parens inner e h ih =>
      intro rest
      refine Expr.run_atom_eq_ok_iff.mpr (.inr (.inr (.inr ?_)))
      exact ⟨inner.tokens ++ .rparen :: rest, by simp [tokens], ih _ (noAtom_cons.mpr rfl)⟩

/-! ## Whole token lists -/

/-- A program is an expression with nothing behind it. -/
theorem Expr.run_program_eq_ok_iff {ts rest : List Token} {e : Expr} :
    program.run ts = .ok e rest ↔ expression.run ts = .ok e [] ∧ rest = [] := by
  have hend : ∀ {ts rest : List Token} {u : Unit},
      Parser.endOfInput.run ts = .ok u rest ↔ ts = [] ∧ rest = [] := by
    intro ts rest u
    cases ts <;> simp [Parser.run, Parser.endOfInput, eq_comm]
  simp only [program, seqLeft_eq_bind, Parser.run_bind_eq_ok_iff, Parser.run_pure_eq_ok_iff, hend]
  grind

/-- A program is the list of tokens of a tree. -/
theorem Expr.exists_run_program_iff {ts : List Token} {e : Expr} :
    (∃ rest, program.run ts = .ok e rest) ↔ ∃ T : Tree .expression, T.tokens = ts ∧ T.Denotes e := by
  simp only [run_program_eq_ok_iff, exists_and_left, exists_eq, and_true]
  constructor
  · intro h
    obtain ⟨T, htokens, hT⟩ := covers_expression h
    exact ⟨T, by rw [← htokens, List.append_nil], hT⟩
  · rintro ⟨T, rfl, hT⟩
    have hrun := hT.parsed [] noAtom_nil
    rwa [List.append_nil] at hrun

theorem Cursor.run_ofTokens_eq_ok_iff {α : Type} {p : Parser α} {ts : List Token} {a : α} :
    (Cursor.run p (Cursor.ofTokens ts)).1 = .ok a ↔ ∃ rest, p.run ts = .ok a rest := by
  have hrest : (Cursor.ofTokens ts).rest = ts := rfl
  rw [Cursor.run, hrest]
  cases p.run ts <;> simp [eq_comm]

/-- The parser accepts a list of tokens, with an expression, exactly if the tokens
have a parse tree that denotes this expression; and no list of tokens has two
parse trees. -/
theorem program_accepts_iff (ts : List Token) :
    (∀ e, (Cursor.run Expr.program (Cursor.ofTokens ts)).1 = .ok e ↔
      ∃ T : Tree .expression, T.tokens = ts ∧ T.Denotes e) ∧
    ∀ T T' : Tree .expression, T.tokens = ts → T'.tokens = ts → T = T' := by
  constructor
  · intro e
    rw [Cursor.run_ofTokens_eq_ok_iff, Expr.exists_run_program_iff]
  · intro T T' h h'
    exact Tree.eq_of_tokens_eq (h.trans h'.symm)

/-- The tree of `f (\x -> x) -1`. -/
def curriedTree : Tree .expression :=
  .application (.argument (.argument (.head (.ident "f"))
    (.parens (.lambda "x" (.application (.head (.ident "x")))))) (.integer "-1"))

/-- Application takes the arguments one by one, and no other tree has these tokens. -/
theorem program_accepts_iff_curried :
    (Cursor.run Expr.program (Cursor.ofTokens curriedTree.tokens)).1 =
        .ok (.app (.app (.var "f") (.abs "x" (.var "x"))) (.int (-1))) ∧
      ∀ T : Tree .expression, T.tokens = curriedTree.tokens → T = curriedTree := by
  have hdigits : Numeral.Denotes "-1".toList (-1 : Int64).toInt :=
    .minus (.single (show 1 < 10 by decide))
  have hdenotes : curriedTree.Denotes (.app (.app (.var "f") (.abs "x" (.var "x"))) (.int (-1))) :=
    .application (.argument (.argument (.head (.ident "f"))
      (.parens (.lambda (.application (.head (.ident "x")))))) (.integer hdigits))
  exact ⟨((program_accepts_iff _).1 _).mpr ⟨curriedTree, rfl, hdenotes⟩,
    fun T h => (program_accepts_iff _).2 T curriedTree h rfl⟩

end LetPoly
