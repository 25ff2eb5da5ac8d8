import Mathlib.Control.Monad.Basic
import LetPoly.Expr.Parser.Progress
import LetPoly.Parser.Cursor
import LetPoly.Proofs.ParseFailure

/-! # The rules of the grammar end

The parsers of the rules are functions, and a repetition stops by definition where its item
takes no token, so they cannot tell whether the rules would end by themselves.  Here the
rules are written down as terms (`ParserForm`) in which nested expressions are only named,
and `Evaluates` says what such a term does, one step for each combinator.  Nothing in it
bounds the recursion or the number of items of a repetition.

A derivation is finite, so to have one is to end.  Every rule has one, with the outcome of
its parser and no other (`RuleName.evaluates_iff`): a nested expression starts behind a
token that the rule has read, and an item of a repetition takes a token.
-/

namespace LetPoly

/-- What comes out of a parser: a value or an error, and the tokens left. -/
abbrev Parser.Outcome (α : Type) : Type :=
  EStateM.Result ParseError (List Token) α

/-- Do not read, and succeed or fail as told. -/
def Parser.ofExcept {α : Type} : Except ParseError α → Parser α
  | .ok a => pure a
  | .error e => fail e

/-- Parsers as they are written down.  `nested` is the rule for expressions; it is looked up
when it is run. -/
inductive ParserForm : Type → Type 1 where
  | token {α : Type} (expected : String) (select : Token → Option α) : ParserForm α
  | check {α β : Type} (p : ParserForm α) (f : α → Except ParseError β) : ParserForm β
  | seq {α β : Type} (p : ParserForm α) (q : ParserForm β) : ParserForm (α × β)
  | orElse {α : Type} (p q : ParserForm α) : ParserForm α
  | label {α : Type} (expected : String) (p : ParserForm α) : ParserForm α
  | many {α : Type} (p : ParserForm α) : ParserForm (List α)
  | byHead {α : Type} (rule : Option Token → ParserForm α) : ParserForm α
  | nested : ParserForm Expr

namespace ParserForm

variable {α β : Type}

/-- The parser that is written down. -/
def parser : {α : Type} → ParserForm α → Parser α
  | _, token expected select => Parser.token expected select
  | _, check p f => p.parser >>= fun a => Parser.ofExcept (f a)
  | _, seq p q => p.parser.seq q.parser
  | _, orElse p q => p.parser <|> q.parser
  | _, label expected p => p.parser.label expected
  | _, many p => p.parser.many
  | _, byHead rule => fun tokens => (rule tokens.head?).parser.run tokens
  | _, nested => Expr.expression

/-! ## The grammar written down -/

/-- Change the value. -/
def map (f : α → β) (p : ParserForm α) : ParserForm β :=
  p.check fun a => .ok (f a)

/-- One after the other, for the value of the first. -/
def skip (p : ParserForm α) (q : ParserForm β) : ParserForm α :=
  (p.seq q).map Prod.fst

/-- One after the other, for the value of the second. -/
def skipLeft (p : ParserForm α) (q : ParserForm β) : ParserForm β :=
  (p.seq q).map Prod.snd

/-- A given token. -/
def expect (wanted : Token) : ParserForm Token :=
  token wanted.describe fun next => if next = wanted then some next else none

/-- An identifier. -/
def ident : ParserForm Name :=
  token "identifier" fun
    | .ident name => some name
    | _ => none

/-- An identifier between two given tokens. -/
def identBetween (before after : Token) : ParserForm Name :=
  ((expect before).skipLeft ident).skip (expect after)

/-- An integer, which must fit in 64 bits. -/
def integer : ParserForm Int64 :=
  check
    (token "integer" fun
      | .integer text => some text
      | _ => none)
    fun text => (Numeral.int64? text).elim (.error (.outOfRange text)) .ok

/-- An expression in parentheses. -/
def parenthesized : ParserForm Expr :=
  ((expect .lparen).skipLeft nested).skip (expect .rparen)

/-- A variable, a literal, or an expression in parentheses. -/
def atom : ParserForm Expr :=
  label "expression" <|
    (ident.map Expr.var).orElse <|
    (integer.map Expr.int).orElse <|
    ((expect .kwTrue).map fun _ => Expr.bool true).orElse <|
    ((expect .kwFalse).map fun _ => Expr.bool false).orElse
    parenthesized

/-- Atoms applied to each other from left to right. -/
def application : ParserForm Expr :=
  (atom.seq atom.many).map fun (head, args) => head.applyAll args

/-- An abstraction. -/
def lambda : ParserForm Expr :=
  ((identBetween .backslash .arrow).seq nested).map fun (param, body) => .abs param body

/-- A `let`. -/
def letBinding : ParserForm Expr :=
  (((identBetween .kwLet .equals).seq (nested.skip (expect .kwIn))).seq nested).map
    fun ((name, bound), body) => .letIn name bound body

/-- An expression; its first token tells which rule it follows. -/
def expression : ParserForm Expr :=
  byHead fun
    | some .backslash => lambda
    | some .kwLet => letBinding
    | _ => application

/-! ## What the forms denote -/

theorem parser_map (f : α → β) (p : ParserForm α) : (p.map f).parser = f <$> p.parser := by
  rw [map_eq_pure_bind]
  rfl

theorem parser_skip (p : ParserForm α) (q : ParserForm β) :
    (p.skip q).parser = p.parser <* q.parser := by
  simp only [skip, parser_map, parser, Parser.seq, map_eq_pure_bind, seqLeft_eq_bind, bind_assoc,
    pure_bind]

theorem parser_skipLeft (p : ParserForm α) (q : ParserForm β) :
    (p.skipLeft q).parser = p.parser *> q.parser := by
  simp only [skipLeft, parser_map, parser, Parser.seq, map_eq_pure_bind, seqRight_eq_bind,
    bind_assoc, pure_bind, bind_pure]

theorem parser_identBetween (before after : Token) :
    (identBetween before after).parser =
      Parser.expect before *> Parser.ident <* Parser.expect after := by
  rw [identBetween, parser_skip, parser_skipLeft]
  rfl

/-- The range check is the same, written down as a check of the text. -/
theorem parser_integer : integer.parser = Parser.integer := by
  refine bind_congr fun text => ?_
  change Parser.ofExcept ((Numeral.int64? text).elim (.error (.outOfRange text)) .ok) = _
  cases Numeral.int64? text <;> rfl

theorem parser_parenthesized : parenthesized.parser = Expr.Rule.parenthesized Expr.expression := by
  rw [parenthesized, parser_skip, parser_skipLeft]
  rfl

theorem parser_atom : atom.parser = Expr.atom := by
  simp only [atom, parser, parser_map, parser_integer, parser_parenthesized]
  rfl

theorem parser_application : application.parser = Expr.application := by
  simp only [application, parser_map, parser, Parser.seq, parser_atom, map_eq_pure_bind, bind_assoc,
    pure_bind]
  rfl

theorem parser_lambda : lambda.parser = Expr.lambda := by
  simp only [lambda, parser_map, parser, parser_identBetween, Parser.seq,
    map_eq_pure_bind, seqLeft_eq_bind, seqRight_eq_bind, bind_assoc, pure_bind]
  rfl

theorem parser_letBinding : letBinding.parser = Expr.letBinding := by
  simp only [letBinding, parser_map, parser, parser_identBetween, parser_skip, Parser.seq,
    map_eq_pure_bind, seqLeft_eq_bind, seqRight_eq_bind, bind_assoc, pure_bind]
  rfl

/-- The first token decides in the same way as in the parser. -/
theorem parser_expression : expression.parser = Expr.expression := by
  funext tokens
  simp only [expression, parser]
  split
  · next h =>
    obtain ⟨rest, rfl⟩ := List.head?_eq_some_iff.mp h
    rw [parser_lambda]
    exact Expr.run_expression_backslash.symm
  · next h =>
    obtain ⟨rest, rfl⟩ := List.head?_eq_some_iff.mp h
    rw [parser_letBinding]
    exact Expr.run_expression_kwLet.symm
  · next hlambda hlet =>
    rw [parser_application]
    refine (Expr.run_expression_of_head fun t ht => ⟨?_, ?_⟩).symm
    · rintro rfl
      exact hlambda ht
    · rintro rfl
      exact hlet ht

/-! ## Evaluation -/

/-- Running a form on tokens ends with an outcome. -/
inductive Evaluates : {α : Type} → ParserForm α → List Token → Parser.Outcome α → Prop where
  | token {α : Type} (expected : String) (select : Token → Option α) (ts : List Token) :
      Evaluates (token expected select) ts ((Parser.token expected select).run ts)
  | check {α β : Type} {p : ParserForm α} (f : α → Except ParseError β) {ts rest : List Token}
      {a : α} : Evaluates p ts (.ok a rest) →
      Evaluates (p.check f) ts ((Parser.ofExcept (f a)).run rest)
  | checkFails {α β : Type} {p : ParserForm α} (f : α → Except ParseError β)
      {ts rest : List Token} {e : ParseError} : Evaluates p ts (.error e rest) →
      Evaluates (p.check f) ts (.error e rest)
  | seq {α β : Type} {p : ParserForm α} {q : ParserForm β} {ts mid rest : List Token} {a : α}
      {b : β} : Evaluates p ts (.ok a mid) → Evaluates q mid (.ok b rest) →
      Evaluates (p.seq q) ts (.ok (a, b) rest)
  | seqFails {α β : Type} {p : ParserForm α} (q : ParserForm β) {ts rest : List Token}
      {e : ParseError} : Evaluates p ts (.error e rest) → Evaluates (p.seq q) ts (.error e rest)
  | seqFailsLater {α β : Type} {p : ParserForm α} {q : ParserForm β} {ts mid rest : List Token}
      {a : α} {e : ParseError} : Evaluates p ts (.ok a mid) → Evaluates q mid (.error e rest) →
      Evaluates (p.seq q) ts (.error e rest)
  | orElseFirst {α : Type} {p : ParserForm α} (q : ParserForm α) {ts rest : List Token} {a : α} :
      Evaluates p ts (.ok a rest) → Evaluates (p.orElse q) ts (.ok a rest)
  | orElseSecond {α : Type} {p q : ParserForm α} {ts rest : List Token} {e : ParseError}
      {outcome : Parser.Outcome α} : Evaluates p ts (.error e rest) → Evaluates q ts outcome →
      Evaluates (p.orElse q) ts outcome
  | label {α : Type} {p : ParserForm α} (expected : String) {ts rest : List Token} {a : α} :
      Evaluates p ts (.ok a rest) → Evaluates (p.label expected) ts (.ok a rest)
  | labelFails {α : Type} {p : ParserForm α} (expected : String) {ts rest : List Token}
      {e : ParseError} : Evaluates p ts (.error e rest) →
      Evaluates (p.label expected) ts
        (.error (if rest.length = ts.length then e.expecting expected else e) rest)
  | manyStops {α : Type} {p : ParserForm α} {ts rest : List Token} {e : ParseError} :
      Evaluates p ts (.error e rest) → Evaluates p.many ts (.ok [] ts)
  | manyGoesOn {α : Type} {p : ParserForm α} {ts mid rest : List Token} {a : α} {as : List α} :
      Evaluates p ts (.ok a mid) → Evaluates p.many mid (.ok as rest) →
      Evaluates p.many ts (.ok (a :: as) rest)
  | byHead {α : Type} {rule : Option Token → ParserForm α} {ts : List Token}
      {outcome : Parser.Outcome α} : Evaluates (rule ts.head?) ts outcome →
      Evaluates (byHead rule) ts outcome
  | nested {ts : List Token} {outcome : Parser.Outcome Expr} :
      Evaluates expression ts outcome → Evaluates nested ts outcome

/-! ## Evaluation is what the parser does -/

/-- Every parser that can be written down reads on. -/
theorem parser_reads : {α : Type} → (f : ParserForm α) → f.parser.Reads
  | _, token expected select => Parser.reads_token expected select
  | _, check p f => p.parser_reads.bind fun a => by
      cases f a with
      | ok b => exact Parser.reads_pure b
      | error e => exact Parser.reads_fail e
  | _, seq p q => p.parser_reads.bind fun _ => q.parser_reads.bind fun _ => Parser.reads_pure _
  | _, orElse p q => p.parser_reads.orElse q.parser_reads
  | _, label expected p => p.parser_reads.label expected
  | _, many p => p.parser_reads.many
  | _, byHead rule => fun tokens => (rule tokens.head?).parser_reads tokens
  | _, nested => Expr.reads_expression

/-- Where a repetition ends its item fails. -/
def Exhausted : {α : Type} → ParserForm α → Parser.Outcome α → Prop
  | _, many p, outcome =>
      ∀ as rest, outcome = .ok as rest → ∃ e left, p.parser.run rest = .error e left
  | _, _, _ => True

/-- A repetition goes on behind an item.  If the item took no token, the repetition would
have come to the same place again, where the item does not fail. -/
theorem run_many_of_exhausted {p : ParserForm α} {ts mid rest : List Token} {a : α} {as : List α}
    (hitem : p.parser.run ts = .ok a mid) (hmany : p.many.parser.run mid = .ok as rest)
    (hend : ∃ e left, p.parser.run rest = .error e left) :
    p.many.parser.run ts = .ok (a :: as) rest := by
  obtain ⟨e, left, hend⟩ := hend
  have hsuffix := p.parser_reads.of_ok hitem
  rw [parser, Parser.run_many] at hmany ⊢
  rcases Nat.lt_or_eq_of_le hsuffix.length_le with hlt | heq
  · rw [Parser.items_of_ok hitem hlt]
    cases hmany
    rfl
  · obtain rfl : mid = ts := hsuffix.eq_of_length heq
    have hrest : rest = mid := by
      rw [Parser.items, hitem] at hmany
      simp only [Nat.lt_irrefl, if_false] at hmany
      cases hmany
      rfl
    rw [hrest, hitem] at hend
    cases hend

/-- What a form evaluates to is what its parser does, and repetitions have gone on as
long as they can. -/
theorem Evaluates.sound {f : ParserForm α} {ts : List Token} {outcome : Parser.Outcome α}
    (h : f.Evaluates ts outcome) : f.parser.run ts = outcome ∧ f.Exhausted outcome := by
  induction h with
  | token expected select ts => exact ⟨rfl, trivial⟩
  | check f _ ih => exact ⟨by rw [parser, Parser.run_bind, ih.1], trivial⟩
  | checkFails f _ ih => exact ⟨by rw [parser, Parser.run_bind, ih.1], trivial⟩
  | seq _ _ ihp ihq =>
      refine ⟨?_, trivial⟩
      simp only [parser, Parser.seq, Parser.run_bind, ihp.1, ihq.1, Parser.run_pure]
  | seqFails q _ ih =>
      refine ⟨?_, trivial⟩
      simp only [parser, Parser.seq, Parser.run_bind, ih.1]
  | seqFailsLater _ _ ihp ihq =>
      refine ⟨?_, trivial⟩
      simp only [parser, Parser.seq, Parser.run_bind, ihp.1, ihq.1]
  | orElseFirst q _ ih => exact ⟨by rw [parser, Parser.run_orElse, ih.1], trivial⟩
  | orElseSecond _ _ ihp ihq => exact ⟨by rw [parser, Parser.run_orElse, ihp.1, ihq.1], trivial⟩
  | label expected _ ih => exact ⟨by rw [parser, Parser.run_label, ih.1], trivial⟩
  | labelFails expected _ ih => exact ⟨by rw [parser, Parser.run_label, ih.1], trivial⟩
  | manyStops _ ih =>
      refine ⟨by rw [parser, Parser.run_many, Parser.items_of_error ih.1], ?_⟩
      rintro as rest ⟨⟩
      exact ⟨_, _, ih.1⟩
  | manyGoesOn _ _ ihp ihmany =>
      have hend := ihmany.2 _ _ rfl
      refine ⟨run_many_of_exhausted ihp.1 ihmany.1 hend, ?_⟩
      rintro as rest ⟨⟩
      exact hend
  | byHead _ ih => exact ⟨ih.1, trivial⟩
  | nested _ ih => exact ⟨by rw [← ih.1, parser, parser_expression], trivial⟩

/-! ## Evaluation ends -/

/-- Running the form on the tokens ends, with the outcome of the parser. -/
def Ends (f : ParserForm α) (ts : List Token) : Prop :=
  f.Evaluates ts (f.parser.run ts)

/-- If running a form ends, it ends with what the parser does. -/
theorem Ends.evaluates {f : ParserForm α} {ts : List Token} {outcome : Parser.Outcome α}
    (h : f.Ends ts) (hrun : f.parser.run ts = outcome) : f.Evaluates ts outcome :=
  hrun ▸ h

/-- A form that ends has one outcome. -/
theorem Ends.evaluates_iff {f : ParserForm α} {ts : List Token} {outcome : Parser.Outcome α}
    (h : f.Ends ts) : f.Evaluates ts outcome ↔ f.parser.run ts = outcome :=
  ⟨fun he => he.sound.1, h.evaluates⟩

section Combinators

variable {p : ParserForm α} {q : ParserForm β} {ts : List Token}

theorem ends_token (expected : String) (select : Token → Option α) (ts : List Token) :
    (token expected select).Ends ts :=
  .token expected select ts

theorem ends_expect (wanted : Token) (ts : List Token) : (expect wanted).Ends ts :=
  ends_token ..

theorem Ends.check (hp : p.Ends ts) (f : α → Except ParseError β) : (p.check f).Ends ts := by
  rw [Ends, parser, Parser.run_bind]
  cases hrun : p.parser.run ts with
  | ok a rest => exact .check f (hp.evaluates hrun)
  | error e rest => exact .checkFails f (hp.evaluates hrun)

/-- The second part has to end where the first one leaves off. -/
theorem Ends.seq (hp : p.Ends ts) (hq : ∀ a rest, p.parser.run ts = .ok a rest → q.Ends rest) :
    (p.seq q).Ends ts := by
  rw [Ends, parser, Parser.seq, Parser.run_bind]
  cases hrun : p.parser.run ts with
  | error e rest => exact .seqFails q (hp.evaluates hrun)
  | ok a mid =>
      simp only [Parser.run_bind, Parser.run_pure]
      cases hrun' : q.parser.run mid with
      | ok b rest => exact .seq (hp.evaluates hrun) ((hq a mid hrun).evaluates hrun')
      | error e rest => exact .seqFailsLater (hp.evaluates hrun) ((hq a mid hrun).evaluates hrun')

/-- A sequence ends if its second part ends behind every success of the first. -/
theorem Ends.skip (hp : p.Ends ts) (hq : ∀ a rest, p.parser.run ts = .ok a rest → q.Ends rest) :
    (p.skip q).Ends ts :=
  (hp.seq hq).check _

theorem Ends.skipLeft (hp : p.Ends ts)
    (hq : ∀ a rest, p.parser.run ts = .ok a rest → q.Ends rest) : (p.skipLeft q).Ends ts :=
  (hp.seq hq).check _

theorem Ends.orElse {p q : ParserForm α} (hp : p.Ends ts) (hq : q.Ends ts) :
    (p.orElse q).Ends ts := by
  rw [Ends, parser, Parser.run_orElse]
  cases hrun : p.parser.run ts with
  | ok a rest => exact .orElseFirst q (hp.evaluates hrun)
  | error e rest => exact .orElseSecond (hp.evaluates hrun) hq

theorem Ends.label (hp : p.Ends ts) (expected : String) : (p.label expected).Ends ts := by
  rw [Ends, parser, Parser.run_label]
  cases hrun : p.parser.run ts with
  | ok a rest => exact .label expected (hp.evaluates hrun)
  | error e rest => exact .labelFails expected (hp.evaluates hrun)

/-- A decision by the first token ends if the rule that it picks does. -/
theorem Ends.byHead {rule : Option Token → ParserForm α} (h : (rule ts.head?).Ends ts) :
    (byHead rule).Ends ts :=
  Evaluates.byHead h

/-- A repetition ends if its item takes tokens and ends on what is left. -/
theorem Ends.many (hconsumes : p.parser.Consumes)
    (hp : ∀ rest, rest.length ≤ ts.length → p.Ends rest) : p.many.Ends ts := by
  induction hlength : ts.length using Nat.strongRecOn generalizing ts with
  | ind n ih =>
  subst hlength
  have hitem := hp ts (Nat.le_refl _)
  rw [Ends, parser, Parser.run_many]
  cases hrun : p.parser.run ts with
  | error e rest =>
      rw [Parser.items_of_error hrun]
      exact .manyStops (hitem.evaluates hrun)
  | ok a mid =>
      have hlt := hconsumes ts a mid hrun
      have hrest := ih mid.length hlt (fun rest hle => hp rest (by omega)) rfl
      rw [Parser.items_of_ok hrun hlt]
      exact .manyGoesOn (hitem.evaluates hrun) hrest

end Combinators

/-! ### The rules -/

theorem ends_identBetween (before after : Token) (ts : List Token) :
    (identBetween before after).Ends ts :=
  ((ends_expect ..).skipLeft fun _ _ _ => ends_token ..).skip fun _ _ _ => ends_expect ..

theorem consumes_identBetween (before after : Token) :
    (identBetween before after).parser.Consumes := by
  rw [parser_identBetween]
  exact ((Parser.consumes_expect before).seqRight Parser.reads_ident).seqLeft
    (Parser.reads_expect after)

theorem consumes_atom : atom.parser.Consumes := by
  rw [parser_atom]
  exact Expr.Rule.consumes_atom Expr.reads_expression

section Rules

-- every rule comes to a nested expression with fewer tokens left than it was given
variable {ts : List Token} (h : ∀ rest, rest.length < ts.length → nested.Ends rest)

include h

theorem ends_parenthesized : parenthesized.Ends ts := by
  refine Ends.skip ((ends_expect _ ts).skipLeft fun a rest hopen => ?_) fun _ _ _ => ends_expect ..
  exact h rest (Parser.consumes_expect _ ts a rest hopen)

theorem ends_atom : atom.Ends ts := by
  refine Ends.label ?_ _
  refine .orElse ((ends_token ..).check _) (.orElse (((ends_token ..).check _).check _) ?_)
  exact .orElse ((ends_expect ..).check _) (.orElse ((ends_expect ..).check _)
    (ends_parenthesized h))

theorem ends_application : application.Ends ts := by
  refine Ends.check ((ends_atom h).seq fun head rest hhead => ?_) _
  have hlt := consumes_atom ts head rest hhead
  exact Ends.many consumes_atom fun later hle => ends_atom fun inner hinner => h inner (by omega)

theorem ends_lambda : lambda.Ends ts := by
  refine Ends.check ((ends_identBetween _ _ ts).seq fun param rest hhead => ?_) _
  exact h rest (consumes_identBetween _ _ ts param rest hhead)

theorem ends_letBinding : letBinding.Ends ts := by
  refine Ends.check (Ends.seq ?_ fun bound rest hbound => h rest ?_) _
  · refine (ends_identBetween _ _ ts).seq fun name rest hhead => ?_
    exact (h rest (consumes_identBetween _ _ ts name rest hhead)).skip fun _ _ _ => ends_expect ..
  · -- the head has taken tokens, and the bound expression gives none back
    have hconsumes : ((identBetween .kwLet .equals).seq
        (nested.skip (expect .kwIn))).parser.Consumes :=
      (consumes_identBetween _ _).bind fun _ => (parser_reads _).bind fun _ => Parser.reads_pure _
    exact hconsumes ts bound rest hbound

/-- Running the rule for expressions ends, by induction on the number of tokens: behind
its first token, every nested expression is shorter. -/
theorem ends_expression : expression.Ends ts := by
  refine Ends.byHead ?_
  split
  · exact ends_lambda h
  · exact ends_letBinding h
  · exact ends_application h

end Rules

/-- Nested expressions end, since each is shorter than the one around it. -/
theorem ends_nested (ts : List Token) : nested.Ends ts := by
  induction hlength : ts.length using Nat.strongRecOn generalizing ts with
  | ind n ih =>
  subst hlength
  have hrule := ends_expression fun rest hlt => ih rest.length hlt rest rfl
  rw [Ends, parser_expression] at hrule
  exact .nested hrule

end ParserForm

/-! ## Positions -/

namespace Cursor

variable {α : Type} {p : Parser α} {c c' : Cursor} {rest mid : List Token}

theorem length_rest (c : Cursor) : c.rest.length = c.tokens.length - c.position :=
  List.length_drop

/-- A cursor moved to a suffix of what is ahead has that suffix ahead. -/
theorem rest_leaving (h : rest <:+ c.rest) : (c.leaving rest).rest = rest := by
  have hdrop : rest = c.rest.drop (c.rest.length - rest.length) := List.suffix_iff_eq_drop.mp h
  conv_rhs => rw [hdrop]
  rw [Cursor.rest, Cursor.rest, List.drop_drop]
  rfl

theorem leaving_rest (c : Cursor) : c.leaving c.rest = c := by
  rw [leaving, Nat.sub_self, Nat.add_zero]

theorem leaving_leaving (hmid : mid <:+ c.rest) (hrest : rest <:+ mid) :
    (c.leaving mid).leaving rest = c.leaving rest := by
  have hle := hmid.length_le
  have hle' := hrest.length_le
  rw [leaving, rest_leaving hmid, leaving, leaving]
  simp only [mk.injEq, true_and]
  omega

/-- In front of what is left there is the rest of the tokens. -/
theorem position_leaving (hc : c.position ≤ c.tokens.length) (h : rest <:+ c.rest) :
    (c.leaving rest).position = c.tokens.length - rest.length := by
  have hle := h.length_le
  rw [length_rest] at hle
  simp only [leaving, length_rest]
  omega

theorem run_eq_ok_iff {a : α} :
    c.run p = (.ok a, c') ↔ ∃ rest, p.run c.rest = .ok a rest ∧ c' = c.leaving rest := by
  rw [run]
  cases p.run c.rest <;> simp [eq_comm]

theorem run_eq_error_iff {e : ParseError} :
    c.run p = (.error e, c') ↔ ∃ rest, p.run c.rest = .error e rest ∧ c' = c.leaving rest := by
  rw [run]
  cases p.run c.rest <;> simp [eq_comm]

theorem run_snd (p : Parser α) (c : Cursor) : (c.run p).2 = c.leaving (p.left c.rest) := by
  rw [run, Parser.left]
  cases p.run c.rest <;> rfl

/-- A parser that reads goes neither back nor past the end. -/
theorem position_of_run (hp : p.Reads) (hc : c.position ≤ c.tokens.length)
    {outcome : Except ParseError α} (h : c.run p = (outcome, c')) :
    c.position ≤ c'.position ∧ c'.position ≤ c.tokens.length := by
  obtain rfl : c' = c.leaving (p.left c.rest) := by rw [← run_snd, h]
  have hle := (hp c.rest).length_le
  rw [length_rest] at hle
  rw [position_leaving hc (hp c.rest)]
  omega

/-- Where a parser that consumes succeeds, it goes on. -/
theorem position_lt_of_run (hp : p.Reads) (hconsumes : p.Consumes)
    (hc : c.position ≤ c.tokens.length) {a : α} (h : c.run p = (.ok a, c')) :
    c.position < c'.position := by
  obtain ⟨rest, hrun, rfl⟩ := run_eq_ok_iff.mp h
  have hlt := hconsumes c.rest a rest hrun
  rw [length_rest] at hlt
  rw [position_leaving hc (hp.of_ok hrun)]
  omega

/-- Items read one after the other on the way from one cursor to another. -/
inductive ReadsItems (p : Parser α) : Cursor → List α → Cursor → Prop where
  | nil (c : Cursor) : ReadsItems p c [] c
  | cons {c c₁ c₂ : Cursor} {a : α} {as : List α} : c.run p = (.ok a, c₁) →
      ReadsItems p c₁ as c₂ → ReadsItems p c (a :: as) c₂

/-- Repetition of a parser that takes tokens reads its items one after the other. -/
theorem readsItems_items (hp : p.Reads) (hconsumes : p.Consumes) (c : Cursor) :
    ReadsItems p c (p.items c.rest).1 (c.leaving (p.items c.rest).2) := by
  induction hlength : c.rest.length using Nat.strongRecOn generalizing c with
  | ind n ih =>
  subst hlength
  cases hrun : p.run c.rest with
  | error e rest =>
      rw [Parser.items_of_error hrun, leaving_rest]
      exact .nil c
  | ok a mid =>
      have hlt := hconsumes c.rest a mid hrun
      have hmid := hp.of_ok hrun
      have hlater := ih mid.length hlt (c.leaving mid) (by rw [rest_leaving hmid])
      rw [rest_leaving hmid, leaving_leaving hmid (Parser.items_suffix hp mid)] at hlater
      rw [Parser.items_of_ok hrun hlt]
      exact .cons (run_eq_ok_iff.mpr ⟨mid, hrun, rfl⟩) hlater

/-- A repetition ends at the first place where its item fails. -/
theorem exists_run_many (hp : p.Reads) (hconsumes : p.Consumes) (c : Cursor) :
    ∃ as c', c.run p.many = (.ok as, c') ∧ ReadsItems p c as c' ∧
      ∃ e left, c'.run p = (.error e, left) := by
  obtain ⟨e, left, hend⟩ := Parser.exists_run_items_eq_error hconsumes c.rest
  refine ⟨_, _, rfl, readsItems_items hp hconsumes c, e, _, run_eq_error_iff.mpr ⟨left, ?_, rfl⟩⟩
  rwa [rest_leaving (Parser.items_suffix hp c.rest)]

end Cursor

/-! ## The rules make progress -/

/-- The rules of the grammar. -/
inductive RuleName where
  | atom
  | application
  | lambda
  | letBinding
  | expression

namespace RuleName

/-- The rule as it is written down. -/
def form : RuleName → ParserForm Expr
  | atom => .atom
  | application => .application
  | lambda => .lambda
  | letBinding => .letBinding
  | expression => .expression

/-- The parser of the rule. -/
def parser : RuleName → Parser Expr
  | atom => Expr.atom
  | application => Expr.application
  | lambda => Expr.lambda
  | letBinding => Expr.letBinding
  | expression => Expr.expression

/-- The parser of a rule is the one that is written down for it. -/
theorem parser_form (rule : RuleName) : rule.form.parser = rule.parser := by
  cases rule with
  | atom => exact ParserForm.parser_atom
  | application => exact ParserForm.parser_application
  | lambda => exact ParserForm.parser_lambda
  | letBinding => exact ParserForm.parser_letBinding
  | expression => exact ParserForm.parser_expression

/-- Running a rule ends on all tokens. -/
theorem ends_form (rule : RuleName) (ts : List Token) : rule.form.Ends ts := by
  have hnested : ∀ rest, rest.length < ts.length → ParserForm.nested.Ends rest :=
    fun rest _ => ParserForm.ends_nested rest
  cases rule with
  | atom => exact ParserForm.ends_atom hnested
  | application => exact ParserForm.ends_application hnested
  | lambda => exact ParserForm.ends_lambda hnested
  | letBinding => exact ParserForm.ends_letBinding hnested
  | expression => exact ParserForm.ends_expression hnested

theorem parser_reads (rule : RuleName) : rule.parser.Reads :=
  rule.parser_form ▸ rule.form.parser_reads

/-- Every rule takes a token if it succeeds. -/
theorem parser_consumes (rule : RuleName) : rule.parser.Consumes := by
  have hreads := Expr.reads_expression
  cases rule with
  | atom => exact Expr.Rule.consumes_atom hreads
  | application => exact Expr.Rule.consumes_application hreads
  | lambda => exact Expr.Rule.consumes_lambda hreads
  | letBinding => exact Expr.Rule.consumes_letBinding hreads
  | expression => exact Expr.consumes_expression

/-- Running a rule as it is written down ends with what the parser does, and with
nothing else. -/
theorem evaluates_iff (rule : RuleName) {ts : List Token} {outcome : Parser.Outcome Expr} :
    rule.form.Evaluates ts outcome ↔ rule.parser.run ts = outcome := by
  rw [(rule.ends_form ts).evaluates_iff, parser_form]

end RuleName

theorem ParserForm.many_atom_evaluates_iff {ts : List Token}
    {outcome : Parser.Outcome (List Expr)} :
    ParserForm.atom.many.Evaluates ts outcome ↔ Expr.atom.many.run ts = outcome := by
  have hends : ParserForm.atom.many.Ends ts :=
    .many consumes_atom fun rest _ => RuleName.ends_form .atom rest
  rw [hends.evaluates_iff, parser, parser_atom]

/-- From every position in the tokens every rule ends, with one outcome, that of its parser.
The parser goes on if it succeeds and does not go back if it fails, and it never passes the
end.  Repeated atoms end too, do not fail, and leave off at the first place where an atom was
tried in vain. -/
theorem rules_progress (c : Cursor) (hc : c.position ≤ c.tokens.length) :
    (∀ rule : RuleName,
      (∀ outcome, rule.form.Evaluates c.rest outcome ↔ rule.parser.run c.rest = outcome) ∧
      (∀ e c', c.run rule.parser = (.ok e, c') →
        c.position < c'.position ∧ c'.position ≤ c.tokens.length) ∧
      ∀ err c', c.run rule.parser = (.error err, c') →
        c.position ≤ c'.position ∧ c'.position ≤ c.tokens.length) ∧
    (∀ outcome, ParserForm.atom.many.Evaluates c.rest outcome ↔
      Expr.atom.many.run c.rest = outcome) ∧
    ∃ args c', c.run Expr.atom.many = (.ok args, c') ∧ Cursor.ReadsItems Expr.atom c args c' ∧
      ∃ err left, c'.run Expr.atom = (.error err, left) := by
  refine ⟨fun rule => ?_, fun _ => ParserForm.many_atom_evaluates_iff, ?_⟩
  · have hreads := rule.parser_reads
    have hconsumes := rule.parser_consumes
    exact ⟨fun _ => rule.evaluates_iff,
      fun _ _ h => ⟨Cursor.position_lt_of_run hreads hconsumes hc h,
        (Cursor.position_of_run hreads hc h).2⟩,
      fun _ _ h => Cursor.position_of_run hreads hc h⟩
  · exact Cursor.exists_run_many (RuleName.parser_reads .atom) (RuleName.parser_consumes .atom) c

/-- In `f (x` the atom behind `f` fails at the end of the tokens.  Repeated atoms stop at the
parenthesis where it was tried. -/
theorem rules_progress_unclosedArgument :
    (∃ err c, Cursor.run Expr.atom ⟨unclosedArgument, 1⟩ = (.error err, c) ∧ c.position = 3 ∧
      1 ≤ c.position ∧ c.position ≤ unclosedArgument.length) ∧
    ∃ args c, Cursor.run Expr.atom.many ⟨unclosedArgument, 0⟩ = (.ok args, c) ∧ c.position = 1 ∧
      ∃ err left, c.run Expr.atom = (.error err, left) := by
  have hatom : Cursor.run Expr.atom ⟨unclosedArgument, 1⟩ =
      (.error (.unexpectedEnd "')'"), ⟨unclosedArgument, 3⟩) := by decide +kernel
  have hmany : Cursor.run Expr.atom.many ⟨unclosedArgument, 0⟩ =
      (.ok [.var "f"], ⟨unclosedArgument, 1⟩) := by decide +kernel
  have hfails := ((rules_progress ⟨unclosedArgument, 1⟩ (by decide)).1 .atom).2.2 _ _ hatom
  obtain ⟨-, -, args, c, hrun, -, hstop⟩ := rules_progress ⟨unclosedArgument, 0⟩ (by decide)
  obtain ⟨-, rfl⟩ := Prod.mk.inj (hmany.symm.trans hrun)
  exact ⟨⟨_, _, hatom, rfl, hfails⟩, _, _, hmany, rfl, hstop⟩

end LetPoly
