import LetPoly.Parser

/-! # How far parsers read

A parser *reads* if it leaves a suffix of the tokens it was given, and
*consumes* if every success leaves fewer.  Both properties pass from parsers
to what the combinators build of them.  The last section says on which inputs
two parsers must agree for a combinator not to tell them apart; recursive
rules are compared with it.
-/

namespace LetPoly.Parser

variable {α β : Type}

/-- The tokens that a parser leaves. -/
def left (p : Parser α) (tokens : List Token) : List Token :=
  match p.run tokens with
  | .ok _ rest => rest
  | .error _ rest => rest

/-- Whatever comes out, a suffix of the tokens is left. -/
def Reads (p : Parser α) : Prop :=
  ∀ tokens, p.left tokens <:+ tokens

/-- Every success takes at least one token. -/
def Consumes (p : Parser α) : Prop :=
  ∀ tokens a rest, p.run tokens = .ok a rest → rest.length < tokens.length

theorem left_of_ok {p : Parser α} {tokens rest : List Token} {a : α}
    (h : p.run tokens = .ok a rest) : p.left tokens = rest := by
  rw [left, h]

theorem left_of_error {p : Parser α} {tokens rest : List Token} {e : ParseError}
    (h : p.run tokens = .error e rest) : p.left tokens = rest := by
  rw [left, h]

theorem Reads.of_ok {p : Parser α} (hp : p.Reads) {tokens rest : List Token} {a : α}
    (h : p.run tokens = .ok a rest) : rest <:+ tokens :=
  left_of_ok h ▸ hp tokens

theorem Reads.of_error {p : Parser α} (hp : p.Reads) {tokens rest : List Token} {e : ParseError}
    (h : p.run tokens = .error e rest) : rest <:+ tokens :=
  left_of_error h ▸ hp tokens

/-- To read is to leave a suffix after a success and after a failure. -/
theorem reads_iff {p : Parser α} :
    p.Reads ↔ (∀ tokens a rest, p.run tokens = .ok a rest → rest <:+ tokens) ∧
      ∀ tokens e rest, p.run tokens = .error e rest → rest <:+ tokens := by
  constructor
  · exact fun hp => ⟨fun _ _ _ h => hp.of_ok h, fun _ _ _ h => hp.of_error h⟩
  · rintro ⟨hok, herr⟩ tokens
    cases h : p.run tokens with
    | ok a rest => exact left_of_ok h ▸ hok tokens a rest h
    | error e rest => exact left_of_error h ▸ herr tokens e rest h

/-! ## Single tokens -/

theorem reads_token (expected : String) (select : Token → Option α) :
    (token expected select).Reads := by
  intro tokens
  cases tokens with
  | nil => exact List.suffix_refl []
  | cons next rest =>
      cases h : select next with
      | some a =>
          simp only [left, run, token, h, List.suffix_cons]
      | none =>
          simp only [left, run, token, h, List.suffix_refl]

theorem consumes_token (expected : String) (select : Token → Option α) :
    (token expected select).Consumes := by
  intro tokens a rest h
  cases tokens with
  | nil => cases h
  | cons next rest' =>
      rw [run, token] at h
      cases hs : select next with
      | some b =>
          rw [hs] at h
          cases h
          exact Nat.lt_succ_self _
      | none =>
          rw [hs] at h
          cases h

theorem reads_expect (wanted : Token) : (expect wanted).Reads :=
  reads_token _ _

theorem consumes_expect (wanted : Token) : (expect wanted).Consumes :=
  consumes_token _ _

/-! ## Combinators -/

theorem reads_pure (a : α) : (pure a : Parser α).Reads :=
  fun tokens => List.suffix_refl tokens

theorem reads_fail (e : ParseError) : (fail e : Parser α).Reads :=
  fun tokens => List.suffix_refl tokens

theorem Reads.bind {p : Parser α} {f : α → Parser β} (hp : p.Reads) (hf : ∀ a, (f a).Reads) :
    (p >>= f).Reads := by
  intro tokens
  cases h : p.run tokens with
  | ok a rest =>
      have hleft : (p >>= f).left tokens = (f a).left rest := by
        rw [left, run_bind, h]
        rfl
      exact hleft ▸ (hf a rest).trans (hp.of_ok h)
  | error e rest =>
      have hleft : (p >>= f).left tokens = rest := by
        rw [left, run_bind, h]
      exact hleft ▸ hp.of_error h

/-- A sequence consumes if its first part does. -/
theorem Consumes.bind {p : Parser α} {f : α → Parser β} (hp : p.Consumes)
    (hf : ∀ a, (f a).Reads) : (p >>= f).Consumes := by
  intro tokens b rest h
  rw [run_bind] at h
  cases hr : p.run tokens with
  | ok a rest' =>
      rw [hr] at h
      exact Nat.lt_of_le_of_lt ((hf a).of_ok h).length_le (hp tokens a rest' hr)
  | error e rest' =>
      rw [hr] at h
      cases h

theorem Reads.map {p : Parser α} (hp : p.Reads) (f : α → β) : (f <$> p).Reads := by
  rw [map_eq_pure_bind]
  exact hp.bind fun a => reads_pure (f a)

theorem Consumes.map {p : Parser α} (hp : p.Consumes) (f : α → β) : (f <$> p).Consumes := by
  rw [map_eq_pure_bind]
  exact hp.bind fun a => reads_pure (f a)

theorem Reads.seqLeft {p : Parser α} {q : Parser β} (hp : p.Reads) (hq : q.Reads) :
    (p <* q).Reads := by
  rw [seqLeft_eq_bind]
  exact hp.bind fun a => hq.bind fun _ => reads_pure a

theorem Reads.seqRight {p : Parser α} {q : Parser β} (hp : p.Reads) (hq : q.Reads) :
    (p *> q).Reads := by
  rw [seqRight_eq_bind]
  exact hp.bind fun _ => hq

theorem Consumes.seqLeft {p : Parser α} {q : Parser β} (hp : p.Consumes) (hq : q.Reads) :
    (p <* q).Consumes := by
  rw [seqLeft_eq_bind]
  exact hp.bind fun a => hq.bind fun _ => reads_pure a

theorem Consumes.seqRight {p : Parser α} {q : Parser β} (hp : p.Consumes) (hq : q.Reads) :
    (p *> q).Consumes := by
  rw [seqRight_eq_bind]
  exact hp.bind fun _ => hq

/-- The alternatives start at the same place, so a choice reads on if both do. -/
theorem Reads.orElse {p q : Parser α} (hp : p.Reads) (hq : q.Reads) : (p <|> q).Reads := by
  rw [reads_iff]
  constructor
  · intro tokens a rest h
    rw [run_orElse] at h
    cases hr : p.run tokens with
    | ok b rest' =>
        rw [hr] at h
        cases h
        exact hp.of_ok hr
    | error e rest' =>
        rw [hr] at h
        exact hq.of_ok h
  · intro tokens e rest h
    rw [run_orElse] at h
    cases hr : p.run tokens with
    | ok b rest' =>
        rw [hr] at h
        cases h
    | error e' rest' =>
        rw [hr] at h
        exact hq.of_error h

theorem Consumes.orElse {p q : Parser α} (hp : p.Consumes) (hq : q.Consumes) :
    (p <|> q).Consumes := by
  intro tokens a rest h
  rw [run_orElse] at h
  cases hr : p.run tokens with
  | ok b rest' =>
      rw [hr] at h
      cases h
      exact hp tokens a rest hr
  | error e rest' =>
      rw [hr] at h
      exact hq tokens a rest h

/-- A label changes the error, and nothing else. -/
theorem run_label (expected : String) (p : Parser α) (tokens : List Token) :
    (label expected p).run tokens =
      match p.run tokens with
      | .ok a rest => .ok a rest
      | .error e rest =>
          .error (if rest.length = tokens.length then e.expecting expected else e) rest :=
  rfl

theorem left_label (expected : String) (p : Parser α) (tokens : List Token) :
    (label expected p).left tokens = p.left tokens := by
  rw [left, left, run_label]
  cases p.run tokens <;> rfl

theorem Reads.label {p : Parser α} (hp : p.Reads) (expected : String) :
    (label expected p).Reads := by
  intro tokens
  rw [left_label]
  exact hp tokens

theorem Consumes.label {p : Parser α} (hp : p.Consumes) (expected : String) :
    (label expected p).Consumes := by
  intro tokens a rest h
  rw [run_label] at h
  cases hr : p.run tokens with
  | ok b rest' =>
      rw [hr] at h
      cases h
      exact hp tokens a rest hr
  | error e rest' =>
      rw [hr] at h
      cases h

/-- Repetition never fails. -/
theorem run_many (p : Parser α) (tokens : List Token) :
    (many p).run tokens = .ok (items p tokens).1 (items p tokens).2 :=
  rfl

/-- As long as the parser succeeds and takes a token, there is one more item. -/
theorem items_of_ok {p : Parser α} {tokens rest : List Token} {a : α}
    (h : p.run tokens = .ok a rest) (hlt : rest.length < tokens.length) :
    items p tokens = (a :: (items p rest).1, (items p rest).2) := by
  rw [items, h]
  simp [hlt]

/-- The first failure ends the items, and what it had read is given back. -/
theorem items_of_error {p : Parser α} {tokens rest : List Token} {e : ParseError}
    (h : p.run tokens = .error e rest) : items p tokens = ([], tokens) := by
  rw [items, h]

/-- What is behind the items is a suffix of the input. -/
theorem items_suffix {p : Parser α} (hp : p.Reads) (tokens : List Token) :
    (items p tokens).2 <:+ tokens := by
  fun_induction items p tokens with
  | case1 tokens a rest h hlt as rest' hitems ih =>
      rw [hitems] at ih
      exact ih.trans (hp.of_ok h)
  | case2 tokens a rest h hlt => exact List.suffix_refl tokens
  | case3 tokens e rest h => exact List.suffix_refl tokens

theorem Reads.many {p : Parser α} (hp : p.Reads) : (many p).Reads := by
  intro tokens
  rw [left_of_ok (run_many p tokens)]
  exact items_suffix hp tokens

theorem reads_ident : ident.Reads :=
  reads_token _ _

theorem consumes_ident : ident.Consumes :=
  consumes_token _ _

/-- A numeral out of range fails without reading. -/
theorem reads_rangeCheck (text : String) :
    (match Numeral.int64? text with
      | some value => (pure value : Parser Int64)
      | none => fail (.outOfRange text)).Reads := by
  cases Numeral.int64? text with
  | some value => exact reads_pure value
  | none => exact reads_fail _

theorem reads_integer : integer.Reads :=
  (reads_token _ _).bind reads_rangeCheck

theorem consumes_integer : integer.Consumes :=
  (consumes_token _ _).bind reads_rangeCheck

/-! ## Agreement -/

/-- In a sequence, the second parser only matters where the first one succeeds. -/
theorem bind_congr {p p' : Parser α} {f f' : α → Parser β} {tokens : List Token}
    (hp : p.run tokens = p'.run tokens)
    (hf : ∀ a rest, p.run tokens = .ok a rest → (f a).run rest = (f' a).run rest) :
    (p >>= f).run tokens = (p' >>= f').run tokens := by
  rw [run_bind, run_bind, ← hp]
  cases h : p.run tokens with
  | ok a rest => exact hf a rest h
  | error e rest => rfl

theorem orElse_congr {p p' q q' : Parser α} {tokens : List Token}
    (hp : p.run tokens = p'.run tokens) (hq : q.run tokens = q'.run tokens) :
    (p <|> q).run tokens = (p' <|> q').run tokens := by
  rw [run_orElse, run_orElse, hp, hq]

theorem label_congr {p p' : Parser α} {tokens : List Token} (expected : String)
    (hp : p.run tokens = p'.run tokens) :
    (label expected p).run tokens = (label expected p').run tokens := by
  rw [run_label, run_label, hp]

/-- Repetition only looks at what its item does on no more tokens than there
are. -/
theorem items_congr {p p' : Parser α} (tokens : List Token)
    (h : ∀ rest, rest.length ≤ tokens.length → p.run rest = p'.run rest) :
    items p tokens = items p' tokens := by
  fun_induction items p tokens with
  | case1 tokens a rest hr hlt as rest' hitems ih =>
      have hr' := h tokens (Nat.le_refl _) ▸ hr
      rw [items_of_ok hr' hlt, ← ih fun r hrle => h r (by omega), hitems]
  | case2 tokens a rest hr hlt =>
      have hr' := h tokens (Nat.le_refl _) ▸ hr
      rw [items, hr']
      simp [hlt]
  | case3 tokens e rest hr =>
      have hr' := h tokens (Nat.le_refl _) ▸ hr
      rw [items_of_error hr']

end LetPoly.Parser
