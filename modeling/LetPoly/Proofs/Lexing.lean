import LetPoly.Token.Lexer
import Mathlib.Data.List.TakeWhile

/-! # Lexing

What `Token.munch` takes is a token that cannot be made longer (`Munched`).
Texts are cut into tokens (`Lexes`) independently of each other wherever the
second of them does not go on with a word (`Lexes.append`).  Nothing here hangs
on which characters are blanks, as long as a space is one and no token starts
with one.

The names that can be written (`Name.IsIdentifier`) are described by classes of
characters; the tests of the lexer are these classes (`isWordStart_eq`,
`isWordRest_eq`).
-/

namespace LetPoly

/-- No character of the class comes next. -/
def Stops (p : Char → Bool) (rest : List Char) : Prop :=
  ∀ c ∈ rest.head?, p c = false

theorem stops_nil (p : Char → Bool) : Stops p [] := by
  simp [Stops]

theorem stops_cons {p : Char → Bool} {c : Char} {rest : List Char} :
    Stops p (c :: rest) ↔ p c = false := by
  simp [Stops]

/-- What is left behind the longest run of a class starts with no character of it. -/
theorem stops_dropWhile (p : Char → Bool) (cs : List Char) : Stops p (cs.dropWhile p) := by
  intro c hc
  have := List.head?_dropWhile_not p cs
  rw [Option.mem_def.mp hc] at this
  simpa using this

section

variable {p : Char → Bool} {cs rest : List Char}

theorem Stops.append (hcs : Stops p cs) (hrest : Stops p rest) : Stops p (cs ++ rest) := by
  cases cs with
  | nil => exact hrest
  | cons c cs => exact stops_cons.mpr (stops_cons.mp hcs)

theorem Stops.mono {q : Char → Bool} (h : Stops p rest) (hqp : ∀ c, q c = true → p c = true) :
    Stops q rest := by
  intro c hc
  have hp := h c hc
  cases hq : q c with
  | false => rfl
  | true => rw [hqp c hq] at hp; cases hp

theorem takeWhile_of_stops (h : Stops p rest) : rest.takeWhile p = [] := by
  cases rest with
  | nil => rfl
  | cons c rest => simp [stops_cons.mp h]

theorem dropWhile_of_stops (h : Stops p rest) : rest.dropWhile p = rest := by
  cases rest with
  | nil => rfl
  | cons c rest => simp [stops_cons.mp h]

/-- The longest run of a class ends where the class stops. -/
theorem takeWhile_append_of_stops (hcs : ∀ c ∈ cs, p c = true) (h : Stops p rest) :
    (cs ++ rest).takeWhile p = cs := by
  rw [List.takeWhile_append_of_pos hcs, takeWhile_of_stops h, List.append_nil]

/-- Dropping the longest run of a class leaves what stands behind it. -/
theorem dropWhile_append_of_stops (hcs : ∀ c ∈ cs, p c = true) (h : Stops p rest) :
    (cs ++ rest).dropWhile p = rest := by
  rw [List.dropWhile_append_of_pos hcs, dropWhile_of_stops h]

end

theorem isWordRest_of_isDecimalDigit {c : Char} (h : Numeral.isDecimalDigit c = true) :
    isWordRest c = true := by
  simp [isWordRest, h]

theorem isDecimalDigit_of_isWordStart {c : Char} (h : isWordStart c = true) :
    Numeral.isDecimalDigit c = false := by
  have hle : ∀ a b : Char, a ≤ b ↔ a.toNat ≤ b.toNat := fun _ _ => Iff.rfl
  simp only [isWordStart, Bool.or_eq_true, Bool.and_eq_true, decide_eq_true_eq, hle] at h
  simp only [Numeral.isDecimalDigit, Bool.and_eq_false_iff, decide_eq_false_iff_not, hle]
  rcases h with (⟨h, -⟩ | ⟨h, -⟩) | rfl
  · exact .inr (Nat.not_le_of_lt (Nat.lt_of_lt_of_le (by decide) h))
  · exact .inr (Nat.not_le_of_lt (Nat.lt_of_lt_of_le (by decide) h))
  · decide

/-! ## One token -/

/-- A text starts with a token that ends before `rest` and goes on as far as it can. -/
inductive Munched : List Char → Token → List Char → Prop where
  | equals (rest : List Char) : Munched ('=' :: rest) .equals rest
  | backslash (rest : List Char) : Munched ('\\' :: rest) .backslash rest
  | lparen (rest : List Char) : Munched ('(' :: rest) .lparen rest
  | rparen (rest : List Char) : Munched (')' :: rest) .rparen rest
  | arrow (rest : List Char) : Munched ('-' :: '>' :: rest) .arrow rest
  | digits {ds rest : List Char} (hne : ds ≠ [])
      (hds : ∀ d ∈ ds, Numeral.isDecimalDigit d = true)
      (hrest : Stops Numeral.isDecimalDigit rest) :
      Munched (ds ++ rest) (.integer (String.ofList ds)) rest
  | minus {ds rest : List Char} (hne : ds ≠ [])
      (hds : ∀ d ∈ ds, Numeral.isDecimalDigit d = true)
      (hrest : Stops Numeral.isDecimalDigit rest) :
      Munched ('-' :: (ds ++ rest)) (.integer (String.ofList ('-' :: ds))) rest
  | word {c : Char} {cs rest : List Char} (hc : isWordStart c = true)
      (hcs : ∀ d ∈ cs, isWordRest d = true) (hrest : Stops isWordRest rest) :
      Munched (c :: (cs ++ rest)) (.ofWord (String.ofList (c :: cs))) rest

/-- What the lexer munches is a token that goes on as far as it can. -/
theorem munched_of_munch {cs rest : List Char} {token : Token}
    (h : Token.munch cs = some (token, rest)) : Munched cs token rest := by
  rw [Token.munch.eq_def] at h
  split at h
  · cases h
  · cases h
    exact .equals rest
  · cases h
    exact .backslash rest
  · cases h
    exact .lparen rest
  · cases h
    exact .rparen rest
  · cases h
    exact .arrow rest
  · next cs _ =>
    simp only at h
    split at h
    · cases h
    · next hne =>
      cases h
      have hmunched := @Munched.minus (cs.takeWhile Numeral.isDecimalDigit)
        (cs.dropWhile Numeral.isDecimalDigit) (by simpa using hne) (fun d => List.mem_takeWhile_imp)
        (stops_dropWhile _ cs)
      rwa [List.takeWhile_append_dropWhile] at hmunched
  · next c cs _ _ _ _ _ _ =>
    split at h
    · next hc =>
      cases h
      have hmunched := @Munched.digits (c :: cs.takeWhile Numeral.isDecimalDigit)
        (cs.dropWhile Numeral.isDecimalDigit) (List.cons_ne_nil _ _)
        (List.forall_mem_cons.mpr ⟨hc, fun d => List.mem_takeWhile_imp⟩) (stops_dropWhile _ cs)
      rwa [List.cons_append, List.takeWhile_append_dropWhile] at hmunched
    · split at h
      · next hc =>
        cases h
        have hmunched := @Munched.word c (cs.takeWhile isWordRest) (cs.dropWhile isWordRest) hc
          (fun d => List.mem_takeWhile_imp) (stops_dropWhile _ cs)
        rwa [List.takeWhile_append_dropWhile] at hmunched
      · cases h

/-- At a character of a word, the lexer reads a number or a word, depending on the
character. -/
theorem munch_cons_of_isWordRest {c : Char} (hc : isWordRest c = true) (cs : List Char) :
    Token.munch (c :: cs) =
      if Numeral.isDecimalDigit c then
        some (.integer (String.ofList (c :: cs.takeWhile Numeral.isDecimalDigit)),
          cs.dropWhile Numeral.isDecimalDigit)
      else if isWordStart c then
        some (.ofWord (String.ofList (c :: cs.takeWhile isWordRest)), cs.dropWhile isWordRest)
      else none := by
  have hne : ∀ d, isWordRest d = false → c = d → False := by
    rintro d hd rfl
    rw [hd] at hc
    cases hc
  rw [Token.munch]
  · exact hne '=' rfl
  · exact hne '\\' rfl
  · exact hne '(' rfl
  · exact hne ')' rfl
  · exact fun _ h _ => hne '-' rfl h
  · exact hne '-' rfl

/-- A token that goes on as far as it can is the one that the lexer munches. -/
theorem Munched.munch_eq {cs rest : List Char} {token : Token} (h : Munched cs token rest) :
    Token.munch cs = some (token, rest) := by
  cases h with
  | equals | backslash | lparen | rparen | arrow => rfl
  | @digits ds _ hne hds hrest =>
      obtain ⟨d, ds, rfl⟩ := List.exists_cons_of_ne_nil hne
      obtain ⟨hd, hds⟩ := List.forall_mem_cons.mp hds
      rw [List.cons_append, munch_cons_of_isWordRest (isWordRest_of_isDecimalDigit hd), if_pos hd,
        takeWhile_append_of_stops hds hrest, dropWhile_append_of_stops hds hrest]
  | @minus ds _ hne hds hrest =>
      rw [Token.munch]
      · simp only [takeWhile_append_of_stops hds hrest, dropWhile_append_of_stops hds hrest]
        rw [if_neg (by simpa using hne)]
      · -- a digit comes next, so this is no arrow
        obtain ⟨d, ds, rfl⟩ := List.exists_cons_of_ne_nil hne
        intro cs hcs
        obtain ⟨rfl, -⟩ := List.cons.inj hcs
        exact absurd (hds '>' List.mem_cons_self) (by decide)
  | @word c cs _ hc hcs hrest =>
      have hword : isWordRest c = true := by simp [isWordRest, hc]
      rw [munch_cons_of_isWordRest hword, if_neg (by simp [isDecimalDigit_of_isWordStart hc]),
        if_pos hc, takeWhile_append_of_stops hcs hrest, dropWhile_append_of_stops hcs hrest]

/-- A token also ends before a text that does not go on with a word. -/
theorem Munched.append {cs rest rest' : List Char} {token : Token} (h : Munched cs token rest)
    (hrest : Stops isWordRest rest') : Munched (cs ++ rest') token (rest ++ rest') := by
  have hdigit : Stops Numeral.isDecimalDigit rest' :=
    hrest.mono fun c => isWordRest_of_isDecimalDigit
  cases h with
  | equals => exact .equals _
  | backslash => exact .backslash _
  | lparen => exact .lparen _
  | rparen => exact .rparen _
  | arrow => exact .arrow _
  | digits hne hds hstops =>
      rw [List.append_assoc]
      exact .digits hne hds (hstops.append hdigit)
  | minus hne hds hstops =>
      rw [List.cons_append, List.append_assoc]
      exact .minus hne hds (hstops.append hdigit)
  | word hc hcs hstops =>
      rw [List.cons_append, List.append_assoc]
      exact .word hc hcs (hstops.append hrest)

/-- A token does not start with a blank. -/
theorem Munched.dropWhile_blanks {cs rest : List Char} {token : Token} (h : Munched cs token rest)
    (B : Blanks) : cs.dropWhile B.test = cs := by
  refine dropWhile_of_stops fun c hc => ?_
  obtain ⟨cs', rfl⟩ := List.head?_eq_some_iff.mp hc
  cases hblank : B.test c with
  | false => rfl
  | true =>
      have hnone := B.munch_eq_none c cs' hblank
      rw [h.munch_eq] at hnone
      cases hnone

/-! ## A text -/

variable {B : Blanks}

/-- The tokens of a text: one after the other, with blanks before and behind them. -/
inductive Lexes (B : Blanks) : List Char → List Token → Prop where
  | blanks {bs : List Char} (hbs : ∀ b ∈ bs, B.test b = true) : Lexes B bs []
  | token {bs cs rest : List Char} {token : Token} {ts : List Token}
      (hbs : ∀ b ∈ bs, B.test b = true) (h : Munched cs token rest) (hrest : Lexes B rest ts) :
      Lexes B (bs ++ cs) (token :: ts)

/-- The lexemes that are found are those of the text. -/
theorem lexes_of_lexemesBy {cs : List Char} {ls : List Lexeme} (h : lexemesBy B cs = .ok ls) :
    Lexes B cs (ls.map Lexeme.token) := by
  fun_induction lexemesBy B cs generalizing ls with
  | case1 cs token rest hmunch ih =>
      cases hrest : lexemesBy B rest with
      | error left => rw [hrest] at h; cases h
      | ok ls' =>
          rw [hrest] at h
          cases h
          have hblanks : ∀ b ∈ cs.takeWhile B.test, B.test b = true :=
            fun b => List.mem_takeWhile_imp
          have hlexes := Lexes.token hblanks (munched_of_munch hmunch) (ih hrest)
          rwa [List.takeWhile_append_dropWhile] at hlexes
  | case2 cs hmunch hblank =>
      cases h
      have hnil : cs.dropWhile B.test = [] := by simpa using hblank
      exact .blanks (List.dropWhile_eq_nil_iff.mp hnil)
  | case3 cs hmunch hblank => cases h

/-- If a text has tokens, the lexer finds them. -/
theorem Lexes.exists_lexemesBy {cs : List Char} {ts : List Token} (h : Lexes B cs ts) :
    ∃ ls, lexemesBy B cs = .ok ls ∧ ls.map Lexeme.token = ts := by
  induction h with
  | @blanks bs hbs =>
      have hnil : bs.dropWhile B.test = [] := List.dropWhile_eq_nil_iff.mpr hbs
      refine ⟨[], ?_, rfl⟩
      rw [lexemesBy]
      split
      · next hmunch =>
        rw [hnil] at hmunch
        cases hmunch
      · rw [hnil]
        rfl
  | @token bs cs rest token ts hbs hmunched hrest ih =>
      obtain ⟨ls, hls, rfl⟩ := ih
      have hdrop : (bs ++ cs).dropWhile B.test = cs := by
        rw [List.dropWhile_append_of_pos hbs, hmunched.dropWhile_blanks B]
      have hmunch : Token.munch ((bs ++ cs).dropWhile B.test) = some (token, rest) := by
        rw [hdrop, hmunched.munch_eq]
      refine ⟨⟨(bs ++ cs).takeWhile B.test, token⟩ :: ls, ?_, rfl⟩
      rw [lexemesBy]
      split
      · next hmunch' =>
        rw [hmunch] at hmunch'
        cases hmunch'
        rw [hls]
        rfl
      · next hmunch' =>
        rw [hmunch] at hmunch'
        cases hmunch'

/-- The lexer finds exactly the tokens of the text. -/
theorem tokensBy_eq_ok_iff {source : String} {ts : List Token} :
    tokensBy B source = .ok ts ↔ Lexes B source.toList ts := by
  rw [tokensBy]
  constructor
  · intro h
    split at h
    · next ls hls =>
      cases h
      exact lexes_of_lexemesBy hls
    · cases h
  · intro h
    obtain ⟨ls, hls, rfl⟩ := h.exists_lexemesBy
    rw [hls]

namespace Lexes

theorem prepend_blanks {bs cs : List Char} {ts : List Token} (hbs : ∀ b ∈ bs, B.test b = true)
    (h : Lexes B cs ts) : Lexes B (bs ++ cs) ts := by
  cases h with
  | blanks hbs' => exact .blanks (List.forall_mem_append.mpr ⟨hbs, hbs'⟩)
  | token hbs' hmunched hrest =>
      rw [← List.append_assoc]
      exact .token (List.forall_mem_append.mpr ⟨hbs, hbs'⟩) hmunched hrest

/-- Two texts are cut independently of each other if the second does not go on with
a word. -/
theorem append {cs cs' : List Char} {ts ts' : List Token} (h : Lexes B cs ts)
    (hstops : Stops isWordRest cs') (h' : Lexes B cs' ts') : Lexes B (cs ++ cs') (ts ++ ts') := by
  induction h with
  | blanks hbs => exact prepend_blanks hbs h'
  | token hbs hmunched hrest ih =>
      rw [List.append_assoc]
      exact .token hbs (hmunched.append hstops) ih

theorem cons {cs rest : List Char} {token : Token} {ts : List Token} (h : Munched cs token rest)
    (hrest : Lexes B rest ts) : Lexes B cs (token :: ts) :=
  @Lexes.token B [] cs rest token ts (List.forall_mem_nil _) h hrest

theorem space {cs : List Char} {ts : List Token} (h : Lexes B cs ts) : Lexes B (' ' :: cs) ts :=
  prepend_blanks (List.forall_mem_singleton.mpr B.space) h

theorem nil : Lexes B [] [] :=
  .blanks (List.forall_mem_nil _)

end Lexes

/-! ## Words and numerals -/

/-- A class of characters, given by its ranges. -/
abbrev CharClass : Type := List (Char × Char)

/-- The characters of a class lie in one of its ranges. -/
def CharClass.has (ranges : CharClass) (c : Char) : Bool :=
  ranges.any fun range => range.1 ≤ c && c ≤ range.2

/-- The class `[a-zA-Z_]`. -/
def wordStart : CharClass :=
  [('a', 'z'), ('A', 'Z'), ('_', '_')]

/-- The class `[a-zA-Z0-9_']`. -/
def wordRest : CharClass :=
  [('a', 'z'), ('A', 'Z'), ('0', '9'), ('_', '_'), ('\x27', '\x27')]

/-- A single character is a range of its own. -/
theorem CharClass.mem_range_self {c d : Char} : d ≤ c ∧ c ≤ d ↔ c = d :=
  ⟨fun h => Char.le_antisymm h.2 h.1, fun h => h ▸ ⟨Char.le_refl c, Char.le_refl c⟩⟩

/-- A word starts with the characters of its first class. -/
theorem isWordStart_eq (c : Char) : isWordStart c = wordStart.has c := by
  rw [Bool.eq_iff_iff]
  simp [isWordStart, CharClass.has, wordStart, CharClass.mem_range_self, or_assoc]

/-- A word goes on with the characters of its second class. -/
theorem isWordRest_eq (c : Char) : isWordRest c = wordRest.has c := by
  rw [Bool.eq_iff_iff]
  simp [isWordRest, isWordStart, Numeral.isDecimalDigit, CharClass.has, wordRest,
    CharClass.mem_range_self, or_assoc, or_left_comm]

/-- The texts of the expression `[a-zA-Z_][a-zA-Z0-9_']*`. -/
def IsWord : List Char → Prop
  | [] => False
  | c :: cs => wordStart.has c = true ∧ cs.all wordRest.has = true

/-- The words that are no identifiers. -/
def keywords : List String :=
  ["let", "in", "True", "False"]

/-- The names that can be written: the words that are no keywords. -/
def Name.IsIdentifier (x : Name) : Prop :=
  IsWord x.toList ∧ x ∉ keywords

instance : DecidablePred IsWord
  | [] => inferInstanceAs (Decidable False)
  | c :: cs => inferInstanceAs (Decidable (wordStart.has c = true ∧ cs.all wordRest.has = true))

instance (x : Name) : Decidable x.IsIdentifier :=
  inferInstanceAs (Decidable (_ ∧ _))

/-- A word is an identifier unless it is a keyword. -/
theorem Token.ofWord_eq_ident_iff {word : String} {x : Name} :
    Token.ofWord word = .ident x ↔ word = x ∧ x ∉ keywords := by
  simp only [Token.ofWord, keywords]
  grind

/-- A word is a single token. -/
theorem IsWord.lexes {word : String} (h : IsWord word.toList) :
    Lexes B word.toList [.ofWord word] := by
  cases hword : word.toList with
  | nil => rw [hword] at h; cases h
  | cons c cs =>
      rw [hword] at h
      have hc : isWordStart c = true := (isWordStart_eq c).trans h.1
      have hcs : ∀ d ∈ cs, isWordRest d = true := fun d hd =>
        (isWordRest_eq d).trans (List.all_eq_true.mp h.2 d hd)
      have hmunched := Munched.word hc hcs (stops_nil _)
      rw [List.append_nil, ← hword, String.ofList_toList] at hmunched
      exact hword ▸ .cons hmunched .nil

/-- An identifier is the token of its name. -/
theorem Name.IsIdentifier.lexes {x : Name} (h : x.IsIdentifier) :
    Lexes B x.toList [.ident x] := by
  have hlexes := h.1.lexes (B := B)
  rwa [Token.ofWord_eq_ident_iff.mpr ⟨rfl, h.2⟩] at hlexes

/-- The decimal form of an integer is a single token. -/
theorem lexes_decimal (i : Int) :
    Lexes B (Numeral.decimal i).toList [.integer (Numeral.decimal i)] := by
  have hne := Numeral.decimalDigits_ne_nil i.natAbs
  have hdigits : ∀ d ∈ Numeral.decimalDigits i.natAbs, Numeral.isDecimalDigit d = true :=
    fun d => Numeral.isDecimalDigit_of_mem
  rw [Numeral.decimal, String.toList_ofList]
  split
  · have hmunched := Munched.minus hne hdigits (stops_nil _)
    rw [List.append_nil] at hmunched
    exact .cons hmunched .nil
  · have hmunched := Munched.digits hne hdigits (stops_nil _)
    rw [List.append_nil] at hmunched
    exact .cons hmunched .nil

/-- Only names that can be written come out of a text. -/
theorem Lexes.isIdentifier {cs : List Char} {ts : List Token} {x : Name} (h : Lexes B cs ts)
    (hx : .ident x ∈ ts) : x.IsIdentifier := by
  induction h with
  | blanks hbs => cases hx
  | @token bs cs rest token ts hbs hmunched hrest ih =>
      rcases List.mem_cons.mp hx with htoken | hts
      · cases hmunched with
        | @word c cs _ hc hcs hstops =>
            obtain ⟨rfl, hkeyword⟩ := Token.ofWord_eq_ident_iff.mp htoken.symm
            have hword : IsWord (c :: cs) :=
              ⟨isWordStart_eq c ▸ hc, List.all_eq_true.mpr fun d hd => isWordRest_eq d ▸ hcs d hd⟩
            exact ⟨String.toList_ofList ▸ hword, hkeyword⟩
        | _ => cases htoken
      · exact ih hts

end LetPoly
