import Mathlib.Data.List.TakeWhile
import Lox.Proofs.Pieces

/-!
# Lexemes

`Lexeme` says which texts are tokens and of which kind, and `Trivia` which are passed over. The
first character of a lexeme settles which kinds it may have.
-/

namespace Lox

def operators : List (List Char × TokenType) :=
  [(['('], .leftParen), ([')'], .rightParen), (['{'], .leftBrace), (['}'], .rightBrace),
   ([','], .comma), (['.'], .dot), (['-'], .minus), (['+'], .plus), ([';'], .semicolon),
   (['/'], .slash), (['*'], .star), (['!'], .bang), (['!', '='], .bangEqual), (['='], .equal),
   (['=', '='], .equalEqual), (['>'], .greater), (['>', '='], .greaterEqual), (['<'], .less),
   (['<', '='], .lessEqual)]

inductive Lexeme : TokenType → List Char → Prop
  | operator {type cs} : (cs, type) ∈ operators → Lexeme type cs
  | string {contents} : '"' ∉ contents →
    Lexeme (.string (String.ofList contents)) ('"' :: contents ++ ['"'])
  | whole {digits} : digits ≠ [] → (∀ d ∈ digits, d.isDigit) →
    Lexeme (.number (Piece.numeral digits [])) digits
  | decimal {digits decimals} : digits ≠ [] → (∀ d ∈ digits, d.isDigit) → decimals ≠ [] →
    (∀ d ∈ decimals, d.isDigit) →
    Lexeme (.number (Piece.numeral digits decimals)) (digits ++ '.' :: decimals)
  | keyword {word type} : (word, type) ∈ TokenType.keywords → Lexeme type word.toList
  | name {c cs} : c.isAlpha → (∀ d ∈ cs, d.isAlphanum ∨ d = '_') →
    String.ofList (c :: cs) ∉ TokenType.keywords.map Prod.fst → Lexeme .identifier (c :: cs)

/-- A blank, or a comment, before the rest of a text. A comment goes on to the end of its line. -/
inductive Trivia : List Char → List Char → Prop
  | blank {c rest} : c ∈ [' ', '\r', '\t', '\n'] → Trivia [c] rest
  | comment {text rest} : '\n' ∉ text → (∀ c, rest.head? = some c → c = '\n') →
    Trivia ('/' :: '/' :: text) rest

def BeginsTrivia (cs : List Char) : Prop := ∃ text rest, Trivia text rest ∧ cs = text ++ rest

def BeginsLexeme (cs : List Char) : Prop := ∃ type lexeme, Lexeme type lexeme ∧ lexeme <+: cs

/-! ### Words -/

namespace TokenType

variable {word : String} {type : TokenType}

theorem mem_keywords (h : keywords.lookup word = some type) : (word, type) ∈ keywords := by
  obtain ⟨before, after, split, -⟩ := List.lookup_eq_some_iff.mp h
  rw [split]
  exact List.mem_append_right before List.mem_cons_self

theorem ofWord_of_mem (h : (word, type) ∈ keywords) : ofWord word = type := by
  have all : ∀ p ∈ keywords, ofWord p.1 = p.2 := by decide
  exact all _ h

theorem ofWord_of_notMem (h : word ∉ keywords.map Prod.fst) : ofWord word = .identifier := by
  have none : keywords.lookup word = none := by
    rw [List.lookup_eq_none_iff]
    intro p hp
    simpa using (ne_of_mem_of_not_mem (List.mem_map_of_mem hp) h).symm
  rw [ofWord, none]
  rfl

end TokenType

/-! ### Where a stretch ends -/

section Stretch

variable {α : Type} {p : α → Bool} {l rest : List α}

theorem takeWhile_stretch (all : ∀ a ∈ l, p a) (stop : ∀ a, rest.head? = some a → p a = false) :
    (l ++ rest).takeWhile p = l := by
  rw [List.takeWhile_append_of_pos all]
  cases rest with
  | nil => simp
  | cons a rest => simp [stop a rfl]

theorem dropWhile_stretch (all : ∀ a ∈ l, p a) (stop : ∀ a, rest.head? = some a → p a = false) :
    (l ++ rest).dropWhile p = rest := by
  rw [List.dropWhile_append_of_pos all]
  cases rest with
  | nil => simp
  | cons a rest => simp [stop a rfl]

theorem stop_dropWhile (p : α → Bool) (cs : List α) :
    ∀ a, (cs.dropWhile p).head? = some a → p a = false := by
  intro a here
  have := List.head?_dropWhile_not p cs
  rwa [here] at this

theorem length_le_takeWhile {cs : List α} (all : ∀ a ∈ l, p a) (pre : l <+: cs) :
    l.length ≤ (cs.takeWhile p).length := by
  obtain ⟨rest, rfl⟩ := pre
  rw [List.takeWhile_append_of_pos all]
  simp

end Stretch

/-! ### Kinds of token by their first character -/

section Heads

variable {type : TokenType} {c : Char} {cs : List Char}

theorem operators_head (h : (c :: cs, type) ∈ operators) :
    c.isDigit = false ∧ c.isAlpha = false ∧ c ≠ '"' := by
  have all : ∀ p ∈ operators, p.1.head?.all
      (fun c => !c.isDigit && !c.isAlpha && c != '"') = true := by decide
  simpa [and_assoc] using all _ h

theorem operators_ne_nil : ([], type) ∉ operators := by
  intro h
  have all : ∀ p ∈ operators, p.1 ≠ [] := by decide
  exact all _ h rfl

theorem keywords_letters {word : String} (h : (word, type) ∈ TokenType.keywords) :
    word.toList ≠ [] ∧ ∀ d ∈ word.toList, d.isAlpha := by
  have all : ∀ p ∈ TokenType.keywords, p.1.toList ≠ [] ∧ p.1.toList.all Char.isAlpha = true := by
    decide
  simpa using all _ h

theorem isDigit_of_isAlpha (h : c.isAlpha = true) : c.isDigit = false := by
  have above : 'A'.val ≤ c.val := by
    rcases Bool.or_eq_true_iff.mp h with upper | lower
    · exact (of_decide_eq_true upper).1
    · have small : 'A'.val ≤ 'a'.val := by decide
      exact UInt32.le_trans small (of_decide_eq_true (Bool.and_eq_true_iff.mp lower).1)
  apply Bool.and_eq_false_iff.mpr
  exact .inr (decide_eq_false fun below => absurd (UInt32.le_trans above below) (by decide))

/-- What begins with a letter is a word. -/
theorem Lexeme.word (h : Lexeme type (c :: cs)) (letter : c.isAlpha = true) :
    ∀ d ∈ c :: cs, Piece.isWordRest d := by
  generalize whole : c :: cs = lexeme at h
  cases h with
  | operator mem =>
    subst whole
    simp [(operators_head mem).2.1] at letter
  | string none =>
    obtain ⟨rfl, -⟩ := List.cons.inj whole
    simp at letter
  | whole _ digits =>
    have := digits c (whole ▸ List.mem_cons_self)
    simp [isDigit_of_isAlpha letter] at this
  | @decimal ds fs some digits =>
    cases ds with
    | nil => exact absurd rfl some
    | cons d ds =>
      obtain ⟨rfl, -⟩ := List.cons.inj whole
      have := digits c List.mem_cons_self
      simp [isDigit_of_isAlpha letter] at this
  | keyword mem =>
    intro d hd
    have := (keywords_letters mem).2 d hd
    simp [Piece.isWordRest, Char.isAlphanum, this]
  | name first others =>
    intro d hd
    rcases List.mem_cons.mp hd with rfl | hd
    · simp [Piece.isWordRest, Char.isAlphanum, first]
    · simpa [Piece.isWordRest] using others d hd

/-- What begins with a digit is a number. -/
theorem Lexeme.number (h : Lexeme type (c :: cs)) (digit : c.isDigit = true) :
    (∀ d ∈ c :: cs, d.isDigit) ∨ ∃ digits decimals, (∀ d ∈ digits, d.isDigit) ∧ decimals ≠ [] ∧
      (∀ d ∈ decimals, d.isDigit) ∧ c :: cs = digits ++ '.' :: decimals := by
  have noLetter : c.isAlpha = false := by
    by_contra letter
    simp [isDigit_of_isAlpha (Bool.not_eq_false _ ▸ letter)] at digit
  generalize whole : c :: cs = lexeme at h
  cases h with
  | operator mem =>
    subst whole
    simp [(operators_head mem).1] at digit
  | string none =>
    obtain ⟨rfl, -⟩ := List.cons.inj whole
    simp at digit
  | whole _ digits => exact .inl digits
  | decimal _ digits some decimals => exact .inr ⟨_, _, digits, some, decimals, rfl⟩
  | keyword mem =>
    have := (keywords_letters mem).2 c (whole ▸ List.mem_cons_self)
    simp [noLetter] at this
  | name first others =>
    obtain ⟨rfl, -⟩ := List.cons.inj whole
    simp [noLetter] at first

/-- What begins with a quote is a string. -/
theorem Lexeme.quoted (h : Lexeme type ('"' :: cs)) :
    ∃ contents, '"' ∉ contents ∧ cs = contents ++ ['"'] := by
  generalize whole : '"' :: cs = lexeme at h
  cases h with
  | operator mem =>
    subst whole
    simpa using (operators_head mem).2.2
  | @string contents none => exact ⟨contents, none, (List.cons.inj whole).2⟩
  | whole _ digits =>
    have := digits '"' (whole ▸ List.mem_cons_self)
    simp at this
  | @decimal ds fs some digits =>
    cases ds with
    | nil => exact absurd rfl some
    | cons d ds =>
      obtain ⟨rfl, -⟩ := List.cons.inj whole
      have := digits '"' List.mem_cons_self
      simp at this
  | keyword mem =>
    have := (keywords_letters mem).2 '"' (whole ▸ List.mem_cons_self)
    simp at this
  | name first others =>
    obtain ⟨rfl, -⟩ := List.cons.inj whole
    simp at first

/-- What begins with another character is an operator. -/
theorem Lexeme.mark (h : Lexeme type (c :: cs)) (noDigit : c.isDigit = false)
    (noLetter : c.isAlpha = false) (noQuote : c ≠ '"') : (c :: cs, type) ∈ operators := by
  generalize whole : c :: cs = lexeme at h
  cases h with
  | operator mem => exact mem
  | string none => exact absurd (List.cons.inj whole).1 noQuote
  | whole _ digits =>
    have := digits c (whole ▸ List.mem_cons_self)
    simp [noDigit] at this
  | @decimal ds fs some digits =>
    cases ds with
    | nil => exact absurd rfl some
    | cons d ds =>
      obtain ⟨rfl, -⟩ := List.cons.inj whole
      have := digits c List.mem_cons_self
      simp [noDigit] at this
  | keyword mem =>
    have := (keywords_letters mem).2 c (whole ▸ List.mem_cons_self)
    simp [noLetter] at this
  | name first others =>
    obtain ⟨rfl, -⟩ := List.cons.inj whole
    simp [noLetter] at first

theorem Lexeme.ne_nil (h : Lexeme type cs) : cs ≠ [] := by
  cases h with
  | operator mem =>
    rintro rfl
    exact operators_ne_nil mem
  | string => exact List.cons_ne_nil _ _
  | whole some => exact some
  | decimal => simp
  | keyword mem => exact (keywords_letters mem).1
  | name => exact List.cons_ne_nil _ _

theorem operators_cons (h : (c :: cs, type) ∈ operators) :
    cs = [] ∧ (Piece.mark? c = some type ∨ c = '/' ∧ type = .slash) ∨
      ∃ long short, Piece.markWithEqual? c = some (long, short) ∧
        (cs = [] ∧ type = short ∨ cs = ['='] ∧ type = long) := by
  simp only [operators, List.mem_cons, List.not_mem_nil, or_false, Prod.mk.injEq] at h
  rcases h with h | h | h | h | h | h | h | h | h | h | h | h | h | h | h | h | h | h | h <;>
    obtain ⟨⟨rfl, rfl⟩, rfl⟩ := h <;> simp [Piece.mark?, Piece.markWithEqual?]

theorem operator_of_mark (h : Piece.mark? c = some type) : ([c], type) ∈ operators := by
  unfold Piece.mark? at h
  split at h <;> cases h <;> simp [operators]

theorem operators_of_markWithEqual {long short : TokenType}
    (h : Piece.markWithEqual? c = some (long, short)) :
    ([c], short) ∈ operators ∧ ([c, '='], long) ∈ operators := by
  unfold Piece.markWithEqual? at h
  split at h <;> cases h <;> simp [operators]

end Heads

end Lox
