import Lox.Proofs.LongestMatch

/-!
# Spelling of words

A scanned token that is a name is spelled like no keyword, and one that is a keyword is spelled like
it: `spelled_scan`.
-/

namespace Lox

def TokenType.isWord (type : TokenType) : Bool :=
  type == identifier || keywords.any (·.2 == type)

/-- A token whose kind is that of its lexeme, if it is a word. -/
def Token.Spelled (t : Token) : Prop := t.type.isWord = true → t.type = .ofWord t.lexeme

/-- A text of a kind that is a word is spelled like the kind. -/
theorem Lexeme.ofWord {type : TokenType} {cs : List Char} (h : Lexeme type cs)
    (word : type.isWord = true) : type = .ofWord (String.ofList cs) := by
  cases h with
  | operator isOperator =>
    have none : ∀ p ∈ operators, p.2.isWord = false := by decide
    exact absurd word (Bool.eq_false_iff.mp (none _ isOperator))
  | string => cases word
  | whole => cases word
  | decimal => cases word
  | keyword isKeyword => rw [String.ofList_toList, TokenType.ofWord_of_mem isKeyword]
  | name _ _ other => exact (TokenType.ofWord_of_notMem other).symm

theorem spelled_scan (source : String) : ∀ t ∈ (scan source).tokens.body, t.Spelled := by
  intro t mem word
  have spelling := (lexeme_of_mem_body mem).ofWord word
  rwa [String.ofList_toList] at spelling

namespace Token.Spelled

variable {t : Token} (h : t.Spelled)

include h

/-- A name is no keyword. -/
theorem lookup_eq_none (type : t.type = .identifier) :
    TokenType.keywords.lookup t.lexeme = none := by
  have spelling := h (by rw [type]; rfl)
  rw [type, TokenType.ofWord] at spelling
  cases found : TokenType.keywords.lookup t.lexeme with
  | none => rfl
  | some keyword =>
    rw [found] at spelling
    have others : ∀ p ∈ TokenType.keywords, p.2 ≠ .identifier := by decide
    exact absurd spelling.symm (others _ (TokenType.mem_keywords found))

theorem mem_keywords {keyword : TokenType} (type : t.type = keyword)
    (word : keyword.isWord = true) (notName : keyword ≠ .identifier) :
    (t.lexeme, keyword) ∈ TokenType.keywords := by
  have spelling := h (by rw [type]; exact word)
  rw [type, TokenType.ofWord] at spelling
  cases found : TokenType.keywords.lookup t.lexeme with
  | none =>
    rw [found] at spelling
    exact absurd spelling notName
  | some other =>
    rw [found] at spelling
    rw [show keyword = other from spelling]
    exact TokenType.mem_keywords found

theorem lexeme_this (type : t.type = .kwThis) : t.lexeme = "this" := by
  have only : ∀ p ∈ TokenType.keywords, p.2 = .kwThis → p.1 = "this" := by decide
  exact only _ (h.mem_keywords type rfl nofun) rfl

theorem lexeme_super (type : t.type = .kwSuper) : t.lexeme = "super" := by
  have only : ∀ p ∈ TokenType.keywords, p.2 = .kwSuper → p.1 = "super" := by decide
  exact only _ (h.mem_keywords type rfl nofun) rfl

end Token.Spelled

end Lox
