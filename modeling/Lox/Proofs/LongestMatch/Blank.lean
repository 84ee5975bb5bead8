import Lox.Proofs.LongestMatch.Cut

/-!
# Cutting before a blank

Only a string holds blanks, and only a line end closes a comment. So a token that ends at a blank is
cut off whatever follows the blank, and `cut_join` cuts two texts apart at a line end between them
unless a string is left open in the first.
-/

namespace Lox

section Crossing

variable {type : TokenType} {b c : Char} {cs ds : List Char}

theorem isBlank_of_isWordRest (h : Piece.isWordRest c = true) : Piece.isBlank c = false := by
  simp only [Piece.isWordRest, Char.isAlphanum, Bool.or_eq_true, beq_iff_eq] at h
  rcases h with (letter | digit) | rfl
  · exact (Piece.isBlank_of_isAlpha letter).1
  · exact (Piece.isBlank_of_isDigit digit).1
  · rfl

/-- Only strings hold blanks. -/
theorem Lexeme.head?_of_blank (h : Lexeme type cs) (blank : Piece.isBlank b = true) (mem : b ∈ cs) :
    cs.head? = some '"' := by
  have other {p : Prop} (noBlank : Piece.isBlank b = false) : p :=
    absurd (noBlank.symm.trans blank) Bool.false_ne_true
  cases h with
  | operator isOperator =>
    have none : ∀ p ∈ operators, p.1.all (!Piece.isBlank ·) = true := by decide
    exact other (by simpa using List.all_eq_true.mp (none _ isOperator) b mem)
  | string => rfl
  | whole _ digits => exact other (Piece.isBlank_of_isDigit (digits b mem)).1
  | decimal _ digits _ decimals =>
    rcases List.mem_append.mp mem with mem | mem
    · exact other (Piece.isBlank_of_isDigit (digits b mem)).1
    rcases List.mem_cons.mp mem with rfl | mem
    · exact other rfl
    · exact other (Piece.isBlank_of_isDigit (decimals b mem)).1
  | keyword isKeyword =>
    exact other (Piece.isBlank_of_isAlpha ((keywords_letters isKeyword).2 b mem)).1
  | name first others =>
    rcases List.mem_cons.mp mem with rfl | mem
    · exact other (Piece.isBlank_of_isAlpha first).1
    · exact other (isBlank_of_isWordRest (by simpa [Piece.isWordRest] using others b mem))

/-- What stands behind a text makes no comment of it, unless it begins with a slash. -/
theorem BeginsTrivia.of_append (h : BeginsTrivia (cs ++ b :: ds)) (full : cs ≠ [])
    (noSlash : b ≠ '/') : BeginsTrivia cs := by
  obtain ⟨text, rest, trivia, whole⟩ := h
  cases cs with
  | nil => exact absurd rfl full
  | cons c cs =>
    cases trivia with
    | blank mem =>
      obtain ⟨rfl, -⟩ := List.cons.inj whole
      exact ⟨[c], cs, .blank mem, rfl⟩
    | comment =>
      obtain ⟨rfl, tail⟩ := List.cons.inj whole
      cases cs with
      | nil => exact absurd (List.cons.inj tail).1 noSlash
      | cons d cs =>
        obtain ⟨rfl, -⟩ := List.cons.inj tail
        refine ⟨'/' :: '/' :: cs.takeWhile (· != '\n'), cs.dropWhile (· != '\n'),
          .comment (fun mem => ?_) (fun c here => ?_), ?_⟩
        · simpa using List.mem_takeWhile_imp mem
        · simpa using stop_dropWhile (· != '\n') cs c here
        · simp

/-- A token that begins before a blank and ends behind it is a string. -/
theorem Lexeme.inside_or_string {longer : List Char} (h : Lexeme type longer)
    (pre : longer <+: cs ++ b :: ds) (blank : Piece.isBlank b = true) :
    longer <+: cs ∨ longer.head? = some '"' ∧ ∃ more, longer = cs ++ b :: more := by
  rcases List.prefix_or_prefix_of_prefix pre (List.prefix_append _ _) with inside | ⟨more, rfl⟩
  · exact .inl inside
  cases more with
  | nil => exact .inl (List.append_nil _ ▸ List.prefix_rfl)
  | cons d more =>
    obtain ⟨rfl, -⟩ := List.cons_prefix_cons.mp ((List.prefix_append_right_inj _).mp pre)
    exact .inr ⟨h.head?_of_blank blank (by simp), more, rfl⟩

/-- No token begins before a blank that does not do so without it, but for a string. -/
theorem BeginsLexeme.of_append (h : BeginsLexeme (c :: cs ++ b :: ds))
    (blank : Piece.isBlank b = true) (noQuote : c ≠ '"') : BeginsLexeme (c :: cs) := by
  obtain ⟨type, lexeme, isLexeme, pre⟩ := h
  rcases isLexeme.inside_or_string pre blank with inside | ⟨head, more, rfl⟩
  · exact ⟨type, lexeme, isLexeme, inside⟩
  · exact absurd (Option.some.inj head) noQuote

/-- A token that is the longest is so before a blank as well. -/
theorem Lexeme.longest_before {rest : List Char} (h : Lexeme type cs)
    (longest : ∀ type' longer, Lexeme type' longer → longer <+: cs ++ rest →
      longer.length ≤ cs.length) (blank : Piece.isBlank b = true) {type' : TokenType}
    {longer : List Char} (h' : Lexeme type' longer) (pre : longer <+: cs ++ rest ++ b :: ds) :
    longer.length ≤ cs.length := by
  rcases h'.inside_or_string pre blank with inside | ⟨head, more, rfl⟩
  · exact longest _ _ h' inside
  -- A token across the blank is a string, and `cs` is one that ends at the same quote.
  cases cs with
  | nil => exact absurd rfl h.ne_nil
  | cons c cs =>
    obtain rfl := Option.some.inj head
    obtain ⟨contents, none, rfl⟩ := h.quoted
    rw [List.append_assoc, List.cons_append] at h'
    obtain ⟨contents', none', same⟩ := h'.quoted
    have other {contents : List Char} (none : '"' ∉ contents) :
        ∀ d ∈ contents, (d != '"') = true := by
      intro d hd
      simpa using ne_of_mem_of_not_mem hd none
    have left := congrArg (List.dropWhile (· != '"')) same
    rw [List.append_assoc, dropWhile_stretch (other none) (by simp),
      dropWhile_stretch (other none') (by simp)] at left
    simp at left

end Crossing

namespace Piece

def isUnclosed : Piece → Bool
  | unclosed _ => true
  | trivia _ | token _ _ | stray _ => false

variable {p : Piece} {b : Char} {rest cs ds : List Char} {ps qs : List Piece}

theorem slash_of_isBlank (blank : isBlank b = true) : b ≠ '/' := by
  rintro rfl
  cases blank

theorem First.token_before {type : TokenType} {lexeme : List Char}
    (h : First (.token type lexeme) rest) (blank : isBlank b = true) (ds : List Char) :
    First (.token type lexeme) (rest ++ b :: ds) := by
  cases h with
  | token noTrivia lexeme longest =>
    refine .token (fun begins => noTrivia ?_) lexeme fun type' longer lexeme' pre => ?_
    · rw [← List.append_assoc] at begins
      exact begins.of_append (by simp [lexeme.ne_nil]) (slash_of_isBlank blank)
    · rw [← List.append_assoc] at pre
      exact lexeme.longest_before longest blank lexeme' pre

theorem First.before_line (h : First p rest) (closed : p.isUnclosed = false) (ds : List Char) :
    First p (rest ++ '\n' :: ds) := by
  cases h with
  | trivia trivia =>
    cases trivia with
    | blank mem => exact .trivia (.blank mem)
    | comment none ends =>
      refine .trivia (.comment none fun c here => ?_)
      cases rest with
      | nil => exact (Option.some.inj here).symm
      | cons d rest => exact ends c here
  | token noTrivia lexeme longest =>
    exact (First.token noTrivia lexeme longest).token_before rfl ds
  | stray noTrivia noLexeme noQuote =>
    refine .stray (fun begins => noTrivia ?_) (fun begins => noLexeme ?_) noQuote
    · exact begins.of_append (List.cons_ne_nil _ _) (by decide)
    · exact begins.of_append rfl noQuote
  | unclosed => cases closed

theorem Cuts.join (h : Cuts cs ps) (closed : ∀ p ∈ ps, p.isUnclosed = false) (h' : Cuts ds qs) :
    Cuts (cs ++ '\n' :: ds) (ps ++ .trivia ['\n'] :: qs) := by
  induction h with
  | nil => exact .cons (p := .trivia ['\n']) (.trivia (.blank (by decide))) h'
  | cons first _ ih =>
    obtain ⟨here, others⟩ := List.forall_mem_cons.mp closed
    rw [List.append_assoc]
    exact .cons (first.before_line here ds) (ih others)

theorem cut_join (closed : ∀ p ∈ cut cs, p.isUnclosed = false) (ds : List Char) :
    cut (cs ++ '\n' :: ds) = cut cs ++ .trivia ['\n'] :: cut ds :=
  (cuts_iff.mp ((cuts_iff.mpr rfl).join closed (cuts_iff.mpr rfl))).symm

end Piece

end Lox
