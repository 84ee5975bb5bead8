import Mathlib.Data.List.Forall2
import Lox.Proofs.Counting

/-!
# Longest match

`items_longest_match` says what a cursor hands out one call after another: the tokens and errors of
the one cut of the text by longest match, then its end.
-/

namespace Lox

namespace Piece

def isTrivia : Piece → Bool
  | trivia _ => true
  | _ => false

inductive Gives : Piece → Item → Prop
  | token {type lexeme line} :
    Gives (.token type lexeme) (.token ⟨type, String.ofList lexeme, line⟩)
  | stray {c line} : Gives (.stray c) (.fault ⟨line, .unexpected c⟩)
  | unclosed {text line} : Gives (.unclosed text) (.fault ⟨line, .unterminatedString⟩)

theorem gives_numberPieces (line : Nat) (ps : List Piece) :
    List.Forall₂ Gives (ps.filter (!·.isTrivia)) (numberPieces line ps) := by
  induction ps generalizing line with
  | nil => exact .nil
  | cons p ps ih =>
    cases p with
    | trivia cs => exact ih _
    | token type cs => exact .cons .token (ih _)
    | stray c => exact .cons .stray (ih _)
    | unclosed cs => exact .cons .unclosed (ih _)

theorem token_mem_of_numberPieces {line : Nat} {ps : List Piece} {t : Token}
    (mem : .token t ∈ numberPieces line ps) :
    ∃ lexeme, .token t.type lexeme ∈ ps ∧ t.lexeme = String.ofList lexeme := by
  induction ps generalizing line with
  | nil => simp [numberPieces] at mem
  | cons p ps ih =>
    simp only [numberPieces] at mem
    have later {line : Nat} (mem : .token t ∈ numberPieces line ps) :
        ∃ lexeme, .token t.type lexeme ∈ p :: ps ∧ t.lexeme = String.ofList lexeme := by
      obtain ⟨lexeme, there, spelled⟩ := ih mem
      exact ⟨lexeme, List.mem_cons_of_mem _ there, spelled⟩
    cases p with
    | trivia cs => exact later mem
    | token type cs =>
      rcases List.mem_cons.mp mem with same | mem
      · obtain rfl := Item.token.inj same
        exact ⟨cs, List.mem_cons_self, rfl⟩
      · exact later mem
    | stray c => exact later (List.mem_of_ne_of_mem Item.noConfusion mem)
    | unclosed cs => exact later (List.mem_of_ne_of_mem Item.noConfusion mem)

end Piece

/-- A token of a text belongs to its kind. -/
theorem lexeme_of_mem_body {source : String} {t : Token}
    (mem : t ∈ (scan source).tokens.body) : Lexeme t.type t.lexeme.toList := by
  rw [scan_eq] at mem
  obtain ⟨item, there, same⟩ := List.mem_filterMap.mp mem
  cases item with
  | fault f => cases same
  | token t' =>
    obtain rfl := Option.some.inj same
    obtain ⟨lexeme, piece, spelled⟩ := Piece.token_mem_of_numberPieces there
    rw [spelled, String.toList_ofList]
    exact (Piece.cuts_iff.mpr rfl).lexeme piece

/-! ### What a cursor hands out -/

/-- A keyword is a token that is spelled like one. -/
theorem Lexeme.keyword_iff {type : TokenType} {cs : List Char} (h : Lexeme type cs) :
    type ∈ TokenType.keywords.map Prod.snd ↔ String.ofList cs ∈ TokenType.keywords.map Prod.fst := by
  constructor
  · intro mem
    cases h with
    | operator isOperator =>
      have none : ∀ p ∈ operators, p.2 ∉ TokenType.keywords.map Prod.snd := by decide
      exact absurd mem (none _ isOperator)
    | string => simp [TokenType.keywords] at mem
    | whole => simp [TokenType.keywords] at mem
    | decimal => simp [TokenType.keywords] at mem
    | keyword isKeyword =>
      rw [String.ofList_toList]
      exact List.mem_map_of_mem isKeyword
    | name => simp [TokenType.keywords] at mem
  · intro mem
    obtain ⟨⟨word, type'⟩, isKeyword, rfl⟩ := List.mem_map.mp mem
    have same := Lexeme.keyword isKeyword
    rw [String.toList_ofList] at same
    rw [h.unique same]
    exact List.mem_map_of_mem isKeyword

theorem Lexeme.ne_eof {type : TokenType} {cs : List Char} (h : Lexeme type cs) : type ≠ .eof := by
  rintro rfl
  cases h with
  | operator mem => simp [operators] at mem
  | keyword mem => simp [TokenType.keywords] at mem

namespace Cursor

/-- After `k` items the next one is the one at `k`, and there is none after the last. -/
theorem next?_skip (s : Cursor) (k : Nat) : (s.skip k).next?.map Prod.fst = s.items[k]? := by
  induction k generalizing s with
  | zero =>
    rw [items_eq]
    cases next : s.next? <;> simp [skip, next]
  | succ k ih =>
    rw [items_eq]
    cases next : s.next? with
    | none => simp [skip, next]
    | some step => simp [skip, next, ih]

end Cursor

/-- A text is cut in one way, between characters, and a cursor hands out the tokens and errors
among the pieces, then the end of the text once, and then nothing more. -/
theorem items_longest_match (source : String) :
    ∃ ps, (∀ qs, Piece.Cuts source.toList qs ↔ qs = ps) ∧
      ps.flatMap Piece.text = source.toList ∧
      (∀ before after, ps = before ++ after →
        String.Pos.Raw.IsValid source
          ⟨(String.ofList (before.flatMap Piece.text)).utf8ByteSize⟩) ∧
      ∃ items line, List.Forall₂ Piece.Gives (ps.filter (!·.isTrivia)) items ∧
        (∀ k, ((Cursor.ofSource source).skip k).next?.map Prod.fst =
          (items ++ [.token (.eof line)])[k]?) ∧
        ∀ t, .token t ∈ items → t.type ≠ .eof ∧
          (t.type ∈ TokenType.keywords.map Prod.snd ↔
            t.lexeme ∈ TokenType.keywords.map Prod.fst) := by
  have cuts := Piece.cuts_iff.mpr (rfl : Piece.cut source.toList = _)
  have gives := Piece.gives_numberPieces 1 (Piece.cut source.toList)
  refine ⟨Piece.cut source.toList, fun qs => Piece.cuts_iff, Piece.flatMap_text_cuts cuts, ?_,
    numberPieces 1 (Piece.cut source.toList), 1 + lineEnds source.toList, gives, ?_, ?_⟩
  · intro before after split
    have whole := Piece.flatMap_text_cuts cuts
    rw [split, List.flatMap_append] at whole
    rw [String.Pos.Raw.isValid_iff_exists_append]
    refine ⟨_, String.ofList (after.flatMap Piece.text), ?_, rfl⟩
    rw [← String.ofList_append, whole, String.ofList_toList]
  · intro k
    rw [Cursor.next?_skip, Cursor.items_ofSource]
  · intro t mem
    obtain ⟨lexeme, there, spelled⟩ := Piece.token_mem_of_numberPieces mem
    have isLexeme := cuts.lexeme there
    rw [spelled]
    exact ⟨isLexeme.ne_eof, isLexeme.keyword_iff⟩

end Lox
