import Lox.Proofs.LongestMatch.Blank

/-!
# Counted lines

A cursor counts line ends where it passes one over and where a string ends, and nowhere else. That
counts every line end of a text once, since a comment stops before its line end and no token but a
string holds one: `First.lineAfter_eq`. So the items of a text are those of its pieces, each on the
line of its last character: `scan_eq`.
-/

namespace Lox

theorem lineEnds_eq_zero {cs : List Char} (h : '\n' ∉ cs) : lineEnds cs = 0 :=
  List.count_eq_zero.mpr h

/-! ### Each kind of piece -/

theorem Trivia.lineAfter_eq {text rest : List Char} (h : Trivia text rest) (line : Nat) :
    (Piece.trivia text).lineAfter line = line + lineEnds text := by
  cases h with
  | blank mem =>
    simp only [List.mem_cons, List.not_mem_nil, or_false] at mem
    rcases mem with rfl | rfl | rfl | rfl <;> rfl
  | @comment text _ none =>
    have whole : '\n' ∉ '/' :: '/' :: text := by simpa using none
    rw [lineEnds_eq_zero whole]
    simp [Piece.lineAfter]

theorem Lexeme.head?_of_string {contents : String} {cs : List Char}
    (h : Lexeme (.string contents) cs) : cs.head? = some '"' := by
  generalize same : TokenType.string contents = type at h
  subst same
  cases h with
  | operator mem => simp [operators] at mem
  | string => rfl
  | keyword mem => simp [TokenType.keywords] at mem

theorem Lexeme.lineAfter_eq {type : TokenType} {cs : List Char} (h : Lexeme type cs) (line : Nat) :
    (Piece.token type cs).lineAfter line = line + lineEnds cs := by
  by_cases quote : cs.head? = some '"'
  · obtain ⟨rest, rfl⟩ := List.head?_eq_some_iff.mp quote
    obtain ⟨contents, none, rfl⟩ := h.quoted
    obtain rfl := h.unique (.string none)
    simp [Piece.lineAfter, lineEnds]
  · have none : '\n' ∉ cs := fun mem => quote (h.head?_of_blank rfl mem)
    rw [lineEnds_eq_zero none]
    cases type with
    | string contents => exact absurd h.head?_of_string quote
    | _ => rfl

namespace Piece

variable {p : Piece} {rest : List Char}

theorem First.stray_ne_line {c : Char} (h : First (.stray c) rest) : c ≠ '\n' := by
  rintro rfl
  cases h with
  | stray noTrivia => exact noTrivia ⟨['\n'], rest, .blank (by decide), rfl⟩

theorem First.lineAfter_eq (h : First p rest) (line : Nat) :
    p.lineAfter line = line + lineEnds p.text := by
  cases h with
  | trivia trivia => exact trivia.lineAfter_eq line
  | token _ lexeme => exact lexeme.lineAfter_eq line
  | @stray c _ noTrivia noLexeme noQuote =>
    have none := (First.stray noTrivia noLexeme noQuote).stray_ne_line
    simp [lineAfter, text, lineEnds, none]
  | unclosed => simp [lineAfter, text, lineEnds]

end Piece

/-! ### Whole texts -/

theorem Piece.lineAfter_split (line : Nat) (c : Char) (cs : List Char) :
    (split c cs).1.lineAfter line + lineEnds (split c cs).2 = line + lineEnds (c :: cs) := by
  rw [(first_split c cs).lineAfter_eq, Nat.add_assoc, ← lineEnds_append, text_split]

theorem numberPieces_split (line : Nat) (c : Char) (cs : List Char) :
    numberPieces line (Piece.cut (c :: cs)) =
      match (Piece.split c cs).1.item? ((Piece.split c cs).1.lineAfter line) with
      | none =>
        numberPieces ((Piece.split c cs).1.lineAfter line) (Piece.cut (Piece.split c cs).2)
      | some item =>
        item :: numberPieces ((Piece.split c cs).1.lineAfter line)
          (Piece.cut (Piece.split c cs).2) := by
  rw [Piece.cut_cons, (Piece.first_split c cs).lineAfter_eq]
  rfl

namespace Cursor

theorem items_of_ended {s : Cursor} (h : s.ended = true) : s.items = [] := by
  rw [items_eq, next?, if_pos h]

/-- A cursor hands out the items of the pieces, and the end on the line that it has counted. -/
theorem items_of_rest (line : Nat) (cs : List Char) :
    items { rest := cs, line } =
      numberPieces line (Piece.cut cs) ++ [.token (.eof (line + lineEnds cs))] := by
  have next (line : Nat) (cs : List Char) :
      items { rest := cs, line } = (nextOf line cs).1 :: (nextOf line cs).2.items := items_eq _
  induction cs using Piece.cut.induct generalizing line with
  | case1 =>
    rw [next, nextOf, items_of_ended rfl, Piece.cut_nil]
    rfl
  | case2 c cs ih =>
    rw [next, nextOf_cons, numberPieces_split, ← Piece.lineAfter_split]
    cases (Piece.split c cs).1.item? ((Piece.split c cs).1.lineAfter line) with
    | none => exact (next _ _).symm.trans (ih _)
    | some item => exact congrArg (item :: ·) (ih _)

theorem items_ofSource (source : String) :
    (ofSource source).items = numberPieces 1 (Piece.cut source.toList) ++
      [.token (.eof (1 + lineEnds source.toList))] := items_of_rest 1 source.toList

end Cursor

theorem scan_eq (source : String) :
    scan source =
      { tokens := ⟨(numberPieces 1 (Piece.cut source.toList)).filterMap Item.token?,
          1 + lineEnds source.toList⟩
        faults := (numberPieces 1 (Piece.cut source.toList)).filterMap Item.fault? } := by
  unfold scan
  rw [Cursor.items_ofSource]
  simp [TokenStream.ofList, Item.token?, Item.fault?, Token.eof]

end Lox
