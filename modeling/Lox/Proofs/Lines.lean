import Lox.Proofs.Joining.Scanning
import Lox.Proofs.LongestMatch

/-!
# Lines

`lines_exact` says which line every item of a text has. `items_joined` says that the items of a line
do not depend on the lines before it, but for their numbers.
-/

namespace Lox

/-! ### What a cursor hands out -/

namespace Cursor

variable {s : Cursor} {items : List Item}

/-- One call after another gives these items, and then nothing more. -/
def HandsOut (s : Cursor) (items : List Item) : Prop :=
  ∀ k, (s.skip k).next?.map Prod.fst = items[k]?

theorem handsOut_iff : s.HandsOut items ↔ items = s.items := by
  constructor
  · intro h
    exact List.ext_getElem? fun k => (h k).symm.trans (s.next?_skip k)
  · rintro rfl
    exact s.next?_skip

theorem handsOut_ofSource (source : String) :
    (ofSource source).HandsOut
      (numberPieces 1 (Piece.cut source.toList) ++ [.token (.eof (linesOf source))]) := by
  rw [handsOut_iff, linesOf, Nat.add_comm, items_ofSource]

end Cursor

/-! ### Lines of items -/

namespace Piece

variable {p : Piece} {before after : List Piece} {cs : List Char}

/-- A token, a character or an open string that stands behind `before` in a text, as an item with
its line. -/
inductive Numbered (source before : List Char) : Piece → Item → Prop
  | token {type lexeme} : Numbered source before (.token type lexeme)
      (.token ⟨type, String.ofList lexeme, 1 + lineEnds (before ++ lexeme)⟩)
  | stray {c} : Numbered source before (.stray c) (.fault ⟨1 + lineEnds before, .unexpected c⟩)
  | unclosed {text} : Numbered source before (.unclosed text)
      (.fault ⟨1 + lineEnds source, .unterminatedString⟩)

theorem Cuts.first_behind (h : Cuts cs (before ++ p :: after)) :
    First p (after.flatMap text) := by
  induction before generalizing cs with
  | nil =>
    cases h with
    | cons first others => rwa [flatMap_text_cuts others]
  | cons q before ih =>
    cases h with
    | cons _ others => exact ih others

/-- A piece that is not passed over is numbered by the line ends before it and in it. -/
theorem Cuts.numbered (h : Cuts cs (before ++ p :: after)) (seen : p.isTrivia = false) :
    ∃ item, (numberPieces 1 (before ++ p :: after))[(before.filter (!·.isTrivia)).length]? =
        some item ∧ p.Numbered cs (before.flatMap text) item := by
  have first := h.first_behind
  have whole := flatMap_text_cuts h
  rw [List.flatMap_append, List.flatMap_cons] at whole
  rw [(gives_numberPieces 1 before).length_eq, numberPieces_append,
    List.getElem?_append_right (Nat.le_refl _), Nat.sub_self]
  cases p with
  | trivia cs => cases seen
  | token type lexeme =>
    refine ⟨_, rfl, ?_⟩
    rw [Nat.add_assoc, ← lineEnds_append]
    exact .token
  | stray c =>
    refine ⟨_, rfl, ?_⟩
    have none : lineEnds [c] = 0 := by simp [lineEnds, first.stray_ne_line]
    rw [text, none]
    exact .stray
  | unclosed open_ =>
    refine ⟨_, rfl, ?_⟩
    have last : after.flatMap text = [] := by
      generalize after.flatMap text = rest at first
      cases first with
      | unclosed => rfl
    rw [last, List.append_nil] at whole
    rw [Nat.add_assoc, ← lineEnds_append, whole]
    exact .unclosed

end Piece

theorem pairwise_line_numberPieces (line : Nat) (ps : List Piece) :
    (numberPieces line ps).Pairwise (fun first second => first.line ≤ second.line) := by
  induction ps generalizing line with
  | nil => exact .nil
  | cons p ps ih =>
    unfold numberPieces
    dsimp only
    split
    · exact ih _
    next first here =>
      refine .cons (fun second mem => ?_) (ih _)
      rw [Piece.line_of_item? here]
      exact (line_of_mem_numberPieces mem).1

/-- The items of a text are numbered by its line ends: a token and a string left open by those up to
its end, a character that begins no token by those before it, and the end by all. So lines never
decrease. -/
theorem lines_exact (source : String) :
    ∃ ps items, (∀ qs, Piece.Cuts source.toList qs ↔ qs = ps) ∧
      (Cursor.ofSource source).HandsOut (items ++ [.token (.eof (1 + lineEnds source.toList))]) ∧
      items.length = (ps.filter (!·.isTrivia)).length ∧
      (∀ before p after, ps = before ++ p :: after → p.isTrivia = false →
        source.toList = before.flatMap Piece.text ++ p.text ++ after.flatMap Piece.text ∧
        ∃ item, items[(before.filter (!·.isTrivia)).length]? = some item ∧
          p.Numbered source.toList (before.flatMap Piece.text) item) ∧
      (items ++ [.token (.eof (1 + lineEnds source.toList))]).Pairwise
        (fun first second => first.line ≤ second.line) := by
  have cuts := Piece.cuts_iff.mpr (rfl : Piece.cut source.toList = _)
  refine ⟨Piece.cut source.toList, numberPieces 1 (Piece.cut source.toList),
    fun qs => Piece.cuts_iff, ?_, (Piece.gives_numberPieces 1 _).length_eq.symm,
    fun before p after split seen => ?_, ?_⟩
  · rw [Nat.add_comm]
    exact Cursor.handsOut_ofSource source
  · rw [split] at cuts ⊢
    have whole := Piece.flatMap_text_cuts cuts
    rw [List.flatMap_append, List.flatMap_cons] at whole
    exact ⟨by rw [← whole, List.append_assoc], cuts.numbered seen⟩
  · refine List.pairwise_append.mpr ⟨pairwise_line_numberPieces 1 _, List.pairwise_singleton _ _,
      fun first mem last same => ?_⟩
    obtain rfl := List.mem_singleton.mp same
    have below := (line_of_mem_numberPieces mem).2
    rwa [Piece.flatMap_text_cut] at below

example :
    (scan "// one\nvar a;\n\"two\nlines\"\nprint a; // end").tokens.toList.map Token.line =
      [2, 2, 2, 4, 5, 5, 5, 5] := by decide +kernel

/-! ### Lines that are finished -/

/-- Where no string is left open, the items of a text are followed by those of the text below a line
end, on later lines. -/
theorem items_joined {a : String} (closed : ∀ f ∈ (scan a).faults, f.error ≠ .unterminatedString)
    (b : String) :
    ∃ as bs, (Cursor.ofSource a).HandsOut (as ++ [.token (.eof (linesOf a))]) ∧
      (Cursor.ofSource b).HandsOut bs ∧
      (Cursor.ofSource (a ++ "\n" ++ b)).HandsOut (as ++ bs.map (Item.later (linesOf a))) := by
  refine ⟨_, _, Cursor.handsOut_ofSource a, Cursor.handsOut_ofSource b, ?_⟩
  have lines : linesOf (a ++ "\n" ++ b) = linesOf b + linesOf a := by
    have text : (a ++ "\n" ++ b).toList = a.toList ++ '\n' :: b.toList := by simp
    have ends : lineEnds ['\n'] = 1 := rfl
    unfold linesOf
    rw [text, ← List.singleton_append, lineEnds_append, lineEnds_append, ends]
    omega
  have joined := Cursor.handsOut_ofSource (a ++ "\n" ++ b)
  rw [numberPieces_join closed, lines, List.append_assoc] at joined
  rw [List.map_append]
  exact joined

/-- A stray character, a mark and a comment with a quote, above a mark and a string. -/
theorem items_joined_stray :
    (∀ f ∈ (scan "@ = // \"").faults, f.error ≠ .unterminatedString) ∧
      (Cursor.ofSource ("@ = // \"" ++ "\n" ++ "= \"\n\"")).HandsOut
        [.fault ⟨1, .unexpected '@'⟩, .token ⟨.equal, "=", 1⟩, .token ⟨.equal, "=", 2⟩,
          .token ⟨.string "\n", "\"\n\"", 3⟩, .token (.eof 3)] := by
  have closed : ∀ f ∈ (scan "@ = // \"").faults, f.error ≠ .unterminatedString := by
    decide +kernel
  have above : (Cursor.ofSource "@ = // \"").items =
      [.fault ⟨1, .unexpected '@'⟩, .token ⟨.equal, "=", 1⟩] ++ [.token (.eof 1)] := by
    decide +kernel
  have below : (Cursor.ofSource "= \"\n\"").items =
      [.token ⟨.equal, "=", 1⟩, .token ⟨.string "\n", "\"\n\"", 2⟩, .token (.eof 2)] := by
    decide +kernel
  obtain ⟨as, bs, first, second, joined⟩ := items_joined closed "= \"\n\""
  obtain rfl := List.append_cancel_right ((Cursor.handsOut_iff.mp first).trans above)
  obtain rfl := (Cursor.handsOut_iff.mp second).trans below
  exact ⟨closed, joined⟩

end Lox
