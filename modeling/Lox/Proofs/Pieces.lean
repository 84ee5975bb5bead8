import Lox.Token.Stream

/-!
# The pieces of a text

`cut` splits a whole text into its pieces, and `numberPieces` gives each piece the line on which its
last character stands. Neither is run: that a cursor, which counts lines as it goes, hands out the
same is `scan_eq`.
-/

namespace Lox

namespace Piece

def cut : List Char → List Piece
  | [] => []
  | c :: rest => (split c rest).1 :: cut (split c rest).2
termination_by cs => cs.length
decreasing_by exact Nat.lt_succ_of_le (length_split_le c rest)

@[simp] theorem cut_nil : cut [] = [] := by rw [cut]

theorem cut_cons (c : Char) (rest : List Char) :
    cut (c :: rest) = (split c rest).1 :: cut (split c rest).2 := by rw [cut]

theorem flatMap_text_cut (cs : List Char) : (cut cs).flatMap text = cs := by
  induction cs using cut.induct with
  | case1 => rw [cut_nil, List.flatMap_nil]
  | case2 c rest ih => rw [cut_cons, List.flatMap_cons, ih, text_split]

end Piece

/-- The items of pieces that begin on `line`. -/
def numberPieces : Nat → List Piece → List Item
  | _, [] => []
  | line, p :: ps =>
    let line := line + lineEnds p.text
    match p.item? line with
    | none => numberPieces line ps
    | some item => item :: numberPieces line ps

end Lox
