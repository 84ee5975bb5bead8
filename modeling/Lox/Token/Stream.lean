import Lox.Token.Piece

/-!
# Tokens of a source text

A cursor goes through a text and hands out its tokens and lexical errors one at a time, each with
the line that it has counted by then.
-/

namespace Lox

structure LexicalFault where
  line : Nat
  error : LexicalError
  deriving DecidableEq, Repr

/-- What scanning yields at a place. -/
inductive Item where
  | token (t : Token)
  | fault (f : LexicalFault)
  deriving DecidableEq, Repr

namespace Item

def token? : Item → Option Token
  | token t => some t
  | fault _ => none

def fault? : Item → Option LexicalFault
  | token _ => none
  | fault f => some f

end Item

def lineEnds (cs : List Char) : Nat := cs.count '\n'

@[simp] theorem lineEnds_append (cs ds : List Char) :
    lineEnds (cs ++ ds) = lineEnds cs + lineEnds ds := List.count_append

namespace Piece

/-- The line that is counted after a piece. A line end counts where it is passed over; those in a
string count together, behind its quote. Nothing counts in a comment, which stops before its line
end, or in another token. -/
def lineAfter (line : Nat) : Piece → Nat
  | .trivia text => if text = ['\n'] then line + 1 else line
  | .token (.string contents) _ => line + lineEnds contents.toList
  | .token _ _ => line
  | .stray _ => line
  | .unclosed text => line + lineEnds text.tail

def item? (line : Nat) : Piece → Option Item
  | .trivia _ => none
  | .token type cs => some (.token ⟨type, String.ofList cs, line⟩)
  | .stray c => some (.fault ⟨line, .unexpected c⟩)
  | .unclosed _ => some (.fault ⟨line, .unterminatedString⟩)

end Piece

structure Cursor where
  /-- The characters that are left. -/
  rest : List Char
  line : Nat := 1
  /-- Whether the end of the text has been given out. -/
  ended : Bool := false
  deriving DecidableEq, Repr

namespace Cursor

def ofSource (source : String) : Cursor := { rest := source.toList }

/-- The first item of a text that begins on `line`, and the cursor after it. -/
def nextOf (line : Nat) : List Char → Item × Cursor
  | [] => (.token (.eof line), { rest := [], line, ended := true })
  | c :: cs =>
    let first := Piece.split c cs
    let line := first.1.lineAfter line
    match first.1.item? line with
    | none => nextOf line first.2
    | some item => (item, { rest := first.2, line })
termination_by cs => cs.length
decreasing_by exact Nat.lt_succ_of_le (Piece.length_split_le c cs)

theorem nextOf_cons (line : Nat) (c : Char) (cs : List Char) :
    nextOf line (c :: cs) =
      match (Piece.split c cs).1.item? ((Piece.split c cs).1.lineAfter line) with
      | none => nextOf ((Piece.split c cs).1.lineAfter line) (Piece.split c cs).2
      | some item => (item,
          { rest := (Piece.split c cs).2, line := (Piece.split c cs).1.lineAfter line }) := by
  rw [nextOf]

/-- The next item and the cursor after it; nothing follows the end of the text. -/
def next? (s : Cursor) : Option (Item × Cursor) :=
  if s.ended then none else some (nextOf s.line s.rest)

def left (s : Cursor) : Nat := if s.ended then 0 else s.rest.length + 1

theorem left_nextOf (line : Nat) (cs : List Char) : (nextOf line cs).2.left ≤ cs.length := by
  induction line, cs using nextOf.induct with
  | case1 line =>
    rw [nextOf]
    exact Nat.le_refl _
  | case2 line c cs first after trivia ih =>
    rw [nextOf_cons, trivia]
    exact Nat.le_succ_of_le (Nat.le_trans ih (Piece.length_split_le c cs))
  | case3 line c cs first after item here =>
    rw [nextOf_cons, here]
    exact Nat.succ_le_succ (Piece.length_split_le c cs)

theorem left_next? {s after : Cursor} {item : Item} (h : s.next? = some (item, after)) :
    after.left < s.left := by
  obtain ⟨rest, line, _ | _⟩ := s
  · obtain rfl : (nextOf line rest).2 = after := congrArg Prod.snd (Option.some.inj h)
    exact Nat.lt_succ_of_le (left_nextOf line rest)
  · cases h

def skip : Nat → Cursor → Cursor
  | 0, s => s
  | n + 1, s =>
    match s.next? with
    | none => s
    | some (_, after) => skip n after

/-- All items that are left, the end of the text among them. -/
def items (s : Cursor) : List Item :=
  match _h : s.next? with
  | none => []
  | some (item, after) => item :: after.items
termination_by s.left
decreasing_by exact left_next? _h

/-- The items are what repeated calls of `next?` give. -/
theorem items_eq (s : Cursor) :
    s.items = match s.next? with
      | none => []
      | some (item, after) => item :: after.items := by
  rw [items]
  split <;> simp_all

end Cursor

structure Scan where
  tokens : TokenStream
  faults : List LexicalFault
  deriving DecidableEq, Repr

def scan (source : String) : Scan :=
  let items := (Cursor.ofSource source).items
  { tokens := .ofList (items.filterMap Item.token?)
    faults := items.filterMap Item.fault? }

end Lox
