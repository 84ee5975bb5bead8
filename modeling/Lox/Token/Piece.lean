import Lox.Token

/-!
# The first piece of a source text

`split` takes the first piece off a text: a blank or a comment, a token, or a fault. It takes the
longest piece, and no character is lost: `text_split`.
-/

namespace Lox

inductive LexicalError where
  | unexpected (c : Char)
  | unterminatedString
  deriving DecidableEq, Repr

def LexicalError.message : LexicalError → String
  | .unexpected c => "Unexpected character: " ++ String.ofList [c]
  | .unterminatedString => "Unterminated string."

/-- A stretch of source text. -/
inductive Piece where
  /-- A blank, a line end, or a comment without its line end. -/
  | trivia (text : List Char)
  | token (type : TokenType) (lexeme : List Char)
  /-- A character that starts no token. -/
  | stray (c : Char)
  /-- A quote that is never closed, with all that follows it. -/
  | unclosed (text : List Char)
  deriving DecidableEq, Repr

namespace Piece

def text : Piece → List Char
  | trivia cs => cs
  | token _ cs => cs
  | stray c => [c]
  | unclosed cs => cs

abbrev Split := Piece × List Char

/-- The longer kind if an equals sign follows the mark `c`, else the shorter one. -/
def splitMark (c : Char) (long short : TokenType) : List Char → Split
  | '=' :: rest => (token long [c, '='], rest)
  | rest => (token short [c], rest)

def splitSlash : List Char → Split
  | '/' :: rest => (trivia ('/' :: '/' :: rest.takeWhile (· != '\n')), rest.dropWhile (· != '\n'))
  | rest => (token .slash ['/'], rest)

def splitString (rest : List Char) : Split :=
  let contents := rest.takeWhile (· != '"')
  match rest.dropWhile (· != '"') with
  | [] => (unclosed ('"' :: rest), [])
  | quote :: rest => (token (.string (String.ofList contents)) ('"' :: contents ++ [quote]), rest)

def numeral (digits decimals : List Char) : Float :=
  let digit (n : Nat) (c : Char) := 10 * n + (c.toNat - '0'.toNat)
  Float.ofScientific ((digits ++ decimals).foldl digit 0) true decimals.length

/-- Digits, with a point and decimals where a digit follows the point. -/
def splitNumber (cs : List Char) : Split :=
  let digits := cs.takeWhile Char.isDigit
  match cs.dropWhile Char.isDigit with
  | '.' :: d :: rest =>
    if d.isDigit then
      let decimals := d :: rest.takeWhile Char.isDigit
      (token (.number (numeral digits decimals)) (digits ++ '.' :: decimals),
        rest.dropWhile Char.isDigit)
    else (token (.number (numeral digits [])) digits, '.' :: d :: rest)
  | rest => (token (.number (numeral digits [])) digits, rest)

/-- The characters of a word after its first. -/
def isWordRest (c : Char) : Bool := c.isAlphanum || c == '_'

def splitWord (cs : List Char) : Split :=
  let word := cs.takeWhile isWordRest
  (token (.ofWord (String.ofList word)) word, cs.dropWhile isWordRest)

def isBlank (c : Char) : Bool := c == ' ' || c == '\r' || c == '\t' || c == '\n'

/-- The marks that are a token whatever follows. -/
def mark? : Char → Option TokenType
  | '(' => some .leftParen
  | ')' => some .rightParen
  | '{' => some .leftBrace
  | '}' => some .rightBrace
  | ',' => some .comma
  | '.' => some .dot
  | '-' => some .minus
  | '+' => some .plus
  | ';' => some .semicolon
  | '*' => some .star
  | _ => none

/-- The marks that an equals sign extends, with the longer and the shorter kind. -/
def markWithEqual? : Char → Option (TokenType × TokenType)
  | '!' => some (.bangEqual, .bang)
  | '=' => some (.equalEqual, .equal)
  | '<' => some (.lessEqual, .less)
  | '>' => some (.greaterEqual, .greater)
  | _ => none

/-- The first piece of the text `c :: rest`. -/
def split (c : Char) (rest : List Char) : Split :=
  if isBlank c then (trivia [c], rest)
  else if c = '/' then splitSlash rest
  else if c = '"' then splitString rest
  else if c.isDigit then splitNumber (c :: rest)
  else if c.isAlpha then splitWord (c :: rest)
  else
    match mark? c, markWithEqual? c with
    | some type, _ => (token type [c], rest)
    | none, some (long, short) => splitMark c long short rest
    | none, none => (stray c, rest)

/-! ### No character is lost -/

theorem text_splitMark (c : Char) (long short : TokenType) (rest : List Char) :
    (splitMark c long short rest).1.text ++ (splitMark c long short rest).2 = c :: rest := by
  unfold splitMark; split <;> rfl

theorem text_splitSlash (rest : List Char) :
    (splitSlash rest).1.text ++ (splitSlash rest).2 = '/' :: rest := by
  unfold splitSlash; split
  · simp [text]
  · rfl

theorem text_splitString (rest : List Char) :
    (splitString rest).1.text ++ (splitString rest).2 = '"' :: rest := by
  unfold splitString; dsimp only; split
  · simp [text]
  · rename_i quote after h
    have := List.takeWhile_append_dropWhile (p := (· != '"')) (l := rest)
    rw [h] at this
    simp [text, this]

theorem text_splitNumber (cs : List Char) :
    (splitNumber cs).1.text ++ (splitNumber cs).2 = cs := by
  have whole := List.takeWhile_append_dropWhile (p := Char.isDigit) (l := cs)
  unfold splitNumber; dsimp only; split
  · rename_i d rest h
    rw [h] at whole
    split
    · simpa [text] using whole
    · exact whole
  · exact whole

theorem text_splitWord (cs : List Char) : (splitWord cs).1.text ++ (splitWord cs).2 = cs :=
  List.takeWhile_append_dropWhile

/-- A first piece and what follows it make up the text. -/
theorem text_split (c : Char) (rest : List Char) :
    (split c rest).1.text ++ (split c rest).2 = c :: rest := by
  unfold split
  split
  · rfl
  split
  · subst c; exact text_splitSlash rest
  split
  · subst c; exact text_splitString rest
  split
  · exact text_splitNumber _
  split
  · exact text_splitWord _
  split
  · rfl
  · exact text_splitMark _ _ _ _
  · rfl

theorem text_splitMark_ne_nil (c : Char) (long short : TokenType) (rest : List Char) :
    (splitMark c long short rest).1.text ≠ [] := by
  unfold splitMark; split <;> simp [text]

theorem text_splitSlash_ne_nil (rest : List Char) : (splitSlash rest).1.text ≠ [] := by
  unfold splitSlash; split <;> simp [text]

theorem text_splitString_ne_nil (rest : List Char) : (splitString rest).1.text ≠ [] := by
  unfold splitString; dsimp only; split <;> simp [text]

theorem text_splitNumber_ne_nil {c : Char} (rest : List Char) (h : c.isDigit = true) :
    (splitNumber (c :: rest)).1.text ≠ [] := by
  unfold splitNumber; dsimp only; split
  · split <;> simp [text, h]
  · simp [text, h]

theorem text_splitWord_ne_nil {c : Char} (rest : List Char) (h : c.isAlpha = true) :
    (splitWord (c :: rest)).1.text ≠ [] := by
  simp [splitWord, text, isWordRest, Char.isAlphanum, h]

theorem text_split_ne_nil (c : Char) (rest : List Char) : (split c rest).1.text ≠ [] := by
  unfold split
  split
  · exact List.cons_ne_nil _ _
  split
  · exact text_splitSlash_ne_nil rest
  split
  · exact text_splitString_ne_nil rest
  split
  · exact text_splitNumber_ne_nil _ ‹_›
  split
  · exact text_splitWord_ne_nil _ ‹_›
  split
  · exact List.cons_ne_nil _ _
  · exact text_splitMark_ne_nil _ _ _ _
  · exact List.cons_ne_nil _ _

theorem length_split_le (c : Char) (rest : List Char) : (split c rest).2.length ≤ rest.length := by
  have whole := congrArg List.length (text_split c rest)
  have := List.length_pos_iff.mpr (text_split_ne_nil c rest)
  simp only [List.length_append, List.length_cons] at whole
  omega

end Piece

end Lox
