import Lox.Decimal.Layout

/-!
# JSON texts

Documents whose scalars are texts and numbers, on one line or indented by two blanks a level.
-/

namespace Lox.Text

/-- A JSON document. The fields of an object keep their order. -/
inductive Json where
  | string (s : String)
  | natural (n : Nat)
  | number (x : Float)
  | array (elements : List Json)
  | object (fields : List (String × Json))

namespace Json

/-- The shortest digits that read back, of two the one with an even last digit; positional from
`0.00001` to below `1e+16`. -/
def numberLayout : Decimal.Layout where
  positional e := decide (-5 ≤ e ∧ e ≤ 15)
  wholeMark _ := ".0"
  tieUp lower := lower % 2 == 1

/-- A number's text; JSON has none for what is not finite. -/
def writeNumber (x : Float) : String :=
  if x.isFinite then numberLayout.write x else "null"

def escapeCode (c : Char) : List Char :=
  let digits := Nat.toDigits 16 c.toNat
  '\\' :: 'u' :: (List.replicate (4 - digits.length) '0' ++ digits)

def escape (c : Char) : List Char :=
  match c with
  | '"' => ['\\', '"']
  | '\\' => ['\\', '\\']
  | '\n' => ['\\', 'n']
  | '\r' => ['\\', 'r']
  | '\t' => ['\\', 't']
  | '\x08' => ['\\', 'b']
  | '\x0c' => ['\\', 'f']
  | _ => if c.toNat < 0x20 then escapeCode c else [c]

def quote (s : String) : String :=
  String.ofList ('"' :: (s.toList.flatMap escape ++ ['"']))

mutual

def compact : Json → String
  | string s => quote s
  | natural n => toString n
  | number x => writeNumber x
  | array elements => "[" ++ ",".intercalate (compactElements elements) ++ "]"
  | object fields => "\x7b" ++ ",".intercalate (compactFields fields) ++ "\x7d"

def compactElements : List Json → List String
  | [] => []
  | j :: js => compact j :: compactElements js

def compactFields : List (String × Json) → List String
  | [] => []
  | (key, j) :: js => (quote key ++ ":" ++ compact j) :: compactFields js

end

def newLine (depth : Nat) : String := "\n" ++ String.ofList (List.replicate (2 * depth) ' ')

def bracketed (depth : Nat) (opening : String) (parts : List String) (closing : String) : String :=
  if parts.isEmpty then opening ++ closing
  else
    opening ++ newLine (depth + 1) ++ ("," ++ newLine (depth + 1)).intercalate parts
      ++ newLine depth ++ closing

mutual

/-- A document over several lines, its first line at `depth`. -/
def pretty (depth : Nat) : Json → String
  | string s => quote s
  | natural n => toString n
  | number x => writeNumber x
  | array elements => bracketed depth "[" (prettyElements (depth + 1) elements) "]"
  | object fields => bracketed depth "\x7b" (prettyFields (depth + 1) fields) "\x7d"

def prettyElements (depth : Nat) : List Json → List String
  | [] => []
  | j :: js => pretty depth j :: prettyElements depth js

def prettyFields (depth : Nat) : List (String × Json) → List String
  | [] => []
  | (key, j) :: js => (quote key ++ ": " ++ pretty depth j) :: prettyFields depth js

end

end Json

end Lox.Text
