import Lox.Text.Json
import Lox.Token

/-!
# Written tokens

A token as a line of a listing and as a JSON document.
-/

namespace Lox

/-- Whole numbers below `1e15` end in `.0`, and no exponent is ever written. -/
def Token.numberLayout : Decimal.Layout where
  wholeMark e := if e < 15 then ".0" else ""
  zeroSign := false

def TokenType.payloadText : TokenType → String
  | .string contents => contents
  | .number value => Token.numberLayout.write value
  | _ => "null"

def Token.display (t : Token) : String :=
  t.type.name ++ " " ++ t.lexeme ++ " " ++ t.type.payloadText

/-- A kind is a name, or an object that maps its name to the value it carries. -/
def TokenType.toJson (type : TokenType) : Text.Json :=
  match type with
  | .string contents => .object [(type.name, .string contents)]
  | .number value => .object [(type.name, .number value)]
  | _ => .string type.name

def Token.toJson (t : Token) : Text.Json :=
  .object [("token_type", t.type.toJson), ("lexeme", .string t.lexeme), ("line", .natural t.line)]

def Token.jsonListing (ts : List Token) : String :=
  (Text.Json.array (ts.map Token.toJson)).pretty 0

end Lox
