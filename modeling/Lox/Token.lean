/-!
# Tokens

The words of the language: marks, literals, names, keywords and the end of the input.
-/

namespace Lox

/-- The kinds of token; string and number tokens carry the value that they denote. -/
inductive TokenType where
  | leftParen | rightParen | leftBrace | rightBrace
  | comma | dot | minus | plus | semicolon | slash | star
  | bang | bangEqual | equal | equalEqual
  | greater | greaterEqual | less | lessEqual
  | identifier
  | string (contents : String)
  | number (value : Float)
  | kwAnd | kwBreak | kwClass | kwElse | kwFalse | kwFun | kwFor | kwIf | kwNil | kwOr
  | kwPrint | kwReturn | kwSuper | kwThis | kwTrue | kwVar | kwWhile
  | eof
  deriving DecidableEq, Repr, Inhabited

namespace TokenType

def name : TokenType → String
  | .leftParen => "LEFT_PAREN"
  | .rightParen => "RIGHT_PAREN"
  | .leftBrace => "LEFT_BRACE"
  | .rightBrace => "RIGHT_BRACE"
  | .comma => "COMMA"
  | .dot => "DOT"
  | .minus => "MINUS"
  | .plus => "PLUS"
  | .semicolon => "SEMICOLON"
  | .slash => "SLASH"
  | .star => "STAR"
  | .bang => "BANG"
  | .bangEqual => "BANG_EQUAL"
  | .equal => "EQUAL"
  | .equalEqual => "EQUAL_EQUAL"
  | .greater => "GREATER"
  | .greaterEqual => "GREATER_EQUAL"
  | .less => "LESS"
  | .lessEqual => "LESS_EQUAL"
  | .identifier => "IDENTIFIER"
  | .string _ => "STRING"
  | .number _ => "NUMBER"
  | .kwAnd => "AND"
  | .kwBreak => "BREAK"
  | .kwClass => "CLASS"
  | .kwElse => "ELSE"
  | .kwFalse => "FALSE"
  | .kwFun => "FUN"
  | .kwFor => "FOR"
  | .kwIf => "IF"
  | .kwNil => "NIL"
  | .kwOr => "OR"
  | .kwPrint => "PRINT"
  | .kwReturn => "RETURN"
  | .kwSuper => "SUPER"
  | .kwThis => "THIS"
  | .kwTrue => "TRUE"
  | .kwVar => "VAR"
  | .kwWhile => "WHILE"
  | .eof => "EOF"

def keywords : List (String × TokenType) :=
  [("and", kwAnd), ("break", kwBreak), ("class", kwClass), ("else", kwElse), ("false", kwFalse),
   ("fun", kwFun), ("for", kwFor), ("if", kwIf), ("nil", kwNil), ("or", kwOr), ("print", kwPrint),
   ("return", kwReturn), ("super", kwSuper), ("this", kwThis), ("true", kwTrue), ("var", kwVar),
   ("while", kwWhile)]

/-- The kind of a word: a keyword where the whole word spells one, else a name. -/
def ofWord (word : String) : TokenType :=
  (keywords.lookup word).getD identifier

def ofName? (name : String) : Option TokenType :=
  let marks :=
    [leftParen, rightParen, leftBrace, rightBrace, comma, dot, minus, plus, semicolon, slash, star,
     bang, bangEqual, equal, equalEqual, greater, greaterEqual, less, lessEqual, identifier,
     string "", number 0, eof]
  (marks ++ keywords.map Prod.snd).find? (·.name == name)

/-- Whether two kinds agree up to their payloads. -/
def sameKind (a b : TokenType) : Bool := a.ctorIdx == b.ctorIdx

theorem sameKind_refl (a : TokenType) : a.sameKind a = true := by simp [sameKind]

end TokenType

/-- A word of the source with the line on which it ends. -/
structure Token where
  type : TokenType
  lexeme : String
  line : Nat
  deriving DecidableEq, Repr, Inhabited

namespace Token

/-- Equality of tokens does not look at payloads. -/
def same (a b : Token) : Bool :=
  a.type.sameKind b.type && a.lexeme == b.lexeme && a.line == b.line

theorem same_refl (a : Token) : a.same a = true := by simp [same, TokenType.sameKind_refl]

/-- The token that ends a text whose last line is `line`. -/
def eof (line : Nat) : Token := ⟨.eof, "", line⟩

end Token

/-- The tokens of a source text; the end is a token of its own, after those of `body`. -/
structure TokenStream where
  body : List Token
  /-- The last line of the text. -/
  endLine : Nat
  deriving DecidableEq, Repr, Inhabited

namespace TokenStream

/-- A list of tokens as a stream; the last token is the one that ends it. -/
def ofList (ts : List Token) : TokenStream where
  body := ts.dropLast
  endLine := (ts.getLast?.map Token.line).getD 1

def toList (ts : TokenStream) : List Token := ts.body ++ [.eof ts.endLine]

end TokenStream

end Lox
