import Lox.Syntax.Parser.State

/-!
# The grammar

The rules of the language as data, the phrases that they allow, and the tree that each phrase stands
for. Nothing here says how a text is read.
-/

namespace Lox.Grammar

open Syntax (maxArity)

inductive ExprSymbol where
  | expression | assignment | logicOr | logicAnd | equality | comparison | term | factor | unary
  | call | primary
  deriving DecidableEq

inductive Symbol where
  | program | declaration | classDecl | funDecl | varDecl
  | statement | exprStmt | forStmt | ifStmt | printStmt | returnStmt | whileStmt | breakStmt
  | function | block | parameters | arguments
  | expr (symbol : ExprSymbol)
  deriving DecidableEq

inductive Form where
  | token (fits : TokenType → Bool)
  | rule (symbol : Symbol)
  | seq (first second : Form)
  | either (left right : Form)
  | optional (form : Form)
  | many (form : Form)

abbrev Form.oneOf (types : List TokenType) : Form := .token fun type => types.contains type

abbrev Form.only (type : TokenType) : Form := .oneOf [type]

def isNumber : TokenType → Bool
  | .number _ => true
  | _ => false

def isString : TokenType → Bool
  | .string _ => true
  | _ => false

abbrev Form.chain (operand : ExprSymbol) (operators : List TokenType) : Form :=
  .seq (.rule (.expr operand)) (.many (.seq (.oneOf operators) (.rule (.expr operand))))

open Form in
def ExprSymbol.form : ExprSymbol → Form
  | .expression => .rule (.expr .assignment)
  | .assignment =>
    .either
      (.seq (.optional (.seq (.rule (.expr .call)) (only .dot))) <| .seq (only .identifier) <|
        .seq (only .equal) (.rule (.expr .assignment)))
      (.rule (.expr .logicOr))
  | .logicOr => chain .logicAnd [.kwOr]
  | .logicAnd => chain .equality [.kwAnd]
  | .equality => chain .comparison [.bangEqual, .equalEqual]
  | .comparison => chain .term [.greater, .greaterEqual, .less, .lessEqual]
  | .term => chain .factor [.minus, .plus]
  | .factor => chain .unary [.slash, .star]
  | .unary =>
    .either (.seq (oneOf [.bang, .minus]) (.rule (.expr .unary))) (.rule (.expr .call))
  | .call =>
    .seq (.rule (.expr .primary)) <| .many <| .either
      (.seq (only .leftParen) <| .seq (.optional (.rule .arguments)) (only .rightParen))
      (.seq (only .dot) (only .identifier))
  | .primary =>
    .either (.token fun type => isNumber type || isString type
      || [.kwTrue, .kwFalse, .kwNil, .kwThis, .identifier].contains type) <|
    .either (.seq (only .leftParen) <| .seq (.rule (.expr .expression)) (only .rightParen)) <|
    .either (.seq (only .kwSuper) <| .seq (only .dot) (only .identifier))
      (.seq (only .kwFun) <| .seq (only .leftParen) <| .seq (.optional (.rule .parameters)) <|
        .seq (only .rightParen) (.rule .block))

open Form in
def Symbol.form : Symbol → Form
  | .program => .many (.rule .declaration)
  | .declaration =>
    .either (.rule .classDecl) <| .either (.rule .funDecl) <| .either (.rule .varDecl)
      (.rule .statement)
  | .classDecl =>
    .seq (only .kwClass) <| .seq (only .identifier) <|
      .seq (.optional (.seq (only .less) (only .identifier))) <|
      .seq (only .leftBrace) <| .seq (.many (.rule .function)) (only .rightBrace)
  | .funDecl => .seq (only .kwFun) (.rule .function)
  | .varDecl =>
    .seq (only .kwVar) <| .seq (only .identifier) <|
      .seq (.optional (.seq (only .equal) (.rule (.expr .expression)))) (only .semicolon)
  | .statement =>
    .either (.rule .exprStmt) <| .either (.rule .forStmt) <| .either (.rule .ifStmt) <|
      .either (.rule .printStmt) <| .either (.rule .returnStmt) <| .either (.rule .whileStmt) <|
      .either (.rule .breakStmt) (.rule .block)
  | .exprStmt => .seq (.rule (.expr .expression)) (only .semicolon)
  | .forStmt =>
    .seq (only .kwFor) <| .seq (only .leftParen) <|
      .seq (.either (.rule .varDecl) <| .either (.rule .exprStmt) (only .semicolon)) <|
      .seq (.optional (.rule (.expr .expression))) <| .seq (only .semicolon) <|
      .seq (.optional (.rule (.expr .expression))) <| .seq (only .rightParen) (.rule .statement)
  | .ifStmt =>
    .seq (only .kwIf) <| .seq (only .leftParen) <| .seq (.rule (.expr .expression)) <|
      .seq (only .rightParen) <| .seq (.rule .statement) <|
      .optional (.seq (only .kwElse) (.rule .statement))
  | .printStmt => .seq (only .kwPrint) <| .seq (.rule (.expr .expression)) (only .semicolon)
  | .returnStmt =>
    .seq (only .kwReturn) <| .seq (.optional (.rule (.expr .expression))) (only .semicolon)
  | .whileStmt =>
    .seq (only .kwWhile) <| .seq (only .leftParen) <| .seq (.rule (.expr .expression)) <|
      .seq (only .rightParen) (.rule .statement)
  | .breakStmt => .seq (only .kwBreak) (only .semicolon)
  | .function =>
    .seq (only .identifier) <| .seq (only .leftParen) <| .seq (.optional (.rule .parameters)) <|
      .seq (only .rightParen) (.rule .block)
  | .block => .seq (only .leftBrace) <| .seq (.many (.rule .declaration)) (only .rightBrace)
  | .parameters =>
    .seq (only .identifier) (.many (.seq (only .comma) (only .identifier)))
  | .arguments =>
    .seq (.rule (.expr .expression)) (.many (.seq (only .comma) (.rule (.expr .expression))))
  | .expr symbol => symbol.form

inductive Phrase : Form → Type where
  | token {fits : TokenType → Bool} (t : Token) (h : fits t.type = true) : Phrase (.token fits)
  | rule {n : Symbol} (p : Phrase n.form) : Phrase (.rule n)
  | seq {f g : Form} (p : Phrase f) (q : Phrase g) : Phrase (.seq f g)
  | left {f g : Form} (p : Phrase f) : Phrase (.either f g)
  | right {f g : Form} (q : Phrase g) : Phrase (.either f g)
  | none {f : Form} : Phrase (.optional f)
  | some {f : Form} (p : Phrase f) : Phrase (.optional f)
  | nil {f : Form} : Phrase (.many f)
  | cons {f : Form} (p : Phrase f) (ps : Phrase (.many f)) : Phrase (.many f)

namespace Phrase

abbrev only {t : Token} {type : TokenType} (h : t.type = type) : Phrase (.only type) :=
  .token t (by simp [h])

def tokens : Phrase f → List Token
  | .token t _ => [t]
  | .rule p => p.tokens
  | .seq p q => p.tokens ++ q.tokens
  | .left p => p.tokens
  | .right q => q.tokens
  | .none => []
  | .some p => p.tokens
  | .nil => []
  | .cons p ps => p.tokens ++ ps.tokens

/-- The repeated parts of a phrase, apart from those inside its symbols. -/
def repeats : Phrase f → Nat
  | .token _ _ => 0
  | .rule _ => 0
  | .seq p q => p.repeats + q.repeats
  | .left p => p.repeats
  | .right q => q.repeats
  | .none => 0
  | .some p => p.repeats
  | .nil => 0
  | .cons _ ps => ps.repeats + 1

/-- No list of parameters or arguments is too long. -/
def WithinArity : Phrase f → Prop
  | .token _ _ => True
  | .rule (n := n) p =>
    ((n = .parameters ∨ n = .arguments) → p.repeats + 1 ≤ maxArity) ∧ p.WithinArity
  | .seq p q => p.WithinArity ∧ q.WithinArity
  | .left p => p.WithinArity
  | .right q => q.WithinArity
  | .none => True
  | .some p => p.WithinArity
  | .nil => True
  | .cons p ps => p.WithinArity ∧ ps.WithinArity

end Phrase

/-- Whether the statements directly inside a symbol are in a loop of the same function body. A
primary expression has statements only inside a function without a name. -/
def Symbol.inLoop (around : Bool) : Symbol → Bool
  | .forStmt | .whileStmt => true
  | .function | .expr .primary => false
  | _ => around

namespace Phrase

/-- Each `break` is in a loop of its function body; `around` says whether the phrase is in one. -/
def BreaksInLoops (around : Bool) : Phrase f → Prop
  | .token _ _ => True
  | .rule (n := n) p =>
    (n = .breakStmt → around = true) ∧ p.BreaksInLoops (n.inLoop around)
  | .seq p q => p.BreaksInLoops around ∧ q.BreaksInLoops around
  | .left p => p.BreaksInLoops around
  | .right q => q.BreaksInLoops around
  | .none => True
  | .some p => p.BreaksInLoops around
  | .nil => True
  | .cons p ps => p.BreaksInLoops around ∧ ps.BreaksInLoops around

end Phrase

def beginsElse : List Token → Bool
  | [] => false
  | t :: _ => t.type == .kwElse

def Form.isElse : Form → Bool
  | .seq (.token fits) (.rule .statement) => fits .kwElse
  | _ => false

namespace Phrase

/-- Whether an `if` that could still get an `else` ends the phrase. -/
def EndsOpen : Phrase f → Prop
  | .token _ _ => False
  | .rule p => p.EndsOpen
  | .seq p q => q.EndsOpen ∨ (q.tokens = [] ∧ p.EndsOpen)
  | .left p => p.EndsOpen
  | .right q => q.EndsOpen
  | .none (f := f) => f.isElse = true
  | .some p => p.EndsOpen
  | .nil => False
  | .cons p ps => ps.EndsOpen ∨ (ps.tokens = [] ∧ p.EndsOpen)

/-- Each `else` belongs to the nearest `if` that could get it: nothing that ends in an open `if`
stands before it. -/
def NearestElse : Phrase f → Prop
  | .token _ _ => True
  | .rule p => p.NearestElse
  | .seq p q => p.NearestElse ∧ q.NearestElse ∧
      (beginsElse q.tokens = true → ¬ p.EndsOpen)
  | .left p => p.NearestElse
  | .right q => q.NearestElse
  | .none => True
  | .some p => p.NearestElse
  | .nil => True
  | .cons p ps => p.NearestElse ∧ ps.NearestElse

end Phrase

end Lox.Grammar
