import Lox.Proofs.Grammar.Rules

/-!
# Trees of phrases

The tree that a phrase stands for. Uses of names are numbered from left to right as they stand in
the text.
-/

namespace Lox.Grammar

/-- A tree whose uses are numbered from a given number on, with the next free number. -/
abbrev Numbered := StateM Nat

def use (name : Token) : Numbered Use := fun i => (⟨i, name⟩, i + 1)

abbrev Symbol.Value : Symbol → Type
  | .program | .block => List Stmt
  | .function => FunctionDecl
  | .parameters => List Token
  | .arguments => List Expr
  | .expr _ => Expr
  | .declaration | .classDecl | .funDecl | .varDecl | .statement | .exprStmt | .forStmt | .ifStmt
  | .printStmt | .returnStmt | .whileStmt | .breakStmt => Stmt

@[reducible]
def Form.Value : Form → Type
  | .token _ => Token
  | .rule n => Numbered n.Value
  | .seq f g => f.Value × g.Value
  | .either f g => f.Value ⊕ g.Value
  | .optional f => Option f.Value
  | .many f => List f.Value

def inOrder : List (Numbered α) → Numbered (List α)
  | [] => pure []
  | t :: ts => do
    let first ← t
    let others ← inOrder ts
    pure (first :: others)

theorem inOrder_pure (items : List α) : inOrder (items.map pure) = (pure items : Numbered _) := by
  induction items with
  | nil => rfl
  | cons item items ih => rw [List.map_cons, inOrder, ih, pure_bind, pure_bind]

def orNone : Option (Numbered α) → Numbered (Option α)
  | none => pure none
  | some t => some <$> t

def joinLeft (join : Expr → Token → Expr → Expr) (left : Expr) :
    List (Token × Numbered Expr) → Numbered Expr
  | [] => pure left
  | (operator, operand) :: rest => do
    let right ← operand
    joinLeft join (join left operator right) rest

def chainTree (join : Expr → Token → Expr → Expr) :
    Numbered Expr × List (Token × Numbered Expr) → Numbered Expr
  | (first, rest) => do
    let left ← first
    joinLeft join left rest

/-- The `while` loop that a `for` loop stands for. -/
def whileForm : Option Stmt → Option Expr → Option Expr → Stmt → Stmt
  | none, none, none, body => .whileLoop (.literal (.bool true)) body
  | none, none, some i, body => .whileLoop (.literal (.bool true)) (.block [body, .expression i])
  | none, some c, none, body => .whileLoop c body
  | none, some c, some i, body => .whileLoop c (.block [body, .expression i])
  | some s, none, none, body => .block [s, .whileLoop (.literal (.bool true)) body]
  | some s, none, some i, body =>
    .block [s, .whileLoop (.literal (.bool true)) (.block [body, .expression i])]
  | some s, some c, none, body => .block [s, .whileLoop c body]
  | some s, some c, some i, body => .block [s, .whileLoop c (.block [body, .expression i])]

def firstClause : Numbered Stmt ⊕ Numbered Stmt ⊕ Token → Numbered (Option Stmt)
  | .inl s => some <$> s
  | .inr (.inl s) => some <$> s
  | .inr (.inr _) => pure none

def wordTree (t : Token) : Numbered Expr :=
  match t.type with
  | .number x => pure (.literal (.number x))
  | .string s => pure (.literal (.string s))
  | .kwTrue => pure (.literal (.bool true))
  | .kwFalse => pure (.literal (.bool false))
  | .kwThis => .this <$> use t
  | .identifier => .variable <$> use t
  | _ => pure (.literal .nil)

abbrev CallParts :=
  List ((Token × Option (Numbered (List Expr)) × Token) ⊕ (Token × Token))

/-- Calls and properties nest to the left. -/
def callTree (e : Expr) : CallParts → Numbered Expr
  | [] => pure e
  | .inl (_, arguments, paren) :: rest => do
    let arguments ← orNone arguments
    callTree (.call e paren (arguments.getD [])) rest
  | .inr (_, name) :: rest => callTree (.get e name) rest

def functionParts (params : Option (Numbered (List Token))) (body : Numbered (List Stmt)) :
    Numbered (List Token × List Stmt) := do
  let params ← orNone params
  let body ← body
  pure (params.getD [], body)

def ExprSymbol.tree : (n : ExprSymbol) → n.form.Value → Numbered Expr
  | .expression, e => e
  | .assignment, .inl (none, name, _, value) => do
    let target ← use name
    let value ← value
    pure (.assign target value)
  | .assignment, .inl (some (object, _), name, _, value) => do
    let object ← object
    let value ← value
    pure (.set object name value)
  | .assignment, .inr e => e
  | .logicOr, parts => chainTree .logical parts
  | .logicAnd, parts => chainTree .logical parts
  | .equality, parts => chainTree .binary parts
  | .comparison, parts => chainTree .binary parts
  | .term, parts => chainTree .binary parts
  | .factor, parts => chainTree .binary parts
  | .unary, .inl (operator, operand) => do
    let operand ← operand
    pure (.unary operator operand)
  | .unary, .inr e => e
  | .call, (first, rest) => do
    let e ← first
    callTree e rest
  | .primary, .inl t => wordTree t
  | .primary, .inr (.inl (_, inner, _)) => .grouping <$> inner
  | .primary, .inr (.inr (.inl (keyword, _, method))) => do
    let keyword ← use keyword
    pure (.super keyword method)
  | .primary, .inr (.inr (.inr (_, _, params, _, body))) => do
    let (params, body) ← functionParts params body
    pure (.lambda params body)

def Symbol.tree : (n : Symbol) → n.form.Value → Numbered n.Value
  | .program, declarations => inOrder declarations
  | .declaration, .inl s => s
  | .declaration, .inr (.inl s) => s
  | .declaration, .inr (.inr (.inl s)) => s
  | .declaration, .inr (.inr (.inr s)) => s
  | .classDecl, (_, name, superclass, _, methods, _) => do
    let superclass ← orNone (superclass.map fun (_, superName) => use superName)
    let methods ← inOrder methods
    pure (.classDecl name superclass methods)
  | .funDecl, (_, f) => .function <$> f
  | .varDecl, (_, name, initializer, _) => do
    let initializer ← orNone (initializer.map fun (_, e) => e)
    pure (.var name initializer)
  | .statement, .inl s => s
  | .statement, .inr (.inl s) => s
  | .statement, .inr (.inr (.inl s)) => s
  | .statement, .inr (.inr (.inr (.inl s))) => s
  | .statement, .inr (.inr (.inr (.inr (.inl s)))) => s
  | .statement, .inr (.inr (.inr (.inr (.inr (.inl s))))) => s
  | .statement, .inr (.inr (.inr (.inr (.inr (.inr (.inl s)))))) => s
  | .statement, .inr (.inr (.inr (.inr (.inr (.inr (.inr ss)))))) => .block <$> ss
  | .exprStmt, (e, _) => .expression <$> e
  | .forStmt, (_, _, initializer, condition, _, increment, _, body) => do
    let initializer ← firstClause initializer
    let condition ← orNone condition
    let increment ← orNone increment
    let body ← body
    pure (whileForm initializer condition increment body)
  | .ifStmt, (_, _, condition, _, thenBranch, elseBranch) => do
    let condition ← condition
    let thenBranch ← thenBranch
    let elseBranch ← orNone (elseBranch.map fun (_, s) => s)
    pure (.ifElse condition thenBranch elseBranch)
  | .printStmt, (_, e, _) => .print <$> e
  | .returnStmt, (keyword, value, _) => .returnFrom keyword <$> orNone value
  | .whileStmt, (_, _, condition, _, body) => do
    let condition ← condition
    let body ← body
    pure (.whileLoop condition body)
  | .breakStmt, (keyword, _) => pure (.breakLoop keyword)
  | .function, (name, _, params, _, body) => do
    let (params, body) ← functionParts params body
    pure { name, params, body }
  | .block, (_, declarations, _) => inOrder declarations
  | .parameters, (first, rest) => pure (first :: rest.map fun (_, name) => name)
  | .arguments, (first, rest) => inOrder (first :: rest.map fun (_, e) => e)
  | .expr n, parts => n.tree parts

def Phrase.value : Phrase f → f.Value
  | .token t _ => t
  | .rule (n := n) p => n.tree p.value
  | .seq p q => (p.value, q.value)
  | .left p => .inl p.value
  | .right q => .inr q.value
  | .none => Option.none
  | .some p => Option.some p.value
  | .nil => []
  | .cons p ps => p.value :: ps.value

end Lox.Grammar
