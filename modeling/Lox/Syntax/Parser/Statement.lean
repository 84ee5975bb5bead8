import Lox.Syntax.Parser.Expression

/-!
# Parsers for statements and declarations

The keyword of a statement is read before its rule begins. A `for` loop is read as the `while` loop
that it stands for.
-/

namespace Lox.Syntax

/-! ### Statements -/

def expressionStatement (expression : Parse Expr) : Parse Stmt := do
  let e ← expression
  let _ ← expect .semicolon .unterminatedExpression
  pure (.expression e)

/-- The rest of a variable declaration after its keyword. -/
def variableDeclaration (r : Rules) : Parse Stmt := do
  let name ← expect .identifier .missingVariableName
  let initializer ← do
    match ← accept .equal with
    | none => pure none
    | some _ => some <$> r.expression
  let _ ← expect .semicolon .unterminatedVariable
  pure (.var name initializer)

def unlessNext (type : TokenType) (r : Rules) : Parse (Option Expr) := do
  if (← get).nextIs type then pure none else some <$> r.expression

/-- A loop with clauses as a `while` loop: the increment ends each round, and the initializer comes
first, in a block of its own. -/
def forLoop (initializer : Option Stmt) (condition increment : Option Expr) (body : Stmt) : Stmt :=
  let round :=
    match increment with
    | none => body
    | some e => .block [body, .expression e]
  let loop := Stmt.whileLoop (condition.getD (.literal (.bool true))) round
  match initializer with
  | none => loop
  | some s => .block [s, loop]

def forInitializer (r : Rules) : Parse (Option Stmt) := do
  match ← accept .semicolon with
  | some _ => pure none
  | none =>
    match ← accept .kwVar with
    | some _ => some <$> variableDeclaration r
    | none => some <$> expressionStatement r.expression

def forStatement (r : Rules) : Parse Stmt := do
  let _ ← expect .leftParen .unopenedForClauses
  let initializer ← forInitializer r
  let condition ← unlessNext .semicolon r
  let _ ← expect .semicolon .unterminatedLoopCondition
  let increment ← unlessNext .rightParen r
  let _ ← expect .rightParen .unclosedForClauses
  let body ← insideLoop r.statement
  pure (forLoop initializer condition increment body)

def ifStatement (r : Rules) : Parse Stmt := do
  let _ ← expect .leftParen .unopenedIfCondition
  let condition ← r.expression
  let _ ← expect .rightParen .unclosedIfCondition
  let thenBranch ← r.statement
  let elseBranch ← do
    match ← accept .kwElse with
    | none => pure none
    | some _ => some <$> r.statement
  pure (.ifElse condition thenBranch elseBranch)

def whileStatement (r : Rules) : Parse Stmt := do
  let _ ← expect .leftParen .unopenedWhileCondition
  let condition ← r.expression
  let _ ← expect .rightParen .unclosedWhileCondition
  let body ← insideLoop r.statement
  pure (.whileLoop condition body)

def returnStatement (keyword : Token) (r : Rules) : Parse Stmt := do
  let value ← unlessNext .semicolon r
  let _ ← expect .semicolon .unterminatedReturn
  pure (.returnFrom keyword value)

/-- The rest of a `break` after its keyword, which is reported outside a loop. -/
def breakStatement (keyword : Token) : Parse Stmt := do
  if (← get).loopDepth = 0 then
    report keyword .breakOutsideLoop
  let _ ← expect .semicolon .unterminatedBreak
  pure (.breakLoop keyword)

def printStatement (r : Rules) : Parse Stmt := do
  let e ← r.expression
  let _ ← expect .semicolon .unterminatedPrint
  pure (.print e)

/-- The keywords and the brace that begin a statement other than an expression. -/
def opensStatement : TokenType → Bool
  | .kwFor | .kwIf | .kwWhile | .kwReturn | .kwBreak | .leftBrace | .kwPrint => true
  | _ => false

def statement (r : Rules) : Parse Stmt := do
  match ← acceptIf opensStatement with
  | none => expressionStatement (assignment r)
  | some token =>
    match token.type with
    | .kwFor => forStatement r
    | .kwIf => ifStatement r
    | .kwWhile => whileStatement r
    | .kwReturn => returnStatement token r
    | .kwBreak => breakStatement token
    | .leftBrace => .block <$> block r
    | _ => printStatement r

/-! ### Declarations -/

def methods (r : Rules) : Nat → Parse (List FunctionDecl)
  | 0 => pure []
  | n + 1 => do
    let s ← get
    if s.atEnd || s.nextIs .rightBrace then pure []
    else
      let first ← function r .method
      let others ← methods r n
      pure (first :: others)

def classDeclaration (r : Rules) : Parse Stmt := do
  let name ← expect .identifier .missingClassName
  let superclass ← do
    match ← accept .less with
    | none => pure none
    | some _ =>
      let superName ← expect .identifier .missingSuperclassName
      some <$> newUse superName
  let _ ← expect .leftBrace .unopenedClassBody
  let members ← methods r r.rounds
  let _ ← expect .rightBrace .unclosedClassBody
  pure (.classDecl name superclass members)

/-- Whether a function declaration begins here: a name follows the keyword. -/
def ParseState.atFunction (s : ParseState) : Bool := s.nextIs .kwFun && s.secondIs .identifier

def declaration (r : Rules) : Parse Stmt := do
  if (← get).atFunction then
    let _ ← accept .kwFun
    .function <$> function r .function
  else
    match ← acceptIf fun type => type == .kwClass || type == .kwVar with
    | none => statement r
    | some token =>
      if token.type == .kwClass then classDeclaration r else variableDeclaration r

end Lox.Syntax
