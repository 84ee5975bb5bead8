import Lox.Syntax.Parser.State

/-!
# Parsers for functions and expressions

Each rule of the grammar is a parser over the rules for what it nests. The later the rule of an
operator stands, the less tightly the operator binds.
-/

namespace Lox.Syntax

structure Rules where
  /-- How many rounds a loop one level up may make: no fewer than there are tokens there. -/
  rounds : Nat
  expression : Parse Expr
  statement : Parse Stmt
  /-- A declaration or a statement, if it has no syntax error. -/
  declaration : Total (Option Stmt)

/-! ### Functions -/

/-- Declarations up to a closing brace or the end, at most `n`. -/
def declarations (r : Rules) (stop : ParseState → Bool) : Nat → Total (List Stmt)
  | 0 => pure []
  | n + 1 => do
    if stop (← get) then pure []
    else
      let first ← r.declaration
      let others ← declarations r stop n
      pure (first.toList ++ others)

/-- The rest of a block after its opening brace. -/
def block (r : Rules) : Parse (List Stmt) := do
  let stop (s : ParseState) := s.atEnd || s.nextIs .rightBrace
  let body ← (declarations r stop r.rounds).toParse
  let _ ← expect .rightBrace .unclosedBlock
  pure body

def functionRest (r : Rules) (form : FunctionForm) : Parse (List Token × List Stmt) := do
  let _ ← expect .leftParen (.unopenedParameters form)
  let params ← itemsBeforeParen .tooManyParameters
    (expect .identifier .missingParameterName) r.rounds
  let _ ← expect .rightParen .unclosedParameters
  let _ ← expect .leftBrace (.unopenedBody form)
  let body ← insideFunction (block r)
  pure (params, body)

/-- A function from its name on. -/
def function (r : Rules) (form : FunctionForm) : Parse FunctionDecl := do
  let name ← expect .identifier (.missingFunctionName form)
  let (params, body) ← functionRest r form
  pure { name, params, body }

/-! ### Expressions -/

def single (e : Expr) : Parse Expr := fun s => .ok e { s with rest := s.rest.tail }

/-- A constant, a name, `this`, a method of the superclass, a function without a name, or an
expression between parentheses. -/
def primary (r : Rules) : Parse Expr := do
  let token := (← get).peek
  match token.type with
  | .kwFalse => single (.literal (.bool false))
  | .kwTrue => single (.literal (.bool true))
  | .kwNil => single (.literal .nil)
  | .number x => single (.literal (.number x))
  | .string contents => single (.literal (.string contents))
  | .kwThis => single (.this (← newUse token))
  | .identifier => single (.variable (← newUse token))
  | .kwSuper =>
    let _ ← accept .kwSuper
    let _ ← expect .dot .missingDotAfterSuper
    let method ← expect .identifier .missingSuperMethodName
    pure (.super (← newUse token) method)
  | .kwFun =>
    let _ ← accept .kwFun
    let (params, body) ← functionRest r .function
    pure (.lambda params body)
  | .leftParen =>
    let _ ← accept .leftParen
    let inner ← r.expression
    let _ ← expect .rightParen .unclosedGrouping
    pure (.grouping inner)
  | _ => raise .missingExpression

/-- The calls and properties that follow an expression, at most `n`. -/
def callRest (r : Rules) : Nat → Expr → Parse Expr
  | 0, e => pure e
  | n + 1, e => do
    match ← acceptIf fun type => type == .leftParen || type == .dot with
    | none => pure e
    | some mark =>
      if mark.type == .leftParen then
        let arguments ← itemsBeforeParen .tooManyArguments r.expression r.rounds
        let paren ← expect .rightParen .unclosedArguments
        callRest r n (.call e paren arguments)
      else
        let name ← expect .identifier .missingPropertyName
        callRest r n (.get e name)

def call (r : Rules) : Parse Expr := do
  let e ← primary r
  callRest r r.rounds e

def isUnary : TokenType → Bool
  | .bang | .minus => true
  | _ => false

/-- At most `n` operators before a call. -/
def unaryUpTo (r : Rules) : Nat → Parse Expr
  | 0 => call r
  | n + 1 => do
    match ← acceptIf isUnary with
    | none => call r
    | some operator =>
      let operand ← unaryUpTo r n
      pure (.unary operator operand)

def unary (r : Rules) : Parse Expr := unaryUpTo r r.rounds

def factor (r : Rules) : Parse Expr :=
  leftAssociative (fun type => type == .star || type == .slash) .binary (unary r) r.rounds

def term (r : Rules) : Parse Expr :=
  leftAssociative (fun type => type == .minus || type == .plus) .binary (factor r) r.rounds

def isComparison : TokenType → Bool
  | .greater | .greaterEqual | .less | .lessEqual => true
  | _ => false

def comparison (r : Rules) : Parse Expr :=
  leftAssociative isComparison .binary (term r) r.rounds

def equality (r : Rules) : Parse Expr :=
  leftAssociative (fun type => type == .bangEqual || type == .equalEqual) .binary (comparison r)
    r.rounds

def logicalAnd (r : Rules) : Parse Expr :=
  leftAssociative (· == .kwAnd) .logical (equality r) r.rounds

def logicalOr (r : Rules) : Parse Expr :=
  leftAssociative (· == .kwOr) .logical (logicalAnd r) r.rounds

/-- An assignment to what was read as an expression: a variable or a property. -/
def assignTo? (value : Expr) : Expr → Option Expr
  | .variable use => some (.assign use value)
  | .get object name => some (.set object name value)
  | _ => none

/-- An assignment, or an expression without one. A target that cannot be assigned to is reported and
stays alone. -/
def assignment (r : Rules) : Parse Expr := do
  let target ← logicalOr r
  match ← accept .equal with
  | none => pure target
  | some equals =>
    let value ← r.expression
    match assignTo? value target with
    | some e => pure e
    | none =>
      report equals .invalidAssignmentTarget
      pure target

end Lox.Syntax
