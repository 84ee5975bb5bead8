import Lox.Syntax.Parser.Statement

/-!
# Parsing

Nested rules are entered after a token is read, so as many levels of rules as there are tokens are
enough. `parse`, `parsePrompt` and `parseExpression` choose that number.
-/

namespace Lox.Syntax

/-! ### Levels -/

def lastLevel : Rules where
  rounds := 1
  expression := raise .missingExpression
  statement := raise .missingExpression
  declaration := recover (raise .missingExpression)

def nextLevel (r : Rules) : Rules where
  rounds := r.rounds + 1
  expression := assignment r
  statement := statement r
  declaration := recover (declaration r)

/-- The rules for texts of at most `n` tokens. -/
def rules : Nat → Rules
  | 0 => lastLevel
  | n + 1 => nextLevel (rules n)

/-! ### Whole texts -/

/-- What a parser returned, with the errors that it reported and the next free number for a use. -/
structure Parsed (α : Type) where
  result : α
  errors : List SyntaxError
  nextId : Nat

/-- Runs a parser on tokens; uses are numbered from `firstId`. -/
def Total.run (p : Total α) (ts : TokenStream) (firstId : Nat) : Parsed α :=
  let (result, s) := p { rest := ts.body, endLine := ts.endLine, nextId := firstId }
  { result, errors := s.errors, nextId := s.nextId }

def program (n : Nat) : Total (List Stmt) := declarations (rules n) ParseState.atEnd n

/-- A program. Statements with a syntax error are left out. -/
def parse (ts : TokenStream) (firstId : Nat) : Parsed (List Stmt) :=
  (program ts.body.length).run ts firstId

/-- Whether a declaration or a statement other than an expression begins here. -/
def ParseState.atStatement (s : ParseState) : Bool :=
  match s.peek.type with
  | .kwClass | .kwVar | .kwFor | .kwIf | .kwWhile | .kwPrint | .kwReturn | .kwBreak
  | .leftBrace => true
  | .kwFun => s.secondIs .identifier
  | _ => false

/-- What `declaration` and `statement` tell from an expression, as they go through its beginning. -/
theorem ParseState.atStatement_eq (s : ParseState) :
    s.atStatement = (s.atFunction || s.nextIs .kwClass || s.nextIs .kwVar ||
      s.rest.head?.any (opensStatement ·.type)) := by
  unfold atStatement atFunction nextIs peek
  cases s.rest with
  | nil => rfl
  | cons t rest =>
    simp only [List.headD_cons, List.head?_cons, Option.any_some]
    cases t.type with
    | kwFun =>
      have none : (TokenType.kwFun == .kwClass || TokenType.kwFun == .kwVar) = false := by decide
      simp [opensStatement, Bool.or_assoc, none]
    | _ => simp [opensStatement]

/-- An expression at the end, or with its semicolon. -/
def promptExpression (r : Rules) : Parse Program := do
  let e ← assignment r
  if (← get).atEnd then pure { statements := [], trailing := some e }
  else
    let _ ← expect .semicolon .unterminatedExpression
    pure { statements := [.expression e] }

def promptItem (r : Rules) : Total Program := do
  if (← get).atStatement then
    let s ← recover (declaration r)
    pure { statements := s.toList }
  else
    let p ← recover (promptExpression r)
    pure (p.getD { statements := [] })

def promptItems (r : Rules) : Nat → Total Program
  | 0 => pure { statements := [] }
  | n + 1 => do
    if (← get).atEnd then pure { statements := [] }
    else
      let first ← promptItem r
      let others ← promptItems r n
      pure ⟨first.statements ++ others.statements, first.trailing <|> others.trailing⟩

/-- A prompt line: a program that may end in an expression without its semicolon. -/
def parsePrompt (ts : TokenStream) (firstId : Nat) : Parsed Program :=
  (promptItems (rules ts.body.length) ts.body.length).run ts firstId

/-- The expression that a text begins with, or the error that was raised. -/
def parseExpression (ts : TokenStream) (firstId : Nat) : Parsed (Except SyntaxError Expr) :=
  let p : Total (Except SyntaxError Expr) := fun s =>
    match assignment (rules ts.body.length) s with
    | .ok e s => (.ok e, s)
    | .error e s => (.error e, s)
  p.run ts firstId

end Lox.Syntax
