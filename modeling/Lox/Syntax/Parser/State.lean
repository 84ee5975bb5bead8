import Lox.Syntax
import Lox.Syntax.Error

/-!
# Reading tokens

A parser reads tokens from the front, hands out numbers for uses of names, and reports errors. An
error that is raised leaves the state as it was when it was raised; `recover` reports it and skips
to where the next statement seems to begin.
-/

namespace Lox.Syntax

/-- What is left to read, and what has been found. -/
structure ParseState where
  rest : List Token
  endLine : Nat
  /-- How many loop bodies of the current function enclose this place. -/
  loopDepth : Nat := 0
  /-- The number of the next use. -/
  nextId : Nat := 0
  errors : List SyntaxError := []

namespace ParseState

def peek (s : ParseState) : Token := s.rest.headD (.eof s.endLine)

def atEnd (s : ParseState) : Bool := s.rest.isEmpty

def nextIs (s : ParseState) (type : TokenType) : Bool := s.rest.head?.any (·.type == type)

def secondIs (s : ParseState) (type : TokenType) : Bool := s.rest[1]?.any (·.type == type)

def report (s : ParseState) (e : SyntaxError) : ParseState := { s with errors := s.errors ++ [e] }

end ParseState

def beginsStatement : TokenType → Bool
  | .kwClass | .kwFun | .kwVar | .kwFor | .kwIf | .kwWhile | .kwPrint | .kwReturn | .kwBreak => true
  | _ => false

/-- What is left from the next statement on, when `previous` was read last: a statement begins after
a semicolon and at its keyword. -/
def toBoundary (previous : Token) : List Token → List Token
  | [] => []
  | t :: rest =>
    if previous.type == .semicolon || beginsStatement t.type then t :: rest else toBoundary t rest

/-- What is left from the next statement on, after an error at the first token. -/
def synchronize : List Token → List Token
  | [] => []
  | t :: rest => toBoundary t rest

theorem toBoundary_suffix (previous : Token) (ts : List Token) : toBoundary previous ts <:+ ts := by
  induction ts generalizing previous with
  | nil => exact List.suffix_rfl
  | cons t rest ih =>
    unfold toBoundary
    split
    · exact List.suffix_rfl
    · exact (ih t).trans (List.suffix_cons t rest)

theorem synchronize_suffix (ts : List Token) : synchronize ts <:+ ts := by
  cases ts with
  | nil => exact List.suffix_rfl
  | cons t rest => exact (toBoundary_suffix t rest).trans (List.suffix_cons t rest)

abbrev Parse := EStateM SyntaxError ParseState

/-- A parser that reports all its errors. -/
abbrev Total := StateM ParseState

/-- Reads with `p`; an error that it raises is reported, and `none` stands for the result. -/
def recover (p : Parse α) : Total (Option α) := fun s =>
  match p s with
  | .ok a s => (some a, s)
  | .error e s => (none, { s.report e with rest := synchronize s.rest })

def Total.toParse (p : Total α) : Parse α := fun s =>
  let (a, s) := p s
  .ok a s

def acceptIf (test : TokenType → Bool) : Parse (Option Token) := fun s =>
  match s.rest with
  | [] => .ok none s
  | t :: rest => if test t.type then .ok (some t) { s with rest } else .ok none s

def accept (type : TokenType) : Parse (Option Token) := acceptIf (· == type)

/-- Raises an error at the next token. -/
def raise (fault : SyntaxFault) : Parse α := fun s => .error ⟨s.peek, fault⟩ s

def report (token : Token) (fault : SyntaxFault) : Parse Unit := fun s =>
  .ok () (s.report ⟨token, fault⟩)

def expect (type : TokenType) (fault : SyntaxFault) : Parse Token := do
  match ← accept type with
  | some t => pure t
  | none => raise fault

def newUse (name : Token) : Parse Use := fun s =>
  .ok ⟨s.nextId, name⟩ { s with nextId := s.nextId + 1 }

def insideLoop (p : Parse α) : Parse α := fun s =>
  match p { s with loopDepth := s.loopDepth + 1 } with
  | .ok a s => .ok a { s with loopDepth := s.loopDepth - 1 }
  | .error e s => .error e { s with loopDepth := s.loopDepth - 1 }

/-- Reads a function body with `p`: the loops around the function do not enclose it. -/
def insideFunction (p : Parse α) : Parse α := fun s =>
  match p { s with loopDepth := 0 } with
  | .ok a after => .ok a { after with loopDepth := s.loopDepth }
  | .error e after => .error e { after with loopDepth := s.loopDepth }

def maxArity : Nat := 255

/-- Reads an item; `count` items before it are as many as may be when `fault` is reported. -/
def limited (fault : SyntaxFault) (item : Parse α) (count : Nat) : Parse α := do
  if maxArity ≤ count then
    report (← get).peek fault
  item

/-- Reads a comma and an item as often as a comma follows, at most `n` times. -/
def moreItems (fault : SyntaxFault) (item : Parse α) : Nat → List α → Parse (List α)
  | 0, items => pure items
  | n + 1, items => do
    match ← accept .comma with
    | none => pure items
    | some _ =>
      let next ← limited fault item items.length
      moreItems fault item n (items ++ [next])

/-- Reads items between commas up to a closing parenthesis, which may follow at once; at most `n`
items follow the first. -/
def itemsBeforeParen (fault : SyntaxFault) (item : Parse α) (n : Nat) : Parse (List α) := do
  if (← get).nextIs .rightParen then pure []
  else
    let first ← item
    moreItems fault item n [first]

/-- Reads an operator and an operand as often as an operator follows, at most `n` times, and joins
them from the left. -/
def moreOperands (operators : TokenType → Bool) (join : Expr → Token → Expr → Expr)
    (operand : Parse Expr) : Nat → Expr → Parse Expr
  | 0, left => pure left
  | n + 1, left => do
    match ← acceptIf operators with
    | none => pure left
    | some operator =>
      let right ← operand
      moreOperands operators join operand n (join left operator right)

/-- Reads operands with operators between them that associate to the left; at most `n` operands
follow the first. -/
def leftAssociative (operators : TokenType → Bool) (join : Expr → Token → Expr → Expr)
    (operand : Parse Expr) (n : Nat) : Parse Expr := do
  let first ← operand
  moreOperands operators join operand n first

end Lox.Syntax
