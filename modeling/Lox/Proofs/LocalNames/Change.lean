import Lox.Resolution

/-!
# Changing the name of a local variable

A variable or parameter of a local scope gets another name where it is declared and at those uses
whose distance leads to its scope. `Program.changeName` does nothing else.
-/

namespace Lox

/-- Where a part stands in a program: its position in the part around it, the position of that part,
and so on outwards. -/
abbrev Place := List Nat

/-- A variable or parameter, known by the place of its scope, and its new name. -/
structure NameChange where
  scope : Place
  old : String
  new : String

def Stmt.isVar (x : String) : Stmt → Bool
  | .var name _ => name.lexeme == x
  | _ => false

namespace NameChange

variable (c : NameChange)

def declaredBy (params : List Token) (body : List Stmt) : Bool :=
  params.any (·.lexeme == c.old) || body.any (·.isVar c.old)

/-- The distance to the scope of the variable from inside a scope at a place, if any leads there. -/
def enter (place : Place) (outside : Option Nat) (params : List Token) (body : List Stmt) :
    Option Nat :=
  match outside with
  | some d => some (d + 1)
  | none => if place = c.scope ∧ c.declaredBy params body = true then some 0 else none

def declare (depth : Option Nat) (name : Token) : Token :=
  if depth = some 0 ∧ name.lexeme = c.old then { name with lexeme := c.new } else name

def refer (ds : Distances) (depth : Option Nat) (use : Use) : Use :=
  if depth.isSome ∧ ds[use.id]? = depth ∧ use.name.lexeme = c.old then
    { use with name := { use.name with lexeme := c.new } }
  else use

end NameChange

variable (c : NameChange) (ds : Distances)

mutual

def Expr.changeName (place : Place) (depth : Option Nat) : Expr → Expr
  | .literal value => .literal value
  | .grouping inner => .grouping (inner.changeName (0 :: place) depth)
  | .unary operator operand => .unary operator (operand.changeName (0 :: place) depth)
  | .binary left operator right =>
    .binary (left.changeName (0 :: place) depth) operator (right.changeName (1 :: place) depth)
  | .logical left operator right =>
    .logical (left.changeName (0 :: place) depth) operator (right.changeName (1 :: place) depth)
  | .variable use => .variable (c.refer ds depth use)
  | .assign target value =>
    .assign (c.refer ds depth target) (value.changeName (0 :: place) depth)
  | .this use => .this use
  | .super use method => .super use method
  | .call callee paren arguments =>
    .call (callee.changeName (0 :: place) depth) paren
      (Expr.changeNameAll place depth 1 arguments)
  | .get object name => .get (object.changeName (0 :: place) depth) name
  | .set object name value =>
    .set (object.changeName (0 :: place) depth) name (value.changeName (1 :: place) depth)
  | .lambda params body =>
    .lambda (params.map (c.declare (c.enter place depth params body)))
      (Stmt.changeNameAll place (c.enter place depth params body) 0 body)
termination_by structural e => e

/-- The change in expressions, the first of which is the `i`-th part of the place. -/
def Expr.changeNameAll (place : Place) (depth : Option Nat) (i : Nat) : List Expr → List Expr
  | [] => []
  | e :: es => e.changeName (i :: place) depth :: Expr.changeNameAll place depth (i + 1) es
termination_by structural es => es

def FunctionDecl.changeName (place : Place) (depth : Option Nat) : FunctionDecl → FunctionDecl
  | ⟨name, params, body⟩ =>
    ⟨name, params.map (c.declare (c.enter place depth params body)),
      Stmt.changeNameAll place (c.enter place depth params body) 0 body⟩
termination_by structural f => f

def FunctionDecl.changeNameAll (place : Place) (depth : Option Nat) (i : Nat) :
    List FunctionDecl → List FunctionDecl
  | [] => []
  | f :: fs =>
    f.changeName (i :: place) depth :: FunctionDecl.changeNameAll place depth (i + 1) fs
termination_by structural fs => fs

/-- The names of functions and classes stay. A method stands in a scope that holds `this`, and that
of a derived class in one that holds `super` as well. -/
def Stmt.changeName (place : Place) (depth : Option Nat) : Stmt → Stmt
  | .expression e => .expression (e.changeName (0 :: place) depth)
  | .print e => .print (e.changeName (0 :: place) depth)
  | .var name none => .var (c.declare depth name) none
  | .var name (some e) => .var (c.declare depth name) (some (e.changeName (0 :: place) depth))
  | .block body => .block (Stmt.changeNameAll place (c.enter place depth [] body) 0 body)
  | .ifElse condition thenBranch none =>
    .ifElse (condition.changeName (0 :: place) depth) (thenBranch.changeName (1 :: place) depth)
      none
  | .ifElse condition thenBranch (some elseBranch) =>
    .ifElse (condition.changeName (0 :: place) depth) (thenBranch.changeName (1 :: place) depth)
      (some (elseBranch.changeName (2 :: place) depth))
  | .whileLoop condition body =>
    .whileLoop (condition.changeName (0 :: place) depth) (body.changeName (1 :: place) depth)
  | .breakLoop keyword => .breakLoop keyword
  | .returnFrom keyword none => .returnFrom keyword none
  | .returnFrom keyword (some e) => .returnFrom keyword (some (e.changeName (0 :: place) depth))
  | .function declaration => .function (declaration.changeName place depth)
  | .classDecl name none methods =>
    .classDecl name none (FunctionDecl.changeNameAll place (depth.map (· + 1)) 0 methods)
  | .classDecl name (some superclass) methods =>
    .classDecl name (some (c.refer ds depth superclass))
      (FunctionDecl.changeNameAll place (depth.map (· + 2)) 0 methods)
termination_by structural s => s

def Stmt.changeNameAll (place : Place) (depth : Option Nat) (i : Nat) : List Stmt → List Stmt
  | [] => []
  | s :: ss => s.changeName (i :: place) depth :: Stmt.changeNameAll place depth (i + 1) ss
termination_by structural ss => ss

end

/-- The program after the change; the resolver says which uses refer to the variable. -/
def Program.changeName (p : Program) : Program where
  statements := Stmt.changeNameAll c p.resolve.distances [] none 0 p.statements
  trailing := p.trailing.map
    (Expr.changeName c p.resolve.distances [p.statements.length] none)

end Lox
