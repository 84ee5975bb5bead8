import Lox.Token

/-!
# Syntax trees

Expressions, functions and statements. Tokens stay in the tree where an error can point at them.
-/

namespace Lox

/-- A place in a program that uses a name, with a number of its own. -/
structure Use where
  id : Nat
  /-- The name, or the keyword `this` or `super`. -/
  name : Token
  deriving DecidableEq, Repr, Inhabited

inductive Literal where
  | nil
  | bool (b : Bool)
  | number (x : Float)
  | string (s : String)
  deriving DecidableEq, Repr, Inhabited

mutual

inductive Expr where
  | literal (value : Literal)
  | grouping (inner : Expr)
  | unary (operator : Token) (operand : Expr)
  | binary (left : Expr) (operator : Token) (right : Expr)
  /-- An operator that may leave its right side alone. -/
  | logical (left : Expr) (operator : Token) (right : Expr)
  | variable (use : Use)
  | assign (target : Use) (value : Expr)
  | this (use : Use)
  | super (use : Use) (method : Token)
  /-- A call; `paren` closes its arguments. -/
  | call (callee : Expr) (paren : Token) (arguments : List Expr)
  | get (object : Expr) (name : Token)
  | set (object : Expr) (name : Token) (value : Expr)
  /-- A function without a name. -/
  | lambda (params : List Token) (body : List Stmt)

structure FunctionDecl where
  name : Token
  params : List Token
  body : List Stmt

inductive Stmt where
  | expression (e : Expr)
  | print (e : Expr)
  | var (name : Token) (initializer : Option Expr)
  | block (body : List Stmt)
  | ifElse (condition : Expr) (thenBranch : Stmt) (elseBranch : Option Stmt)
  | whileLoop (condition : Expr) (body : Stmt)
  | breakLoop (keyword : Token)
  | returnFrom (keyword : Token) (value : Option Expr)
  | function (declaration : FunctionDecl)
  | classDecl (name : Token) (superclass : Option Use) (methods : List FunctionDecl)

end

instance : Inhabited Expr := ⟨.literal .nil⟩

instance : Inhabited Stmt := ⟨.block []⟩

/-- The statements of a program that may end in an expression without its semicolon. -/
structure Program where
  statements : List Stmt
  trailing : Option Expr := none

end Lox
