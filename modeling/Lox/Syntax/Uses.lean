import Lox.Syntax

/-!
# Uses of names

All places of a tree that use a name. `usesById` lists them in the order of their numbers, which is
that of the text.
-/

namespace Lox

inductive UseKind where
  | variable
  | assign
  | this
  | super
  deriving DecidableEq, Repr

def UseKind.name : UseKind → String
  | .variable => "variable"
  | .assign => "assign"
  | .this => "this"
  | .super => "super"

mutual

def Expr.uses : Expr → List (UseKind × Use)
  | .literal _ => []
  | .grouping inner => inner.uses
  | .unary _ operand => operand.uses
  | .binary left _ right => left.uses ++ right.uses
  | .logical left _ right => left.uses ++ right.uses
  | .variable use => [(.variable, use)]
  | .assign target value => (.assign, target) :: value.uses
  | .this use => [(.this, use)]
  | .super use _ => [(.super, use)]
  | .call callee _ arguments => callee.uses ++ Expr.usesAll arguments
  | .get object _ => object.uses
  | .set object _ value => object.uses ++ value.uses
  | .lambda _ body => Stmt.usesAll body
termination_by structural e => e

def Expr.usesAll : List Expr → List (UseKind × Use)
  | [] => []
  | e :: es => e.uses ++ Expr.usesAll es
termination_by structural es => es

def FunctionDecl.uses : FunctionDecl → List (UseKind × Use)
  | ⟨_, _, body⟩ => Stmt.usesAll body
termination_by structural f => f

def FunctionDecl.usesAll : List FunctionDecl → List (UseKind × Use)
  | [] => []
  | f :: fs => f.uses ++ FunctionDecl.usesAll fs
termination_by structural fs => fs

def Stmt.uses : Stmt → List (UseKind × Use)
  | .expression e => e.uses
  | .print e => e.uses
  | .var _ none => []
  | .var _ (some e) => e.uses
  | .block body => Stmt.usesAll body
  | .ifElse condition thenBranch none => condition.uses ++ thenBranch.uses
  | .ifElse condition thenBranch (some elseBranch) =>
    condition.uses ++ thenBranch.uses ++ elseBranch.uses
  | .whileLoop condition body => condition.uses ++ body.uses
  | .breakLoop _ => []
  | .returnFrom _ none => []
  | .returnFrom _ (some e) => e.uses
  | .function declaration => declaration.uses
  | .classDecl _ none methods => FunctionDecl.usesAll methods
  | .classDecl _ (some superclass) methods =>
    (.variable, superclass) :: FunctionDecl.usesAll methods
termination_by structural s => s

def Stmt.usesAll : List Stmt → List (UseKind × Use)
  | [] => []
  | s :: ss => s.uses ++ Stmt.usesAll ss
termination_by structural ss => ss

end

theorem Expr.usesAll_append (es fs : List Expr) :
    Expr.usesAll (es ++ fs) = Expr.usesAll es ++ Expr.usesAll fs := by
  induction es with
  | nil => rfl
  | cons e es ih => simp only [List.cons_append, Expr.usesAll, ih, List.append_assoc]

theorem Stmt.usesAll_append (ss ts : List Stmt) :
    Stmt.usesAll (ss ++ ts) = Stmt.usesAll ss ++ Stmt.usesAll ts := by
  induction ss with
  | nil => rfl
  | cons s ss ih => simp only [List.cons_append, Stmt.usesAll, ih, List.append_assoc]

def Program.uses (p : Program) : List (UseKind × Use) :=
  Stmt.usesAll p.statements ++ (p.trailing.map Expr.uses).getD []

/-- The uses in a program in the order of their numbers. -/
def Program.usesById (p : Program) : List (UseKind × Use) :=
  p.uses.mergeSort fun a b => decide (a.2.id ≤ b.2.id)

end Lox
