import Lox.Proofs.Parsed

/-!
# Uses with the scopes around them

Each use of a name with the local scopes around it, as far as their names are declared there. The
order is that in which the resolver meets the uses.
-/

namespace Lox

/-- The parts of a program that have a scope of their own. -/
inductive Site where
  | block (body : List Stmt)
  | function (params : List Token) (body : List Stmt)
  /-- The scope around methods, which holds `this`. -/
  | methods (methods : List FunctionDecl)
  /-- The scope around the methods of a derived class, which holds `super`. -/
  | superclass (superclass : Use) (methods : List FunctionDecl)

structure Level where
  site : Site
  /-- The names declared in it so far. -/
  scope : Scope := ∅
  /-- The variable of this scope whose initializer holds the place, with that initializer. -/
  initializing : Option (Token × Expr) := none

namespace Level

def put (l : Level) (name : String) (complete : Bool) : Level :=
  { l with scope := l.scope.insert name complete }

def introduce (l : Level) (name : String) : Level := (l.put name false).put name true

/-- Inside the initializer of a variable. -/
def inInitializer (l : Level) (name : Token) (initializer : Expr) : Level :=
  { l.put name.lexeme false with initializing := some (name, initializer) }

def block (body : List Stmt) : Level := { site := .block body }

def function (params : List Token) (body : List Stmt) : Level :=
  params.foldl (fun l p => l.introduce p.lexeme) { site := .function params body }

def methods (methods : List FunctionDecl) : Level :=
  { site := .methods methods, scope := (∅ : Scope).insert "this" true }

def superclass (superclass : Use) (methods : List FunctionDecl) : Level :=
  { site := .superclass superclass methods, scope := (∅ : Scope).insert "super" true }

end Level

/-- The local scopes around a place, the innermost first. -/
abbrev Levels := List Level

namespace Levels

/-- The innermost scope changed; there is none for globals. -/
def modifyHead (f : Level → Level) : Levels → Levels
  | [] => []
  | l :: outer => f l :: outer

def introduce (ls : Levels) (name : String) : Levels := ls.modifyHead (·.introduce name)

/-- How many scopes lie between the innermost scope and the first that holds a name. -/
def distance? (ls : Levels) (name : String) : Option Nat :=
  ls.findIdx? (·.scope.contains name)

end Levels

def Stmt.after (ls : Levels) (s : Stmt) : Levels :=
  match s.declared? with
  | some name => ls.introduce name
  | none => ls

structure Occurrence where
  kind : UseKind
  use : Use
  levels : Levels

mutual

/-- The uses in an expression. Only a function without a name has a scope of its own. -/
def Expr.occurrences (ls : Levels) : Expr → List Occurrence
  | .literal _ => []
  | .grouping inner => inner.occurrences ls
  | .unary _ operand => operand.occurrences ls
  | .binary left _ right => left.occurrences ls ++ right.occurrences ls
  | .logical left _ right => left.occurrences ls ++ right.occurrences ls
  | .variable use => [⟨.variable, use, ls⟩]
  | .assign target value => value.occurrences ls ++ [⟨.assign, target, ls⟩]
  | .this use => [⟨.this, use, ls⟩]
  | .super use _ => [⟨.super, use, ls⟩]
  | .call callee _ arguments => callee.occurrences ls ++ Expr.occurrencesAll ls arguments
  | .get object _ => object.occurrences ls
  | .set object _ value => value.occurrences ls ++ object.occurrences ls
  | .lambda params body => Stmt.occurrencesAll (.function params body :: ls) body
termination_by structural e => e

def Expr.occurrencesAll (ls : Levels) : List Expr → List Occurrence
  | [] => []
  | e :: es => e.occurrences ls ++ Expr.occurrencesAll ls es
termination_by structural es => es

def FunctionDecl.occurrences (ls : Levels) : FunctionDecl → List Occurrence
  | ⟨_, params, body⟩ => Stmt.occurrencesAll (.function params body :: ls) body
termination_by structural f => f

def FunctionDecl.occurrencesAll (ls : Levels) : List FunctionDecl → List Occurrence
  | [] => []
  | f :: fs => f.occurrences ls ++ FunctionDecl.occurrencesAll ls fs
termination_by structural fs => fs

def Stmt.occurrences (ls : Levels) : Stmt → List Occurrence
  | .expression e => e.occurrences ls
  | .print e => e.occurrences ls
  | .var _ none => []
  | .var name (some e) => e.occurrences (ls.modifyHead (·.inInitializer name e))
  | .block body => Stmt.occurrencesAll (.block body :: ls) body
  | .ifElse condition thenBranch none => condition.occurrences ls ++ thenBranch.occurrences ls
  | .ifElse condition thenBranch (some elseBranch) =>
    condition.occurrences ls ++ thenBranch.occurrences ls ++ elseBranch.occurrences ls
  | .whileLoop condition body => condition.occurrences ls ++ body.occurrences ls
  | .breakLoop _ => []
  | .returnFrom _ none => []
  | .returnFrom _ (some e) => e.occurrences ls
  | .function declaration => declaration.occurrences (ls.introduce declaration.name.lexeme)
  | .classDecl name none methods =>
    FunctionDecl.occurrencesAll (.methods methods :: ls.introduce name.lexeme) methods
  | .classDecl name (some superclass) methods =>
    ⟨.variable, superclass, ls.introduce name.lexeme⟩ ::
      FunctionDecl.occurrencesAll
        (.methods methods :: .superclass superclass methods :: ls.introduce name.lexeme) methods
termination_by structural s => s

def Stmt.occurrencesAll (ls : Levels) : List Stmt → List Occurrence
  | [] => []
  | s :: ss => s.occurrences ls ++ Stmt.occurrencesAll (s.after ls) ss
termination_by structural ss => ss

end

def Program.occurrences (p : Program) : List Occurrence :=
  Stmt.occurrencesAll [] p.statements ++ (p.trailing.map (Expr.occurrences [])).getD []

namespace Occurrence

def plain (o : Occurrence) : UseKind × Use := (o.kind, o.use)

def distance? (o : Occurrence) : Option Nat := o.levels.distance? o.use.name.lexeme

def record (ds : Distances) (o : Occurrence) : Distances :=
  match o.distance? with
  | some d => ds.insert o.use.id d
  | none => ds

end Occurrence

/-! ### All uses occur -/

mutual

theorem Expr.occurrences_perm (ls : Levels) (e : Expr) :
    ((e.occurrences ls).map Occurrence.plain).Perm e.uses := by
  cases e with
  | literal value => exact .refl _
  | grouping inner => exact inner.occurrences_perm ls
  | unary operator operand => exact operand.occurrences_perm ls
  | binary left operator right =>
    rw [Expr.occurrences, List.map_append]
    exact (left.occurrences_perm ls).append (right.occurrences_perm ls)
  | logical left operator right =>
    rw [Expr.occurrences, List.map_append]
    exact (left.occurrences_perm ls).append (right.occurrences_perm ls)
  | «variable» use => exact .refl _
  | assign target value =>
    rw [Expr.occurrences, List.map_append]
    exact ((value.occurrences_perm ls).append_right _).trans List.perm_append_comm
  | this use => exact .refl _
  | super use method => exact .refl _
  | call callee paren arguments =>
    rw [Expr.occurrences, List.map_append]
    exact (callee.occurrences_perm ls).append (Expr.occurrencesAll_perm ls arguments)
  | get object name => exact object.occurrences_perm ls
  | set object name value =>
    rw [Expr.occurrences, List.map_append]
    exact ((value.occurrences_perm ls).append (object.occurrences_perm ls)).trans
      List.perm_append_comm
  | lambda params body => exact Stmt.occurrencesAll_perm _ body
termination_by structural e

theorem Expr.occurrencesAll_perm (ls : Levels) (es : List Expr) :
    ((Expr.occurrencesAll ls es).map Occurrence.plain).Perm (Expr.usesAll es) := by
  cases es with
  | nil => exact .refl _
  | cons e es =>
    rw [Expr.occurrencesAll, List.map_append]
    exact (e.occurrences_perm ls).append (Expr.occurrencesAll_perm ls es)
termination_by structural es

theorem FunctionDecl.occurrences_perm (ls : Levels) (f : FunctionDecl) :
    ((f.occurrences ls).map Occurrence.plain).Perm f.uses := by
  cases f with
  | mk name params body => exact Stmt.occurrencesAll_perm _ body
termination_by structural f

theorem FunctionDecl.occurrencesAll_perm (ls : Levels) (fs : List FunctionDecl) :
    ((FunctionDecl.occurrencesAll ls fs).map Occurrence.plain).Perm
      (FunctionDecl.usesAll fs) := by
  cases fs with
  | nil => exact .refl _
  | cons f fs =>
    rw [FunctionDecl.occurrencesAll, List.map_append]
    exact (f.occurrences_perm ls).append (FunctionDecl.occurrencesAll_perm ls fs)
termination_by structural fs

theorem Stmt.occurrences_perm (ls : Levels) (s : Stmt) :
    ((s.occurrences ls).map Occurrence.plain).Perm s.uses := by
  cases s with
  | expression e => exact e.occurrences_perm ls
  | print e => exact e.occurrences_perm ls
  | var name initializer =>
    cases initializer with
    | none => exact .refl _
    | some e => exact e.occurrences_perm _
  | block body => exact Stmt.occurrencesAll_perm _ body
  | ifElse condition thenBranch elseBranch =>
    have both := (condition.occurrences_perm ls).append (thenBranch.occurrences_perm ls)
    cases elseBranch with
    | none =>
      rw [Stmt.occurrences, List.map_append]
      exact both
    | some elseBranch =>
      rw [Stmt.occurrences, List.map_append, List.map_append]
      exact both.append (elseBranch.occurrences_perm ls)
  | whileLoop condition body =>
    rw [Stmt.occurrences, List.map_append]
    exact (condition.occurrences_perm ls).append (body.occurrences_perm ls)
  | breakLoop keyword => exact .refl _
  | returnFrom keyword value =>
    cases value with
    | none => exact .refl _
    | some e => exact e.occurrences_perm ls
  | function declaration => exact declaration.occurrences_perm _
  | classDecl name superclass methods =>
    cases superclass with
    | none => exact FunctionDecl.occurrencesAll_perm _ methods
    | some superclass => exact (FunctionDecl.occurrencesAll_perm _ methods).cons _
termination_by structural s

theorem Stmt.occurrencesAll_perm (ls : Levels) (ss : List Stmt) :
    ((Stmt.occurrencesAll ls ss).map Occurrence.plain).Perm (Stmt.usesAll ss) := by
  cases ss with
  | nil => exact .refl _
  | cons s ss =>
    rw [Stmt.occurrencesAll, List.map_append]
    exact (s.occurrences_perm ls).append (Stmt.occurrencesAll_perm _ ss)
termination_by structural ss

end

theorem Program.occurrences_perm (p : Program) :
    (p.occurrences.map Occurrence.plain).Perm p.uses := by
  rw [Program.occurrences, List.map_append]
  refine (Stmt.occurrencesAll_perm [] p.statements).append ?_
  cases p.trailing with
  | none => exact .refl _
  | some e => exact e.occurrences_perm []

end Lox
