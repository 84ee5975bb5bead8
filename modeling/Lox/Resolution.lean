import Std.Data.TreeMap
import Lox.Syntax

/-!
# Resolution of names

Every use of a name in a local scope gets the number of scopes between it and the scope that holds
the name; a use without a number means a global. The walk also finds what the grammar cannot:
names declared twice, and `return`, `this` and `super` out of place. It keeps the kinds of function
and class that it is in, and sets them back where it comes out.
-/

namespace Lox

inductive StaticFault where
  | duplicateName
  | ownInitializer
  | returnAtTopLevel
  | valueFromInitializer
  | thisOutsideClass
  | superOutsideClass
  | superWithoutSuperclass
  | selfInheritance
  deriving DecidableEq, Repr

def StaticFault.message : StaticFault → String
  | .duplicateName => "Already a variable with this name in this scope."
  | .ownInitializer => "Can't read local variable in its own initializer."
  | .returnAtTopLevel => "Can't return from top-level code."
  | .valueFromInitializer => "Can't return a value from an initializer."
  | .thisOutsideClass => "Can't use 'this' outside of a class."
  | .superOutsideClass => "Can't use 'super' outside of a class."
  | .superWithoutSuperclass => "Can't use 'super' in a class with no superclass."
  | .selfInheritance => "A class can't inherit from itself."

structure StaticError where
  token : Token
  fault : StaticFault
  deriving DecidableEq, Repr

abbrev Distances := Std.TreeMap Nat Nat

/-- The names of a scope; a name is mapped to whether its declaration is complete. -/
abbrev Scope := Std.TreeMap String Bool

inductive FunctionContext where
  | none
  | function
  | initializer
  | method
  deriving DecidableEq, Repr

inductive ClassContext where
  | none
  | plain
  | derived
  deriving DecidableEq, Repr

def FunctionDecl.isInitializer (f : FunctionDecl) : Bool := f.name.lexeme == "init"

def FunctionDecl.methodContext (f : FunctionDecl) : FunctionContext :=
  if f.isInitializer then .initializer else .method

/-- What is known at a place of the walk. -/
structure Resolution where
  /-- The local scopes, the innermost first. -/
  scopes : List Scope := []
  /-- The function that encloses the place most closely. -/
  function : FunctionContext := .none
  /-- The class that encloses the place most closely. -/
  cls : ClassContext := .none
  distances : Distances := ∅
  errors : List StaticError := []

namespace Resolution

def report (r : Resolution) (token : Token) (fault : StaticFault) : Resolution :=
  { r with errors := r.errors ++ [⟨token, fault⟩] }

def reportIf (r : Resolution) (bad : Bool) (token : Token) (fault : StaticFault) : Resolution :=
  if bad then r.report token fault else r

def enter (r : Resolution) : Resolution := { r with scopes := ∅ :: r.scopes }

def leave (r : Resolution) : Resolution := { r with scopes := r.scopes.tail }

/-- Puts a name into the innermost scope; there is none for globals. -/
def put (r : Resolution) (name : String) (complete : Bool) : Resolution :=
  match r.scopes with
  | [] => r
  | scope :: outer => { r with scopes := scope.insert name complete :: outer }

def innermost? (r : Resolution) (name : String) : Option Bool :=
  r.scopes.head?.bind fun scope => scope[name]?

/-- Begins the declaration of a name, which must be new to its scope. -/
def declare (r : Resolution) (name : Token) : Resolution :=
  (r.put name.lexeme false).reportIf (r.innermost? name.lexeme).isSome name .duplicateName

def define (r : Resolution) (name : Token) : Resolution := r.put name.lexeme true

/-- Declares a name that is usable at once. -/
def introduce (r : Resolution) (name : Token) : Resolution := (r.declare name).define name

/-- How many scopes lie between the innermost scope and the first that holds a name. -/
def distance? (r : Resolution) (name : String) : Option Nat :=
  r.scopes.findIdx? (·.contains name)

/-- Notes the distance of a use, if a scope holds its name. -/
def record (r : Resolution) (use : Use) : Resolution :=
  match r.distance? use.name.lexeme with
  | some d => { r with distances := r.distances.insert use.id d }
  | none => r

/-- A variable that is read must not be the one whose initializer this is. -/
def read (r : Resolution) (use : Use) : Resolution :=
  (r.reportIf (r.innermost? use.name.lexeme == some false) use.name .ownInitializer).record use

def readThis (r : Resolution) (use : Use) : Resolution :=
  if r.cls = .none then r.report use.name .thisOutsideClass else r.record use

def readSuper (r : Resolution) (use : Use) : Resolution :=
  match r.cls with
  | .none => (r.report use.name .superOutsideClass).record use
  | .plain => (r.report use.name .superWithoutSuperclass).record use
  | .derived => r.record use

def checkReturn (r : Resolution) (keyword : Token) (hasValue : Bool) : Resolution :=
  (r.reportIf (r.function == .none) keyword .returnAtTopLevel).reportIf
    (hasValue && r.function == .initializer) keyword .valueFromInitializer

def enterFunction (r : Resolution) (params : List Token) : Resolution :=
  params.foldl introduce r.enter

/-- Opens the scope of a class body, which holds `this`. -/
def enterClass (r : Resolution) : Resolution := r.enter.put "this" true

/-- Reads a superclass and opens the scope that holds `super`. -/
def enterDerived (r : Resolution) (name : Token) (superclass : Use) : Resolution :=
  ((r.reportIf (superclass.name.lexeme == name.lexeme) superclass.name .selfInheritance).read
    superclass).enter.put "super" true

end Resolution

mutual

def Expr.resolve : Expr → Resolution → Resolution
  | .literal _, r => r
  | .grouping inner, r => inner.resolve r
  | .unary _ operand, r => operand.resolve r
  | .binary left _ right, r => right.resolve (left.resolve r)
  | .logical left _ right, r => right.resolve (left.resolve r)
  | .variable use, r => r.read use
  | .assign target value, r => (value.resolve r).record target
  | .this use, r => r.readThis use
  | .super use _, r => r.readSuper use
  | .call callee _ arguments, r => Expr.resolveAll arguments (callee.resolve r)
  | .get object _, r => object.resolve r
  | .set object _ value, r => object.resolve (value.resolve r)
  | .lambda params body, r =>
    let enclosing := r.function
    let inner := { r with function := .function }.enterFunction params
    { (Stmt.resolveAll body inner).leave with function := enclosing }
termination_by structural e => e

def Expr.resolveAll : List Expr → Resolution → Resolution
  | [], r => r
  | e :: es, r => Expr.resolveAll es (e.resolve r)
termination_by structural es => es

def FunctionDecl.resolve (kind : FunctionContext) : FunctionDecl → Resolution → Resolution
  | ⟨_, params, body⟩, r =>
    let enclosing := r.function
    let inner := { r with function := kind }.enterFunction params
    { (Stmt.resolveAll body inner).leave with function := enclosing }
termination_by structural f => f

def FunctionDecl.resolveAll : List FunctionDecl → Resolution → Resolution
  | [], r => r
  | f :: fs, r => FunctionDecl.resolveAll fs (f.resolve f.methodContext r)
termination_by structural fs => fs

def Stmt.resolve : Stmt → Resolution → Resolution
  | .expression e, r => e.resolve r
  | .print e, r => e.resolve r
  | .var name none, r => r.introduce name
  | .var name (some e), r => (e.resolve (r.declare name)).define name
  | .block body, r => (Stmt.resolveAll body r.enter).leave
  | .ifElse condition thenBranch none, r => thenBranch.resolve (condition.resolve r)
  | .ifElse condition thenBranch (some elseBranch), r =>
    elseBranch.resolve (thenBranch.resolve (condition.resolve r))
  | .whileLoop condition body, r => body.resolve (condition.resolve r)
  | .breakLoop _, r => r
  | .returnFrom keyword none, r => r.checkReturn keyword false
  | .returnFrom keyword (some e), r => e.resolve (r.checkReturn keyword true)
  | .function declaration, r => declaration.resolve .function (r.introduce declaration.name)
  | .classDecl name none methods, r =>
    let enclosing := r.cls
    let inner := ({ r with cls := .plain }.introduce name).enterClass
    { (FunctionDecl.resolveAll methods inner).leave with cls := enclosing }
  | .classDecl name (some superclass) methods, r =>
    let enclosing := r.cls
    let named := { r with cls := .plain }.introduce name
    let inner := ({ named with cls := .derived }.enterDerived name superclass).enterClass
    { (FunctionDecl.resolveAll methods inner).leave.leave with cls := enclosing }
termination_by structural s => s

def Stmt.resolveAll : List Stmt → Resolution → Resolution
  | [], r => r
  | s :: ss, r => Stmt.resolveAll ss (s.resolve r)
termination_by structural ss => ss

end

def Program.resolve (p : Program) : Resolution :=
  let r := Stmt.resolveAll p.statements {}
  match p.trailing with
  | none => r
  | some e => e.resolve r

def Expr.resolution (e : Expr) : Resolution :=
  Program.resolve { statements := [], trailing := some e }

theorem Resolution.scopes_reportIf (r : Resolution) (bad : Bool) (token : Token)
    (fault : StaticFault) : (r.reportIf bad token fault).scopes = r.scopes := by
  unfold reportIf; split <;> rfl

theorem Resolution.leave_enter (r : Resolution) : r.enter.leave = r := rfl

end Lox
