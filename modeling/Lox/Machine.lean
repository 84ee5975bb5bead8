import Lox.Resolution
import Lox.Store

/-!
# Machines

The state of a run and the steps that read and change it. A step that fails keeps the changes made
before it; `within` gives back the current environment on every path. What is printed reaches its
destination: a write that fails (`Diagnostic.host`) is outside of what a run can meet here.
-/

namespace Lox

inductive RuntimeFault where
  | undefinedVariable (name : String)
  | undefinedProperty (name : String)
  | operandNotNumber
  | operandsNotNumbers
  | operandsNotAddable
  | invalidUnaryOperator
  | invalidBinaryOperator
  | notCallable
  | wrongArity (expected got : Nat)
  | noProperties
  | noFields
  | superclassNotClass
  | superOutsideClass
  | invalidSuperBinding
  deriving DecidableEq, Repr

def RuntimeFault.message : RuntimeFault → String
  | .undefinedVariable name => "Undefined variable '" ++ name ++ "'."
  | .undefinedProperty name => "Undefined property '" ++ name ++ "'."
  | .operandNotNumber => "Operand must be a number."
  | .operandsNotNumbers => "Operands must be numbers."
  | .operandsNotAddable => "Operands must be two numbers or two strings."
  | .invalidUnaryOperator => "Invalid unary operator."
  | .invalidBinaryOperator => "Invalid binary operator."
  | .notCallable => "Can only call functions and classes."
  | .wrongArity expected got =>
    "Expected " ++ toString expected ++ " arguments but got " ++ toString got ++ "."
  | .noProperties => "Only instances have properties."
  | .noFields => "Only instances have fields."
  | .superclassNotClass => "Superclass must be a class."
  | .superOutsideClass => "Can't use 'super' outside of a class."
  | .invalidSuperBinding => "Invalid 'super' binding."

structure RuntimeError where
  line : Nat
  fault : RuntimeFault
  deriving DecidableEq, Repr

inductive Abort where
  | error (e : RuntimeError)
  | crash (c : Crash)
  deriving DecidableEq, Repr

/-- What a clock tells at each of its readings, in seconds. -/
structure Clock where
  readings : Nat → Float
  taken : Nat := 0

namespace Clock

def read (c : Clock) : Float × Clock := (c.readings c.taken, { c with taken := c.taken + 1 })

/-- Each reading from now on tells this time. -/
def set (c : Clock) (time : Float) : Clock :=
  { c with readings := fun n => if n < c.taken then c.readings n else time }

instance : Coe Float Clock := ⟨fun time => { readings := fun _ => time }⟩

end Clock

structure Machine where
  store : Store
  current : Environment := .global
  /-- The distances of the uses of all programs so far. -/
  distances : Distances := ∅
  /-- What has been printed. -/
  output : String := ""
  clock : Clock

/-- A machine before any program has run; only `clock` is defined. -/
def Machine.initial (clock : Clock) : Machine :=
  { store := (({} : Store).newFrame ((∅ : Bindings).insert "clock" .clock)).2
    clock }

def Machine.addDistances (m : Machine) (ds : Distances) : Machine :=
  { m with distances := m.distances ∪ ds }

abbrev Run := EStateM Abort Machine

namespace Run

def fail (token : Token) (fault : RuntimeFault) : Run α := throw (.error ⟨token.line, fault⟩)

/-- Stops because too few steps are given. -/
def unfinished : Run α := throw (.crash .unfinished)

def ofExcept : Except Crash α → Run α
  | .ok a => pure a
  | .error c => throw (.crash c)

def update (f : Store → α × Store) : Run α := fun m =>
  let (a, store) := f m.store
  .ok a { m with store }

def readClock : Run Float := fun m =>
  let (time, clock) := m.clock.read
  .ok time { m with clock }

def setCurrent (e : Environment) : Run Unit := modify fun m => { m with current := e }

/-- Runs a step in an environment and goes back to the one before. -/
def within (e : Environment) (p : Run α) : Run α := fun m =>
  match p { m with current := e } with
  | .ok a after => .ok a { after with current := m.current }
  | .error a after => .error a { after with current := m.current }

def print (text : String) : Run Unit :=
  modify fun m => { m with output := m.output ++ text ++ "\n" }

/-- The distance of a use, if its name is local. -/
def distance? (use : Use) : Run (Option Nat) := do return (← get).distances[use.id]?

def lookup (use : Use) : Run Value := do
  let m ← get
  let name := use.name.lexeme
  match m.distances[use.id]? with
  | some d => ofExcept (m.store.getAt m.current d name)
  | none =>
    match m.store.lookup? .global name with
    | some value => pure value
    | none => fail use.name (.undefinedVariable name)

def defineIn (frame : Nat) (name : String) (value : Value) : Run Unit :=
  modify fun m => { m with store := m.store.define frame name value }

def define (name : String) (value : Value) : Run Unit := do
  defineIn (← get).current.frame name value

def assignIn (e : Environment) (name : Token) (value : Value) : Run Unit := do
  match (← get).store.binder? e name.lexeme with
  | some frame => defineIn frame name.lexeme value
  | none => fail name (.undefinedVariable name.lexeme)

def assign (use : Use) (value : Value) : Run Unit := do
  match ← distance? use with
  | some d =>
    let frame ← ofExcept (Store.ancestor (← get).current d)
    defineIn frame use.name.lexeme value
  | none => assignIn .global use.name value

def setField (id : Nat) (name : String) (value : Value) : Run Unit :=
  modify fun m => { m with store := m.store.setField id name value }

def newFunction (closure : Closure) : Run Value := do
  return .function (← update Store.newId) closure

def newClass (name : String) (methods : MethodTable) (superclass : Option Class) : Run Class := do
  let id ← update Store.newId
  match superclass with
  | none => pure (.base id name methods)
  | some above => pure (.derived id name methods above)

/-- A method as a function whose `this` is an instance. -/
def bind (method : Closure) (id : Nat) : Run Closure := do
  let frame : Bindings := (∅ : Bindings).insert "this" (.instance id)
  let environment ← update (·.newChild method.environment frame)
  pure { method with environment }

theorem current_within_ok {e : Environment} {p : Run α} {m after : Machine} {a : α}
    (h : within e p m = .ok a after) : after.current = m.current := by
  unfold within at h; split at h <;> cases h; rfl

theorem current_within_error {e : Environment} {p : Run α} {m after : Machine} {a : Abort}
    (h : within e p m = .error a after) : after.current = m.current := by
  unfold within at h; split at h <;> cases h; rfl

end Run

end Lox
