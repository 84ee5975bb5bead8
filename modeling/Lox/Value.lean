import Std.Data.TreeMap
import Lox.Decimal.Layout
import Lox.Syntax

/-!
# Values

What expressions evaluate to. Variables and fields can change, so closures and instances refer to
them through frames and instance numbers.
-/

namespace Lox

/-- A scope at run time: its frame and those around it, the global one last. -/
structure Environment where
  frame : Nat
  enclosing : List Nat := []
  deriving DecidableEq, Repr, Inhabited

namespace Environment

def global : Environment := ⟨0, []⟩

def frames (e : Environment) : List Nat := e.frame :: e.enclosing

def ancestor? (e : Environment) (distance : Nat) : Option Nat := e.frames[distance]?

theorem ancestor?_isSome_iff (e : Environment) (d : Nat) :
    (e.ancestor? d).isSome = true ↔ d < e.frames.length := by simp [ancestor?]

end Environment

structure Closure where
  name : Option String
  params : List Token
  body : List Stmt
  environment : Environment
  /-- Whether every call yields the instance that `this` stands for. -/
  isInitializer : Bool := false

def Closure.arity (f : Closure) : Nat := f.params.length

abbrev MethodTable := Std.TreeMap String Closure

/-- A class; its number tells it from other classes. -/
inductive Class where
  | base (id : Nat) (name : String) (methods : MethodTable)
  | derived (id : Nat) (name : String) (methods : MethodTable) (superclass : Class)

namespace Class

def id : Class → Nat
  | .base id _ _ => id
  | .derived id _ _ _ => id

def name : Class → String
  | .base _ name _ => name
  | .derived _ name _ _ => name

/-- The method of this name that is declared nearest. -/
def method? (name : String) : Class → Option Closure
  | .base _ _ methods => methods[name]?
  | .derived _ _ methods superclass => methods[name]? <|> superclass.method? name

def initializer? (c : Class) : Option Closure := c.method? "init"

/-- An instance is made with the arguments of the initializer. -/
def arity (c : Class) : Nat := (c.initializer?.map Closure.arity).getD 0

end Class

/-- A value. Functions are told apart by their numbers. -/
inductive Value where
  | nil
  | bool (b : Bool)
  | number (x : Float)
  | string (s : String)
  | function (id : Nat) (closure : Closure)
  /-- The built-in function that tells the time. -/
  | clock
  | cls (c : Class)
  | instance (id : Nat)

instance : Inhabited Value := ⟨.nil⟩

namespace Value

/-- Only `nil` and `false` count as false. -/
def isTruthy : Value → Bool
  | .nil => false
  | .bool b => b
  | _ => true

def isEqual : Value → Value → Bool
  | .nil, .nil => true
  | .bool a, .bool b => a == b
  | .number x, .number y => x == y
  | .string s, .string t => s == t
  | .function i _, .function j _ => i == j
  | .clock, .clock => true
  | .cls c, .cls d => c.id == d.id
  | .instance i, .instance j => i == j
  | _, _ => false

def arity? : Value → Option Nat
  | .function _ closure => some closure.arity
  | .clock => some 0
  | .cls c => some c.arity
  | _ => none

def ofLiteral : Literal → Value
  | .nil => .nil
  | .bool b => .bool b
  | .number x => .number x
  | .string s => .string s

/-- Positional from `0.0001` to below `1e+16`; whole numbers have no point, and exponents have a
sign and two digits. -/
def numberLayout : Decimal.Layout where
  positional e := decide (-4 ≤ e ∧ e < 16)
  exponentWidth := 2
  nan := "nan"

end Value

end Lox
