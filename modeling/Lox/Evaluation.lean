import Lox.Machine

/-!
# Evaluation

What expressions and statements do. Each is defined over the evaluation of its parts, and
`evaluate` and `execute` join the levels of nested parts. A run that needs more levels than are
given stops unfinished, and `limit` is a number of levels that no run of a real program needs.
-/

namespace Lox

inductive Flow where
  | normal
  | breaking
  | returning (value : Value)

instance : Inhabited Flow := ⟨.normal⟩

/-! ### Operators -/

def applyUnary (operator : Token) (operand : Value) : Run Value :=
  match operator.type with
  | .minus =>
    match operand with
    | .number x => pure (.number (-x))
    | _ => Run.fail operator .operandNotNumber
  | .bang => pure (.bool !operand.isTruthy)
  | _ => Run.fail operator .invalidUnaryOperator

/-- Two numbers added, or two texts joined. -/
def add (operator : Token) : Value → Value → Run Value
  | .number x, .number y => pure (.number (x + y))
  | .string s, .string t => pure (.string (s ++ t))
  | _, _ => Run.fail operator .operandsNotAddable

def applyNumeric (operator : Token) (x y : Float) : Run Value :=
  match operator.type with
  | .minus => pure (.number (x - y))
  | .star => pure (.number (x * y))
  | .slash => pure (.number (x / y))
  | .greater => pure (.bool (y < x))
  | .greaterEqual => pure (.bool (y ≤ x))
  | .less => pure (.bool (x < y))
  | .lessEqual => pure (.bool (x ≤ y))
  | _ => Run.fail operator .invalidBinaryOperator

def applyBinary (operator : Token) (left right : Value) : Run Value :=
  match operator.type with
  | .plus => add operator left right
  | .equalEqual => pure (.bool (left.isEqual right))
  | .bangEqual => pure (.bool !left.isEqual right)
  | _ =>
    match left, right with
    | .number x, .number y => applyNumeric operator x y
    | _, _ => Run.fail operator .operandsNotNumbers

def decidedByLeft (operator : Token) (left : Value) : Bool :=
  if operator.type = .kwOr then left.isTruthy else !left.isTruthy

/-! ### Statements in a row -/

/-- Runs statements until one of them does not end normally. -/
def executeAll (exec : Stmt → Run Flow) : List Stmt → Run Flow
  | [] => pure .normal
  | s :: ss => do
    match ← exec s with
    | .normal => executeAll exec ss
    | transfer => pure transfer

/-- Runs a body again while its condition holds, at most `n` times. -/
def repeatWhile (condition : Run Value) (body : Run Flow) : Nat → Run Flow
  | 0 => Run.unfinished
  | n + 1 => do
    if (← condition).isTruthy then
      match ← body with
      | .normal => repeatWhile condition body n
      | .breaking => pure .normal
      | .returning value => pure (.returning value)
    else pure .normal

def evaluateAll (eval : Expr → Run Value) : List Expr → Run (List Value)
  | [] => pure []
  | e :: es => do
    let value ← eval e
    let values ← evaluateAll eval es
    pure (value :: values)

/-! ### Calls -/

def Closure.frame (f : Closure) (arguments : List Value) : Bindings :=
  (f.params.zip arguments).foldl (fun bs (param, value) => bs.insert param.lexeme value) ∅

/-- Runs the body of a function in a new frame. An initializer yields its instance. -/
def Closure.call (exec : Stmt → Run Flow) (f : Closure) (arguments : List Value) : Run Value := do
  let e ← Run.update (·.newChild f.environment (f.frame arguments))
  let flow ← Run.within e (executeAll exec f.body)
  if f.isInitializer then Run.ofExcept ((← get).store.getAt f.environment 0 "this")
  else
    match flow with
    | .returning value => pure value
    | _ => pure .nil

/-- Makes an instance and runs the initializer on it, if there is one. -/
def Class.construct (exec : Stmt → Run Flow) (c : Class) (arguments : List Value) : Run Value := do
  let id ← Run.update (·.newInstance c)
  if let some method := c.initializer? then
    let _ ← (← Run.bind method id).call exec arguments
  pure (.instance id)

def Value.invoke (exec : Stmt → Run Flow) (callee : Value) (arguments : List Value) : Run Value :=
  match callee with
  | .function _ closure => closure.call exec arguments
  | .cls c => c.construct exec arguments
  | _ => do return .number (← Run.readClock)

/-- Calls a value; `paren` is where errors point. -/
def Value.call (exec : Stmt → Run Flow) (paren : Token) (callee : Value) (arguments : List Value) :
    Run Value :=
  match callee.arity? with
  | none => Run.fail paren .notCallable
  | some expected =>
    if arguments.length = expected then callee.invoke exec arguments
    else Run.fail paren (.wrongArity expected arguments.length)

/-! ### Properties -/

/-- A field of an instance, or else a method bound to it. -/
def getProperty (id : Nat) (name : Token) : Run Value := do
  let undefined : Run Value := Run.fail name (.undefinedProperty name.lexeme)
  match (← get).store.instances[id]? with
  | none => undefined
  | some i =>
    match i.fields[name.lexeme]? with
    | some value => pure value
    | none =>
      match i.cls.method? name.lexeme with
      | some method => Run.newFunction (← Run.bind method id)
      | none => undefined

/-- A method of the superclass bound to the current instance, which is one frame nearer. -/
def getSuper (use : Use) (method : Token) : Run Value := do
  let m ← get
  match m.distances[use.id]? with
  | none => Run.fail use.name .superOutsideClass
  | some d =>
    let superclass ← Run.ofExcept (m.store.getAt m.current d "super")
    let object ← Run.ofExcept (m.store.getAt m.current (d - 1) "this")
    match superclass, object with
    | .cls c, .instance id =>
      match c.method? method.lexeme with
      | some found => Run.newFunction (← Run.bind found id)
      | none => Run.fail method (.undefinedProperty method.lexeme)
    | _, _ => Run.fail use.name .invalidSuperBinding

/-! ### Declarations -/

def FunctionDecl.close (f : FunctionDecl) (environment : Environment) (isInitializer : Bool) :
    Closure :=
  { name := some f.name.lexeme, params := f.params, body := f.body, environment, isInitializer }

/-- The methods of a class; of two with the same name the later one counts. -/
def methodTable (environment : Environment) (methods : List FunctionDecl) : MethodTable :=
  methods.foldl (fun table f => table.insert f.name.lexeme (f.close environment f.isInitializer)) ∅

def evaluateSuperclass (use : Use) : Run Class := do
  match ← Run.lookup use with
  | .cls c => pure c
  | _ => Run.fail use.name .superclassNotClass

/-- Goes on in a frame around the methods of a derived class, which binds `super`. -/
def enterSuper (above : Class) : Run Unit := do
  let enclosing := (← get).current
  Run.setCurrent (← Run.update (·.newChild enclosing ∅))
  Run.define "super" (.cls above)

/-- The class itself. The methods close over the frame of `super`, if there is one, and then the
environment is set back. -/
def makeClass (name : String) (methods : List FunctionDecl) (superclass : Option Class) :
    Run Class := do
  let enclosing := (← get).current
  superclass.forM enterSuper
  let c ← Run.newClass name (methodTable (← get).current methods) superclass
  Run.setCurrent enclosing
  pure c

/-- Binds the name before the superclass is looked up, and assigns the class to it at the end. -/
def declareClass (name : Token) (superclass : Option Use) (methods : List FunctionDecl) :
    Run Unit := do
  Run.define name.lexeme .nil
  let above ← superclass.mapM evaluateSuperclass
  let c ← makeClass name.lexeme methods above
  Run.assignIn (← get).current name (.cls c)

/-! ### Levels -/

/-- The value of an expression, by the values of its parts. -/
def evaluateStep (eval : Expr → Run Value) (exec : Stmt → Run Flow) : Expr → Run Value
  | .literal value => pure (.ofLiteral value)
  | .grouping inner => eval inner
  | .unary operator operand => do applyUnary operator (← eval operand)
  | .binary left operator right => do
    let leftValue ← eval left
    let rightValue ← eval right
    applyBinary operator leftValue rightValue
  | .logical left operator right => do
    let leftValue ← eval left
    if decidedByLeft operator leftValue then pure leftValue else eval right
  | .variable use => Run.lookup use
  | .this use => Run.lookup use
  | .assign target value => do
    let value ← eval value
    Run.assign target value
    pure value
  | .super use method => getSuper use method
  | .call callee paren arguments => do
    let callee ← eval callee
    let arguments ← evaluateAll eval arguments
    callee.call exec paren arguments
  | .get object name => do
    match ← eval object with
    | .instance id => getProperty id name
    | _ => Run.fail name .noProperties
  | .set object name value => do
    match ← eval object with
    | .instance id =>
      let value ← eval value
      Run.setField id name.lexeme value
      pure value
    | _ => Run.fail name .noFields
  | .lambda params body => do
    let environment := (← get).current
    Run.newFunction { name := none, params, body, environment }

def evaluateOption (eval : Expr → Run Value) : Option Expr → Run Value
  | none => pure .nil
  | some e => eval e

/-- What a statement does, by what its parts do; loops make at most `rounds` rounds. -/
def executeStep (rounds : Nat) (eval : Expr → Run Value) (exec : Stmt → Run Flow) :
    Stmt → Run Flow
  | .expression e => do
    let _ ← eval e
    pure .normal
  | .print e => do
    let value ← eval e
    Run.print ((← get).store.display value)
    pure .normal
  | .var name initializer => do
    let value ← evaluateOption eval initializer
    Run.define name.lexeme value
    pure .normal
  | .block body => do
    let current := (← get).current
    let e ← Run.update (·.newChild current ∅)
    Run.within e (executeAll exec body)
  | .ifElse condition thenBranch elseBranch => do
    if (← eval condition).isTruthy then exec thenBranch
    else
      match elseBranch with
      | some s => exec s
      | none => pure .normal
  | .whileLoop condition body => repeatWhile (eval condition) (exec body) rounds
  | .breakLoop _ => pure .breaking
  | .returnFrom _ value => do return .returning (← evaluateOption eval value)
  | .function declaration => do
    let value ← Run.newFunction (declaration.close (← get).current false)
    Run.define declaration.name.lexeme value
    pure .normal
  | .classDecl name superclass methods => do
    declareClass name superclass methods
    pure .normal

mutual

/-- The value of an expression, with at most this many levels. -/
def evaluate : Nat → Expr → Run Value
  | 0 => fun _ => Run.unfinished
  | n + 1 => evaluateStep (evaluate n) (execute n)

/-- What a statement does, with at most this many levels; its expressions are on its own level. -/
def execute : Nat → Stmt → Run Flow
  | 0 => fun _ => Run.unfinished
  | n + 1 => executeStep n (evaluateStep (evaluate n) (execute n)) (execute n)

end

theorem evaluate_succ (n : Nat) : evaluate (n + 1) = evaluateStep (evaluate n) (execute n) := rfl

theorem execute_succ (n : Nat) :
    execute (n + 1) = executeStep n (evaluate (n + 1)) (execute n) := rfl

/-- More levels and rounds than any run can need in practice. -/
def limit : Nat := 1000000000000000

def Expr.evaluate (e : Expr) : Run Value := Lox.evaluate limit e

def Stmt.execute (s : Stmt) : Run Flow := Lox.execute limit s

/-- Runs statements in a row, whichever way each of them ends. -/
def interpret : List Stmt → Run Unit
  | [] => pure ()
  | s :: ss => do
    let _ ← s.execute
    interpret ss

end Lox
