import Lox.Proofs.Resolved

/-!
# Moments of runs

What happens in the course of a session: each evaluation of an expression, each execution of a
statement, each call and each binding of a method, with the machine on which it begins. `Opens` says
which of them make the frames of which scopes.
-/

namespace Lox

/-- What a run works on. The numbers are the levels, and for a loop the rounds, that are left. -/
inductive Task where
  | evaluate (n : Nat) (e : Expr)
  | evaluateAll (n : Nat) (es : List Expr)
  | execute (n : Nat) (s : Stmt)
  | executeAll (n : Nat) (ss : List Stmt)
  | repeatWhile (n : Nat) (condition : Expr) (body : Stmt) (rounds : Nat)
  | invoke (n : Nat) (callee : Value) (arguments : List Value)
  | call (n : Nat) (f : Closure) (arguments : List Value)
  | bind (method : Closure) (id : Nat)

structure Moment where
  task : Task
  machine : Machine

def Expr.first? : Expr → Option Expr
  | .grouping inner => some inner
  | .unary _ operand => some operand
  | .binary left _ _ => some left
  | .logical left _ _ => some left
  | .assign _ value => some value
  | .call callee _ _ => some callee
  | .get object _ => some object
  | .set object _ _ => some object
  | _ => none

/-- The expression that a statement evaluates first; a loop evaluates its own in rounds. -/
def Stmt.first? : Stmt → Option Expr
  | .expression e => some e
  | .print e => some e
  | .var _ initializer => initializer
  | .ifElse condition _ _ => some condition
  | .returnFrom _ value => value
  | _ => none

def chosen (condition : Value) (thenBranch : Stmt) (elseBranch : Option Stmt) : Option Stmt :=
  if condition.isTruthy then some thenBranch else elseBranch

namespace Machine

def push (m : Machine) (outer : Environment) (bindings : Bindings) : Machine :=
  { m with store := (m.store.newChild outer bindings).2 }

def child (m : Machine) (outer : Environment) : Environment := ⟨m.store.frames.size, outer.frames⟩

theorem bindings_push (m : Machine) (outer : Environment) (bindings : Bindings) :
    (m.push outer bindings).store.bindings (m.child outer).frame = bindings := by
  rw [push, Store.bindings_newChild]
  exact if_pos rfl

def enter (m : Machine) (outer : Environment) (bindings : Bindings) : Machine :=
  { m.push outer bindings with current := m.child outer }

/-- A machine on which the name of a class is bound, before the class is made. -/
def announce (m : Machine) (name : Token) : Machine :=
  { m with store := m.store.define m.current.frame name.lexeme .nil }

def withInstance (m : Machine) (c : Class) : Machine :=
  { m with store := (m.store.newInstance c).2 }

end Machine

/-- The second moment comes in the course of the first, with no other between. -/
inductive Begins : Moment → Moment → Prop
  | part {n m e part} : e.first? = some part →
    Begins ⟨.evaluate (n + 1) e, m⟩ ⟨.evaluate n part, m⟩
  | right {n m left operator right value m'} : evaluate n left m = .ok value m' →
    Begins ⟨.evaluate (n + 1) (.binary left operator right), m⟩ ⟨.evaluate n right, m'⟩
  | undecided {n m left operator right value m'} : evaluate n left m = .ok value m' →
    decidedByLeft operator value = false →
    Begins ⟨.evaluate (n + 1) (.logical left operator right), m⟩ ⟨.evaluate n right, m'⟩
  | field {n m object name value id m'} : evaluate n object m = .ok (.instance id) m' →
    Begins ⟨.evaluate (n + 1) (.set object name value), m⟩ ⟨.evaluate n value, m'⟩
  | arguments {n m callee paren arguments f m'} : evaluate n callee m = .ok f m' →
    Begins ⟨.evaluate (n + 1) (.call callee paren arguments), m⟩ ⟨.evaluateAll n arguments, m'⟩
  | invoke {n m callee paren arguments f m' values m''} : evaluate n callee m = .ok f m' →
    evaluateAll (evaluate n) arguments m' = .ok values m'' → f.arity? = some values.length →
    Begins ⟨.evaluate (n + 1) (.call callee paren arguments), m⟩ ⟨.invoke n f values, m''⟩
  | property {n m object name id m' i method} : evaluate n object m = .ok (.instance id) m' →
    m'.store.instances[id]? = some i → i.fields[name.lexeme]? = none →
    i.cls.method? name.lexeme = some method →
    Begins ⟨.evaluate (n + 1) (.get object name), m⟩ ⟨.bind method id, m'⟩
  | super {n m use name d c id method} : m.distances[use.id]? = some d →
    m.store.getAt m.current d "super" = .ok (.cls c) →
    m.store.getAt m.current (d - 1) "this" = .ok (.instance id) →
    c.method? name.lexeme = some method →
    Begins ⟨.evaluate (n + 1) (.super use name), m⟩ ⟨.bind method id, m⟩
  | head {n m e es} : Begins ⟨.evaluateAll n (e :: es), m⟩ ⟨.evaluate n e, m⟩
  | tail {n m e es value m'} : evaluate n e m = .ok value m' →
    Begins ⟨.evaluateAll n (e :: es), m⟩ ⟨.evaluateAll n es, m'⟩
  | expression {n m s e} : s.first? = some e →
    Begins ⟨.execute (n + 1) s, m⟩ ⟨.evaluate (n + 1) e, m⟩
  | block {n m body} :
    Begins ⟨.execute (n + 1) (.block body), m⟩ ⟨.executeAll n body, m.enter m.current ∅⟩
  | branch {n m condition thenBranch elseBranch value m' s} :
    evaluate (n + 1) condition m = .ok value m' → chosen value thenBranch elseBranch = some s →
    Begins ⟨.execute (n + 1) (.ifElse condition thenBranch elseBranch), m⟩ ⟨.execute n s, m'⟩
  | loop {n m condition body} :
    Begins ⟨.execute (n + 1) (.whileLoop condition body), m⟩ ⟨.repeatWhile n condition body n, m⟩
  | superclass {n m name superclass methods} :
    Begins ⟨.execute (n + 1) (.classDecl name (some superclass) methods), m⟩
      ⟨.evaluate (n + 1) (.variable superclass), m.announce name⟩
  | first {n m s ss} : Begins ⟨.executeAll n (s :: ss), m⟩ ⟨.execute n s, m⟩
  | next {n m s ss m'} : execute n s m = .ok .normal m' →
    Begins ⟨.executeAll n (s :: ss), m⟩ ⟨.executeAll n ss, m'⟩
  | condition {n m condition body rounds} :
    Begins ⟨.repeatWhile n condition body (rounds + 1), m⟩ ⟨.evaluate (n + 1) condition, m⟩
  | body {n m condition body rounds value m'} : evaluate (n + 1) condition m = .ok value m' →
    value.isTruthy = true →
    Begins ⟨.repeatWhile n condition body (rounds + 1), m⟩ ⟨.execute n body, m'⟩
  | again {n m condition body rounds value m' m''} :
    evaluate (n + 1) condition m = .ok value m' → value.isTruthy = true →
    execute n body m' = .ok .normal m'' →
    Begins ⟨.repeatWhile n condition body (rounds + 1), m⟩ ⟨.repeatWhile n condition body rounds, m''⟩
  | function {n m id f arguments} :
    Begins ⟨.invoke n (.function id f) arguments, m⟩ ⟨.call n f arguments, m⟩
  | bindInitializer {n m c arguments method} : c.initializer? = some method →
    Begins ⟨.invoke n (.cls c) arguments, m⟩ ⟨.bind method m.store.instances.size, m.withInstance c⟩
  | callInitializer {n m c arguments method bound m'} : c.initializer? = some method →
    Run.bind method m.store.instances.size (m.withInstance c) = .ok bound m' →
    Begins ⟨.invoke n (.cls c) arguments, m⟩ ⟨.call n bound arguments, m'⟩
  | called {n m f arguments} :
    Begins ⟨.call n f arguments, m⟩ ⟨.executeAll n f.body, m.enter f.environment (f.frame arguments)⟩

/-- At this moment the environment is made for the scope, with a frame that is new. -/
inductive Opens : Moment → Site → Environment → Prop
  | block {n m body} : Opens ⟨.execute (n + 1) (.block body), m⟩ (.block body) (m.child m.current)
  | call {n m f arguments} :
    Opens ⟨.call n f arguments, m⟩ (.function f.params f.body) (m.child f.environment)
  | bind {m method id decl methods} : decl ∈ methods →
    method = decl.close method.environment decl.isInitializer →
    Opens ⟨.bind method id, m⟩ (.methods methods) (m.child method.environment)
  | superclass {n m name superclass methods c m'} :
    evaluateSuperclass superclass (m.announce name) = .ok c m' →
    Opens ⟨.execute (n + 1) (.classDecl name (some superclass) methods), m⟩
      (.superclass superclass methods) (m.child m.current)

/-- At this moment a class is declared; the superclass is what its name refers to. -/
inductive DeclaresClass : Moment → Class → Prop
  | base {n m name methods id} : DeclaresClass ⟨.execute (n + 1) (.classDecl name none methods), m⟩
      (.base id name.lexeme (methodTable m.current methods))
  | derived {n m name superclass methods id above m'} :
    evaluateSuperclass superclass (m.announce name) = .ok above m' →
    DeclaresClass ⟨.execute (n + 1) (.classDecl name (some superclass) methods), m⟩
      (.derived id name.lexeme (methodTable (m.child m.current) methods) above)

theorem Opens.of_call {n : Nat} {f : Closure} {arguments : List Value} {m : Machine} {site : Site}
    {e : Environment} (h : Opens ⟨.call n f arguments, m⟩ site e) :
    site = .function f.params f.body := by
  cases h
  rfl

/-- At this moment a function that is no method is made in the current environment. -/
inductive Declares : Moment → Closure → Prop
  | lambda {n m params body} : Declares ⟨.evaluate (n + 1) (.lambda params body), m⟩
      { name := none, params, body, environment := m.current }
  | function {n m declaration} :
    Declares ⟨.execute (n + 1) (.function declaration), m⟩ (declaration.close m.current false)

/-- The moments at which a program turns to its statements and to the expression at its end. -/
inductive Program.Turns (p : Program) (start : Machine) : Moment → Prop
  | statement {before s later m} : p.statements = before ++ s :: later →
    interpret before start = .ok () m → Turns p start ⟨.execute limit s, m⟩
  | trailing {e m} : p.trailing = some e → interpret p.statements start = .ok () m →
    Turns p start ⟨.evaluate limit e, m⟩

def Session.Runs (s : Session) (history : List Entry) (start : Machine) (p : Program) : Prop :=
  ∃ before entry later, history = before ++ entry :: later ∧
    (s.afterAll before).Executes entry p ∧ start = (s.afterAll before).start p

inductive Session.Happens (s : Session) (history : List Entry) : Moment → Prop
  | turn {start p a} : s.Runs history start p → p.Turns start a → Happens s history a
  | step {a b} : Happens s history a → Begins a b → Happens s history b

end Lox
