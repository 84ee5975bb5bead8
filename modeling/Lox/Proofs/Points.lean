import Lox.Proofs.Contexts
import Lox.Syntax.Uses

/-!
# Points

The points of a program at which the resolver notes a distance or finds an error, each with the path
from it out to the program. A path tells which scopes are around the point and which names they hold
there, and the function and class that enclose it most closely.
-/

namespace Lox

/-- The names that a statement declares in the scope in which it stands. -/
def Stmt.declares : Stmt → List Token
  | .expression _ => []
  | .print _ => []
  | .var name _ => [name]
  | .block _ => []
  | .ifElse _ thenBranch none => thenBranch.declares
  | .ifElse _ thenBranch (some elseBranch) => thenBranch.declares ++ elseBranch.declares
  | .whileLoop _ body => body.declares
  | .breakLoop _ => []
  | .returnFrom _ _ => []
  | .function declaration => [declaration.name]
  | .classDecl name _ _ => [name]

inductive Step where
  /-- Past a statement that stands before, in the same scope. -/
  | past (s : Stmt)
  /-- Past a name that is declared just before: a parameter, or the name of the function or class
  that the way comes from. -/
  | declared (t : Token)
  /-- Out of the initializer of a variable. -/
  | initializer (t : Token)
  | block
  /-- Out of a function with or without a name, with its parameters. -/
  | function
  | method (name : Token)
  /-- Out of the scope around the methods of a derived class, which holds `super`. -/
  | superclass
  /-- Out of the scope around methods, which holds `this`. -/
  | methods (derived : Bool)

abbrev Path := List Step

namespace Path

/-- The innermost scope with more names; there is none for globals. -/
def hold (names : List String) : List (List String) → List (List String)
  | [] => []
  | scope :: outer => (scope ++ names) :: outer

/-- The local scopes along a path with the names that they hold, the innermost first. -/
def scopes : Path → List (List String)
  | [] => []
  | .past s :: path => hold (s.declares.map Token.lexeme) (scopes path)
  | .declared t :: path => hold [t.lexeme] (scopes path)
  | .initializer t :: path => hold [t.lexeme] (scopes path)
  | .block :: path => [] :: scopes path
  | .function :: path => [] :: scopes path
  | .method _ :: path => [] :: scopes path
  | .superclass :: path => ["super"] :: scopes path
  | .methods _ :: path => ["this"] :: scopes path

def distance? (path : Path) (name : String) : Option Nat :=
  path.scopes.findIdx? (·.contains name)

/-- The first scope that holds the name is the one with this number, from the inside out. -/
def Holds (path : Path) (name : String) (d : Nat) : Prop :=
  (∃ scope, path.scopes[d]? = some scope ∧ name ∈ scope) ∧
    ∀ i < d, ∀ scope, path.scopes[i]? = some scope → name ∉ scope

end Path

def Step.function? : Step → Option FunctionContext
  | .function => some .function
  | .method name => some (if name.lexeme == "init" then .initializer else .method)
  | _ => none

def Step.cls? : Step → Option ClassContext
  | .methods derived => some (if derived then .derived else .plain)
  | _ => none

namespace Path

def function (path : Path) : FunctionContext := (path.findSome? Step.function?).getD .none

def cls (path : Path) : ClassContext := (path.findSome? Step.cls?).getD .none

/-- The point is in the initializer of a local variable of this name, and no function is between. -/
inductive Initializes (name : String) : Path → Prop
  | here {t : Token} {path : Path} : t.lexeme = name → path.scopes ≠ [] →
    Initializes name (.initializer t :: path)
  | inside {step : Step} {path : Path} : step.function? = none → Initializes name path →
    Initializes name (step :: path)

end Path

inductive Construct where
  | use (kind : UseKind) (use : Use)
  | declaration (name : Token)
  /-- A superclass as the superclass of this class; it is also used as a variable. -/
  | superclass (cls : Token) (use : Use)
  | returnFrom (keyword : Token) (hasValue : Bool)

def Construct.token : Construct → Token
  | .use _ mentioned => mentioned.name
  | .declaration name => name
  | .superclass _ mentioned => mentioned.name
  | .returnFrom keyword _ => keyword

/-- A construct with the way out from it. -/
structure Point where
  path : Path
  construct : Construct

/-- The parameters of a function; each is declared after those before it. -/
def Point.params (path : Path) : List Token → List Point
  | [] => []
  | t :: ts => ⟨path, .declaration t⟩ :: Point.params (.declared t :: path) ts

def Path.behind (path : Path) (params : List Token) : Path :=
  params.foldl (fun path t => .declared t :: path) path

def Path.past (path : Path) (ss : List Stmt) : Path :=
  ss.foldl (fun path s => .past s :: path) path

mutual

def Expr.points (path : Path) : Expr → List Point
  | .literal _ => []
  | .grouping inner => inner.points path
  | .unary _ operand => operand.points path
  | .binary left _ right => left.points path ++ right.points path
  | .logical left _ right => left.points path ++ right.points path
  | .variable use => [⟨path, .use .variable use⟩]
  | .assign target value => value.points path ++ [⟨path, .use .assign target⟩]
  | .this use => [⟨path, .use .this use⟩]
  | .super use _ => [⟨path, .use .super use⟩]
  | .call callee _ arguments => callee.points path ++ Expr.pointsAll path arguments
  | .get object _ => object.points path
  | .set object _ value => value.points path ++ object.points path
  | .lambda params body =>
    Point.params (.function :: path) params ++
      Stmt.pointsAll (Path.behind (.function :: path) params) body
termination_by structural e => e

def Expr.pointsAll (path : Path) : List Expr → List Point
  | [] => []
  | e :: es => e.points path ++ Expr.pointsAll path es
termination_by structural es => es

def FunctionDecl.points (path : Path) : FunctionDecl → List Point
  | ⟨_, params, body⟩ => Point.params path params ++ Stmt.pointsAll (path.behind params) body
termination_by structural f => f

def FunctionDecl.pointsAll (path : Path) : List FunctionDecl → List Point
  | [] => []
  | f :: fs => f.points (.method f.name :: path) ++ FunctionDecl.pointsAll path fs
termination_by structural fs => fs

def Stmt.points (path : Path) : Stmt → List Point
  | .expression e => e.points path
  | .print e => e.points path
  | .var name none => [⟨path, .declaration name⟩]
  | .var name (some e) => ⟨path, .declaration name⟩ :: e.points (.initializer name :: path)
  | .block body => Stmt.pointsAll (.block :: path) body
  | .ifElse condition thenBranch none => condition.points path ++ thenBranch.points path
  | .ifElse condition thenBranch (some elseBranch) =>
    condition.points path ++ thenBranch.points path ++ elseBranch.points (.past thenBranch :: path)
  | .whileLoop condition body => condition.points path ++ body.points path
  | .breakLoop _ => []
  | .returnFrom keyword none => [⟨path, .returnFrom keyword false⟩]
  | .returnFrom keyword (some e) => ⟨path, .returnFrom keyword true⟩ :: e.points path
  | .function declaration =>
    ⟨path, .declaration declaration.name⟩ ::
      declaration.points (.function :: .declared declaration.name :: path)
  | .classDecl name none methods =>
    ⟨path, .declaration name⟩ ::
      FunctionDecl.pointsAll (.methods false :: .declared name :: path) methods
  | .classDecl name (some superclass) methods =>
    ⟨path, .declaration name⟩ :: ⟨.declared name :: path, .superclass name superclass⟩ ::
      ⟨.declared name :: path, .use .variable superclass⟩ ::
      FunctionDecl.pointsAll (.methods true :: .superclass :: .declared name :: path) methods
termination_by structural s => s

def Stmt.pointsAll (path : Path) : List Stmt → List Point
  | [] => []
  | s :: ss => s.points path ++ Stmt.pointsAll (.past s :: path) ss
termination_by structural ss => ss

end

def Program.points (p : Program) : List Point :=
  Stmt.pointsAll [] p.statements ++
    (p.trailing.map (Expr.points (Path.past [] p.statements))).getD []

/-! ### What is found at a point -/

/-- The scope around the path, if it is local, holds the name. -/
def Path.Declared (path : Path) (name : String) : Prop :=
  ∃ scope, path.scopes.head? = some scope ∧ name ∈ scope

instance (path : Path) (name : String) : Decidable (path.Declared name) :=
  decidable_of_iff (∃ scope ∈ path.scopes.head?, name ∈ scope) Iff.rfl

/-- The variable whose initializer is left. -/
def Step.initialized? : Step → Option Token
  | .initializer t => some t
  | _ => none

theorem Path.initializes_cons {name : String} {step : Step} {path : Path} :
    Path.Initializes name (step :: path) ↔
      (∃ t ∈ step.initialized?, t.lexeme = name ∧ path.scopes ≠ []) ∨
        (step.function? = none ∧ path.Initializes name) := by
  constructor
  · rintro (⟨same, inside⟩ | ⟨none, initializes⟩)
    · exact .inl ⟨_, rfl, same, inside⟩
    · exact .inr ⟨none, initializes⟩
  · rintro (⟨t, initialized, same, inside⟩ | ⟨none, initializes⟩)
    · cases step with
      | initializer t' =>
        obtain rfl := Option.some.inj initialized
        exact .here same inside
      | _ => cases initialized
    · exact .inside none initializes

instance Path.decideInitializes (name : String) :
    (path : Path) → Decidable (Path.Initializes name path)
  | [] => isFalse nofun
  | _ :: path =>
    have := Path.decideInitializes name path
    decidable_of_iff' _ Path.initializes_cons

namespace Point

def faults (point : Point) : List StaticFault :=
  match point.construct with
  | .use .variable use =>
    if point.path.Initializes use.name.lexeme then [.ownInitializer] else []
  | .use .assign _ => []
  | .use .this _ => if point.path.cls = .none then [.thisOutsideClass] else []
  | .use .super _ =>
    match point.path.cls with
    | .none => [.superOutsideClass]
    | .plain => [.superWithoutSuperclass]
    | .derived => []
  | .declaration name => if point.path.Declared name.lexeme then [.duplicateName] else []
  | .superclass cls use => if use.name.lexeme = cls.lexeme then [.selfInheritance] else []
  | .returnFrom _ hasValue =>
    match point.path.function with
    | .none => [.returnAtTopLevel]
    | .initializer => if hasValue then [.valueFromInitializer] else []
    | _ => []

def errors (point : Point) : List StaticError :=
  point.faults.map fun fault => ⟨point.construct.token, fault⟩

def use? (point : Point) : Option Use :=
  match point.construct with
  | .use kind use => if kind = .this ∧ point.path.cls = .none then none else some use
  | _ => none

def record (ds : Distances) (point : Point) : Distances :=
  match point.use? with
  | some use =>
    match point.path.distance? use.name.lexeme with
    | some d => ds.insert use.id d
    | none => ds
  | none => ds

end Point

end Lox
