import Lox.Syntax

/-!
# Where `break` stands

Each `break` of a tree stands in a loop of its own function: `around` says whether the tree stands in
one.
-/

namespace Lox

mutual

def Expr.BreaksInLoops : Expr → Prop
  | .literal _ => True
  | .grouping inner => inner.BreaksInLoops
  | .unary _ operand => operand.BreaksInLoops
  | .binary left _ right => left.BreaksInLoops ∧ right.BreaksInLoops
  | .logical left _ right => left.BreaksInLoops ∧ right.BreaksInLoops
  | .variable _ => True
  | .assign _ value => value.BreaksInLoops
  | .this _ => True
  | .super _ _ => True
  | .call callee _ arguments => callee.BreaksInLoops ∧ Expr.AllBreaksInLoops arguments
  | .get object _ => object.BreaksInLoops
  | .set object _ value => object.BreaksInLoops ∧ value.BreaksInLoops
  | .lambda _ body => Stmt.AllBreaksInLoops false body
termination_by structural e => e

def Expr.AllBreaksInLoops : List Expr → Prop
  | [] => True
  | e :: es => e.BreaksInLoops ∧ Expr.AllBreaksInLoops es
termination_by structural es => es

def FunctionDecl.BreaksInLoops : FunctionDecl → Prop
  | ⟨_, _, body⟩ => Stmt.AllBreaksInLoops false body
termination_by structural f => f

def FunctionDecl.AllBreaksInLoops : List FunctionDecl → Prop
  | [] => True
  | f :: fs => f.BreaksInLoops ∧ FunctionDecl.AllBreaksInLoops fs
termination_by structural fs => fs

def Stmt.BreaksInLoops (around : Bool) : Stmt → Prop
  | .expression e => e.BreaksInLoops
  | .print e => e.BreaksInLoops
  | .var _ none => True
  | .var _ (some e) => e.BreaksInLoops
  | .block body => Stmt.AllBreaksInLoops around body
  | .ifElse condition thenBranch none =>
    condition.BreaksInLoops ∧ thenBranch.BreaksInLoops around
  | .ifElse condition thenBranch (some elseBranch) =>
    condition.BreaksInLoops ∧ thenBranch.BreaksInLoops around ∧ elseBranch.BreaksInLoops around
  | .whileLoop condition body => condition.BreaksInLoops ∧ body.BreaksInLoops true
  | .breakLoop _ => around = true
  | .returnFrom _ none => True
  | .returnFrom _ (some e) => e.BreaksInLoops
  | .function declaration => declaration.BreaksInLoops
  | .classDecl _ _ methods => FunctionDecl.AllBreaksInLoops methods
termination_by structural s => s

def Stmt.AllBreaksInLoops (around : Bool) : List Stmt → Prop
  | [] => True
  | s :: ss => s.BreaksInLoops around ∧ Stmt.AllBreaksInLoops around ss
termination_by structural ss => ss

end

theorem Expr.allBreaksInLoops_iff {es : List Expr} :
    Expr.AllBreaksInLoops es ↔ ∀ e ∈ es, e.BreaksInLoops := by
  induction es with
  | nil => simp [Expr.AllBreaksInLoops]
  | cons e es ih => simp [Expr.AllBreaksInLoops, ih]

theorem FunctionDecl.allBreaksInLoops_iff {fs : List FunctionDecl} :
    FunctionDecl.AllBreaksInLoops fs ↔ ∀ f ∈ fs, f.BreaksInLoops := by
  induction fs with
  | nil => simp [FunctionDecl.AllBreaksInLoops]
  | cons f fs ih => simp [FunctionDecl.AllBreaksInLoops, ih]

theorem Stmt.allBreaksInLoops_iff {around : Bool} {ss : List Stmt} :
    Stmt.AllBreaksInLoops around ss ↔ ∀ s ∈ ss, s.BreaksInLoops around := by
  induction ss with
  | nil => simp [Stmt.AllBreaksInLoops]
  | cons s ss ih => simp [Stmt.AllBreaksInLoops, ih]

/-- The second statement stands in the first, in no function in it, and in a loop in it only if
`loops` allows so. -/
inductive Stmt.Holds (loops : Bool) : Stmt → Stmt → Prop
  | self {s} : Holds loops s s
  | block {body s t} : s ∈ body → Holds loops s t → Holds loops (.block body) t
  | thenBranch {condition s elseBranch t} : Holds loops s t →
    Holds loops (.ifElse condition s elseBranch) t
  | elseBranch {condition thenBranch s t} : Holds loops s t →
    Holds loops (.ifElse condition thenBranch (some s)) t
  | loop {condition body t} : loops = true → Holds loops body t →
    Holds loops (.whileLoop condition body) t

/-- A `break` that stands in no loop of a statement is in a loop around it. -/
theorem Stmt.Holds.around {s : Stmt} {keyword : Token} (h : s.Holds false (.breakLoop keyword))
    {around : Bool} (breaks : s.BreaksInLoops around) : around = true := by
  generalize target : Stmt.breakLoop keyword = t at h
  induction h with
  | self =>
    subst target
    exact breaks
  | block mem _ ih => exact ih (Stmt.allBreaksInLoops_iff.mp breaks _ mem) target
  | @thenBranch condition s elseBranch t _ ih =>
    cases elseBranch with
    | none => exact ih breaks.2 target
    | some elseBranch => exact ih breaks.2.1 target
  | elseBranch _ ih => exact ih breaks.2.2 target
  | loop allowed _ _ => cases allowed

end Lox
