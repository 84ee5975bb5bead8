import Lox.Proofs.Parsed

/-!
# Code of programs

The expressions, statements and functions that stand in a program, at any depth. What a program
promises of its code holds of each piece of it.
-/

namespace Lox

/-- A piece of a program. A method called `init` is an initializer. -/
inductive Code where
  | expr (e : Expr)
  | stmt (s : Stmt)
  | function (isInitializer : Bool) (params : List Token) (body : List Stmt)

def FunctionDecl.code (f : FunctionDecl) (isInitializer : Bool) : Code :=
  .function isInitializer f.params f.body

def Closure.code (f : Closure) : Code := .function f.isInitializer f.params f.body

def Expr.parts : Expr → List Code
  | .literal _ | .variable _ | .this _ | .super _ _ => []
  | .grouping inner => [.expr inner]
  | .unary _ operand => [.expr operand]
  | .binary left _ right => [.expr left, .expr right]
  | .logical left _ right => [.expr left, .expr right]
  | .assign _ value => [.expr value]
  | .call callee _ arguments => .expr callee :: arguments.map .expr
  | .get object _ => [.expr object]
  | .set object _ value => [.expr object, .expr value]
  | .lambda params body => [.function false params body]

/-- The pieces directly inside a statement. A superclass is evaluated like a variable. -/
def Stmt.parts : Stmt → List Code
  | .expression e => [.expr e]
  | .print e => [.expr e]
  | .var _ initializer => (initializer.map .expr).toList
  | .block body => body.map .stmt
  | .ifElse condition thenBranch elseBranch =>
    .expr condition :: .stmt thenBranch :: (elseBranch.map .stmt).toList
  | .whileLoop condition body => [.expr condition, .stmt body]
  | .breakLoop _ => []
  | .returnFrom _ value => (value.map .expr).toList
  | .function declaration => [declaration.code false]
  | .classDecl _ superclass methods =>
    (superclass.map fun use => .expr (.variable use)).toList ++
      methods.map fun f => f.code f.isInitializer

def Code.parts : Code → List Code
  | .expr e => e.parts
  | .stmt s => s.parts
  | .function _ _ body => body.map .stmt

inductive Program.Contains (p : Program) : Code → Prop
  | statement {s} : s ∈ p.statements → Contains p (.stmt s)
  | trailing {e} : p.trailing = some e → Contains p (.expr e)
  | part {c d} : Contains p c → d ∈ c.parts → Contains p d

/-! ### Proper code -/

def Code.Proper : Code → Prop
  | .expr e => e.Proper
  | .stmt s => s.Proper
  | .function _ params body => (∀ p ∈ params, p.IsName) ∧ Stmt.ProperAll body

/-- What is promised of a list item by item holds of each item. -/
theorem of_mem_of_cons {P : α → Prop} {All : List α → Prop}
    (cons : ∀ a as, All (a :: as) → P a ∧ All as) {as : List α} (h : All as) {a : α} (mem : a ∈ as) :
    P a := by
  induction as with
  | nil => cases mem
  | cons b as ih =>
    obtain rfl | later := List.mem_cons.mp mem
    · exact (cons a as h).1
    · exact ih (cons b as h).2 later

theorem Stmt.ProperAll.of_mem {ss : List Stmt} (h : Stmt.ProperAll ss) {s : Stmt} (mem : s ∈ ss) :
    s.Proper := of_mem_of_cons (fun _ _ h => h) h mem

theorem Expr.ProperAll.of_mem {es : List Expr} (h : Expr.ProperAll es) {e : Expr} (mem : e ∈ es) :
    e.Proper := of_mem_of_cons (fun _ _ h => h) h mem

theorem FunctionDecl.ProperAll.of_mem {fs : List FunctionDecl} (h : FunctionDecl.ProperAll fs)
    {f : FunctionDecl} (mem : f ∈ fs) : f.Proper := of_mem_of_cons (fun _ _ h => h) h mem

theorem FunctionDecl.Proper.code {f : FunctionDecl} (h : f.Proper) (isInitializer : Bool) :
    (f.code isInitializer).Proper := by
  cases f
  exact h.2

theorem Expr.Proper.part {e : Expr} (h : e.Proper) {c : Code} (mem : c ∈ e.parts) : c.Proper := by
  cases e with
  | literal | «variable» | this | super => cases mem
  | grouping | unary | get | lambda =>
    obtain rfl := List.mem_singleton.mp mem
    exact h
  | assign target value =>
    obtain rfl := List.mem_singleton.mp mem
    exact h.2
  | binary | logical | set =>
    obtain rfl | mem := List.mem_cons.mp mem
    · exact h.1
    · obtain rfl := List.mem_singleton.mp mem
      exact h.2
  | call callee paren arguments =>
    obtain rfl | mem := List.mem_cons.mp mem
    · exact h.1
    · obtain ⟨e, inside, rfl⟩ := List.mem_map.mp mem
      exact Expr.ProperAll.of_mem h.2 inside

theorem Stmt.Proper.part {s : Stmt} (h : s.Proper) {c : Code} (mem : c ∈ s.parts) : c.Proper := by
  cases s with
  | expression | print =>
    obtain rfl := List.mem_singleton.mp mem
    exact h
  | var name initializer =>
    cases initializer with
    | none => cases mem
    | some e =>
      obtain rfl := List.mem_singleton.mp mem
      exact h.2
  | block body =>
    obtain ⟨s, inside, rfl⟩ := List.mem_map.mp mem
    exact Stmt.ProperAll.of_mem h inside
  | ifElse condition thenBranch elseBranch =>
    cases elseBranch with
    | none =>
      obtain rfl | mem := List.mem_cons.mp mem
      · exact h.1
      · obtain rfl := List.mem_singleton.mp mem
        exact h.2.1
    | some elseBranch =>
      obtain rfl | mem := List.mem_cons.mp mem
      · exact h.1
      obtain rfl | mem := List.mem_cons.mp mem
      · exact h.2.1.1
      · obtain rfl := List.mem_singleton.mp mem
        exact h.2.2.1
  | whileLoop condition body =>
    obtain rfl | mem := List.mem_cons.mp mem
    · exact h.1
    · obtain rfl := List.mem_singleton.mp mem
      exact h.2.1
  | breakLoop keyword => cases mem
  | returnFrom keyword value =>
    cases value with
    | none => cases mem
    | some e =>
      obtain rfl := List.mem_singleton.mp mem
      exact h
  | function declaration =>
    obtain rfl := List.mem_singleton.mp mem
    exact FunctionDecl.Proper.code h false
  | classDecl name superclass methods =>
    obtain mem | mem := List.mem_append.mp mem
    · cases superclass with
      | none => cases mem
      | some use =>
        obtain rfl := List.mem_singleton.mp mem
        exact h.2.1
    · obtain ⟨f, inside, rfl⟩ := List.mem_map.mp mem
      refine FunctionDecl.Proper.code (FunctionDecl.ProperAll.of_mem ?_ inside) _
      cases superclass with
      | none => exact h.2
      | some use => exact h.2.2

theorem Code.Proper.part {c d : Code} (h : c.Proper) (mem : d ∈ c.parts) : d.Proper := by
  cases c with
  | expr e => exact Expr.Proper.part h mem
  | stmt s => exact Stmt.Proper.part h mem
  | function isInitializer params body =>
    obtain ⟨s, inside, rfl⟩ := List.mem_map.mp mem
    exact Stmt.ProperAll.of_mem h.2 inside

/-! ### Code with each `break` in a loop -/

def Code.BreaksInLoops : Code → Prop
  | .expr e => e.BreaksInLoops
  | .stmt s => ∃ around, s.BreaksInLoops around
  | .function _ _ body => Stmt.AllBreaksInLoops false body

theorem FunctionDecl.BreaksInLoops.code {f : FunctionDecl} (h : f.BreaksInLoops)
    (isInitializer : Bool) : (f.code isInitializer).BreaksInLoops := by
  cases f
  exact h

theorem Expr.BreaksInLoops.part {e : Expr} (h : e.BreaksInLoops) {c : Code} (mem : c ∈ e.parts) :
    c.BreaksInLoops := by
  cases e with
  | literal | «variable» | this | super => cases mem
  | grouping | unary | get | lambda | assign =>
    obtain rfl := List.mem_singleton.mp mem
    exact h
  | binary | logical | set =>
    obtain rfl | mem := List.mem_cons.mp mem
    · exact h.1
    · obtain rfl := List.mem_singleton.mp mem
      exact h.2
  | call callee paren arguments =>
    obtain rfl | mem := List.mem_cons.mp mem
    · exact h.1
    · obtain ⟨e, inside, rfl⟩ := List.mem_map.mp mem
      exact Expr.allBreaksInLoops_iff.mp h.2 e inside

theorem Stmt.BreaksInLoops.part {around : Bool} {s : Stmt} (h : s.BreaksInLoops around) {c : Code}
    (mem : c ∈ s.parts) : c.BreaksInLoops := by
  cases s with
  | expression | print =>
    obtain rfl := List.mem_singleton.mp mem
    exact h
  | var name initializer =>
    cases initializer with
    | none => cases mem
    | some e =>
      obtain rfl := List.mem_singleton.mp mem
      exact h
  | block body =>
    obtain ⟨s, inside, rfl⟩ := List.mem_map.mp mem
    exact ⟨around, Stmt.allBreaksInLoops_iff.mp h s inside⟩
  | ifElse condition thenBranch elseBranch =>
    cases elseBranch with
    | none =>
      obtain rfl | mem := List.mem_cons.mp mem
      · exact h.1
      · obtain rfl := List.mem_singleton.mp mem
        exact ⟨around, h.2⟩
    | some elseBranch =>
      obtain rfl | mem := List.mem_cons.mp mem
      · exact h.1
      obtain rfl | mem := List.mem_cons.mp mem
      · exact ⟨around, h.2.1⟩
      · obtain rfl := List.mem_singleton.mp mem
        exact ⟨around, h.2.2⟩
  | whileLoop condition body =>
    obtain rfl | mem := List.mem_cons.mp mem
    · exact h.1
    · obtain rfl := List.mem_singleton.mp mem
      exact ⟨true, h.2⟩
  | breakLoop keyword => cases mem
  | returnFrom keyword value =>
    cases value with
    | none => cases mem
    | some e =>
      obtain rfl := List.mem_singleton.mp mem
      exact h
  | function declaration =>
    obtain rfl := List.mem_singleton.mp mem
    exact FunctionDecl.BreaksInLoops.code h false
  | classDecl name superclass methods =>
    obtain mem | mem := List.mem_append.mp mem
    · cases superclass with
      | none => cases mem
      | some use =>
        obtain rfl := List.mem_singleton.mp mem
        trivial
    · obtain ⟨f, inside, rfl⟩ := List.mem_map.mp mem
      exact FunctionDecl.BreaksInLoops.code (FunctionDecl.allBreaksInLoops_iff.mp h f inside) _

theorem Code.BreaksInLoops.part {c d : Code} (h : c.BreaksInLoops) (mem : d ∈ c.parts) :
    d.BreaksInLoops := by
  cases c with
  | expr e => exact Expr.BreaksInLoops.part h mem
  | stmt s =>
    obtain ⟨around, h⟩ := h
    exact h.part mem
  | function isInitializer params body =>
    obtain ⟨s, inside, rfl⟩ := List.mem_map.mp mem
    exact ⟨false, Stmt.allBreaksInLoops_iff.mp h s inside⟩

/-! ### Code of lawful programs -/

theorem Program.Lawful.proper {p : Program} {i j : Nat} (h : p.Lawful i j) {c : Code}
    (contains : p.Contains c) : c.Proper := by
  induction contains with
  | statement mem => exact Stmt.ProperAll.of_mem h.statements mem
  | trailing here => exact h.trailing _ here
  | part _ mem ih => exact ih.part mem

theorem Program.Lawful.breaksInLoops {p : Program} {i j : Nat} (h : p.Lawful i j) {c : Code}
    (contains : p.Contains c) : c.BreaksInLoops := by
  induction contains with
  | statement mem => exact ⟨false, Stmt.allBreaksInLoops_iff.mp h.breaks _ mem⟩
  | trailing here => exact h.trailingBreaks _ here
  | part _ mem ih => exact ih.part mem

end Lox
