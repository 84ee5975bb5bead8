import Lox.Proofs.Code
import Lox.Proofs.Points.Walk
import Lox.Proofs.StaticViolations

/-!
# Where code stands

The pieces of a program with the ways out from them. The points of a piece are points of the
program, and the way out of a function tells of which kind the function is: `Program.Stands.points`
and `Program.Stands.function`.
-/

namespace Lox

/-! ### Parts with the ways out -/

def Stmt.placesAll (path : Path) : List Stmt → List (Path × Code)
  | [] => []
  | s :: ss => (path, .stmt s) :: Stmt.placesAll (.past s :: path) ss

/-- The pieces directly inside an expression with the ways out from them. -/
def Expr.places (path : Path) : Expr → List (Path × Code)
  | .lambda params body => [(.function :: path, .function false params body)]
  | e => e.parts.map (path, ·)

def Stmt.places (path : Path) : Stmt → List (Path × Code)
  | .var name (some e) => [(.initializer name :: path, .expr e)]
  | .block body => Stmt.placesAll (.block :: path) body
  | .ifElse condition thenBranch (some elseBranch) =>
    [(path, .expr condition), (path, .stmt thenBranch),
      (.past thenBranch :: path, .stmt elseBranch)]
  | .function declaration =>
    [(.function :: .declared declaration.name :: path, declaration.code false)]
  | .classDecl name none methods =>
    methods.map fun f =>
      (.method f.name :: .methods false :: .declared name :: path, f.code f.isInitializer)
  | .classDecl name (some superclass) methods =>
    (.declared name :: path, .expr (.variable superclass)) :: methods.map fun f =>
      (.method f.name :: .methods true :: .superclass :: .declared name :: path,
        f.code f.isInitializer)
  | s => s.parts.map (path, ·)

namespace Code

/-- The pieces directly inside a piece of code with the ways out from them. The way out of a
function begins at its parameters. -/
def places (path : Path) : Code → List (Path × Code)
  | .expr e => e.places path
  | .stmt s => s.places path
  | .function _ params body => Stmt.placesAll (path.behind params) body

def points (path : Path) : Code → List Point
  | .expr e => e.points path
  | .stmt s => s.points path
  | .function _ params body =>
    Point.params path params ++ Stmt.pointsAll (path.behind params) body

/-- The way out of a function begins with a step that tells whether it is an initializer; around
other code the nearest function is that of the piece around it. -/
def Judged (path outer : Path) : Code → Prop
  | .function isInitializer _ _ => path.function = .initializer ↔ isInitializer = true
  | _ => path.function = outer.function

end Code

inductive Program.Stands (p : Program) : Path → Code → Prop
  | statement {place} : place ∈ Stmt.placesAll [] p.statements → Stands p place.1 place.2
  | trailing {e} : p.trailing = some e → Stands p (Path.past [] p.statements) (.expr e)
  | part {path c place} : Stands p path c → place ∈ c.places path → Stands p place.1 place.2

/-! ### Places are parts -/

theorem Stmt.map_snd_placesAll (path : Path) (ss : List Stmt) :
    (Stmt.placesAll path ss).map Prod.snd = ss.map .stmt := by
  induction ss generalizing path with
  | nil => rfl
  | cons s ss ih => exact congrArg (Code.stmt s :: ·) (ih _)

theorem Code.map_snd_places (path : Path) (c : Code) : (c.places path).map Prod.snd = c.parts := by
  have same (parts : List Code) : (parts.map (Prod.mk path)).map Prod.snd = parts := by
    rw [List.map_map]
    exact List.map_id _
  cases c with
  | expr e =>
    cases e with
    | lambda params body => rfl
    | _ => exact same _
  | stmt s =>
    cases s with
    | var name initializer =>
      cases initializer with
      | none => exact same _
      | some e => rfl
    | block body => exact Stmt.map_snd_placesAll _ body
    | ifElse condition thenBranch elseBranch =>
      cases elseBranch with
      | none => exact same _
      | some elseBranch => rfl
    | function declaration => rfl
    | classDecl name superclass methods =>
      cases superclass with
      | none => exact List.map_map
      | some use => exact congrArg (Code.expr (.variable use) :: ·) List.map_map
    | _ => exact same _
  | function isInitializer params body => exact Stmt.map_snd_placesAll _ body

theorem Code.exists_place {c d : Code} (mem : d ∈ c.parts) (path : Path) :
    ∃ path', (path', d) ∈ c.places path := by
  rw [← c.map_snd_places path] at mem
  obtain ⟨⟨path', d⟩, here, rfl⟩ := List.mem_map.mp mem
  exact ⟨path', here⟩

/-- All code of a program stands somewhere in it. -/
theorem Program.Contains.stands {p : Program} {c : Code} (h : p.Contains c) :
    ∃ path, p.Stands path c := by
  induction h with
  | @statement s mem =>
    have placed : Code.stmt s ∈ (Stmt.placesAll [] p.statements).map Prod.snd := by
      rw [Stmt.map_snd_placesAll]
      exact List.mem_map.mpr ⟨s, mem, rfl⟩
    obtain ⟨⟨path, c⟩, mem, rfl⟩ := List.mem_map.mp placed
    exact ⟨path, .statement mem⟩
  | trailing here => exact ⟨_, .trailing here⟩
  | part _ mem ih =>
    obtain ⟨path, stands⟩ := ih
    obtain ⟨path', mem⟩ := Code.exists_place mem path
    exact ⟨path', .part stands mem⟩

/-! ### Points of places -/

theorem Stmt.points_placesAll {path : Path} {ss : List Stmt} {place : Path × Code}
    (mem : place ∈ Stmt.placesAll path ss) :
    place.2.points place.1 ⊆ Stmt.pointsAll path ss := by
  induction ss generalizing path with
  | nil => cases mem
  | cons s ss ih =>
    obtain rfl | mem := List.mem_cons.mp mem
    · exact List.subset_append_left _ _
    · exact List.subset_append_of_subset_right _ (ih mem)

theorem Expr.points_all {path : Path} {es : List Expr} {e : Expr} (mem : e ∈ es) :
    e.points path ⊆ Expr.pointsAll path es := by
  induction es with
  | nil => cases mem
  | cons e' es ih =>
    obtain rfl | mem := List.mem_cons.mp mem
    · exact List.subset_append_left _ _
    · exact List.subset_append_of_subset_right _ (ih mem)

theorem FunctionDecl.points_all {path : Path} {fs : List FunctionDecl} {f : FunctionDecl}
    (mem : f ∈ fs) : f.points (.method f.name :: path) ⊆ FunctionDecl.pointsAll path fs := by
  induction fs with
  | nil => cases mem
  | cons f' fs ih =>
    obtain rfl | mem := List.mem_cons.mp mem
    · exact List.subset_append_left _ _
    · exact List.subset_append_of_subset_right _ (ih mem)

theorem FunctionDecl.points_code (f : FunctionDecl) (isInitializer : Bool) (path : Path) :
    (f.code isInitializer).points path = f.points path := by
  cases f
  rfl

theorem Expr.points_places {path : Path} {e : Expr} {place : Path × Code}
    (mem : place ∈ e.places path) : place.2.points place.1 ⊆ e.points path := by
  cases e with
  | literal | «variable» | this | super => cases mem
  | grouping | unary | get | lambda =>
    obtain rfl := List.mem_singleton.mp mem
    exact List.Subset.refl _
  | assign target value =>
    obtain rfl := List.mem_singleton.mp mem
    exact List.subset_append_left _ _
  | binary | logical =>
    obtain rfl | mem := List.mem_cons.mp mem
    · exact List.subset_append_left _ _
    · obtain rfl := List.mem_singleton.mp mem
      exact List.subset_append_right _ _
  | set object name value =>
    obtain rfl | mem := List.mem_cons.mp mem
    · exact List.subset_append_right _ _
    · obtain rfl := List.mem_singleton.mp mem
      exact List.subset_append_left _ _
  | call callee paren arguments =>
    obtain rfl | mem := List.mem_cons.mp mem
    · exact List.subset_append_left _ _
    · rw [List.map_map] at mem
      obtain ⟨e, inside, rfl⟩ := List.mem_map.mp mem
      exact List.subset_append_of_subset_right _ (Expr.points_all inside)

theorem Stmt.points_places {path : Path} {s : Stmt} {place : Path × Code}
    (mem : place ∈ s.places path) : place.2.points place.1 ⊆ s.points path := by
  cases s with
  | expression | print =>
    obtain rfl := List.mem_singleton.mp mem
    exact List.Subset.refl _
  | var name initializer =>
    cases initializer with
    | none => cases mem
    | some e =>
      obtain rfl := List.mem_singleton.mp mem
      exact List.subset_cons_self _ _
  | block body => exact Stmt.points_placesAll mem
  | ifElse condition thenBranch elseBranch =>
    cases elseBranch with
    | none =>
      obtain rfl | mem := List.mem_cons.mp mem
      · exact List.subset_append_left _ _
      · obtain rfl := List.mem_singleton.mp mem
        exact List.subset_append_right _ _
    | some elseBranch =>
      obtain rfl | mem := List.mem_cons.mp mem
      · exact List.subset_append_of_subset_left _ (List.subset_append_left _ _)
      obtain rfl | mem := List.mem_cons.mp mem
      · exact List.subset_append_of_subset_left _ (List.subset_append_right _ _)
      · obtain rfl := List.mem_singleton.mp mem
        exact List.subset_append_right _ _
  | whileLoop condition body =>
    obtain rfl | mem := List.mem_cons.mp mem
    · exact List.subset_append_left _ _
    · obtain rfl := List.mem_singleton.mp mem
      exact List.subset_append_right _ _
  | breakLoop keyword => cases mem
  | returnFrom keyword value =>
    cases value with
    | none => cases mem
    | some e =>
      obtain rfl := List.mem_singleton.mp mem
      exact List.subset_cons_self _ _
  | function declaration =>
    obtain rfl := List.mem_singleton.mp mem
    rw [FunctionDecl.points_code]
    exact List.subset_cons_self _ _
  | classDecl name superclass methods =>
    cases superclass with
    | none =>
      obtain ⟨f, inside, rfl⟩ := List.mem_map.mp mem
      rw [FunctionDecl.points_code]
      exact List.subset_cons_of_subset _ (FunctionDecl.points_all inside)
    | some use =>
      obtain rfl | mem := List.mem_cons.mp mem
      · exact List.subset_cons_of_subset _ (List.subset_cons_of_subset _
          (List.cons_subset_cons _ (List.nil_subset _)))
      · obtain ⟨f, inside, rfl⟩ := List.mem_map.mp mem
        rw [FunctionDecl.points_code]
        exact List.subset_cons_of_subset _ (List.subset_cons_of_subset _
          (List.subset_cons_of_subset _ (FunctionDecl.points_all inside)))

theorem Code.points_places {path : Path} {c : Code} {place : Path × Code}
    (mem : place ∈ c.places path) : place.2.points place.1 ⊆ c.points path := by
  cases c with
  | expr e => exact Expr.points_places mem
  | stmt s => exact Stmt.points_places mem
  | function isInitializer params body =>
    exact List.subset_append_of_subset_right _ (Stmt.points_placesAll mem)

namespace Program.Stands

variable {p : Program} {path : Path} {c : Code}

theorem points (h : p.Stands path c) : c.points path ⊆ p.points := by
  induction h with
  | statement mem => exact List.subset_append_of_subset_left _ (Stmt.points_placesAll mem)
  | trailing here =>
    unfold Program.points
    rw [here]
    exact List.subset_append_right _ _
  | part _ mem ih => exact List.Subset.trans (Code.points_places mem) ih

end Program.Stands

/-! ### Kinds of functions -/

namespace Path

theorem function_cons {step : Step} (inside : step.function? = none) (path : Path) :
    function (step :: path) = path.function := by
  unfold function
  rw [List.findSome?_cons_of_isNone (by rw [inside]; rfl)]

theorem function_method (name : Token) (path : Path) :
    function (.method name :: path) = .initializer ↔ (name.lexeme == "init") = true := by
  change (if name.lexeme == "init" then FunctionContext.initializer else .method) = _ ↔ _
  split <;> simp_all

theorem function_past (path : Path) (s : Stmt) : function (.past s :: path) = path.function :=
  function_cons rfl path

theorem function_behind (path : Path) (params : List Token) :
    (path.behind params).function = path.function := by
  induction params generalizing path with
  | nil => rfl
  | cons t ts ih => exact (ih (.declared t :: path)).trans (function_cons rfl path)

end Path

/-- Statements in a row stand in the same function. -/
theorem Stmt.mem_placesAll {path : Path} {ss : List Stmt} {place : Path × Code}
    (mem : place ∈ Stmt.placesAll path ss) :
    ∃ s ∈ ss, place.2 = .stmt s ∧ place.1.function = path.function := by
  induction ss generalizing path with
  | nil => cases mem
  | cons s ss ih =>
    obtain rfl | mem := List.mem_cons.mp mem
    · exact ⟨s, List.mem_cons_self, rfl, rfl⟩
    · obtain ⟨s', inside, same, function⟩ := ih mem
      exact ⟨s', List.mem_cons_of_mem s inside, same, function.trans (path.function_past s)⟩

namespace Code

theorem judged_placesAll {path outer : Path} (same : path.function = outer.function)
    {ss : List Stmt} {place : Path × Code} (mem : place ∈ Stmt.placesAll path ss) :
    place.2.Judged place.1 outer := by
  obtain ⟨s, -, here, function⟩ := Stmt.mem_placesAll mem
  rw [here]
  exact function.trans same

theorem judged_exprs {path : Path} {es : List Expr} {place : Path × Code}
    (mem : place ∈ es.map fun e => (path, Code.expr e)) : place.2.Judged place.1 path := by
  obtain ⟨e, -, rfl⟩ := List.mem_map.mp mem
  rfl

/-- A function declaration or a function without a name is no initializer. -/
theorem judged_function (params : List Token) (body : List Stmt) (path outer : Path) :
    (Code.function false params body).Judged (.function :: path) outer := by
  constructor <;> nofun

/-- A method is an initializer if its name says so. -/
theorem judged_method (f : FunctionDecl) (path outer : Path) :
    (f.code f.isInitializer).Judged (.method f.name :: path) outer := path.function_method f.name

theorem judged_expr {path : Path} {e : Expr} {place : Path × Code} (mem : place ∈ e.places path) :
    place.2.Judged place.1 path := by
  cases e with
  | literal | «variable» | this | super => cases mem
  | grouping | unary | get | assign =>
    obtain rfl := List.mem_singleton.mp mem
    rfl
  | binary | logical | set =>
    obtain rfl | mem := List.mem_cons.mp mem
    · rfl
    · obtain rfl := List.mem_singleton.mp mem
      rfl
  | call callee paren arguments =>
    obtain rfl | mem := List.mem_cons.mp mem
    · rfl
    · rw [List.map_map] at mem
      exact judged_exprs mem
  | lambda params body =>
    obtain rfl := List.mem_singleton.mp mem
    exact judged_function params body path path

theorem judged_stmt {path : Path} {s : Stmt} {place : Path × Code} (mem : place ∈ s.places path) :
    place.2.Judged place.1 path := by
  cases s with
  | expression | print =>
    obtain rfl := List.mem_singleton.mp mem
    rfl
  | var name initializer =>
    cases initializer with
    | none => cases mem
    | some e =>
      obtain rfl := List.mem_singleton.mp mem
      exact path.function_cons rfl
  | block body => exact judged_placesAll (path.function_cons rfl) mem
  | ifElse condition thenBranch elseBranch =>
    cases elseBranch with
    | none =>
      obtain rfl | mem := List.mem_cons.mp mem
      · rfl
      · obtain rfl := List.mem_singleton.mp mem
        rfl
    | some elseBranch =>
      obtain rfl | mem := List.mem_cons.mp mem
      · rfl
      obtain rfl | mem := List.mem_cons.mp mem
      · rfl
      · obtain rfl := List.mem_singleton.mp mem
        exact path.function_past thenBranch
  | whileLoop condition body =>
    obtain rfl | mem := List.mem_cons.mp mem
    · rfl
    · obtain rfl := List.mem_singleton.mp mem
      rfl
  | breakLoop keyword => cases mem
  | returnFrom keyword value =>
    cases value with
    | none => cases mem
    | some e =>
      obtain rfl := List.mem_singleton.mp mem
      rfl
  | function declaration =>
    obtain rfl := List.mem_singleton.mp mem
    exact judged_function declaration.params declaration.body _ path
  | classDecl name superclass methods =>
    cases superclass with
    | none =>
      obtain ⟨f, -, rfl⟩ := List.mem_map.mp mem
      exact judged_method f _ path
    | some use =>
      obtain rfl | mem := List.mem_cons.mp mem
      · exact path.function_cons rfl
      · obtain ⟨f, -, rfl⟩ := List.mem_map.mp mem
        exact judged_method f _ path

theorem judged {path : Path} {c : Code} {place : Path × Code} (mem : place ∈ c.places path) :
    place.2.Judged place.1 path := by
  cases c with
  | expr e => exact judged_expr mem
  | stmt s => exact judged_stmt mem
  | function isInitializer params body =>
    exact judged_placesAll (path.function_behind params) mem

end Code

namespace Program.Stands

variable {p : Program} {path : Path}

/-- The functions whose `return`s the resolver restricts are the methods called `init`. -/
theorem function {isInitializer : Bool} {params : List Token} {body : List Stmt}
    (h : p.Stands path (.function isInitializer params body)) :
    path.function = .initializer ↔ isInitializer = true := by
  generalize target : Code.function isInitializer params body = c at h
  cases h with
  | statement mem =>
    obtain ⟨s, -, here, -⟩ := Stmt.mem_placesAll mem
    rw [here] at target
    cases target
  | trailing => cases target
  | part _ mem =>
    have judged := Code.judged mem
    rwa [← target] at judged

/-- A statement directly inside stands in the same function. -/
theorem statement_of_part {c : Code} (h : p.Stands path c) {s : Stmt} (inside : .stmt s ∈ c.parts) :
    ∃ path', p.Stands path' (.stmt s) ∧ path'.function = path.function := by
  obtain ⟨path', mem⟩ := Code.exists_place inside path
  exact ⟨path', h.part mem, Code.judged mem⟩

/-- A statement in another, and in no function inside it, stands in the same function. -/
theorem statement_of_holds {s t : Stmt} (h : p.Stands path (.stmt s)) (holds : s.Holds true t) :
    ∃ path', p.Stands path' (.stmt t) ∧ path'.function = path.function := by
  induction holds generalizing path with
  | self => exact ⟨path, h, rfl⟩
  | block inside _ ih =>
    obtain ⟨path', stands, same⟩ := h.statement_of_part (List.mem_map.mpr ⟨_, inside, rfl⟩)
    exact same ▸ ih stands
  | thenBranch _ ih =>
    obtain ⟨path', stands, same⟩ := h.statement_of_part (List.mem_cons_of_mem _ List.mem_cons_self)
    exact same ▸ ih stands
  | elseBranch _ ih =>
    obtain ⟨path', stands, same⟩ :=
      h.statement_of_part (List.mem_cons_of_mem _ (List.mem_cons_of_mem _ List.mem_cons_self))
    exact same ▸ ih stands
  | loop _ _ ih =>
    obtain ⟨path', stands, same⟩ := h.statement_of_part (List.mem_cons_of_mem _ List.mem_cons_self)
    exact same ▸ ih stands

/-- No `return` in an initializer of a program with no static error has a value. -/
theorem returns_nothing {params : List Token} {body : List Stmt}
    (h : p.Stands path (.function true params body)) (clean : p.resolve.errors = []) {s : Stmt}
    (inside : s ∈ body) {keyword : Token} {value : Option Expr}
    (holds : s.Holds true (.returnFrom keyword value)) : value = none := by
  obtain ⟨path₁, stands, same⟩ := h.statement_of_part (List.mem_map.mpr ⟨s, inside, rfl⟩)
  obtain ⟨path₂, stands, same'⟩ := stands.statement_of_holds holds
  have initializer : path₂.function = .initializer := (same'.trans same).trans (h.function.mpr rfl)
  cases value with
  | none => rfl
  | some e =>
    let point : Point := ⟨path₂, .returnFrom keyword true⟩
    have here : point ∈ p.points := stands.points List.mem_cons_self
    have fault : StaticFault.valueFromInitializer ∈ point.faults :=
      Point.mem_faults.mpr (.valueFromInitializer initializer)
    rw [Program.faults_eq_nil clean here] at fault
    cases fault

end Program.Stands

end Lox
