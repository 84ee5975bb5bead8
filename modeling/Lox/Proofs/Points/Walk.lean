import Lox.Proofs.Points
import Lox.Proofs.Resolved
import Mathlib.Data.List.Forall2

/-!
# The walk over the points

The scopes that the resolver keeps are those along the path, so it finds at each point what the path
says: `Program.walk`. After an expression or function the scopes are as before, and after a statement
the innermost one holds the names that the statement declares.
-/

namespace Lox

variable {path : Path} {r r' mid : Resolution} {t : Token} {x : String} {use : Use}

/-! ### Scopes after a part -/

namespace Resolution

theorem scopes_put_eq (r : Resolution) (name : String) (complete : Bool) :
    (r.put name complete).scopes = r.scopes.modifyHead (·.insert name complete) := by
  unfold put
  cases scopes : r.scopes with
  | nil => exact scopes
  | cons scope outer => rfl

theorem scopes_declare_eq (r : Resolution) (t : Token) :
    (r.declare t).scopes = r.scopes.modifyHead (·.insert t.lexeme false) := by
  rw [declare, scopes_reportIf, scopes_put_eq]

theorem scopes_introduce_eq (r : Resolution) (t : Token) :
    (r.introduce t).scopes = (r.declare t).scopes.modifyHead (·.insert t.lexeme true) := by
  rw [introduce, define, scopes_put_eq]

theorem scopes_introduce_congr (same : r.scopes = r'.scopes) (t : Token) :
    (r.introduce t).scopes = (r'.introduce t).scopes := by
  simp only [scopes_introduce_eq, scopes_declare_eq, same]

theorem scopes_introduceAll_congr (same : r.scopes = r'.scopes) (ts : List Token) :
    (ts.foldl introduce r).scopes = (ts.foldl introduce r').scopes := by
  induction ts generalizing r r' with
  | nil => exact same
  | cons t ts ih => exact ih (scopes_introduce_congr same t)

theorem tail_scopes_introduceAll (ts : List Token) (r : Resolution) :
    (ts.foldl introduce r).scopes.tail = r.scopes.tail := by
  induction ts generalizing r with
  | nil => rfl
  | cons t ts ih =>
    rw [List.foldl_cons, ih, scopes_introduce_eq, scopes_declare_eq, List.tail_modifyHead,
      List.tail_modifyHead]

end Resolution

mutual

theorem Expr.scopes_resolve (c : Context) (e : Expr) (r : Resolution) :
    (e.resolveIn c r).scopes = r.scopes := by
  cases e with
  | literal value => rfl
  | grouping inner => exact inner.scopes_resolve c r
  | unary operator operand => exact operand.scopes_resolve c r
  | binary left operator right => exact (right.scopes_resolve c _).trans (left.scopes_resolve c r)
  | logical left operator right =>
    exact (right.scopes_resolve c _).trans (left.scopes_resolve c r)
  | «variable» use => exact r.scopes_read use
  | assign target value =>
    exact (Resolution.scopes_record _ target).trans (value.scopes_resolve c r)
  | this use => exact r.scopes_readThis c use
  | super use method => exact r.scopes_readSuper c use
  | call callee paren arguments =>
    exact (Expr.scopes_resolveAll c arguments _).trans (callee.scopes_resolve c r)
  | get object name => exact object.scopes_resolve c r
  | set object name value => exact (object.scopes_resolve c _).trans (value.scopes_resolve c r)
  | lambda params body =>
    have inside := Stmt.scopes_resolveAll { c with function := .function } body
      (r.enterFunction params)
    rw [Expr.resolveIn, Resolution.leave, inside, Resolution.tail_scopes_introduceAll]
    exact Resolution.tail_scopes_introduceAll params r.enter
termination_by structural e

theorem Expr.scopes_resolveAll (c : Context) (es : List Expr) (r : Resolution) :
    (Expr.resolveAllIn c es r).scopes = r.scopes := by
  cases es with
  | nil => rfl
  | cons e es => exact (Expr.scopes_resolveAll c es _).trans (e.scopes_resolve c r)
termination_by structural es

theorem FunctionDecl.scopes_resolve (c : Context) (f : FunctionDecl) (r : Resolution) :
    (f.resolveIn c r).scopes = r.scopes := by
  cases f with
  | mk name params body =>
    have inside := Stmt.scopes_resolveAll c body (r.enterFunction params)
    rw [FunctionDecl.resolveIn, Resolution.leave, inside, Resolution.tail_scopes_introduceAll]
    exact Resolution.tail_scopes_introduceAll params r.enter
termination_by structural f

theorem FunctionDecl.scopes_resolveAll (c : Context) (fs : List FunctionDecl) (r : Resolution) :
    (FunctionDecl.resolveAllIn c fs r).scopes = r.scopes := by
  cases fs with
  | nil => rfl
  | cons f fs => exact (FunctionDecl.scopes_resolveAll c fs _).trans (f.scopes_resolve _ r)
termination_by structural fs

/-- A statement declares its names in the innermost scope and leaves no other trace. -/
theorem Stmt.scopes_resolve (c : Context) (s : Stmt) (r : Resolution) :
    (s.resolveIn c r).scopes = (s.declares.foldl Resolution.introduce r).scopes := by
  cases s with
  | expression e => exact e.scopes_resolve c r
  | print e => exact e.scopes_resolve c r
  | var name initializer =>
    cases initializer with
    | none => rfl
    | some e =>
      rw [Stmt.resolveIn, Resolution.define, Resolution.scopes_put_eq, e.scopes_resolve]
      exact (r.scopes_introduce_eq name).symm
  | block body =>
    have inside := Stmt.scopes_resolveAll c body r.enter
    rw [Stmt.resolveIn, Resolution.leave, inside, Resolution.tail_scopes_introduceAll]
    rfl
  | ifElse condition thenBranch elseBranch =>
    cases elseBranch with
    | none =>
      rw [Stmt.resolveIn, thenBranch.scopes_resolve, Stmt.declares]
      exact Resolution.scopes_introduceAll_congr (condition.scopes_resolve c r) _
    | some elseBranch =>
      rw [Stmt.resolveIn, elseBranch.scopes_resolve, Stmt.declares, List.foldl_append]
      refine Resolution.scopes_introduceAll_congr ?_ _
      rw [thenBranch.scopes_resolve]
      exact Resolution.scopes_introduceAll_congr (condition.scopes_resolve c r) _
  | whileLoop condition body =>
    rw [Stmt.resolveIn, body.scopes_resolve, Stmt.declares]
    exact Resolution.scopes_introduceAll_congr (condition.scopes_resolve c r) _
  | breakLoop keyword => rfl
  | returnFrom keyword value =>
    cases value with
    | none => exact r.scopes_checkReturn c keyword false
    | some e => exact (e.scopes_resolve c _).trans (r.scopes_checkReturn c keyword true)
  | function declaration => exact declaration.scopes_resolve _ _
  | classDecl name superclass methods =>
    cases superclass with
    | none =>
      rw [Stmt.resolveIn, Resolution.leave, FunctionDecl.scopes_resolveAll, Resolution.enterClass,
        Resolution.scopes_put_eq, List.tail_modifyHead]
      rfl
    | some superclass =>
      have entered := (Resolution.scopes_read _ superclass).trans ((r.introduce name).scopes_reportIf
        (superclass.name.lexeme == name.lexeme) superclass.name .selfInheritance)
      rw [Stmt.resolveIn, Resolution.leave, Resolution.leave, FunctionDecl.scopes_resolveAll,
        Resolution.enterClass, Resolution.scopes_put_eq, List.tail_modifyHead]
      change (Resolution.enterDerived _ name superclass).scopes.tail = _
      rw [Resolution.enterDerived, Resolution.scopes_put_eq, List.tail_modifyHead]
      exact entered
termination_by structural s

theorem Stmt.scopes_resolveAll (c : Context) (ss : List Stmt) (r : Resolution) :
    (Stmt.resolveAllIn c ss r).scopes =
      ((ss.flatMap Stmt.declares).foldl Resolution.introduce r).scopes := by
  cases ss with
  | nil => rfl
  | cons s ss =>
    rw [Stmt.resolveAllIn, Stmt.scopes_resolveAll c ss, List.flatMap_cons, List.foldl_append]
    exact Resolution.scopes_introduceAll_congr (s.scopes_resolve c r) _
termination_by structural ss

end

/-! ### Scopes along a path -/

namespace Path

def context (path : Path) : Context := { function := path.function, cls := path.cls }

theorem context_behind (path : Path) (params : List Token) :
    (path.behind params).context = path.context := by
  induction params generalizing path with
  | nil => rfl
  | cons t params ih => exact ih _

/-- The path does not lead into an initializer. -/
def Settled (path : Path) : Prop := ∀ x, ¬ path.Initializes x

theorem Settled.cons {step : Step} (settled : path.Settled) (plain : step.initialized? = none) :
    Settled (step :: path) := by
  intro x initializes
  rcases initializes_cons.mp initializes with ⟨t, initialized, -⟩ | ⟨-, initializes⟩
  · rw [plain] at initialized
    cases initialized
  · exact settled x initializes

theorem settled_of_function {step : Step} (plain : step.initialized? = none)
    (function : step.function? ≠ none) : Settled (step :: path) := by
  intro x initializes
  rcases initializes_cons.mp initializes with ⟨t, initialized, -⟩ | ⟨outside, -⟩
  · rw [plain] at initialized
    cases initialized
  · exact function outside

theorem Initializes.scopes_ne_nil (initializes : path.Initializes x) : path.scopes ≠ [] := by
  have hold_ne {names : List String} {scopes : List (List String)} (ne : scopes ≠ []) :
      hold names scopes ≠ [] := by
    cases scopes with
    | nil => exact ne
    | cons scope outer => exact nofun
  induction initializes with
  | here same ne => exact hold_ne ne
  | @inside step path _ _ ih =>
    cases step with
    | past s => exact hold_ne ih
    | declared t => exact hold_ne ih
    | initializer t => exact hold_ne ih
    | _ => exact nofun

theorem initializes_initializer (settled : path.Settled) :
    Initializes x (.initializer t :: path) ↔ t.lexeme = x ∧ path.scopes ≠ [] := by
  rw [initializes_cons]
  constructor
  · rintro (⟨_, ⟨⟩, here⟩ | ⟨-, initializes⟩)
    · exact here
    · exact (settled x initializes).elim
  · intro here
    exact .inl ⟨t, rfl, here⟩

theorem hold_cons (name : String) (names : List String) (scopes : List (List String)) :
    hold (name :: names) scopes = hold names (hold [name] scopes) := by
  cases scopes with
  | nil => rfl
  | cons scope outer => simp [hold]

theorem hold_nil (scopes : List (List String)) : hold [] scopes = scopes := by
  cases scopes with
  | nil => rfl
  | cons scope outer => simp [hold]

end Path

def Scope.Hold (scopes : List Scope) (names : List (List String)) : Prop :=
  List.Forall₂ (fun scope names => ∀ x, scope.contains x = true ↔ x ∈ names) scopes names

/-- No declaration in the innermost scope is under way. -/
def Scope.Complete (scopes : List Scope) : Prop :=
  ∀ scope ∈ scopes.head?, ∀ x : String, scope[x]? ≠ some false

namespace Resolution

variable {names : List (List String)}

theorem hold_modifyHead {scopes : List Scope} {f : Scope → Scope} {added : List String}
    (holds : Scope.Hold scopes names)
    (adds : ∀ scope x, (f scope).contains x = true ↔ scope.contains x = true ∨ x ∈ added) :
    Scope.Hold (scopes.modifyHead f) (Path.hold added names) := by
  cases holds with
  | nil => exact .nil
  | cons here outer =>
    refine .cons (fun x => ?_) outer
    rw [adds, here, List.mem_append]

theorem hold_declare (holds : Scope.Hold r.scopes names) (t : Token) :
    Scope.Hold (r.declare t).scopes (Path.hold [t.lexeme] names) := by
  rw [scopes_declare_eq]
  apply hold_modifyHead holds
  intro scope x
  simp only [Std.TreeMap.contains_insert, Bool.or_eq_true, List.mem_singleton, beq_iff_eq,
    Std.LawfulEqCmp.compare_eq_iff_eq]
  tauto

theorem hold_introduce (holds : Scope.Hold r.scopes names) (t : Token) :
    Scope.Hold (r.introduce t).scopes (Path.hold [t.lexeme] names) := by
  rw [scopes_introduce_eq, scopes_declare_eq, List.modifyHead_modifyHead]
  apply hold_modifyHead holds
  intro scope x
  simp only [Function.comp, Std.TreeMap.contains_insert, Bool.or_eq_true, List.mem_singleton,
    beq_iff_eq, Std.LawfulEqCmp.compare_eq_iff_eq]
  tauto

theorem hold_introduceAll (holds : Scope.Hold r.scopes names) (ts : List Token) :
    Scope.Hold (ts.foldl introduce r).scopes (Path.hold (ts.map Token.lexeme) names) := by
  induction ts generalizing r names with
  | nil =>
    rw [List.map_nil, Path.hold_nil]
    exact holds
  | cons t ts ih =>
    rw [List.map_cons, Path.hold_cons]
    exact ih (hold_introduce holds t)

theorem complete_introduce (complete : Scope.Complete r.scopes) (t : Token) :
    Scope.Complete (r.introduce t).scopes := by
  rw [scopes_introduce_eq, scopes_declare_eq, List.modifyHead_modifyHead]
  intro scope here x
  cases scopes : r.scopes with
  | nil =>
    rw [scopes] at here
    cases here
  | cons head outer =>
    rw [scopes] at here
    obtain rfl := Option.some.inj here
    have before := complete head (by rw [scopes]; rfl) x
    simp only [Function.comp, Std.TreeMap.getElem?_insert]
    split
    · exact nofun
    · exact before

theorem complete_introduceAll (complete : Scope.Complete r.scopes) (ts : List Token) :
    Scope.Complete (ts.foldl introduce r).scopes := by
  induction ts generalizing r with
  | nil => exact complete
  | cons t ts ih => exact ih (complete_introduce complete t)

end Resolution

namespace Path

/-- The scopes hold the names that they hold along the path, and in the innermost one just the
variables are incomplete whose initializers are left. -/
structure Matches (path : Path) (scopes : List Scope) : Prop where
  names : Scope.Hold scopes path.scopes
  incomplete : ∀ scope ∈ scopes.head?, ∀ x : String, scope[x]? = some false ↔ path.Initializes x

theorem matches_nil : Matches [] [] := ⟨.nil, nofun⟩

theorem Matches.complete {scopes : List Scope} (matching : path.Matches scopes)
    (settled : path.Settled) : Scope.Complete scopes :=
  fun scope here x incomplete => settled x ((matching.incomplete scope here x).mp incomplete)

theorem matches_of_settled {scopes : List Scope} (settled : path.Settled)
    (names : Scope.Hold scopes path.scopes) (complete : Scope.Complete scopes) :
    path.Matches scopes :=
  ⟨names, fun scope here x => iff_of_false (complete scope here x) (settled x)⟩

theorem Matches.introduceAll {step : Step} (matching : path.Matches r.scopes)
    (settled : path.Settled) (ts : List Token) (plain : step.initialized? = none)
    (same : Path.scopes (step :: path) = hold (ts.map Token.lexeme) path.scopes) :
    Matches (step :: path) (ts.foldl Resolution.introduce r).scopes := by
  apply matches_of_settled (settled.cons plain)
  · rw [same]
    exact Resolution.hold_introduceAll matching.names ts
  · exact Resolution.complete_introduceAll (matching.complete settled) ts

theorem Matches.enter {step : Step} {scopes : List Scope} {scope : Scope} {names : List String}
    (matching : path.Matches scopes) (settled : Settled (step :: path))
    (same : Path.scopes (step :: path) = names :: path.scopes)
    (holds : ∀ x, scope.contains x = true ↔ x ∈ names)
    (complete : ∀ x : String, scope[x]? ≠ some false) :
    Matches (step :: path) (scope :: scopes) := by
  apply matches_of_settled settled
  · rw [same]
    exact .cons holds matching.names
  · intro innermost here
    obtain rfl := Option.some.inj here
    exact complete

theorem Matches.initializer (matching : path.Matches r.scopes) (settled : path.Settled)
    (t : Token) : Matches (.initializer t :: path) (r.declare t).scopes := by
  refine ⟨Resolution.hold_declare matching.names t, fun scope here x => ?_⟩
  rw [initializes_initializer settled]
  rw [Resolution.scopes_declare_eq] at here
  have names := matching.names
  have complete := matching.complete settled
  cases scopes : r.scopes with
  | nil =>
    rw [scopes] at here
    cases here
  | cons head outer =>
    rw [scopes] at here names complete
    obtain rfl := Option.some.inj here
    have inside : path.scopes ≠ [] := by
      intro none
      rw [none] at names
      cases names
    simp only [Std.TreeMap.getElem?_insert, Std.LawfulEqCmp.compare_eq_iff_eq]
    split
    next same => simp [same, inside]
    next other => exact iff_of_false (complete head rfl x) fun here => other here.1

theorem findIdx?_hold {scopes : List Scope} {names : List (List String)}
    (holds : Scope.Hold scopes names) (x : String) :
    scopes.findIdx? (·.contains x) = names.findIdx? (·.contains x) := by
  induction holds with
  | nil => rfl
  | cons here outer ih =>
    rw [List.findIdx?_cons, List.findIdx?_cons, ih]
    rw [Bool.eq_iff_iff.mpr ((here x).trans List.contains_iff_mem.symm)]

theorem Matches.distance? (matching : path.Matches r.scopes) (x : String) :
    r.distance? x = path.distance? x := findIdx?_hold matching.names x

theorem Matches.innermost? (matching : path.Matches r.scopes) (x : String) :
    (r.innermost? x).isSome = true ↔ path.Declared x := by
  have names := matching.names
  unfold Declared Resolution.innermost?
  cases scopes : r.scopes with
  | nil =>
    rw [scopes] at names
    generalize path.scopes = held at names
    cases names
    simp
  | cons head outer =>
    rw [scopes] at names
    generalize path.scopes = held at names
    cases names with
    | cons here others =>
      simp only [List.head?_cons, Option.bind_some, Option.some.injEq, exists_eq_left']
      rw [← Std.TreeMap.contains_eq_isSome_getElem?]
      exact here x

theorem Matches.innermost?_false (matching : path.Matches r.scopes) (x : String) :
    r.innermost? x = some false ↔ path.Initializes x := by
  unfold Resolution.innermost?
  cases scopes : r.scopes with
  | nil =>
    have names := matching.names
    rw [scopes] at names
    refine iff_of_false nofun fun initializes => initializes.scopes_ne_nil ?_
    generalize path.scopes = held at names
    cases names
    rfl
  | cons head outer => exact matching.incomplete head (by rw [scopes]; rfl) x

end Path

/-! ### What is found on the way -/

structure Walk (points : List Point) (r r' : Resolution) : Prop where
  errors : r'.errors = r.errors ++ points.flatMap Point.errors
  distances : r'.distances = points.foldl Point.record r.distances

namespace Walk

variable {points points' : List Point} {c : Context}

theorem nothing (errors : r'.errors = r.errors) (distances : r'.distances = r.distances) :
    Walk [] r r' := ⟨by simp [errors], distances⟩

theorem trans (first : Walk points r mid) (second : Walk points' mid r') :
    Walk (points ++ points') r r' := by
  constructor
  · rw [second.errors, first.errors, List.flatMap_append, List.append_assoc]
  · rw [second.distances, first.distances, List.foldl_append]

theorem before (first : Walk points r mid) (errors : r'.errors = mid.errors)
    (distances : r'.distances = mid.distances) : Walk points r r' :=
  ⟨errors.trans first.errors, distances.trans first.distances⟩

theorem inside {mid' : Resolution} (walk : Walk points mid mid') (errors : mid.errors = r.errors)
    (distances : mid.distances = r.distances) (errors' : r'.errors = mid'.errors)
    (distances' : r'.distances = mid'.distances) : Walk points r r' :=
  ⟨by rw [errors', walk.errors, errors], by rw [distances', walk.distances, distances]⟩

theorem report {point : Point} (plain : point.use? = none)
    (errors : r'.errors = r.errors ++ point.errors) (distances : r'.distances = r.distances) :
    Walk [point] r r' := by
  constructor
  · simp [errors]
  · simp [distances, Point.record, plain]

/-- An error may be reported before the distance is noted. -/
theorem record {point : Point} (matching : point.path.Matches r.scopes)
    (used : point.use? = some use) (scopes : mid.scopes = r.scopes)
    (errors : mid.errors = r.errors ++ point.errors) (distances : mid.distances = r.distances) :
    Walk [point] r (mid.record use) := by
  constructor
  · simp [Resolution.errors_record, errors]
  · have same : mid.distance? use.name.lexeme = r.distance? use.name.lexeme := by
      rw [Resolution.distance?, scopes, Resolution.distance?]
    rw [List.foldl_cons, List.foldl_nil, Point.record, used]
    unfold Resolution.record
    rw [same, matching.distance?]
    dsimp only
    cases point.path.distance? use.name.lexeme with
    | none => exact distances
    | some d => exact congrArg (·.insert use.id d) distances

theorem reportIf {point : Point} {bad : Bool} {fault : StaticFault} (plain : point.use? = none)
    (faults : point.faults = if bad then [fault] else []) :
    Walk [point] r (r.reportIf bad point.construct.token fault) := by
  apply report plain
  · rw [Point.errors, faults]
    cases bad <;> simp [Resolution.reportIf, Resolution.report]
  · exact r.distances_reportIf bad _ fault

theorem assign (matching : path.Matches r.scopes) :
    Walk [⟨path, .use .assign use⟩] r (r.record use) :=
  record matching rfl rfl (List.append_nil _).symm rfl

theorem read (matching : path.Matches r.scopes) :
    Walk [⟨path, .use .variable use⟩] r (r.read use) := by
  apply record matching rfl (r.scopes_reportIf _ _ _)
  · have incomplete := matching.innermost?_false use.name.lexeme
    by_cases initializes : path.Initializes use.name.lexeme
    · simp [Point.errors, Point.faults, Resolution.reportIf, Resolution.report, incomplete,
        initializes, Construct.token]
    · simp [Point.errors, Point.faults, Resolution.reportIf, incomplete, initializes]
  · exact r.distances_reportIf _ _ _

theorem readThisIn (matching : path.Matches r.scopes) :
    Walk [⟨path, .use .this use⟩] r (r.readThisIn path.context use) := by
  unfold Resolution.readThisIn
  split
  next outside =>
    have outside : path.cls = .none := outside
    apply report
    · simp [Point.use?, outside]
    · simp [Point.errors, Point.faults, outside, Resolution.report, Construct.token]
    · rfl
  next inside =>
    have inside : path.cls ≠ .none := inside
    apply record matching
    · simp [Point.use?, inside]
    · rfl
    · simp [Point.errors, Point.faults, inside]
    · rfl

theorem readSuperIn (matching : path.Matches r.scopes) :
    Walk [⟨path, .use .super use⟩] r (r.readSuperIn path.context use) := by
  unfold Resolution.readSuperIn
  split
  next outside =>
    have outside : path.cls = .none := outside
    refine record matching rfl rfl ?_ rfl
    simp [Point.errors, Point.faults, outside, Resolution.report, Construct.token]
  next inside =>
    have inside : path.cls = .plain := inside
    refine record matching rfl rfl ?_ rfl
    simp [Point.errors, Point.faults, inside, Resolution.report, Construct.token]
  next inside =>
    have inside : path.cls = .derived := inside
    refine record matching rfl rfl ?_ rfl
    simp [Point.errors, Point.faults, inside]

theorem declare (matching : path.Matches r.scopes) :
    Walk [⟨path, .declaration t⟩] r (r.declare t) := by
  have declared := matching.innermost? t.lexeme
  have reported : Walk [⟨path, .declaration t⟩] r
      (r.reportIf (r.innermost? t.lexeme).isSome t .duplicateName) := by
    apply reportIf rfl
    simp only [Point.faults, declared]
  apply reported.before
  · unfold Resolution.declare Resolution.reportIf
    split
    · exact congrArg (· ++ _) (r.errors_put t.lexeme false)
    · exact r.errors_put t.lexeme false
  · rw [Resolution.distances_declare, Resolution.distances_reportIf]

theorem introduce (matching : path.Matches r.scopes) :
    Walk [⟨path, .declaration t⟩] r (r.introduce t) :=
  (declare matching).before (Resolution.errors_put _ _ _) (Resolution.distances_put _ _ _)

theorem superclass {cls : Token} :
    Walk [⟨path, .superclass cls use⟩] r
      (r.reportIf (use.name.lexeme == cls.lexeme) use.name .selfInheritance) := by
  apply reportIf rfl
  simp [Point.faults]

theorem checkReturnIn {keyword : Token} {hasValue : Bool} :
    Walk [⟨path, .returnFrom keyword hasValue⟩] r
      (r.checkReturnIn path.context keyword hasValue) := by
  apply report rfl
  · unfold Resolution.checkReturnIn
    simp only [Point.errors, Point.faults, Construct.token, Path.context]
    cases path.function <;> cases hasValue <;>
      simp [Resolution.reportIf, Resolution.report]
  · rw [Resolution.checkReturnIn, Resolution.distances_reportIf, Resolution.distances_reportIf]

/-- The parameters of a function are declared one after another. -/
theorem params (matching : path.Matches r.scopes) (settled : path.Settled) (ts : List Token) :
    Walk (Point.params path ts) r (ts.foldl Resolution.introduce r) ∧
      (path.behind ts).Matches (ts.foldl Resolution.introduce r).scopes ∧
      (path.behind ts).Settled := by
  induction ts generalizing path r with
  | nil => exact ⟨nothing rfl rfl, matching, settled⟩
  | cons t ts ih =>
    have declared : Path.Matches (.declared t :: path) (r.introduce t).scopes :=
      matching.introduceAll settled [t] rfl rfl
    obtain ⟨walk, behind⟩ := ih declared (settled.cons rfl)
    exact ⟨(introduce matching).trans walk, behind⟩

end Walk

theorem Scope.contains_single (name x : String) :
    ((∅ : Scope).insert name true).contains x = true ↔ x ∈ [name] := by
  rw [Std.TreeMap.contains_insert, Bool.or_eq_true, beq_iff_eq, Std.LawfulEqCmp.compare_eq_iff_eq,
    List.mem_singleton, eq_comm]
  simp

theorem Scope.complete_single (name x : String) :
    ((∅ : Scope).insert name true)[x]? ≠ some false := by
  rw [Std.TreeMap.getElem?_insert]
  split
  · exact nofun
  · exact nofun

theorem Path.Matches.past {c : Context} (matching : path.Matches r.scopes)
    (settled : path.Settled) (s : Stmt) :
    Path.Matches (.past s :: path) (s.resolveIn c r).scopes := by
  rw [s.scopes_resolve]
  exact matching.introduceAll settled _ rfl rfl

mutual

theorem Expr.walk {path : Path} {r : Resolution} (e : Expr) (matching : path.Matches r.scopes) :
    Walk (e.points path) r (e.resolveIn path.context r) := by
  cases e with
  | literal value => exact .nothing rfl rfl
  | grouping inner => exact inner.walk matching
  | unary operator operand => exact operand.walk matching
  | binary left operator right =>
    have first := left.walk matching
    rw [← left.scopes_resolve path.context] at matching
    exact first.trans (right.walk matching)
  | logical left operator right =>
    have first := left.walk matching
    rw [← left.scopes_resolve path.context] at matching
    exact first.trans (right.walk matching)
  | «variable» use => exact .read matching
  | assign target value =>
    have first := value.walk matching
    rw [← value.scopes_resolve path.context] at matching
    exact first.trans (.assign matching)
  | this use => exact .readThisIn matching
  | super use method => exact .readSuperIn matching
  | call callee paren arguments =>
    have first := callee.walk matching
    rw [← callee.scopes_resolve path.context] at matching
    exact first.trans (Expr.walkAll arguments matching)
  | get object name => exact object.walk matching
  | set object name value =>
    have first := value.walk matching
    rw [← value.scopes_resolve path.context] at matching
    exact first.trans (object.walk matching)
  | lambda params body =>
    -- The body of a function is in no initializer, even where the function itself is.
    have entered : Path.Matches (.function :: path) r.enter.scopes :=
      matching.enter (Path.settled_of_function rfl nofun) rfl (by simp) (by simp)
    obtain ⟨first, behind, settled⟩ := Walk.params entered (Path.settled_of_function rfl nofun) params
    have second := Stmt.walkAll body behind settled
    rw [Path.context_behind] at second
    exact (first.trans second).inside rfl rfl rfl rfl
termination_by structural e

theorem Expr.walkAll {path : Path} {r : Resolution} (es : List Expr)
    (matching : path.Matches r.scopes) :
    Walk (Expr.pointsAll path es) r (Expr.resolveAllIn path.context es r) := by
  cases es with
  | nil => exact .nothing rfl rfl
  | cons e es =>
    have first := e.walk matching
    rw [← e.scopes_resolve path.context] at matching
    exact first.trans (Expr.walkAll es matching)
termination_by structural es

theorem FunctionDecl.walk {path : Path} {r : Resolution} (f : FunctionDecl)
    (entered : path.Matches r.enter.scopes) (settled : path.Settled) :
    Walk (f.points path) r (f.resolveIn path.context r) := by
  cases f with
  | mk name params body =>
    obtain ⟨first, behind, settled⟩ := Walk.params entered settled params
    have second := Stmt.walkAll body behind settled
    rw [Path.context_behind] at second
    exact (first.trans second).inside rfl rfl rfl rfl
termination_by structural f

theorem FunctionDecl.walkAll {path : Path} {r : Resolution} (fs : List FunctionDecl)
    (matching : path.Matches r.scopes) :
    Walk (FunctionDecl.pointsAll path fs) r (FunctionDecl.resolveAllIn path.context fs r) := by
  cases fs with
  | nil => exact .nothing rfl rfl
  | cons f fs =>
    have settled : Path.Settled (.method f.name :: path) := Path.settled_of_function rfl nofun
    have entered : Path.Matches (.method f.name :: path) r.enter.scopes :=
      matching.enter settled rfl (by simp) (by simp)
    have first := f.walk entered settled
    rw [← f.scopes_resolve (path.context.ofMethod f)] at matching
    exact first.trans (FunctionDecl.walkAll fs matching)
termination_by structural fs

theorem Stmt.walk {path : Path} {r : Resolution} (s : Stmt) (matching : path.Matches r.scopes)
    (settled : path.Settled) :
    Walk (s.points path) r (s.resolveIn path.context r) := by
  cases s with
  | expression e => exact e.walk matching
  | print e => exact e.walk matching
  | var name initializer =>
    cases initializer with
    | none => exact .introduce matching
    | some e =>
      have first := Walk.declare (t := name) matching
      have second := e.walk (matching.initializer settled name)
      exact (first.trans second).before (Resolution.errors_put _ _ _)
        (Resolution.distances_put _ _ _)
  | block body =>
    have settled : Path.Settled (.block :: path) := settled.cons rfl
    have entered : Path.Matches (.block :: path) r.enter.scopes :=
      matching.enter settled rfl (by simp) (by simp)
    exact (Stmt.walkAll body entered settled).inside rfl rfl rfl rfl
  | ifElse condition thenBranch elseBranch =>
    have first := condition.walk matching
    rw [← condition.scopes_resolve path.context] at matching
    have second := thenBranch.walk matching settled
    cases elseBranch with
    | none => exact first.trans second
    | some elseBranch =>
      have third := elseBranch.walk (matching.past (c := path.context) settled thenBranch)
        (settled.cons rfl)
      exact (first.trans second).trans third
  | whileLoop condition body =>
    have first := condition.walk matching
    rw [← condition.scopes_resolve path.context] at matching
    exact first.trans (body.walk matching settled)
  | breakLoop keyword => exact .nothing rfl rfl
  | returnFrom keyword value =>
    cases value with
    | none => exact .checkReturnIn
    | some e =>
      have first : Walk [⟨path, .returnFrom keyword true⟩] r _ := .checkReturnIn
      rw [← r.scopes_checkReturn path.context keyword true] at matching
      exact first.trans (e.walk matching)
  | function declaration =>
    have first := Walk.introduce (t := declaration.name) matching
    have inside : Path.Settled (.function :: .declared declaration.name :: path) :=
      Path.settled_of_function rfl nofun
    have declared : Path.Matches (.declared declaration.name :: path)
        (r.introduce declaration.name).scopes :=
      matching.introduceAll settled [declaration.name] rfl rfl
    have entered : Path.Matches (.function :: .declared declaration.name :: path)
        (r.introduce declaration.name).enter.scopes :=
      declared.enter inside rfl (by simp) (by simp)
    exact first.trans (declaration.walk entered inside)
  | classDecl name superclass methods =>
    have first := Walk.introduce (t := name) matching
    have declared : Path.Matches (.declared name :: path) (r.introduce name).scopes :=
      matching.introduceAll settled [name] rfl rfl
    have settled : Path.Settled (.declared name :: path) := settled.cons rfl
    cases superclass with
    | none =>
      have entered : Path.Matches (.methods false :: .declared name :: path)
          (r.introduce name).enterClass.scopes :=
        declared.enter (settled.cons rfl) rfl (Scope.contains_single "this")
          (Scope.complete_single "this")
      have second := FunctionDecl.walkAll methods entered
      exact first.trans (second.inside rfl rfl rfl rfl)
    | some superclass =>
      have second : Walk [⟨.declared name :: path, .superclass name superclass⟩] (r.introduce name) _ :=
        .superclass
      -- Neither the report of a class that inherits from itself nor the look-up changes the scopes.
      rw [← (r.introduce name).scopes_reportIf (superclass.name.lexeme == name.lexeme)
        superclass.name .selfInheritance] at declared
      have third : Walk [⟨.declared name :: path, .use .variable superclass⟩] _ _ := .read declared
      rw [← Resolution.scopes_read _ superclass] at declared
      have above : Path.Matches (.superclass :: .declared name :: path)
          ((r.introduce name).enterDerived name superclass).scopes :=
        declared.enter (settled.cons rfl) rfl (Scope.contains_single "super")
          (Scope.complete_single "super")
      have entered : Path.Matches (.methods true :: .superclass :: .declared name :: path)
          ((r.introduce name).enterDerived name superclass).enterClass.scopes :=
        above.enter ((settled.cons rfl).cons rfl) rfl (Scope.contains_single "this")
          (Scope.complete_single "this")
      have fourth := FunctionDecl.walkAll methods entered
      exact first.trans (second.trans (third.trans (fourth.inside rfl rfl rfl rfl)))
termination_by structural s

theorem Stmt.walkAll {path : Path} {r : Resolution} (ss : List Stmt)
    (matching : path.Matches r.scopes) (settled : path.Settled) :
    Walk (Stmt.pointsAll path ss) r (Stmt.resolveAllIn path.context ss r) := by
  cases ss with
  | nil => exact .nothing rfl rfl
  | cons s ss =>
    have first := s.walk matching settled
    have past := matching.past (c := path.context) settled s
    exact first.trans (Stmt.walkAll ss past (settled.cons rfl))
termination_by structural ss

end

theorem Path.context_past (path : Path) (ss : List Stmt) :
    (path.past ss).context = path.context := by
  induction ss generalizing path with
  | nil => rfl
  | cons s ss ih => exact ih _

theorem Path.Matches.pastAll {c : Context} (matching : path.Matches r.scopes)
    (settled : path.Settled) (ss : List Stmt) :
    (path.past ss).Matches (Stmt.resolveAllIn c ss r).scopes := by
  induction ss generalizing path r with
  | nil => exact matching
  | cons s ss ih => exact ih (matching.past settled s) (settled.cons rfl)

theorem Program.walk (p : Program) : Walk p.points {} p.resolve := by
  have matching : Path.Matches [] ({} : Resolution).scopes := Path.matches_nil
  have first := Stmt.walkAll p.statements matching nofun
  rw [Program.resolve_eq]
  unfold Program.points
  cases p.trailing with
  | none => exact first.trans (.nothing rfl rfl)
  | some e =>
    have second := e.walk (matching.pastAll (c := {}) nofun p.statements)
    rw [Path.context_past] at second
    exact first.trans second

end Lox
