import Lox.Proofs.Calls.Checked
import Lox.Proofs.Construction

/-!
# Calls

In the course of a session a function is called with one argument for each parameter, and no two of
its parameters have the same name; its body begins in a new frame that binds these names to the
arguments: `parameters_bound`.
-/

namespace Lox

/-! ### Names of parameters -/

/-- The parameters of a function declare names that are new to its scope. -/
theorem Point.distinct_params {path : Path} {params : List Token} {names : List String}
    (scope : path.scopes.head? = some names) (distinct : names.Nodup)
    (clean : ∀ point ∈ Point.params path params, point.faults = []) :
    (names ++ params.map Token.lexeme).Nodup := by
  induction params generalizing path names with
  | nil => simpa using distinct
  | cons t ts ih =>
    have new : t.lexeme ∉ names := by
      intro old
      have declared : path.Declared t.lexeme := ⟨names, scope, old⟩
      have fault : StaticFault.duplicateName ∈ Point.faults ⟨path, .declaration t⟩ :=
        Point.mem_faults.mpr (.duplicateName declared)
      rw [clean _ List.mem_cons_self] at fault
      cases fault
    have more : (Path.scopes (.declared t :: path)).head? = some (names ++ [t.lexeme]) := by
      change (Path.hold [t.lexeme] path.scopes).head? = _
      cases scopes : path.scopes with
      | nil =>
        rw [scopes] at scope
        cases scope
      | cons inner outer =>
        rw [scopes] at scope
        obtain rfl := Option.some.inj scope
        rfl
    have grown : (names ++ [t.lexeme]).Nodup := by
      refine List.nodup_append.mpr ⟨distinct, List.nodup_singleton _, fun name old other mem => ?_⟩
      rintro rfl
      exact new (List.mem_singleton.mp mem ▸ old)
    have rest := ih more grown fun point mem => clean point (List.mem_cons_of_mem _ mem)
    rwa [List.append_assoc] at rest

/-- The way out of a function begins in a scope without names. -/
theorem Code.scope_of_function {path outer : Path} {c : Code} {isInitializer : Bool}
    {params : List Token} {body : List Stmt}
    (mem : (path, .function isInitializer params body) ∈ c.places outer) :
    path.scopes.head? = some [] := by
  have row {way : Path} {ss : List Stmt}
      (mem : (path, .function isInitializer params body) ∈ Stmt.placesAll way ss) : False := by
    obtain ⟨s, -, same, -⟩ := Stmt.mem_placesAll mem
    cases same
  cases c with
  | function => exact (row mem).elim
  | expr e =>
    cases e with
    | lambda =>
      cases List.mem_singleton.mp mem
      rfl
    | _ => simp [Code.places, Expr.places, Expr.parts] at mem
  | stmt s =>
    cases s with
    | block => exact (row mem).elim
    | function =>
      cases List.mem_singleton.mp mem
      rfl
    | classDecl name superclass methods =>
      cases superclass with
      | none =>
        obtain ⟨f, -, same⟩ := List.mem_map.mp mem
        cases same
        rfl
      | some use =>
        obtain same | mem := List.mem_cons.mp mem
        · cases same
        obtain ⟨f, -, same⟩ := List.mem_map.mp mem
        cases same
        rfl
    | var _ value | returnFrom _ value =>
      cases value <;> simp [Code.places, Stmt.places, Stmt.parts] at mem
    | ifElse _ _ elseBranch =>
      cases elseBranch <;> simp [Code.places, Stmt.places, Stmt.parts] at mem
    | _ => simp [Code.places, Stmt.places, Stmt.parts] at mem

/-- In a program without static errors no two parameters of a function have the same name. -/
theorem Program.Stands.distinct_params {p : Program} {path : Path} {isInitializer : Bool}
    {params : List Token} {body : List Stmt}
    (h : p.Stands path (.function isInitializer params body)) (clean : p.resolve.errors = []) :
    (params.map Token.lexeme).Nodup := by
  have scope : path.scopes.head? = some [] := by
    generalize target : Code.function isInitializer params body = c at h
    cases h with
    | statement mem =>
      obtain ⟨s, -, same, -⟩ := Stmt.mem_placesAll mem
      cases target.trans same
    | trailing => cases target
    | @part outer c place _ mem =>
      obtain ⟨path, code⟩ := place
      obtain rfl : Code.function isInitializer params body = code := target
      exact Code.scope_of_function mem
  refine Point.distinct_params scope .nil fun point mem => Program.faults_eq_nil clean ?_
  exact h.points (List.mem_append_left _ mem)

namespace Session

variable {clock : Clock} {history : List Entry} {n : Nat} {m : Machine} {arguments : List Value}

/-! ### Calls in the course of a session -/

theorem argumentsFit {f : Closure}
    (happens : (initial clock).Happens history ⟨.call n f arguments, m⟩) :
    ArgumentsFit f.params arguments := by
  obtain ⟨_, _, _, -, -, -, -, -, -, length⟩ := ready clock happens
  obtain ⟨start, p, path, ⟨before, entry, later, -, executes, -⟩, stands⟩ :=
    (Arises.called happens).stands
  exact ⟨length, stands.distinct_params executes.resolved⟩

theorem no_arguments {c : Class}
    (happens : (initial clock).Happens history ⟨.invoke n (.cls c) arguments, m⟩)
    (none : c.initializer? = none) : arguments = [] := by
  obtain ⟨_, _, _, -, -, -, -, -, -, arity⟩ := ready clock happens
  have length : c.arity = arguments.length := Option.some.inj arity
  rw [Class.arity, none] at length
  exact List.length_eq_zero_iff.mp length.symm

theorem fitCalls (clock : Clock) (history : List Entry) :
    FitCalls ((initial clock).Happens history) where
  step := .step
  call := argumentsFit
  construct happens none := no_arguments happens none ▸ ⟨rfl, .nil⟩

theorem call_of_construct {c : Class} {method : Closure}
    (happens : (initial clock).Happens history ⟨.invoke n (.cls c) arguments, m⟩)
    (found : c.initializer? = some method) :
    ∃ bound mid, bound.params = method.params ∧ bound.body = method.body ∧
      (initial clock).Happens history ⟨.call n bound arguments, mid⟩ ∧
      (Value.cls c).invoke (Lox.execute n) arguments m =
        (bound.call (Lox.execute n) arguments >>= fun _ =>
          pure (.instance m.store.instances.size)) mid := by
  have called := Happens.step happens (.callInitializer found rfl)
  refine ⟨_, _, ?_, ?_, called, Class.construct_initialized found (Lox.execute n)⟩ <;> rfl

end Session

/-- A program that is executed in a session runs as it does with checks, whatever a call does that
fails one: each call of a function has one argument for each parameter, the names of the parameters
are different, and a class without an initializer is called without arguments. With such arguments a
call runs the body of the function in a frame that was not there before, inside the frames that the
function has captured; the frame binds each parameter to the argument in its place and nothing else.
So it is at each call of a session, and no other moment makes that frame. A call of a class with an
initializer, its own or one it inherits, is a call of the initializer with the same arguments. -/
theorem parameters_bound (clock : Clock) (history : List Entry) :
    let s := Session.initial clock
    (∀ start p, s.Runs history start p → ∀ misfit, p.runChecked misfit start = p.run start) ∧
    (∀ (f : Closure) arguments, ArgumentsFit f.params arguments → ∀ exec m, ∃ inner,
      f.Enters arguments m inner ∧
      f.call exec arguments m =
        f.result (Ending.back m.current (executeAll exec f.body inner))) ∧
    (∀ n f arguments m, s.Happens history ⟨.call n f arguments, m⟩ →
      ArgumentsFit f.params arguments ∧
      (f.params.zip arguments).unzip = (f.params, arguments) ∧
      ∃ inner, f.Enters arguments m inner ∧ s.Happens history ⟨.executeAll n f.body, inner⟩ ∧
        ∀ a site e, s.Happens history a → Opens a site e → e.frame = inner.current.frame →
          a = ⟨.call n f arguments, m⟩) ∧
    ∀ n c arguments m, s.Happens history ⟨.invoke n (.cls c) arguments, m⟩ →
      (c.initializer? = none → arguments = [] ∧ (Value.cls c).invoke (execute n) arguments m =
        .ok (.instance m.store.instances.size) (m.withInstance c)) ∧
      ∀ method, c.initializer? = some method → ∃ bound mid,
        bound.params = method.params ∧ bound.body = method.body ∧
        s.Happens history ⟨.call n bound arguments, mid⟩ ∧
        (Value.cls c).invoke (execute n) arguments m = (bound.call (execute n) arguments >>= fun _ =>
          pure (.instance m.store.instances.size)) mid := by
  intro s
  refine ⟨fun start p runs misfit => ?_, fun f arguments fit exec m => ?_,
    fun n f arguments m happens => ?_, fun n c arguments m happens => ⟨fun none => ?_, ?_⟩⟩
  · exact (Session.fitCalls clock history).runChecked_eq (.turn runs) misfit
  · exact ⟨_, Closure.enters fit m, f.call_eq exec arguments m⟩
  · have fit := Session.argumentsFit happens
    refine ⟨fit, List.unzip_zip fit.length.symm, _, Closure.enters fit m,
      .step happens .called, fun a site e happens' opens same => ?_⟩
    exact Session.opens_unique happens' happens opens .call same
  · exact ⟨Session.no_arguments happens none, Class.construct_plain none (execute n)⟩
  · exact fun method => Session.call_of_construct happens

end Lox
