import Lox.Proofs.StepRelation

/-!
# Class declarations

While the methods of a derived class are made, the frame of `super` is the current environment;
`makeClass` sets the enclosing one back by hand. So a declaration ends where it began, on every path,
and does what it would do if the frame of `super` were only handed on: `declareClass_eq`.
-/

namespace Lox

/-- A frame that binds nothing yet may as well be made with its first binding. -/
theorem Store.newChild_define (s : Store) (outer : Environment) (name : String) (value : Value) :
    (s.newChild outer ∅).2.define (s.newChild outer ∅).1.frame name value
      = (s.newChild outer ((∅ : Bindings).insert name value)).2 := by
  have pushed : (s.frames.push ∅).modify s.frames.size (·.insert name value)
      = s.frames.push ((∅ : Bindings).insert name value) := by
    apply Array.ext
    · simp
    · intro i _ _
      simp only [Array.getElem_modify, Array.getElem_push]
      split <;> split <;> simp_all <;> omega
  simp only [newChild, define, pushed]

/-! ### The environment of the methods -/

theorem enterSuper_ok (above : Class) (m : Machine) :
    enterSuper above m = .ok () { m with
      store := (m.store.newChild m.current ((∅ : Bindings).insert "super" (.cls above))).2
      current := (m.store.newChild m.current ∅).1 } := by
  rw [← Store.newChild_define]
  rfl

/-- The class is made where `super` is bound, and then the declaration is back outside. -/
theorem makeClass_derived (name : String) (methods : List FunctionDecl) (above : Class)
    (m : Machine) :
    makeClass name methods (some above) m =
      let (e, store) := m.store.newChild m.current ((∅ : Bindings).insert "super" (.cls above))
      .ok (.derived m.store.nextId name (methodTable e methods) above)
        { m with store := store.newId.2 } := by
  have entered := bind_of_ok (enterSuper_ok above m) (f := fun _ => do
    let c ← Run.newClass name (methodTable (← get).current methods) (some above)
    Run.setCurrent m.current
    pure c)
  exact entered

theorem makeClass_base (name : String) (methods : List FunctionDecl) (m : Machine) :
    makeClass name methods none m = .ok (.base m.store.nextId name (methodTable m.current methods))
      { m with store := m.store.newId.2 } := rfl

/-- Whatever environment the methods are made in, the one before is the current one again. -/
theorem current_makeClass (name : String) (methods : List FunctionDecl)
    (superclass : Option Class) :
    Respects (fun m m' => m'.current = m.current) (makeClass name methods superclass) := by
  intro m
  cases superclass with
  | none => rw [stateAfter_ok (makeClass_base name methods m)]
  | some above => rw [stateAfter_ok (makeClass_derived name methods above m)]

/-! ### Declarations as one step after another -/

/-- A class whose methods are made in a frame that is only handed on. -/
def classWithin (current : Environment) (name : Token) (superclass : Option Use)
    (methods : List FunctionDecl) : Run Class :=
  match superclass with
  | none => do
    let id ← Run.update Store.newId
    pure (.base id name.lexeme (methodTable current methods))
  | some use => do
    let above ← evaluateSuperclass use
    let frame : Bindings := (∅ : Bindings).insert "super" (.cls above)
    let environment ← Run.update (·.newChild current frame)
    let id ← Run.update Store.newId
    pure (.derived id name.lexeme (methodTable environment methods) above)

theorem declareClass_eq (name : Token) (superclass : Option Use) (methods : List FunctionDecl) :
    declareClass name superclass methods = (do
      Run.define name.lexeme .nil
      let current := (← get).current
      Run.assignIn current name (.cls (← classWithin current name superclass methods))) := by
  funext m
  refine bind_eq_bind rfl fun _ announced _ => ?_
  cases superclass with
  | none => rfl
  | some use =>
    change (some <$> evaluateSuperclass use >>= _) announced = _
    rw [bind_map_left, get_bind, classWithin, bind_assoc]
    refine bind_eq_bind rfl fun above found ran => ?_
    have same : found.current = announced.current :=
      (keepsCurrent.respects_evaluateSuperclass use).of_ok ran
    rw [bind_of_ok (makeClass_derived name.lexeme methods above found), ← same]
    rfl

end Lox
