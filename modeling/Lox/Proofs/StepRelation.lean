import Lox.Proofs.Run

/-!
# Relations that every step keeps to

A relation between the machines before and after a step which holds of the basic steps, and which
`within` passes on, holds of every run: `evaluate_respects` and `execute_respects`.
-/

namespace Lox

/-- A relation that the basic steps keep to and that can be passed along a run. -/
structure StepRelation (R : Machine → Machine → Prop) : Prop where
  refl : ∀ m, R m m
  trans : ∀ {m₁ m₂ m₃}, R m₁ m₂ → R m₂ m₃ → R m₁ m₃
  define : ∀ m frame name value, R m { m with store := m.store.define frame name value }
  newChild : ∀ m outer bindings, R m { m with store := (m.store.newChild outer bindings).2 }
  newId : ∀ m, R m { m with store := m.store.newId.2 }
  newInstance : ∀ m c, R m { m with store := (m.store.newInstance c).2 }
  setField : ∀ m id name value, R m { m with store := m.store.setField id name value }
  print : ∀ m text, R m { m with output := m.output ++ text ++ "\n" }
  tick : ∀ m, R m { m with clock := m.clock.read.2 }
  within : ∀ {m after : Machine} {e}, R { m with current := e } after →
    R m { after with current := m.current }

namespace StepRelation

variable {R : Machine → Machine → Prop} (h : StepRelation R)

include h

/-! ### Basic steps -/

theorem respects_pure (a : α) : Respects R (pure a : Run α) := fun m => h.refl m

theorem respects_throw (a : Abort) : Respects R (throw a : Run α) := fun m => h.refl m

theorem respects_get : Respects R (get : Run Machine) := fun m => h.refl m

theorem respects_bind {p : Run α} {f : α → Run β} (hp : Respects R p)
    (hf : ∀ a, Respects R (f a)) : Respects R (p >>= f) :=
  hp.bind h.trans hf

theorem respects_fail (token : Token) (fault : RuntimeFault) :
    Respects R (Run.fail token fault : Run α) := h.respects_throw _

theorem respects_unfinished : Respects R (Run.unfinished : Run α) := h.respects_throw _

theorem respects_ofExcept (x : Except Crash α) : Respects R (Run.ofExcept x) := by
  cases x with
  | ok a => exact h.respects_pure a
  | error c => exact h.respects_throw _

theorem respects_within {e : Environment} {p : Run α} (hp : Respects R p) :
    Respects R (Run.within e p) := by
  intro m
  have inner := hp { m with current := e }
  unfold stateAfter at inner ⊢
  unfold Run.within
  cases hpm : p { m with current := e } with
  | ok a after =>
    rw [hpm] at inner
    exact h.within inner
  | error a after =>
    rw [hpm] at inner
    exact h.within inner

theorem respects_newChild (outer : Environment) (bindings : Bindings) :
    Respects R (Run.update (·.newChild outer bindings)) := fun m => h.newChild m outer bindings

theorem respects_newId : Respects R (Run.update Store.newId) := h.newId

theorem respects_newInstance (c : Class) : Respects R (Run.update (·.newInstance c)) :=
  fun m => h.newInstance m c

theorem respects_defineIn (frame : Nat) (name : String) (value : Value) :
    Respects R (Run.defineIn frame name value) := fun m => h.define m frame name value

theorem respects_setField (id : Nat) (name : String) (value : Value) :
    Respects R (Run.setField id name value) := fun m => h.setField m id name value

theorem respects_print (text : String) : Respects R (Run.print text) := fun m => h.print m text

theorem respects_readClock : Respects R Run.readClock := h.tick

theorem respects_define (name : String) (value : Value) :
    Respects R (Run.define name value) :=
  h.respects_bind h.respects_get fun m => h.respects_defineIn m.current.frame name value

theorem respects_distance? (use : Use) : Respects R (Run.distance? use) :=
  h.respects_bind h.respects_get fun _ => h.respects_pure _

theorem respects_lookup (use : Use) : Respects R (Run.lookup use) := by
  refine h.respects_bind h.respects_get fun m => ?_
  dsimp only
  split
  · exact h.respects_ofExcept _
  · split
    · exact h.respects_pure _
    · exact h.respects_fail _ _

theorem respects_assignIn (e : Environment) (name : Token) (value : Value) :
    Respects R (Run.assignIn e name value) := by
  refine h.respects_bind h.respects_get fun m => ?_
  split
  · exact h.respects_defineIn _ _ _
  · exact h.respects_fail _ _

theorem respects_assign (use : Use) (value : Value) : Respects R (Run.assign use value) := by
  refine h.respects_bind (h.respects_distance? use) fun distance => ?_
  split
  · refine h.respects_bind h.respects_get fun m => ?_
    exact h.respects_bind (h.respects_ofExcept _) fun frame => h.respects_defineIn _ _ _
  · exact h.respects_assignIn _ _ _

theorem respects_newFunction (closure : Closure) : Respects R (Run.newFunction closure) :=
  h.respects_bind h.respects_newId fun _ => h.respects_pure _

theorem respects_bindMethod (method : Closure) (id : Nat) :
    Respects R (Run.bind method id) :=
  h.respects_bind (h.respects_newChild _ _) fun _ => h.respects_pure _

/-! ### Operators, properties and classes -/

theorem respects_applyUnary (operator : Token) (operand : Value) :
    Respects R (applyUnary operator operand) := by
  unfold applyUnary
  split
  · split
    · exact h.respects_pure _
    · exact h.respects_fail _ _
  · exact h.respects_pure _
  · exact h.respects_fail _ _

theorem respects_applyNumeric (operator : Token) (x y : Float) :
    Respects R (applyNumeric operator x y) := by
  unfold applyNumeric
  split
  iterate 7 exact h.respects_pure _
  exact h.respects_fail _ _

theorem respects_add (operator : Token) (left right : Value) :
    Respects R (add operator left right) := by
  unfold add
  split
  · exact h.respects_pure _
  · exact h.respects_pure _
  · exact h.respects_fail _ _

theorem respects_applyBinary (operator : Token) (left right : Value) :
    Respects R (applyBinary operator left right) := by
  unfold applyBinary
  split
  · exact h.respects_add _ _ _
  · exact h.respects_pure _
  · exact h.respects_pure _
  · split
    · exact h.respects_applyNumeric _ _ _
    · exact h.respects_fail _ _

theorem respects_getProperty (id : Nat) (name : Token) :
    Respects R (getProperty id name) := by
  refine h.respects_bind h.respects_get fun m => ?_
  split
  · exact h.respects_fail _ _
  split
  · exact h.respects_pure _
  split
  · exact h.respects_bind (h.respects_bindMethod _ _) fun _ => h.respects_newFunction _
  · exact h.respects_fail _ _

theorem respects_getSuper (use : Use) (method : Token) : Respects R (getSuper use method) := by
  refine h.respects_bind h.respects_get fun m => ?_
  split
  · exact h.respects_fail _ _
  refine h.respects_bind (h.respects_ofExcept _) fun superclass => ?_
  refine h.respects_bind (h.respects_ofExcept _) fun object => ?_
  split
  · split
    · exact h.respects_bind (h.respects_bindMethod _ _) fun _ => h.respects_newFunction _
    · exact h.respects_fail _ _
  · exact h.respects_fail _ _

theorem respects_evaluateSuperclass (use : Use) : Respects R (evaluateSuperclass use) := by
  refine h.respects_bind (h.respects_lookup use) fun value => ?_
  split
  · exact h.respects_pure _
  · exact h.respects_fail _ _

/-- The environment is set by hand, so that `within` covers what is done up to where it is set back;
none of that can fail. -/
theorem respects_makeClass (name : String) (methods : List FunctionDecl)
    (superclass : Option Class) : Respects R (makeClass name methods superclass) := by
  intro m
  cases superclass with
  | none => exact h.newId m
  | some above =>
    let opened := { m with store := (m.store.newChild m.current ∅).2 }
    let e := (m.store.newChild m.current ∅).1
    let bound := { opened with
      store := opened.store.define e.frame "super" (.cls above)
      current := e }
    have binds : R { opened with current := e } bound := h.define _ _ _ _
    exact h.trans (h.newChild m _ _) (h.within (h.trans binds (h.newId bound)))

theorem respects_superclass (superclass : Option Use) :
    Respects R (superclass.mapM evaluateSuperclass) := by
  cases superclass with
  | none => exact h.respects_pure _
  | some use =>
    exact h.respects_bind (h.respects_evaluateSuperclass use) fun _ => h.respects_pure _

theorem respects_declareClass (name : Token) (superclass : Option Use)
    (methods : List FunctionDecl) : Respects R (declareClass name superclass methods) := by
  refine h.respects_bind (h.respects_define _ _) fun _ => ?_
  refine h.respects_bind (h.respects_superclass superclass) fun above => ?_
  refine h.respects_bind (h.respects_makeClass _ _ _) fun cls => ?_
  exact h.respects_bind h.respects_get fun m => h.respects_assignIn _ _ _

/-! ### Nested parts -/

variable {eval : Expr → Run Value} {exec : Stmt → Run Flow}

theorem respects_executeAll (hexec : ∀ s, Respects R (exec s)) (ss : List Stmt) :
    Respects R (executeAll exec ss) := by
  induction ss with
  | nil => exact h.respects_pure _
  | cons s ss ih =>
    refine h.respects_bind (hexec s) fun flow => ?_
    split
    · exact ih
    · exact h.respects_pure _

theorem respects_evaluateAll (heval : ∀ e, Respects R (eval e)) (es : List Expr) :
    Respects R (evaluateAll eval es) := by
  induction es with
  | nil => exact h.respects_pure _
  | cons e es ih =>
    exact h.respects_bind (heval e) fun _ => h.respects_bind ih fun _ => h.respects_pure _

theorem respects_repeatWhile {condition : Run Value} {body : Run Flow}
    (hcondition : Respects R condition) (hbody : Respects R body) (n : Nat) :
    Respects R (repeatWhile condition body n) := by
  induction n with
  | zero => exact h.respects_unfinished
  | succ n ih =>
    refine h.respects_bind hcondition fun value => ?_
    split
    · refine h.respects_bind hbody fun flow => ?_
      split
      · exact ih
      · exact h.respects_pure _
      · exact h.respects_pure _
    · exact h.respects_pure _

theorem respects_closureCall (hexec : ∀ s, Respects R (exec s)) (f : Closure)
    (arguments : List Value) : Respects R (f.call exec arguments) := by
  refine h.respects_bind (h.respects_newChild _ _) fun e => ?_
  refine h.respects_bind (h.respects_within (h.respects_executeAll hexec _)) fun flow => ?_
  split
  · exact h.respects_bind h.respects_get fun _ => h.respects_ofExcept _
  · split
    · exact h.respects_pure _
    · exact h.respects_pure _

theorem respects_construct (hexec : ∀ s, Respects R (exec s)) (c : Class)
    (arguments : List Value) : Respects R (c.construct exec arguments) := by
  refine h.respects_bind (h.respects_newInstance c) fun id => ?_
  dsimp only
  split
  · refine h.respects_bind (h.respects_bindMethod _ _) fun bound => ?_
    exact h.respects_bind (h.respects_closureCall hexec _ _) fun _ => h.respects_pure _
  · exact h.respects_pure _

theorem respects_invoke (hexec : ∀ s, Respects R (exec s)) (callee : Value)
    (arguments : List Value) : Respects R (callee.invoke exec arguments) := by
  unfold Value.invoke
  split
  · exact h.respects_closureCall hexec _ _
  · exact h.respects_construct hexec _ _
  · exact h.respects_bind h.respects_readClock fun _ => h.respects_pure _

theorem respects_call (hexec : ∀ s, Respects R (exec s)) (paren : Token) (callee : Value)
    (arguments : List Value) : Respects R (callee.call exec paren arguments) := by
  unfold Value.call
  split
  · exact h.respects_fail _ _
  · split
    · exact h.respects_invoke hexec _ _
    · exact h.respects_fail _ _

theorem respects_evaluateStep (heval : ∀ e, Respects R (eval e))
    (hexec : ∀ s, Respects R (exec s)) (e : Expr) :
    Respects R (evaluateStep eval exec e) := by
  cases e with
  | literal value => exact h.respects_pure _
  | grouping inner => exact heval inner
  | unary operator operand =>
    exact h.respects_bind (heval operand) fun _ => h.respects_applyUnary _ _
  | binary left operator right =>
    refine h.respects_bind (heval left) fun _ => ?_
    exact h.respects_bind (heval right) fun _ => h.respects_applyBinary _ _ _
  | logical left operator right =>
    refine h.respects_bind (heval left) fun _ => ?_
    split
    · exact h.respects_pure _
    · exact heval right
  | «variable» use => exact h.respects_lookup use
  | this use => exact h.respects_lookup use
  | assign target value =>
    refine h.respects_bind (heval value) fun _ => ?_
    exact h.respects_bind (h.respects_assign _ _) fun _ => h.respects_pure _
  | super use method => exact h.respects_getSuper use method
  | call callee paren arguments =>
    refine h.respects_bind (heval callee) fun _ => ?_
    exact h.respects_bind (h.respects_evaluateAll heval _) fun _ => h.respects_call hexec _ _ _
  | get object name =>
    refine h.respects_bind (heval object) fun _ => ?_
    split
    · exact h.respects_getProperty _ _
    · exact h.respects_fail _ _
  | set object name value =>
    refine h.respects_bind (heval object) fun _ => ?_
    split
    · refine h.respects_bind (heval value) fun _ => ?_
      exact h.respects_bind (h.respects_setField _ _ _) fun _ => h.respects_pure _
    · exact h.respects_fail _ _
  | lambda params body =>
    exact h.respects_bind h.respects_get fun _ => h.respects_newFunction _

theorem respects_evaluateOption (heval : ∀ e, Respects R (eval e)) (e : Option Expr) :
    Respects R (evaluateOption eval e) := by
  cases e with
  | none => exact h.respects_pure _
  | some e => exact heval e

theorem respects_executeStep (rounds : Nat) (heval : ∀ e, Respects R (eval e))
    (hexec : ∀ s, Respects R (exec s)) (s : Stmt) :
    Respects R (executeStep rounds eval exec s) := by
  cases s with
  | expression e => exact h.respects_bind (heval e) fun _ => h.respects_pure _
  | print e =>
    refine h.respects_bind (heval e) fun _ => ?_
    refine h.respects_bind h.respects_get fun _ => ?_
    exact h.respects_bind (h.respects_print _) fun _ => h.respects_pure _
  | var name initializer =>
    refine h.respects_bind (h.respects_evaluateOption heval _) fun _ => ?_
    exact h.respects_bind (h.respects_define _ _) fun _ => h.respects_pure _
  | block body =>
    refine h.respects_bind h.respects_get fun _ => ?_
    refine h.respects_bind (h.respects_newChild _ _) fun e => ?_
    exact h.respects_within (h.respects_executeAll hexec _)
  | ifElse condition thenBranch elseBranch =>
    refine h.respects_bind (heval condition) fun _ => ?_
    split
    · exact hexec thenBranch
    · split
      · exact hexec _
      · exact h.respects_pure _
  | whileLoop condition body => exact h.respects_repeatWhile (heval _) (hexec _) _
  | breakLoop keyword => exact h.respects_pure _
  | returnFrom keyword value =>
    exact h.respects_bind (h.respects_evaluateOption heval _) fun _ => h.respects_pure _
  | function declaration =>
    refine h.respects_bind h.respects_get fun _ => ?_
    refine h.respects_bind (h.respects_newFunction _) fun _ => ?_
    exact h.respects_bind (h.respects_define _ _) fun _ => h.respects_pure _
  | classDecl name superclass methods =>
    exact h.respects_bind (h.respects_declareClass _ _ _) fun _ => h.respects_pure _

/-! ### Whole runs -/

theorem respects_levels (n : Nat) :
    (∀ e, Respects R (evaluate n e)) ∧ (∀ s, Respects R (execute n s)) := by
  induction n with
  | zero => exact ⟨fun _ => h.respects_unfinished, fun _ => h.respects_unfinished⟩
  | succ n ih =>
    have heval : ∀ e, Respects R (evaluate (n + 1) e) := h.respects_evaluateStep ih.1 ih.2
    exact ⟨heval, h.respects_executeStep n heval ih.2⟩

theorem respects_evaluate (n : Nat) (e : Expr) : Respects R (evaluate n e) :=
  (h.respects_levels n).1 e

theorem respects_execute (n : Nat) (s : Stmt) : Respects R (execute n s) :=
  (h.respects_levels n).2 s

theorem respects_interpret (ss : List Stmt) : Respects R (interpret ss) := by
  induction ss with
  | nil => exact h.respects_pure _
  | cons s ss ih => exact h.respects_bind (h.respects_execute limit s) fun _ => ih

theorem respects_program (p : Program) : Respects R p.run := by
  refine h.respects_bind (h.respects_interpret _) fun _ => ?_
  split
  · exact h.respects_pure _
  · refine h.respects_bind (h.respects_evaluate limit _) fun _ => ?_
    exact h.respects_bind h.respects_get fun _ => h.respects_pure _

end StepRelation

theorem keepsCurrent : StepRelation fun m m' => m'.current = m.current where
  refl _ := rfl
  trans h₁ h₂ := h₂.trans h₁
  define _ _ _ _ := rfl
  newChild _ _ _ := rfl
  newId _ := rfl
  newInstance _ _ := rfl
  setField _ _ _ _ := rfl
  print _ _ := rfl
  tick _ := rfl
  within _ := rfl

end Lox
