import Lox.Proofs.Alike.Run
import Lox.Proofs.ClassDeclaration

/-!
# Runs that are alike

Programs that are alike do the same on machines that are alike: `evaluate_alike` and
`execute_alike`.
-/

namespace Lox

section Evaluation

variable {P : Pairing} {before : String} {e : Environment} {F : FrameRenamings} {Γ : Renamings}

open RunsAlike

/-! ### Operators -/

theorem applyUnary_alike {t t' : Token} (tokens : P.Tokens t t') {v v' : Value}
    (alike : v.Alike P F v') :
    RunsAlike P before e F (Value.Alike P) (applyUnary t v) (applyUnary t' v') := by
  unfold applyUnary
  rw [tokens.type, alike.isTruthy]
  split
  · cases alike with
    | number => exact value .number
    | _ => exact fail tokens.line _
  · exact value .bool
  · exact fail tokens.line _

theorem add_alike {t t' : Token} (tokens : P.Tokens t t') {v v' w w' : Value}
    (left : v.Alike P F v') (right : w.Alike P F w') :
    RunsAlike P before e F (Value.Alike P) (add t v w) (add t' v' w') := by
  cases left with
  | number =>
    cases right with
    | number => exact value .number
    | _ => exact fail tokens.line _
  | string =>
    cases right with
    | string => exact value .string
    | _ => exact fail tokens.line _
  | _ => exact fail tokens.line _

theorem applyNumeric_alike {t t' : Token} (tokens : P.Tokens t t') (x y : Float) :
    RunsAlike P before e F (Value.Alike P) (applyNumeric t x y) (applyNumeric t' x y) := by
  unfold applyNumeric
  rw [tokens.type]
  split
  · exact value .number
  · exact value .number
  · exact value .number
  iterate 4 exact value .bool
  exact fail tokens.line _

theorem applyBinary_alike {t t' : Token} (tokens : P.Tokens t t') {v v' w w' : Value}
    (left : v.Alike P F v') (right : w.Alike P F w') :
    RunsAlike P before e F (Value.Alike P) (applyBinary t v w) (applyBinary t' v' w') := by
  unfold applyBinary
  rw [tokens.type, left.isEqual right]
  split
  · exact add_alike tokens left right
  · exact value .bool
  · exact value .bool
  · cases left with
    | number =>
      cases right with
      | number => exact applyNumeric_alike tokens _ _
      | _ => exact fail tokens.line _
    | _ => exact fail tokens.line _

theorem decidedByLeft_alike {t t' : Token} (tokens : P.Tokens t t') {v v' : Value}
    (alike : v.Alike P F v') : decidedByLeft t' v' = decidedByLeft t v := by
  unfold decidedByLeft
  rw [tokens.type, alike.isTruthy]

/-! ### Properties -/

theorem newFunction_alike {f f' : Closure} (alike : f.Alike P F f') :
    RunsAlike P before e F (Value.Alike P) (Run.newFunction f) (Run.newFunction f') := by
  refine newId.bind fun F' grown id id' same => ?_
  subst same
  exact value (.function (alike.mono (.refl P) grown))

variable (lawful : P.Lawful)

include lawful

theorem bindMethod_alike {f f' : Closure} (alike : f.AlikeMethod P F f') (id : Nat) :
    RunsAlike P before e F (Closure.Alike P) (Run.bind f id) (Run.bind f' id) := by
  obtain ⟨Γ, renames, same⟩ := alike
  have this : Bindings.Alike P F (Equiv.refl String) ((∅ : Bindings).insert "this" (.instance id))
      ((∅ : Bindings).insert "this" (.instance id)) := (Bindings.Alike.empty _).insert "this" .instance
  have child : RunsAlike P before e F _ _ _ := newChild renames lawful.refl this
  unfold Run.bind
  rw [same.environment]
  refine child.bind fun F' _ inner inner' ⟨equal, around⟩ => ?_
  subst equal
  exact pure fun F'' more =>
    ⟨_, around.mono more, same.name, rfl, same.isInitializer, same.code⟩

theorem boundMethod_alike {f f' : Closure} (alike : f.AlikeMethod P F f') (id : Nat) :
    RunsAlike P before e F (Value.Alike P) (do Run.newFunction (← Run.bind f id))
      (do Run.newFunction (← Run.bind f' id)) :=
  (bindMethod_alike lawful alike id).bind fun _ _ _ _ bound => newFunction_alike bound

theorem getProperty_alike (id : Nat) {t t' : Token} (tokens : P.Tokens t t') :
    RunsAlike P before e F (Value.Alike P) (getProperty id t) (getProperty id t') := by
  refine get fun F' _ m m' h => ?_
  rw [tokens.lexeme]
  have here := h.store.instances id
  revert here
  cases m.store.instances[id]? <;> cases m'.store.instances[id]? <;> intro here
  · exact fail tokens.line _
  · cases here
  · cases here
  rename_i i i'
  obtain here | _ := here
  have field := here.fields t.lexeme
  change Option.Rel _ i.fields[t.lexeme]? i'.fields[t.lexeme]? at field
  dsimp only
  revert field
  cases i.fields[t.lexeme]? <;> cases i'.fields[t.lexeme]? <;> intro field
  · have method := here.cls.method? t.lexeme
    dsimp only
    revert method
    cases i.cls.method? t.lexeme <;> cases i'.cls.method? t.lexeme <;> intro method
    · exact fail tokens.line _
    · cases method
    · cases method
    · obtain method | _ := method
      exact boundMethod_alike lawful method id
  · cases field
  · cases field
  · obtain field | _ := field
    exact value field

theorem getSuper_alike {use use' : Use} (renames : e.Renames F Γ) (u : P.Uses Γ use use')
    {t t' : Token} (tokens : P.Tokens t t') :
    RunsAlike P before e F (Value.Alike P) (getSuper use t) (getSuper use' t') := by
  refine get fun F' grown m m' h => ?_
  rw [(h.distances _ _ u.ids).1, h.current, h.current', tokens.lexeme]
  cases m.distances[use.id]? with
  | none => exact fail u.line _
  | some d =>
    have around := renames.mono grown
    refine (getAt_keyword h.store around d lawful.super).bind fun F₁ first v v' superclass => ?_
    refine ((getAt_keyword h.store around (d - 1) lawful.this).mono first).bind
      fun F₂ second w w' object => ?_
    cases superclass.mono (.refl P) second with
    | cls c =>
      cases object with
      | «instance» =>
        have method := c.method? t.lexeme
        dsimp only
        revert method
        generalize Class.method? t.lexeme _ = found
        generalize Class.method? t.lexeme _ = found'
        intro method
        cases method with
        | none => exact fail tokens.line _
        | some method => exact boundMethod_alike lawful method _
      | _ => exact fail u.line _
    | _ => exact fail u.line _

omit lawful

/-! ### Classes -/

theorem evaluateSuperclass_alike {use use' : Use} (renames : e.Renames F Γ)
    (u : P.Uses Γ use use') :
    RunsAlike P before e F (Class.Alike P) (evaluateSuperclass use) (evaluateSuperclass use') := by
  refine (lookup renames u).bind fun F' _ v v' alike => ?_
  cases alike with
  | cls c => exact pure fun _ more => c.mono (.refl P) more
  | _ => exact fail u.line _

theorem close_alike {f f' : FunctionDecl} (alike : f.Alike P Γ f') (environment : Environment)
    (isInitializer : Bool) :
    (f.close environment isInitializer).AlikeIn P Γ (f'.close environment isInitializer) := by
  obtain @⟨_, ρ, name, name', ps, ps', ss, ss', tokens, renames, params, body⟩ := alike
  exact ⟨congrArg some tokens.lexeme, rfl, rfl, ρ, renames, params, body⟩

theorem MethodTable.Alike.insertAll {environment : Environment} (renames : environment.Renames F Γ)
    {fs fs' : List FunctionDecl}
    (alike : FunctionDecl.AllAlike P (Γ.push (Equiv.refl String)) fs fs') {ms ms' : MethodTable}
    (h : MethodTable.Alike P F ms ms') :
    MethodTable.Alike P F
      (fs.foldl (fun ms f => ms.insert f.name.lexeme (f.close environment f.isInitializer)) ms)
      (fs'.foldl (fun ms f => ms.insert f.name.lexeme (f.close environment f.isInitializer))
        ms') := by
  induction fs generalizing fs' ms ms' with
  | nil =>
    cases alike
    exact h
  | cons f fs ih =>
    obtain _ | ⟨first, rest⟩ := alike
    rename_i f' fs'
    refine ih rest fun x => ?_
    dsimp only
    rw [first.name.lexeme, first.isInitializer, Std.TreeMap.getElem?_insert,
      Std.TreeMap.getElem?_insert]
    split
    · exact .some ⟨Γ, renames, close_alike first environment _⟩
    · exact h x

theorem methodTable_alike {environment : Environment} (renames : environment.Renames F Γ)
    {fs fs' : List FunctionDecl}
    (alike : FunctionDecl.AllAlike P (Γ.push (Equiv.refl String)) fs fs') :
    MethodTable.Alike P F (methodTable environment fs) (methodTable environment fs') := by
  refine MethodTable.Alike.insertAll renames alike fun x => ?_
  rw [Std.TreeMap.getElem?_emptyc]
  exact .none

/-- The name of a class is bound before the class is made, so it is bound again in the same frame. -/
theorem assignIn_current {t t' : Token} (lexeme : t'.lexeme = t.lexeme) (named : Γ 0 t.lexeme = t.lexeme)
    (renames : e.Renames F Γ) {c c' : Class} (alike : c.Alike P F c') {m m' : Machine}
    (h : m.Alike P F before e m')
    (bound : (m.store.bindings e.frame).contains t.lexeme = true) :
    EndsAlike P before e F (fun _ _ _ => True) (Run.assignIn e t (.cls c) m)
      (Run.assignIn e t' (.cls c') m') := by
  have here := renames 0 e.frame rfl
  have bound' := (h.store.bindings e.frame _ here).contains t.lexeme
  rw [named, bound] at bound'
  have binder : m.store.binder? e t.lexeme = some e.frame := List.find?_cons_of_pos bound
  have binder' : m'.store.binder? e t'.lexeme = some e.frame := by
    rw [lexeme]
    exact List.find?_cons_of_pos bound'
  unfold Run.assignIn
  rw [get_bind, get_bind, binder, binder', lexeme]
  have defined : RunsAlike P before e F _ _ _ := defineIn here t.lexeme (.cls alike)
  rw [named] at defined
  exact defined F List.prefix_rfl m m' h

theorem respects_classWithin (current : Environment) (name : Token) (superclass : Option Use)
    (methods : List FunctionDecl) :
    Respects Machine.Grows (classWithin current name superclass methods) := by
  cases superclass with
  | none =>
    exact grows.respects_bind grows.respects_newId fun _ => grows.respects_pure _
  | some use =>
    refine grows.respects_bind (grows.respects_evaluateSuperclass use) fun above => ?_
    refine grows.respects_bind (grows.respects_newChild _ _) fun environment => ?_
    exact grows.respects_bind grows.respects_newId fun _ => grows.respects_pure _

theorem classWithin_base {t t' : Token} (tokens : P.Tokens t t') (renames : e.Renames F Γ)
    {fs fs' : List FunctionDecl}
    (alike : FunctionDecl.AllAlike P (Γ.push (Equiv.refl String)) fs fs') :
    RunsAlike P before e F (Class.Alike P) (classWithin e t none fs) (classWithin e t' none fs') := by
  refine newId.bind fun F' grown id id' same => pure fun F'' more => ?_
  subst same
  rw [tokens.lexeme]
  exact .base (methodTable_alike (renames.mono (grown.trans more)) alike)

theorem classWithin_derived (lawful : P.Lawful) {t t' : Token} (tokens : P.Tokens t t')
    (renames : e.Renames F Γ) {use use' : Use} (u : P.Uses Γ use use')
    {fs fs' : List FunctionDecl}
    (alike : FunctionDecl.AllAlike P
      ((Γ.push (Equiv.refl String)).push (Equiv.refl String)) fs fs') :
    RunsAlike P before e F (Class.Alike P) (classWithin e t (some use) fs)
      (classWithin e t' (some use') fs') := by
  refine (evaluateSuperclass_alike renames u).bind fun F₁ first above above' superclass => ?_
  have super : Bindings.Alike P F₁ (Equiv.refl String) ((∅ : Bindings).insert "super" (.cls above))
      ((∅ : Bindings).insert "super" (.cls above')) :=
    (Bindings.Alike.empty _).insert "super" (.cls superclass)
  refine (newChild (renames.mono first) lawful.refl super).bind
    fun F₂ second environment environment' ⟨equal, around⟩ => ?_
  subst equal
  refine newId.bind fun F₃ third id id' same => pure fun F₄ fourth => ?_
  subst same
  rw [tokens.lexeme]
  exact .derived (methodTable_alike (around.mono (third.trans fourth)) alike)
    (superclass.mono (.refl P) (second.trans (third.trans fourth)))

theorem declareClass_alike {t t' : Token} (tokens : P.Tokens t t') (named : P.Named (Γ 0) t t')
    (renames : e.Renames F Γ) {superclass superclass' : Option Use} {fs fs' : List FunctionDecl}
    (alike : RunsAlike P before e F (Class.Alike P) (classWithin e t superclass fs)
      (classWithin e t' superclass' fs')) :
    RunsAlike P before e F (fun _ _ _ => True) (declareClass t superclass fs)
      (declareClass t' superclass' fs') := by
  rw [declareClass_eq, declareClass_eq]
  intro F' grown m m' h
  have kept : Γ 0 t.lexeme = t.lexeme := named.lexeme.symm.trans tokens.lexeme
  have defined : RunsAlike P before e F _ _ _ := define renames t.lexeme .nil
  have declared := defined F' grown m m' h
  rw [← named.lexeme] at declared
  refine declared.bind fun F₁ _ _ mid mid' first _ ran later => ?_
  rw [get_bind, get_bind, later.current, later.current']
  refine (alike F₁ (grown.trans first) mid mid' later).bind
    fun F₂ c c' last last' second made ran' h' => ?_
  have inside : m.current.frame < m.store.frames.size := by
    rw [h.store.size, h.current]
    exact (List.getElem?_eq_some_iff.mp (renames.mono grown 0 e.frame rfl)).1
  have bound : (mid.store.bindings e.frame).contains t.lexeme = true := by
    rw [← h.current]
    cases ran
    exact Store.contains_define_self _ _ inside
  have grew := (respects_classWithin e t superclass fs).of_ok ran'
  exact assignIn_current tokens.lexeme kept (renames.mono ((grown.trans first).trans second)) made
    h' (grew.names _ _ bound)

/-! ### Nested parts -/

omit e F Γ in
/-- Expressions that are alike evaluate alike, wherever the frames are those of the scopes. -/
def EvaluatesAlike (P : Pairing) (before : String) (eval : Expr → Run Value) : Prop :=
  ∀ {e : Environment} {F : FrameRenamings} {Γ : Renamings} {x x' : Expr}, e.Renames F Γ →
    x.Alike P Γ x' → RunsAlike P before e F (Value.Alike P) (eval x) (eval x')

omit e F Γ in
def ExecutesAlike (P : Pairing) (before : String) (exec : Stmt → Run Flow) : Prop :=
  ∀ {e : Environment} {F : FrameRenamings} {Γ : Renamings} {s s' : Stmt}, e.Renames F Γ →
    s.Alike P Γ s' → RunsAlike P before e F (Flow.Alike P) (exec s) (exec s')

variable {eval : Expr → Run Value} {exec : Stmt → Run Flow}

theorem executeAll_alike (hexec : ExecutesAlike P before exec) (renames : e.Renames F Γ)
    {ss ss' : List Stmt} (alike : Stmt.AllAlike P Γ ss ss') :
    RunsAlike P before e F (Flow.Alike P) (executeAll exec ss) (executeAll exec ss') := by
  induction ss generalizing ss' F with
  | nil =>
    cases alike
    exact pure fun _ _ => .normal
  | cons s ss ih =>
    obtain _ | ⟨first, rest⟩ := alike
    refine (hexec renames first).bind fun F' grown flow flow' ends => ?_
    cases ends with
    | normal => exact ih (renames.mono grown) rest
    | breaking => exact pure fun _ _ => .breaking
    | returning v => exact pure fun _ more => .returning (v.mono (.refl P) more)

theorem evaluateAll_alike (heval : EvaluatesAlike P before eval) (renames : e.Renames F Γ)
    {es es' : List Expr} (alike : Expr.AllAlike P Γ es es') :
    RunsAlike P before e F (fun F' => List.Forall₂ (Value.Alike P F')) (evaluateAll eval es)
      (evaluateAll eval es') := by
  induction es generalizing es' F with
  | nil =>
    cases alike
    exact pure fun _ _ => .nil
  | cons x es ih =>
    obtain _ | ⟨first, rest⟩ := alike
    refine (heval renames first).bind fun F₁ grown v v' value => ?_
    refine (ih (renames.mono grown) rest).bind fun F₂ more vs vs' values => ?_
    exact pure fun F₃ further =>
      .cons (value.mono (.refl P) (more.trans further))
        (values.imp fun _ _ h => h.mono (.refl P) further)

theorem repeatWhile_alike {condition condition' : Run Value} {body body' : Run Flow}
    (hcondition : RunsAlike P before e F (Value.Alike P) condition condition')
    (hbody : RunsAlike P before e F (Flow.Alike P) body body') (n : Nat) :
    RunsAlike P before e F (Flow.Alike P) (repeatWhile condition body n)
      (repeatWhile condition' body' n) := by
  induction n generalizing F with
  | zero => exact unfinished
  | succ n ih =>
    refine hcondition.bind fun F₁ grown v v' alike => ?_
    rw [alike.isTruthy]
    split
    · refine (hbody.mono grown).bind fun F₂ more flow flow' ends => ?_
      have all := grown.trans more
      cases ends with
      | normal => exact ih (hcondition.mono all) (hbody.mono all)
      | breaking => exact pure fun _ _ => .normal
      | returning v => exact pure fun _ further => .returning (v.mono (.refl P) further)
    · exact pure fun _ _ => .normal

/-! ### Calls -/

theorem Bindings.Alike.insertAll {ρ : Renaming} {ps ps' : List Token}
    (params : List.Forall₂ (P.Named ρ) ps ps') {vs vs' : List Value}
    (values : List.Forall₂ (Value.Alike P F) vs vs') {bs bs' : Bindings}
    (h : Bindings.Alike P F ρ bs bs') :
    Bindings.Alike P F ρ
      ((ps.zip vs).foldl (fun bs pair => bs.insert pair.1.lexeme pair.2) bs)
      ((ps'.zip vs').foldl (fun bs pair => bs.insert pair.1.lexeme pair.2) bs') := by
  induction params generalizing vs vs' bs bs' with
  | nil => exact h
  | cons param _ ih =>
    cases values with
    | nil => exact h
    | cons value values =>
      refine ih values ?_
      dsimp only
      rw [param.lexeme]
      exact h.insert _ value

theorem frame_alike {f f' : Closure} {ρ : Renaming}
    (params : List.Forall₂ (P.Named ρ) f.params f'.params) {vs vs' : List Value}
    (values : List.Forall₂ (Value.Alike P F) vs vs') :
    Bindings.Alike P F ρ (f.frame vs) (f'.frame vs') :=
  (Bindings.Alike.empty ρ).insertAll params values

variable (lawful : P.Lawful) (hexec : ExecutesAlike P before exec)

include lawful hexec

theorem closureCall_alike {f f' : Closure} (alike : f.Alike P F f') {vs vs' : List Value}
    (values : List.Forall₂ (Value.Alike P F) vs vs') :
    RunsAlike P before e F (Value.Alike P) (f.call exec vs) (f'.call exec vs') := by
  obtain ⟨Γ, renames, same⟩ := alike
  obtain ⟨ρ, allowed, params, body⟩ := same.code
  unfold Closure.call
  rw [same.environment, same.isInitializer]
  refine (newChild renames allowed (frame_alike params values)).bind
    fun F₁ grown inner inner' ⟨equal, around⟩ => ?_
  subst equal
  refine (within (executeAll_alike hexec around body)).bind fun F₂ more flow flow' ends => ?_
  split
  · refine get fun F₃ further m m' h => ?_
    exact getAt_keyword h.store (renames.mono ((grown.trans more).trans further)) 0 lawful.this
  · cases ends with
    | returning v => exact value v
    | _ => exact value .nil

theorem construct_alike {c c' : Class} (alike : c.Alike P F c') {vs vs' : List Value}
    (values : List.Forall₂ (Value.Alike P F) vs vs') :
    RunsAlike P before e F (Value.Alike P) (c.construct exec vs) (c'.construct exec vs') := by
  refine (newInstance alike).bind fun F₁ grown id id' same => ?_
  subst same
  have method := alike.method? "init"
  unfold Class.initializer?
  revert method
  cases c.method? "init" <;> cases c'.method? "init" <;> intro method
  · exact value .instance
  · cases method
  · cases method
  · obtain ⟨Γ, renames, method⟩ | _ := method
    refine (bindMethod_alike lawful ⟨Γ, renames.mono grown, method⟩ id).bind
      fun F₂ more bound bound' alike => ?_
    have values := values.imp fun _ _ h => Value.Alike.mono (.refl P) (grown.trans more) h
    exact (closureCall_alike lawful hexec alike values).bind fun _ _ _ _ _ => value .instance

theorem invoke_alike {v v' : Value} (alike : v.Alike P F v') {vs vs' : List Value}
    (values : List.Forall₂ (Value.Alike P F) vs vs') :
    RunsAlike P before e F (Value.Alike P) (v.invoke exec vs) (v'.invoke exec vs') := by
  have clock : RunsAlike P before e F (Value.Alike P) (do return .number (← Run.readClock))
      (do return .number (← Run.readClock)) := by
    refine readClock.bind fun F' _ time time' same => ?_
    subst same
    exact value .number
  cases alike with
  | function f => exact closureCall_alike lawful hexec f values
  | cls c => exact construct_alike lawful hexec c values
  | _ => exact clock

theorem call_alike {t t' : Token} (tokens : P.Tokens t t') {v v' : Value} (alike : v.Alike P F v')
    {vs vs' : List Value} (values : List.Forall₂ (Value.Alike P F) vs vs') :
    RunsAlike P before e F (Value.Alike P) (v.call exec t vs) (v'.call exec t' vs') := by
  unfold Value.call
  rw [alike.arity?, values.length_eq]
  split
  · exact fail tokens.line _
  · split
    · exact invoke_alike lawful hexec alike values
    · exact fail tokens.line _

/-! ### Levels -/

variable (heval : EvaluatesAlike P before eval)

include heval

theorem evaluateStep_alike : EvaluatesAlike P before (evaluateStep eval exec) := by
  intro e F Γ x x' renames alike
  cases alike with
  | @literal _ literal => cases literal <;> exact value (by constructor)
  | grouping inner => exact heval renames inner
  | unary operator operand =>
    exact (heval renames operand).bind fun _ _ _ _ value => applyUnary_alike operator value
  | binary left operator right =>
    refine (heval renames left).bind fun F₁ first _ _ leftValue => ?_
    refine (heval (renames.mono first) right).bind fun F₂ second _ _ rightValue => ?_
    exact applyBinary_alike operator (leftValue.mono (.refl P) second) rightValue
  | logical left operator right =>
    refine (heval renames left).bind fun F₁ first _ _ leftValue => ?_
    rw [decidedByLeft_alike operator leftValue]
    split
    · exact value leftValue
    · exact heval (renames.mono first) right
  | «variable» use => exact lookup renames use
  | this use => exact lookup renames use
  | assign use right =>
    refine (heval renames right).bind fun F₁ first _ _ rightValue => ?_
    refine (assign (renames.mono first) use rightValue).bind fun F₂ second _ _ _ => ?_
    exact value (rightValue.mono (.refl P) second)
  | super use method => exact getSuper_alike lawful renames use method
  | call callee paren arguments =>
    refine (heval renames callee).bind fun F₁ first _ _ function => ?_
    refine (evaluateAll_alike heval (renames.mono first) arguments).bind
      fun F₂ second _ _ values => ?_
    exact call_alike lawful hexec paren (function.mono (.refl P) second) values
  | get object name =>
    refine (heval renames object).bind fun F₁ first _ _ found => ?_
    cases found with
    | «instance» => exact getProperty_alike lawful _ name
    | _ => exact fail name.line _
  | set object name right =>
    refine (heval renames object).bind fun F₁ first _ _ found => ?_
    cases found with
    | «instance» =>
      refine (heval (renames.mono first) right).bind fun F₂ second _ _ rightValue => ?_
      rw [name.lexeme]
      refine (setField _ _ rightValue).bind fun F₃ third _ _ _ => ?_
      exact value (rightValue.mono (.refl P) third)
    | _ => exact fail name.line _
  | lambda allowed params body =>
    refine get fun F' grown m m' h => ?_
    rw [h.current, h.current']
    exact newFunction_alike ⟨Γ, renames.mono grown, rfl, rfl, rfl, _, allowed, params, body⟩

theorem executeStep_alike (rounds : Nat) : ExecutesAlike P before (executeStep rounds eval exec) := by
  intro e F Γ s s' renames alike
  cases alike with
  | expression inner =>
    exact (heval renames inner).bind fun _ _ _ _ _ => pure fun _ _ => .normal
  | print inner =>
    refine (heval renames inner).bind fun F₁ first _ _ shown => ?_
    refine get fun F₂ second m m' h => ?_
    rw [h.store.display (shown.mono (.refl P) second)]
    exact (print _).bind fun _ _ _ _ _ => pure fun _ _ => .normal
  | var name =>
    refine (value .nil).bind fun F₁ first _ _ initial => ?_
    rw [name.lexeme]
    exact (define (renames.mono first) _ initial).bind fun _ _ _ _ _ => pure fun _ _ => .normal
  | varWith name inner =>
    refine (heval renames inner).bind fun F₁ first _ _ initial => ?_
    rw [name.lexeme]
    exact (define (renames.mono first) _ initial).bind fun _ _ _ _ _ => pure fun _ _ => .normal
  | block allowed body =>
    refine get fun F₁ first m m' h => ?_
    rw [h.current, h.current']
    refine (newChild (renames.mono first) allowed (.empty _)).bind
      fun F₂ second inner inner' ⟨equal, around⟩ => ?_
    subst equal
    exact within (executeAll_alike hexec around body)
  | ifThen condition branch =>
    refine (heval renames condition).bind fun F₁ first _ _ test => ?_
    rw [test.isTruthy]
    split
    · exact hexec (renames.mono first) branch
    · exact pure fun _ _ => .normal
  | ifElse condition branch other =>
    refine (heval renames condition).bind fun F₁ first _ _ test => ?_
    rw [test.isTruthy]
    split
    · exact hexec (renames.mono first) branch
    · exact hexec (renames.mono first) other
  | whileLoop condition body =>
    exact repeatWhile_alike (heval renames condition) (hexec renames body) rounds
  | breakLoop => exact pure fun _ _ => .breaking
  | returnFrom =>
    refine (value .nil).bind fun F₁ first _ _ result => ?_
    exact pure fun _ more => .returning (result.mono (.refl P) more)
  | returnWith keyword inner =>
    refine (heval renames inner).bind fun F₁ first _ _ result => ?_
    exact pure fun _ more => .returning (result.mono (.refl P) more)
  | function name declaration =>
    refine get fun F₁ first m m' h => ?_
    rw [h.current, h.current']
    refine (newFunction_alike ⟨Γ, renames.mono first, close_alike declaration e false⟩).bind
      fun F₂ second _ _ made => ?_
    rw [name.lexeme]
    exact (define (renames.mono (first.trans second)) _ made).bind
      fun _ _ _ _ _ => pure fun _ _ => .normal
  | base tokens name members =>
    exact (declareClass_alike tokens name renames (classWithin_base tokens renames members)).bind
      fun _ _ _ _ _ => pure fun _ _ => .normal
  | derived tokens name superclass members =>
    exact (declareClass_alike tokens name renames
      (classWithin_derived lawful tokens renames superclass members)).bind
      fun _ _ _ _ _ => pure fun _ _ => .normal

omit hexec heval

theorem alike_levels (n : Nat) :
    EvaluatesAlike P before (evaluate n) ∧ ExecutesAlike P before (execute n) := by
  induction n with
  | zero => exact ⟨fun _ _ => unfinished, fun _ _ => unfinished⟩
  | succ n ih =>
    have heval : EvaluatesAlike P before (evaluate (n + 1)) :=
      evaluateStep_alike lawful ih.2 ih.1
    exact ⟨heval, executeStep_alike lawful ih.2 heval n⟩

theorem interpret_alike {ss ss' : List Stmt} (renames : e.Renames F Γ)
    (alike : Stmt.AllAlike P Γ ss ss') :
    RunsAlike P before e F (fun _ _ _ => True) (interpret ss) (interpret ss') := by
  induction ss generalizing ss' F with
  | nil =>
    cases alike
    exact pure fun _ _ => trivial
  | cons s ss ih =>
    obtain _ | ⟨first, rest⟩ := alike
    exact ((alike_levels lawful limit).2 renames first).bind
      fun F' grown _ _ _ => ih (renames.mono grown) rest

end Evaluation

theorem Program.Alike.run {P : Pairing} (lawful : P.Lawful) {before : String} {F : FrameRenamings}
    (global : F[0]? = some (Equiv.refl String)) {p p' : Program} (alike : p.Alike P p') :
    RunsAlike P before .global F (fun _ shown shown' => shown' = shown) p.run p'.run := by
  have renames := Environment.Renames.global global
  refine (interpret_alike lawful renames alike.statements).bind fun F₁ first _ _ _ => ?_
  have trailing := alike.trailing
  revert trailing
  cases p.trailing <;> cases p'.trailing <;> intro trailing
  · exact .pure fun _ _ => rfl
  · cases trailing
  · cases trailing
  · obtain trailing | _ := trailing
    refine ((alike_levels lawful limit).1 (renames.mono first) trailing).bind
      fun F₂ second v v' value => ?_
    refine .get fun F₃ third m m' h => ?_
    rw [h.store.display (value.mono (.refl P) third)]
    exact .pure fun _ _ => rfl

end Lox
