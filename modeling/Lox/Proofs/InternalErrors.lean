import Lox.Proofs.Agreement
import Lox.Proofs.Numbering

/-!
# Errors that never come

Four runtime errors stand for faults of the interpreter itself. A run raises one only at an operator
without a meaning or at a `super` without its bindings, and no session comes to such a moment:
`internal_errors_dead`.
-/

namespace Lox

/-- The causes of runtime errors for which no program is to blame. -/
def RuntimeFault.isInternal : RuntimeFault → Bool
  | .invalidUnaryOperator | .invalidBinaryOperator | .superOutsideClass | .invalidSuperBinding => true
  | _ => false

/-! ### Steps without internal errors -/

def Quiet (p : Run α) (m : Machine) : Prop :=
  ∀ e after, p m = .error (.error e) after → e.fault.isInternal = false

namespace Quiet

variable {p : Run α} {f : α → Run β} {m : Machine}

theorem pure (a : α) : Quiet (pure a) m := nofun

theorem unfinished : Quiet (Run.unfinished : Run α) m := nofun

theorem fail (token : Token) {fault : RuntimeFault} (h : fault.isInternal = false) :
    Quiet (Run.fail token fault : Run α) m := by
  intro e after ran
  cases ran
  exact h

theorem ofExcept (x : Except Crash α) : Quiet (Run.ofExcept x) m := by
  cases x <;> nofun

theorem update (f : Store → α × Store) : Quiet (Run.update f) m := nofun

theorem readClock : Quiet Run.readClock m := nofun

theorem bind (hp : Quiet p m) (hf : ∀ a after, p m = .ok a after → Quiet (f a) after) :
    Quiet (p >>= f) m := by
  intro e after ran
  rw [bind_apply] at ran
  cases first : p m with
  | ok a mid =>
    rw [first] at ran
    exact hf a mid first e after ran
  | error a mid =>
    rw [first] at ran
    cases ran
    exact hp e _ first

theorem get {g : Machine → Run β} (h : Quiet (g m) m) : Quiet (MonadState.get >>= g) m := h

theorem within {env : Environment} (h : Quiet p { m with current := env }) :
    Quiet (Run.within env p) m := by
  intro e after ran
  unfold Run.within at ran
  cases inner : p { m with current := env } with
  | ok a mid =>
    rw [inner] at ran
    cases ran
  | error a mid =>
    rw [inner] at ran
    cases ran
    exact h e mid inner

end Quiet

section Basic

variable (m : Machine)

theorem quiet_lookup (use : Use) : Quiet (Run.lookup use) m := by
  refine .get ?_
  dsimp only
  split
  · exact .ofExcept _
  · split
    · exact .pure _
    · exact .fail _ rfl

theorem quiet_assignIn (e : Environment) (name : Token) (value : Value) :
    Quiet (Run.assignIn e name value) m := by
  refine .get ?_
  split
  · nofun
  · exact .fail _ rfl

theorem quiet_assign (target : Use) (value : Value) : Quiet (Run.assign target value) m := by
  have distance : Quiet (Run.distance? target) m := nofun
  refine distance.bind fun d after _ => ?_
  split
  · exact .get (.bind (.ofExcept _) fun _ _ _ => nofun)
  · exact quiet_assignIn after _ _ _

theorem quiet_add (operator : Token) (left right : Value) : Quiet (add operator left right) m := by
  unfold add
  split
  · exact .pure _
  · exact .pure _
  · exact .fail _ rfl

theorem quiet_applyUnary {operator : Token} (known : Syntax.isUnary operator.type = true)
    (operand : Value) : Quiet (applyUnary operator operand) m := by
  unfold applyUnary
  split
  · split
    · exact .pure _
    · exact .fail _ rfl
  · exact .pure _
  next notMinus notBang =>
    unfold Syntax.isUnary at known
    split at known
    next isBang => exact absurd isBang notBang
    next isMinus => exact absurd isMinus notMinus
    · cases known

theorem quiet_applyBinary {operator : Token} (known : isBinary operator.type = true)
    (left right : Value) : Quiet (applyBinary operator left right) m := by
  unfold applyBinary
  split
  · exact quiet_add m _ _ _
  · exact .pure _
  · exact .pure _
  next notPlus notEqual notUnequal =>
    split
    · unfold applyNumeric
      split
      iterate 7 exact .pure _
      exfalso
      unfold isBinary at known
      split at known <;> simp_all
    · exact .fail _ rfl

theorem quiet_bindMethod (method : Closure) (id : Nat) : Quiet (Run.bind method id) m := nofun

theorem quiet_getProperty (id : Nat) (name : Token) : Quiet (getProperty id name) m := by
  refine .get ?_
  split
  · exact .fail _ rfl
  · split
    · exact .pure _
    · split
      · exact .bind (quiet_bindMethod _ _ _) fun _ _ _ => nofun
      · exact .fail _ rfl

theorem quiet_classWithin (e : Environment) (name : Token) (superclass : Option Use)
    (methods : List FunctionDecl) : Quiet (classWithin e name superclass methods) m := by
  cases superclass with
  | none => exact .bind (.update _) fun id m _ => .pure _
  | some use =>
    have above : Quiet (evaluateSuperclass use) m := by
      refine .bind (quiet_lookup m use) fun value m _ => ?_
      split
      · exact .pure _
      · exact .fail _ rfl
    refine above.bind fun c m _ => ?_
    exact .bind (.update _) fun e m _ => .bind (.update _) fun id m _ => .pure _

theorem quiet_declareClass (name : Token) (superclass : Option Use) (methods : List FunctionDecl) :
    Quiet (declareClass name superclass methods) m := by
  have define : Quiet (Run.define name.lexeme .nil) m := nofun
  rw [declareClass_eq]
  refine define.bind fun _ m _ => .get ?_
  exact (quiet_classWithin m _ _ _ _).bind fun cls m _ => quiet_assignIn m _ _ _

end Basic

/-! ### Moments without internal errors -/

def Moment.Harmless (a : Moment) : Prop :=
  match a.task with
  | .evaluate _ (.unary operator _) => Syntax.isUnary operator.type = true
  | .evaluate _ (.binary _ operator _) => isBinary operator.type = true
  | .evaluate _ (.super use name) => Quiet (getSuper use name) a.machine
  | _ => True

/-- Neither this moment nor one that comes in the course of it raises an internal error. -/
def Moment.Tame (a : Moment) : Prop := ∀ b, Relation.ReflTransGen Begins a b → b.Harmless

namespace Moment.Tame

variable {a b : Moment}

theorem here (h : a.Tame) : a.Harmless := h a .refl

theorem step (h : a.Tame) (begins : Begins a b) : b.Tame :=
  fun c course => h c (course.head begins)

end Moment.Tame

def QuietEvaluate (n : Nat) : Prop :=
  ∀ e m, Moment.Tame ⟨.evaluate n e, m⟩ → Quiet (evaluate n e) m

def QuietExecute (n : Nat) : Prop :=
  ∀ s m, Moment.Tame ⟨.execute n s, m⟩ → Quiet (execute n s) m

section Levels

variable {n : Nat} {m : Machine}

theorem quiet_evaluateAll (ih : QuietEvaluate n) {es : List Expr}
    (tame : Moment.Tame ⟨.evaluateAll n es, m⟩) : Quiet (evaluateAll (evaluate n) es) m := by
  induction es generalizing m with
  | nil => exact .pure _
  | cons e es others =>
    refine .bind (ih e m (tame.step .head)) fun value m ran => ?_
    exact .bind (others (tame.step (.tail ran))) fun values m _ => .pure _

theorem quiet_executeAll (ih : QuietExecute n) {ss : List Stmt}
    (tame : Moment.Tame ⟨.executeAll n ss, m⟩) : Quiet (executeAll (execute n) ss) m := by
  induction ss generalizing m with
  | nil => exact .pure _
  | cons s ss others =>
    refine .bind (ih s m (tame.step .first)) fun flow m ran => ?_
    cases flow with
    | normal => exact others (tame.step (.next ran))
    | _ => exact .pure _

theorem quiet_repeatWhile (ih : QuietEvaluate (n + 1)) (ih' : QuietExecute n) {condition : Expr}
    {body : Stmt} {rounds : Nat} (tame : Moment.Tame ⟨.repeatWhile n condition body rounds, m⟩) :
    Quiet (repeatWhile (evaluate (n + 1) condition) (execute n body) rounds) m := by
  induction rounds generalizing m with
  | zero => exact .unfinished
  | succ rounds again =>
    refine .bind (ih condition m (tame.step .condition)) fun value mid tested => ?_
    split
    next holds =>
      refine .bind (ih' body mid (tame.step (.body tested holds))) fun flow m ran => ?_
      cases flow with
      | normal => exact again (tame.step (.again tested holds ran))
      | _ => exact .pure _
    · exact .pure _

theorem quiet_call (ih : QuietExecute n) {f : Closure} {arguments : List Value}
    (tame : Moment.Tame ⟨.call n f arguments, m⟩) : Quiet (f.call (execute n) arguments) m := by
  refine .bind (.update _) fun e pushed made => ?_
  cases made
  refine .bind (.within (quiet_executeAll ih (tame.step .called))) fun flow after _ => ?_
  split
  · exact .get (.ofExcept _)
  · split <;> exact .pure _

theorem quiet_invoke (ih : QuietExecute n) {callee : Value} {arguments : List Value}
    (tame : Moment.Tame ⟨.invoke n callee arguments, m⟩) :
    Quiet (callee.invoke (execute n) arguments) m := by
  cases callee with
  | function id f => exact quiet_call ih (tame.step .function)
  | cls c =>
    refine .bind (.update _) fun id made ran => ?_
    cases ran
    dsimp only
    split
    next method here =>
      refine .bind (quiet_bindMethod _ method _) fun bound mid ran => ?_
      exact .bind (quiet_call ih (tame.step (.callInitializer here ran))) fun _ after _ => .pure _
    · exact .pure _
  | _ => exact .bind .readClock fun _ _ _ => .pure _

theorem quiet_valueCall (ih : QuietExecute n) {paren : Token} {callee : Value}
    {arguments : List Value}
    (tame : callee.arity? = some arguments.length → Moment.Tame ⟨.invoke n callee arguments, m⟩) :
    Quiet (callee.call (execute n) paren arguments) m := by
  unfold Value.call
  cases arity : callee.arity? with
  | none => exact .fail _ rfl
  | some expected =>
    dsimp only
    split
    next same => exact quiet_invoke ih (tame (by rw [arity, same]))
    · exact .fail _ rfl

theorem quietEvaluate_succ (ih : QuietEvaluate n) (ih' : QuietExecute n) :
    QuietEvaluate (n + 1) := by
  intro e m tame
  have first {part : Expr} (here : e.first? = some part) : Quiet (evaluate n part) m :=
    ih part m (tame.step (.part here))
  rw [evaluate_succ]
  cases e with
  | literal => exact .pure _
  | grouping inner => exact first rfl
  | unary operator operand =>
    exact .bind (first rfl) fun value mid _ => quiet_applyUnary mid tame.here value
  | binary left operator right =>
    refine .bind (first rfl) fun leftValue mid ran => ?_
    refine .bind (ih right mid (tame.step (.right ran))) fun rightValue after _ => ?_
    exact quiet_applyBinary after tame.here leftValue rightValue
  | logical left operator right =>
    refine .bind (first rfl) fun leftValue mid ran => ?_
    split
    · exact .pure _
    next undecided =>
      exact ih right mid (tame.step (.undecided ran (Bool.eq_false_iff.mpr undecided)))
  | «variable» use => exact quiet_lookup m use
  | this use => exact quiet_lookup m use
  | assign target value =>
    refine .bind (first rfl) fun v mid _ => ?_
    exact .bind (quiet_assign mid target v) fun _ after _ => .pure _
  | super use name => exact tame.here
  | call callee paren arguments =>
    refine .bind (first rfl) fun f mid ran => ?_
    refine .bind (quiet_evaluateAll ih (tame.step (.arguments ran))) fun values after ran' => ?_
    exact quiet_valueCall ih' fun arity => tame.step (.invoke ran ran' arity)
  | get object name =>
    refine .bind (first rfl) fun value mid _ => ?_
    split
    · exact quiet_getProperty mid _ name
    · exact .fail _ rfl
  | set object name value =>
    refine .bind (first rfl) fun v mid ran => ?_
    cases v with
    | «instance» id =>
      refine .bind (ih value mid (tame.step (.field ran))) fun v after _ => ?_
      exact .bind nofun fun _ _ _ => .pure _
    | _ => exact .fail _ rfl
  | lambda params body => exact .get nofun

theorem quietExecute_succ (ih : QuietEvaluate (n + 1)) (ih' : QuietExecute n) :
    QuietExecute (n + 1) := by
  intro s m tame
  have first {e : Expr} (here : s.first? = some e) : Quiet (evaluate (n + 1) e) m :=
    ih e m (tame.step (.expression here))
  rw [execute_succ]
  cases s with
  | expression e => exact .bind (first rfl) fun _ after _ => .pure _
  | print e => exact .bind (first rfl) fun value after _ => .get nofun
  | var name initializer =>
    have value : Quiet (evaluateOption (evaluate (n + 1)) initializer) m := by
      cases initializer with
      | none => exact .pure _
      | some e => exact first rfl
    exact .bind value fun v after _ => nofun
  | block body =>
    refine .get (.bind (.update _) fun e pushed made => ?_)
    cases made
    exact .within (quiet_executeAll ih' (tame.step .block))
  | ifElse condition thenBranch elseBranch =>
    refine .bind (first rfl) fun value mid ran => ?_
    split
    next holds =>
      exact ih' thenBranch mid (tame.step (.branch ran (by simp [chosen, holds])))
    next fails =>
      split
      next s => exact ih' s mid (tame.step (.branch ran (by simp [chosen, fails])))
      · exact .pure _
  | whileLoop condition body => exact quiet_repeatWhile ih ih' (tame.step .loop)
  | breakLoop keyword => exact .pure _
  | returnFrom keyword value =>
    have value : Quiet (evaluateOption (evaluate (n + 1)) value) m := by
      cases value with
      | none => exact .pure _
      | some e => exact first rfl
    exact .bind value fun v after _ => .pure _
  | function declaration => nofun
  | classDecl name superclass methods =>
    exact .bind (quiet_declareClass m name superclass methods) fun _ after _ => .pure _

theorem quiet_levels (n : Nat) : QuietEvaluate n ∧ QuietExecute n := by
  induction n with
  | zero => exact ⟨fun _ _ _ => .unfinished, fun _ _ _ => .unfinished⟩
  | succ n ih =>
    have evaluated := quietEvaluate_succ ih.1 ih.2
    exact ⟨evaluated, quietExecute_succ evaluated ih.2⟩

end Levels

/-! ### Sessions -/

theorem Program.quiet_run {p : Program} {start : Machine}
    (tame : ∀ a, p.Turns start a → a.Tame) : Quiet p.run start := by
  have statements (before ss later : List Stmt) (m : Machine)
      (split : p.statements = before ++ (ss ++ later)) (ran : interpret before start = .ok () m) :
      Quiet (interpret ss) m := by
    induction ss generalizing before m with
    | nil => exact .pure _
    | cons s ss ih =>
      refine .bind ((quiet_levels limit).2 s m (tame _ (.statement split ran))) fun _ mid ended => ?_
      refine ih (before ++ [s]) mid (by rw [split, List.append_assoc]; rfl) ?_
      exact (interpret_append ran [s]).trans (bind_of_ok ended)
  refine .bind (statements [] p.statements [] start (List.append_nil _).symm rfl) fun _ m ran => ?_
  split
  · exact .pure _
  next e here =>
    exact .bind ((quiet_levels limit).1 e m (tame _ (.trailing here ran))) fun v after _ =>
      .get (.pure _)

def Entry.request : Entry → Request
  | .program source => .program (scan source).tokens
  | .line source => .line (scan source).tokens

theorem Entry.parsed_request (entry : Entry) (i : Nat) : entry.parsed i = entry.request.parsed i := by
  cases entry <;> rfl

namespace Session

variable {clock : Clock} {history before : List Entry} {entry : Entry} {a : Moment}

/-- Operators in code that is executed have a meaning. -/
theorem Holds.knownOperators {s : Session} {c : Code} (h : s.Holds history c) :
    c.KnownOperators := by
  obtain ⟨start, p, ⟨before, entry, later, -, executes, -⟩, contains⟩ := h
  rw [executes.program, Entry.parsed_request] at contains
  exact (Request.numbered _ _).known c contains

/-- The frames that `super` and `this` are bound in, where `super` is used. -/
theorem bindings_of_super {n : Nat} {use : Use} {name : Token} {m : Machine}
    (happens : (initial clock).Happens history ⟨.evaluate n (.super use name), m⟩) :
    ∃ d c id, m.distances[use.id]? = some (d + 1) ∧
      m.store.getAt m.current (d + 1) "super" = .ok (.cls c) ∧
      m.store.getAt m.current d "this" = .ok (.instance id) ∧
      getSuper use name m = c.bindMethod name id m := by
  obtain ⟨_, _, _, -, -, ⟨heap, -, ls, place, occurs⟩⟩ := ready clock happens
  obtain ⟨k, f, method, c, id, above, distance, inMethod, -, declared⟩ :=
    place.use_super heap (occurs _ List.mem_cons_self)
  exact ⟨k + 1, above, id, distance, inMethod.getAt_super declared, inMethod.getAt_this,
    World.getSuper_eq inMethod distance declared⟩

theorem harmless (happens : (initial clock).Happens history a) : a.Harmless := by
  obtain ⟨_, _, _, -, -, ready⟩ := ready clock happens
  obtain ⟨task, m⟩ := a
  cases task with
  | evaluate n e =>
    have known := (World.Ready.holds_expr ready).knownOperators.here
    cases e with
    | unary | binary => exact known
    | super use name =>
      obtain ⟨d, c, id, -, -, -, same⟩ := bindings_of_super happens
      intro x after ran
      rw [same] at ran
      have quiet : Quiet (c.bindMethod name id) m := by
        unfold Class.bindMethod
        split
        · exact .bind (quiet_bindMethod _ _ _) fun _ _ _ => nofun
        · exact .fail _ rfl
      exact quiet x after ran
    | _ => trivial
  | _ => trivial

theorem runtimeError_enter {e : RuntimeError}
    (raised : (((initial clock).afterAll before).enter entry).1.runtimeError = some e) :
    e.fault.isInternal = false := by
  rcases ((initial clock).afterAll before).executes_or_idle entry with executes | idle
  · have quiet : Quiet (entry.parsed ((initial clock).afterAll before).nextId).result.run
        (((initial clock).afterAll before).start
          (entry.parsed ((initial clock).afterAll before).nextId).result) := by
      refine Program.quiet_run fun a turns b course => ?_
      have happens : ((initial clock).afterAll before).Happens [entry] b := by
        induction course with
        | refl => exact .turn executes.runs turns
        | tail _ begins ih => exact .step ih begins
      exact harmless happens.earlier
    rw [enter_report executes] at raised
    split at raised
    · cases raised
    next ran =>
      cases raised
      exact quiet _ _ ran
    · cases raised
  · obtain ⟨errors, same⟩ := idle.report
    rw [same] at raised
    cases raised

end Session

def internalMessages : List String :=
  ["Invalid unary operator.", "Invalid binary operator.", "Invalid 'super' binding.",
   "Can't use 'super' outside of a class."]

theorem head?_toList_append {text more : String} {c : Char} (h : text.toList.head? = some c) :
    (text ++ more).toList.head? = some c := by
  rw [String.toList_append, List.head?_append, h]
  rfl

theorem RuntimeFault.isInternal_of_message {fault : RuntimeFault}
    (h : fault.message ∈ internalMessages) : fault.isInternal = true := by
  -- The wordings with a name or a number in them begin with other letters.
  have initial : ∀ text ∈ internalMessages,
      text.toList.head? ≠ some 'U' ∧ text.toList.head? ≠ some 'E' := by decide
  have begins := initial _ h
  cases fault with
  | undefinedVariable name =>
    exact absurd (head?_toList_append (head?_toList_append (by decide))) begins.1
  | undefinedProperty name =>
    exact absurd (head?_toList_append (head?_toList_append (by decide))) begins.1
  | wrongArity expected got =>
    refine absurd (head?_toList_append (head?_toList_append (head?_toList_append
      (head?_toList_append ?_)))) begins.2
    decide
  | invalidUnaryOperator | invalidBinaryOperator | superOutsideClass | invalidSuperBinding => rfl
  | _ => exact absurd h (by decide)

/-- The evaluator has a case for the operator of this piece of code, if it has one: whatever the
operands are, no internal error is raised. -/
def Code.Understood : Code → Prop
  | .expr (.unary operator _) => ∀ v m, Quiet (applyUnary operator v) m
  | .expr (.binary _ operator _) => ∀ v w m, Quiet (applyBinary operator v w) m
  | .expr (.logical _ operator _) => operator.type = .kwAnd ∨ operator.type = .kwOr
  | _ => True

theorem Code.KnownOperator.understood {c : Code} (h : c.KnownOperator) : c.Understood := by
  cases c with
  | expr e =>
    cases e with
    | unary => exact fun v m => quiet_applyUnary m h v
    | binary => exact fun v w m => quiet_applyBinary m h v w
    | logical => exact h
    | _ => trivial
  | _ => trivial

/-- No entry of a session ends in an internal error. Wherever `super` is evaluated its distance is
at least one, a class is bound there, and an instance is bound to `this` one frame nearer. And the
evaluator has a case for each operator of each tree that the parser returns. -/
theorem internal_errors_dead :
    (∀ clock before entry e,
      (((Session.initial clock).afterAll before).enter entry).1.runtimeError = some e →
      e.fault.message ∉ internalMessages) ∧
    (∀ clock history n use name m,
      (Session.initial clock).Happens history ⟨.evaluate n (.super use name), m⟩ →
      ∃ d c id, m.distances[use.id]? = some d ∧ 1 ≤ d ∧
        m.store.getAt m.current d "super" = .ok (.cls c) ∧
        m.store.getAt m.current (d - 1) "this" = .ok (.instance id)) ∧
    ∀ (request : Request) firstId code,
      (request.parsed firstId).result.Contains code → code.Understood := by
  refine ⟨fun clock before entry e raised isInternal => ?_,
    fun clock history n use name m happens => ?_, fun request firstId code contains => ?_⟩
  · have other := Session.runtimeError_enter raised
    rw [RuntimeFault.isInternal_of_message isInternal] at other
    cases other
  · obtain ⟨d, c, id, distance, gotSuper, gotThis, -⟩ := Session.bindings_of_super happens
    exact ⟨d + 1, c, id, distance, Nat.le_add_left 1 d, gotSuper, gotThis⟩
  · exact ((request.numbered firstId).known code contains).here.understood

end Lox
