import Lox.Proofs.Calls.Frame

/-!
# Runs with checked calls

Evaluation in which each call of a function checks that the arguments fit the parameters, and does
something else where they do not; so does the call of a class without an initializer, which has no
parameters. Where all calls fit that happen, the checks come to nothing: `FitCalls.runChecked_eq`.
-/

namespace Lox

section Definitions

variable (misfit : Run Value)

/-- Takes the step if the arguments fit the parameters. -/
def Run.checked (params : List Token) (arguments : List Value) (p : Run Value) : Run Value :=
  if ArgumentsFit params arguments then p else misfit

def Closure.callChecked (exec : Stmt → Run Flow) (f : Closure) (arguments : List Value) :
    Run Value :=
  Run.checked misfit f.params arguments (f.call exec arguments)

def Class.constructChecked (exec : Stmt → Run Flow) (c : Class) (arguments : List Value) :
    Run Value := do
  let id ← Run.update (·.newInstance c)
  if let some method := c.initializer? then
    let _ ← (← Run.bind method id).callChecked misfit exec arguments
  else
    let _ ← Run.checked misfit [] arguments (pure .nil)
  pure (.instance id)

def Value.invokeChecked (exec : Stmt → Run Flow) (callee : Value) (arguments : List Value) :
    Run Value :=
  match callee with
  | .function _ closure => closure.callChecked misfit exec arguments
  | .cls c => c.constructChecked misfit exec arguments
  | other => other.invoke exec arguments

def Value.callChecked (exec : Stmt → Run Flow) (paren : Token) (callee : Value)
    (arguments : List Value) : Run Value :=
  match callee.arity? with
  | none => Run.fail paren .notCallable
  | some expected =>
    if arguments.length = expected then callee.invokeChecked misfit exec arguments
    else Run.fail paren (.wrongArity expected arguments.length)

def evaluateStepChecked (eval : Expr → Run Value) (exec : Stmt → Run Flow) : Expr → Run Value
  | .call callee paren arguments => do
    let callee ← eval callee
    let arguments ← evaluateAll eval arguments
    callee.callChecked misfit exec paren arguments
  | e => evaluateStep eval exec e

mutual

def evaluateChecked : Nat → Expr → Run Value
  | 0 => fun _ => Run.unfinished
  | n + 1 => evaluateStepChecked misfit (evaluateChecked n) (executeChecked n)

def executeChecked : Nat → Stmt → Run Flow
  | 0 => fun _ => Run.unfinished
  | n + 1 =>
    executeStep n (evaluateStepChecked misfit (evaluateChecked n) (executeChecked n))
      (executeChecked n)

end

def interpretChecked : List Stmt → Run Unit
  | [] => pure ()
  | s :: ss => do
    let _ ← executeChecked misfit limit s
    interpretChecked ss

def Program.runChecked (p : Program) : Run (Option String) := do
  interpretChecked misfit p.statements
  match p.trailing with
  | none => pure none
  | some e =>
    let value ← evaluateChecked misfit limit e
    return some ("= " ++ (← get).store.display value)

end Definitions

/-- What begins in the course of these moments is one of them, and their calls fit. -/
structure FitCalls (happens : Moment → Prop) : Prop where
  step : ∀ {a b}, happens a → Begins a b → happens b
  call : ∀ {n f arguments m}, happens ⟨.call n f arguments, m⟩ → ArgumentsFit f.params arguments
  construct : ∀ {n c arguments m}, happens ⟨.invoke n (.cls c) arguments, m⟩ →
    c.initializer? = none → ArgumentsFit [] arguments

namespace FitCalls

variable {happens : Moment → Prop} (fit : FitCalls happens) {misfit : Run Value} {n : Nat}
  {m : Machine} {eval : Expr → Run Value} {exec : Stmt → Run Flow}

/-- Where it happens, each evaluation at this level is the one with checks. -/
def EvaluatesAlike (happens : Moment → Prop) (n : Nat) (eval : Expr → Run Value) : Prop :=
  ∀ e m, happens ⟨.evaluate n e, m⟩ → eval e m = evaluate n e m

def ExecutesAlike (happens : Moment → Prop) (n : Nat) (exec : Stmt → Run Flow) : Prop :=
  ∀ s m, happens ⟨.execute n s, m⟩ → exec s m = execute n s m

include fit

/-! ### Lists and loops -/

theorem evaluateAll_eq (alike : EvaluatesAlike happens n eval) (es : List Expr) :
    ∀ {m}, happens ⟨.evaluateAll n es, m⟩ →
      evaluateAll eval es m = evaluateAll (evaluate n) es m := by
  induction es with
  | nil => exact fun _ => rfl
  | cons e es ih =>
    intro m h
    refine bind_eq_bind (alike e m (fit.step h .head)) fun v m' ran => ?_
    exact bind_eq_bind (ih (fit.step h (.tail ran))) fun _ _ _ => rfl

theorem executeAll_eq (alike : ExecutesAlike happens n exec) (ss : List Stmt) :
    ∀ {m}, happens ⟨.executeAll n ss, m⟩ →
      executeAll exec ss m = executeAll (execute n) ss m := by
  induction ss with
  | nil => exact fun _ => rfl
  | cons s ss ih =>
    intro m h
    refine bind_eq_bind (alike s m (fit.step h .first)) fun flow m' ran => ?_
    cases flow with
    | normal => exact ih (fit.step h (.next ran))
    | _ => rfl

theorem repeatWhile_eq (evaluates : EvaluatesAlike happens (n + 1) eval)
    (executes : ExecutesAlike happens n exec) {condition : Expr} {body : Stmt} (rounds : Nat) :
    ∀ {m}, happens ⟨.repeatWhile n condition body rounds, m⟩ →
      repeatWhile (eval condition) (exec body) rounds m =
        repeatWhile (evaluate (n + 1) condition) (execute n body) rounds m := by
  induction rounds with
  | zero => exact fun _ => rfl
  | succ rounds ih =>
    intro m h
    refine bind_eq_bind (evaluates condition m (fit.step h .condition)) fun v m₁ tested => ?_
    split
    next holds =>
      refine bind_eq_bind (executes body m₁ (fit.step h (.body tested holds))) fun flow m₂ ran => ?_
      cases flow with
      | normal => exact ih (fit.step h (.again tested holds ran))
      | _ => rfl
    · rfl

/-! ### Calls -/

theorem callChecked_eq (alike : ExecutesAlike happens n exec) {f : Closure}
    {arguments : List Value} (h : happens ⟨.call n f arguments, m⟩) :
    f.callChecked misfit exec arguments m = f.call (execute n) arguments m := by
  rw [Closure.callChecked, Run.checked, if_pos (fit.call h), Closure.call_eq, Closure.call_eq,
    fit.executeAll_eq alike f.body (fit.step h .called)]

theorem constructChecked_eq (alike : ExecutesAlike happens n exec) {c : Class}
    {arguments : List Value} (h : happens ⟨.invoke n (.cls c) arguments, m⟩) :
    c.constructChecked misfit exec arguments m = c.construct (execute n) arguments m := by
  unfold Class.constructChecked Class.construct
  refine bind_eq_bind rfl fun id m' made => ?_
  cases made
  cases initializer : c.initializer? with
  | none =>
    dsimp only
    rw [Run.checked, if_pos (fit.construct h initializer)]
    rfl
  | some method =>
    refine bind_eq_bind rfl fun bound m'' binds => ?_
    have called := fit.step h (.callInitializer initializer binds)
    exact bind_eq_bind (fit.callChecked_eq alike called) fun _ _ _ => rfl

theorem invokeChecked_eq (alike : ExecutesAlike happens n exec) {callee : Value}
    {arguments : List Value} (h : happens ⟨.invoke n callee arguments, m⟩) :
    callee.invokeChecked misfit exec arguments m = callee.invoke (execute n) arguments m := by
  cases callee with
  | function id f => exact fit.callChecked_eq alike (fit.step h .function)
  | cls c => exact fit.constructChecked_eq alike h
  | _ => rfl

/-! ### Expressions and statements -/

theorem evaluateStep_eq (evaluates : EvaluatesAlike happens n eval)
    (executes : ExecutesAlike happens n exec) :
    EvaluatesAlike happens (n + 1) (evaluateStepChecked misfit eval exec) := by
  intro e m h
  rw [evaluate_succ]
  have first {part : Expr} (here : e.first? = some part) : eval part m = evaluate n part m :=
    evaluates part m (fit.step h (.part here))
  cases e with
  | literal | «variable» | this | super | lambda => rfl
  | grouping inner => exact first rfl
  | unary operator operand => exact bind_eq_bind (first rfl) fun _ _ _ => rfl
  | binary left operator right =>
    refine bind_eq_bind (first rfl) fun v m' ran => ?_
    exact bind_eq_bind (evaluates right m' (fit.step h (.right ran))) fun _ _ _ => rfl
  | logical left operator right =>
    refine bind_eq_bind (first rfl) fun v m' ran => ?_
    split
    · rfl
    next undecided =>
      exact evaluates right m' (fit.step h (.undecided ran (Bool.eq_false_iff.mpr undecided)))
  | assign target value => exact bind_eq_bind (first rfl) fun _ _ _ => rfl
  | call callee paren arguments =>
    refine bind_eq_bind (first rfl) fun f m' ran => ?_
    refine bind_eq_bind (fit.evaluateAll_eq evaluates arguments (fit.step h (.arguments ran)))
      fun values m'' evaluated => ?_
    unfold Value.callChecked Value.call
    cases arity : f.arity? with
    | none => rfl
    | some expected =>
      dsimp only
      split
      next same =>
        rw [← same] at arity
        exact fit.invokeChecked_eq executes (fit.step h (.invoke ran evaluated arity))
      · rfl
  | get object name => exact bind_eq_bind (first rfl) fun _ _ _ => rfl
  | set object name value =>
    refine bind_eq_bind (first rfl) fun v m' ran => ?_
    cases v with
    | «instance» id =>
      exact bind_eq_bind (evaluates value m' (fit.step h (.field ran))) fun _ _ _ => rfl
    | _ => rfl

theorem executeStep_eq (evaluates : EvaluatesAlike happens (n + 1) eval)
    (executes : ExecutesAlike happens n exec) :
    ExecutesAlike happens (n + 1) (executeStep n eval exec) := by
  intro s m h
  rw [execute_succ]
  have first {e : Expr} (here : s.first? = some e) : eval e m = evaluate (n + 1) e m :=
    evaluates e m (fit.step h (.expression here))
  cases s with
  | expression | print => exact bind_eq_bind (first rfl) fun _ _ _ => rfl
  | var _ value | returnFrom _ value =>
    cases value with
    | none => rfl
    | some e => exact bind_eq_bind (first rfl) fun _ _ _ => rfl
  | block body =>
    refine bind_eq_bind rfl fun _ _ read => ?_
    cases read
    refine bind_eq_bind rfl fun _ _ made => ?_
    cases made
    rw [Run.within_eq, Run.within_eq]
    exact congrArg (Ending.back _) (fit.executeAll_eq executes body (fit.step h .block))
  | ifElse condition thenBranch elseBranch =>
    refine bind_eq_bind (first rfl) fun v m' ran => ?_
    have branch {s : Stmt} (choice : chosen v thenBranch elseBranch = some s) :
        exec s m' = execute n s m' := executes s m' (fit.step h (.branch ran choice))
    split
    next holds => exact branch (if_pos holds)
    next fails =>
      split
      · exact branch (if_neg fails)
      · rfl
  | whileLoop condition body => exact fit.repeatWhile_eq evaluates executes n (fit.step h .loop)
  | breakLoop | function | classDecl => rfl

theorem levels_eq (misfit : Run Value) (n : Nat) :
    EvaluatesAlike happens n (evaluateChecked misfit n) ∧
      ExecutesAlike happens n (executeChecked misfit n) := by
  induction n with
  | zero => exact ⟨fun _ _ _ => rfl, fun _ _ _ => rfl⟩
  | succ n ih =>
    have evaluates : EvaluatesAlike happens (n + 1) (evaluateChecked misfit (n + 1)) :=
      fit.evaluateStep_eq ih.1 ih.2
    exact ⟨evaluates, fit.executeStep_eq evaluates ih.2⟩

/-! ### Programs -/

theorem interpretChecked_eq {p : Program} {start : Machine}
    (turns : ∀ {a}, p.Turns start a → happens a) (before ss : List Stmt)
    (split : p.statements = before ++ ss) {m : Machine}
    (ran : interpret before start = .ok () m) :
    interpretChecked misfit ss m = interpret ss m := by
  induction ss generalizing before m with
  | nil => rfl
  | cons s ss ih =>
    have same := (fit.levels_eq misfit limit).2 s m (turns (.statement split ran))
    refine bind_eq_bind same fun flow m' ended => ?_
    have further : interpret (before ++ [s]) start = .ok () m' :=
      (interpret_append ran [s]).trans (bind_of_ok ended)
    exact ih (before ++ [s]) (by rw [split, List.append_assoc]; rfl) further

/-- A program whose calls fit runs as it does with checks. -/
theorem runChecked_eq {p : Program} {start : Machine}
    (turns : ∀ {a}, p.Turns start a → happens a) (misfit : Run Value) :
    p.runChecked misfit start = p.run start := by
  unfold Program.runChecked Program.run
  refine bind_eq_bind (fit.interpretChecked_eq turns [] p.statements rfl rfl) fun _ m ran => ?_
  cases here : p.trailing with
  | none => rfl
  | some e =>
    exact bind_eq_bind ((fit.levels_eq misfit limit).1 e m (turns (.trailing here ran)))
      fun _ _ _ => rfl

end FitCalls

end Lox
