import Lox.Proofs.Restoration

/-!
# Runs with more levels

A run that stops for want of levels is the beginning of the run with more levels, and a run that
stops for another reason does not depend on its levels: `execute_reaches`.
-/

namespace Lox

/-- The second machine has printed what the first has, and perhaps more. -/
def Machine.Prints (m later : Machine) : Prop := ∃ text, later.output = m.output ++ text

theorem Machine.Prints.of_same {m later : Machine} (h : later.output = m.output) :
    m.Prints later := ⟨"", by rw [h, String.append_empty]⟩

theorem prints : StepRelation Machine.Prints where
  refl _ := .of_same rfl
  trans := by
    rintro m₁ m₂ m₃ ⟨text, first⟩ ⟨text', second⟩
    exact ⟨text ++ text', by rw [second, first, String.append_assoc]⟩
  define _ _ _ _ := .of_same rfl
  newChild _ _ _ := .of_same rfl
  newId _ := .of_same rfl
  newInstance _ _ := .of_same rfl
  setField _ _ _ _ := .of_same rfl
  print _ text := ⟨text ++ "\n", String.append_assoc⟩
  tick _ := .of_same rfl
  within h := h

abbrev Ending := EStateM.Result Abort Machine

namespace Ending

variable {α : Type}

def machine : Ending α → Machine
  | .ok _ m => m
  | .error _ m => m

theorem machine_apply (p : Run α) (m : Machine) : machine (p m) = stateAfter p m := by
  unfold machine stateAfter
  cases p m <;> rfl

/-- The run did not stop for want of levels. -/
def Finished (r : Ending α) : Prop := ∀ m, r ≠ .error (.crash .unfinished) m

/-- The second ending is the first, unless the first run stopped for want of levels; then the second
has printed what the first has. -/
def Reaches (r r' : Ending α) : Prop :=
  r' = r ∨ ∃ m, r = .error (.crash .unfinished) m ∧ m.Prints r'.machine

theorem Reaches.refl (r : Ending α) : r.Reaches r := .inl rfl

theorem Reaches.of_finished {r r' : Ending α} (h : r.Reaches r') (finished : r.Finished) :
    r' = r := by
  obtain same | ⟨m, stopped, -⟩ := h
  · exact same
  · exact absurd stopped (finished m)

theorem Reaches.of_ok {a : α} {m : Machine} {r : Ending α} (h : Reaches (.ok a m) r) :
    r = .ok a m := h.of_finished fun _ same => nomatch same

end Ending

/-- What comes after a step only prints more. -/
theorem prints_bind {α β : Type} {p : Run α} {f : α → Run β}
    (hf : ∀ a, Respects Machine.Prints (f a)) (m : Machine) :
    (Ending.machine (p m)).Prints (Ending.machine ((p >>= f) m)) := by
  rw [bind_apply]
  cases p m with
  | ok a mid =>
    change mid.Prints (Ending.machine (f a mid))
    rw [Ending.machine_apply]
    exact hf a mid
  | error e mid => exact prints.refl mid

theorem Ending.Reaches.bind {α β : Type} {p : Run α} {f : α → Run β} {a : Abort} {m mid : Machine}
    (h : Ending.Reaches (.error a mid) (p m)) (hf : ∀ a, Respects Machine.Prints (f a)) :
    Ending.Reaches (.error a mid) ((p >>= f) m) := by
  obtain same | ⟨_, ⟨⟩, printed⟩ := h
  · exact .inl (bind_of_error same)
  · exact .inr ⟨mid, rfl, Lox.prints.trans printed (prints_bind hf m)⟩

namespace Ending

variable {α : Type}

def back (e : Environment) : Ending α → Ending α
  | .ok a m => .ok a { m with current := e }
  | .error a m => .error a { m with current := e }

theorem Reaches.back {r r' : Ending α} (h : r.Reaches r') (e : Environment) :
    (r.back e).Reaches (r'.back e) := by
  obtain rfl | ⟨m, rfl, printed⟩ := h
  · exact .refl _
  · refine .inr ⟨_, rfl, ?_⟩
    cases r' <;> exact printed

end Ending

theorem Run.within_eq {α : Type} (e : Environment) (p : Run α) (m : Machine) :
    Run.within e p m = Ending.back m.current (p { m with current := e }) := by
  unfold Run.within Ending.back
  cases p { m with current := e } <;> rfl

namespace Run

variable {α β : Type} {p q : Run α} {f g : α → Run β}

/-- From every machine the second step reaches at least as far as the first. -/
structure Refines (p q : Run α) : Prop where
  reaches : ∀ m, Ending.Reaches (p m) (q m)
  prints : Respects Machine.Prints q

namespace Refines

theorem refl (h : Respects Machine.Prints p) : Refines p p := ⟨fun m => .refl (p m), h⟩

theorem of_unfinished (h : Respects Machine.Prints q) : Refines unfinished q :=
  ⟨fun m => .inr ⟨m, rfl, (Ending.machine_apply q m).symm ▸ h m⟩, h⟩

theorem bind (hp : Refines p q) (hf : ∀ a, Refines (f a) (g a)) :
    Refines (p >>= f) (q >>= g) := by
  refine ⟨fun m => ?_, Lox.prints.respects_bind hp.prints fun a => (hf a).prints⟩
  obtain same | ⟨stopped, first, printed⟩ := hp.reaches m
  · rw [bind_apply, bind_apply, same]
    cases p m with
    | ok a mid => exact (hf a).reaches mid
    | error e mid => exact .refl _
  · have more := prints_bind (p := q) (fun a => (hf a).prints) m
    exact .inr ⟨stopped, bind_of_error first, Lox.prints.trans printed more⟩

theorem within {e : Environment} (h : Refines p q) : Refines (Run.within e p) (Run.within e q) := by
  refine ⟨fun m => ?_, Lox.prints.respects_within h.prints⟩
  rw [within_eq, within_eq]
  exact (h.reaches _).back m.current

variable {eval eval' : Expr → Run Value} {exec exec' : Stmt → Run Flow}

theorem executeAll (hexec : ∀ s, Refines (exec s) (exec' s)) (ss : List Stmt) :
    Refines (executeAll exec ss) (executeAll exec' ss) := by
  induction ss with
  | nil => exact refl (Lox.prints.respects_pure _)
  | cons s ss ih =>
    refine bind (hexec s) fun flow => ?_
    cases flow with
    | normal => exact ih
    | _ => exact refl (Lox.prints.respects_pure _)

theorem evaluateAll (heval : ∀ e, Refines (eval e) (eval' e)) (es : List Expr) :
    Refines (evaluateAll eval es) (evaluateAll eval' es) := by
  induction es with
  | nil => exact refl (Lox.prints.respects_pure _)
  | cons e es ih => exact bind (heval e) fun _ => bind ih fun _ => refl (Lox.prints.respects_pure _)

theorem repeatWhile {condition condition' : Run Value} {body body' : Run Flow}
    (hcondition : Refines condition condition') (hbody : Refines body body') {n k : Nat}
    (le : n ≤ k) : Refines (repeatWhile condition body n) (repeatWhile condition' body' k) := by
  induction n generalizing k with
  | zero =>
    exact of_unfinished (Lox.prints.respects_repeatWhile hcondition.prints hbody.prints k)
  | succ n ih =>
    obtain ⟨k, rfl⟩ := Nat.exists_eq_add_of_le' (Nat.le_trans (Nat.le_add_left 1 n) le)
    refine bind hcondition fun value => ?_
    split
    · refine bind hbody fun flow => ?_
      cases flow with
      | normal => exact ih (Nat.le_of_succ_le_succ le)
      | _ => exact refl (Lox.prints.respects_pure _)
    · exact refl (Lox.prints.respects_pure _)

section Calls

variable (hexec : ∀ s, Refines (exec s) (exec' s))

include hexec

theorem closureCall (f : Closure) (arguments : List Value) :
    Refines (f.call exec arguments) (f.call exec' arguments) := by
  refine bind (refl (Lox.prints.respects_newChild _ _)) fun e => ?_
  refine bind (within (executeAll hexec f.body)) fun flow => ?_
  split
  · exact refl (Lox.prints.respects_bind Lox.prints.respects_get fun _ =>
      Lox.prints.respects_ofExcept _)
  · split <;> exact refl (Lox.prints.respects_pure _)

theorem construct (c : Class) (arguments : List Value) :
    Refines (c.construct exec arguments) (c.construct exec' arguments) := by
  refine bind (refl (Lox.prints.respects_newInstance c)) fun id => ?_
  dsimp only
  split
  · refine bind (refl (Lox.prints.respects_bindMethod _ _)) fun bound => ?_
    exact bind (closureCall hexec bound arguments) fun _ => refl (Lox.prints.respects_pure _)
  · exact refl (Lox.prints.respects_pure _)

theorem call (paren : Token) (callee : Value) (arguments : List Value) :
    Refines (callee.call exec paren arguments) (callee.call exec' paren arguments) := by
  unfold Value.call
  split
  · exact refl (Lox.prints.respects_fail _ _)
  · split
    · unfold Value.invoke
      split
      · exact closureCall hexec _ arguments
      · exact construct hexec _ arguments
      · exact refl (Lox.prints.respects_bind Lox.prints.respects_get fun _ =>
          Lox.prints.respects_pure _)
    · exact refl (Lox.prints.respects_fail _ _)

end Calls

theorem evaluateStep (heval : ∀ e, Refines (eval e) (eval' e))
    (hexec : ∀ s, Refines (exec s) (exec' s)) (e : Expr) :
    Refines (evaluateStep eval exec e) (evaluateStep eval' exec' e) := by
  cases e with
  | literal value => exact refl (Lox.prints.respects_pure _)
  | grouping inner => exact heval inner
  | unary operator operand =>
    exact bind (heval operand) fun _ => refl (Lox.prints.respects_applyUnary _ _)
  | binary left operator right =>
    exact bind (heval left) fun _ => bind (heval right) fun _ =>
      refl (Lox.prints.respects_applyBinary _ _ _)
  | logical left operator right =>
    refine bind (heval left) fun value => ?_
    split
    · exact refl (Lox.prints.respects_pure _)
    · exact heval right
  | «variable» use => exact refl (Lox.prints.respects_lookup use)
  | this use => exact refl (Lox.prints.respects_lookup use)
  | assign target value =>
    exact bind (heval value) fun _ => refl (Lox.prints.respects_bind
      (Lox.prints.respects_assign _ _) fun _ => Lox.prints.respects_pure _)
  | super use method => exact refl (Lox.prints.respects_getSuper use method)
  | call callee paren arguments =>
    exact bind (heval callee) fun f => bind (evaluateAll heval arguments) fun values =>
      call hexec paren f values
  | get object name =>
    refine bind (heval object) fun value => ?_
    cases value with
    | «instance» id => exact refl (Lox.prints.respects_getProperty _ _)
    | _ => exact refl (Lox.prints.respects_fail _ _)
  | set object name value =>
    refine bind (heval object) fun holder => ?_
    cases holder with
    | «instance» id =>
      exact bind (heval value) fun _ => refl (Lox.prints.respects_bind
        (Lox.prints.respects_setField _ _ _) fun _ => Lox.prints.respects_pure _)
    | _ => exact refl (Lox.prints.respects_fail _ _)
  | lambda params body =>
    exact refl (Lox.prints.respects_bind Lox.prints.respects_get fun _ =>
      Lox.prints.respects_newFunction _)

theorem evaluateOption (heval : ∀ e, Refines (eval e) (eval' e)) (o : Option Expr) :
    Refines (evaluateOption eval o) (evaluateOption eval' o) := by
  cases o with
  | none => exact refl (Lox.prints.respects_pure _)
  | some e => exact heval e

theorem executeStep (heval : ∀ e, Refines (eval e) (eval' e))
    (hexec : ∀ s, Refines (exec s) (exec' s)) {n k : Nat} (le : n ≤ k) (s : Stmt) :
    Refines (executeStep n eval exec s) (executeStep k eval' exec' s) := by
  cases s with
  | expression e => exact bind (heval e) fun _ => refl (Lox.prints.respects_pure _)
  | print e =>
    refine bind (heval e) fun value => refl ?_
    refine Lox.prints.respects_bind Lox.prints.respects_get fun _ => ?_
    exact Lox.prints.respects_bind (Lox.prints.respects_print _) fun _ => Lox.prints.respects_pure _
  | var name initializer =>
    exact bind (evaluateOption heval initializer) fun _ => refl (Lox.prints.respects_bind
      (Lox.prints.respects_define _ _) fun _ => Lox.prints.respects_pure _)
  | block body =>
    refine bind (refl Lox.prints.respects_get) fun m => ?_
    exact bind (refl (Lox.prints.respects_newChild _ _)) fun e => within (executeAll hexec body)
  | ifElse condition thenBranch elseBranch =>
    refine bind (heval condition) fun value => ?_
    split
    · exact hexec thenBranch
    · cases elseBranch with
      | none => exact refl (Lox.prints.respects_pure _)
      | some s => exact hexec s
  | whileLoop condition body => exact repeatWhile (heval condition) (hexec body) le
  | breakLoop keyword => exact refl (Lox.prints.respects_pure _)
  | returnFrom keyword value =>
    exact bind (evaluateOption heval value) fun _ => refl (Lox.prints.respects_pure _)
  | function declaration =>
    refine refl (Lox.prints.respects_bind Lox.prints.respects_get fun _ => ?_)
    refine Lox.prints.respects_bind (Lox.prints.respects_newFunction _) fun _ => ?_
    exact Lox.prints.respects_bind (Lox.prints.respects_define _ _) fun _ =>
      Lox.prints.respects_pure _
  | classDecl name superclass methods =>
    exact refl (Lox.prints.respects_bind (Lox.prints.respects_declareClass _ _ _) fun _ =>
      Lox.prints.respects_pure _)

end Refines

end Run

theorem refines_levels {n k : Nat} (le : n ≤ k) :
    (∀ e, Run.Refines (evaluate n e) (evaluate k e)) ∧
      ∀ s, Run.Refines (execute n s) (execute k s) := by
  induction n generalizing k with
  | zero =>
    exact ⟨fun e => .of_unfinished (prints.respects_evaluate k e),
      fun s => .of_unfinished (prints.respects_execute k s)⟩
  | succ n ih =>
    obtain ⟨k, rfl⟩ := Nat.exists_eq_add_of_le' (Nat.le_trans (Nat.le_add_left 1 n) le)
    have le := Nat.le_of_succ_le_succ le
    obtain ⟨eval, exec⟩ := ih le
    have heval : ∀ e, Run.Refines (evaluate (n + 1) e) (evaluate (k + 1) e) :=
      .evaluateStep eval exec
    exact ⟨heval, .executeStep heval exec le⟩

theorem evaluate_reaches {n k : Nat} (le : n ≤ k) (e : Expr) (m : Machine) :
    Ending.Reaches (evaluate n e m) (evaluate k e m) := ((refines_levels le).1 e).reaches m

theorem execute_reaches {n k : Nat} (le : n ≤ k) (s : Stmt) (m : Machine) :
    Ending.Reaches (execute n s m) (execute k s m) := ((refines_levels le).2 s).reaches m

theorem evaluate_of_le {n k : Nat} (le : n ≤ k) {e : Expr} {m m' : Machine} {v : Value}
    (ran : evaluate n e m = .ok v m') : evaluate k e m = .ok v m' :=
  Ending.Reaches.of_ok (ran ▸ evaluate_reaches le e m)

theorem execute_of_le {n k : Nat} (le : n ≤ k) {s : Stmt} {m m' : Machine} {flow : Flow}
    (ran : execute n s m = .ok flow m') : execute k s m = .ok flow m' :=
  Ending.Reaches.of_ok (ran ▸ execute_reaches le s m)

/-! ### Where a part stops -/

namespace Ending.Reaches

variable {a : Abort} {m mid last : Machine}

theorem executeAll {n : Nat} {s : Stmt} {ss : List Stmt}
    (h : Ending.Reaches (.error a mid) (execute n s m)) :
    Ending.Reaches (.error a mid) (Lox.executeAll (execute n) (s :: ss) m) := by
  refine h.bind fun flow => ?_
  cases flow with
  | normal => exact Lox.prints.respects_executeAll (Lox.prints.respects_execute n) ss
  | _ => exact Lox.prints.respects_pure _

section Rounds

variable {condition : Run Value} {body : Run Flow} (hbody : Respects Machine.Prints body)
  (hcondition : Respects Machine.Prints condition) {rounds : Nat}

include hbody hcondition

theorem repeatWhile_condition (h : Ending.Reaches (.error a mid) (condition m)) :
    Ending.Reaches (.error a mid) (repeatWhile condition body (rounds + 1) m) := by
  refine h.bind fun value => ?_
  split
  · refine Lox.prints.respects_bind hbody fun flow => ?_
    cases flow with
    | normal => exact Lox.prints.respects_repeatWhile hcondition hbody rounds
    | _ => exact Lox.prints.respects_pure _
  · exact Lox.prints.respects_pure _

theorem repeatWhile_body {v : Value} (tested : condition m = .ok v mid)
    (holds : v.isTruthy = true) (h : Ending.Reaches (.error a last) (body mid)) :
    Ending.Reaches (.error a last) (repeatWhile condition body (rounds + 1) m) := by
  have whole : repeatWhile condition body (rounds + 1) m = _ := bind_of_ok tested
  rw [whole, if_pos holds]
  refine h.bind fun flow => ?_
  cases flow with
  | normal => exact Lox.prints.respects_repeatWhile hcondition hbody rounds
  | _ => exact Lox.prints.respects_pure _

end Rounds

end Ending.Reaches

end Lox
