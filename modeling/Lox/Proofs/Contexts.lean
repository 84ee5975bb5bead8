import Lox.Resolution

/-!
# Resolution in a context

The kinds of function and class around a place can also be handed down to it. `Expr.resolve_eq` and
its companions say that this is the same, because the walk sets its own kinds back on its way out of
every function and class.
-/

namespace Lox

structure Context where
  function : FunctionContext := .none
  cls : ClassContext := .none
  deriving DecidableEq, Repr

def Context.ofMethod (c : Context) (f : FunctionDecl) : Context :=
  { c with function := f.methodContext }

namespace Resolution

def inside (r : Resolution) (c : Context) : Resolution :=
  { r with function := c.function, cls := c.cls }

def readThisIn (r : Resolution) (c : Context) (use : Use) : Resolution :=
  if c.cls = .none then r.report use.name .thisOutsideClass else r.record use

def readSuperIn (r : Resolution) (c : Context) (use : Use) : Resolution :=
  match c.cls with
  | .none => (r.report use.name .superOutsideClass).record use
  | .plain => (r.report use.name .superWithoutSuperclass).record use
  | .derived => r.record use

def checkReturnIn (r : Resolution) (c : Context) (keyword : Token) (hasValue : Bool) : Resolution :=
  (r.reportIf (c.function == .none) keyword .returnAtTopLevel).reportIf
    (hasValue && c.function == .initializer) keyword .valueFromInitializer

end Resolution

mutual

def Expr.resolveIn (c : Context) : Expr → Resolution → Resolution
  | .literal _, r => r
  | .grouping inner, r => inner.resolveIn c r
  | .unary _ operand, r => operand.resolveIn c r
  | .binary left _ right, r => right.resolveIn c (left.resolveIn c r)
  | .logical left _ right, r => right.resolveIn c (left.resolveIn c r)
  | .variable use, r => r.read use
  | .assign target value, r => (value.resolveIn c r).record target
  | .this use, r => r.readThisIn c use
  | .super use _, r => r.readSuperIn c use
  | .call callee _ arguments, r => Expr.resolveAllIn c arguments (callee.resolveIn c r)
  | .get object _, r => object.resolveIn c r
  | .set object _ value, r => object.resolveIn c (value.resolveIn c r)
  | .lambda params body, r =>
    (Stmt.resolveAllIn { c with function := .function } body (r.enterFunction params)).leave
termination_by structural e => e

def Expr.resolveAllIn (c : Context) : List Expr → Resolution → Resolution
  | [], r => r
  | e :: es, r => Expr.resolveAllIn c es (e.resolveIn c r)
termination_by structural es => es

def FunctionDecl.resolveIn (c : Context) : FunctionDecl → Resolution → Resolution
  | ⟨_, params, body⟩, r => (Stmt.resolveAllIn c body (r.enterFunction params)).leave
termination_by structural f => f

def FunctionDecl.resolveAllIn (c : Context) : List FunctionDecl → Resolution → Resolution
  | [], r => r
  | f :: fs, r => FunctionDecl.resolveAllIn c fs (f.resolveIn (c.ofMethod f) r)
termination_by structural fs => fs

def Stmt.resolveIn (c : Context) : Stmt → Resolution → Resolution
  | .expression e, r => e.resolveIn c r
  | .print e, r => e.resolveIn c r
  | .var name none, r => r.introduce name
  | .var name (some e), r => (e.resolveIn c (r.declare name)).define name
  | .block body, r => (Stmt.resolveAllIn c body r.enter).leave
  | .ifElse condition thenBranch none, r => thenBranch.resolveIn c (condition.resolveIn c r)
  | .ifElse condition thenBranch (some elseBranch), r =>
    elseBranch.resolveIn c (thenBranch.resolveIn c (condition.resolveIn c r))
  | .whileLoop condition body, r => body.resolveIn c (condition.resolveIn c r)
  | .breakLoop _, r => r
  | .returnFrom keyword none, r => r.checkReturnIn c keyword false
  | .returnFrom keyword (some e), r => e.resolveIn c (r.checkReturnIn c keyword true)
  | .function declaration, r =>
    declaration.resolveIn { c with function := .function } (r.introduce declaration.name)
  | .classDecl name none methods, r =>
    (FunctionDecl.resolveAllIn { c with cls := .plain } methods (r.introduce name).enterClass).leave
  | .classDecl name (some superclass) methods, r =>
    (FunctionDecl.resolveAllIn { c with cls := .derived } methods
      ((r.introduce name).enterDerived name superclass).enterClass).leave.leave
termination_by structural s => s

def Stmt.resolveAllIn (c : Context) : List Stmt → Resolution → Resolution
  | [], r => r
  | s :: ss, r => Stmt.resolveAllIn c ss (s.resolveIn c r)
termination_by structural ss => ss

end

/-! ### Basic steps look at no context -/

namespace Resolution

variable (r : Resolution) (c d : Context)

@[simp] theorem report_inside (token : Token) (fault : StaticFault) :
    (r.inside c).report token fault = (r.report token fault).inside c := rfl

@[simp] theorem reportIf_inside (bad : Bool) (token : Token) (fault : StaticFault) :
    (r.inside c).reportIf bad token fault = (r.reportIf bad token fault).inside c := by
  cases bad <;> rfl

@[simp] theorem enter_inside : (r.inside c).enter = r.enter.inside c := rfl

@[simp] theorem leave_inside : (r.inside c).leave = r.leave.inside c := rfl

@[simp] theorem put_inside (name : String) (complete : Bool) :
    (r.inside c).put name complete = (r.put name complete).inside c := by
  obtain ⟨_ | ⟨scope, outer⟩, _, _, _, _⟩ := r <;> rfl

@[simp] theorem declare_inside (name : Token) :
    (r.inside c).declare name = (r.declare name).inside c := by
  rw [declare, put_inside, reportIf_inside]
  rfl

@[simp] theorem define_inside (name : Token) :
    (r.inside c).define name = (r.define name).inside c := r.put_inside c name.lexeme true

@[simp] theorem introduce_inside (name : Token) :
    (r.inside c).introduce name = (r.introduce name).inside c := by
  rw [introduce, declare_inside, define_inside]
  rfl

@[simp] theorem record_inside (use : Use) : (r.inside c).record use = (r.record use).inside c := by
  have same : (r.inside c).distance? use.name.lexeme = r.distance? use.name.lexeme := rfl
  unfold record
  rw [same]
  cases r.distance? use.name.lexeme <;> rfl

@[simp] theorem read_inside (use : Use) : (r.inside c).read use = (r.read use).inside c := by
  rw [read, reportIf_inside, record_inside]
  rfl

@[simp] theorem enterFunction_inside (params : List Token) :
    (r.inside c).enterFunction params = (r.enterFunction params).inside c := by
  have all (r : Resolution) : params.foldl introduce (r.inside c) =
      (params.foldl introduce r).inside c := by
    induction params generalizing r with
    | nil => rfl
    | cons p params ih => rw [List.foldl_cons, introduce_inside, ih, List.foldl_cons]
  exact all r.enter

@[simp] theorem enterClass_inside : (r.inside c).enterClass = r.enterClass.inside c :=
  r.enter.put_inside c "this" true

@[simp] theorem enterDerived_inside (name : Token) (superclass : Use) :
    (r.inside c).enterDerived name superclass = (r.enterDerived name superclass).inside c := by
  rw [enterDerived, reportIf_inside, read_inside, enter_inside, put_inside]
  rfl

@[simp] theorem readThisIn_inside (use : Use) :
    (r.inside d).readThisIn c use = (r.readThisIn c use).inside d := by
  unfold readThisIn
  split <;> simp

@[simp] theorem readSuperIn_inside (use : Use) :
    (r.inside d).readSuperIn c use = (r.readSuperIn c use).inside d := by
  unfold readSuperIn
  split <;> simp

@[simp] theorem checkReturnIn_inside (keyword : Token) (hasValue : Bool) :
    (r.inside d).checkReturnIn c keyword hasValue = (r.checkReturnIn c keyword hasValue).inside d := by
  unfold checkReturnIn
  simp

@[simp] theorem readThis_inside (use : Use) :
    (r.inside c).readThis use = (r.readThisIn c use).inside c := r.readThisIn_inside c c use

@[simp] theorem readSuper_inside (use : Use) :
    (r.inside c).readSuper use = (r.readSuperIn c use).inside c := r.readSuperIn_inside c c use

@[simp] theorem checkReturn_inside (keyword : Token) (hasValue : Bool) :
    (r.inside c).checkReturn keyword hasValue = (r.checkReturnIn c keyword hasValue).inside c :=
  r.checkReturnIn_inside c c keyword hasValue

end Resolution

/-! ### The walk that is handed a context has no kinds of its own -/

mutual

theorem Expr.resolveIn_inside (c d : Context) (e : Expr) (r : Resolution) :
    e.resolveIn c (r.inside d) = (e.resolveIn c r).inside d := by
  cases e with
  | literal value => rfl
  | grouping inner => exact inner.resolveIn_inside c d r
  | unary operator operand => exact operand.resolveIn_inside c d r
  | binary left operator right =>
    simp only [Expr.resolveIn, left.resolveIn_inside, right.resolveIn_inside]
  | logical left operator right =>
    simp only [Expr.resolveIn, left.resolveIn_inside, right.resolveIn_inside]
  | «variable» use => exact r.read_inside d use
  | assign target value =>
    simp only [Expr.resolveIn, value.resolveIn_inside, Resolution.record_inside]
  | this use => exact r.readThisIn_inside c d use
  | super use method => exact r.readSuperIn_inside c d use
  | call callee paren arguments =>
    simp only [Expr.resolveIn, callee.resolveIn_inside, Expr.resolveAllIn_inside c d arguments]
  | get object name => exact object.resolveIn_inside c d r
  | set object name value =>
    simp only [Expr.resolveIn, value.resolveIn_inside, object.resolveIn_inside]
  | lambda params body =>
    simp only [Expr.resolveIn, Resolution.enterFunction_inside, Stmt.resolveAllIn_inside _ d body,
      Resolution.leave_inside]
termination_by structural e

theorem Expr.resolveAllIn_inside (c d : Context) (es : List Expr) (r : Resolution) :
    Expr.resolveAllIn c es (r.inside d) = (Expr.resolveAllIn c es r).inside d := by
  cases es with
  | nil => rfl
  | cons e es => simp only [Expr.resolveAllIn, e.resolveIn_inside, Expr.resolveAllIn_inside c d es]
termination_by structural es

theorem FunctionDecl.resolveIn_inside (c d : Context) (f : FunctionDecl) (r : Resolution) :
    f.resolveIn c (r.inside d) = (f.resolveIn c r).inside d := by
  cases f with
  | mk name params body =>
    simp only [FunctionDecl.resolveIn, Resolution.enterFunction_inside,
      Stmt.resolveAllIn_inside c d body, Resolution.leave_inside]
termination_by structural f

theorem FunctionDecl.resolveAllIn_inside (c d : Context) (fs : List FunctionDecl)
    (r : Resolution) :
    FunctionDecl.resolveAllIn c fs (r.inside d) = (FunctionDecl.resolveAllIn c fs r).inside d := by
  cases fs with
  | nil => rfl
  | cons f fs =>
    simp only [FunctionDecl.resolveAllIn, f.resolveIn_inside, FunctionDecl.resolveAllIn_inside c d fs]
termination_by structural fs

theorem Stmt.resolveIn_inside (c d : Context) (s : Stmt) (r : Resolution) :
    s.resolveIn c (r.inside d) = (s.resolveIn c r).inside d := by
  cases s with
  | expression e => exact e.resolveIn_inside c d r
  | print e => exact e.resolveIn_inside c d r
  | var name initializer =>
    cases initializer with
    | none => exact r.introduce_inside d name
    | some e => simp only [Stmt.resolveIn, Resolution.declare_inside, e.resolveIn_inside,
        Resolution.define_inside]
  | block body =>
    simp only [Stmt.resolveIn, Resolution.enter_inside, Stmt.resolveAllIn_inside c d body,
      Resolution.leave_inside]
  | ifElse condition thenBranch elseBranch =>
    cases elseBranch with
    | none => simp only [Stmt.resolveIn, condition.resolveIn_inside, thenBranch.resolveIn_inside]
    | some other => simp only [Stmt.resolveIn, condition.resolveIn_inside,
        thenBranch.resolveIn_inside, other.resolveIn_inside]
  | whileLoop condition body =>
    simp only [Stmt.resolveIn, condition.resolveIn_inside, body.resolveIn_inside]
  | breakLoop keyword => rfl
  | returnFrom keyword value =>
    cases value with
    | none => exact r.checkReturnIn_inside c d keyword false
    | some e => simp only [Stmt.resolveIn, Resolution.checkReturnIn_inside, e.resolveIn_inside]
  | function declaration =>
    simp only [Stmt.resolveIn, Resolution.introduce_inside, declaration.resolveIn_inside]
  | classDecl name superclass methods =>
    cases superclass <;> simp only [Stmt.resolveIn, Resolution.introduce_inside,
      Resolution.enterDerived_inside, Resolution.enterClass_inside,
      FunctionDecl.resolveAllIn_inside _ d methods, Resolution.leave_inside]
termination_by structural s

theorem Stmt.resolveAllIn_inside (c d : Context) (ss : List Stmt) (r : Resolution) :
    Stmt.resolveAllIn c ss (r.inside d) = (Stmt.resolveAllIn c ss r).inside d := by
  cases ss with
  | nil => rfl
  | cons s ss => simp only [Stmt.resolveAllIn, s.resolveIn_inside, Stmt.resolveAllIn_inside c d ss]
termination_by structural ss

end

/-! ### Setting kinds and setting them back -/

mutual

theorem Expr.resolve_inside (c : Context) (e : Expr) (r : Resolution) :
    e.resolve (r.inside c) = (e.resolveIn c r).inside c := by
  cases e with
  | literal value => rfl
  | grouping inner => exact inner.resolve_inside c r
  | unary operator operand => exact operand.resolve_inside c r
  | binary left operator right =>
    simp only [Expr.resolve, Expr.resolveIn, left.resolve_inside, right.resolve_inside]
  | logical left operator right =>
    simp only [Expr.resolve, Expr.resolveIn, left.resolve_inside, right.resolve_inside]
  | «variable» use => exact r.read_inside c use
  | assign target value =>
    simp only [Expr.resolve, Expr.resolveIn, value.resolve_inside, Resolution.record_inside]
  | this use => exact r.readThis_inside c use
  | super use method => exact r.readSuper_inside c use
  | call callee paren arguments =>
    simp only [Expr.resolve, Expr.resolveIn, callee.resolve_inside,
      Expr.resolveAll_inside c arguments]
  | get object name => exact object.resolve_inside c r
  | set object name value =>
    simp only [Expr.resolve, Expr.resolveIn, value.resolve_inside, object.resolve_inside]
  | lambda params body =>
    let around : Context := { c with function := .function }
    change { (Stmt.resolveAll body ((r.inside around).enterFunction params)).leave with
      function := c.function } = _
    rw [Resolution.enterFunction_inside, Stmt.resolveAll_inside around body]
    rfl
termination_by structural e

theorem Expr.resolveAll_inside (c : Context) (es : List Expr) (r : Resolution) :
    Expr.resolveAll es (r.inside c) = (Expr.resolveAllIn c es r).inside c := by
  cases es with
  | nil => rfl
  | cons e es =>
    simp only [Expr.resolveAll, Expr.resolveAllIn, e.resolve_inside, Expr.resolveAll_inside c es]
termination_by structural es

theorem FunctionDecl.resolve_inside (c : Context) (kind : FunctionContext) (f : FunctionDecl)
    (r : Resolution) :
    f.resolve kind (r.inside c) = (f.resolveIn { c with function := kind } r).inside c := by
  cases f with
  | mk name params body =>
    let around : Context := { c with function := kind }
    change { (Stmt.resolveAll body ((r.inside around).enterFunction params)).leave with
      function := c.function } = _
    rw [Resolution.enterFunction_inside, Stmt.resolveAll_inside around body]
    rfl
termination_by structural f

theorem FunctionDecl.resolveAll_inside (c : Context) (fs : List FunctionDecl) (r : Resolution) :
    FunctionDecl.resolveAll fs (r.inside c) = (FunctionDecl.resolveAllIn c fs r).inside c := by
  cases fs with
  | nil => rfl
  | cons f fs =>
    simp only [FunctionDecl.resolveAll, FunctionDecl.resolveAllIn, f.resolve_inside,
      FunctionDecl.resolveAll_inside c fs, Context.ofMethod]
termination_by structural fs

theorem Stmt.resolve_inside (c : Context) (s : Stmt) (r : Resolution) :
    s.resolve (r.inside c) = (s.resolveIn c r).inside c := by
  cases s with
  | expression e => exact e.resolve_inside c r
  | print e => exact e.resolve_inside c r
  | var name initializer =>
    cases initializer with
    | none => exact r.introduce_inside c name
    | some e =>
      simp only [Stmt.resolve, Stmt.resolveIn, Resolution.declare_inside, e.resolve_inside,
        Resolution.define_inside]
  | block body =>
    simp only [Stmt.resolve, Stmt.resolveIn, Resolution.enter_inside,
      Stmt.resolveAll_inside c body, Resolution.leave_inside]
  | ifElse condition thenBranch elseBranch =>
    cases elseBranch with
    | none =>
      simp only [Stmt.resolve, Stmt.resolveIn, condition.resolve_inside, thenBranch.resolve_inside]
    | some other =>
      simp only [Stmt.resolve, Stmt.resolveIn, condition.resolve_inside, thenBranch.resolve_inside,
        other.resolve_inside]
  | whileLoop condition body =>
    simp only [Stmt.resolve, Stmt.resolveIn, condition.resolve_inside, body.resolve_inside]
  | breakLoop keyword => rfl
  | returnFrom keyword value =>
    cases value with
    | none => exact r.checkReturn_inside c keyword false
    | some e =>
      simp only [Stmt.resolve, Stmt.resolveIn, Resolution.checkReturn_inside, e.resolve_inside]
  | function declaration =>
    simp only [Stmt.resolve, Stmt.resolveIn, Resolution.introduce_inside,
      declaration.resolve_inside]
  | classDecl name superclass methods =>
    cases superclass with
    | none =>
      let around : Context := { c with cls := .plain }
      change { (FunctionDecl.resolveAll methods
        ((r.inside around).introduce name).enterClass).leave with cls := c.cls } = _
      rw [Resolution.introduce_inside, Resolution.enterClass_inside,
        FunctionDecl.resolveAll_inside around methods]
      rfl
    | some superclass =>
      let around : Context := { c with cls := .derived }
      have named : { (r.inside { c with cls := .plain }).introduce name with cls := .derived } =
          (r.introduce name).inside around := by
        rw [Resolution.introduce_inside]
        rfl
      change { (FunctionDecl.resolveAll methods
        ({ (r.inside { c with cls := .plain }).introduce name with
          cls := .derived }.enterDerived name superclass).enterClass).leave.leave with
        cls := c.cls } = _
      rw [named, Resolution.enterDerived_inside, Resolution.enterClass_inside,
        FunctionDecl.resolveAll_inside around methods]
      rfl
termination_by structural s

theorem Stmt.resolveAll_inside (c : Context) (ss : List Stmt) (r : Resolution) :
    Stmt.resolveAll ss (r.inside c) = (Stmt.resolveAllIn c ss r).inside c := by
  cases ss with
  | nil => rfl
  | cons s ss =>
    simp only [Stmt.resolveAll, Stmt.resolveAllIn, s.resolve_inside, Stmt.resolveAll_inside c ss]
termination_by structural ss

end

namespace Resolution

def context (r : Resolution) : Context := ⟨r.function, r.cls⟩

end Resolution

theorem Expr.context_resolve (e : Expr) (r : Resolution) : (e.resolve r).context = r.context := by
  have same := congrArg Resolution.context (e.resolve_inside r.context r)
  exact same

theorem FunctionDecl.context_resolve (kind : FunctionContext) (f : FunctionDecl) (r : Resolution) :
    (f.resolve kind r).context = r.context := by
  have same := congrArg Resolution.context (f.resolve_inside r.context kind r)
  exact same

theorem Stmt.context_resolve (s : Stmt) (r : Resolution) : (s.resolve r).context = r.context := by
  have same := congrArg Resolution.context (s.resolve_inside r.context r)
  exact same

theorem Expr.resolve_eq (e : Expr) (r : Resolution) : e.resolve r = e.resolveIn r.context r :=
  (e.resolve_inside r.context r).trans (e.resolveIn_inside _ _ r).symm

theorem FunctionDecl.resolve_eq (kind : FunctionContext) (f : FunctionDecl) (r : Resolution) :
    f.resolve kind r = f.resolveIn { r.context with function := kind } r :=
  (f.resolve_inside r.context kind r).trans (f.resolveIn_inside _ _ r).symm

theorem Stmt.resolve_eq (s : Stmt) (r : Resolution) : s.resolve r = s.resolveIn r.context r :=
  (s.resolve_inside r.context r).trans (s.resolveIn_inside _ _ r).symm

theorem Stmt.resolveAll_eq (ss : List Stmt) (r : Resolution) :
    Stmt.resolveAll ss r = Stmt.resolveAllIn r.context ss r :=
  (Stmt.resolveAll_inside r.context ss r).trans (Stmt.resolveAllIn_inside _ _ ss r).symm

theorem Program.resolve_eq (p : Program) :
    p.resolve =
      let r := Stmt.resolveAllIn {} p.statements {}
      match p.trailing with
      | none => r
      | some e => e.resolveIn {} r := by
  unfold Program.resolve
  have statements : Stmt.resolveAll p.statements {} = Stmt.resolveAllIn {} p.statements {} :=
    Stmt.resolveAll_eq p.statements {}
  have outermost : (Stmt.resolveAllIn {} p.statements {}).context = {} := by
    rw [← statements]
    exact congrArg Resolution.context (Stmt.resolveAll_inside {} p.statements {})
  rw [statements]
  cases p.trailing with
  | none => rfl
  | some e =>
    dsimp only
    rw [e.resolve_eq, outermost]

theorem Stmt.resolveAllIn_append (c : Context) (ss ts : List Stmt) (r : Resolution) :
    Stmt.resolveAllIn c (ss ++ ts) r = Stmt.resolveAllIn c ts (Stmt.resolveAllIn c ss r) := by
  induction ss generalizing r with
  | nil => rfl
  | cons s ss ih => simp only [List.cons_append, Stmt.resolveAllIn, ih]

end Lox
