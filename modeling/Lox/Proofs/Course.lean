import Lox.Proofs.Agreement.Session

/-!
# The course of a moment

The moments that come in the course of a moment, in their order, and what the moment does to the
frames besides: it makes new ones, and it writes to variables. `Moment.leads` says so once for all
tasks.
-/

namespace Lox

/-! ### Moments in order -/

def whenOk {α : Type} (r : EStateM.Result Abort Machine α) (next : α → Machine → List Moment) :
    List Moment :=
  match r with
  | .ok a m => next a m
  | .error _ _ => []

@[simp] theorem whenOk_ok {α : Type} (a : α) (m : Machine) (next : α → Machine → List Moment) :
    whenOk (.ok a m) next = next a m := rfl

theorem mem_whenOk {α : Type} {r : EStateM.Result Abort Machine α}
    {next : α → Machine → List Moment} {b : Moment} :
    b ∈ whenOk r next ↔ ∃ a m, r = .ok a m ∧ b ∈ next a m := by
  cases r with
  | ok a m =>
    constructor
    · exact fun mem => ⟨a, m, rfl, mem⟩
    · rintro ⟨_, _, same, mem⟩
      cases same
      exact mem
  | error e m =>
    constructor
    · exact fun mem => nomatch mem
    · rintro ⟨_, _, same, -⟩
      cases same

/-- The method that a property of an instance names, unless a field does. -/
def Machine.property? (m : Machine) (id : Nat) (name : Token) : Option Closure :=
  match m.store.instances[id]? with
  | some i => if i.fields[name.lexeme]?.isSome then none else i.cls.method? name.lexeme
  | none => none

/-- The method that a use of `super` names, with the instance to which it is bound. -/
def Machine.super? (m : Machine) (use : Use) (name : Token) : Option (Closure × Nat) :=
  match m.distances[use.id]? with
  | some d =>
    match m.store.getAt m.current d "super", m.store.getAt m.current (d - 1) "this" with
    | .ok (.cls c), .ok (.instance id) => (c.method? name.lexeme).map (·, id)
    | _, _ => none
  | none => none

namespace Machine

variable {m : Machine} {name : Token}

theorem property?_some {id : Nat} {method : Closure} :
    m.property? id name = some method ↔ ∃ i, m.store.instances[id]? = some i ∧
      i.fields[name.lexeme]? = none ∧ i.cls.method? name.lexeme = some method := by
  unfold property?
  cases m.store.instances[id]? with
  | none => simp
  | some i =>
    dsimp only
    constructor
    · intro found
      split at found
      · cases found
      next free => exact ⟨i, rfl, Option.not_isSome_iff_eq_none.mp free, found⟩
    · rintro ⟨_, same, free, found⟩
      cases same
      rw [free]
      exact found

theorem super?_some {use : Use} {method : Closure} {id : Nat} :
    m.super? use name = some (method, id) ↔ ∃ d c, m.distances[use.id]? = some d ∧
      m.store.getAt m.current d "super" = .ok (.cls c) ∧
      m.store.getAt m.current (d - 1) "this" = .ok (.instance id) ∧
      c.method? name.lexeme = some method := by
  unfold super?
  cases m.distances[use.id]? with
  | none => simp
  | some d =>
    dsimp only
    split
    next c id' super this => simp [super, this, and_comm, and_assoc]
    next other =>
      constructor
      · intro found
        cases found
      · rintro ⟨_, c, same, super, this, -⟩
        cases same
        exact absurd this (other c id super)

end Machine

namespace Moment

/-- The moments that an evaluation turns to itself, one after another. -/
def ofExpr (n : Nat) (m : Machine) : Expr → List Moment
  | .literal _ | .variable _ | .this _ | .lambda _ _ => []
  | .grouping inner => [⟨.evaluate n inner, m⟩]
  | .unary _ operand => [⟨.evaluate n operand, m⟩]
  | .assign _ value => [⟨.evaluate n value, m⟩]
  | .binary left _ right =>
    ⟨.evaluate n left, m⟩ :: whenOk (evaluate n left m) fun _ m => [⟨.evaluate n right, m⟩]
  | .logical left operator right =>
    ⟨.evaluate n left, m⟩ :: whenOk (evaluate n left m) fun value m =>
      if decidedByLeft operator value then [] else [⟨.evaluate n right, m⟩]
  | .super use name =>
    ((m.super? use name).map fun (method, id) => ⟨.bind method id, m⟩).toList
  | .call callee _ arguments =>
    ⟨.evaluate n callee, m⟩ :: whenOk (evaluate n callee m) fun f m =>
      ⟨.evaluateAll n arguments, m⟩ :: whenOk (evaluateAll (evaluate n) arguments m) fun values m =>
        if f.arity? = some values.length then [⟨.invoke n f values, m⟩] else []
  | .get object name =>
    ⟨.evaluate n object, m⟩ :: whenOk (evaluate n object m) fun value m =>
      match value with
      | .instance id => ((m.property? id name).map fun method => ⟨.bind method id, m⟩).toList
      | _ => []
  | .set object _ value =>
    ⟨.evaluate n object, m⟩ :: whenOk (evaluate n object m) fun holder m =>
      match holder with
      | .instance _ => [⟨.evaluate n value, m⟩]
      | _ => []

def ofStmt (n : Nat) (m : Machine) : Stmt → List Moment
  | .expression e => [⟨.evaluate (n + 1) e, m⟩]
  | .print e => [⟨.evaluate (n + 1) e, m⟩]
  | .var _ (some e) => [⟨.evaluate (n + 1) e, m⟩]
  | .var _ none => []
  | .block body => [⟨.executeAll n body, m.enter m.current ∅⟩]
  | .ifElse condition thenBranch elseBranch =>
    ⟨.evaluate (n + 1) condition, m⟩ :: whenOk (evaluate (n + 1) condition m) fun value m =>
      ((chosen value thenBranch elseBranch).map fun s => ⟨.execute n s, m⟩).toList
  | .whileLoop condition body => [⟨.repeatWhile n condition body n, m⟩]
  | .breakLoop _ => []
  | .returnFrom _ (some e) => [⟨.evaluate (n + 1) e, m⟩]
  | .returnFrom _ none => []
  | .function _ => []
  | .classDecl name (some superclass) _ =>
    [⟨.evaluate (n + 1) (.variable superclass), m.announce name⟩]
  | .classDecl _ none _ => []

/-- The moments in the course of a moment with no other between, one after another. -/
def children : Moment → List Moment
  | ⟨.evaluate 0 _, _⟩ | ⟨.execute 0 _, _⟩ => []
  | ⟨.evaluate (n + 1) e, m⟩ => ofExpr n m e
  | ⟨.evaluateAll _ [], _⟩ => []
  | ⟨.evaluateAll n (e :: es), m⟩ =>
    ⟨.evaluate n e, m⟩ :: whenOk (evaluate n e m) fun _ m => [⟨.evaluateAll n es, m⟩]
  | ⟨.execute (n + 1) s, m⟩ => ofStmt n m s
  | ⟨.executeAll _ [], _⟩ => []
  | ⟨.executeAll n (s :: ss), m⟩ =>
    ⟨.execute n s, m⟩ :: whenOk (execute n s m) fun flow m =>
      match flow with
      | .normal => [⟨.executeAll n ss, m⟩]
      | _ => []
  | ⟨.repeatWhile _ _ _ 0, _⟩ => []
  | ⟨.repeatWhile n condition body (rounds + 1), m⟩ =>
    ⟨.evaluate (n + 1) condition, m⟩ :: whenOk (evaluate (n + 1) condition m) fun value m =>
      if value.isTruthy then
        ⟨.execute n body, m⟩ :: whenOk (execute n body m) fun flow m =>
          match flow with
          | .normal => [⟨.repeatWhile n condition body rounds, m⟩]
          | _ => []
      else []
  | ⟨.invoke n (.function _ f) arguments, m⟩ => [⟨.call n f arguments, m⟩]
  | ⟨.invoke n (.cls c) arguments, m⟩ =>
    match c.initializer? with
    | some method =>
      ⟨.bind method m.store.instances.size, m.withInstance c⟩ ::
        whenOk (Run.bind method m.store.instances.size (m.withInstance c)) fun bound m =>
          [⟨.call n bound arguments, m⟩]
    | none => []
  | ⟨.invoke _ _ _, _⟩ => []
  | ⟨.call n f arguments, m⟩ => [⟨.executeAll n f.body, m.enter f.environment (f.frame arguments)⟩]
  | ⟨.bind _ _, _⟩ => []

section

variable {n : Nat} {m : Machine} {b : Moment}

theorem begins_of_mem_ofExpr {e : Expr} (mem : b ∈ ofExpr n m e) :
    Begins ⟨.evaluate (n + 1) e, m⟩ b := by
  cases e with
  | literal | «variable» | this | lambda => cases mem
  | grouping | unary | assign =>
    obtain rfl := List.mem_singleton.mp mem
    exact .part rfl
  | binary left operator right =>
    rcases List.mem_cons.mp mem with rfl | mem
    · exact .part rfl
    obtain ⟨value, m', ran, mem⟩ := mem_whenOk.mp mem
    obtain rfl := List.mem_singleton.mp mem
    exact .right ran
  | logical left operator right =>
    rcases List.mem_cons.mp mem with rfl | mem
    · exact .part rfl
    obtain ⟨value, m', ran, mem⟩ := mem_whenOk.mp mem
    split at mem
    · cases mem
    next undecided =>
      obtain rfl := List.mem_singleton.mp mem
      exact .undecided ran (Bool.eq_false_iff.mpr undecided)
  | super use name =>
    obtain ⟨⟨method, id⟩, found, rfl⟩ := Option.map_eq_some_iff.mp (Option.mem_toList.mp mem)
    obtain ⟨d, c, known, super, this, found⟩ := Machine.super?_some.mp found
    exact .super known super this found
  | call callee paren arguments =>
    rcases List.mem_cons.mp mem with rfl | mem
    · exact .part rfl
    obtain ⟨f, m', ran, mem⟩ := mem_whenOk.mp mem
    rcases List.mem_cons.mp mem with rfl | mem
    · exact .arguments ran
    obtain ⟨values, m'', ran', mem⟩ := mem_whenOk.mp mem
    split at mem
    next arity =>
      obtain rfl := List.mem_singleton.mp mem
      exact .invoke ran ran' arity
    · cases mem
  | get object name =>
    rcases List.mem_cons.mp mem with rfl | mem
    · exact .part rfl
    obtain ⟨value, m', ran, mem⟩ := mem_whenOk.mp mem
    cases value with
    | «instance» id =>
      obtain ⟨method, found, rfl⟩ := Option.map_eq_some_iff.mp (Option.mem_toList.mp mem)
      obtain ⟨i, here, absent, found⟩ := Machine.property?_some.mp found
      exact .property ran here absent found
    | _ => cases mem
  | set object name value =>
    rcases List.mem_cons.mp mem with rfl | mem
    · exact .part rfl
    obtain ⟨holder, m', ran, mem⟩ := mem_whenOk.mp mem
    cases holder with
    | «instance» id =>
      obtain rfl := List.mem_singleton.mp mem
      exact .field ran
    | _ => cases mem

theorem begins_of_mem_ofStmt {s : Stmt} (mem : b ∈ ofStmt n m s) :
    Begins ⟨.execute (n + 1) s, m⟩ b := by
  cases s with
  | expression | print =>
    obtain rfl := List.mem_singleton.mp mem
    exact .expression rfl
  | var _ value | returnFrom _ value =>
    cases value with
    | none => cases mem
    | some e =>
      obtain rfl := List.mem_singleton.mp mem
      exact .expression rfl
  | block body =>
    obtain rfl := List.mem_singleton.mp mem
    exact .block
  | ifElse condition thenBranch elseBranch =>
    rcases List.mem_cons.mp mem with rfl | mem
    · exact .expression rfl
    obtain ⟨value, m', ran, mem⟩ := mem_whenOk.mp mem
    obtain ⟨s, taken, rfl⟩ := Option.map_eq_some_iff.mp (Option.mem_toList.mp mem)
    exact .branch ran taken
  | whileLoop condition body =>
    obtain rfl := List.mem_singleton.mp mem
    exact .loop
  | breakLoop | function => cases mem
  | classDecl name superclass methods =>
    cases superclass with
    | none => cases mem
    | some superclass =>
      obtain rfl := List.mem_singleton.mp mem
      exact .superclass

end

theorem begins_of_mem_children {a b : Moment} (mem : b ∈ a.children) : Begins a b := by
  obtain ⟨task, m⟩ := a
  cases task with
  | evaluate n e =>
    cases n with
    | zero => cases mem
    | succ n => exact begins_of_mem_ofExpr mem
  | evaluateAll n es =>
    cases es with
    | nil => cases mem
    | cons e es =>
      rcases List.mem_cons.mp mem with rfl | mem
      · exact .head
      obtain ⟨value, m', ran, mem⟩ := mem_whenOk.mp mem
      obtain rfl := List.mem_singleton.mp mem
      exact .tail ran
  | execute n s =>
    cases n with
    | zero => cases mem
    | succ n => exact begins_of_mem_ofStmt mem
  | executeAll n ss =>
    cases ss with
    | nil => cases mem
    | cons s ss =>
      rcases List.mem_cons.mp mem with rfl | mem
      · exact .first
      obtain ⟨flow, m', ran, mem⟩ := mem_whenOk.mp mem
      cases flow with
      | normal =>
        obtain rfl := List.mem_singleton.mp mem
        exact .next ran
      | _ => cases mem
  | repeatWhile n condition body rounds =>
    cases rounds with
    | zero => cases mem
    | succ rounds =>
      rcases List.mem_cons.mp mem with rfl | mem
      · exact .condition
      obtain ⟨value, m', tested, mem⟩ := mem_whenOk.mp mem
      split at mem
      next holds =>
        rcases List.mem_cons.mp mem with rfl | mem
        · exact .body tested holds
        obtain ⟨flow, m'', ran, mem⟩ := mem_whenOk.mp mem
        cases flow with
        | normal =>
          obtain rfl := List.mem_singleton.mp mem
          exact .again tested holds ran
        | _ => cases mem
      · cases mem
  | invoke n callee arguments =>
    cases callee with
    | function id f =>
      obtain rfl := List.mem_singleton.mp mem
      exact .function
    | cls c =>
      unfold children at mem
      dsimp only at mem
      split at mem
      next method here =>
        rcases List.mem_cons.mp mem with rfl | mem
        · exact .bindInitializer here
        obtain ⟨bound, m', ran, mem⟩ := mem_whenOk.mp mem
        obtain rfl := List.mem_singleton.mp mem
        exact .callInitializer here ran
      · cases mem
    | _ => cases mem
  | call n f arguments =>
    obtain rfl := List.mem_singleton.mp mem
    exact .called
  | bind method id => cases mem

theorem mem_children_of_begins {a b : Moment} (begins : Begins a b) : b ∈ a.children := by
  cases begins with
  | @part n m e part first => cases e <;> cases first <;> simp [children, ofExpr]
  | right ran => simp [children, ofExpr, ran]
  | undecided ran undecided => simp [children, ofExpr, ran, undecided]
  | field ran => simp [children, ofExpr, ran]
  | arguments ran => simp [children, ofExpr, ran]
  | invoke ran ran' arity => simp [children, ofExpr, ran, ran', arity]
  | property ran here absent found =>
    simp [children, ofExpr, ran, Machine.property?_some.mpr ⟨_, here, absent, found⟩]
  | super known super this found =>
    simp [children, ofExpr, Machine.super?_some.mpr ⟨_, _, known, super, this, found⟩]
  | head | first | condition => exact List.mem_cons_self
  | tail ran => simp [children, ran]
  | @expression n m s e first => cases s <;> cases first <;> simp [children, ofStmt]
  | branch ran taken => simp [children, ofStmt, ran, taken]
  | next ran => simp [children, ran]
  | body tested holds => simp [children, tested, holds]
  | again tested holds ran => simp [children, tested, holds, ran]
  | bindInitializer here => simp [children, here]
  | callInitializer here ran => simp [children, here, ran]
  | _ => exact List.mem_singleton_self _

theorem mem_children {a b : Moment} : b ∈ a.children ↔ Begins a b :=
  ⟨begins_of_mem_children, mem_children_of_begins⟩

end Moment

/-! ### Changes of the frames -/

/-- Which values are written to which names of which frames. -/
abbrev Writing := Nat → String → Value → Prop

def Writing.nothing : Writing := fun _ _ _ => False

/-- From the first machine to the second there are new frames, and nothing but these writes. -/
inductive Machine.Changes (W : Writing) : Machine → Machine → Prop
  | same {m m'} : m'.store.frames = m.store.frames → Changes W m m'
  | push {m m' bindings} : m'.store.frames = m.store.frames.push bindings → Changes W m m'
  | define {m m' frame x v} : W frame x v → m'.store.frames = (m.store.define frame x v).frames →
    Changes W m m'
  | trans {m₁ m₂ m₃} : Changes W m₁ m₂ → Changes W m₂ m₃ → Changes W m₁ m₃

namespace Machine.Changes

variable {W W' : Writing} {m m' : Machine}

theorem refl (m : Machine) : m.Changes W m := .same rfl

theorem mono (h : m.Changes W m') (sub : ∀ frame x v, W frame x v → W' frame x v) :
    m.Changes W' m' := by
  induction h with
  | same frames => exact .same frames
  | push frames => exact .push frames
  | define written frames => exact .define (sub _ _ _ written) frames
  | trans _ _ ih ih' => exact ih.trans ih'

theorem of_nothing (h : m.Changes .nothing m') : m.Changes W m' := h.mono fun _ _ _ => False.elim

theorem size_le (h : m.Changes W m') : m.store.frames.size ≤ m'.store.frames.size := by
  induction h with
  | same frames => exact Nat.le_of_eq (congrArg Array.size frames.symm)
  | push frames =>
    rw [frames, Array.size_push]
    exact Nat.le_succ _
  | define _ frames =>
    exact Nat.le_of_eq ((congrArg Array.size frames).trans (Store.size_frames_define _ _ _ _)).symm
  | trans _ _ ih ih' => exact Nat.le_trans ih ih'

section Binding

variable (h : m.Changes W m') {frame : Nat} {x : String} {v : Value}

include h

/-- In a frame that exists, a name is left alone or has a value that was written to it. -/
theorem getElem?_cases (old : frame < m.store.frames.size) :
    (m'.store.bindings frame)[x]? = (m.store.bindings frame)[x]? ∨
      ∃ v, W frame x v ∧ (m'.store.bindings frame)[x]? = some v := by
  induction h with
  | same frames =>
    unfold Store.bindings
    rw [frames]
    exact .inl rfl
  | push frames =>
    unfold Store.bindings
    rw [frames, Array.getD_eq_getD_getElem?, Array.getElem?_push, if_neg (Nat.ne_of_lt old),
      ← Array.getD_eq_getD_getElem?]
    exact .inl rfl
  | @define m m' frame' x' v' written frames =>
    have same : m'.store.bindings frame = (m.store.define frame' x' v').bindings frame := by
      unfold Store.bindings
      rw [frames]
    rw [same, Store.bindings_define]
    split
    next target =>
      obtain ⟨rfl, -⟩ := target
      rw [Std.TreeMap.getElem?_insert]
      split
      next eq =>
        obtain rfl : x' = x := by simpa using eq
        exact .inr ⟨v', written, rfl⟩
      · exact .inl rfl
    · exact .inl rfl
  | trans first _ ih ih' =>
    rcases ih' (Nat.lt_of_lt_of_le old first.size_le) with same | written
    · rw [same]
      exact ih old
    · exact .inr written

theorem bound (here : (m.store.bindings frame)[x]? = some v) (only : ∀ v', W frame x v' → v' = v) :
    (m'.store.bindings frame)[x]? = some v := by
  have old : frame < m.store.frames.size := by
    refine Nat.lt_of_not_le fun outside => ?_
    rw [Store.bindings_of_size_le outside] at here
    simp at here
  rcases h.getElem?_cases old with same | ⟨v', written, found⟩
  · exact same.trans here
  · exact only v' written ▸ found

theorem origin (old : frame < m.store.frames.size)
    (found : (m'.store.bindings frame)[x]? = some v) :
    (m.store.bindings frame)[x]? = some v ∨ W frame x v := by
  rcases h.getElem?_cases old with same | ⟨v', written, found'⟩
  · exact .inl (same.symm.trans found)
  · obtain rfl := Option.some.inj (found'.symm.trans found)
    exact .inr written

end Binding

variable {α β : Type} {p : Run α} {f : α → Run β}

theorem of_bind (hf : ∀ a mid, p m = .ok a mid → mid.Changes W (stateAfter (f a) mid)) :
    (stateAfter p m).Changes W (stateAfter (p >>= f) m) := by
  unfold stateAfter at hf ⊢
  rw [bind_apply]
  cases ran : p m with
  | ok a mid => exact hf a mid ran
  | error e mid => exact .refl mid

theorem bind (hp : m.Changes W (stateAfter p m))
    (hf : ∀ a mid, p m = .ok a mid → mid.Changes W (stateAfter (f a) mid)) :
    m.Changes W (stateAfter (p >>= f) m) := hp.trans (of_bind hf)

end Machine.Changes

namespace Moment

inductive Writes : Moment → Writing
  | assign {n m target value v m' d frame} : evaluate n value m = .ok v m' →
    m.distances[target.id]? = some d → m.current.frames[d]? = some frame →
    Writes ⟨.evaluate (n + 1) (.assign target value), m⟩ frame target.name.lexeme v
  | assignGlobal {n m target value v m' frame} : evaluate n value m = .ok v m' →
    m.distances[target.id]? = none → m'.store.binder? .global target.name.lexeme = some frame →
    Writes ⟨.evaluate (n + 1) (.assign target value), m⟩ frame target.name.lexeme v
  | var {n m name initializer v m'} : evaluateOption (evaluate (n + 1)) initializer m = .ok v m' →
    Writes ⟨.execute (n + 1) (.var name initializer), m⟩ m.current.frame name.lexeme v
  | function {n m declaration} : Writes ⟨.execute (n + 1) (.function declaration), m⟩
      m.current.frame declaration.name.lexeme
      (.function m.store.nextId (declaration.close m.current false))
  | base {n m name methods} : Writes ⟨.execute (n + 1) (.classDecl name none methods), m⟩
      m.current.frame name.lexeme
      (.cls (.base m.store.nextId name.lexeme (methodTable m.current methods)))
  | derived {n m name superclass methods above m'} :
    evaluateSuperclass superclass (m.announce name) = .ok above m' →
    Writes ⟨.execute (n + 1) (.classDecl name (some superclass) methods), m⟩
      m.current.frame name.lexeme
      (.cls (.derived m.store.nextId name.lexeme (methodTable (m.child m.current) methods) above))

/-- At its beginning the moment writes to a variable, as the declaration of a class does. -/
inductive Announces : Moment → Writing
  | cls {n m name superclass methods} :
    Announces ⟨.execute (n + 1) (.classDecl name superclass methods), m⟩
      m.current.frame name.lexeme .nil

def after : Moment → Machine
  | ⟨.evaluate n e, m⟩ => stateAfter (evaluate n e) m
  | ⟨.evaluateAll n es, m⟩ => stateAfter (evaluateAll (evaluate n) es) m
  | ⟨.execute n s, m⟩ => stateAfter (execute n s) m
  | ⟨.executeAll n ss, m⟩ => stateAfter (executeAll (execute n) ss) m
  | ⟨.repeatWhile n condition body rounds, m⟩ =>
    stateAfter (repeatWhile (evaluate (n + 1) condition) (execute n body) rounds) m
  | ⟨.invoke n callee arguments, m⟩ => stateAfter (callee.invoke (execute n) arguments) m
  | ⟨.call n f arguments, m⟩ => stateAfter (f.call (execute n) arguments) m
  | ⟨.bind method id, m⟩ => stateAfter (Run.bind method id) m

end Moment

/-- A machine leads through moments to another. Before the first of them there are only the writes
`before`, after the last only the writes `after`, and between two of them nothing is written. -/
def Machine.Leads : Writing → Writing → Machine → List Moment → Machine → Prop
  | before, after, m, [], m' => ∃ mid, m.Changes before mid ∧ mid.Changes after m'
  | before, after, m, b :: bs, m' => m.Changes before b.machine ∧ Leads .nothing after b.after bs m'

namespace Machine.Leads

variable {before after : Writing} {m m' : Machine} {b : Moment} {bs : List Moment}

theorem own (h : m.Changes after m') : m.Leads before after [] m' := ⟨m, .refl m, h⟩

theorem same (h : m'.store.frames = m.store.frames) : m.Leads before after [] m' := .own (.same h)

theorem start {mid : Machine} (h : m.Changes before mid) (h' : mid.Leads .nothing after bs m') :
    m.Leads before after bs m' := by
  cases bs with
  | nil =>
    obtain ⟨last, first, rest⟩ := h'
    exact ⟨last, h.trans first.of_nothing, rest⟩
  | cons b bs => exact ⟨h.trans h'.1.of_nothing, h'.2⟩

theorem last (first : m.Changes before b.machine) (rest : b.after.Changes after m') :
    m.Leads before after [b] m' := ⟨first, .own rest⟩

theorem cons {task : Task} (rest : (Moment.after ⟨task, m⟩).Leads .nothing after bs m') :
    m.Leads before after (⟨task, m⟩ :: bs) m' := ⟨.refl m, rest⟩

variable {α β : Type} {p : Run α} {f : α → Run β}

/-- The first moment is the first of two steps. -/
theorem bind {task : Task} {next : α → Machine → List Moment}
    (ended : Moment.after ⟨task, m⟩ = stateAfter p m)
    (rest : ∀ a mid, p m = .ok a mid →
      mid.Leads .nothing after (next a mid) (stateAfter (f a) mid)) :
    m.Leads before after (⟨task, m⟩ :: whenOk (p m) next) (stateAfter (p >>= f) m) := by
  refine .cons ?_
  rw [ended]
  unfold stateAfter
  rw [bind_apply]
  cases first : p m with
  | ok a mid => exact rest a mid first
  | error e mid => exact .same rfl

/-- The only moment is the first of two steps, and the other does nothing to the frames. -/
theorem bind_last {task : Task} (ended : Moment.after ⟨task, m⟩ = stateAfter p m)
    (rest : ∀ a mid, p m = .ok a mid → mid.Changes after (stateAfter (f a) mid)) :
    m.Leads before after [⟨task, m⟩] (stateAfter (p >>= f) m) :=
  .last (.refl m) (ended ▸ .of_bind rest)

end Machine.Leads

/-! ### What the steps do -/

section Steps

variable (m : Machine)

theorem stateAfter_ofExcept {α : Type} (x : Except Crash α) :
    stateAfter (Run.ofExcept x) m = m := by
  cases x <;> rfl

theorem stateAfter_lookup (use : Use) : stateAfter (Run.lookup use) m = m := by
  rcases Run.lookup_cases use m with ⟨_, v, ran, -⟩ | ⟨a, ran⟩
  · exact stateAfter_ok ran
  · exact stateAfter_error ran

theorem stateAfter_applyUnary (operator : Token) (operand : Value) :
    stateAfter (applyUnary operator operand) m = m := by
  unfold applyUnary
  split
  · split <;> rfl
  · rfl
  · rfl

theorem stateAfter_applyBinary (operator : Token) (left right : Value) :
    stateAfter (applyBinary operator left right) m = m := by
  unfold applyBinary
  split
  · unfold add
    split <;> rfl
  · rfl
  · rfl
  · split
    · unfold applyNumeric
      split <;> rfl
    · rfl

theorem stateAfter_bind_pure {α β : Type} (p : Run α) (b : β) :
    stateAfter (p >>= fun _ => pure b) m = stateAfter p m := by
  unfold stateAfter
  rw [bind_apply]
  cases p m <;> rfl

theorem store_within {α : Type} (e : Environment) (p : Run α) :
    (stateAfter (Run.within e p) m).store = (stateAfter p { m with current := e }).store := by
  unfold stateAfter
  rw [Run.within]
  cases p { m with current := e } <;> rfl

theorem changes_assignIn (e : Environment) (name : Token) (value : Value) {W : Writing}
    (writes : ∀ frame, m.store.binder? e name.lexeme = some frame → W frame name.lexeme value) :
    m.Changes W (stateAfter (Run.assignIn e name value) m) := by
  cases found : m.store.binder? e name.lexeme with
  | some frame =>
    have ran : Run.assignIn e name value m = Run.defineIn frame name.lexeme value m := by
      rw [Run.assignIn, get_bind, found]
    rw [stateAfter, ran]
    exact .define (writes frame found) rfl
  | none =>
    have ran : Run.assignIn e name value m =
        Run.fail name (.undefinedVariable name.lexeme) m := by
      rw [Run.assignIn, get_bind, found]
    rw [stateAfter, ran]
    exact .refl m

section Assign

variable {m} {target : Use} (value : Value)

theorem assign_known {d : Nat} (known : m.distances[target.id]? = some d) :
    Run.assign target value m = (do
      let frame ← Run.ofExcept (Store.ancestor m.current d)
      Run.defineIn frame target.name.lexeme value : Run Unit) m := by
  have distance : Run.distance? target m = .ok (some d) m :=
    congrArg (EStateM.Result.ok · m) known
  rw [Run.assign, bind_of_ok distance]
  rfl

theorem assign_local {d frame : Nat} (known : m.distances[target.id]? = some d)
    (here : m.current.frames[d]? = some frame) :
    Run.assign target value m = Run.defineIn frame target.name.lexeme value m := by
  have found : Store.ancestor m.current d = .ok frame := by
    rw [Store.ancestor, Environment.ancestor?, here]
  rw [assign_known value known, found]
  rfl

theorem assign_outside {d : Nat} (known : m.distances[target.id]? = some d)
    (outside : m.current.frames[d]? = none) :
    Run.assign target value m =
      .error (.crash (.chainEnded m.current.enclosing.length d)) m := by
  have found : Store.ancestor m.current d = .error (.chainEnded m.current.enclosing.length d) := by
    rw [Store.ancestor, Environment.ancestor?, outside]
  rw [assign_known value known, found]
  rfl

theorem assign_global (unknown : m.distances[target.id]? = none) :
    Run.assign target value m = Run.assignIn .global target.name value m := by
  have distance : Run.distance? target m = .ok none m :=
    congrArg (EStateM.Result.ok · m) unknown
  rw [Run.assign, bind_of_ok distance]

end Assign

theorem changes_assign (target : Use) (value : Value) {W : Writing}
    (writes : ∀ d frame, m.distances[target.id]? = some d → m.current.frames[d]? = some frame →
      W frame target.name.lexeme value)
    (writesGlobal : ∀ frame, m.distances[target.id]? = none →
      m.store.binder? .global target.name.lexeme = some frame → W frame target.name.lexeme value) :
    m.Changes W (stateAfter (Run.assign target value) m) := by
  unfold stateAfter
  cases known : m.distances[target.id]? with
  | some d =>
    cases here : m.current.frames[d]? with
    | some frame =>
      rw [assign_local value known here]
      exact .define (writes d frame known here) rfl
    | none =>
      rw [assign_outside value known here]
      exact .refl m
  | none =>
    rw [assign_global value known]
    exact changes_assignIn m _ _ _ fun frame found => writesGlobal frame known found

theorem leads_bindMethod (c : Class) (name : Token) (id : Nat) {before after : Writing} :
    m.Leads before after ((c.method? name.lexeme).map fun method => ⟨.bind method id, m⟩).toList
      (stateAfter (c.bindMethod name id) m) := by
  unfold Class.bindMethod
  cases c.method? name.lexeme with
  | some method => exact .bind_last rfl fun _ _ _ => .same rfl
  | none => exact .same rfl

theorem leads_getProperty (id : Nat) (name : Token) {before after : Writing} :
    m.Leads before after ((m.property? id name).map fun method => ⟨.bind method id, m⟩).toList
      (stateAfter (getProperty id name) m) := by
  unfold getProperty Machine.property?
  rw [stateAfter, get_bind]
  cases m.store.instances[id]? with
  | none => exact .same rfl
  | some i =>
    dsimp only
    cases i.fields[name.lexeme]? with
    | some value => exact .same rfl
    | none => exact leads_bindMethod m i.cls name id

theorem leads_getSuper (use : Use) (name : Token) {before after : Writing} :
    m.Leads before after ((m.super? use name).map fun (method, id) => ⟨.bind method id, m⟩).toList
      (stateAfter (getSuper use name) m) := by
  unfold getSuper Machine.super?
  rw [stateAfter, get_bind]
  cases m.distances[use.id]? with
  | none => exact .same rfl
  | some d =>
    dsimp only
    cases m.store.getAt m.current d "super" with
    | error c => exact .same rfl
    | ok holder =>
      cases m.store.getAt m.current (d - 1) "this" with
      | error c => cases holder <;> exact .same rfl
      | ok object =>
        cases holder with
        | cls c =>
          cases object with
          | «instance» id =>
            dsimp only
            rw [Option.map_map]
            exact leads_bindMethod m c name id
          | _ => exact .same rfl
        | _ => exact .same rfl

theorem leads_valueCall (n : Nat) (paren : Token) (callee : Value) (arguments : List Value)
    {before after : Writing} :
    m.Leads before after
      (if callee.arity? = some arguments.length then [⟨.invoke n callee arguments, m⟩] else [])
      (stateAfter (callee.call (execute n) paren arguments) m) := by
  unfold Value.call
  cases callee.arity? with
  | none => exact .same rfl
  | some expected =>
    dsimp only
    by_cases same : arguments.length = expected
    · rw [if_pos same, if_pos (congrArg some same.symm)]
      exact .cons (.same rfl)
    · rw [if_neg same, if_neg fun arity => same (Option.some.inj arity).symm]
      exact .same rfl

theorem stateAfter_evaluateSuperclass (use : Use) : stateAfter (evaluateSuperclass use) m = m := by
  rcases Run.lookup_cases use m with ⟨_, v, ran, -⟩ | ⟨a, ran⟩
  · rw [stateAfter, evaluateSuperclass, bind_of_ok ran]
    cases v <;> rfl
  · rw [stateAfter, evaluateSuperclass, bind_of_error ran]

end Steps

section Classes

theorem declareClass_derived (name : Token) (use : Use) (methods : List FunctionDecl)
    (m : Machine) : declareClass name (some use) methods m = (do
      let above ← evaluateSuperclass use
      let frame : Bindings := (∅ : Bindings).insert "super" (.cls above)
      let environment ← Run.update (·.newChild m.current frame)
      let id ← Run.update Store.newId
      let cls := Class.derived id name.lexeme (methodTable environment methods) above
      Run.assignIn m.current name (.cls cls)) (m.announce name) := by
  rw [declareClass_eq]
  change (classWithin m.current name (some use) methods >>= _) (m.announce name) = _
  simp only [classWithin, bind_assoc, pure_bind]

variable {m : Machine} {name : Token} (inside : m.current.frame < m.store.frames.size)

include inside

/-- The class is assigned to its name in the frame in which it was announced. -/
theorem changes_assignClass {mid : Machine} (grown : (m.announce name).Grows mid) (c : Class)
    {W : Writing} (written : W m.current.frame name.lexeme (.cls c)) :
    mid.Changes W (stateAfter (Run.assignIn m.current name (.cls c)) mid) := by
  refine changes_assignIn mid m.current name (.cls c) fun frame found => ?_
  have bound : (mid.store.bindings m.current.frame).contains name.lexeme = true :=
    grown.names _ _ (Store.contains_define_self (s := m.store) name.lexeme .nil inside)
  rw [Store.binder?, Environment.frames, List.find?_cons, bound] at found
  obtain rfl := Option.some.inj found
  exact written

theorem changes_declareBase (methods : List FunctionDecl) {W : Writing}
    (written : W m.current.frame name.lexeme
      (.cls (.base m.store.nextId name.lexeme (methodTable m.current methods)))) :
    (m.announce name).Changes W (stateAfter (declareClass name none methods) m) := by
  have ran : declareClass name none methods m =
      Run.assignIn m.current name
        (.cls (.base m.store.nextId name.lexeme (methodTable m.current methods)))
        { m.announce name with store := (m.announce name).store.newId.2 } := rfl
  rw [stateAfter, ran]
  have numbered : (m.announce name).Changes W
      { m.announce name with store := (m.announce name).store.newId.2 } := .same rfl
  exact numbered.trans (changes_assignClass inside (grows.newId _) _ written)

theorem changes_declareDerived (use : Use) (methods : List FunctionDecl) {W : Writing}
    (written : ∀ above m', evaluateSuperclass use (m.announce name) = .ok above m' →
      W m.current.frame name.lexeme (.cls (.derived m.store.nextId name.lexeme
        (methodTable (m.child m.current) methods) above))) :
    (m.announce name).Changes W (stateAfter (declareClass name (some use) methods) m) := by
  have looked := stateAfter_evaluateSuperclass (m.announce name) use
  rw [stateAfter, declareClass_derived]
  refine .bind (.same (congrArg (·.store.frames) looked)) fun above mid ran => ?_
  rw [stateAfter_ok ran] at looked
  subst looked
  have child : (m.announce name).child m.current = m.child m.current :=
    congrArg (Environment.mk · m.current.frames)
      (m.store.size_frames_define m.current.frame name.lexeme .nil)
  refine .bind (.push rfl) fun environment pushed opened => ?_
  cases opened
  refine .bind (.same rfl) fun id numbered made => ?_
  cases made
  have grown := grows.newChild (m.announce name) m.current
    ((∅ : Bindings).insert "super" (.cls above))
  refine changes_assignClass inside (grows.trans grown (grows.newId _)) _ ?_
  have same := written above _ ran
  rw [← child] at same
  exact same

end Classes

/-! ### What the moments do -/

namespace Moment

variable {n : Nat} {m : Machine}

theorem leads_expr (e : Expr) : m.Leads (Announces ⟨.evaluate (n + 1) e, m⟩)
    (Writes ⟨.evaluate (n + 1) e, m⟩) (ofExpr n m e) (after ⟨.evaluate (n + 1) e, m⟩) := by
  cases e with
  | literal | lambda => exact .same rfl
  | «variable» use | this use =>
    exact .own (.same (congrArg (·.store.frames) (stateAfter_lookup m use)))
  | grouping inner => exact .cons (.same rfl)
  | unary operator operand =>
    exact .bind_last rfl fun value mid _ => .same (by rw [stateAfter_applyUnary])
  | binary left operator right =>
    refine .bind rfl fun leftValue mid _ => ?_
    exact .bind_last rfl fun rightValue mid' _ => .same (by rw [stateAfter_applyBinary])
  | logical left operator right =>
    refine .bind rfl fun leftValue mid _ => ?_
    split
    · exact .same rfl
    · exact .cons (.same rfl)
  | assign target value =>
    refine .bind_last rfl fun v mid ran => ?_
    have distances : mid.distances = m.distances :=
      ((grows.respects_evaluate n value).of_ok ran).distances
    have current : mid.current = m.current := (keepsCurrent.respects_evaluate n value).of_ok ran
    refine .bind (changes_assign mid target v ?_ ?_) fun _ mid' _ => .refl mid'
    · rw [distances, current]
      exact fun d frame => .assign ran
    · rw [distances]
      exact fun frame => .assignGlobal ran
  | super use name => exact leads_getSuper m use name
  | call callee paren arguments =>
    refine .bind rfl fun f mid _ => ?_
    exact .bind rfl fun values mid' _ => leads_valueCall mid' n paren f values
  | get object name =>
    refine .bind rfl fun value mid _ => ?_
    cases value with
    | «instance» id => exact leads_getProperty mid id name
    | _ => exact .same rfl
  | set object name value =>
    refine .bind rfl fun holder mid _ => ?_
    cases holder with
    | «instance» id => exact .bind_last rfl fun value mid' _ => .same rfl
    | _ => exact .same rfl

theorem leads_stmt (s : Stmt) (inside : m.current.frame < m.store.frames.size) :
    m.Leads (Announces ⟨.execute (n + 1) s, m⟩) (Writes ⟨.execute (n + 1) s, m⟩) (ofStmt n m s)
      (after ⟨.execute (n + 1) s, m⟩) := by
  cases s with
  | expression e => exact .bind_last rfl fun _ mid _ => .refl mid
  | print e => exact .bind_last rfl fun _ mid _ => .same rfl
  | var name initializer =>
    cases initializer with
    | none =>
      have ran : evaluateOption (evaluate (n + 1)) none m = .ok .nil m := rfl
      exact .own (.define (.var ran) rfl)
    | some e =>
      refine .bind_last rfl fun v mid ran => .define (.var ran) ?_
      rw [← (keepsCurrent.respects_evaluate (n + 1) e).of_ok ran]
      rfl
  | block body =>
    refine .last (.push rfl) (.same ?_)
    exact congrArg Store.frames (store_within (m.push m.current ∅) _ _)
  | ifElse condition thenBranch elseBranch =>
    refine .bind rfl fun value mid _ => ?_
    unfold chosen
    split
    · exact .cons (.same rfl)
    · cases elseBranch with
      | none => exact .same rfl
      | some s => exact .cons (.same rfl)
  | whileLoop condition body => exact .cons (.same rfl)
  | breakLoop keyword => exact .same rfl
  | returnFrom keyword value =>
    cases value with
    | none => exact .same rfl
    | some e => exact .bind_last rfl fun _ mid _ => .refl mid
  | function declaration => exact .own (.define .function rfl)
  | classDecl name superclass methods =>
    cases superclass with
    | none =>
      refine ⟨m.announce name, .define .cls rfl, ?_⟩
      change Machine.Changes _ _
        (stateAfter (declareClass name none methods >>= fun _ => pure Flow.normal) m)
      rw [stateAfter_bind_pure]
      exact changes_declareBase inside methods .base
    | some use =>
      refine .last (.define .cls rfl) ?_
      change (stateAfter (Run.lookup use) (m.announce name)).Changes _
        (stateAfter (declareClass name (some use) methods >>= fun _ => pure Flow.normal) m)
      rw [stateAfter_lookup, stateAfter_bind_pure]
      exact changes_declareDerived inside use methods fun _ _ ran => .derived ran

theorem leads_executeAll (ss : List Stmt) {before after : Writing} :
    m.Leads before after (children ⟨.executeAll n ss, m⟩) (Moment.after ⟨.executeAll n ss, m⟩) := by
  cases ss with
  | nil => exact .same rfl
  | cons s ss =>
    refine .bind rfl fun flow mid _ => ?_
    cases flow with
    | normal => exact .cons (.same rfl)
    | _ => exact .same rfl

theorem leads_repeatWhile (condition : Expr) (body : Stmt) (rounds : Nat) {before after : Writing} :
    m.Leads before after (children ⟨.repeatWhile n condition body rounds, m⟩)
      (Moment.after ⟨.repeatWhile n condition body rounds, m⟩) := by
  cases rounds with
  | zero => exact .same rfl
  | succ rounds =>
    refine .bind rfl fun value mid _ => ?_
    split
    · refine .bind rfl fun flow mid' _ => ?_
      cases flow with
      | normal => exact .cons (.same rfl)
      | _ => exact .same rfl
    · exact .same rfl

theorem leads_invoke (callee : Value) (arguments : List Value) {before after : Writing} :
    m.Leads before after (children ⟨.invoke n callee arguments, m⟩)
      (Moment.after ⟨.invoke n callee arguments, m⟩) := by
  cases callee with
  | function id f => exact .cons (.same rfl)
  | cls c =>
    have made : m.Changes before (m.withInstance c) := .same rfl
    change m.Leads before after _ (stateAfter (c.construct (execute n) arguments) m)
    cases here : c.initializer? with
    | none =>
      have ran : stateAfter (c.construct (execute n) arguments) m = m.withInstance c := by
        rw [stateAfter, Class.construct, here]
        rfl
      rw [ran, children, here]
      exact .same rfl
    | some method =>
      have ran : stateAfter (c.construct (execute n) arguments) m = stateAfter (do
          let bound ← Run.bind method m.store.instances.size
          let _ ← bound.call (execute n) arguments
          pure (Value.instance m.store.instances.size)) (m.withInstance c) := by
        rw [stateAfter, Class.construct, here]
        rfl
      rw [ran, children, here]
      refine .start made (.bind rfl fun bound mid _ => ?_)
      exact .bind_last rfl fun _ mid' _ => .refl mid'
  | _ => exact .same rfl

theorem leads_call (f : Closure) (arguments : List Value) {before after : Writing} :
    m.Leads before after (children ⟨.call n f arguments, m⟩)
      (Moment.after ⟨.call n f arguments, m⟩) := by
  refine .last (.push rfl) ?_
  have inner := store_within (m.push f.environment (f.frame arguments)) (m.child f.environment)
    (executeAll (execute n) f.body)
  refine .trans (.same (congrArg Store.frames inner)) (.of_bind fun flow mid _ => ?_)
  split
  · exact .bind (.refl mid) fun _ _ ran => by cases ran; exact .same (by rw [stateAfter_ofExcept])
  · split <;> exact .refl mid

/-- What a moment does by itself: it leads through its children, one after another, and writes to a
variable at its end at most, unless it declares a class. -/
theorem leads (a : Moment) (inside : ∀ n s, a.task = .execute n s →
    a.machine.current.frame < a.machine.store.frames.size) :
    a.machine.Leads a.Announces a.Writes a.children a.after := by
  obtain ⟨task, m⟩ := a
  cases task with
  | evaluate n e =>
    cases n with
    | zero => exact .same rfl
    | succ n => exact leads_expr e
  | evaluateAll n es =>
    cases es with
    | nil => exact .same rfl
    | cons e es =>
      refine .bind rfl fun value mid _ => ?_
      exact .bind_last rfl fun values mid' _ => .same rfl
  | execute n s =>
    cases n with
    | zero => exact .same rfl
    | succ n => exact leads_stmt s (inside _ _ rfl)
  | executeAll n ss => exact leads_executeAll ss
  | repeatWhile n condition body rounds => exact leads_repeatWhile condition body rounds
  | invoke n callee arguments => exact leads_invoke callee arguments
  | call n f arguments => exact leads_call f arguments
  | bind method id => exact .own (.push rfl)

end Moment

/-! ### Courses end -/

/-- What gets less from a task to those in its course: the levels that are left, then a number for
each kind of task, then what is left to do. -/
def Task.rank : Task → Nat × Nat × Nat
  | .evaluate n _ => (n, 0, 0)
  | .repeatWhile n _ _ rounds => (n + 1, 1, rounds)
  | .execute n _ => (n, 2, 0)
  | .evaluateAll n es => (n, 3, es.length)
  | .executeAll n ss => (n, 3, ss.length)
  | .call n _ _ => (n, 4, 0)
  | .invoke n _ _ => (n, 5, 0)
  | .bind _ _ => (0, 0, 0)

theorem Begins.rank_lt {a b : Moment} (begins : Begins a b) :
    Prod.Lex (· < ·) (Prod.Lex (· < ·) (· < ·)) b.task.rank a.task.rank := by
  cases begins
  all_goals simp [Task.rank, Prod.lex_def]
  all_goals omega

theorem Begins.wellFounded : WellFounded fun b a => Begins a b := by
  have order : WellFounded
      (Prod.Lex (· < ·) (Prod.Lex (· < ·) (· < ·)) : Nat × Nat × Nat → _ → Prop) :=
    (Prod.lex Nat.lt_wfRel (Prod.lex Nat.lt_wfRel Nat.lt_wfRel)).wf
  exact Subrelation.wf Begins.rank_lt (InvImage.wf (fun a : Moment => a.task.rank) order)

end Lox
