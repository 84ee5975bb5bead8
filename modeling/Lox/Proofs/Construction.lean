import Lox.Proofs.Activations.Belonging
import Lox.Proofs.Calls.Frame
import Lox.Proofs.Points.Standing
import Lox.Proofs.Transfer

/-!
# Construction of instances

A call of a class yields a new instance, and a call of a method `init` yields the instance to which
it is bound, whatever its body does; what the resolver takes for an initializer is one when it is
called: `initializers_yield`.
-/

namespace Lox

/-! ### Calls of classes -/

namespace Class

variable {c : Class} {arguments : List Value} {m after : Machine}

/-- A call of a class without an initializer only makes the instance. -/
theorem construct_plain (none : c.initializer? = none) (exec : Stmt → Run Flow) :
    c.construct exec arguments m = .ok (.instance m.store.instances.size) (m.withInstance c) := by
  unfold construct
  rw [none]
  rfl

/-- A call of a class with an initializer calls it, bound to the instance, with the same arguments. -/
theorem construct_initialized {method : Closure} (found : c.initializer? = some method)
    (exec : Stmt → Run Flow) :
    c.construct exec arguments m =
      (Closure.call exec { method with environment := (m.withInstance c).child method.environment }
        arguments >>= fun _ => pure (.instance m.store.instances.size))
      ((m.withInstance c).push method.environment
        ((∅ : Bindings).insert "this" (.instance m.store.instances.size))) := by
  unfold construct
  rw [found]
  rfl

/-- An instance that is made is there when its initializer has been called. -/
theorem construct_ok {n : Nat} {v : Value}
    (ran : c.construct (execute n) arguments m = .ok v after) :
    v = .instance m.store.instances.size ∧ (m.withInstance c).Grows after := by
  cases initializer : c.initializer? with
  | none =>
    rw [construct_plain initializer] at ran
    cases ran
    exact ⟨rfl, grows.refl _⟩
  | some method =>
    rw [construct_initialized initializer] at ran
    obtain ⟨result, m', called, ran⟩ := bind_ok ran
    cases ran
    have binding := grows.newChild (m.withInstance c) method.environment
      ((∅ : Bindings).insert "this" (.instance m.store.instances.size))
    have calling := (grows.respects_closureCall (grows.respects_execute n) _ _).of_ok called
    exact ⟨rfl, grows.trans binding calling⟩

end Class

theorem Value.call_cls_ok {n : Nat} {paren : Token} {c : Class} {arguments : List Value}
    {m after : Machine} {v : Value}
    (ran : (Value.cls c).call (execute n) paren arguments m = .ok v after) :
    ∃ id, v = .instance id ∧ m.store.instances[id]? = none ∧
      ∃ i, after.store.instances[id]? = some i ∧ i.cls = c := by
  have constructed : c.construct (execute n) arguments m = .ok v after := by
    change (if arguments.length = c.arity then _ else _ : Run Value) m = _ at ran
    split at ran
    · exact ran
    · cases ran
  obtain ⟨rfl, grown⟩ := Class.construct_ok constructed
  have new : (m.withInstance c).store.instances[m.store.instances.size]? = some { cls := c } :=
    Array.getElem?_push_size
  exact ⟨_, rfl, Array.getElem?_eq_none (Nat.le_refl _), grown.instances _ _ new⟩

/-! ### Names of methods -/

theorem name_of_methodTable {e : Environment} {ds : List FunctionDecl} {x : String} {f : Closure}
    (found : (methodTable e ds)[x]? = some f) : f.name = some x := by
  -- What was in the table before is named as well; a later declaration of a name takes its place.
  have fold (ds : List FunctionDecl) (table : MethodTable)
      (named : ∀ (x : String) f, table[x]? = some f → f.name = some x) (x : String) (f : Closure)
      (found : (ds.foldl (fun table f => table.insert f.name.lexeme
        (f.close e f.isInitializer)) table)[x]? = some f) : f.name = some x := by
    induction ds generalizing table with
    | nil => exact named x f found
    | cons d ds ih =>
      refine ih _ (fun y g there => ?_) found
      rw [Std.TreeMap.getElem?_insert] at there
      split at there
      next same =>
        obtain rfl := Option.some.inj there
        exact congrArg some (by simpa using same)
      · exact named y g there
  exact fold ds ∅ (fun y g there => by simp at there) x f found

theorem DeclaresClass.name_of_own {a : Moment} {c : Class} (h : DeclaresClass a c) {x : String}
    {f : Closure} (found : c.own[x]? = some f) : f.name = some x := by
  cases h with
  | base => exact name_of_methodTable found
  | derived => exact name_of_methodTable found

theorem World.ClassFits.name {w : World} {s : Store} {c : Class} (fits : w.ClassFits s c)
    {x : String} {f : Closure} (found : c.method? x = some f) : f.name = some x := by
  obtain ⟨d, mem, own⟩ := Class.method?_some found
  obtain ⟨a, -, declares⟩ := (fits d mem x f own).declared
  exact declares.name_of_own own

/-! ### Calls of initializers -/

/-- An initializer yields what `this` is when its body has ended, however it has ended. -/
theorem Closure.call_initializer {exec : Stmt → Run Flow} {f : Closure}
    (initializer : f.isInitializer = true) {arguments : List Value} {m after : Machine}
    {v : Value} :
    f.call exec arguments m = .ok v after ↔
      ∃ flow inner, executeAll exec f.body (m.enter f.environment (f.frame arguments)) =
          .ok flow inner ∧
        inner.store.getAt f.environment 0 "this" = .ok v ∧
        after = { inner with current := m.current } := by
  rw [f.call_eq]
  cases executeAll exec f.body (m.enter f.environment (f.frame arguments)) with
  | error a inner =>
    constructor
    · nofun
    · rintro ⟨_, _, same, -⟩
      cases same
  | ok flow inner =>
    simp only [Ending.back, result, initializer, if_true]
    constructor
    · intro read
      cases found : inner.store.getAt f.environment 0 "this" with
      | ok this =>
        rw [found] at read
        cases read
        exact ⟨flow, inner, rfl, found, rfl⟩
      | error crash =>
        rw [found] at read
        cases read
    · rintro ⟨_, _, same, found, rfl⟩
      cases same
      rw [found]
      rfl

namespace Session

/-- The function value is a method called `init` that is bound to the instance. -/
structure BoundInit (s : Session) (history : List Entry) (f : Closure) (id : Nat) : Prop where
  bound : ∃ method before, s.Happens history ⟨.bind method id, before⟩ ∧
    f = { method with environment := before.child method.environment }
  name : f.name = some "init"

variable {clock : Clock} {history : List Entry} {n id : Nat} {f : Closure} {arguments : List Value}
  {m : Machine}

theorem closed_of_bind {method : Closure}
    (h : (initial clock).Happens history ⟨.bind method id, m⟩) :
    ∃ decl : FunctionDecl, method = decl.close method.environment decl.isInitializer := by
  obtain ⟨_, _, _, -, -, -, -, bindable⟩ := ready clock h
  obtain ⟨c, i, name, -, -, -, fits⟩ := bindable
  obtain ⟨ls, methods, decl, -, closed, -⟩ := fits.place
  exact ⟨decl, closed⟩

theorem isInitializer_iff {method : Closure} {decl : FunctionDecl}
    (closed : method = decl.close method.environment decl.isInitializer) :
    method.isInitializer = true ↔ method.name = some "init" := by
  rw [closed]
  simp [FunctionDecl.close, FunctionDecl.isInitializer]

/-- In a frame that is made for binding a method, the method is bound to one instance. -/
theorem bound_unique {method method' : Closure} {id' : Nat} {before before' : Machine}
    (h : (initial clock).Happens history ⟨.bind method id, before⟩)
    (h' : (initial clock).Happens history ⟨.bind method' id', before'⟩)
    (same : before.child method.environment = before'.child method'.environment) : id = id' := by
  obtain ⟨_, opens⟩ := h.opens_bind
  obtain ⟨_, opens'⟩ := h'.opens_bind
  have moments := opens_unique h h' opens opens' (congrArg Environment.frame same)
  injection moments with task
  injection task

theorem BoundInit.isInitializer (h : (initial clock).BoundInit history f id) :
    f.isInitializer = true := by
  obtain ⟨⟨method, before, bind, rfl⟩, name⟩ := h
  obtain ⟨decl, closed⟩ := closed_of_bind bind
  exact (isInitializer_iff closed).mpr name

/-! ### How an initializer is bound -/

theorem BoundInit.of_bind {method : Closure}
    (h : (initial clock).Happens history ⟨.bind method id, m⟩) (name : method.name = some "init") :
    (initial clock).BoundInit history { method with environment := m.child method.environment } id :=
  ⟨⟨method, m, h, rfl⟩, name⟩

theorem bindMethod_found {c : Class} {name : Token} {method : Closure}
    (found : c.method? name.lexeme = some method) (id : Nat) (m : Machine) :
    ∃ k after, c.bindMethod name id m =
      .ok (.function k { method with environment := m.child method.environment }) after := by
  unfold Class.bindMethod
  rw [found]
  exact ⟨_, _, rfl⟩

/-- The property `init` of an instance is the method bound to it, unless it is a field. -/
theorem boundInit_of_get {object : Expr} {name : Token} {mid : Machine} {method : Closure}
    (happens : (initial clock).Happens history ⟨.evaluate (n + 1) (.get object name), m⟩)
    (ran : Lox.evaluate n object m = .ok (.instance id) mid)
    (found : mid.property? id name = some method) (init : name.lexeme = "init") :
    ∃ k f after, Lox.evaluate (n + 1) (.get object name) m = .ok (.function k f) after ∧
      (initial clock).BoundInit history f id := by
  obtain ⟨i, here, free, found⟩ := Machine.property?_some.mp found
  have binds := Happens.step happens (.property ran here free found)
  obtain ⟨_, _, _, -, -, heap, -⟩ := ready clock binds
  obtain ⟨k, after, made⟩ := bindMethod_found found id mid
  refine ⟨k, _, after, ?_, .of_bind binds ((heap.classes id i here).name (init ▸ found))⟩
  refine (bind_of_ok ran).trans ?_
  change getProperty id name mid = _
  unfold getProperty
  rw [get_bind, here]
  dsimp only
  rw [free]
  exact made

/-- The method `init` of the superclass is bound to what `this` is. -/
theorem boundInit_of_super {use : Use} {name : Token} {method : Closure}
    (happens : (initial clock).Happens history ⟨.evaluate (n + 1) (.super use name), m⟩)
    (found : m.super? use name = some (method, id)) (init : name.lexeme = "init") :
    ∃ k f after, Lox.evaluate (n + 1) (.super use name) m = .ok (.function k f) after ∧
      (initial clock).BoundInit history f id := by
  obtain ⟨d, c, known, super, this, found⟩ := Machine.super?_some.mp found
  have binds := Happens.step happens (.super known super this found)
  obtain ⟨_, _, _, -, -, heap, -⟩ := ready clock binds
  obtain ⟨k, after, made⟩ := bindMethod_found found id m
  obtain ⟨frame, v, got, bound⟩ | ⟨crash, failed⟩ := m.store.getAt_cases m.current d "super"
  · obtain rfl := Except.ok.inj (super.symm.trans got)
    have fits : World.ClassFits _ m.store c := heap.values _ _ _ bound
    refine ⟨k, _, after, ?_, .of_bind binds (fits.name (init ▸ found))⟩
    change getSuper use name m = _
    unfold getSuper
    rw [get_bind, known]
    dsimp only
    rw [super, this]
    exact made
  · rw [super] at failed
    cases failed

/-- A call of a class with an initializer is a call of the initializer on the new instance. -/
theorem boundInit_of_construct {c : Class} {method : Closure}
    (happens : (initial clock).Happens history ⟨.invoke n (.cls c) arguments, m⟩)
    (found : c.initializer? = some method) :
    ∃ f mid, (initial clock).BoundInit history f m.store.instances.size ∧
      (initial clock).Happens history ⟨.call n f arguments, mid⟩ ∧
      c.construct (Lox.execute n) arguments m = (f.call (Lox.execute n) arguments >>= fun _ =>
        pure (.instance m.store.instances.size)) mid := by
  have binds := Happens.step happens (.bindInitializer found)
  obtain ⟨_, _, _, -, -, -, -, fits, -⟩ := ready clock happens
  exact ⟨_, _, .of_bind binds (World.ClassFits.name fits found),
    .step happens (.callInitializer found rfl), Class.construct_initialized found _⟩

/-! ### What a bound initializer yields -/

variable (happens : (initial clock).Happens history ⟨.call n f arguments, m⟩)

include happens

/-- An initializer that is called is bound to an instance, which is `this` there. -/
theorem boundInit_of_call (initializer : f.isInitializer = true) :
    ∃ id, (initial clock).BoundInit history f id ∧
      (m.store.bindings f.environment.frame)["this"]? = some (.instance id) := by
  obtain ⟨before, entry, later, rfl, -, ready⟩ := ready clock happens
  obtain ⟨-, ls, -, origin, -⟩ := ready.2.2.1
  -- A declaration or a lambda is no initializer, so the function is a method that was bound.
  obtain ⟨plain, -⟩ | ⟨method, c, id, m₀, bind, same, -, bound⟩ := origin
  · rw [plain] at initializer
    cases initializer
  · have bind : (initial clock).Happens (before ++ [entry] ++ later) ⟨.bind method id, m₀⟩ :=
      Happens.later bind later
    obtain ⟨decl, closed⟩ := closed_of_bind bind
    have name : method.name = some "init" := by
      rw [← isInitializer_iff closed]
      rw [same] at initializer
      exact initializer
    exact ⟨id, ⟨⟨method, m₀, bind, same⟩, by rw [same]; exact name⟩, bound.binding.this⟩

theorem BoundInit.this (bound : (initial clock).BoundInit history f id) :
    (m.store.bindings f.environment.frame)["this"]? = some (.instance id) := by
  obtain ⟨id', bound', this⟩ := boundInit_of_call happens bound.isInitializer
  obtain ⟨⟨method, before, bind, same⟩, -⟩ := bound
  obtain ⟨⟨method', before', bind', same'⟩, -⟩ := bound'
  have frames : before.child method.environment = before'.child method'.environment :=
    (congrArg Closure.environment same).symm.trans (congrArg Closure.environment same')
  -- Both instances are those of the one binding that made the frame.
  rw [bound_unique bind bind' frames]
  exact this

/-- A keyword that is bound when a function is called is bound to the same value when its body has
ended. -/
theorem keyword_of_body {flow : Flow} {inner : Machine}
    (ran : executeAll (Lox.execute n) f.body (m.enter f.environment (f.frame arguments)) =
      .ok flow inner) {frame : Nat} {word : String} {v : Value}
    (keyword : (TokenType.keywords.lookup word).isSome = true)
    (bound : (m.store.bindings frame)[word]? = some v) :
    (inner.store.bindings frame)[word]? = some v := by
  obtain ⟨before, entry, later, rfl, here, ready⟩ := ready clock happens
  have safe := World.safe_executeAll (World.sound_levels n).2 f.body
    (((initial clock).worldOf before entry).step here .called) (ready.body here)
  have entered := (Machine.Extends.push m f.environment (f.frame arguments)).store
  exact (safe.follows_ok ran).grown.store.keywords _ _ _ keyword
    (entered.keywords _ _ _ keyword bound)

/-- A call of a bound `init` ends if and only if its body ends, and yields the instance. -/
theorem BoundInit.call_iff (bound : (initial clock).BoundInit history f id) {v : Value}
    {after : Machine} :
    f.call (Lox.execute n) arguments m = .ok v after ↔ v = .instance id ∧
      ∃ flow inner, executeAll (Lox.execute n) f.body (m.enter f.environment (f.frame arguments)) =
        .ok flow inner ∧ after = { inner with current := m.current } := by
  have yields {flow : Flow} {inner : Machine}
      (ran : executeAll (Lox.execute n) f.body (m.enter f.environment (f.frame arguments)) =
        .ok flow inner) : inner.store.getAt f.environment 0 "this" = .ok (.instance id) := by
    rw [Store.getAt_eq (d := 0) (e := f.environment) "this" rfl,
      keyword_of_body happens ran rfl (bound.this happens)]
  rw [Closure.call_initializer bound.isInitializer]
  constructor
  · rintro ⟨flow, inner, ran, found, rfl⟩
    rw [yields ran] at found
    cases found
    exact ⟨rfl, flow, inner, ran, rfl⟩
  · rintro ⟨rfl, flow, inner, ran, rfl⟩
    exact ⟨flow, inner, ran, yields ran, rfl⟩

end Session

/-! ### Returns of initializers -/

/-- A `return` without a value, which stands in the statements and in no function inside them, has
ended their run on `m`. -/
def ReturnedBare (n : Nat) (ss : List Stmt) (m after : Machine) : Prop :=
  ∃ k keyword last, (∃ s ∈ ss, s.Holds true (.returnFrom keyword none)) ∧
    Inside true ⟨.executeAll n ss, m⟩ ⟨.execute (k + 1) (.returnFrom keyword none), last⟩ ∧
    after = { last with current := after.current }

/-- If no `return` in the statements has a value, a `return` that ends them has none. -/
theorem ReturnedBy.bare {n : Nat} {ss : List Stmt} {m after : Machine} {v : Value}
    (h : ReturnedBy n ss m v after)
    (nothing : ∀ s ∈ ss, ∀ keyword value, s.Holds true (.returnFrom keyword value) → value = none) :
    v = .nil ∧ ReturnedBare n ss m after := by
  obtain ⟨k, keyword, value, last, ended, ⟨s, mem, holds⟩, inside, ran, moved⟩ := h
  obtain rfl := nothing s mem keyword value holds
  cases ran
  exact ⟨rfl, k, keyword, last, ⟨s, mem, holds⟩, inside, moved⟩

/-- A call that yields the instance if its body ends, and that ends in no other way. The body ends
normally or by a `return` without a value. -/
structure Closure.YieldsInstance (f : Closure) (n : Nat) (arguments : List Value) (m : Machine)
    (id : Nat) : Prop where
  call : ∀ v after, f.call (execute n) arguments m = .ok v after ↔ v = .instance id ∧
    ∃ flow inner, executeAll (execute n) f.body (m.enter f.environment (f.frame arguments)) =
      .ok flow inner ∧ after = { inner with current := m.current }
  body : ∀ flow inner,
    executeAll (execute n) f.body (m.enter f.environment (f.frame arguments)) = .ok flow inner →
      flow = .normal ∨ flow = .returning .nil ∧
        ReturnedBare n f.body (m.enter f.environment (f.frame arguments)) inner

namespace Session

variable {clock : Clock} {history : List Entry} {n id : Nat} {f : Closure} {arguments : List Value}
  {m : Machine}

theorem Arises.stands (arises : (initial clock).Arises history f) :
    ∃ start p path, (initial clock).Runs history start p ∧ p.Stands path f.code := by
  obtain ⟨w, store, within, fits⟩ := arises.fits
  have code : w.holds f.code := by
    obtain fits | ⟨c, name, found, fits⟩ := fits
    · exact fits.code
    · exact fits.code
  obtain ⟨start, p, runs, contains⟩ := within.holds _ code
  obtain ⟨path, stands⟩ := contains.stands
  exact ⟨start, p, path, runs, stands⟩

theorem BoundInit.body (happens : (initial clock).Happens history ⟨.call n f arguments, m⟩)
    (bound : (initial clock).BoundInit history f id) {flow : Flow} {inner : Machine}
    (ran : executeAll (Lox.execute n) f.body (m.enter f.environment (f.frame arguments)) =
      .ok flow inner) :
    flow = .normal ∨ flow = .returning .nil ∧
      ReturnedBare n f.body (m.enter f.environment (f.frame arguments)) inner := by
  obtain rfl | ⟨v, rfl, returned⟩ := executeAll_body (breaksInLoops_call happens) ran
  · exact .inl rfl
  · -- A `return` with a value stands in no initializer of a program that was executed.
    obtain ⟨start, p, path, runs, stands⟩ := (Arises.called happens).stands
    obtain ⟨before, entry, later, -, executes, -⟩ := runs
    rw [Closure.code, bound.isInitializer] at stands
    obtain ⟨rfl, bare⟩ := returned.bare fun s mem keyword value holds =>
      stands.returns_nothing executes.resolved mem holds
    exact .inr ⟨rfl, bare⟩

/-- Where a bound `init` is called by an expression, the value of the expression is the instance. -/
theorem BoundInit.evaluate {callee : Expr} {paren : Token} {es : List Expr} {v : Value}
    {after mid : Machine} {k : Nat}
    (happens : (initial clock).Happens history ⟨.evaluate (n + 1) (.call callee paren es), m⟩)
    (bound : (initial clock).BoundInit history f id)
    (found : Lox.evaluate n callee m = .ok (.function k f) mid)
    (ran : Lox.evaluate (n + 1) (.call callee paren es) m = .ok v after) : v = .instance id := by
  rw [evaluate_succ] at ran
  obtain ⟨g, mid', found', ran⟩ := bind_ok ran
  rw [found] at found'
  cases found'
  obtain ⟨values, last, evaluated, ran⟩ := bind_ok ran
  change (if values.length = f.arity then f.call (Lox.execute n) values else _ : Run Value) last = _
    at ran
  split at ran
  next arity =>
    have invoked : (initial clock).Happens history ⟨.invoke n (.function k f) values, last⟩ :=
      .step happens (.invoke found evaluated (congrArg some arity.symm))
    exact ((bound.call_iff (.step invoked .function)).mp ran).1
  · cases ran

end Session

/-- A call of a class that yields a value yields an instance of the class that was not there before.
In any session a call of the method `init` bound to an instance ends if its body ends, normally or
by a `return` without a value, and yields that instance; the call may come from a call of the class,
or the method from a property of the instance, from `super` or from elsewhere. These are all calls
of functions that are marked as initializers. The code of every function value stands in an executed
program, where the resolver takes the function for an initializer if and only if it is marked as
one; and where a program has no static error, no `return` in an initializer has a value. -/
theorem initializers_yield (clock : Clock) (history : List Entry) :
    let s := Session.initial clock
    (∀ n paren (c : Class) arguments m v after,
      (Value.cls c).call (execute n) paren arguments m = .ok v after →
      ∃ id, v = .instance id ∧ m.store.instances[id]? = none ∧
        ∃ i, after.store.instances[id]? = some i ∧ i.cls = c) ∧
    (∀ n f arguments m, s.Happens history ⟨.call n f arguments, m⟩ →
      (f.isInitializer = true ↔ ∃ id, s.BoundInit history f id) ∧
      ∀ id, s.BoundInit history f id → f.YieldsInstance n arguments m id) ∧
    (∀ n c arguments m method, s.Happens history ⟨.invoke n (.cls c) arguments, m⟩ →
      c.initializer? = some method →
      ∃ f mid, s.BoundInit history f m.store.instances.size ∧
        s.Happens history ⟨.call n f arguments, mid⟩ ∧
        (Value.cls c).invoke (execute n) arguments m = (f.call (execute n) arguments >>= fun _ =>
          pure (.instance m.store.instances.size)) mid) ∧
    (∀ n object name m id mid method, s.Happens history ⟨.evaluate (n + 1) (.get object name), m⟩ →
      evaluate n object m = .ok (.instance id) mid → mid.property? id name = some method →
      name.lexeme = "init" →
      ∃ k f after, evaluate (n + 1) (.get object name) m = .ok (.function k f) after ∧
        s.BoundInit history f id) ∧
    (∀ n use name m method id, s.Happens history ⟨.evaluate (n + 1) (.super use name), m⟩ →
      m.super? use name = some (method, id) → name.lexeme = "init" →
      ∃ k f after, evaluate (n + 1) (.super use name) m = .ok (.function k f) after ∧
        s.BoundInit history f id) ∧
    (∀ n callee paren es m v after k f mid id,
      s.Happens history ⟨.evaluate (n + 1) (.call callee paren es), m⟩ →
      evaluate n callee m = .ok (.function k f) mid → s.BoundInit history f id →
      evaluate (n + 1) (.call callee paren es) m = .ok v after → v = .instance id) ∧
    (∀ f, s.Arises history f → ∃ start p path, s.Runs history start p ∧ p.Stands path f.code ∧
      f.code.points path ⊆ p.points ∧
      (path.function = .initializer ↔ f.isInitializer = true)) ∧
    ∀ p : Program, p.resolve.errors = [] → ∀ path params body,
      p.Stands path (.function true params body) → ∀ s ∈ body, ∀ keyword value,
        s.Holds true (.returnFrom keyword value) → value = none := by
  refine ⟨fun _ _ _ _ _ _ _ => Value.call_cls_ok, fun n f arguments m happens => ⟨⟨?_, ?_⟩, ?_⟩,
    fun _ _ _ _ _ => Session.boundInit_of_construct, fun _ _ _ _ _ _ _ => Session.boundInit_of_get,
    fun _ _ _ _ _ _ => Session.boundInit_of_super, ?_, fun f arises => ?_, ?_⟩
  · intro initializer
    obtain ⟨id, bound, -⟩ := Session.boundInit_of_call happens initializer
    exact ⟨id, bound⟩
  · rintro ⟨id, bound⟩
    exact bound.isInitializer
  · intro id bound
    exact ⟨fun v after => bound.call_iff happens, fun flow inner => bound.body happens⟩
  · exact fun _ _ _ _ _ _ _ _ _ _ _ happens found bound => bound.evaluate happens found
  · obtain ⟨start, p, path, runs, stands⟩ := arises.stands
    exact ⟨start, p, path, runs, stands, stands.points, stands.function⟩
  · intro p clean path params body stands s mem keyword value
    exact stands.returns_nothing clean mem

end Lox
