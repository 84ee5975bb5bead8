import Lox.Proofs.Agreement.Session

/-!
# Binding of methods, `this` and `super`

A function value is a plain function or a method bound to an instance of a class below its own, and
in the body of a method `this` and `super` mean that instance and the superclass of the class that
declares the method: `methods_bound`.
-/

namespace Lox

/-- A value that a machine holds, be it as the class of an instance. -/
inductive Machine.Has (m : Machine) : Value → Prop
  | variable {frame v} {x : String} : (m.store.bindings frame)[x]? = some v → Has m v
  | field {i v} {id : Nat} {x : String} : m.store.instances[id]? = some i →
    i.fields[x]? = some v → Has m v
  | cls {i} {id : Nat} : m.store.instances[id]? = some i → Has m (.cls i.cls)

inductive Task.Passes : Task → Value → Prop
  | callee {n v arguments} : Passes (.invoke n v arguments) v
  | argument {n callee arguments v} : v ∈ arguments → Passes (.invoke n callee arguments) v

namespace Session

/-- A function was made where it stands, or it is a method bound to an instance. -/
inductive Made (s : Session) (history : List Entry) (store : Store) (f : Closure) : Prop
  | plain {a} : s.Happens history a → Declares a f → Made s history store f
  | bound {method c id before a} : s.Happens history ⟨.bind method id, before⟩ →
    f = { method with environment := before.child method.environment } →
    s.Happens history a → DeclaresClass a c → Binding store f.environment method c id → Made s history store f

/-- An entry of the method table of a class: the closure of one of its declarations, bound to no
instance, in an environment that begins with the frame of `super` if the class has a superclass. -/
structure Declared (s : Session) (history : List Entry) (store : Store) (c : Class) (f : Closure) :
    Prop where
  declares : ∃ a, s.Happens history a ∧ DeclaresClass a c
  closed : ∃ decl : FunctionDecl, f = decl.close f.environment decl.isInitializer
  super : ∀ above, c.superclass? = some above →
    (store.bindings f.environment.frame)["super"]? = some (.cls above)

def ValueMade (s : Session) (history : List Entry) (store : Store) : Value → Prop
  | .function _ f => s.Made history store f
  | .cls c => ∀ d ∈ c.lineage, ∀ (name : String) f, d.own[name]? = some f →
    s.Declared history store d f
  | _ => True

variable {s : Session} {history : List Entry} {w : World} {store : Store}

section Fits

variable (known : ∀ a, w.happened a → s.Happens history a)

include known

theorem Made.of_fits {f : Closure} (fits : w.ClosureFits store f) : s.Made history store f := by
  obtain ⟨-, ls, -, origin, -⟩ := fits
  obtain ⟨-, -, a, happened, declares⟩ |
    ⟨method, c, id, m, happened, same, ⟨a, declared, declares⟩, bound⟩ := origin
  · exact .plain (known a happened) declares
  · exact .bound (known _ happened) same (known a declared) declares bound.binding

theorem Declared.of_fits {c : Class} {f : Closure} (fits : w.MethodFits store c f) :
    s.Declared history store c f := by
  obtain ⟨-, ⟨a, happened, declares⟩, ls, methods, decl, mem, closed, -, place, -⟩ := fits
  refine ⟨⟨a, known a happened, declares⟩, ⟨decl, closed⟩, fun above declared => ?_⟩
  unfold Class.Place at place
  rw [declared] at place
  exact place.2

theorem ValueMade.of_fits {v : Value} (fits : w.ValueFits store v) :
    s.ValueMade history store v := by
  cases v with
  | function id f => exact Made.of_fits known fits
  | cls c => exact fun d mem name f found => Declared.of_fits known (fits d mem name f found)
  | _ => trivial

end Fits

end Session

namespace World

variable {w : World}

theorem Heap.valueFits {m : Machine} (heap : w.Heap m) {v : Value} (has : m.Has v) :
    w.ValueFits m.store v := by
  cases has with
  | «variable» bound => exact heap.values _ _ v bound
  | field here found => exact heap.fields _ _ here _ v found
  | cls here => exact heap.classes _ _ here

theorem Ready.valueFits {a : Moment} (ready : w.Ready a) {v : Value} (passes : a.task.Passes v) :
    w.ValueFits a.machine.store v := by
  obtain ⟨task, m⟩ := a
  cases passes with
  | callee => exact ready.2.2.1
  | argument mem => exact ready.2.2.2.1 v mem

end World

theorem InMethod.mono {happened happened' : Moment → Prop} {m : Machine} {k : Nat}
    {f method : Closure} {c : Class} {id : Nat} (h : InMethod happened m k f method c id)
    (sub : ∀ a, happened a → happened' a) : InMethod happened' m k f method c id := by
  obtain ⟨⟨n, arguments, before, frame, call, found, opens⟩, ⟨before', bind, same⟩,
    ⟨a, declared, declares⟩, frames, binding⟩ := h
  exact ⟨⟨n, arguments, before, frame, sub _ call, found, opens⟩, ⟨before', sub _ bind, same⟩,
    ⟨a, sub a declared, declares⟩, frames, binding⟩

namespace Session

variable {clock : Clock} {history : List Entry} {n : Nat} {use : Use} {m : Machine}

/-- At a use of `this` a bound method is being called, in whose body the use stands. -/
theorem inMethod_of_this (happens : (initial clock).Happens history ⟨.evaluate (n + 1) (.this use), m⟩) :
    ∃ ls k f method c id, (initial clock).Occurs history ⟨.this, use, ls⟩ ∧
      ls.InBody k f method ∧
      InMethod ((initial clock).Happens history) m k f method c id ∧
      evaluate (n + 1) (.this use) m = .ok (.instance id) m := by
  obtain ⟨before, entry, later, rfl, -, ⟨heap, -, ls, place, occurs⟩⟩ := ready clock happens
  have occurs := occurs _ List.mem_cons_self
  obtain ⟨k, f, method, c, id, known, name, inMethod, inBody⟩ := place.use_this heap occurs
  refine ⟨ls, k, f, method, c, id, Occurs.later occurs later, inBody,
    inMethod.mono fun a happened => Happens.later happened later, ?_⟩
  change Run.lookup use m = _
  rw [Run.lookup_local known, name, inMethod.getAt_this]

/-- At a use of `super` a bound method of a derived class is being called, in whose body the use
stands. -/
theorem inMethod_of_super {name : Token}
    (happens : (initial clock).Happens history ⟨.evaluate (n + 1) (.super use name), m⟩) :
    ∃ ls k f method c id above, (initial clock).Occurs history ⟨.super, use, ls⟩ ∧
      ls.InBody k f method ∧
      InMethod ((initial clock).Happens history) m k f method c id ∧
      c.superclass? = some above ∧
      evaluate (n + 1) (.super use name) m = above.bindMethod name id m := by
  obtain ⟨before, entry, later, rfl, -, ⟨heap, -, ls, place, occurs⟩⟩ := ready clock happens
  have occurs := occurs _ List.mem_cons_self
  obtain ⟨k, f, method, c, id, above, known, inMethod, inBody, declared⟩ :=
    place.use_super heap occurs
  exact ⟨ls, k, f, method, c, id, above, Occurs.later occurs later, inBody,
    inMethod.mono fun a happened => Happens.later happened later, declared,
    World.getSuper_eq inMethod known declared⟩

theorem valueMade {a : Moment} (happens : (initial clock).Happens history a) {v : Value}
    (has : a.machine.Has v ∨ a.task.Passes v) :
    (initial clock).ValueMade history a.machine.store v := by
  obtain ⟨before, entry, later, rfl, -, ready⟩ := ready clock happens
  have known := fun a (happened : ((initial clock).worldOf before entry).happened a) =>
    Happens.later happened later
  obtain holds | passes := has
  · exact ValueMade.of_fits known (ready.1.valueFits holds)
  · exact ValueMade.of_fits known (ready.valueFits passes)

theorem valueMade_afterAll (clock : Clock) (history : List Entry) {v : Value}
    (has : ((initial clock).afterAll history).machine.Has v) :
    (initial clock).ValueMade history ((initial clock).afterAll history).machine.store v :=
  ValueMade.of_fits (fun _ happened => happened) ((kept clock history).heap.valueFits has)

theorem valueMade_of_evaluate {e : Expr} {v : Value} {after : Machine}
    (happens : (initial clock).Happens history ⟨.evaluate n e, m⟩)
    (ran : evaluate n e m = .ok v after) : (initial clock).ValueMade history after.store v := by
  obtain ⟨before, entry, later, rfl, here, ready⟩ := ready clock happens
  exact ValueMade.of_fits (fun a happened => Happens.later happened later)
    (((World.sound_levels n).1 e m here ready).ok ran)

theorem made_of_call {f : Closure} {arguments : List Value}
    (happens : (initial clock).Happens history ⟨.call n f arguments, m⟩) :
    (initial clock).Made history m.store f := by
  obtain ⟨before, entry, later, rfl, -, ready⟩ := ready clock happens
  exact Made.of_fits (fun a happened => Happens.later happened later) ready.2.2.1

end Session

/-- After a session and at every moment of it, each function value that there is, that an expression
yields or that is called was made where it stands, or it is a method, bound in a frame that binds
`this` to an instance whose class is that of the method or one below it, inside the frame that binds
`super` if the class has a superclass. So where `this` is evaluated, in the body of a method that may
be nested in other functions, it is the instance to which the called method is bound; and `super`
looks up the method from the superclass of the class that declares the called method, and binds it to
that instance. -/
theorem methods_bound (clock : Clock) (history : List Entry) :
    let s := Session.initial clock
    (∀ v, (s.afterAll history).machine.Has v →
      s.ValueMade history (s.afterAll history).machine.store v) ∧
    (∀ a v, s.Happens history a → a.machine.Has v ∨ a.task.Passes v →
      s.ValueMade history a.machine.store v) ∧
    (∀ n e m v after, s.Happens history ⟨.evaluate n e, m⟩ → evaluate n e m = .ok v after →
      s.ValueMade history after.store v) ∧
    (∀ n f arguments m, s.Happens history ⟨.call n f arguments, m⟩ → s.Made history m.store f) ∧
    (∀ n use m, s.Happens history ⟨.evaluate (n + 1) (.this use), m⟩ →
      ∃ ls k f method c id, s.Occurs history ⟨.this, use, ls⟩ ∧ ls.InBody k f method ∧
        InMethod (s.Happens history) m k f method c id ∧
        evaluate (n + 1) (.this use) m = .ok (.instance id) m) ∧
    ∀ n use name m, s.Happens history ⟨.evaluate (n + 1) (.super use name), m⟩ →
      ∃ ls k f method c id above, s.Occurs history ⟨.super, use, ls⟩ ∧
        ls.InBody k f method ∧ InMethod (s.Happens history) m k f method c id ∧
        c.superclass? = some above ∧
        evaluate (n + 1) (.super use name) m = above.bindMethod name id m :=
  ⟨fun _ => Session.valueMade_afterAll clock history, fun _ _ happens => Session.valueMade happens,
    fun _ _ _ _ _ => Session.valueMade_of_evaluate,
    fun _ _ _ _ => Session.made_of_call, fun _ _ _ => Session.inMethod_of_this,
    fun _ _ _ _ => Session.inMethod_of_super⟩

end Lox
