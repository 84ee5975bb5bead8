import Lox.Proofs.Moments

/-!
# Classes and bound methods

A class with the classes above it, and what makes a frame the one in which a method of a class is
bound to an instance.
-/

namespace Lox

namespace Class

def own : Class → MethodTable
  | .base _ _ methods => methods
  | .derived _ _ methods _ => methods

def superclass? : Class → Option Class
  | .base _ _ _ => none
  | .derived _ _ _ superclass => some superclass

/-- A class and the classes above it, the nearest first. -/
def lineage : Class → List Class
  | .base id name methods => [.base id name methods]
  | .derived id name methods superclass => .derived id name methods superclass :: superclass.lineage

theorem mem_lineage_self (c : Class) : c ∈ c.lineage := by
  cases c <;> exact List.mem_cons_self

theorem lineage_subset {c d : Class} (h : c ∈ d.lineage) : c.lineage ⊆ d.lineage := by
  induction d with
  | base id name methods =>
    obtain rfl := List.mem_singleton.mp h
    exact List.Subset.refl _
  | derived id name methods superclass ih =>
    obtain rfl | h := List.mem_cons.mp h
    · exact List.Subset.refl _
    · exact List.Subset.trans (ih h) (List.subset_cons_self _ _)

theorem mem_lineage_superclass {c above : Class} (h : c.superclass? = some above) :
    above ∈ c.lineage := by
  cases c with
  | base => cases h
  | derived id name methods superclass =>
    obtain rfl := Option.some.inj h
    exact List.mem_cons_of_mem _ (mem_lineage_self _)

theorem method?_some {name : String} {c : Class} {f : Closure} (h : c.method? name = some f) :
    ∃ d ∈ c.lineage, d.own[name]? = some f := by
  induction c with
  | base id _ methods => exact ⟨_, List.mem_cons_self, h⟩
  | derived id _ methods superclass ih =>
    rw [method?] at h
    cases here : methods[name]? with
    | none =>
      rw [here] at h
      obtain ⟨d, mem, found⟩ := ih h
      exact ⟨d, List.mem_cons_of_mem _ mem, found⟩
    | some g =>
      rw [here] at h
      exact ⟨_, List.mem_cons_self, here.trans h⟩

def bindMethod (c : Class) (name : Token) (id : Nat) : Run Value :=
  match c.method? name.lexeme with
  | some method => do Run.newFunction (← Run.bind method id)
  | none => Run.fail name (.undefinedProperty name.lexeme)

end Class

/-- A method of a class that is being made comes from one of its declarations. -/
theorem mem_methodTable {e : Environment} {methods : List FunctionDecl} {x : String} {f : Closure}
    (h : (methodTable e methods)[x]? = some f) :
    ∃ decl ∈ methods, f = decl.close e decl.isInitializer := by
  have fold (ds : List FunctionDecl) (table : MethodTable) (h : (ds.foldl
      (fun table f => table.insert f.name.lexeme (f.close e f.isInitializer)) table)[x]? = some f) :
      (∃ decl ∈ ds, f = decl.close e decl.isInitializer) ∨ table[x]? = some f := by
    induction ds generalizing table with
    | nil => exact .inr h
    | cons d ds ih =>
      obtain ⟨decl, mem, same⟩ | found := ih _ h
      · exact .inl ⟨decl, List.mem_cons_of_mem d mem, same⟩
      · rw [Std.TreeMap.getElem?_insert] at found
        split at found
        · exact .inl ⟨d, List.mem_cons_self, (Option.some.inj found).symm⟩
        · exact .inr found
  obtain found | found := fold _ _ h
  · exact found
  · simp at found

/-! ### Bound methods -/

theorem Store.getAt_eq {s : Store} {e : Environment} {d frame : Nat} (name : String)
    (here : e.frames[d]? = some frame) :
    s.getAt e d name = match (s.bindings frame)[name]? with
      | some v => .ok v
      | none => .error (.unbound name d) := by
  have found : e.ancestor? d = some frame := here
  unfold getAt ancestor
  rw [found]
  rfl

theorem Store.getAt_outside {s : Store} {e : Environment} {d : Nat} (name : String)
    (outside : e.frames[d]? = none) :
    s.getAt e d name = .error (.chainEnded e.enclosing.length d) := by
  have nowhere : e.ancestor? d = none := outside
  unfold getAt ancestor
  rw [nowhere]
  rfl

/-- The environment is that of the method with a frame in front that binds `this` to the instance.
The method is declared in the class, from which the class of the instance descends, and its
environment begins with the frame of `super` if the class has a superclass. -/
structure Binding (s : Store) (e : Environment) (method : Closure) (c : Class) (id : Nat) : Prop where
  enclosing : e.enclosing = method.environment.frames
  this : (s.bindings e.frame)["this"]? = some (.instance id)
  descends : ∃ i, s.instances[id]? = some i ∧ c ∈ i.cls.lineage
  declared : ∃ name : String, c.own[name]? = some method
  super : ∀ above, c.superclass? = some above →
    (s.bindings method.environment.frame)["super"]? = some (.cls above)

/-- The machine is in the body of a bound method: the frame at the distance was made for a call of
`f`, which is the method of the class bound to the instance. -/
structure InMethod (happened : Moment → Prop) (m : Machine) (distance : Nat) (f method : Closure)
    (c : Class) (id : Nat) : Prop where
  called : ∃ n arguments before frame, happened ⟨.call n f arguments, before⟩ ∧
    m.current.frames[distance]? = some frame ∧
    Opens ⟨.call n f arguments, before⟩ (.function f.params f.body)
      ⟨frame, m.current.frames.drop (distance + 1)⟩
  bound : ∃ before, happened ⟨.bind method id, before⟩ ∧
    f = { method with environment := before.child method.environment }
  declared : ∃ a, happened a ∧ DeclaresClass a c
  frames : m.current.frames.drop (distance + 1) = f.environment.frames
  binding : Binding m.store f.environment method c id

/-- The place is in the body of the method: this many scopes lie between it and the scope of the
method, which stands directly among the methods of its class. -/
structure Levels.InBody (ls : Levels) (distance : Nat) (f method : Closure) : Prop where
  body : ∃ l, ls[distance]? = some l ∧ l.site = .function f.params f.body
  methods : ∃ l methods, ls[distance + 1]? = some l ∧ l.site = .methods methods ∧
    ∃ decl ∈ methods, method = decl.close method.environment decl.isInitializer

namespace InMethod

variable {happened : Moment → Prop} {m : Machine} {d : Nat} {f method : Closure} {c : Class}
  {id : Nat} (h : InMethod happened m d f method c id)

include h

theorem frame_this : m.current.frames[d + 1]? = some f.environment.frame := by
  have first : (m.current.frames.drop (d + 1))[0]? = some f.environment.frame := by
    rw [h.frames]
    rfl
  rwa [List.getElem?_drop] at first

theorem frame_super : m.current.frames[d + 2]? = some method.environment.frame := by
  have second : (m.current.frames.drop (d + 1))[1]? = some method.environment.frame := by
    rw [h.frames, Environment.frames, h.binding.enclosing]
    rfl
  rwa [List.getElem?_drop] at second

theorem getAt_this : m.store.getAt m.current (d + 1) "this" = .ok (.instance id) := by
  rw [Store.getAt_eq "this" h.frame_this, h.binding.this]

theorem getAt_super {above : Class} (declared : c.superclass? = some above) :
    m.store.getAt m.current (d + 2) "super" = .ok (.cls above) := by
  rw [Store.getAt_eq "super" h.frame_super, h.binding.super above declared]

end InMethod

end Lox
