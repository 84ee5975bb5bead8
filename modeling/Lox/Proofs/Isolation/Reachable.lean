import Mathlib.Logic.Relation
import Lox.Proofs.Restoration
import Lox.Proofs.Methods

/-!
# Reachable frames and values

What code can get at from the environment in which it runs: `Machine.Reachable`. With what a run
makes itself this is its territory, and `Confined` is the invariant of the run: it changes nothing
outside, and nothing inside refers to the outside.
-/

namespace Lox

inductive Node where
  | frame (f : Nat)
  | value (v : Value)

/-- The first node refers to the second. The environment of a function or method leads to its frame
and to all frames around it. -/
inductive Edge (s : Store) : Node → Node → Prop
  | bound {f v} {x : String} : (s.bindings f)[x]? = some v → Edge s (.frame f) (.value v)
  | environment {id closure f} : f ∈ closure.environment.frames →
    Edge s (.value (.function id closure)) (.frame f)
  | method {c method f} {name : String} : c.own[name]? = some method →
    f ∈ method.environment.frames → Edge s (.value (.cls c)) (.frame f)
  | superclass {c above} : c.superclass? = some above →
    Edge s (.value (.cls c)) (.value (.cls above))
  | cls {id : Nat} {i} : s.instances[id]? = some i →
    Edge s (.value (.instance id)) (.value (.cls i.cls))
  | field {id : Nat} {i v} {x : String} : s.instances[id]? = some i → i.fields[x]? = some v →
    Edge s (.value (.instance id)) (.value v)

def Store.Reachable (s : Store) (root : Node → Prop) (a : Node) : Prop :=
  ∃ r, root r ∧ Relation.ReflTransGen (Edge s) r a

namespace Machine

/-- The frames of the current environment and the global frame. -/
def Root (m : Machine) : Node → Prop
  | .frame f => f ∈ m.current.frames ∨ f = Environment.global.frame
  | .value _ => False

def Reachable (m : Machine) (a : Node) : Prop := m.store.Reachable m.Root a

theorem Reachable.step {m : Machine} {a b : Node} (h : m.Reachable a) (edge : Edge m.store a b) :
    m.Reachable b := by
  obtain ⟨r, root, way⟩ := h
  exact ⟨r, root, way.tail edge⟩

end Machine

namespace Node

/-- Values that refer to nothing and cannot be told apart from their copies. -/
def IsData : Node → Prop
  | .value .nil | .value (.bool _) | .value (.number _) | .value (.string _) => True
  | _ => False

/-- The frame, the instance or the number of the function or class is handed out. -/
def Exists (s : Store) : Node → Prop
  | .frame f => f < s.frames.size
  | .value (.function id _) => id < s.nextId
  | .value (.cls c) => c.id < s.nextId
  | .value (.instance id) => id < s.instances.size
  | .value _ => True

end Node

def Store.Grows (s after : Store) : Prop := ∀ a : Node, a.Exists s → a.Exists after

theorem Store.Grows.of_le {s after : Store} (frames : s.frames.size ≤ after.frames.size)
    (instances : s.instances.size ≤ after.instances.size) (nextId : s.nextId ≤ after.nextId) :
    s.Grows after := by
  intro a old
  cases a with
  | frame f => exact Nat.lt_of_lt_of_le old frames
  | value v =>
    cases v with
    | function id f => exact Nat.lt_of_lt_of_le old nextId
    | cls c => exact Nat.lt_of_lt_of_le old nextId
    | «instance» id => exact Nat.lt_of_lt_of_le old instances
    | _ => trivial

/-- What a run that began on `m` may get at when it has come to `s`. -/
def Machine.Territory (m s : Machine) (a : Node) : Prop :=
  a.IsData ∨ m.Reachable a ∨ (a.Exists s.store ∧ ¬ a.Exists m.store)

section Within

variable (P : Node → Prop)

def Environment.Within (e : Environment) : Prop := ∀ f ∈ e.frames, P (.frame f)

def Class.Within (c : Class) : Prop :=
  ∀ d ∈ c.lineage, P (.value (.cls d)) ∧
    ∀ (name : String) method, d.own[name]? = some method → method.environment.Within P

/-- A value with all that it refers to by itself, but for the fields of an instance. -/
def Value.Within (v : Value) : Prop :=
  P (.value v) ∧
    match v with
    | .function _ f => f.environment.Within P
    | .cls c => c.Within P
    | _ => True

def Bindings.Within (bs : Bindings) : Prop := ∀ (x : String) v, bs[x]? = some v → v.Within P

/-- From `m` to `s` nothing outside has changed, and nothing inside refers to the outside. -/
structure Closed (m s : Machine) : Prop where
  otherFrames : ∀ f, ¬ P (.frame f) → s.store.bindings f = m.store.bindings f
  otherInstances : ∀ id : Nat, ¬ P (.value (.instance id)) →
    s.store.instances[id]? = m.store.instances[id]?
  bindings : ∀ f, P (.frame f) → (s.store.bindings f).Within P
  instances : ∀ (id : Nat) i, P (.value (.instance id)) → s.store.instances[id]? = some i →
    i.cls.Within P ∧ i.fields.Within P
  current : s.current.Within P
  global : P (.frame Environment.global.frame)

end Within

variable {P P' : Node → Prop} {m s after : Machine}

/-! ### Larger territories -/

section Larger

variable (larger : ∀ a, P a → P' a)

include larger

theorem Environment.Within.mono {e : Environment} (h : e.Within P) : e.Within P' :=
  fun f mem => larger _ (h f mem)

theorem Class.Within.mono {c : Class} (h : c.Within P) : c.Within P' := fun d mem =>
  ⟨larger _ (h d mem).1, fun name method own => ((h d mem).2 name method own).mono larger⟩

theorem Value.Within.mono {v : Value} (h : v.Within P) : v.Within P' := by
  refine ⟨larger _ h.1, ?_⟩
  cases v with
  | function id f => exact Environment.Within.mono larger h.2
  | cls c => exact Class.Within.mono larger h.2
  | _ => trivial

theorem Bindings.Within.mono {bs : Bindings} (h : bs.Within P) : bs.Within P' :=
  fun x v bound => (h x v bound).mono larger

theorem Closed.mono (new : ∀ a, P' a → P a ∨ ¬ a.Exists s.store) (h : Closed P m s) :
    Closed P' m s := by
  refine ⟨fun f outside => h.otherFrames f fun inside => outside (larger _ inside),
    fun id outside => h.otherInstances id fun inside => outside (larger _ inside), ?_, ?_,
    h.current.mono larger, larger _ h.global⟩
  · intro f inside
    rcases new _ inside with old | missing
    · exact (h.bindings f old).mono larger
    · rw [Store.bindings_of_size_le (Nat.le_of_not_lt missing)]
      intro x v bound
      simp at bound
  · intro id i inside here
    rcases new _ inside with old | missing
    · obtain ⟨cls, fields⟩ := h.instances id i old here
      exact ⟨cls.mono larger, fields.mono larger⟩
    · rw [Array.getElem?_eq_none (Nat.le_of_not_lt missing)] at here
      cases here

end Larger

theorem Machine.Territory.later (grows : s.store.Grows after.store)
    (a : Node) (h : m.Territory s a) : m.Territory after a := by
  rcases h with data | reachable | ⟨made, new⟩
  · exact .inl data
  · exact .inr (.inl reachable)
  · exact .inr (.inr ⟨grows a made, new⟩)

/-- What a run has not made yet may count as its own. -/
theorem Closed.later (grows : s.store.Grows after.store)
    (h : Closed (m.Territory s) m s) : Closed (m.Territory after) m s := by
  refine h.mono (Machine.Territory.later grows) fun a inside => ?_
  rcases inside with data | reachable | ⟨-, new⟩
  · exact .inl (.inl data)
  · exact .inl (.inr (.inl reachable))
  · by_cases made : a.Exists s.store
    · exact .inl (.inr (.inr ⟨made, new⟩))
    · exact .inr made

/-! ### What is reachable is in the territory -/

theorem Environment.within_global : Environment.global.Within (m.Territory s) := by
  intro f mem
  obtain rfl := List.mem_singleton.mp mem
  exact .inr (.inl ⟨.frame _, Or.inr rfl, .refl⟩)

theorem Class.reachable_lineage {c : Class} (h : m.Reachable (.value (.cls c))) :
    ∀ d ∈ c.lineage, m.Reachable (.value (.cls d)) := by
  induction c with
  | base =>
    intro d mem
    obtain rfl := List.mem_singleton.mp mem
    exact h
  | derived id name methods above ih =>
    intro d mem
    rcases List.mem_cons.mp mem with rfl | mem
    · exact h
    · exact ih (h.step (.superclass rfl)) d mem

theorem Class.within_of_reachable {c : Class} (h : m.Reachable (.value (.cls c))) :
    c.Within (m.Territory s) := by
  intro d mem
  have here := reachable_lineage h d mem
  exact ⟨.inr (.inl here), fun name method own f inside =>
    .inr (.inl (here.step (.method own inside)))⟩

theorem Value.within_of_reachable {v : Value} (h : m.Reachable (.value v)) :
    v.Within (m.Territory s) := by
  refine ⟨.inr (.inl h), ?_⟩
  cases v with
  | function id f => exact fun g inside => .inr (.inl (h.step (.environment inside)))
  | cls c => exact Class.within_of_reachable h
  | _ => trivial

structure Confined (m s : Machine) : Prop where
  grows : m.store.Grows s.store
  closed : Closed (m.Territory s) m s

theorem confined_self (m : Machine) : Confined m m := by
  refine ⟨fun _ h => h, fun _ _ => rfl, fun _ _ => rfl, ?_, ?_, ?_, ?_⟩
  · intro f inside x v bound
    rcases inside with data | reachable | ⟨made, new⟩
    · exact data.elim
    · exact Value.within_of_reachable (reachable.step (.bound bound))
    · exact absurd made new
  · intro id i inside here
    rcases inside with data | reachable | ⟨made, new⟩
    · exact data.elim
    · exact ⟨Class.within_of_reachable (reachable.step (.cls here)), fun x v bound =>
        Value.within_of_reachable (reachable.step (.field here bound))⟩
    · exact absurd made new
  · exact fun f mem => .inr (.inl ⟨.frame f, Or.inl mem, .refl⟩)
  · exact Environment.within_global _ List.mem_cons_self

/-! ### Steps inside a territory -/

theorem Environment.Within.child {outer : Environment} {frame : Nat} (h : outer.Within P)
    (here : P (.frame frame)) : Environment.Within P ⟨frame, outer.frames⟩ := by
  intro f mem
  rcases List.mem_cons.mp mem with rfl | mem
  · exact here
  · exact h f mem

theorem Bindings.within_empty : Bindings.Within P ∅ := by
  intro x v bound
  simp at bound

theorem Bindings.Within.insert {bs : Bindings} (h : bs.Within P) (name : String) {v : Value}
    (within : v.Within P) : Bindings.Within P (bs.insert name v) := by
  intro x w bound
  rw [Std.TreeMap.getElem?_insert] at bound
  split at bound
  · obtain rfl := Option.some.inj bound
    exact within
  · exact h x w bound

namespace Closed

variable (h : Closed P m s)

include h

theorem define {frame : Nat} (inside : P (.frame frame)) (name : String) {v : Value}
    (within : v.Within P) :
    Closed P m { s with store := s.store.define frame name v } := by
  refine ⟨?_, h.otherInstances, ?_, h.instances, h.current, h.global⟩
  · intro f outside
    rw [Store.bindings_define, if_neg]
    · exact h.otherFrames f outside
    · rintro ⟨rfl, -⟩
      exact outside inside
  · intro f here
    rw [Store.bindings_define]
    split
    · exact (h.bindings f here).insert name within
    · exact h.bindings f here

theorem push (outer : Environment) {bindings : Bindings} (inside : P (.frame s.store.frames.size))
    (within : bindings.Within P) :
    Closed P m { s with store := (s.store.newChild outer bindings).2 } := by
  refine ⟨?_, h.otherInstances, ?_, h.instances, h.current, h.global⟩
  · intro f outside
    rw [Store.bindings_newChild, if_neg]
    · exact h.otherFrames f outside
    · rintro rfl
      exact outside inside
  · intro f here
    rw [Store.bindings_newChild]
    split
    · exact within
    · exact h.bindings f here

theorem newInstance {c : Class} (inside : P (.value (.instance s.store.instances.size)))
    (within : c.Within P) :
    Closed P m { s with store := (s.store.newInstance c).2 } := by
  refine ⟨h.otherFrames, ?_, h.bindings, ?_, h.current, h.global⟩
  · intro id outside
    rw [Store.newInstance, Array.getElem?_push, if_neg]
    · exact h.otherInstances id outside
    · rintro rfl
      exact outside inside
  · intro id i here there
    rw [Store.newInstance, Array.getElem?_push] at there
    split at there
    · obtain rfl := Option.some.inj there
      exact ⟨within, Bindings.within_empty⟩
    · exact h.instances id i here there

theorem setField {id : Nat} (inside : P (.value (.instance id))) (name : String) {v : Value}
    (within : v.Within P) :
    Closed P m { s with store := s.store.setField id name v } := by
  refine ⟨h.otherFrames, ?_, h.bindings, ?_, h.current, h.global⟩
  · intro other outside
    rw [Store.setField, Array.getElem?_modify, if_neg]
    · exact h.otherInstances other outside
    · rintro rfl
      exact outside inside
  · intro other j here there
    rw [Store.setField, Array.getElem?_modify] at there
    split at there
    · obtain ⟨i, old, rfl⟩ := Option.map_eq_some_iff.mp there
      obtain ⟨cls, fields⟩ := h.instances other i here old
      exact ⟨cls, fields.insert name within⟩
    · exact h.instances other j here there

theorem move {e : Environment} (within : e.Within P) : Closed P m { s with current := e } :=
  ⟨h.otherFrames, h.otherInstances, h.bindings, h.instances, within, h.global⟩

theorem reachable {results : List Value} (within : ∀ w ∈ results, w.Within P) {a : Node}
    (way : s.store.Reachable (fun r => s.Root r ∨ ∃ w ∈ results, r = .value w) a) : P a := by
  have inside : match a with
      | .frame f => P (.frame f)
      | .value w => w.Within P := by
    obtain ⟨r, root, way⟩ := way
    induction way with
    | refl =>
      rcases root with root | ⟨w, mem, rfl⟩
      · cases r with
        | frame f =>
          rcases root with mem | rfl
          · exact h.current f mem
          · exact h.global
        | value w => exact root.elim
      · exact within w mem
    | tail _ edge ih =>
      cases edge with
      | bound found => exact h.bindings _ ih _ _ found
      | environment mem => exact ih.2 _ mem
      | method own mem => exact (ih.2 _ (Class.mem_lineage_self _)).2 _ _ own _ mem
      | @superclass c above declared =>
        have lineage : above.Within P := fun d mem =>
          ih.2 d (Class.lineage_subset (Class.mem_lineage_superclass declared) mem)
        exact ⟨(lineage above (Class.mem_lineage_self _)).1, lineage⟩
      | cls here =>
        have within := (h.instances _ _ ih.1 here).1
        exact ⟨(within _ (Class.mem_lineage_self _)).1, within⟩
      | field here bound => exact (h.instances _ _ ih.1 here).2 _ _ bound
  cases a with
  | frame f => exact inside
  | value w => exact inside.1

end Closed

end Lox
