import Lox.Value

/-!
# Stores

The variables of all scopes and the fields of all instances. `lookup?` and `assign?` search an
environment for a name; `getAt` and `assignAt` go to the frame at a known distance.
-/

namespace Lox

abbrev Bindings := Std.TreeMap String Value

structure Instance where
  cls : Class
  fields : Bindings := ∅

/-- Faults that end a run without an error of the program. -/
inductive Crash where
  /-- An environment has only `hops` frames around its innermost. -/
  | chainEnded (hops distance : Nat)
  | unbound (name : String) (distance : Nat)
  /-- A run needs more steps than are given. -/
  | unfinished
  deriving DecidableEq, Repr

def Crash.message : Crash → String
  | .chainEnded hops distance =>
    "scope chain ended after " ++ toString hops ++ " of " ++ toString distance
      ++ " frames; resolver and interpreter disagree"
  | .unbound name distance =>
    "'" ++ name ++ "' not bound at distance " ++ toString distance
      ++ "; resolver and interpreter disagree"
  | .unfinished => "evaluation did not finish"

/-- All frames and instances, each known by its position. -/
structure Store where
  frames : Array Bindings := #[]
  instances : Array Instance := #[]
  /-- The next number for a function or a class. -/
  nextId : Nat := 0

namespace Store

def bindings (s : Store) (frame : Nat) : Bindings := s.frames.getD frame ∅

/-- A new frame with these bindings, and nothing around it. -/
def newFrame (s : Store) (bindings : Bindings) : Environment × Store :=
  (⟨s.frames.size, []⟩, { s with frames := s.frames.push bindings })

def newChild (s : Store) (outer : Environment) (bindings : Bindings) : Environment × Store :=
  (⟨s.frames.size, outer.frames⟩, { s with frames := s.frames.push bindings })

/-- Binds a name in a frame, in place of an earlier binding. -/
def define (s : Store) (frame : Nat) (name : String) (value : Value) : Store :=
  { s with frames := s.frames.modify frame (·.insert name value) }

/-- The first frame of an environment that binds a name. -/
def binder? (s : Store) (e : Environment) (name : String) : Option Nat :=
  e.frames.find? fun frame => (s.bindings frame).contains name

def lookup? (s : Store) (e : Environment) (name : String) : Option Value :=
  e.frames.findSome? fun frame => (s.bindings frame)[name]?

def assign? (s : Store) (e : Environment) (name : String) (value : Value) : Option Store :=
  (s.binder? e name).map fun frame => s.define frame name value

def ancestor (e : Environment) (distance : Nat) : Except Crash Nat :=
  match e.ancestor? distance with
  | some frame => .ok frame
  | none => .error (.chainEnded e.enclosing.length distance)

def getAt (s : Store) (e : Environment) (distance : Nat) (name : String) : Except Crash Value := do
  let frame ← ancestor e distance
  match (s.bindings frame)[name]? with
  | some value => .ok value
  | none => .error (.unbound name distance)

def assignAt (s : Store) (e : Environment) (distance : Nat) (name : String) (value : Value) :
    Except Crash Store := do
  let frame ← ancestor e distance
  pure (s.define frame name value)

def newId (s : Store) : Nat × Store := (s.nextId, { s with nextId := s.nextId + 1 })

def newInstance (s : Store) (c : Class) : Nat × Store :=
  (s.instances.size, { s with instances := s.instances.push { cls := c } })

def setField (s : Store) (id : Nat) (name : String) (value : Value) : Store :=
  { s with
    instances := s.instances.modify id fun i => { i with fields := i.fields.insert name value } }

def display (s : Store) : Value → String
  | .nil => "nil"
  | .bool b => if b then "true" else "false"
  | .number x => Value.numberLayout.write x
  | .string text => text
  | .function _ { name := some name, .. } => "<fn " ++ name ++ ">"
  | .function _ { name := none, .. } => "<fn>"
  | .clock => "<native fn>"
  | .cls c => c.name
  | .instance id => ((s.instances[id]?.map fun i => i.cls.name).getD "") ++ " instance"

/-! ### Bindings after a definition -/

theorem bindings_define (s : Store) (frame other : Nat) (name : String) (value : Value) :
    (s.define frame name value).bindings other
      = if frame = other ∧ frame < s.frames.size then (s.bindings other).insert name value
        else s.bindings other := by
  simp only [bindings, define, Array.getD_eq_getD_getElem?, Array.getElem?_modify]
  by_cases h : frame = other
  · subst h
    by_cases hlt : frame < s.frames.size <;> simp [hlt]
  · simp [h]

theorem size_frames_define (s : Store) (frame : Nat) (name : String) (value : Value) :
    (s.define frame name value).frames.size = s.frames.size := by simp [define]

theorem bindings_newChild (s : Store) (outer : Environment) (bs : Bindings) (frame : Nat) :
    (s.newChild outer bs).2.bindings frame
      = if frame = s.frames.size then bs else s.bindings frame := by
  simp only [bindings, newChild, Array.getD_eq_getD_getElem?, Array.getElem?_push]
  split <;> simp_all

end Store

end Lox
