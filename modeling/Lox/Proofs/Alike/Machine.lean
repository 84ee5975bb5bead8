import Lox.Machine
import Lox.Proofs.Alike

/-!
# Machines that are alike

Each frame of the first machine has a renaming; a name is bound in it like its new name in the same
frame of the second machine. What changes the store of one machine changes that of the other alike.
-/

namespace Lox

abbrev FrameRenamings := List Renaming

/-- The renamings around a place are those of the frames of an environment. -/
def Environment.Renames (e : Environment) (F : FrameRenamings) (Γ : Renamings) : Prop :=
  ∀ d frame, e.frames[d]? = some frame → F[frame]? = some (Γ d)

section Values

variable (P : Pairing) (F : FrameRenamings)

/-- Functions that are alike, with these renamings around them. -/
structure Closure.AlikeIn (Γ : Renamings) (f f' : Closure) : Prop where
  name : f'.name = f.name
  environment : f'.environment = f.environment
  isInitializer : f'.isInitializer = f.isInitializer
  code : ∃ ρ, P.renames ρ ∧ List.Forall₂ (P.Named ρ) f.params f'.params ∧
    Stmt.AllAlike P (Γ.push ρ) f.body f'.body

def Closure.Alike (f f' : Closure) : Prop :=
  ∃ Γ, f.environment.Renames F Γ ∧ f.AlikeIn P Γ f'

/-- Methods that are bound to no instance; the frame that binds `this` is still to come. -/
def Closure.AlikeMethod (f f' : Closure) : Prop :=
  ∃ Γ, f.environment.Renames F Γ ∧ f.AlikeIn P (Γ.push (Equiv.refl String)) f'

def MethodTable.Alike (ms ms' : MethodTable) : Prop :=
  ∀ x : String, Option.Rel (Closure.AlikeMethod P F) ms[x]? ms'[x]?

inductive Class.Alike : Class → Class → Prop
  | base {id name ms ms'} : MethodTable.Alike P F ms ms' →
    Class.Alike (.base id name ms) (.base id name ms')
  | derived {id name ms ms' c c'} : MethodTable.Alike P F ms ms' → Class.Alike c c' →
    Class.Alike (.derived id name ms c) (.derived id name ms' c')

inductive Value.Alike : Value → Value → Prop
  | nil : Value.Alike .nil .nil
  | bool {b} : Value.Alike (.bool b) (.bool b)
  | number {x} : Value.Alike (.number x) (.number x)
  | string {s} : Value.Alike (.string s) (.string s)
  | function {id f f'} : f.Alike P F f' → Value.Alike (.function id f) (.function id f')
  | clock : Value.Alike .clock .clock
  | cls {c c'} : c.Alike P F c' → Value.Alike (.cls c) (.cls c')
  | instance {id} : Value.Alike (.instance id) (.instance id)

def Bindings.Alike (ρ : Renaming) (bs bs' : Bindings) : Prop :=
  ∀ x : String, Option.Rel (Value.Alike P F) bs[x]? bs'[ρ x]?

structure Instance.Alike (i i' : Instance) : Prop where
  cls : i.cls.Alike P F i'.cls
  fields : Bindings.Alike P F (Equiv.refl String) i.fields i'.fields

structure Store.Alike (s s' : Store) : Prop where
  size : s.frames.size = F.length
  size' : s'.frames.size = F.length
  global : F[0]? = some (Equiv.refl String)
  renames : ∀ ρ ∈ F, P.renames ρ
  bindings : ∀ frame ρ, F[frame]? = some ρ →
    Bindings.Alike P F ρ (s.bindings frame) (s'.bindings frame)
  count : s'.instances.size = s.instances.size
  instances : ∀ id : Nat, Option.Rel (Instance.Alike P F) s.instances[id]? s'.instances[id]?
  nextId : s'.nextId = s.nextId

/-- Both machines are in the same environment, and the second has printed `before` in addition. -/
structure Machine.Alike (before : String) (e : Environment) (m m' : Machine) : Prop where
  store : m.store.Alike P F m'.store
  current : m.current = e
  current' : m'.current = e
  distances : ∀ i i', P.ids i i' →
    m'.distances[i']? = m.distances[i]? ∧ P.distances i m.distances[i]?
  output : m'.output = before ++ m.output
  clock : m'.clock = m.clock

end Values

/-! ### More frames and larger pairings -/

theorem rel_imp {α β : Type} {R S : α → β → Prop} (sub : ∀ a b, R a b → S a b) {a : Option α}
    {b : Option β} (h : Option.Rel R a b) : Option.Rel S a b := by
  cases h with
  | some h => exact .some (sub _ _ h)
  | none => exact .none

theorem rel_map {α β γ δ : Type} {R : α → β → Prop} {S : γ → δ → Prop} {f : α → γ} {g : β → δ}
    (sub : ∀ a b, R a b → S (f a) (g b)) {a : Option α} {b : Option β} (h : Option.Rel R a b) :
    Option.Rel S (a.map f) (b.map g) := by
  cases h with
  | some h => exact .some (sub _ _ h)
  | none => exact .none

theorem rel_map_eq {α β γ : Type} {R : α → β → Prop} {f : α → γ} {g : β → γ}
    (same : ∀ a b, R a b → g b = f a) {a : Option α} {b : Option β} (h : Option.Rel R a b) :
    b.map g = a.map f := by
  cases h with
  | some h => exact congrArg some (same _ _ h)
  | none => rfl

theorem FrameRenamings.getElem?_of_prefix {F F' : FrameRenamings} (grown : F <+: F') {frame : Nat}
    {ρ : Renaming} (here : F[frame]? = some ρ) : F'[frame]? = some ρ := by
  obtain ⟨more, rfl⟩ := grown
  rw [List.getElem?_append_left (List.getElem?_eq_some_iff.mp here).1]
  exact here

theorem Environment.Renames.mono {e : Environment} {F F' : FrameRenamings} {Γ : Renamings}
    (h : e.Renames F Γ) (grown : F <+: F') : e.Renames F' Γ :=
  fun d frame here => FrameRenamings.getElem?_of_prefix grown (h d frame here)

theorem Environment.Renames.global {F : FrameRenamings} (h : F[0]? = some (Equiv.refl String)) :
    Environment.global.Renames F .plain := by
  intro d frame here
  cases d with
  | zero =>
    obtain rfl := Option.some.inj here
    exact h
  | succ d => cases here

theorem Environment.Renames.push {e : Environment} {F : FrameRenamings} {Γ : Renamings}
    (h : e.Renames F Γ) (ρ : Renaming) :
    Environment.Renames ⟨F.length, e.frames⟩ (F ++ [ρ]) (Γ.push ρ) := by
  intro d frame here
  cases d with
  | zero =>
    obtain rfl := Option.some.inj here
    exact List.getElem?_concat_length
  | succ d => exact FrameRenamings.getElem?_of_prefix (List.prefix_append F [ρ]) (h d frame here)

section Mono

variable {P Q : Pairing} {F F' : FrameRenamings} (le : P.Le Q) (grown : F <+: F')

include le

theorem Closure.AlikeIn.mono {Γ : Renamings} {f f' : Closure} (h : f.AlikeIn P Γ f') :
    f.AlikeIn Q Γ f' := by
  obtain ⟨ρ, renames, params, body⟩ := h.code
  exact ⟨h.name, h.environment, h.isInitializer, ρ, le.renames ρ renames,
    Pairing.named_mono le params, body.mono le⟩

include grown

theorem Closure.Alike.mono {f f' : Closure} (h : f.Alike P F f') : f.Alike Q F' f' := by
  obtain ⟨Γ, frames, alike⟩ := h
  exact ⟨Γ, frames.mono grown, alike.mono le⟩

theorem MethodTable.Alike.mono {ms ms' : MethodTable} (h : MethodTable.Alike P F ms ms') :
    MethodTable.Alike Q F' ms ms' := by
  refine fun x => rel_imp (fun f f' h => ?_) (h x)
  obtain ⟨Γ, frames, alike⟩ := h
  exact ⟨Γ, frames.mono grown, alike.mono le⟩

theorem Class.Alike.mono {c c' : Class} (h : c.Alike P F c') : c.Alike Q F' c' := by
  induction h with
  | base methods => exact .base (methods.mono le grown)
  | derived methods _ ih => exact .derived (methods.mono le grown) ih

theorem Value.Alike.mono {v v' : Value} (h : v.Alike P F v') : v.Alike Q F' v' := by
  cases h with
  | function h => exact .function (h.mono le grown)
  | cls h => exact .cls (h.mono le grown)
  | nil => exact .nil
  | bool => exact .bool
  | number => exact .number
  | string => exact .string
  | clock => exact .clock
  | «instance» => exact .instance

theorem Bindings.Alike.mono {ρ : Renaming} {bs bs' : Bindings} (h : Bindings.Alike P F ρ bs bs') :
    Bindings.Alike Q F' ρ bs bs' := fun x => rel_imp (fun _ _ h => h.mono le grown) (h x)

theorem Instance.Alike.mono {i i' : Instance} (h : i.Alike P F i') : i.Alike Q F' i' :=
  ⟨h.cls.mono le grown, h.fields.mono le grown⟩

end Mono

theorem Pairing.Le.refl (P : Pairing) : P.Le P :=
  ⟨fun _ _ h => h, fun _ _ h => h, fun _ _ _ _ h => h, fun _ h => h, fun _ h => h⟩

/-! ### Stores -/

section Stores

variable {P : Pairing} {F : FrameRenamings} {s s' : Store}

theorem Bindings.Alike.empty (ρ : Renaming) : Bindings.Alike P F ρ ∅ ∅ := by
  intro x
  rw [Std.TreeMap.getElem?_emptyc, Std.TreeMap.getElem?_emptyc]
  exact .none

theorem Bindings.Alike.insert {ρ : Renaming} {bs bs' : Bindings} (h : Bindings.Alike P F ρ bs bs')
    (x : String) {v v' : Value} (alike : v.Alike P F v') :
    Bindings.Alike P F ρ (bs.insert x v) (bs'.insert (ρ x) v') := by
  intro y
  rw [Std.TreeMap.getElem?_insert, Std.TreeMap.getElem?_insert]
  by_cases same : x = y
  · subst same
    simpa using Option.Rel.some alike
  · have different : ρ x ≠ ρ y := fun h => same (ρ.injective h)
    simpa [same, different] using h y

namespace Store.Alike

theorem mono {Q : Pairing} (le : P.Le Q) (h : s.Alike P F s') : s.Alike Q F s' := by
  have same : F <+: F := List.prefix_rfl
  refine ⟨h.size, h.size', h.global, fun ρ mem => le.renames ρ (h.renames ρ mem), ?_, h.count, ?_,
    h.nextId⟩
  · exact fun frame ρ here => (h.bindings frame ρ here).mono le same
  · exact fun id => rel_imp (fun _ _ i => i.mono le same) (h.instances id)

theorem initial (clock : Clock) (renames : P.renames (Equiv.refl String)) :
    (Machine.initial clock).store.Alike P [Equiv.refl String] (Machine.initial clock).store := by
  refine ⟨rfl, rfl, rfl, ?_, ?_, rfl, fun _ => .none, rfl⟩
  · simpa using renames
  · intro frame ρ here
    cases frame with
    | zero =>
      obtain rfl := Option.some.inj here
      exact (Bindings.Alike.empty _).insert "clock" .clock
    | succ frame => cases here

theorem define (h : s.Alike P F s') {frame : Nat} {ρ : Renaming} (here : F[frame]? = some ρ)
    (x : String) {v v' : Value} (alike : v.Alike P F v') :
    (s.define frame x v).Alike P F (s'.define frame (ρ x) v') := by
  have bound : frame < F.length := (List.getElem?_eq_some_iff.mp here).1
  refine ⟨?_, ?_, h.global, h.renames, fun other ρ' there => ?_, h.count, h.instances, h.nextId⟩
  · rw [Store.size_frames_define, h.size]
  · rw [Store.size_frames_define, h.size']
  · rw [Store.bindings_define, Store.bindings_define, h.size, h.size']
    by_cases same : frame = other
    · subst same
      obtain rfl := Option.some.inj (here.symm.trans there)
      simpa [bound] using (h.bindings frame ρ here).insert x alike
    · simpa [same] using h.bindings other ρ' there

theorem newChild (h : s.Alike P F s') (outer : Environment) {ρ : Renaming} (renames : P.renames ρ)
    {bs bs' : Bindings} (alike : Bindings.Alike P F ρ bs bs') :
    (s.newChild outer bs).2.Alike P (F ++ [ρ]) (s'.newChild outer bs').2 := by
  have grown : F <+: F ++ [ρ] := List.prefix_append F [ρ]
  refine ⟨?_, ?_, ?_, ?_, fun frame ρ' here => ?_, h.count, fun id => ?_, h.nextId⟩
  · simp [Store.newChild, h.size]
  · simp [Store.newChild, h.size']
  · exact FrameRenamings.getElem?_of_prefix grown h.global
  · intro ρ' mem
    obtain mem | mem := List.mem_append.mp mem
    · exact h.renames ρ' mem
    · obtain rfl := List.mem_singleton.mp mem
      exact renames
  · rw [Store.bindings_newChild, Store.bindings_newChild, h.size, h.size']
    by_cases last : frame = F.length
    · subst last
      rw [List.getElem?_concat_length] at here
      obtain rfl := Option.some.inj here
      simpa using alike.mono (.refl P) grown
    · have bound := (List.getElem?_eq_some_iff.mp here).1
      rw [List.length_append, List.length_singleton] at bound
      rw [List.getElem?_append_left (by omega)] at here
      simpa [last] using (h.bindings frame ρ' here).mono (.refl P) grown
  · exact rel_imp (fun _ _ alike => alike.mono (.refl P) grown) (h.instances id)

theorem newId (h : s.Alike P F s') : s.newId.2.Alike P F s'.newId.2 :=
  ⟨h.size, h.size', h.global, h.renames, h.bindings, h.count, h.instances,
    congrArg (· + 1) h.nextId⟩

theorem newInstance (h : s.Alike P F s') {c c' : Class} (alike : c.Alike P F c') :
    (s.newInstance c).2.Alike P F (s'.newInstance c').2 := by
  refine ⟨h.size, h.size', h.global, h.renames, h.bindings, ?_, fun id => ?_, h.nextId⟩
  · simp [Store.newInstance, h.count]
  · simp only [Store.newInstance, Array.getElem?_push, h.count]
    split
    · exact .some ⟨alike, .empty _⟩
    · exact h.instances id

theorem setField (h : s.Alike P F s') (id : Nat) (x : String) {v v' : Value}
    (alike : v.Alike P F v') : (s.setField id x v).Alike P F (s'.setField id x v') := by
  refine ⟨h.size, h.size', h.global, h.renames, h.bindings, ?_, fun other => ?_, h.nextId⟩
  · simp [Store.setField, h.count]
  · simp only [Store.setField, Array.getElem?_modify]
    split
    · exact rel_map (fun _ _ i => ⟨i.cls, i.fields.insert x alike⟩) (h.instances other)
    · exact h.instances other

end Store.Alike

/-! ### What is read -/

theorem Bindings.Alike.contains {ρ : Renaming} {bs bs' : Bindings} (h : Bindings.Alike P F ρ bs bs')
    (x : String) : bs'.contains (ρ x) = bs.contains x := by
  have bound := h x
  rw [Std.TreeMap.contains_eq_isSome_getElem?, Std.TreeMap.contains_eq_isSome_getElem?]
  revert bound
  cases bs[x]? <;> cases bs'[ρ x]? <;> intro bound <;> cases bound <;> rfl

theorem Value.Alike.isTruthy {v v' : Value} (h : v.Alike P F v') : v'.isTruthy = v.isTruthy := by
  cases h <;> rfl

theorem Class.Alike.id {c c' : Class} (h : c.Alike P F c') : c'.id = c.id := by
  cases h <;> rfl

theorem Class.Alike.name {c c' : Class} (h : c.Alike P F c') : c'.name = c.name := by
  cases h <;> rfl

theorem Value.Alike.isEqual {v v' w w' : Value} (h : v.Alike P F v') (h' : w.Alike P F w') :
    v'.isEqual w' = v.isEqual w := by
  cases h with
  | cls c =>
    cases h' with
    | cls d =>
      change (_ == _) = (_ == _)
      rw [c.id, d.id]
    | _ => rfl
  | _ => cases h' <;> rfl

theorem Class.Alike.method? {c c' : Class} (h : c.Alike P F c') (name : String) :
    Option.Rel (Closure.AlikeMethod P F) (c.method? name) (c'.method? name) := by
  induction h with
  | base methods => exact methods name
  | @derived id cname ms ms' c c' methods _ ih =>
    unfold Class.method?
    have own := methods name
    revert own
    cases ms[name]? <;> cases ms'[name]? <;> intro own
    · exact ih
    · cases own
    · cases own
    · exact own

theorem Closure.AlikeIn.arity {Γ : Renamings} {f f' : Closure} (h : f.AlikeIn P Γ f') :
    f'.arity = f.arity := by
  obtain ⟨ρ, -, params, -⟩ := h.code
  exact params.length_eq.symm

theorem Class.Alike.arity {c c' : Class} (h : c.Alike P F c') : c'.arity = c.arity := by
  refine congrArg (·.getD 0) (rel_map_eq (fun f f' method => ?_) (h.method? "init"))
  obtain ⟨Γ, -, alike⟩ := method
  exact alike.arity

theorem Value.Alike.arity? {v v' : Value} (h : v.Alike P F v') : v'.arity? = v.arity? := by
  cases h with
  | function f =>
    obtain ⟨Γ, -, alike⟩ := f
    exact congrArg some alike.arity
  | cls c => exact congrArg some c.arity
  | _ => rfl

theorem Store.lookup?_global (s : Store) (name : String) :
    s.lookup? .global name = (s.bindings 0)[name]? := by
  change List.findSome? _ [0] = _
  rw [List.findSome?_cons, List.findSome?_nil]
  cases (s.bindings 0)[name]? <;> rfl

theorem Store.binder?_global (s : Store) (name : String) :
    s.binder? .global name = if (s.bindings 0).contains name then some 0 else none := by
  change List.find? _ [0] = _
  rw [List.find?_cons, List.find?_nil]
  cases (s.bindings 0).contains name <;> rfl

theorem Store.Alike.lookup?_global (h : s.Alike P F s') (name : String) :
    Option.Rel (Value.Alike P F) (s.lookup? .global name) (s'.lookup? .global name) := by
  rw [Store.lookup?_global, Store.lookup?_global]
  exact h.bindings 0 _ h.global name

theorem Store.Alike.display (h : s.Alike P F s') {v v' : Value} (alike : v.Alike P F v') :
    s'.display v' = s.display v := by
  cases alike with
  | function f =>
    obtain ⟨Γ, -, alike⟩ := f
    rename_i id f f'
    obtain ⟨name, params, body, environment, isInitializer⟩ := f
    obtain ⟨name', params', body', environment', isInitializer'⟩ := f'
    obtain rfl : name' = name := alike.name
    cases name' <;> rfl
  | cls c => exact c.name
  | @«instance» id =>
    exact congrArg (fun name : Option String => name.getD "" ++ " instance")
      (rel_map_eq (fun _ _ i => i.cls.name) (h.instances id))
  | _ => rfl

end Stores

end Lox
