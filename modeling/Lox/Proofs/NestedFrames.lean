import Mathlib.Logic.Relation
import Lox.Proofs.Methods

/-!
# Frames as nested maps

Frames are made one inside another, and names are bound in them, in any order. `frames_nested` says
that a name is looked up and changed in the first frame outward that binds it, and that going there
by the distance is the same.
-/

namespace Lox

open Relation (ReflTransGen)

/-- An operation on frames. They are known by their numbers in the order in which they are made. -/
inductive FrameOp where
  | new
  | child (outer : Nat)
  | define (frame : Nat) (name : String) (value : Value)
  | assign (frame : Nat) (name : String) (value : Value)
  | assignAt (frame distance : Nat) (name : String) (value : Value)

structure Scopes where
  store : Store := {}
  /-- The environments that begin at the frames. -/
  environments : List Environment := []

namespace Scopes

def add (S : Scopes) (made : Environment × Store) : Scopes where
  store := made.2
  environments := S.environments ++ [made.1]

/-- The outcome of an operation, unless it fails or is on no frame. -/
def perform? (S : Scopes) : FrameOp → Option Scopes
  | .new => some (S.add (S.store.newFrame ∅))
  | .child outer => do
    let e ← S.environments[outer]?
    return S.add (S.store.newChild e ∅)
  | .define frame name value => do
    let e ← S.environments[frame]?
    return { S with store := S.store.define e.frame name value }
  | .assign frame name value => do
    let e ← S.environments[frame]?
    let store ← S.store.assign? e name value
    return { S with store }
  | .assignAt frame distance name value => do
    let e ← S.environments[frame]?
    let store ← (S.store.assignAt e distance name value).toOption
    return { S with store }

/-- The frames after an operation; one that fails leaves them as they were. -/
def perform (S : Scopes) (op : FrameOp) : Scopes := (S.perform? op).getD S

def after (ops : List FrameOp) : Scopes := ops.foldl perform {}

def binding? (S : Scopes) (frame : Nat) (name : String) : Option Value :=
  (S.store.bindings frame)[name]?

def parent? (S : Scopes) (frame : Nat) : Option Nat := do
  let e ← S.environments[frame]?
  e.enclosing.head?

/-- The frames from a frame outward, up to one with nothing around it. -/
inductive Chain (S : Scopes) : Nat → List Nat → Prop
  | outermost {frame} : frame < S.environments.length → S.parent? frame = none →
    S.Chain frame [frame]
  | inside {frame outer chain} : S.parent? frame = some outer → S.Chain outer chain →
    S.Chain frame (frame :: chain)

/-- On a chain, the frame at a distance is the first to bind a name. -/
structure BindsFirst (S : Scopes) (chain : List Nat) (name : String) (d frame : Nat) : Prop where
  here : chain[d]? = some frame
  bound : S.binding? frame name ≠ none
  nearer : ∀ other ∈ chain.take d, S.binding? other name = none

def Unbound (S : Scopes) (chain : List Nat) (name : String) : Prop :=
  ∀ frame ∈ chain, S.binding? frame name = none

/-- One more frame, which binds nothing, in another one or in none. -/
structure Grown (S S' : Scopes) (outer : Option Nat) : Prop where
  length : S'.environments.length = S.environments.length + 1
  parent : S'.parent? S.environments.length = outer
  parents : ∀ frame < S.environments.length, S'.parent? frame = S.parent? frame
  empty : ∀ name, S'.binding? S.environments.length name = none
  bindings : ∀ frame < S.environments.length, ∀ name,
    S'.binding? frame name = S.binding? frame name

/-- A name is bound in a frame, and all else stays. -/
structure Rebound (S S' : Scopes) (frame : Nat) (name : String) (value : Value) : Prop where
  environments : S'.environments = S.environments
  bound : S'.binding? frame name = some value
  others : ∀ frame' name', (frame', name') ≠ (frame, name) →
    S'.binding? frame' name' = S.binding? frame' name'

end Scopes

/-! ### Distances -/

namespace Store

variable {s : Store} {e : Environment} {d frame : Nat}

theorem ancestor_ok_iff : ancestor e d = .ok frame ↔ e.frames[d]? = some frame := by
  unfold ancestor Environment.ancestor?
  cases e.frames[d]? <;> simp

theorem assignAt_eq (s : Store) (name : String) (value : Value)
    (here : e.frames[d]? = some frame) :
    s.assignAt e d name value = .ok (s.define frame name value) := by
  unfold assignAt
  rw [ancestor_ok_iff.mpr here]
  rfl

theorem assignAt_ok {after : Store} {name : String} {value : Value}
    (h : s.assignAt e d name value = .ok after) :
    ∃ frame, e.frames[d]? = some frame ∧ after = s.define frame name value := by
  unfold assignAt at h
  cases found : ancestor e d with
  | error c =>
    rw [found] at h
    cases h
  | ok frame =>
    rw [found] at h
    cases h
    exact ⟨frame, ancestor_ok_iff.mp found, rfl⟩

end Store

namespace Scopes

/-! ### What an operation can do -/

/-- An operation makes a frame or binds a name in a frame that is there. -/
inductive Step (S : Scopes) : Scopes → Prop
  | new : S.Step (S.add (S.store.newFrame ∅))
  | child {outer : Nat} {e : Environment} : S.environments[outer]? = some e →
    S.Step (S.add (S.store.newChild e ∅))
  | bind {frame outer : Nat} {e : Environment} (name : String) (value : Value) :
    S.environments[frame]? = some e → outer ∈ e.frames →
    S.Step { S with store := S.store.define outer name value }

variable {S S' : Scopes} {e : Environment} {frame outer d : Nat} {name : String} {value : Value}

theorem step_of_perform? {op : FrameOp} (h : S.perform? op = some S') : S.Step S' := by
  cases op with
  | new =>
    cases h
    exact .new
  | child outer =>
    obtain ⟨e, here, ⟨⟩⟩ := Option.bind_eq_some_iff.mp h
    exact .child here
  | define frame name value =>
    obtain ⟨e, here, ⟨⟩⟩ := Option.bind_eq_some_iff.mp h
    exact .bind name value here List.mem_cons_self
  | assign frame name value =>
    obtain ⟨e, here, h⟩ := Option.bind_eq_some_iff.mp h
    obtain ⟨store, changed, ⟨⟩⟩ := Option.bind_eq_some_iff.mp h
    obtain ⟨outer, found, rfl⟩ := Option.map_eq_some_iff.mp changed
    exact .bind name value here (List.mem_of_find?_eq_some found)
  | assignAt frame d name value =>
    obtain ⟨e, here, h⟩ := Option.bind_eq_some_iff.mp h
    obtain ⟨store, changed, ⟨⟩⟩ := Option.bind_eq_some_iff.mp h
    cases went : S.store.assignAt e d name value with
    | error c =>
      rw [went] at changed
      cases changed
    | ok after =>
      rw [went] at changed
      obtain rfl := Option.some.inj changed
      obtain ⟨outer, there, rfl⟩ := Store.assignAt_ok went
      exact .bind name value here (List.mem_of_getElem? there)

theorem steps_foldl (S : Scopes) (ops : List FrameOp) :
    ReflTransGen Step S (ops.foldl perform S) := by
  induction ops generalizing S with
  | nil => exact .refl
  | cons op ops ih =>
    cases went : S.perform? op with
    | none =>
      have same : S.perform op = S := by rw [perform, went, Option.getD_none]
      rw [List.foldl_cons, same]
      exact ih S
    | some T =>
      have next : S.perform op = T := by rw [perform, went, Option.getD_some]
      rw [List.foldl_cons, next]
      exact .head (step_of_perform? went) (ih T)

theorem steps_after (ops more : List FrameOp) :
    ReflTransGen Step (after ops) (after (ops ++ more)) := by
  rw [after, after, List.foldl_append]
  exact steps_foldl _ more

/-! ### Frames that are made stay where they are -/

theorem getElem?_add_old {made : Environment × Store} (old : frame < S.environments.length) :
    (S.add made).environments[frame]? = S.environments[frame]? :=
  List.getElem?_append_left old

theorem getElem?_add_new (made : Environment × Store) :
    (S.add made).environments[S.environments.length]? = some made.1 :=
  List.getElem?_concat_length

theorem getElem?_add_cases {made : Environment × Store}
    (h : (S.add made).environments[frame]? = some e) :
    S.environments[frame]? = some e ∨ frame = S.environments.length ∧ e = made.1 := by
  rcases Nat.lt_trichotomy frame S.environments.length with old | rfl | beyond
  · exact .inl (getElem?_add_old old ▸ h)
  · exact .inr ⟨rfl, (Option.some.inj ((getElem?_add_new made).symm.trans h)).symm⟩
  · have bound := (List.getElem?_eq_some_iff.mp h).1
    simp only [add, List.length_append, List.length_singleton] at bound
    omega

theorem Step.environments (h : S.Step S') : S.environments <+: S'.environments := by
  cases h with
  | new => exact List.prefix_append _ _
  | child => exact List.prefix_append _ _
  | bind => exact List.prefix_rfl

theorem environments_of_steps (h : ReflTransGen Step S S') :
    S.environments <+: S'.environments := by
  induction h with
  | refl => exact List.prefix_rfl
  | tail _ step ih => exact ih.trans step.environments

theorem parent?_of_prefix (h : S.environments <+: S'.environments)
    (old : frame < S.environments.length) : S'.parent? frame = S.parent? frame := by
  obtain ⟨more, same⟩ := h
  rw [parent?, parent?, ← same, List.getElem?_append_left old]

/-! ### Environments follow the frames outward -/

/-- The environment at a frame goes on with the environment at the frame around it. -/
structure Linked (S : Scopes) : Prop where
  size : S.store.frames.size = S.environments.length
  frame : ∀ {frame : Nat} {e : Environment}, S.environments[frame]? = some e → e.frame = frame
  outer : ∀ {frame outer : Nat} {e : Environment} {rest : List Nat},
    S.environments[frame]? = some e → e.enclosing = outer :: rest →
      S.environments[outer]? = some ⟨outer, rest⟩

theorem Linked.add {made : Environment × Store} (h : S.Linked)
    (size : made.2.frames.size = S.store.frames.size + 1)
    (frame : made.1.frame = S.store.frames.size)
    (outer : ∀ {outer : Nat} {rest : List Nat}, made.1.enclosing = outer :: rest →
      S.environments[outer]? = some ⟨outer, rest⟩) : (S.add made).Linked := by
  have length : (S.add made).environments.length = S.environments.length + 1 := by
    simp [Scopes.add]
  have kept {outer : Nat} {e : Environment} (here : S.environments[outer]? = some e) :
      (S.add made).environments[outer]? = some e := by
    rw [getElem?_add_old (List.getElem?_eq_some_iff.mp here).1, here]
  refine ⟨?_, fun {f e} here => ?_, fun {f e out rest} here around => ?_⟩
  · rw [length, ← h.size]
    exact size
  · rcases getElem?_add_cases here with old | ⟨rfl, rfl⟩
    · exact h.frame old
    · exact frame.trans h.size
  · rcases getElem?_add_cases here with old | ⟨rfl, rfl⟩
    · exact kept (h.outer old around)
    · exact kept (outer around)

theorem Linked.step (h : S.Linked) (step : S.Step S') : S'.Linked := by
  cases step with
  | new => exact h.add (Array.size_push _) rfl nofun
  | @child outer e here =>
    refine h.add (Array.size_push _) rfl fun {outer' rest} around => ?_
    obtain ⟨rfl, rfl⟩ := List.cons.inj around
    obtain rfl := h.frame here
    exact here
  | bind => exact ⟨(Store.size_frames_define _ _ _ _).trans h.size, h.frame, h.outer⟩

theorem linked_of_steps (steps : ReflTransGen Step S S') (h : S.Linked) : S'.Linked := by
  induction steps with
  | refl => exact h
  | tail _ step ih => exact ih.step step

theorem linked_after (ops : List FrameOp) : (after ops).Linked :=
  linked_of_steps (steps_after [] ops) ⟨rfl, nofun, nofun⟩

/-- The frames of an environment are those from its own outward. -/
theorem Linked.chain_iff (h : S.Linked) (here : S.environments[frame]? = some e)
    (chain : List Nat) : S.Chain frame chain ↔ chain = e.frames := by
  constructor
  · intro way
    induction way generalizing e with
    | outermost _ alone =>
      rw [parent?, here] at alone
      rw [Environment.frames, h.frame here, List.head?_eq_none_iff.mp alone]
    | @inside frame outer chain around _ ih =>
      rw [parent?, here] at around
      obtain ⟨rest, whole⟩ := List.head?_eq_some_iff.mp around
      rw [Environment.frames, h.frame here, ih (h.outer here whole), whole]
      rfl
  · rintro rfl
    obtain ⟨own, enclosing⟩ := e
    obtain rfl : own = frame := h.frame here
    induction enclosing generalizing own with
    | nil => exact .outermost (List.getElem?_eq_some_iff.mp here).1 (by rw [parent?, here]; rfl)
    | cons outer rest ih =>
      exact .inside (by rw [parent?, here]; rfl) (ih _ (h.outer here rfl))

theorem Linked.lt_of_mem (h : S.Linked) (here : S.environments[frame]? = some e)
    (mem : outer ∈ e.frames) : outer < S.environments.length := by
  have way := (h.chain_iff here _).mpr rfl
  generalize e.frames = chain at way mem
  clear here
  induction way with
  | outermost exists_ => exact List.mem_singleton.mp mem ▸ exists_
  | inside around _ ih =>
    rcases List.mem_cons.mp mem with rfl | mem
    · obtain ⟨e, here, -⟩ := Option.bind_eq_some_iff.mp around
      exact (List.getElem?_eq_some_iff.mp here).1
    · exact ih mem

/-! ### Bindings after an operation -/

theorem Linked.grown (h : S.Linked) {made : Environment × Store} (around : List Nat)
    (environment : made.1 = ⟨S.store.frames.size, around⟩)
    (frames : made.2.frames = S.store.frames.push ∅) : S.Grown (S.add made) around.head? := by
  have bindings (frame : Nat) : made.2.bindings frame =
      if frame = S.environments.length then ∅ else S.store.bindings frame := by
    rw [← h.size, ← S.store.bindings_newChild .global]
    exact congrArg (·.getD frame ∅) frames
  refine ⟨?_, ?_, fun frame old => ?_, fun name => ?_, fun frame old name => ?_⟩
  · simp [Scopes.add]
  · rw [parent?, getElem?_add_new, environment]
    rfl
  · exact parent?_of_prefix (List.prefix_append _ _) old
  · rw [binding?, Scopes.add, bindings, if_pos rfl]
    exact Std.TreeMap.getElem?_emptyc
  · rw [binding?, Scopes.add, bindings, if_neg (Nat.ne_of_lt old)]
    rfl

theorem Linked.rebound (h : S.Linked) (old : outer < S.environments.length) (name : String)
    (value : Value) :
    S.Rebound { S with store := S.store.define outer name value } outer name value := by
  have bindings (frame : Nat) : (S.store.define outer name value).bindings frame =
      if outer = frame then (S.store.bindings frame).insert name value
      else S.store.bindings frame := by
    rw [Store.bindings_define, h.size]
    simp [old]
  refine ⟨rfl, ?_, fun frame name' other => ?_⟩
  · rw [binding?, bindings, if_pos rfl, Std.TreeMap.getElem?_insert_self]
  · rw [binding?, bindings, binding?]
    split
    next same =>
      subst same
      rw [Std.TreeMap.getElem?_insert, if_neg]
      intro equal
      exact other (by rw [Std.LawfulEqCmp.compare_eq_iff_eq.mp equal])
    next => rfl

/-! ### The first frame that binds a name -/

section First

variable {chain : List Nat}

theorem BindsFirst.split (first : S.BindsFirst chain name d frame) :
    chain = chain.take d ++ frame :: chain.drop (d + 1) := by
  obtain ⟨bound, here⟩ := List.getElem?_eq_some_iff.mp first.here
  rw [← here, List.getElem_cons_drop, List.take_append_drop]

/-- Some frame is the first to bind a name, or none binds it. -/
theorem bindsFirst_or_unbound (S : Scopes) (chain : List Nat) (name : String) :
    (∃ d frame, S.BindsFirst chain name d frame) ∨ S.Unbound chain name := by
  induction chain with
  | nil => exact .inr nofun
  | cons frame chain ih =>
    by_cases bound : S.binding? frame name = none
    · rcases ih with ⟨d, outer, first⟩ | unbound
      · refine .inl ⟨d + 1, outer, first.here, first.bound, fun other mem => ?_⟩
        rcases List.mem_cons.mp mem with rfl | mem
        · exact bound
        · exact first.nearer other mem
      · exact .inr (List.forall_mem_cons.mpr ⟨bound, unbound⟩)
    · exact .inl ⟨0, frame, rfl, bound, nofun⟩

theorem BindsFirst.lookup? (first : S.BindsFirst e.frames name d frame) :
    S.store.lookup? e name = S.binding? frame name := by
  have nearer : (e.frames.take d).findSome? (fun frame => (S.store.bindings frame)[name]?) = none :=
    List.findSome?_eq_none_iff.mpr first.nearer
  obtain ⟨value, found⟩ := Option.ne_none_iff_exists'.mp first.bound
  rw [found, Store.lookup?, first.split, List.findSome?_append, nearer, Option.none_or,
    List.findSome?_cons, ← binding?, found]

theorem BindsFirst.binder? (first : S.BindsFirst e.frames name d frame) :
    S.store.binder? e name = some frame := by
  have bound : (S.store.bindings frame).contains name = true := by
    rw [Std.TreeMap.contains_eq_isSome_getElem?]
    exact Option.isSome_iff_ne_none.mpr first.bound
  have nearer : (e.frames.take d).find? (fun frame => (S.store.bindings frame).contains name) =
      none := by
    refine List.find?_eq_none.mpr fun other mem => ?_
    rw [Std.TreeMap.contains_eq_isSome_getElem?, ← binding?, first.nearer other mem]
    exact Bool.false_ne_true
  rw [Store.binder?, first.split, List.find?_append, nearer, Option.none_or, List.find?_cons, bound]

theorem Unbound.lookup? (unbound : S.Unbound e.frames name) : S.store.lookup? e name = none :=
  List.findSome?_eq_none_iff.mpr unbound

theorem Unbound.binder? (unbound : S.Unbound e.frames name) : S.store.binder? e name = none := by
  refine List.find?_eq_none.mpr fun frame mem => ?_
  rw [Std.TreeMap.contains_eq_isSome_getElem?, ← binding?, unbound frame mem]
  exact Bool.false_ne_true

theorem BindsFirst.getAt (first : S.BindsFirst e.frames name d frame)
    (found : S.binding? frame name = some value) : S.store.getAt e d name = .ok value := by
  rw [Store.getAt_eq name first.here, ← binding?, found]

/-- The frame that is the first to bind a name still is so when the name is bound there again. -/
theorem BindsFirst.rebound (first : S.BindsFirst chain name d frame)
    (again : S.Rebound S' frame name value) : S'.BindsFirst chain name d frame := by
  refine ⟨first.here, by rw [again.bound]; exact Option.some_ne_none _, fun other mem => ?_⟩
  have none := first.nearer other mem
  rw [again.others other name, none]
  intro same
  exact first.bound ((Prod.mk.inj same).1 ▸ none)

end First

/-! ### What the operations do -/

theorem perform?_child (here : S.environments[frame]? = some e) :
    S.perform? (.child frame) = some (S.add (S.store.newChild e ∅)) := by
  rw [perform?, here]
  rfl

theorem perform?_define (here : S.environments[frame]? = some e) (name : String) (value : Value) :
    S.perform? (.define frame name value) =
      some { S with store := S.store.define e.frame name value } := by
  rw [perform?, here]
  rfl

theorem perform?_assignAt (here : S.environments[frame]? = some e)
    (there : e.frames[d]? = some outer) (name : String) (value : Value) :
    S.perform? (.assignAt frame d name value) =
      some { S with store := S.store.define outer name value } := by
  rw [perform?, here]
  change (S.store.assignAt e d name value).toOption.bind _ = _
  rw [Store.assignAt_eq _ _ _ there]
  rfl

theorem perform?_assign (here : S.environments[frame]? = some e)
    (first : S.BindsFirst e.frames name d outer) (value : Value) :
    S.perform? (.assign frame name value) =
      some { S with store := S.store.define outer name value } := by
  rw [perform?, here]
  change (S.store.assign? e name value).bind _ = _
  rw [Store.assign?, first.binder?]
  rfl

theorem perform?_assign_none (here : S.environments[frame]? = some e)
    (unbound : S.Unbound e.frames name) (value : Value) :
    S.perform? (.assign frame name value) = none := by
  rw [perform?, here]
  change (S.store.assign? e name value).bind _ = _
  rw [Store.assign?, unbound.binder?]
  rfl

end Scopes

/-! ### Assignments of a run -/

section Runs

variable {m : Machine} {e : Environment} {name : Token} {frame : Nat}

theorem Run.assignIn_bound (bound : m.store.binder? e name.lexeme = some frame) (value : Value) :
    Run.assignIn e name value m =
      .ok () { m with store := m.store.define frame name.lexeme value } := by
  rw [assignIn, get_bind, bound]
  rfl

theorem Run.assignIn_unbound (unbound : m.store.binder? e name.lexeme = none) (value : Value) :
    Run.assignIn e name value m =
      .error (.error ⟨name.line, .undefinedVariable name.lexeme⟩) m := by
  rw [assignIn, get_bind, unbound]
  rfl

end Runs

/-- After any operations, the frames from each one outward are those of its environment, which no
operation changes. A name has the value that the first of them to bind it has, and is changed
there, for all environments that the frame belongs to. To go there by the distance comes to the
same. Where none binds it, the change fails. -/
theorem frames_nested (ops : List FrameOp) :
    let S := Scopes.after ops
    (∃ S', S.perform? .new = some S' ∧ S.Grown S' none) ∧
    (∀ more, ∀ frame < S.environments.length,
      (Scopes.after (ops ++ more)).parent? frame = S.parent? frame) ∧
    ∀ frame < S.environments.length, ∃ e, S.environments[frame]? = some e ∧
      (∃ S', S.perform? (.child frame) = some S' ∧ S.Grown S' (some frame)) ∧
      (∀ name value, ∃ S', S.perform? (.define frame name value) = some S' ∧
        S.Rebound S' frame name value) ∧
      (∀ chain, S.Chain frame chain ↔ chain = e.frames) ∧
      (∀ d, (∃ outer, Store.ancestor e d = .ok outer) ↔ d < e.frames.length) ∧
      (∀ d outer, Store.ancestor e d = .ok outer ↔ e.frames[d]? = some outer) ∧
      (∀ d outer, e.frames[d]? = some outer → ∀ name value, ∃ S',
        S.perform? (.assignAt frame d name value) = some S' ∧ S.Rebound S' outer name value) ∧
      ∀ name,
        ((∃ d outer, S.BindsFirst e.frames name d outer) ∨ S.Unbound e.frames name) ∧
        (S.Unbound e.frames name → S.store.lookup? e name = none ∧ ∀ value,
          S.perform? (.assign frame name value) = none ∧
          ∀ (m : Machine) (token : Token), m.store = S.store → token.lexeme = name →
            Run.assignIn e token value m =
              .error (.error ⟨token.line, .undefinedVariable name⟩) m) ∧
        ∀ d outer, S.BindsFirst e.frames name d outer →
          (∃ value, S.binding? outer name = some value ∧ S.store.lookup? e name = some value ∧
            S.store.getAt e d name = .ok value) ∧
          ∀ value, ∃ S', S.perform? (.assign frame name value) = some S' ∧
            S.perform? (.assignAt frame d name value) = some S' ∧
            S.Rebound S' outer name value ∧
            (∀ (m : Machine) (token : Token), m.store = S.store → token.lexeme = name →
              Run.assignIn e token value m = .ok () { m with store := S'.store }) ∧
            ∀ e' ∈ S.environments, ∀ k, e'.frames[k]? = some outer →
              S'.store.getAt e' k name = .ok value ∧
              (S.BindsFirst e'.frames name k outer → S'.store.lookup? e' name = some value) := by
  intro S
  have linked : S.Linked := Scopes.linked_after ops
  refine ⟨⟨_, rfl, linked.grown [] rfl rfl⟩, fun more frame old => ?_, fun frame old => ?_⟩
  · exact Scopes.parent?_of_prefix (Scopes.environments_of_steps (Scopes.steps_after ops more)) old
  have here := List.getElem?_eq_getElem old
  generalize S.environments[frame] = e at here
  have own : some e.frame = some frame := congrArg some (linked.frame here)
  -- Every frame of the environment is there, so a name can be bound in it.
  have inside {outer : Nat} (mem : outer ∈ e.frames) (name : String) (value : Value) :=
    linked.rebound (linked.lt_of_mem here mem) name value
  refine ⟨e, here, ⟨_, Scopes.perform?_child here, ?_⟩, fun name value => ?_, linked.chain_iff here,
    fun d => ?_, fun d outer => Store.ancestor_ok_iff, fun d outer there name value => ?_,
    fun name => ⟨S.bindsFirst_or_unbound _ _, fun unbound => ?_, fun d outer first => ?_⟩⟩
  · exact own ▸ linked.grown e.frames rfl rfl
  · refine ⟨_, Scopes.perform?_define here name value, ?_⟩
    exact Option.some.inj own ▸ inside List.mem_cons_self name value
  · simp only [Store.ancestor_ok_iff, ← Option.isSome_iff_exists]
    exact e.ancestor?_isSome_iff d
  · exact ⟨_, Scopes.perform?_assignAt here there name value,
      inside (List.mem_of_getElem? there) name value⟩
  · refine ⟨unbound.lookup?, fun value => ⟨Scopes.perform?_assign_none here unbound value, ?_⟩⟩
    rintro m token store rfl
    exact Run.assignIn_unbound (store ▸ unbound.binder?) value
  · obtain ⟨value, found⟩ := Option.ne_none_iff_exists'.mp first.bound
    refine ⟨⟨value, found, first.lookup?.trans found, first.getAt found⟩, fun value => ?_⟩
    -- Assigning by name and by distance bind the name in the same frame.
    have again := inside (List.mem_of_getElem? first.here) name value
    refine ⟨_, Scopes.perform?_assign here first value,
      Scopes.perform?_assignAt here first.here name value, again, ?_, ?_⟩
    · rintro m token store rfl
      rw [Run.assignIn_bound (store ▸ first.binder?) value, store]
    · intro e' _ k there
      refine ⟨?_, fun first' => ?_⟩
      · rw [Store.getAt_eq name there, ← Scopes.binding?, again.bound]
      · exact (first'.rebound again).lookup?.trans again.bound

/-- The inner frame changes the outer name until it binds the name itself. -/
example :
    let S := Scopes.after [.new, .define 0 "a" .nil, .child 0, .assign 1 "a" (.bool true),
      .define 1 "a" .nil, .assign 1 "a" (.bool false)]
    S.binding? 0 "a" = some (.bool true) ∧ S.binding? 1 "a" = some (.bool false) :=
  ⟨by rfl, by rfl⟩

end Lox
