import Lox.Proofs.ClassDeclaration
import Lox.Proofs.History
import Lox.Proofs.Proper

/-!
# The current environment is restored

Whatever a run does and however it ends, it goes back to the environment in which it began. So every
step of a session begins in the global environment, and `current_restored` says what that means for
the names that a step declares.
-/

namespace Lox

/-! ### What every step keeps -/

/-- A later machine: frames and instances stay, bound names stay bound, and no distance changes. -/
structure Machine.Grows (m later : Machine) : Prop where
  frames : m.store.frames.size ≤ later.store.frames.size
  names : ∀ frame name, (m.store.bindings frame).contains name = true →
    (later.store.bindings frame).contains name = true
  instances : ∀ (id : Nat) i, m.store.instances[id]? = some i →
    ∃ j, later.store.instances[id]? = some j ∧ j.cls = i.cls
  distances : later.distances = m.distances

theorem Store.contains_define {s : Store} {frame other : Nat} {name x : String} {value : Value}
    (h : (s.bindings other).contains x = true) :
    ((s.define frame name value).bindings other).contains x = true := by
  rw [bindings_define]
  split
  · rw [Std.TreeMap.contains_insert, h, Bool.or_true]
  · exact h

theorem Store.contains_define_self {s : Store} {frame : Nat} (name : String) (value : Value)
    (h : frame < s.frames.size) :
    ((s.define frame name value).bindings frame).contains name = true := by
  rw [bindings_define, if_pos ⟨rfl, h⟩]
  exact Std.TreeMap.contains_insert_self

theorem Store.bindings_of_size_le {s : Store} {frame : Nat} (h : s.frames.size ≤ frame) :
    s.bindings frame = ∅ := by
  rw [bindings, Array.getD_eq_getD_getElem?, Array.getElem?_eq_none h]
  rfl

theorem Store.bindings_newChild_of_contains {s : Store} (outer : Environment) {bs : Bindings}
    {frame : Nat} {x : String} (h : (s.bindings frame).contains x = true) :
    ((s.newChild outer bs).2.bindings frame).contains x = true := by
  rw [bindings_newChild, if_neg]
  · exact h
  · rintro rfl
    rw [bindings_of_size_le (Nat.le_refl _)] at h
    simp at h

theorem Store.size_newChild (s : Store) (outer : Environment) (bs : Bindings) :
    (s.newChild outer bs).2.frames.size = s.frames.size + 1 := Array.size_push _

theorem grows : StepRelation Machine.Grows where
  refl _ := ⟨Nat.le_refl _, fun _ _ h => h, fun _ i h => ⟨i, h, rfl⟩, rfl⟩
  trans h₁ h₂ := by
    refine ⟨Nat.le_trans h₁.frames h₂.frames, fun f x h => h₂.names f x (h₁.names f x h), ?_,
      h₂.distances.trans h₁.distances⟩
    intro id i h
    obtain ⟨j, hj, hij⟩ := h₁.instances id i h
    obtain ⟨k, hk, hjk⟩ := h₂.instances id j hj
    exact ⟨k, hk, hjk.trans hij⟩
  define m frame name value :=
    ⟨Nat.le_of_eq (m.store.size_frames_define frame name value).symm,
      fun _ _ => Store.contains_define, fun _ i h => ⟨i, h, rfl⟩, rfl⟩
  newChild m outer bs :=
    ⟨by rw [Store.size_newChild]; omega,
      fun _ _ => Store.bindings_newChild_of_contains outer,
      fun _ i h => ⟨i, h, rfl⟩, rfl⟩
  newId _ := ⟨Nat.le_refl _, fun _ _ h => h, fun _ i h => ⟨i, h, rfl⟩, rfl⟩
  newInstance m c := by
    refine ⟨Nat.le_refl _, fun _ _ h => h, fun id i h => ⟨i, ?_, rfl⟩, rfl⟩
    have bound : id < m.store.instances.size := (Array.getElem?_eq_some_iff.mp h).1
    rw [Store.newInstance, Array.getElem?_push_lt bound]
    exact (Array.getElem?_eq_getElem bound).symm.trans h
  setField m id name value := by
    refine ⟨Nat.le_refl _, fun _ _ h => h, fun other i h => ?_, rfl⟩
    simp only [Store.setField, Array.getElem?_modify, h]
    split
    · exact ⟨_, rfl, rfl⟩
    · exact ⟨i, rfl, rfl⟩
  print _ _ := ⟨Nat.le_refl _, fun _ _ h => h, fun _ i h => ⟨i, h, rfl⟩, rfl⟩
  tick _ := ⟨Nat.le_refl _, fun _ _ h => h, fun _ i h => ⟨i, h, rfl⟩, rfl⟩
  within h := ⟨h.frames, h.names, h.instances, h.distances⟩

/-! ### Sessions -/

theorem Session.current_afterAll (clock : Clock) (history : List Entry) :
    ((Session.initial clock).afterAll history).machine.current = .global :=
  machine_afterAll (P := fun m => m.current = .global) history
    (fun s p h => (keepsCurrent.respects_program p (s.start p)).trans h) rfl

theorem Session.size_afterAll (clock : Clock) (history : List Entry) :
    0 < ((Session.initial clock).afterAll history).machine.store.frames.size :=
  machine_afterAll (P := fun m => 0 < m.store.frames.size) history
    (fun s p h => Nat.lt_of_lt_of_le h (grows.respects_program p (s.start p)).frames) Nat.one_pos

/-! ### Declarations -/

theorem Run.assignIn_ok {frame : Nat} {name : Token} {value : Value} {m after : Machine}
    (h : Run.assignIn ⟨frame, []⟩ name value m = .ok () after) :
    after.store = m.store.define frame name.lexeme value := by
  unfold Run.assignIn at h
  rw [get_bind] at h
  cases found : m.store.binder? ⟨frame, []⟩ name.lexeme with
  | none =>
    rw [found] at h
    cases h
  | some binder =>
    rw [found] at h
    obtain rfl : binder = frame := by
      have := List.mem_of_find?_eq_some found
      simpa [Environment.frames] using this
    cases h
    rfl

/-- A class is made between the definition of its name and the assignment. -/
theorem declareClass_ok {name : Token} {superclass : Option Use} {methods : List FunctionDecl}
    {m after : Machine} (h : declareClass name superclass methods m = .ok () after) :
    ∃ (cls : Class) (mid : Machine),
      Machine.Grows { m with store := m.store.define m.current.frame name.lexeme .nil } mid ∧
      Run.assignIn m.current name (.cls cls) mid = .ok () after := by
  obtain ⟨_, defined, hd, h⟩ := bind_ok h
  cases hd
  obtain ⟨above, found, looked, h⟩ := bind_ok h
  obtain ⟨cls, mid, made, h⟩ := bind_ok h
  have same := (keepsCurrent.respects_superclass superclass).of_ok looked
  have back := (current_makeClass _ _ _).of_ok made
  rw [get_bind, back, same] at h
  exact ⟨cls, mid, grows.trans ((grows.respects_superclass superclass).of_ok looked)
    ((grows.respects_makeClass _ _ _).of_ok made), h⟩

/-- A declaration ends with the definition of its name in the current frame. -/
theorem execute_declares {n : Nat} {s : Stmt} {m after : Machine} {flow : Flow} {x : String}
    (hs : s.declared? = some x) (outermost : m.current.enclosing = [])
    (h : execute n s m = .ok flow after) :
    ∃ (before : Machine) (value : Value), m.store.frames.size ≤ before.store.frames.size ∧
      after.store = before.store.define m.current.frame x value := by
  cases n with
  | zero => cases h
  | succ n =>
    rw [execute_succ] at h
    cases s with
    | var name initializer =>
      obtain rfl := Option.some.inj hs
      have heval := grows.respects_evaluateOption (grows.respects_evaluate (n + 1)) initializer
      have hsame :=
        keepsCurrent.respects_evaluateOption (keepsCurrent.respects_evaluate (n + 1)) initializer
      obtain ⟨value, mid, ran, h⟩ := bind_ok h
      cases h
      refine ⟨mid, value, (heval.of_ok ran).frames, ?_⟩
      rw [← hsame.of_ok ran]
    | function declaration =>
      obtain rfl := Option.some.inj hs
      cases h
      exact ⟨{ m with store := m.store.newId.2 }, _, Nat.le_refl _, rfl⟩
    | classDecl name superclass methods =>
      obtain rfl := Option.some.inj hs
      obtain ⟨_, declared, h, ending⟩ := bind_ok h
      cases ending
      obtain ⟨cls, mid, made, h⟩ := declareClass_ok h
      have size := (grows.trans (grows.define m _ _ _) made).frames
      refine ⟨mid, .cls cls, size, Run.assignIn_ok (?_ : Run.assignIn _ name _ mid = _)⟩
      rw [← outermost]
      exact h
    | _ => cases hs

/-- After a declaration its name is bound in the current frame. -/
theorem execute_binds {n : Nat} {s : Stmt} {m after : Machine} {flow : Flow} {x : String}
    (hs : s.declared? = some x) (exists_frame : m.current.frame < m.store.frames.size)
    (h : execute n s m = .ok flow after) :
    (after.store.bindings m.current.frame).contains x = true := by
  cases n with
  | zero => cases h
  | succ n =>
    rw [execute_succ] at h
    cases s with
    | var name initializer =>
      obtain rfl := Option.some.inj hs
      have heval := grows.respects_evaluateOption (grows.respects_evaluate (n + 1)) initializer
      have hsame :=
        keepsCurrent.respects_evaluateOption (keepsCurrent.respects_evaluate (n + 1)) initializer
      obtain ⟨value, mid, ran, h⟩ := bind_ok h
      cases h
      rw [← hsame.of_ok ran] at exists_frame ⊢
      exact Store.contains_define_self _ _
        (Nat.lt_of_lt_of_le exists_frame (heval.of_ok ran).frames)
    | function declaration =>
      obtain rfl := Option.some.inj hs
      cases h
      exact Store.contains_define_self _ _ exists_frame
    | classDecl name superclass methods =>
      obtain rfl := Option.some.inj hs
      obtain ⟨_, declared, h, ending⟩ := bind_ok h
      cases ending
      obtain ⟨cls, mid, made, h⟩ := declareClass_ok h
      have assigned := (grows.respects_assignIn m.current name (.cls cls)).of_ok h
      exact assigned.names _ _ (made.names _ _ (Store.contains_define_self _ _ exists_frame))
    | _ => cases hs

/-- Each declaration of a run from the global environment ends in a definition in the global
frame. -/
theorem interpret_declares {before later : List Stmt} {s : Stmt} {m after : Machine} {x : String}
    (hs : s.declared? = some x) (outermost : m.current = .global)
    (h : interpret (before ++ s :: later) m = .ok () after) :
    ∃ (prior declared : Machine) (value : Value),
      interpret (before ++ [s]) m = .ok () declared ∧
      m.store.frames.size ≤ prior.store.frames.size ∧
      declared.store = prior.store.define Environment.global.frame x value ∧
      declared.Grows after := by
  rw [List.append_cons] at h
  obtain ⟨declared, ran, rest⟩ := interpret_append_ok h
  obtain ⟨start, front, last⟩ := interpret_append_ok ran
  obtain ⟨flow, ended, last, hend⟩ := bind_ok last
  cases hend
  have current : start.current = .global :=
    ((keepsCurrent.respects_interpret before).of_ok front).trans outermost
  obtain ⟨prior, value, size, written⟩ := execute_declares hs (by rw [current]; rfl) last
  rw [current] at written
  have start_size := ((grows.respects_interpret before).of_ok front).frames
  exact ⟨prior, declared, value, ran, Nat.le_trans start_size size, written,
    (grows.respects_interpret later).of_ok rest⟩

/-- What a program has bound when its statements stop stays bound to its end. -/
theorem grows_program {p : Program} {m mid : Machine} {rest : List Stmt}
    (ends : (rest = [] ∧ interpret p.statements m = .ok () mid) ∨
      ∃ s rest' a after, rest = s :: rest' ∧ s.execute mid = .error a after ∧
        interpret p.statements m = .error a after) : mid.Grows (stateAfter p.run m) := by
  obtain ⟨-, ran⟩ | ⟨s, rest', a, after, -, stopped, ran⟩ := ends
  · have trailing := grows.respects_program { p with statements := [] } mid
    unfold stateAfter at trailing ⊢
    have whole : p.run m = ({ p with statements := [] } : Program).run mid := bind_of_ok ran
    rwa [whole]
  · have step : mid.Grows (stateAfter s.execute mid) := grows.respects_execute limit s mid
    have whole : p.run m = .error a after := bind_of_error ran
    rwa [stateAfter_error stopped, ← stateAfter_error whole] at step

/-- A run ends in the environment in which it began, on every path; so each entry of a session
begins in the global environment, and the top-level names that it declares up to its end, or up to
the statement that stops it, are bound in the global frame. -/
theorem current_restored :
    (∀ n s m, (stateAfter (execute n s) m).current = m.current) ∧
    (∀ n e m, (stateAfter (evaluate n e) m).current = m.current) ∧
    (∀ n e body m,
      (stateAfter (Run.within e (executeAll (execute n) body)) m).current = m.current) ∧
    (∀ name superclass methods m,
      (stateAfter (declareClass name superclass methods) m).current = m.current) ∧
    (∀ n (callee : Value) arguments m,
      (stateAfter (callee.invoke (execute n) arguments) m).current = m.current) ∧
    ∀ clock history,
      let s := (Session.initial clock).afterAll history
      s.machine.current = .global ∧
      ∀ entry p, s.Executes entry p →
        ∃ done rest mid, p.statements = done ++ rest ∧ interpret done (s.start p) = .ok () mid ∧
          (rest = [] ∨ ∃ stopped rest' a after,
            rest = stopped :: rest' ∧ stopped.execute mid = .error a after) ∧
          ∀ before st later x, done = before ++ st :: later → st.declared? = some x →
            (∃ (store : Store) (declared : Machine) (value : Value),
              interpret (before ++ [st]) (s.start p) = .ok () declared ∧
              declared.store = store.define Environment.global.frame x value) ∧
            ((s.enter entry).2.machine.store.bindings Environment.global.frame).contains x := by
  refine ⟨fun n => keepsCurrent.respects_execute n, fun n => keepsCurrent.respects_evaluate n,
    fun n e body => ?_, keepsCurrent.respects_declareClass, fun n => ?_,
    fun clock history => ⟨Session.current_afterAll clock history, ?_⟩⟩
  · exact keepsCurrent.respects_within
      (keepsCurrent.respects_executeAll (keepsCurrent.respects_execute n) body)
  · exact keepsCurrent.respects_invoke (keepsCurrent.respects_execute n)
  intro entry p executes
  obtain ⟨done, rest, mid, split, ran, ends⟩ := interpret_split p.statements (Session.start _ p)
  refine ⟨done, rest, mid, split, ran, ?_, ?_⟩
  · obtain ⟨none, -⟩ | ⟨stopped, rest', a, after, some, stop, -⟩ := ends
    · exact .inl none
    · exact .inr ⟨stopped, rest', a, after, some, stop⟩
  intro before st later x here declares
  have outermost : (Session.start _ p).current = .global := Session.current_afterAll clock history
  rw [here] at ran
  obtain ⟨prior, declared, value, upto, size, written, kept⟩ :=
    interpret_declares declares outermost ran
  refine ⟨⟨prior.store, declared, value, upto, written⟩, ?_⟩
  have bound := Nat.lt_of_lt_of_le (Session.size_afterAll clock history) size
  have final := grows_program ends
  rw [Session.enter_machine executes]
  refine final.names _ _ (kept.names _ _ ?_)
  rw [written]
  exact Store.contains_define_self x value bound

end Lox
