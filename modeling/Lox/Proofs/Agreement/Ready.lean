import Lox.Proofs.Agreement.Invariant

/-!
# Tasks that are ready

A task is ready on a machine that fits, in an environment that fits its place. What comes in the
course of a ready task is ready.
-/

namespace Lox

/-! ### Later machines in the same environment -/

/-- A later machine that is back in the same environment. -/
structure Machine.Follows (m later : Machine) : Prop where
  grown : m.Extends later
  current : later.current = m.current

namespace Machine.Follows

theorem refl (m : Machine) : m.Follows m := ⟨.refl m, rfl⟩

theorem trans {m₁ m₂ m₃ : Machine} (h : m₁.Follows m₂) (h' : m₂.Follows m₃) : m₁.Follows m₃ :=
  ⟨h.grown.trans h'.grown, h'.current.trans h.current⟩

end Machine.Follows

/-! ### Frames of calls -/

namespace Closure

variable {f : Closure} {arguments : List Value}

/-- The frame of a call is the table of the names of the parameters with the arguments. -/
theorem frame_eq_ofList (f : Closure) (arguments : List Value) :
    f.frame arguments = Std.TreeMap.ofList ((f.params.map Token.lexeme).zip arguments) := by
  have fold (parts : List (Token × Value)) (bs : Bindings) :
      parts.foldl (fun bs part => bs.insert part.1.lexeme part.2) bs =
        bs.insertMany (parts.map (Prod.map Token.lexeme id)) := by
    induction parts generalizing bs with
    | nil => exact Std.TreeMap.insertMany_nil.symm
    | cons part parts ih =>
      rw [List.foldl_cons, ih]
      exact Std.TreeMap.insertMany_cons.symm
  rw [List.zip_map_left]
  exact fold _ ∅

/-- What the frame binds is among the arguments. -/
theorem mem_of_getElem?_frame {x : String} {v : Value} (h : (f.frame arguments)[x]? = some v) :
    v ∈ arguments := by
  rw [frame_eq_ofList, Std.TreeMap.ofList_eq_insertMany_empty,
    Std.TreeMap.getElem?_insertMany_list, Std.TreeMap.getElem?_emptyc, Option.or_none,
    List.findSomeRev?_eq_findSome?_reverse] at h
  obtain ⟨part, mem, same⟩ := List.exists_of_findSome?_eq_some h
  dsimp only at same
  split at same
  · obtain rfl := Option.some.inj same
    exact (List.of_mem_zip (List.mem_reverse.mp mem)).2
  · cases same

theorem contains_frame_iff (arity : arguments.length = f.arity) (x : String) :
    (f.frame arguments).contains x = true ↔ ∃ p ∈ f.params, p.lexeme = x := by
  have enough : (f.params.map Token.lexeme).length ≤ arguments.length := by
    rw [List.length_map]
    exact Nat.le_of_eq arity.symm
  rw [frame_eq_ofList, Std.TreeMap.contains_ofList, List.map_fst_zip enough,
    List.contains_iff_mem, List.mem_map]

end Closure

def Task.code : Task → List Code
  | .evaluate _ e => [.expr e]
  | .evaluateAll _ es => es.map .expr
  | .execute _ s => [.stmt s]
  | .executeAll _ ss => ss.map .stmt
  | .repeatWhile _ condition body _ => [.expr condition, .stmt body]
  | .invoke _ _ _ | .call _ _ _ | .bind _ _ => []

namespace World

variable {w : World} {m m' : Machine} {ls : Levels}

/-! ### Environments -/

/-- From any scope on, the environment fits the scopes that are left. -/
theorem Fits.drop {s : Store} {e : Environment} (fits : w.Fits s e ls) {d : Nat}
    (bound : d ≤ ls.length) : ∃ e' : Environment, e'.frames = e.frames.drop d ∧
      w.Fits s e' (ls.drop d) := by
  induction fits generalizing d with
  | global =>
    obtain rfl : d = 0 := Nat.le_zero.mp bound
    exact ⟨.global, rfl, .global⟩
  | @child a outer e l ls inside made ih =>
    cases d with
    | zero => exact ⟨e, rfl, .child inside made⟩
    | succ d =>
      obtain ⟨e', frames, fits⟩ := ih (Nat.le_of_succ_le_succ bound)
      refine ⟨e', ?_, fits⟩
      rw [frames, show e.frames = e.frame :: outer.frames from
        congrArg (e.frame :: ·) made.enclosing]
      rfl

theorem Fits.length {s : Store} {e : Environment} (fits : w.Fits s e ls) :
    e.frames.length = ls.length + 1 := by
  induction fits with
  | global => rfl
  | child _ made ih =>
    rw [Environment.frames, made.enclosing, List.length_cons, ih, List.length_cons]

theorem Fits.level {s : Store} {e : Environment} (fits : w.Fits s e ls) {d : Nat} {l : Level}
    (here : ls[d]? = some l) :
    ∃ frame a outer, e.frames[d]? = some frame ∧ d + 1 < e.frames.length ∧
      w.FrameFor s a outer ⟨frame, e.frames.drop (d + 1)⟩ l (ls.drop (d + 1)) := by
  have bound : d < ls.length := (List.getElem?_eq_some_iff.mp here).1
  obtain ⟨e', frames, inner⟩ := fits.drop (Nat.le_of_lt bound)
  have length := fits.length
  rw [List.drop_eq_getElem_cons bound] at inner
  cases inner with
  | @child a outer _ _ _ inside made =>
    obtain rfl : ls[d] = l := by simpa [List.getElem?_eq_getElem bound] using here
    have split := List.drop_eq_getElem_cons (l := e.frames) (i := d) (by omega)
    rw [← frames] at split
    obtain ⟨head, tail⟩ := List.cons.inj split
    refine ⟨e'.frame, a, outer, ?_, by omega, ?_⟩
    · rw [List.getElem?_eq_getElem (by omega), head]
    · rw [← tail]
      exact made

theorem Fits.frame_lt {s : Store} {e : Environment} {l : Level} (fits : w.Fits s e (l :: ls)) :
    e.frame < s.frames.size := by
  cases fits with
  | child _ made => exact made.bound

/-- No declaration of the innermost scope is under way. -/
def Settled (ls : Levels) : Prop :=
  ∀ l : Level, ls.head? = some l → ∀ x : String, l.scope[x]? ≠ some false

theorem Settled.nil : Settled [] := by
  intro l here
  cases here

variable (w) in
/-- Code with these scopes around it may run in the current environment. -/
structure Place (m : Machine) (ls : Levels) : Prop where
  fits : w.Fits m.store m.current ls
  body : ls.AtBody

theorem Place.follows (place : w.Place m ls) (h : m.Follows m') : w.Place m' ls := by
  refine ⟨?_, place.body⟩
  rw [h.current]
  exact place.fits.mono h.grown.store

theorem Fits.modifyHead {s : Store} {e : Environment} (fits : w.Fits s e ls) {f : Level → Level}
    (site : ∀ l, (f l).site = l.site)
    (change : ∀ l, ls.head? = some l → e.frame < s.frames.size → w.Binds s e l →
      w.Binds s e (f l)) : w.Fits s e (ls.modifyHead f) := by
  cases fits with
  | global => exact .global
  | @child a outer _ l ls inside made =>
    refine .child inside ⟨made.happened, ?_, made.enclosing, made.positive, made.bound,
      change l rfl made.bound made.binds, ?_⟩
    · rw [site l]
      exact made.opens
    · have anchors := made.anchors
      unfold Anchors at anchors ⊢
      rw [site l]
      exact anchors

theorem Settled.introduce (settled : Settled ls) (x : String) : Settled (ls.introduce x) := by
  cases ls with
  | nil => exact .nil
  | cons l outer =>
    intro l' here y
    obtain rfl := Option.some.inj here
    have same := settled l rfl y
    simp only [Level.introduce, Level.put, Std.TreeMap.getElem?_insert]
    split
    · simp
    · exact same

theorem Fits.introduce {s : Store} {e : Environment} (fits : w.Fits s e ls)
    (settled : Settled ls) {name : Token} (isName : name.IsName)
    (bound : e.frame < s.frames.size → (s.bindings e.frame).contains name.lexeme = true) :
    w.Fits s e (ls.introduce name.lexeme) := by
  refine fits.modifyHead (fun _ => rfl) fun l here frame binds =>
    ⟨fun y complete => ?_, fun y pending => ?_, binds.words.introduce isName⟩
  · simp only [Level.introduce, Level.put, Std.TreeMap.getElem?_insert] at complete
    split at complete
    next same => exact (show name.lexeme = y by simpa using same) ▸ bound frame
    · exact binds.complete y complete
  · simp only [Level.introduce, Level.put, Std.TreeMap.getElem?_insert] at pending
    split at pending
    · cases pending
    · exact absurd pending (settled l here y)

theorem Settled.after (settled : Settled ls) (s : Stmt) : Settled (s.after ls) := by
  unfold Stmt.after
  cases s.declared? with
  | none => exact settled
  | some x => exact settled.introduce x

/-- After a statement its declaration is complete. -/
theorem Place.after {n : Nat} {s : Stmt} {flow : Flow} (place : w.Place m ls) (proper : s.Proper)
    (settled : Settled ls) (ran : execute n s m = .ok flow m') (h : m.Follows m') :
    w.Place m' (s.after ls) := by
  have later := place.follows h
  unfold Stmt.after
  cases declares : s.declared? with
  | none => exact later
  | some x =>
    cases ls with
    | nil => exact later
    | cons l outer =>
      obtain ⟨name, isName, rfl⟩ := proper.isName_declared declares
      refine ⟨later.fits.introduce settled isName fun _ => ?_, later.body.modifyHead fun _ => rfl⟩
      rw [h.current]
      exact execute_binds declares place.fits.frame_lt ran

/-- In an initializer the declaration of its variable is under way. -/
theorem Place.inInitializer {n : Nat} {name : Token} {e : Expr} (place : w.Place m ls)
    (isName : name.IsName) (settled : Settled ls)
    (happened : w.happened ⟨.execute n (.var name (some e)), m⟩) :
    w.Place m (ls.modifyHead (·.inInitializer name e)) := by
  refine ⟨place.fits.modifyHead (fun _ => rfl) fun l here frame binds => ⟨fun y complete => ?_,
    fun y pending => ?_, binds.words.inInitializer isName e⟩, place.body.modifyHead fun _ => rfl⟩
  · simp only [Level.inInitializer, Level.put, Std.TreeMap.getElem?_insert] at complete
    split at complete
    · cases complete
    · exact binds.complete y complete
  · simp only [Level.inInitializer, Level.put, Std.TreeMap.getElem?_insert] at pending
    split at pending
    next same =>
      exact ⟨name, e, n, m, rfl, by simpa using same, happened, rfl, (Machine.Extends.refl m).store⟩
    · exact absurd pending (settled l here y)

theorem Fits.push {l : Level} {outer : Environment} {bindings : Bindings} {a : Moment}
    (fits : w.Fits m.store outer ls) (positive : 0 < m.store.frames.size) (happened : w.happened a)
    (opens : Opens a l.site (m.child outer)) (settled : ∀ x : String, l.scope[x]? ≠ some false)
    (bound : ∀ x : String, l.scope[x]? = some true → bindings.contains x = true)
    (words : l.KeepsWords)
    (anchors : w.Anchors (m.push outer bindings).store a outer (m.child outer) l ls) :
    w.Fits (m.push outer bindings).store (m.child outer) (l :: ls) := by
  refine .child (fits.mono (Machine.Extends.push m outer bindings).store) ⟨happened, opens, rfl,
    positive, ?_, ⟨fun x complete => ?_, fun x pending => absurd pending (settled x), words⟩, anchors⟩
  · rw [Machine.push, Store.size_newChild]
    exact Nat.lt_succ_self _
  · rw [Machine.bindings_push]
    exact bound x complete

/-! ### Scopes of functions -/

theorem getElem?_introduceAll (params : List Token) (l : Level) (x : String) :
    (params.foldl (fun l p => l.introduce p.lexeme) l).scope[x]? =
      if ∃ p ∈ params, p.lexeme = x then some true else l.scope[x]? := by
  induction params generalizing l with
  | nil => simp
  | cons p params ih =>
    rw [List.foldl_cons, ih]
    simp only [Level.introduce, Level.put, Std.TreeMap.getElem?_insert, List.mem_cons,
      exists_eq_or_imp]
    by_cases others : ∃ p ∈ params, p.lexeme = x
    · simp [others]
    · by_cases same : p.lexeme = x
      · simp [same]
      · simp [others, same]

theorem getElem?_function (params : List Token) (body : List Stmt) (x : String) :
    (Level.function params body).scope[x]? = if ∃ p ∈ params, p.lexeme = x then some true else none :=
  getElem?_introduceAll params _ x

theorem site_function (params : List Token) (body : List Stmt) :
    (Level.function params body).site = .function params body := by
  have fold (l : Level) : (params.foldl (fun l p => l.introduce p.lexeme) l).site = l.site := by
    induction params generalizing l with
    | nil => rfl
    | cons p params ih => exact ih _
  exact fold _

/-! ### Readiness -/

variable (w) in
/-- A method that may be bound to an instance: its class is above the class of the instance. -/
def Bindable (s : Store) (method : Closure) (id : Nat) : Prop :=
  ∃ (c : Class) (i : Instance) (name : String), s.instances[id]? = some i ∧ c ∈ i.cls.lineage ∧
    c.own[name]? = some method ∧ w.MethodFits s c method

variable (w) in
def Ready (a : Moment) : Prop :=
  w.Heap a.machine ∧ (∀ c ∈ a.task.code, w.holds c) ∧
  match a.task with
  | .evaluate _ e => ∃ ls, w.Place a.machine ls ∧ w.OccursIn (e.occurrences ls)
  | .evaluateAll _ es => ∃ ls, w.Place a.machine ls ∧ w.OccursIn (Expr.occurrencesAll ls es)
  | .execute _ s => ∃ ls, w.Place a.machine ls ∧ Settled ls ∧ w.OccursIn (s.occurrences ls)
  | .executeAll _ ss =>
    ∃ ls, w.Place a.machine ls ∧ Settled ls ∧ w.OccursIn (Stmt.occurrencesAll ls ss)
  | .repeatWhile _ condition body _ =>
    ∃ ls, w.Place a.machine ls ∧ Settled ls ∧ w.OccursIn (condition.occurrences ls) ∧
      w.OccursIn (body.occurrences ls)
  | .invoke _ callee arguments =>
    w.ValueFits a.machine.store callee ∧ (∀ v ∈ arguments, w.ValueFits a.machine.store v) ∧
      callee.arity? = some arguments.length
  | .call _ f arguments =>
    w.ClosureFits a.machine.store f ∧ (∀ v ∈ arguments, w.ValueFits a.machine.store v) ∧
      arguments.length = f.arity
  | .bind method id => w.Bindable a.machine.store method id

namespace Ready

variable {n k : Nat}

theorem holds_expr {e : Expr} (h : w.Ready ⟨.evaluate n e, m⟩) : w.holds (.expr e) :=
  h.2.1 _ List.mem_cons_self

theorem holds_stmt {s : Stmt} (h : w.Ready ⟨.execute n s, m⟩) : w.holds (.stmt s) :=
  h.2.1 _ List.mem_cons_self

theorem code_single {c : Code} (holds : w.holds c) : ∀ d ∈ [c], w.holds d := by
  intro d mem
  obtain rfl := List.mem_singleton.mp mem
  exact holds

theorem part {e part : Expr} (h : w.Ready ⟨.evaluate n e, m⟩) (heap : w.Heap m')
    (later : m.Follows m') (mem : .expr part ∈ e.parts)
    (sub : ∀ ls : Levels, ∀ o ∈ part.occurrences ls, o ∈ e.occurrences ls) :
    w.Ready ⟨.evaluate k part, m'⟩ := by
  obtain ⟨-, code, ls, place, occurs⟩ := h
  exact ⟨heap, code_single (w.part (code _ List.mem_cons_self) mem), ls, place.follows later,
    fun o ho => occurs o (sub ls o ho)⟩

theorem first {e part : Expr} (h : w.Ready ⟨.evaluate n e, m⟩) (first : e.first? = some part) :
    w.Ready ⟨.evaluate k part, m⟩ := by
  refine h.part h.1 (.refl m) ?_ fun ls o ho => ?_
  · cases e <;> cases first <;> exact List.mem_cons_self
  · cases e <;> cases first <;> simp only [Expr.occurrences, List.mem_append, ho, true_or, or_true]

end Ready

end World

end Lox
