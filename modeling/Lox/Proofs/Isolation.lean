import Lox.Proofs.Isolation.Reachable

/-!
# Code changes only what it can reach

`frames_isolated`: a frame or an instance that cannot be reached from the environment in which an
expression or a statement runs stays as it is, and nothing that could not be reached before can be
reached afterwards, but for what is new.
-/

namespace Lox

/-- A step from `s` of a run that began on `m` keeps to the territory of the run, and what it
yields is as promised. -/
structure Keeps (m : Machine) (p : Run α) (s : Machine) (Q : Machine → α → Prop) : Prop where
  grows : s.store.Grows (stateAfter p s).store
  confined : Confined m (stateAfter p s)
  ok : ∀ {a after}, p s = .ok a after → Q after a

/-- The value and all that it refers to belong to the territory of the run from `m` to `s`. -/
abbrev Machine.Owns (m s : Machine) (v : Value) : Prop := v.Within (m.Territory s)

namespace Keeps

variable {m s : Machine} {p : Run α} {f : α → Run β} {Q Q' : Machine → α → Prop}
  {S : Machine → β → Prop}

theorem pure (here : Confined m s) {a : α} (h : Q s a) : Keeps m (pure a) s Q :=
  ⟨fun _ h => h, here, fun ran => by cases ran; exact h⟩

theorem throw (here : Confined m s) (a : Abort) : Keeps m (throw a : Run α) s Q :=
  ⟨fun _ h => h, here, nofun⟩

theorem fail (here : Confined m s) (token : Token) (fault : RuntimeFault) :
    Keeps m (Run.fail token fault : Run α) s Q := throw here _

theorem of_ok {a : α} {after : Machine} (ran : p s = .ok a after)
    (grows : s.store.Grows after.store) (there : Confined m after)
    (h : Q after a) : Keeps m p s Q := by
  refine ⟨?_, ?_, fun {b last} ran' => ?_⟩
  · rwa [stateAfter_ok ran]
  · rwa [stateAfter_ok ran]
  · rw [ran] at ran'
    cases ran'
    exact h

theorem of_error {a : Abort} {after : Machine} (ran : p s = .error a after)
    (grows : s.store.Grows after.store) (there : Confined m after) :
    Keeps m p s Q := by
  refine ⟨?_, ?_, fun {b last} ran' => ?_⟩
  · rwa [stateAfter_error ran]
  · rwa [stateAfter_error ran]
  · rw [ran] at ran'
    cases ran'

theorem bind (hp : Keeps m p s Q)
    (hf : ∀ a after, s.store.Grows after.store → Confined m after → Q after a →
      Keeps m (f a) after S) : Keeps m (p >>= f) s S := by
  obtain ⟨grows, there, yields⟩ := hp
  cases ran : p s with
  | error a after =>
    rw [stateAfter_error ran] at grows there
    exact of_error (bind_of_error ran) grows there
  | ok a after =>
    rw [stateAfter_ok ran] at grows there
    have rest := hf a after grows there (yields ran)
    cases ran' : f a after with
    | error b last =>
      obtain ⟨grows', there', -⟩ := rest
      rw [stateAfter_error ran'] at grows' there'
      exact of_error ((bind_of_ok ran).trans ran') (fun x h => grows' x (grows x h)) there'
    | ok b last =>
      obtain ⟨grows', there', yields'⟩ := rest
      rw [stateAfter_ok ran'] at grows' there'
      exact of_ok ((bind_of_ok ran).trans ran') (fun x h => grows' x (grows x h)) there'
        (yields' ran')

theorem get {g : Machine → Run β} (h : Keeps m (g s) s S) : Keeps m (MonadState.get >>= g) s S :=
  ⟨h.grows, h.confined, h.ok⟩

theorem mono (h : Keeps m p s Q) (sub : ∀ s a, Q s a → Q' s a) : Keeps m p s Q' :=
  ⟨h.grows, h.confined, fun ran => sub _ _ (h.ok ran)⟩

/-- What runs in an environment of its own ends where it began. The promise must not depend on the
current environment. -/
theorem within {e : Environment} (outer : s.current.Within (m.Territory s))
    (h : Keeps m p { s with current := e } Q)
    (moved : ∀ (after : Machine) a, Q after a → Q { after with current := s.current } a) :
    Keeps m (Run.within e p) s Q := by
  obtain ⟨grows, there, yields⟩ := h
  cases ran : p { s with current := e } with
  | ok a after =>
    rw [stateAfter_ok ran] at grows there
    have whole : Run.within e p s = .ok a { after with current := s.current } := by
      rw [Run.within, ran]
    exact of_ok whole grows
      ⟨there.grows, there.closed.move (outer.mono (Machine.Territory.later grows))⟩
      (moved _ _ (yields ran))
  | error a after =>
    rw [stateAfter_error ran] at grows there
    have whole : Run.within e p s = .error a { after with current := s.current } := by
      rw [Run.within, ran]
    exact of_error whole grows
      ⟨there.grows, there.closed.move (outer.mono (Machine.Territory.later grows))⟩

end Keeps

section Basic

variable {m s : Machine} (here : Confined m s)

include here

/-! ### Values that refer to nothing -/

omit here in
theorem Machine.owns_data {v : Value} (h : (Node.value v).IsData) : m.Owns s v := by
  refine ⟨.inl h, ?_⟩
  cases v with
  | function id f => exact h.elim
  | cls c => exact h.elim
  | _ => trivial

theorem keeps_data {v : Value} (h : (Node.value v).IsData) : Keeps m (pure v) s m.Owns :=
  .pure here (Machine.owns_data h)

/-! ### Variables -/

theorem owns_getAt {e : Environment} (inside : e.Within (m.Territory s)) {d : Nat} {name : String}
    {v : Value} (found : s.store.getAt e d name = .ok v) : m.Owns s v := by
  cases ancestor : e.frames[d]? with
  | none =>
    rw [Store.getAt_outside name ancestor] at found
    cases found
  | some frame =>
    rw [Store.getAt_eq name ancestor] at found
    split at found
    next bound =>
      cases found
      exact here.closed.bindings frame (inside frame (List.mem_of_getElem? ancestor)) name _ bound
    · cases found

theorem keeps_getAt {e : Environment} (inside : e.Within (m.Territory s)) (d : Nat)
    (name : String) :
    Keeps m (Run.ofExcept (s.store.getAt e d name)) s fun after v => after = s ∧ m.Owns s v := by
  cases found : s.store.getAt e d name with
  | error c => exact .throw here _
  | ok v => exact .pure here ⟨rfl, owns_getAt here inside found⟩

theorem keeps_lookup (use : Use) : Keeps m (Run.lookup use) s m.Owns := by
  refine .get ?_
  dsimp only
  split
  · refine (keeps_getAt here here.closed.current _ _).mono ?_
    rintro _ v ⟨rfl, owned⟩
    exact owned
  · split
    next v found =>
      refine .pure here ?_
      obtain ⟨frame, mem, bound⟩ := List.exists_of_findSome?_eq_some found
      exact here.closed.bindings frame (Environment.within_global frame mem) _ v bound
    · exact .fail here _ _

/-- A change to the store within the larger territory, to which belongs what the change makes. -/
theorem keeps_change {p : Run α} {a : α} {store : Store} {Q : Machine → α → Prop}
    (ran : p s = .ok a { s with store }) (grows : s.store.Grows store)
    (there : Closed (m.Territory { s with store }) m s →
      Closed (m.Territory { s with store }) m { s with store })
    (h : Q { s with store } a) : Keeps m p s Q := by
  have wider : Closed (m.Territory { s with store }) m s := here.closed.later grows
  exact .of_ok ran grows ⟨fun x old => grows x (here.grows x old), there wider⟩ h

theorem keeps_defineIn {frame : Nat} (inside : m.Territory s (.frame frame)) (name : String)
    {v : Value} (owned : m.Owns s v) : Keeps m (Run.defineIn frame name v) s fun _ _ => True := by
  have grows : s.store.Grows (s.store.define frame name v) :=
    .of_le (Nat.le_of_eq (Store.size_frames_define ..).symm) (Nat.le_refl _) (Nat.le_refl _)
  exact keeps_change here rfl grows
    (fun h => h.define (Machine.Territory.later grows _ inside) name
      (owned.mono (Machine.Territory.later grows))) trivial

theorem keeps_define (name : String) {v : Value} (owned : m.Owns s v) :
    Keeps m (Run.define name v) s fun _ _ => True :=
  .get (keeps_defineIn here (here.closed.current _ List.mem_cons_self) name owned)

theorem keeps_assignIn {e : Environment} (inside : e.Within (m.Territory s)) (name : Token)
    {v : Value} (owned : m.Owns s v) : Keeps m (Run.assignIn e name v) s fun _ _ => True := by
  refine .get ?_
  split
  next frame found =>
    exact keeps_defineIn here (inside frame (List.mem_of_find?_eq_some found)) _ owned
  · exact .fail here _ _

/-- The frame at a distance is one of the current environment, whatever the distance. -/
theorem keeps_assign (target : Use) {v : Value} (owned : m.Owns s v) :
    Keeps m (Run.assign target v) s fun _ _ => True := by
  refine .get ?_
  split
  next d _ =>
    refine .get ?_
    cases ancestor : s.current.frames[d]? with
    | none =>
      have none : s.current.ancestor? d = none := ancestor
      rw [Store.ancestor, none]
      exact .throw here _
    | some frame =>
      have some : s.current.ancestor? d = some frame := ancestor
      rw [Store.ancestor, some]
      exact keeps_defineIn here (here.closed.current frame (List.mem_of_getElem? ancestor)) _ owned
  · exact keeps_assignIn here Environment.within_global _ owned

theorem keeps_print (text : String) : Keeps m (Run.print text) s fun _ _ => True := by
  obtain ⟨otherFrames, otherInstances, bindings, instances, current, global⟩ := here.closed
  exact .of_ok rfl (fun _ h => h) ⟨here.grows,
    ⟨otherFrames, otherInstances, bindings, instances, current, global⟩⟩ trivial

theorem keeps_readClock : Keeps m Run.readClock s fun _ _ => True := by
  obtain ⟨otherFrames, otherInstances, bindings, instances, current, global⟩ := here.closed
  exact .of_ok rfl (fun _ h => h) ⟨here.grows,
    ⟨otherFrames, otherInstances, bindings, instances, current, global⟩⟩ trivial

/-! ### What is made -/

theorem keeps_newChild {outer : Environment} (inside : outer.Within (m.Territory s))
    {bindings : Bindings} (owned : bindings.Within (m.Territory s)) :
    Keeps m (Run.update (·.newChild outer bindings)) s
      fun after e => e.Within (m.Territory after) := by
  have size := Store.size_newChild s.store outer bindings
  have grows : s.store.Grows (s.store.newChild outer bindings).2 :=
    .of_le (by omega) (Nat.le_refl _) (Nat.le_refl _)
  have made : m.Territory { s with store := (s.store.newChild outer bindings).2 }
      (.frame s.store.frames.size) := by
    refine .inr (.inr ⟨?_, fun old => Nat.lt_irrefl _ (here.grows _ old)⟩)
    change s.store.frames.size < (s.store.newChild outer bindings).2.frames.size
    omega
  exact keeps_change here rfl grows
    (fun h => h.push outer made (owned.mono (Machine.Territory.later grows)))
    ((inside.mono (Machine.Territory.later grows)).child made)

theorem keeps_newId :
    Keeps m (Run.update Store.newId) s
      fun after id => id < after.store.nextId ∧ ¬ id < m.store.nextId := by
  have grows : s.store.Grows s.store.newId.2 :=
    .of_le (Nat.le_refl _) (Nat.le_refl _) (Nat.le_succ _)
  have new : ¬ s.store.nextId < m.store.nextId := fun old =>
    Nat.lt_irrefl _ (here.grows (.value (.cls (.base s.store.nextId "" ∅))) old)
  exact keeps_change here rfl grows
    (fun h => ⟨h.otherFrames, h.otherInstances, h.bindings, h.instances, h.current, h.global⟩)
    ⟨Nat.lt_succ_self _, new⟩

theorem keeps_newInstance {c : Class} (inside : c.Within (m.Territory s)) :
    Keeps m (Run.update (·.newInstance c)) s
      fun after id => m.Territory after (.value (.instance id)) := by
  have size : (s.store.newInstance c).2.instances.size = s.store.instances.size + 1 :=
    Array.size_push _
  have grows : s.store.Grows (s.store.newInstance c).2 :=
    .of_le (Nat.le_refl _) (by omega) (Nat.le_refl _)
  have made : m.Territory { s with store := (s.store.newInstance c).2 }
      (.value (.instance s.store.instances.size)) := by
    refine .inr (.inr ⟨?_, fun old => Nat.lt_irrefl _ (here.grows _ old)⟩)
    change s.store.instances.size < (s.store.newInstance c).2.instances.size
    omega
  exact keeps_change here rfl grows
    (fun h => h.newInstance made (inside.mono (Machine.Territory.later grows))) made

theorem keeps_setField {id : Nat} (inside : m.Territory s (.value (.instance id))) (name : String)
    {v : Value} (owned : m.Owns s v) : Keeps m (Run.setField id name v) s fun _ _ => True := by
  have grows : s.store.Grows (s.store.setField id name v) :=
    .of_le (Nat.le_refl _) (Nat.le_of_eq Array.size_modify.symm) (Nat.le_refl _)
  exact keeps_change here rfl grows
    (fun h => h.setField (Machine.Territory.later grows _ inside) name
      (owned.mono (Machine.Territory.later grows))) trivial

theorem keeps_newFunction {f : Closure} (inside : f.environment.Within (m.Territory s)) :
    Keeps m (Run.newFunction f) s m.Owns :=
  (keeps_newId here).bind fun _ _ grows here made =>
    .pure here ⟨.inr (.inr made), inside.mono (Machine.Territory.later grows)⟩

theorem keeps_bindMethod {method : Closure} (inside : method.environment.Within (m.Territory s))
    {id : Nat} (object : m.Territory s (.value (.instance id))) :
    Keeps m (Run.bind method id) s fun after f => f.environment.Within (m.Territory after) :=
  (keeps_newChild here inside (Bindings.within_empty.insert "this" ⟨object, trivial⟩)).bind
    fun _ _ _ here inside => .pure here inside

/-! ### Operators, properties and classes -/

theorem keeps_applyUnary (operator : Token) (operand : Value) :
    Keeps m (applyUnary operator operand) s m.Owns := by
  unfold applyUnary
  split
  · split
    · exact keeps_data here trivial
    · exact .fail here _ _
  · exact keeps_data here trivial
  · exact .fail here _ _

theorem keeps_applyBinary (operator : Token) (left right : Value) :
    Keeps m (applyBinary operator left right) s m.Owns := by
  unfold applyBinary
  split
  · unfold add
    split
    · exact keeps_data here trivial
    · exact keeps_data here trivial
    · exact .fail here _ _
  · exact keeps_data here trivial
  · exact keeps_data here trivial
  · split
    · unfold applyNumeric
      split
      iterate 7 exact keeps_data here trivial
      exact .fail here _ _
    · exact .fail here _ _

omit here in
theorem Class.Within.method {P : Node → Prop} {c : Class} (within : c.Within P) {name : String}
    {method : Closure} (found : c.method? name = some method) : method.environment.Within P := by
  obtain ⟨d, mem, own⟩ := Class.method?_some found
  exact (within d mem).2 name method own

theorem keeps_bound {method : Closure} (inside : method.environment.Within (m.Territory s))
    {id : Nat} (object : m.Territory s (.value (.instance id))) :
    Keeps m (do Run.newFunction (← Run.bind method id)) s m.Owns :=
  (keeps_bindMethod here inside object).bind fun _ _ _ here inside => keeps_newFunction here inside

theorem keeps_getProperty {id : Nat} (object : m.Territory s (.value (.instance id)))
    (name : Token) : Keeps m (getProperty id name) s m.Owns := by
  refine .get ?_
  split
  · exact .fail here _ _
  next i there =>
    obtain ⟨cls, fields⟩ := here.closed.instances id i object there
    split
    next v bound => exact .pure here (fields _ v bound)
    · split
      next method found => exact keeps_bound here (cls.method found) object
      · exact .fail here _ _

theorem keeps_getSuper (use : Use) (name : Token) : Keeps m (getSuper use name) s m.Owns := by
  refine .get ?_
  split
  · exact .fail here _ _
  next d _ =>
    refine (keeps_getAt here here.closed.current d "super").bind ?_
    rintro superclass _ - - ⟨rfl, cls⟩
    refine (keeps_getAt here here.closed.current (d - 1) "this").bind ?_
    rintro object _ - - ⟨rfl, inst⟩
    split
    next c id =>
      split
      next method found => exact keeps_bound here (Class.Within.method cls.2 found) inst.1
      · exact .fail here _ _
    · exact .fail here _ _

theorem keeps_evaluateSuperclass (use : Use) :
    Keeps m (evaluateSuperclass use) s fun after c => c.Within (m.Territory after) := by
  refine (keeps_lookup here use).bind fun v s _ here owned => ?_
  split
  · exact .pure here owned.2
  · exact .fail here _ _

omit here in
theorem within_methodTable {P : Node → Prop} {e : Environment} (inside : e.Within P)
    {methods : List FunctionDecl} {name : String} {method : Closure}
    (found : (methodTable e methods)[name]? = some method) : method.environment.Within P := by
  obtain ⟨decl, -, rfl⟩ := mem_methodTable found
  exact inside

theorem keeps_classWithin {e : Environment} (current : e.Within (m.Territory s)) (name : Token)
    (superclass : Option Use) (methods : List FunctionDecl) :
    Keeps m (classWithin e name superclass methods) s
      fun after c => e.Within (m.Territory after) ∧ c.Within (m.Territory after) := by
  cases superclass with
  | none =>
    refine (keeps_newId here).bind fun id after grows there made => .pure there ?_
    have current := current.mono (Machine.Territory.later grows)
    refine ⟨current, fun d mem => ?_⟩
    obtain rfl := List.mem_singleton.mp mem
    exact ⟨.inr (.inr made), fun name method own => within_methodTable current own⟩
  | some use =>
    refine (keeps_evaluateSuperclass here use).bind fun above s₁ grows₁ here₁ above₁ => ?_
    have current₁ := current.mono (Machine.Territory.later grows₁)
    have value : Machine.Owns m s₁ (.cls above) :=
      ⟨(above₁ above (Class.mem_lineage_self _)).1, above₁⟩
    refine (keeps_newChild here₁ current₁ (Bindings.within_empty.insert "super" value)).bind
      fun e s₂ grows₂ here₂ inside₂ => ?_
    refine (keeps_newId here₂).bind fun id after grows there made => .pure there ?_
    have later₂ := Machine.Territory.later (m := m) grows₂
    have later := Machine.Territory.later (m := m) grows
    refine ⟨(current₁.mono later₂).mono later, fun d mem => ?_⟩
    rcases List.mem_cons.mp mem with rfl | mem
    · exact ⟨.inr (.inr made), fun name method own => within_methodTable (inside₂.mono later) own⟩
    · exact ((above₁.mono later₂).mono later) d mem

theorem keeps_declareClass (name : Token) (superclass : Option Use)
    (methods : List FunctionDecl) :
    Keeps m (declareClass name superclass methods) s fun _ _ => True := by
  rw [declareClass_eq]
  refine (keeps_define here name.lexeme (v := .nil) (Machine.owns_data trivial)).bind
    fun _ s _ here _ => .get ?_
  refine (keeps_classWithin here here.closed.current name superclass methods).bind
    fun c after _ there inside => ?_
  exact keeps_assignIn there inside.1 name
    ⟨(inside.2 c (Class.mem_lineage_self _)).1, inside.2⟩

end Basic

/-! ### Levels -/

def Flow.Owned (m s : Machine) : Flow → Prop
  | .returning v => m.Owns s v
  | _ => True

section Levels

variable {m : Machine} {eval : Expr → Run Value} {exec : Stmt → Run Flow}
  (evals : ∀ e s, Confined m s → Keeps m (eval e) s m.Owns)
  (execs : ∀ t s, Confined m s → Keeps m (exec t) s (Flow.Owned m))

include execs in
theorem keeps_executeAll (ts : List Stmt) {s : Machine} (here : Confined m s) :
    Keeps m (executeAll exec ts) s (Flow.Owned m) := by
  induction ts generalizing s with
  | nil => exact .pure here trivial
  | cons t ts ih =>
    refine (execs t s here).bind fun flow s _ here owned => ?_
    split
    · exact ih here
    · exact .pure here owned

theorem keeps_repeatWhile {condition : Run Value} {body : Run Flow}
    (conditions : ∀ s, Confined m s → Keeps m condition s m.Owns)
    (bodies : ∀ s, Confined m s → Keeps m body s (Flow.Owned m)) (n : Nat) {s : Machine}
    (here : Confined m s) : Keeps m (repeatWhile condition body n) s (Flow.Owned m) := by
  induction n generalizing s with
  | zero => exact .throw here _
  | succ n ih =>
    refine (conditions s here).bind fun v s _ here _ => ?_
    split
    · refine (bodies s here).bind fun flow s _ here owned => ?_
      split
      · exact ih here
      · exact .pure here trivial
      · exact .pure here owned
    · exact .pure here trivial

include evals in
theorem keeps_evaluateAll (es : List Expr) {s : Machine} (here : Confined m s) :
    Keeps m (evaluateAll eval es) s fun after vs => ∀ v ∈ vs, m.Owns after v := by
  induction es generalizing s with
  | nil => exact .pure here nofun
  | cons e es ih =>
    refine (evals e s here).bind fun v s _ here owned => ?_
    refine (ih here).bind fun vs after grows there rest => .pure there fun w mem => ?_
    rcases List.mem_cons.mp mem with rfl | mem
    · exact owned.mono (Machine.Territory.later grows)
    · exact rest w mem

theorem Closure.within_frame {P : Node → Prop} (f : Closure) {arguments : List Value}
    (within : ∀ v ∈ arguments, v.Within P) : (f.frame arguments).Within P := by
  have fold (pairs : List (Token × Value)) (bs : Bindings) (start : bs.Within P)
      (within : ∀ pair ∈ pairs, pair.2.Within P) :
      Bindings.Within P (pairs.foldl (fun bs pair => bs.insert pair.1.lexeme pair.2) bs) := by
    induction pairs generalizing bs with
    | nil => exact start
    | cons pair pairs ih =>
      exact ih _ (start.insert _ (within pair List.mem_cons_self)) fun other mem =>
        within other (List.mem_cons_of_mem _ mem)
  exact fold _ ∅ Bindings.within_empty fun pair mem => within _ (List.of_mem_zip mem).2

include execs in
theorem keeps_closureCall {f : Closure} {arguments : List Value} {s : Machine}
    (here : Confined m s) (inside : f.environment.Within (m.Territory s))
    (owned : ∀ v ∈ arguments, m.Owns s v) : Keeps m (f.call exec arguments) s m.Owns := by
  refine (keeps_newChild here inside (f.within_frame owned)).bind
    fun e s₁ grows₁ here₁ inside₁ => ?_
  have body := keeps_executeAll execs f.body
    (s := { s₁ with current := e }) ⟨here₁.grows, here₁.closed.move inside₁⟩
  refine (Keeps.within here₁.closed.current body fun _ flow owned => ?_).bind
    fun flow s₂ grows₂ here₂ owned₂ => ?_
  · cases flow <;> exact owned
  split
  · have closure := (inside.mono (Machine.Territory.later grows₁)).mono
      (Machine.Territory.later grows₂)
    refine .get ((keeps_getAt here₂ closure 0 "this").mono ?_)
    rintro _ v ⟨rfl, owned⟩
    exact owned
  · split
    · exact .pure here₂ owned₂
    · exact keeps_data here₂ trivial

/-! ### Calls -/

include execs in
theorem keeps_construct {c : Class} {arguments : List Value} {s : Machine} (here : Confined m s)
    (inside : c.Within (m.Territory s)) (owned : ∀ v ∈ arguments, m.Owns s v) :
    Keeps m (c.construct exec arguments) s m.Owns := by
  refine (keeps_newInstance here inside).bind fun id s₁ grows₁ here₁ object => ?_
  have result {after : Machine} (there : Confined m after)
      (object : m.Territory after (.value (.instance id))) :
      Keeps m (pure (.instance id)) after m.Owns := .pure there ⟨object, trivial⟩
  split
  next method found =>
    have later₁ := Machine.Territory.later (m := m) grows₁
    have method₁ := Class.Within.method (inside.mono later₁) found
    refine (keeps_bindMethod here₁ method₁ object).bind fun f s₂ grows₂ here₂ inside₂ => ?_
    have later₂ := Machine.Territory.later (m := m) grows₂
    refine (keeps_closureCall execs here₂ inside₂ fun v mem =>
      ((owned v mem).mono later₁).mono later₂).bind fun _ after grows there _ => ?_
    exact result there (Machine.Territory.later grows _ (later₂ _ object))
  · exact result here₁ object

include execs in
theorem keeps_call (paren : Token) {callee : Value} {arguments : List Value} {s : Machine}
    (here : Confined m s) (inside : m.Owns s callee) (owned : ∀ v ∈ arguments, m.Owns s v) :
    Keeps m (callee.call exec paren arguments) s m.Owns := by
  unfold Value.call
  split
  · exact .fail here _ _
  · split
    · unfold Value.invoke
      split
      · exact keeps_closureCall execs here inside.2 owned
      · exact keeps_construct execs here inside.2 owned
      · exact (keeps_readClock here).bind fun _ _ _ here _ => keeps_data here trivial
    · exact .fail here _ _

/-! ### Expressions and statements -/

include evals execs in
theorem keeps_evaluateStep (e : Expr) {s : Machine} (here : Confined m s) :
    Keeps m (evaluateStep eval exec e) s m.Owns := by
  cases e with
  | literal value => exact keeps_data here (by cases value <;> trivial)
  | grouping inner => exact evals inner s here
  | unary operator operand =>
    exact (evals operand s here).bind fun v s _ here _ => keeps_applyUnary here operator v
  | binary left operator right =>
    refine (evals left s here).bind fun v s _ here _ => ?_
    exact (evals right s here).bind fun w s _ here _ => keeps_applyBinary here operator v w
  | logical left operator right =>
    refine (evals left s here).bind fun v s _ here owned => ?_
    split
    · exact .pure here owned
    · exact evals right s here
  | «variable» use => exact keeps_lookup here use
  | this use => exact keeps_lookup here use
  | assign target value =>
    refine (evals value s here).bind fun v s _ here owned => ?_
    exact (keeps_assign here target owned).bind fun _ after grows there _ =>
      .pure there (owned.mono (Machine.Territory.later grows))
  | super use method => exact keeps_getSuper here use method
  | call callee paren arguments =>
    refine (evals callee s here).bind fun f s _ here inside => ?_
    exact (keeps_evaluateAll evals arguments here).bind fun vs after grows there owned =>
      keeps_call execs paren there (inside.mono (Machine.Territory.later grows)) owned
  | get object name =>
    refine (evals object s here).bind fun v s _ here owned => ?_
    split
    · exact keeps_getProperty here owned.1 name
    · exact .fail here _ _
  | set object name value =>
    refine (evals object s here).bind fun v s _ here owned => ?_
    split
    next id =>
      refine (evals value s here).bind fun w s₁ grows₁ here₁ owned₁ => ?_
      have object₁ := Machine.Territory.later grows₁ _ owned.1
      exact (keeps_setField here₁ object₁ name.lexeme owned₁).bind fun _ after grows there _ =>
        .pure there (owned₁.mono (Machine.Territory.later grows))
    · exact .fail here _ _
  | lambda params body => exact .get (keeps_newFunction here here.closed.current)

include evals in
theorem keeps_evaluateOption (e : Option Expr) {s : Machine} (here : Confined m s) :
    Keeps m (evaluateOption eval e) s m.Owns := by
  cases e with
  | none => exact keeps_data here trivial
  | some e => exact evals e s here

include evals execs in
theorem keeps_executeStep (rounds : Nat) (t : Stmt) {s : Machine} (here : Confined m s) :
    Keeps m (executeStep rounds eval exec t) s (Flow.Owned m) := by
  cases t with
  | expression e => exact (evals e s here).bind fun _ _ _ here _ => .pure here trivial
  | print e =>
    refine (evals e s here).bind fun v s _ here _ => .get ?_
    exact (keeps_print here _).bind fun _ _ _ here _ => .pure here trivial
  | var name initializer =>
    refine (keeps_evaluateOption evals initializer here).bind fun v s _ here owned => ?_
    exact (keeps_define here name.lexeme owned).bind fun _ _ _ here _ => .pure here trivial
  | block body =>
    refine .get ((keeps_newChild here here.closed.current Bindings.within_empty).bind
      fun e s₁ _ here₁ inside => ?_)
    have body := keeps_executeAll execs body
      (s := { s₁ with current := e }) ⟨here₁.grows, here₁.closed.move inside⟩
    exact Keeps.within here₁.closed.current body fun _ flow owned => by cases flow <;> exact owned
  | ifElse condition thenBranch elseBranch =>
    refine (evals condition s here).bind fun v s _ here _ => ?_
    split
    · exact execs thenBranch s here
    · split
      · exact execs _ s here
      · exact .pure here trivial
  | whileLoop condition body =>
    exact keeps_repeatWhile (evals condition) (execs body) rounds here
  | breakLoop _ => exact .pure here trivial
  | returnFrom _ value =>
    exact (keeps_evaluateOption evals value here).bind fun v s _ here owned => .pure here owned
  | function declaration =>
    refine .get ((keeps_newFunction (f := declaration.close s.current false) here
      here.closed.current).bind fun v s _ here owned => ?_)
    exact (keeps_define here declaration.name.lexeme owned).bind fun _ _ _ here _ =>
      .pure here trivial
  | classDecl name superclass methods =>
    exact (keeps_declareClass here name superclass methods).bind fun _ _ _ here _ =>
      .pure here trivial

end Levels

/-- By induction on the levels. -/
theorem keeps_levels (m : Machine) (n : Nat) :
    (∀ e s, Confined m s → Keeps m (evaluate n e) s m.Owns) ∧
      ∀ t s, Confined m s → Keeps m (execute n t) s (Flow.Owned m) := by
  induction n with
  | zero => exact ⟨fun e s here => .throw here _, fun t s here => .throw here _⟩
  | succ n ih =>
    obtain ⟨evals, execs⟩ := ih
    have steps (e : Expr) (s : Machine) (here : Confined m s) :
        Keeps m (evaluate (n + 1) e) s m.Owns := keeps_evaluateStep evals execs e here
    exact ⟨steps, fun t s here => keeps_executeStep steps execs n t here⟩

/-! ### Isolation -/

/-- From `m` to `after` nothing has changed that existed on `m` and could not be reached there, and
what can be reached now, also from the results, could be reached before or has been made since. -/
structure Machine.Isolated (m after : Machine) (results : List Value) : Prop where
  frames : ∀ f < m.store.frames.size, ¬ m.Reachable (.frame f) →
    after.store.frames[f]? = m.store.frames[f]?
  instances : ∀ id < m.store.instances.size, ¬ m.Reachable (.value (.instance id)) →
    after.store.instances[id]? = m.store.instances[id]?
  reachable : ∀ a, after.store.Reachable (fun r => after.Root r ∨ ∃ v ∈ results, r = .value v) a →
    a.IsData ∨ m.Reachable a ∨ (a.Exists after.store ∧ ¬ a.Exists m.store)

theorem Confined.isolated {m after : Machine} (h : Confined m after) {results : List Value}
    (owned : ∀ v ∈ results, m.Owns after v) : m.Isolated after results := by
  have outside {a : Node} (data : ¬ a.IsData) (old : a.Exists m.store) (far : ¬ m.Reachable a) :
      ¬ m.Territory after a := by
    rintro (inside | inside | ⟨-, new⟩)
    · exact data inside
    · exact far inside
    · exact new old
  refine ⟨fun f old far => ?_, fun id old far => ?_, fun a way => ?_⟩
  · have same := h.closed.otherFrames f (outside (fun data => data) old far)
    have still : f < after.store.frames.size := h.grows (.frame f) old
    simp only [Store.bindings, Array.getD_eq_getD_getElem?, Array.getElem?_eq_getElem old,
      Array.getElem?_eq_getElem still, Option.getD_some] at same
    rw [Array.getElem?_eq_getElem old, Array.getElem?_eq_getElem still, same]
  · exact h.closed.otherInstances id (outside (fun data => data) old far)
  · exact h.closed.reachable owned way

def Flow.results : Flow → List Value
  | .returning v => [v]
  | _ => []

/-- An expression or a statement, on any machine and however it ends, leaves alone what cannot be
reached from the current environment or the global one, and leads to nothing else but new things. -/
theorem frames_isolated (m : Machine) (n : Nat) :
    (∀ e, match evaluate n e m with
      | .ok v after => m.Isolated after [v]
      | .error _ after => m.Isolated after []) ∧
    ∀ t, match execute n t m with
      | .ok flow after => m.Isolated after flow.results
      | .error _ after => m.Isolated after [] := by
  obtain ⟨evals, execs⟩ := keeps_levels m n
  constructor
  · intro e
    obtain ⟨-, confined, owned⟩ := evals e m (confined_self m)
    split
    next v after ran =>
      rw [stateAfter_ok ran] at confined
      exact confined.isolated fun w mem => List.mem_singleton.mp mem ▸ owned ran
    next ran =>
      rw [stateAfter_error ran] at confined
      exact confined.isolated nofun
  · intro t
    obtain ⟨-, confined, owned⟩ := execs t m (confined_self m)
    split
    next flow after ran =>
      rw [stateAfter_ok ran] at confined
      have yielded := owned ran
      refine confined.isolated fun w mem => ?_
      cases flow with
      | returning v => exact List.mem_singleton.mp mem ▸ yielded
      | _ => cases mem
    next ran =>
      rw [stateAfter_error ran] at confined
      exact confined.isolated nofun

end Lox
