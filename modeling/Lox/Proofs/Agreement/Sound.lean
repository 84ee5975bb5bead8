import Lox.Proofs.Agreement.Safe

/-!
# Ready tasks are safe

By induction on the levels: a task that happens and is ready is safe, and so is all that it begins.
-/

namespace Lox.World

variable {w : World} {m m' : Machine} {n : Nat}

/-! ### Properties -/

theorem Heap.bindable (heap : w.Heap m) {id : Nat} {i : Instance}
    (here : m.store.instances[id]? = some i) {c : Class} (above : c ∈ i.cls.lineage) {name : String}
    {method : Closure} (found : c.method? name = some method) :
    w.Bindable m.store method id := by
  obtain ⟨d, mem, own⟩ := Class.method?_some found
  have mem := Class.lineage_subset above mem
  exact ⟨d, i, name, here, mem, own, heap.classes id i here d mem name method own⟩

theorem safe_getProperty {id : Nat} {name : Token} (heap : w.Heap m)
    (happens : ∀ i method, m.store.instances[id]? = some i → i.fields[name.lexeme]? = none →
      i.cls.method? name.lexeme = some method → w.happens ⟨.bind method id, m⟩) :
    w.Safe (getProperty id name) m w.Fitting := by
  refine .get ?_
  split
  · exact .fail heap _ _
  next i here =>
    split
    next v field => exact .pure heap (heap.fields id i here _ v field)
    next missing =>
      split
      next method found =>
        refine (safe_bindMethod (happens i method here missing found) heap
          (heap.bindable here i.cls.mem_lineage_self found)).bind ?_
        intro bound m' _ heap _ fits
        exact safe_newFunction heap fits.1
      · exact .fail heap _ _

/-- Around code that stands inside methods, a bound method is being called. -/
theorem Place.inMethod {ls : Levels} (place : w.Place m ls) {d : Nat} {l : Level}
    {methods : List FunctionDecl} (here : ls[d]? = some l) (site : l.site = .methods methods) :
    ∃ k f method c id, d = k + 1 ∧ InMethod w.happened m k f method c id ∧ ls.InBody k f method ∧
      c.Place m.store method.environment (ls.drop (d + 1)) := by
  -- The scope one nearer is that of a function, since no other stands directly among methods.
  have inside : ¬ Levels.AtBody (ls.drop d) := by
    intro body
    have := body l (by rw [List.head?_drop, here])
    rw [site] at this
    cases this
  have outside : ¬ Levels.AtSuperclass (ls.drop d) := by
    rintro ⟨l', use, methods', head, site'⟩
    rw [List.head?_drop, here] at head
    obtain rfl := Option.some.inj head
    rw [site] at site'
    cases site'
  cases d with
  | zero => exact absurd place.body inside
  | succ k =>
    have bound : k < ls.length := by
      have := (List.getElem?_eq_some_iff.mp here).1
      omega
    obtain ⟨frame, a, outer, found, -, made⟩ := place.fits.level (List.getElem?_eq_getElem bound)
    obtain ⟨happened, opens, enclosing, -, -, -, anchors⟩ := made
    unfold Anchors at anchors
    cases nearer : ls[k].site with
    | block | superclass =>
      rw [nearer] at anchors
      exact absurd anchors inside
    | methods =>
      rw [nearer] at anchors
      obtain ⟨method, c, id, m', -, -, -, placed⟩ := anchors
      unfold Class.Place at placed
      split at placed
      · exact absurd placed inside
      · exact absurd placed.1 outside
    | function params body =>
      rw [nearer] at anchors opens
      obtain ⟨n, f, arguments, before, rfl, rfl, plain | bound'⟩ := anchors
      · exact absurd plain.2.1 inside
      obtain ⟨method, c, id, m', bind, same, declared, binding, l', above, methods', split, site', closed,
        placed⟩ := bound'
      have found' : ls[k + 1]? = some l' := by
        rw [← List.head?_drop, split]
        rfl
      refine ⟨k, f, method, c, id, rfl, ⟨⟨n, arguments, before, frame, happened, found, ?_⟩,
        ⟨m', bind, same⟩, declared, enclosing, binding⟩, ⟨⟨ls[k], List.getElem?_eq_getElem bound, ?_⟩,
        ⟨l', methods', found', site', closed⟩⟩, ?_⟩
      · rwa [opens.of_call] at opens
      · rw [nearer, opens.of_call]
      · rw [List.drop_add_one_eq_tail_drop, split]
        exact placed

theorem Place.this {ls : Levels} (place : w.Place m ls) {d : Nat} (reach : ls.Reach "this" d) :
    ∃ k f method c id, d = k + 1 ∧ InMethod w.happened m k f method c id ∧ ls.InBody k f method ∧
      c.Place m.store method.environment (ls.drop (d + 1)) := by
  obtain ⟨-, l, here, complete⟩ := reach
  obtain ⟨frame, a, outer, -, -, made⟩ := place.fits.level here
  have contains : l.scope.contains "this" = true := by
    rw [Std.TreeMap.contains_eq_isSome_getElem?, complete]
    rfl
  obtain ⟨methods, site⟩ := made.binds.words.this contains
  exact place.inMethod here site

theorem Place.super {ls : Levels} (place : w.Place m ls) {d : Nat} (this : ls.Reach "this" d)
    (super : ls.Reach "super" (d + 1)) :
    ∃ k f method c id above, d = k + 1 ∧ InMethod w.happened m k f method c id ∧
      ls.InBody k f method ∧ c.superclass? = some above := by
  obtain ⟨k, f, method, c, id, rfl, inMethod, inBody, placed⟩ := place.this this
  obtain ⟨-, l, here, complete⟩ := super
  obtain ⟨frame, a, outer, -, -, made⟩ := place.fits.level here
  have contains : l.scope.contains "super" = true := by
    rw [Std.TreeMap.contains_eq_isSome_getElem?, complete]
    rfl
  obtain ⟨use, methods, site⟩ := made.binds.words.super contains
  cases declared : c.superclass? with
  | none =>
    unfold Class.Place at placed
    rw [declared] at placed
    have body := placed l (by rw [List.head?_drop, here])
    rw [site] at body
    cases body
  | some above => exact ⟨k, f, method, c, id, above, rfl, inMethod, inBody, declared⟩

/-- At a use of `super` the look-up finds the superclass, and its methods may be bound to `this`. -/
theorem Heap.bindable_super (heap : w.Heap m) {happened : Moment → Prop} {k : Nat}
    {f method : Closure} {c above : Class} {id : Nat} (inMethod : InMethod happened m k f method c id)
    (declared : c.superclass? = some above) {name : String} {found : Closure}
    (h : above.method? name = some found) : w.Bindable m.store found id := by
  obtain ⟨i, here, mem⟩ := inMethod.binding.descends
  exact heap.bindable here (Class.lineage_subset mem (Class.mem_lineage_superclass declared)) h

theorem Place.use_this {use : Use} {ls : Levels} (heap : w.Heap m) (place : w.Place m ls)
    (occurs : w.occurs ⟨.this, use, ls⟩) :
    ∃ k f method c id, m.distances[use.id]? = some (k + 1) ∧ use.name.lexeme = "this" ∧
      InMethod w.happened m k f method c id ∧ ls.InBody k f method := by
  obtain ⟨known, isThis, d, reach⟩ := heap.known _ occurs
  obtain ⟨k, f, method, c, id, rfl, inMethod, inBody, -⟩ := place.this reach
  refine ⟨k, f, method, c, id, ?_, isThis, inMethod, inBody⟩
  rw [known]
  exact (congrArg ls.distance? isThis).trans reach.1

theorem Place.use_super {use : Use} {ls : Levels} (heap : w.Heap m) (place : w.Place m ls)
    (occurs : w.occurs ⟨.super, use, ls⟩) :
    ∃ k f method c id above, m.distances[use.id]? = some (k + 2) ∧
      InMethod w.happened m k f method c id ∧ ls.InBody k f method ∧
      c.superclass? = some above := by
  obtain ⟨known, isSuper, d, reachThis, reachSuper⟩ := heap.known _ occurs
  obtain ⟨k, f, method, c, id, above, rfl, inMethod, inBody, declared⟩ :=
    place.super reachThis reachSuper
  refine ⟨k, f, method, c, id, above, ?_, inMethod, inBody, declared⟩
  rw [known]
  exact (congrArg ls.distance? isSuper).trans reachSuper.1

/-- In a method of a derived class `super` yields a method of the superclass, bound to `this`. -/
theorem getSuper_eq {happened : Moment → Prop} {use : Use} {name : Token} {k : Nat}
    {f method : Closure} {c above : Class} {id : Nat} (inMethod : InMethod happened m k f method c id)
    (known : m.distances[use.id]? = some (k + 2)) (declared : c.superclass? = some above) :
    getSuper use name m = above.bindMethod name id m := by
  have gotSuper : Run.ofExcept (m.store.getAt m.current (k + 2) "super") m =
      .ok (.cls above) m := by
    rw [inMethod.getAt_super declared]
    rfl
  have gotThis : Run.ofExcept (m.store.getAt m.current (k + 1) "this") m = .ok (.instance id) m := by
    rw [inMethod.getAt_this]
    rfl
  unfold getSuper
  rw [get_bind, known]
  exact (bind_of_ok gotSuper).trans (bind_of_ok gotThis)

theorem safe_getSuper {use : Use} {name : Token} {ls : Levels} (heap : w.Heap m)
    (place : w.Place m ls) (occurs : w.occurs ⟨.super, use, ls⟩)
    (happens : ∀ d c id method, m.distances[use.id]? = some d →
      m.store.getAt m.current d "super" = .ok (.cls c) →
      m.store.getAt m.current (d - 1) "this" = .ok (.instance id) →
      c.method? name.lexeme = some method → w.happens ⟨.bind method id, m⟩) :
    w.Safe (getSuper use name) m w.Fitting := by
  obtain ⟨k, f, method, c, id, above, distance, inMethod, -, declared⟩ :=
    place.use_super heap occurs
  refine Safe.congr (getSuper_eq inMethod distance declared) ?_
  unfold Class.bindMethod
  split
  next found h =>
    refine (safe_bindMethod (happens _ above id found distance (inMethod.getAt_super declared)
      inMethod.getAt_this h) heap (heap.bindable_super inMethod declared h)).bind ?_
    intro bound m' _ heap _ fits
    exact safe_newFunction heap fits.1
  · exact .fail heap _ _

/-! ### One level -/

def FlowFits (w : World) (flow : Flow) (after : Machine) : Prop :=
  ∀ v, flow = .returning v → w.Fitting v after

theorem FlowFits.normal : w.FlowFits .normal m := nofun

theorem FlowFits.returning {v : Value} (fits : w.Fitting v m) : w.FlowFits (.returning v) m :=
  fun _ same => Flow.returning.inj same ▸ fits

def SoundEvaluate (w : World) (n : Nat) : Prop :=
  ∀ e m, w.happens ⟨.evaluate n e, m⟩ → w.Ready ⟨.evaluate n e, m⟩ →
    w.Safe (evaluate n e) m w.Fitting

def SoundExecute (w : World) (n : Nat) : Prop :=
  ∀ s m, w.happens ⟨.execute n s, m⟩ → w.Ready ⟨.execute n s, m⟩ →
    w.Safe (execute n s) m w.FlowFits

namespace Ready

theorem head {e : Expr} {es : List Expr} (h : w.Ready ⟨.evaluateAll n (e :: es), m⟩) :
    w.Ready ⟨.evaluate n e, m⟩ := by
  obtain ⟨heap, code, ls, place, occurs⟩ := h
  exact ⟨heap, code_single (code _ List.mem_cons_self), ls, place,
    fun o ho => occurs o (List.mem_append_left _ ho)⟩

theorem tail {e : Expr} {es : List Expr} (h : w.Ready ⟨.evaluateAll n (e :: es), m⟩)
    (heap : w.Heap m') (later : m.Follows m') : w.Ready ⟨.evaluateAll n es, m'⟩ := by
  obtain ⟨-, code, ls, place, occurs⟩ := h
  exact ⟨heap, fun c hc => code c (List.mem_cons_of_mem _ hc), ls, place.follows later,
    fun o ho => occurs o (List.mem_append_right _ ho)⟩

theorem firstStatement {s : Stmt} {ss : List Stmt} (h : w.Ready ⟨.executeAll n (s :: ss), m⟩) :
    w.Ready ⟨.execute n s, m⟩ := by
  obtain ⟨heap, code, ls, place, settled, occurs⟩ := h
  exact ⟨heap, code_single (code _ List.mem_cons_self), ls, place, settled,
    fun o ho => occurs o (List.mem_append_left _ ho)⟩

theorem next {s : Stmt} {ss : List Stmt} {flow : Flow}
    (h : w.Ready ⟨.executeAll n (s :: ss), m⟩) (heap : w.Heap m')
    (ran : execute n s m = .ok flow m') (later : m.Follows m') :
    w.Ready ⟨.executeAll n ss, m'⟩ := by
  obtain ⟨-, code, ls, place, settled, occurs⟩ := h
  exact ⟨heap, fun c hc => code c (List.mem_cons_of_mem _ hc), s.after ls,
    place.after (w.proper (code _ List.mem_cons_self)) settled ran later, settled.after s,
    fun o ho => occurs o (List.mem_append_right _ ho)⟩

end Ready

theorem safe_evaluateAll (sound : w.SoundEvaluate n) (es : List Expr) :
    ∀ {m}, w.happens ⟨.evaluateAll n es, m⟩ → w.Ready ⟨.evaluateAll n es, m⟩ →
      w.Safe (evaluateAll (evaluate n) es) m fun vs after => ∀ v ∈ vs, w.Fitting v after := by
  induction es with
  | nil => exact fun _ ready => .pure ready.1 nofun
  | cons e es ih =>
    intro m happens ready
    refine (sound e m (w.step happens .head) ready.head).bind ?_
    intro v m₁ ran heap later fits
    refine (ih (w.step happens (.tail ran)) (ready.tail heap later)).bind ?_
    intro vs m₂ others heap later fitsAll
    refine .pure heap fun v' hv' => ?_
    obtain rfl | hv' := List.mem_cons.mp hv'
    · exact fits.mono later.grown.store
    · exact fitsAll v' hv'

theorem safe_executeAll (sound : w.SoundExecute n) (ss : List Stmt) :
    ∀ {m}, w.happens ⟨.executeAll n ss, m⟩ → w.Ready ⟨.executeAll n ss, m⟩ →
      w.Safe (executeAll (execute n) ss) m w.FlowFits := by
  induction ss with
  | nil => exact fun _ ready => .pure ready.1 .normal
  | cons s ss ih =>
    intro m happens ready
    refine (sound s m (w.step happens .first) ready.firstStatement).bind ?_
    intro flow m' ran heap later fits
    split
    · exact ih (w.step happens (.next ran)) (ready.next heap ran later)
    · exact .pure heap fits

/-! ### Calls -/

theorem Ready.body {f : Closure} {arguments : List Value}
    (h : w.Ready ⟨.call n f arguments, m⟩) (happens : w.happens ⟨.call n f arguments, m⟩) :
    w.Ready ⟨.executeAll n f.body, m.enter f.environment (f.frame arguments)⟩ := by
  obtain ⟨heap, -, ⟨code, ls, fitsPlace, origin, occurs⟩, fits, arity⟩ := h
  have pushed : w.Heap (m.push f.environment (f.frame arguments)) :=
    heap.push fun x v found => fits v (Closure.mem_of_getElem?_frame found)
  have later := Machine.Extends.push m f.environment (f.frame arguments)
  have proper : f.code.Proper := w.proper code
  refine ⟨pushed.same rfl rfl, fun c hc => w.part code hc, .function f.params f.body :: ls,
    ⟨?_, .cons ?_ ls⟩, ?_, occurs⟩
  · have opens : Opens ⟨.call n f arguments, m⟩ (Level.function f.params f.body).site
        (m.child f.environment) := by
      rw [site_function]
      exact .call
    refine fitsPlace.push heap.positive (w.past happens) opens ?_ ?_ (.function proper.1 f.body) ?_
    · intro x
      rw [getElem?_function]
      split <;> simp
    · intro x complete
      rw [getElem?_function] at complete
      split at complete
      next declared =>
        exact (Closure.contains_frame_iff arity x).mpr declared
      · cases complete
    · unfold Anchors
      rw [site_function]
      exact ⟨n, f, arguments, m, rfl, rfl, origin.mono later.store⟩
  · rw [site_function]
    rfl
  · intro l here x
    obtain rfl := Option.some.inj here
    rw [getElem?_function]
    split <;> simp

theorem ClosureFits.this {s : Store} {f : Closure} (fits : w.ClosureFits s f)
    (initializer : f.isInitializer = true) :
    (s.bindings f.environment.frame).contains "this" = true := by
  obtain ⟨-, ls, -, ⟨plain, -⟩ | ⟨method, c, id, m, -, -, -, bound⟩, -⟩ := fits
  · rw [plain] at initializer
    cases initializer
  · rw [Std.TreeMap.contains_eq_isSome_getElem?, bound.binding.this]
    rfl

theorem safe_call (sound : w.SoundExecute n) {f : Closure} {arguments : List Value}
    (happens : w.happens ⟨.call n f arguments, m⟩) (ready : w.Ready ⟨.call n f arguments, m⟩) :
    w.Safe (f.call (execute n) arguments) m w.Fitting := by
  have body := ready.body happens
  have ran := safe_executeAll sound f.body (w.step happens .called) body
  obtain ⟨heap, -, fitting, fits, -⟩ := ready
  have pushed : w.Heap (m.push f.environment (f.frame arguments)) := body.1.same rfl rfl
  have pushes := Machine.Extends.push m f.environment (f.frame arguments)
  have made : Run.update (·.newChild f.environment (f.frame arguments)) m =
      .ok (m.child f.environment) (m.push f.environment (f.frame arguments)) := rfl
  refine (Safe.of_ok (Q := fun e after => e = m.child f.environment ∧
    after = m.push f.environment (f.frame arguments)) made pushed ⟨pushes, rfl⟩ ⟨rfl, rfl⟩).bind ?_
  rintro _ _ - - - ⟨rfl, rfl⟩
  refine (Safe.within ran fun _ _ h => h :
    w.Safe _ (m.push f.environment (f.frame arguments)) w.FlowFits).bind ?_
  intro flow after _ heap later fits
  split
  next initializer =>
    refine .get ?_
    have fitting := fitting.mono (pushes.store.trans later.grown.store)
    obtain ⟨v, got, bound⟩ := Store.getAt_of_contains (e := f.environment) (d := 0) rfl
      (fitting.this initializer)
    have read : Run.ofExcept (after.store.getAt f.environment 0 "this") after = .ok v after := by
      rw [got]
      rfl
    exact .of_read read heap (heap.values _ _ _ bound)
  · split
    · exact .pure heap (fits _ rfl)
    · exact .pure heap trivial

theorem Ready.initialization {c : Class} {arguments : List Value} {method bound : Closure}
    (h : w.Ready ⟨.invoke n (.cls c) arguments, m⟩) (initializer : c.initializer? = some method)
    (later : (m.withInstance c).Follows m') (heap : w.Heap m')
    (fits : w.ClosureFits m'.store bound ∧ bound.arity = method.arity) :
    w.Ready ⟨.call n bound arguments, m'⟩ := by
  obtain ⟨-, code, -, fitting, arity⟩ := h
  have later := (Machine.Extends.withInstance m c).trans later.grown
  refine ⟨heap, code, fits.1, fun v hv => (fitting v hv).mono later.store, ?_⟩
  have expected := Option.some.inj arity
  rw [Class.arity, initializer] at expected
  exact expected.symm.trans fits.2.symm

theorem Ready.initializer {c : Class} {arguments : List Value} {method : Closure}
    (h : w.Ready ⟨.invoke n (.cls c) arguments, m⟩) (initializer : c.initializer? = some method) :
    w.Ready ⟨.bind method m.store.instances.size, m.withInstance c⟩ := by
  obtain ⟨heap, code, fits, -⟩ := h
  have heap := heap.withInstance fits
  have new : (m.withInstance c).store.instances[m.store.instances.size]? = some { cls := c } :=
    Array.getElem?_push_size
  exact ⟨heap, code, heap.bindable new c.mem_lineage_self initializer⟩

theorem safe_construct (sound : w.SoundExecute n) {c : Class} {arguments : List Value}
    (happens : w.happens ⟨.invoke n (.cls c) arguments, m⟩)
    (ready : w.Ready ⟨.invoke n (.cls c) arguments, m⟩) :
    w.Safe (c.construct (execute n) arguments) m w.Fitting := by
  have made : Run.update (·.newInstance c) m = .ok m.store.instances.size (m.withInstance c) := rfl
  refine (Safe.of_ok (Q := fun id after => id = m.store.instances.size ∧ after = m.withInstance c)
    made (ready.1.withInstance ready.2.2.1) ⟨.withInstance m c, rfl⟩ ⟨rfl, rfl⟩).bind ?_
  rintro _ _ - heap - ⟨rfl, rfl⟩
  split
  next method initializer =>
    have binding := ready.initializer initializer
    refine (safe_bindMethod (w.step happens (.bindInitializer initializer)) heap
      binding.2.2).bind ?_
    intro bound m₁ ran heap later fits
    refine (safe_call sound (w.step happens (.callInitializer initializer ran))
      (ready.initialization initializer later heap fits)).bind ?_
    exact fun _ _ _ heap _ _ => .pure heap trivial
  · exact .pure heap trivial

theorem safe_invoke (sound : w.SoundExecute n) {callee : Value} {arguments : List Value}
    (happens : w.happens ⟨.invoke n callee arguments, m⟩)
    (ready : w.Ready ⟨.invoke n callee arguments, m⟩) :
    w.Safe (callee.invoke (execute n) arguments) m w.Fitting := by
  cases callee with
  | function id f =>
    have called : w.Ready ⟨.call n f arguments, m⟩ := ⟨ready.1, ready.2.1, ready.2.2.1,
      ready.2.2.2.1, (Option.some.inj ready.2.2.2.2).symm⟩
    exact safe_call sound (w.step happens .function) called
  | cls c => exact safe_construct sound happens ready
  | _ =>
    have reads : w.Safe Run.readClock m fun _ _ => True :=
      .of_ok rfl (ready.1.same rfl rfl) ⟨.of_same rfl rfl, rfl⟩ trivial
    exact reads.bind fun _ _ _ heap _ _ => .pure heap trivial

/-! ### Expressions -/

theorem Ready.arguments {callee : Expr} {paren : Token} {arguments : List Expr}
    (h : w.Ready ⟨.evaluate (n + 1) (.call callee paren arguments), m⟩) (heap : w.Heap m')
    (later : m.Follows m') : w.Ready ⟨.evaluateAll n arguments, m'⟩ := by
  have holds := h.holds_expr
  obtain ⟨-, -, ls, place, occurs⟩ := h
  exact ⟨heap, fun c hc => w.part holds (List.mem_cons_of_mem _ hc), ls, place.follows later,
    fun o ho => occurs o (List.mem_append_right _ ho)⟩

theorem Ready.right {left right e : Expr} (h : w.Ready ⟨.evaluate (n + 1) e, m⟩) (heap : w.Heap m')
    (later : m.Follows m') (parts : e.parts = [.expr left, .expr right])
    (occurrences : ∀ ls : Levels, e.occurrences ls = left.occurrences ls ++ right.occurrences ls) :
    w.Ready ⟨.evaluate n right, m'⟩ := by
  refine h.part heap later ?_ fun ls o ho => ?_
  · rw [parts]
    exact List.mem_cons_of_mem _ List.mem_cons_self
  · rw [occurrences]
    exact List.mem_append_right _ ho

theorem Ready.field {object value : Expr} {name : Token}
    (h : w.Ready ⟨.evaluate (n + 1) (.set object name value), m⟩) (heap : w.Heap m')
    (later : m.Follows m') : w.Ready ⟨.evaluate n value, m'⟩ :=
  h.part heap later (List.mem_cons_of_mem _ List.mem_cons_self) fun ls _ ho =>
    List.mem_append_left (object.occurrences ls) ho

theorem soundEvaluate_succ (heval : w.SoundEvaluate n) (hexec : w.SoundExecute n) :
    w.SoundEvaluate (n + 1) := by
  intro e m happens ready
  -- Most expressions evaluate a part first, from the same machine.
  have first {part : Expr} (here : e.first? = some part) :
      w.Safe (evaluate n part) m w.Fitting :=
    heval part m (w.step happens (.part here)) (ready.first here)
  have holds := ready.holds_expr
  obtain ⟨heap, -, ls, place, occurs⟩ := id ready
  rw [evaluate_succ]
  cases e with
  | literal value =>
    refine .pure heap ?_
    cases value <;> trivial
  | grouping inner => exact first rfl
  | unary operator operand =>
    exact (first rfl).bind fun v m' _ heap _ _ => safe_applyUnary heap operator v
  | binary left operator right =>
    refine (first rfl).bind fun v m' ran heap later _ => ?_
    have second := ready.right heap later rfl fun _ => rfl
    refine (heval right m' (w.step happens (.right ran)) second).bind fun v' m'' _ heap _ _ => ?_
    exact safe_applyBinary heap operator v v'
  | logical left operator right =>
    refine (first rfl).bind fun v m' ran heap later fits => ?_
    split
    · exact .pure heap fits
    next undecided =>
      have second := ready.right heap later rfl fun _ => rfl
      exact heval right m' (w.step happens (.undecided ran (by simpa using undecided))) second
  | «variable» use => exact safe_lookup happens heap
  | assign target value =>
    refine (first rfl).bind fun v m' ran heap later fitting => ?_
    have here : w.occurs ⟨.assign, target, ls⟩ :=
      occurs _ (List.mem_append_right _ List.mem_cons_self)
    have proper : (Expr.assign target value).Proper := w.proper holds
    refine (safe_assign heap (place.follows later).fits here proper.1 fitting).bind ?_
    exact fun _ m'' _ heap later _ => .pure heap (fitting.mono later.grown.store)
  | this use => exact safe_this heap place.fits (occurs _ List.mem_cons_self)
  | super use name =>
    refine safe_getSuper heap place (occurs _ List.mem_cons_self) ?_
    exact fun d c id method known super this found =>
      w.step happens (.super known super this found)
  | call callee paren arguments =>
    refine (first rfl).bind fun f m' ran heap later fits => ?_
    refine (safe_evaluateAll heval arguments (w.step happens (.arguments ran))
      (ready.arguments heap later)).bind fun vs m'' ranAll heap later fitsAll => ?_
    unfold Value.call
    split
    · exact .fail heap _ _
    next expected arity =>
      split
      next same =>
        rw [← same] at arity
        exact safe_invoke hexec (w.step happens (.invoke ran ranAll arity))
          ⟨heap, nofun, fits.mono later.grown.store, fitsAll, arity⟩
      · exact .fail heap _ _
  | get object name =>
    refine (first rfl).bind fun v m' ran heap _ _ => ?_
    split
    · refine safe_getProperty heap fun i method here missing found => ?_
      exact w.step happens (.property ran here missing found)
    · exact .fail heap _ _
  | set object name value =>
    refine (first rfl).bind fun v m' ran heap later fitting => ?_
    -- What follows asks for an instance, whatever else the object could be.
    clear fitting
    split
    next id =>
      have second := ready.field heap later
      refine (heval value m' (w.step happens (.field ran)) second).bind
        fun v' m'' _ heap _ fits => ?_
      have changed := Machine.Extends.setField m'' id name.lexeme v'
      have set : w.Safe (Run.setField id name.lexeme v') m'' fun _ after => w.Fitting v' after :=
        .of_ok rfl (heap.setField fits) ⟨changed, rfl⟩ (fits.mono changed.store)
      exact set.bind fun _ _ _ heap _ fits => .pure heap fits
    · exact .fail heap _ _
  | lambda params body =>
    refine .get (safe_newFunction heap ⟨w.part holds List.mem_cons_self, ls, place.fits, .inl ?_,
      occurs⟩)
    exact ⟨rfl, place.body, _, w.past happens, .lambda⟩

/-! ### Statements -/

namespace Ready

variable {s : Stmt} {e : Expr}

theorem expression (h : w.Ready ⟨.execute n s, m⟩) (happens : w.happens ⟨.execute n s, m⟩)
    (first : s.first? = some e) : w.Ready ⟨.evaluate n e, m⟩ := by
  have holds := h.holds_stmt
  have code : ∀ c ∈ [Code.expr e], w.holds c := by
    apply code_single (w.part holds _)
    cases s <;> cases first <;> exact List.mem_cons_self
  obtain ⟨heap, -, ls, place, settled, occurs⟩ := h
  cases s with
  | var name initializer =>
    obtain rfl : initializer = some e := first
    have proper : (Stmt.var name (some e)).Proper := w.proper holds
    exact ⟨heap, code, _, place.inInitializer proper.1 settled (w.past happens), occurs⟩
  | ifElse condition thenBranch elseBranch =>
    obtain rfl := Option.some.inj first
    refine ⟨heap, code, ls, place, fun o ho => occurs o ?_⟩
    cases elseBranch <;> simp only [Stmt.occurrences, List.mem_append, ho, true_or]
  | expression e =>
    obtain rfl := Option.some.inj first
    exact ⟨heap, code, ls, place, occurs⟩
  | print e =>
    obtain rfl := Option.some.inj first
    exact ⟨heap, code, ls, place, occurs⟩
  | returnFrom keyword value =>
    obtain rfl : value = some e := first
    exact ⟨heap, code, ls, place, occurs⟩
  | _ => cases first

theorem block {body : List Stmt} (h : w.Ready ⟨.execute (n + 1) (.block body), m⟩)
    (happens : w.happens ⟨.execute (n + 1) (.block body), m⟩) :
    w.Ready ⟨.executeAll n body, m.enter m.current ∅⟩ := by
  have holds := h.holds_stmt
  obtain ⟨heap, -, ls, place, settled, occurs⟩ := h
  have pushed : w.Heap (m.push m.current ∅) := heap.push fun x v found => by simp at found
  refine ⟨pushed.same rfl rfl, fun c hc => w.part holds hc, .block body :: ls, ⟨?_, .cons rfl ls⟩,
    ?_, occurs⟩
  · refine place.fits.push heap.positive (w.past happens) .block (fun x => ?_) (fun x complete => ?_)
      (.block body) place.body
    · simp [Level.block]
    · simp [Level.block] at complete
  · intro l here x
    obtain rfl := Option.some.inj here
    simp [Level.block]

theorem branch {condition : Expr} {thenBranch : Stmt} {elseBranch : Option Stmt} {v : Value}
    (h : w.Ready ⟨.execute (n + 1) (.ifElse condition thenBranch elseBranch), m⟩)
    (heap : w.Heap m') (later : m.Follows m') (choice : chosen v thenBranch elseBranch = some s) :
    w.Ready ⟨.execute n s, m'⟩ := by
  have holds := h.holds_stmt
  obtain ⟨-, -, ls, place, settled, occurs⟩ := h
  unfold chosen at choice
  split at choice
  · obtain rfl := Option.some.inj choice
    refine ⟨heap, code_single (w.part holds (List.mem_cons_of_mem _ List.mem_cons_self)), ls,
      place.follows later, settled, fun o ho => occurs o ?_⟩
    cases elseBranch <;> simp only [Stmt.occurrences, List.mem_append, ho, or_true, true_or]
  · obtain rfl : elseBranch = some s := choice
    exact ⟨heap, code_single (w.part holds (List.mem_cons_of_mem _ (List.mem_cons_of_mem _
      List.mem_cons_self))), ls, place.follows later, settled,
      fun o ho => occurs o (List.mem_append_right _ ho)⟩

theorem loop {condition : Expr} {body : Stmt} {rounds : Nat}
    (h : w.Ready ⟨.execute (n + 1) (.whileLoop condition body), m⟩) :
    w.Ready ⟨.repeatWhile n condition body rounds, m⟩ := by
  have holds := h.holds_stmt
  obtain ⟨heap, -, ls, place, settled, occurs⟩ := h
  exact ⟨heap, fun c hc => w.part holds hc, ls, place, settled,
    fun o ho => occurs o (List.mem_append_left _ ho),
    fun o ho => occurs o (List.mem_append_right _ ho)⟩

section Rounds

variable {condition : Expr} {body : Stmt} {rounds : Nat}
  (h : w.Ready ⟨.repeatWhile n condition body rounds, m⟩)

include h

theorem test : w.Ready ⟨.evaluate (n + 1) condition, m⟩ := by
  obtain ⟨heap, code, ls, place, settled, occurs, -⟩ := h
  exact ⟨heap, code_single (code _ List.mem_cons_self), ls, place, occurs⟩

theorem round (heap : w.Heap m') (later : m.Follows m') : w.Ready ⟨.execute n body, m'⟩ := by
  obtain ⟨-, code, ls, place, settled, -, occurs⟩ := h
  exact ⟨heap, code_single (code _ (List.mem_cons_of_mem _ List.mem_cons_self)), ls,
    place.follows later, settled, occurs⟩

theorem again {others : Nat} (heap : w.Heap m') (later : m.Follows m') :
    w.Ready ⟨.repeatWhile n condition body others, m'⟩ := by
  obtain ⟨-, code, ls, place, settled, occurs⟩ := h
  exact ⟨heap, code, ls, place.follows later, settled, occurs⟩

end Rounds

end Ready

theorem safe_repeatWhile (heval : w.SoundEvaluate (n + 1)) (hexec : w.SoundExecute n)
    {condition : Expr} {body : Stmt} (rounds : Nat) :
    ∀ {m}, w.happens ⟨.repeatWhile n condition body rounds, m⟩ →
      w.Ready ⟨.repeatWhile n condition body rounds, m⟩ →
      w.Safe (repeatWhile (evaluate (n + 1) condition) (execute n body) rounds) m w.FlowFits := by
  induction rounds with
  | zero => exact fun _ ready => .unfinished ready.1
  | succ rounds ih =>
    intro m happens ready
    refine (heval condition m (w.step happens .condition) ready.test).bind ?_
    intro v m₁ ran heap later _
    split
    next holds =>
      refine (hexec body m₁ (w.step happens (.body ran holds)) (ready.round heap later)).bind ?_
      intro flow m₂ ended heap further fits
      split
      · exact ih (w.step happens (.again ran holds ended)) (ready.again heap (later.trans further))
      · exact .pure heap .normal
      · exact .pure heap fits
    · exact .pure heap .normal

/-! ### Classes -/

theorem proper_classDecl {name : Token} {superclass : Option Use} {methods : List FunctionDecl}
    (h : (Stmt.classDecl name superclass methods).Proper) : name.IsName := by
  cases superclass with
  | none => exact h.1
  | some use => exact h.1

theorem Ready.announced {name : Token} {superclass : Option Use} {methods : List FunctionDecl}
    (h : w.Ready ⟨.execute (n + 1) (.classDecl name superclass methods), m⟩) :
    w.Heap (m.announce name) ∧ m.Follows (m.announce name) ∧
      ∃ ls, w.Place (m.announce name) ls ∧
      match superclass with
      | none => w.OccursIn (FunctionDecl.occurrencesAll (.methods methods :: ls) methods)
      | some use => w.occurs ⟨.variable, use, ls⟩ ∧ w.OccursIn
          (FunctionDecl.occurrencesAll (.methods methods :: .superclass use methods :: ls) methods) := by
  have isName : name.IsName := proper_classDecl (w.proper h.holds_stmt)
  obtain ⟨heap, -, ls, place, settled, occurs⟩ := h
  have later := Machine.Extends.define m m.current.frame isName .nil
  refine ⟨heap.define isName trivial, ⟨later, rfl⟩, ls.introduce name.lexeme,
    ⟨?_, place.body.modifyHead fun _ => rfl⟩, ?_⟩
  · refine Fits.introduce (place.fits.mono later.store) settled isName fun exists_frame => ?_
    have size := m.store.size_frames_define m.current.frame name.lexeme .nil
    exact Store.contains_define_self _ _ (size ▸ exists_frame)
  · cases superclass with
    | none => exact occurs
    | some use =>
      exact ⟨occurs _ List.mem_cons_self, fun o ho => occurs o (List.mem_cons_of_mem _ ho)⟩

theorem Ready.superclass {name : Token} {superclass : Use} {methods : List FunctionDecl}
    (h : w.Ready ⟨.execute (n + 1) (.classDecl name (some superclass) methods), m⟩) :
    w.Ready ⟨.evaluate n (.variable superclass), m.announce name⟩ := by
  have holds := w.part h.holds_stmt List.mem_cons_self
  obtain ⟨heap, -, ls, place, occurs, -⟩ := h.announced
  exact ⟨heap, code_single holds, ls, place, fun o ho => List.mem_singleton.mp ho ▸ occurs⟩

theorem occurrences_of_mem {ls : Levels} {decl : FunctionDecl} {methods : List FunctionDecl}
    (mem : decl ∈ methods) {o : Occurrence} (ho : o ∈ decl.occurrences ls) :
    o ∈ FunctionDecl.occurrencesAll ls methods := by
  induction methods with
  | nil => cases mem
  | cons d methods ih =>
    obtain rfl | mem := List.mem_cons.mp mem
    · exact List.mem_append_left _ ho
    · exact List.mem_append_right _ (ih mem)

theorem methodTable_fits {s : Store} {e : Environment} {ls : Levels} {methods : List FunctionDecl}
    {c : Class} (declared : ∃ a, w.happened a ∧ DeclaresClass a c) (fits : w.Fits s e ls)
    (place : c.Place s e ls)
    (holds : ∀ decl ∈ methods, w.holds (decl.code decl.isInitializer))
    (occurs : w.OccursIn (FunctionDecl.occurrencesAll (.methods methods :: ls) methods)) {x : String}
    {f : Closure} (h : (methodTable e methods)[x]? = some f) : w.MethodFits s c f := by
  obtain ⟨decl, mem, rfl⟩ := mem_methodTable h
  refine ⟨holds decl mem, declared, ls, methods, decl, mem, rfl, fits, place,
    fun o ho => occurs o (occurrences_of_mem mem ?_)⟩
  cases decl
  exact ho

theorem safe_evaluateSuperclass {use : Use} (happens : w.happens ⟨.evaluate (n + 1) (.variable use), m⟩)
    (heap : w.Heap m) :
    w.Safe (evaluateSuperclass use) m fun c after => after = m ∧ w.ClassFits m.store c := by
  have same : w.Safe (Run.lookup use) m fun v after => after = m ∧ w.Fitting v m := by
    refine (safe_lookup happens heap).mono fun v after ran _ fits => ?_
    obtain ⟨frame, v', found, -⟩ | ⟨a, failed⟩ := Run.lookup_cases use m
    · rw [found] at ran
      cases ran
      exact ⟨rfl, fits⟩
    · rw [failed] at ran
      cases ran
  refine same.bind ?_
  rintro v m - heap - ⟨rfl, fits⟩
  split
  · exact .pure heap ⟨rfl, fits⟩
  · exact .fail heap _ _

theorem safe_newSuper {name : Token} {use : Use} {methods : List FunctionDecl} {ls : Levels}
    {above : Class} {after : Machine}
    (happens : w.happens ⟨.execute (n + 1) (.classDecl name (some use) methods), m⟩)
    (heap : w.Heap (m.announce name)) (place : w.Place (m.announce name) ls)
    (ran : evaluateSuperclass use (m.announce name) = .ok above after)
    (fits : w.ClassFits (m.announce name).store above) :
    w.Safe (Run.update (·.newChild m.current ((∅ : Bindings).insert "super" (.cls above))))
      (m.announce name) fun e after => e = m.child m.current ∧ w.Fits after.store e (.superclass use methods :: ls) ∧
        (after.store.bindings e.frame)["super"]? = some (.cls above) ∧
        w.ClassFits after.store above := by
  have later := Machine.Extends.push (m.announce name) m.current
    ((∅ : Bindings).insert "super" (.cls above))
  have size : (m.announce name).child m.current = m.child m.current :=
    congrArg (Environment.mk · m.current.frames)
      (m.store.size_frames_define m.current.frame name.lexeme .nil)
  have opens : Opens ⟨.execute (n + 1) (.classDecl name (some use) methods), m⟩
      (Level.superclass use methods).site ((m.announce name).child m.current) := by
    rw [size]
    exact .superclass ran
  have pushed : w.Heap ((m.announce name).push m.current
      ((∅ : Bindings).insert "super" (.cls above))) := by
    refine heap.push fun x v found => ?_
    rw [Std.TreeMap.getElem?_insert] at found
    split at found
    · obtain rfl := Option.some.inj found
      exact fits
    · simp at found
  refine .of_ok rfl pushed ⟨later, rfl⟩ ⟨size, ?_, ?_, fits.mono later.store⟩
  · refine place.fits.push heap.positive (w.past happens) opens (fun x => ?_) (fun x complete => ?_)
      (.superclass use methods) place.body
    · simp only [Level.superclass, Std.TreeMap.getElem?_insert]
      split <;> simp
    · simp only [Level.superclass, Std.TreeMap.getElem?_insert] at complete
      split at complete
      next same => simp [Std.TreeMap.contains_insert, same]
      · simp at complete
  · change (((m.announce name).push m.current _).store.bindings
      ((m.announce name).child m.current).frame)["super"]? = _
    rw [Machine.bindings_push]
    exact Std.TreeMap.getElem?_insert_self

theorem safe_classWithin {name : Token} {superclass : Option Use} {methods : List FunctionDecl}
    (happens : w.happens ⟨.execute (n + 1) (.classDecl name superclass methods), m⟩)
    (ready : w.Ready ⟨.execute (n + 1) (.classDecl name superclass methods), m⟩) :
    w.Safe (classWithin m.current name superclass methods) (m.announce name)
      fun c after => w.ClassFits after.store c := by
  have holds : ∀ decl ∈ methods, w.holds (decl.code decl.isInitializer) := fun decl mem =>
    w.part ready.holds_stmt (List.mem_append_right _ (List.mem_map.mpr ⟨decl, mem, rfl⟩))
  obtain ⟨heap, later, ls, place, occurs⟩ := ready.announced
  have number {m' : Machine} (heap : w.Heap m') : w.Safe (Run.update Store.newId) m'
      fun _ after => m'.store.Extends after.store :=
    .of_ok rfl heap.newId ⟨.newId m', rfl⟩ (Machine.Extends.newId m').store
  cases superclass with
  | none =>
    refine (number heap).bind fun id m₁ _ heap _ later => .pure heap ?_
    intro d mem x f found
    obtain rfl := List.mem_singleton.mp mem
    have placed : Class.Place (m.announce name).store m.current ls
        (.base id name.lexeme (methodTable m.current methods)) := place.body
    exact (methodTable_fits ⟨_, w.past happens, .base⟩ place.fits placed holds occurs found).mono later
  | some use =>
    obtain ⟨occursUse, occurs⟩ := occurs
    refine (safe_evaluateSuperclass (w.step happens .superclass) heap).bind ?_
    rintro above _ ran heap - ⟨rfl, aboveFits⟩
    refine (safe_newSuper happens heap place ran aboveFits).bind fun e m₁ _ heap _ made => ?_
    obtain ⟨rfl, inside, bound, aboveFits⟩ := made
    refine (number heap).bind fun id m₂ _ heap _ later => .pure heap ?_
    intro d mem x f found
    obtain rfl | mem := List.mem_cons.mp mem
    · have placed : Class.Place m₁.store (m.child m.current) (.superclass use methods :: ls)
          (.derived id name.lexeme (methodTable (m.child m.current) methods) above) :=
        ⟨⟨_, use, methods, rfl, rfl⟩, bound⟩
      exact (methodTable_fits ⟨_, w.past happens, .derived ran⟩ inside placed holds occurs found).mono later
    · exact (aboveFits d mem x f found).mono later

theorem safe_declareClass {name : Token} {superclass : Option Use} {methods : List FunctionDecl}
    (happens : w.happens ⟨.execute (n + 1) (.classDecl name superclass methods), m⟩)
    (ready : w.Ready ⟨.execute (n + 1) (.classDecl name superclass methods), m⟩) :
    w.Safe (declareClass name superclass methods) m fun _ _ => True := by
  have isName : name.IsName := proper_classDecl (w.proper ready.holds_stmt)
  obtain ⟨heap, later, ls, place, occurs⟩ := ready.announced
  have announced : Run.define name.lexeme .nil m = .ok () (m.announce name) := rfl
  rw [declareClass_eq]
  refine (Safe.of_ok (Q := fun _ after => after = m.announce name) announced heap later rfl).bind ?_
  rintro _ _ - - - rfl
  refine .get ((safe_classWithin happens ready).bind fun c m' _ heap _ fits => ?_)
  exact show w.Safe (Run.assignIn m.current name (.cls c)) m' _ from safe_assignIn heap _ isName fits

/-! ### All levels -/

theorem safe_define {name : Token} (isName : name.IsName) {v : Value} (heap : w.Heap m)
    (fits : w.Fitting v m) : w.Safe (Run.define name.lexeme v) m fun _ _ => True :=
  .get (safe_defineIn heap _ isName fits)

/-- A function may use its own name, so it fits only where the name is bound. -/
theorem safe_declareFunction {declaration : FunctionDecl}
    (happens : w.happens ⟨.execute (n + 1) (.function declaration), m⟩)
    (ready : w.Ready ⟨.execute (n + 1) (.function declaration), m⟩) {v : Value}
    (function : v = .function m.store.nextId (declaration.close m.current false)) :
    w.Safe (Run.define declaration.name.lexeme v) { m with store := m.store.newId.2 }
      fun _ _ => True := by
  subst function
  have holds := w.part ready.holds_stmt List.mem_cons_self
  have proper : (Stmt.function declaration).Proper := w.proper ready.holds_stmt
  have isName : declaration.name.IsName := by
    cases declaration
    exact proper.1
  obtain ⟨heap, -, ls, place, settled, occurs⟩ := ready
  have later := (Machine.Extends.newId m).trans (.define _ m.current.frame isName
    (.function m.store.nextId (declaration.close m.current false)))
  refine .of_ok rfl (heap.newId.define isName ⟨holds, ls.introduce declaration.name.lexeme, ?_,
    .inl ⟨rfl, place.body.modifyHead fun _ => rfl, _, w.past happens, .function⟩, ?_⟩)
    ⟨.define _ _ isName _, rfl⟩ trivial
  · refine (place.fits.mono later.store).introduce settled isName fun exists_frame => ?_
    rw [Store.size_frames_define] at exists_frame
    exact Store.contains_define_self _ _ exists_frame
  · cases declaration
    exact occurs

theorem soundExecute_succ (heval : w.SoundEvaluate (n + 1)) (hexec : w.SoundExecute n) :
    w.SoundExecute (n + 1) := by
  intro s m happens ready
  have first {e : Expr} (here : s.first? = some e) :
      w.Safe (evaluate (n + 1) e) m w.Fitting :=
    heval e m (w.step happens (.expression here)) (ready.expression happens here)
  have heap := ready.1
  rw [execute_succ]
  cases s with
  | expression e => exact (first rfl).bind fun _ _ _ heap _ _ => .pure heap .normal
  | print e =>
    refine (first rfl).bind fun v m' _ heap _ _ => .get ?_
    have printed : w.Safe (Run.print (m'.store.display v)) m' fun _ _ => True :=
      .of_ok rfl (heap.same rfl rfl) ⟨.of_same rfl rfl, rfl⟩ trivial
    exact printed.bind fun _ _ _ heap _ _ => .pure heap .normal
  | var name initializer =>
    have proper : (Stmt.var name initializer).Proper := w.proper ready.holds_stmt
    have value : w.Safe (evaluateOption (evaluate (n + 1)) initializer) m w.Fitting := by
      cases initializer with
      | none => exact .pure heap trivial
      | some e => exact first rfl
    obtain ⟨name', isName, same⟩ := proper.isName_declared rfl
    refine value.bind fun v m' _ heap _ fits => ?_
    rw [← same]
    refine (safe_define isName heap fits).bind fun _ _ _ heap _ _ => ?_
    exact .pure heap .normal
  | block body =>
    have inside := ready.block happens
    have ran := safe_executeAll hexec body (w.step happens .block) inside
    refine .get ?_
    have made : w.Safe (Run.update (·.newChild m.current ∅)) m
        fun e after => e = m.child m.current ∧ after = m.push m.current ∅ :=
      .of_ok rfl (inside.1.same rfl rfl) ⟨.push m m.current ∅, rfl⟩ ⟨rfl, rfl⟩
    refine made.bind ?_
    rintro _ _ - - - ⟨rfl, rfl⟩
    exact .within ran fun _ _ fits => fits
  | ifElse condition thenBranch elseBranch =>
    refine (first rfl).bind fun v m' ran after later _ => ?_
    have branch {s : Stmt} (choice : chosen v thenBranch elseBranch = some s) :
        w.Safe (execute n s) m' w.FlowFits :=
      hexec s m' (w.step happens (.branch ran choice)) (ready.branch after later choice)
    split
    next holds => exact branch (if_pos holds)
    next fails =>
      split
      · exact branch (if_neg fails)
      · exact .pure after .normal
  | whileLoop condition body =>
    exact safe_repeatWhile heval hexec n (w.step happens .loop) ready.loop
  | breakLoop keyword => exact .pure heap nofun
  | returnFrom keyword value =>
    have value : w.Safe (evaluateOption (evaluate (n + 1)) value) m w.Fitting := by
      cases value with
      | none => exact .pure heap trivial
      | some e => exact first rfl
    exact value.bind fun v m' _ heap _ fits => .pure heap (.returning fits)
  | function declaration =>
    refine .get ?_
    have made : w.Safe (Run.newFunction (declaration.close m.current false)) m fun v after =>
        v = .function m.store.nextId (declaration.close m.current false) ∧
          after = { m with store := m.store.newId.2 } :=
      .of_ok rfl heap.newId ⟨.newId m, rfl⟩ ⟨rfl, rfl⟩
    refine made.bind ?_
    rintro _ _ - - - ⟨same, rfl⟩
    refine (safe_declareFunction happens ready same).bind fun _ _ _ heap _ _ => ?_
    exact .pure heap FlowFits.normal
  | classDecl name superclass methods =>
    exact (safe_declareClass happens ready).bind fun _ _ _ heap _ _ => .pure heap .normal

theorem sound_levels (n : Nat) : w.SoundEvaluate n ∧ w.SoundExecute n := by
  induction n with
  | zero => exact ⟨fun _ _ _ ready => .unfinished ready.1, fun _ _ _ ready => .unfinished ready.1⟩
  | succ n ih =>
    have heval := soundEvaluate_succ ih.1 ih.2
    exact ⟨heval, soundExecute_succ heval ih.2⟩

/-! ### What a task begins -/

section First

variable {e : Expr} (happens : w.happens ⟨.evaluate (n + 1) e, m⟩)
  (ready : w.Ready ⟨.evaluate (n + 1) e, m⟩) {part : Expr} (here : e.first? = some part)

include happens ready here

theorem safe_first : w.Safe (evaluate n part) m w.Fitting :=
  (sound_levels n).1 part m (w.step happens (.part here)) (ready.first here)

end First

theorem safe_condition {e : Expr} {s : Stmt} (happens : w.happens ⟨.execute (n + 1) s, m⟩)
    (ready : w.Ready ⟨.execute (n + 1) s, m⟩) (here : s.first? = some e) :
    w.Safe (evaluate (n + 1) e) m w.Fitting :=
  (sound_levels (n + 1)).1 e m (w.step happens (.expression here)) (ready.expression happens here)

/-- What comes in the course of a ready task is ready. -/
theorem Ready.begins {a b : Moment} (happens : w.happens a) (ready : w.Ready a)
    (begins : Begins a b) : w.Ready b := by
  cases begins with
  | part here => exact ready.first here
  | right ran =>
    have safe := safe_first happens ready rfl
    exact ready.right (safe.heap_ok ran) (safe.follows_ok ran) rfl fun _ => rfl
  | undecided ran _ =>
    have safe := safe_first happens ready rfl
    exact ready.right (safe.heap_ok ran) (safe.follows_ok ran) rfl fun _ => rfl
  | field ran =>
    have safe := safe_first happens ready rfl
    exact ready.field (safe.heap_ok ran) (safe.follows_ok ran)
  | arguments ran =>
    have safe := safe_first happens ready rfl
    exact ready.arguments (safe.heap_ok ran) (safe.follows_ok ran)
  | @invoke n m callee paren arguments f m' values m'' ran ranAll arity =>
    have safe := safe_first happens ready rfl
    have next := ready.arguments (safe.heap_ok ran) (safe.follows_ok ran)
    have others := safe_evaluateAll (sound_levels n).1 arguments (w.step happens (.arguments ran)) next
    have later := (others.follows_ok ranAll).grown.store
    exact ⟨others.heap_ok ranAll, nofun, (safe.ok ran).mono later, others.ok ranAll, arity⟩
  | property ran here _ found =>
    have heap := (safe_first happens ready rfl).heap_ok ran
    exact ⟨heap, nofun, heap.bindable here (Class.mem_lineage_self _) found⟩
  -- The frames found by `super` and `this` are those of the method that is being called.
  | @super n m use name d c id method known gotSuper gotThis found =>
    obtain ⟨heap, -, ls, place, occurs⟩ := ready
    obtain ⟨k, f, own, c', id', above, distance, inMethod, -, declared⟩ :=
      place.use_super heap (occurs _ List.mem_cons_self)
    obtain rfl := Option.some.inj (distance.symm.trans known)
    obtain rfl := Value.cls.inj (Except.ok.inj ((inMethod.getAt_super declared).symm.trans gotSuper))
    obtain rfl := Value.instance.inj (Except.ok.inj (inMethod.getAt_this.symm.trans gotThis))
    exact ⟨heap, nofun, heap.bindable_super inMethod declared found⟩
  | head => exact ready.head
  | @tail n m e es value m' ran =>
    have safe := (sound_levels n).1 e m (w.step happens .head) ready.head
    exact ready.tail (safe.heap_ok ran) (safe.follows_ok ran)
  | expression here => exact ready.expression happens here
  | block => exact ready.block happens
  | branch ran choice =>
    have safe := safe_condition happens ready rfl
    exact ready.branch (safe.heap_ok ran) (safe.follows_ok ran) choice
  | loop => exact ready.loop
  | superclass => exact ready.superclass
  | first => exact ready.firstStatement
  | @next n m s ss m' ran =>
    have safe := (sound_levels n).2 s m (w.step happens .first) ready.firstStatement
    exact ready.next (safe.heap_ok ran) ran (safe.follows_ok ran)
  | condition => exact ready.test
  | @body n m condition body rounds value m' ran _ =>
    have safe := (sound_levels (n + 1)).1 condition m (w.step happens .condition) ready.test
    exact ready.round (safe.heap_ok ran) (safe.follows_ok ran)
  -- The next round begins after the test and the body, on a machine that follows both.
  | @again n m condition body rounds value m' m'' ran holds ended =>
    have safe := (sound_levels (n + 1)).1 condition m (w.step happens .condition) ready.test
    have later := safe.follows_ok ran
    have round := (sound_levels n).2 body m' (w.step happens (.body ran holds))
      (ready.round (safe.heap_ok ran) later)
    exact ready.again (round.heap_ok ended) (later.trans (round.follows_ok ended))
  | function =>
    exact ⟨ready.1, nofun, ready.2.2.1, ready.2.2.2.1, (Option.some.inj ready.2.2.2.2).symm⟩
  | bindInitializer here => exact ready.initializer here
  | callInitializer here ran =>
    have binding := ready.initializer here
    have safe := safe_bindMethod (w.step happens (.bindInitializer here)) binding.1 binding.2.2
    exact ready.initialization here (safe.follows_ok ran) (safe.heap_ok ran) (safe.ok ran)
  | called => exact ready.body happens

end Lox.World
