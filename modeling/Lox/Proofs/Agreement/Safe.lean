import Lox.Proofs.Agreement.Ready

/-!
# Safe steps

A step is safe on a machine if it leaves a machine that fits, its result fits, and each crash is
explained: it is for want of levels, or at a use of a variable whose frame does not bind it.
-/

namespace Lox

theorem Store.getAt_of_contains {s : Store} {e : Environment} {d frame : Nat} {name : String}
    (here : e.frames[d]? = some frame) (bound : (s.bindings frame).contains name = true) :
    ∃ v, s.getAt e d name = .ok v ∧ (s.bindings frame)[name]? = some v := by
  rw [Std.TreeMap.contains_eq_isSome_getElem?] at bound
  obtain ⟨v, found⟩ := Option.isSome_iff_exists.mp bound
  refine ⟨v, ?_, found⟩
  rw [getAt_eq name here, found]

theorem Store.getAt_cases (s : Store) (e : Environment) (d : Nat) (name : String) :
    (∃ frame v, s.getAt e d name = .ok v ∧ (s.bindings frame)[name]? = some v) ∨
      ∃ c, s.getAt e d name = .error c := by
  cases here : e.frames[d]? with
  | none =>
    have none : e.ancestor? d = none := here
    refine .inr ⟨.chainEnded e.enclosing.length d, ?_⟩
    unfold getAt ancestor
    rw [none]
    rfl
  | some frame =>
    rw [getAt_eq name here]
    cases bound : (s.bindings frame)[name]? with
    | none => exact .inr ⟨_, rfl⟩
    | some v => exact .inl ⟨frame, v, rfl, bound⟩

namespace Run

variable {use : Use} {m : Machine}

theorem lookup_local {d : Nat} (known : m.distances[use.id]? = some d) :
    lookup use m = match m.store.getAt m.current d use.name.lexeme with
      | .ok v => .ok v m
      | .error c => .error (.crash c) m := by
  unfold lookup
  rw [get_bind]
  rw [known]
  change ofExcept (m.store.getAt m.current d use.name.lexeme) m = _
  cases m.store.getAt m.current d use.name.lexeme <;> rfl

theorem lookup_global (unknown : m.distances[use.id]? = none) :
    lookup use m = match m.store.lookup? .global use.name.lexeme with
      | some v => .ok v m
      | none => .error (.error ⟨use.name.line, .undefinedVariable use.name.lexeme⟩) m := by
  unfold lookup
  rw [get_bind]
  rw [unknown]
  cases m.store.lookup? .global use.name.lexeme <;> rfl

/-- A look-up leaves the machine alone. It finds a bound value or fails. -/
theorem lookup_cases (use : Use) (m : Machine) :
    (∃ frame v, lookup use m = .ok v m ∧
      (m.store.bindings frame)[use.name.lexeme]? = some v) ∨
    ∃ a, lookup use m = .error a m := by
  cases known : m.distances[use.id]? with
  | some d =>
    rw [lookup_local known]
    obtain ⟨frame, v, found, bound⟩ | ⟨c, failed⟩ :=
      m.store.getAt_cases m.current d use.name.lexeme
    · exact .inl ⟨frame, v, by rw [found], bound⟩
    · exact .inr ⟨.crash c, by rw [failed]⟩
  | none =>
    rw [lookup_global known]
    cases found : m.store.lookup? .global use.name.lexeme with
    | none => exact .inr ⟨_, rfl⟩
    | some v =>
      obtain ⟨frame, -, bound⟩ := List.exists_of_findSome?_eq_some found
      exact .inl ⟨frame, v, rfl, bound⟩

end Run

namespace World

variable (w : World)

/-- Either levels are wanting, or the name at a use of a variable is not bound. -/
def Explains (c : Crash) : Prop :=
  c = .unfinished ∨ ∃ n use m, w.happens ⟨.evaluate (n + 1) (.variable use), m⟩ ∧
    Run.lookup use m = .error (.crash c) m

/-- A step that leaves a later machine that fits, whose result is as promised and whose crashes are
explained. -/
structure Safe (p : Run α) (m : Machine) (Q : α → Machine → Prop) : Prop where
  heap : w.Heap (stateAfter p m)
  follows : m.Follows (stateAfter p m)
  ok : ∀ {a after}, p m = .ok a after → Q a after
  crash : ∀ {c after}, p m = .error (.crash c) after → w.Explains c

namespace Safe

variable {w} {m : Machine} {p : Run α} {f : α → Run β} {Q Q' : α → Machine → Prop}
  {S : β → Machine → Prop}

theorem heap_ok (h : w.Safe p m Q) {a : α} {after : Machine} (ran : p m = .ok a after) :
    w.Heap after := stateAfter_ok ran ▸ h.heap

theorem follows_ok (h : w.Safe p m Q) {a : α} {after : Machine} (ran : p m = .ok a after) :
    m.Follows after := stateAfter_ok ran ▸ h.follows

theorem pure (heap : w.Heap m) {a : α} (result : Q a m) : w.Safe (pure a) m Q :=
  ⟨heap, .refl m, fun ran => by cases ran; exact result, nofun⟩

theorem fail (heap : w.Heap m) (token : Token) (fault : RuntimeFault) :
    w.Safe (Run.fail token fault : Run α) m Q :=
  ⟨heap, .refl m, nofun, nofun⟩

theorem unfinished (heap : w.Heap m) : w.Safe (Run.unfinished : Run α) m Q :=
  ⟨heap, .refl m, nofun, fun ran => by cases ran; exact .inl rfl⟩

theorem bind (hp : w.Safe p m Q)
    (hf : ∀ a after, p m = .ok a after → w.Heap after → m.Follows after → Q a after →
      w.Safe (f a) after S) :
    w.Safe (p >>= f) m S := by
  cases ran : p m with
  | ok a after =>
    have later := hp.follows_ok ran
    have rest := hf a after ran (hp.heap_ok ran) later (hp.ok ran)
    have whole : (p >>= f) m = f a after := bind_of_ok ran
    refine ⟨?_, ?_, fun h => rest.ok (whole ▸ h), fun h => rest.crash (whole ▸ h)⟩
    · have heap := rest.heap
      unfold stateAfter at heap ⊢
      rwa [whole]
    · have further := later.trans rest.follows
      unfold stateAfter at further ⊢
      rwa [whole]
  | error a after =>
    have whole : (p >>= f) m = .error a after := bind_of_error ran
    refine ⟨?_, ?_, fun h => ?_, fun h => ?_⟩
    · rw [stateAfter_error whole, ← stateAfter_error ran]
      exact hp.heap
    · rw [stateAfter_error whole, ← stateAfter_error ran]
      exact hp.follows
    · rw [whole] at h
      cases h
    · rw [whole] at h
      cases h
      exact hp.crash ran

/-- Only what the step does on the machine matters. -/
theorem congr {q : Run α} (same : p m = q m) (h : w.Safe q m Q) : w.Safe p m Q := by
  obtain ⟨heap, follows, ok, crash⟩ := h
  unfold stateAfter at heap follows
  rw [← same] at heap follows
  exact ⟨heap, follows, fun ran => ok (same ▸ ran), fun ran => crash (same ▸ ran)⟩

theorem get {g : Machine → Run β} (h : w.Safe (g m) m S) :
    w.Safe (MonadState.get >>= g) m S := ⟨h.heap, h.follows, h.ok, h.crash⟩

theorem mono (h : w.Safe p m Q)
    (sub : ∀ a after, p m = .ok a after → m.Follows after → Q a after → Q' a after) :
    w.Safe p m Q' :=
  ⟨h.heap, h.follows, fun ran => sub _ _ ran (h.follows_ok ran) (h.ok ran), h.crash⟩

theorem of_ok {a : α} {after : Machine} (ran : p m = .ok a after) (heap : w.Heap after)
    (later : m.Follows after) (result : Q a after) : w.Safe p m Q := by
  refine ⟨?_, ?_, fun h => ?_, fun h => ?_⟩
  · rwa [stateAfter_ok ran]
  · rwa [stateAfter_ok ran]
  · rw [ran] at h
    cases h
    exact result
  · rw [ran] at h
    cases h

theorem of_read {a : α} (ran : p m = .ok a m) (heap : w.Heap m) (result : Q a m) : w.Safe p m Q :=
  of_ok ran heap (.refl m) result

theorem within {e : Environment} (h : w.Safe p { m with current := e } Q)
    (same : ∀ a after, Q a after → Q' a { after with current := m.current }) :
    w.Safe (Run.within e p) m Q' := by
  have inner := h.heap
  have later := h.follows.grown
  unfold stateAfter at inner later
  cases ran : p { m with current := e } with
  | ok a after =>
    rw [ran] at inner later
    have whole : Run.within e p m = .ok a { after with current := m.current } := by
      rw [Run.within, ran]
    exact of_ok whole (inner.same rfl rfl) ⟨⟨later.store, later.distances⟩, rfl⟩
      (same a after (h.ok ran))
  | error a after =>
    rw [ran] at inner later
    have whole : Run.within e p m = .error a { after with current := m.current } := by
      rw [Run.within, ran]
    refine ⟨?_, ?_, fun h' => ?_, fun h' => ?_⟩
    · rw [stateAfter_error whole]
      exact inner.same rfl rfl
    · rw [stateAfter_error whole]
      exact ⟨⟨later.store, later.distances⟩, rfl⟩
    · rw [whole] at h'
      cases h'
    · rw [whole] at h'
      cases h'
      exact h.crash ran

end Safe

/-! ### Basic steps -/

variable {w} {m : Machine}

abbrev Fitting (w : World) (v : Value) (after : Machine) : Prop := w.ValueFits after.store v

section Uses

variable {n : Nat} {use : Use}

/-- The scope in which a name was found has its frame. -/
theorem Ready.frame {ls : Levels} (heap : w.Heap m) (fits : w.Fits m.store m.current ls)
    {kind : UseKind} (occurs : w.occurs ⟨kind, use, ls⟩) {d : Nat}
    (known : m.distances[use.id]? = some d) :
    ∃ l frame a outer, ls[d]? = some l ∧ l.scope.contains use.name.lexeme = true ∧
      m.current.frames[d]? = some frame ∧ d + 1 < m.current.frames.length ∧
      w.FrameFor m.store a outer ⟨frame, m.current.frames.drop (d + 1)⟩ l (ls.drop (d + 1)) := by
  have found : ls.distance? use.name.lexeme = some d := (heap.known _ occurs).1.symm.trans known
  obtain ⟨bound, contains, -⟩ := List.findIdx?_eq_some_iff_getElem.mp found
  obtain ⟨frame, a, outer, rest⟩ := fits.level (List.getElem?_eq_getElem bound)
  exact ⟨ls[d], frame, a, outer, List.getElem?_eq_getElem bound, contains, rest⟩

theorem safe_lookup (happens : w.happens ⟨.evaluate (n + 1) (.variable use), m⟩)
    (heap : w.Heap m) : w.Safe (Run.lookup use) m w.Fitting := by
  obtain ⟨frame, v, found, bound⟩ | ⟨a, failed⟩ := Run.lookup_cases use m
  · exact .of_read found heap (heap.values _ _ _ bound)
  · refine ⟨?_, ?_, fun h => ?_, fun h => ?_⟩
    · rwa [stateAfter_error failed]
    · rw [stateAfter_error failed]
      exact .refl m
    · rw [failed] at h
      cases h
    · rw [failed] at h
      cases h
      exact .inr ⟨n, use, m, happens, failed⟩

/-- A complete name is bound at its distance. -/
theorem Fits.getAt {ls : Levels} (fits : w.Fits m.store m.current ls) {name : String} {d : Nat}
    (reach : ls.Reach name d) :
    ∃ frame v, m.store.getAt m.current d name = .ok v ∧
      (m.store.bindings frame)[name]? = some v := by
  obtain ⟨-, l, here, complete⟩ := reach
  obtain ⟨frame, a, outer, found, -, made⟩ := fits.level here
  obtain ⟨v, got, bound⟩ := Store.getAt_of_contains found (made.binds.complete name complete)
  exact ⟨frame, v, got, bound⟩

theorem safe_this {ls : Levels} (heap : w.Heap m) (fits : w.Fits m.store m.current ls)
    (occurs : w.occurs ⟨.this, use, ls⟩) : w.Safe (Run.lookup use) m w.Fitting := by
  obtain ⟨known, name, d, reach⟩ := heap.known _ occurs
  have distance : m.distances[use.id]? = some d := by
    rw [known]
    exact (congrArg ls.distance? name).trans reach.1
  obtain ⟨frame, v, got, bound⟩ := fits.getAt reach
  have found : Run.lookup use m = .ok v m := by
    rw [Run.lookup_local distance, name, got]
  exact .of_read found heap (heap.values _ _ _ bound)

end Uses

/-! ### Operators -/

section Operators

variable (heap : w.Heap m)

include heap

theorem safe_applyUnary (operator : Token) (operand : Value) :
    w.Safe (applyUnary operator operand) m w.Fitting := by
  unfold applyUnary
  split
  · split
    · exact .pure heap trivial
    · exact .fail heap _ _
  · exact .pure heap trivial
  · exact .fail heap _ _

theorem safe_add (operator : Token) (left right : Value) :
    w.Safe (add operator left right) m w.Fitting := by
  unfold add
  split
  · exact .pure heap trivial
  · exact .pure heap trivial
  · exact .fail heap _ _

theorem safe_applyNumeric (operator : Token) (x y : Float) :
    w.Safe (applyNumeric operator x y) m w.Fitting := by
  unfold applyNumeric
  split
  iterate 7 exact .pure heap trivial
  exact .fail heap _ _

theorem safe_applyBinary (operator : Token) (left right : Value) :
    w.Safe (applyBinary operator left right) m w.Fitting := by
  unfold applyBinary
  split
  · exact safe_add heap _ _ _
  · exact .pure heap trivial
  · exact .pure heap trivial
  · split
    · exact safe_applyNumeric heap _ _ _
    · exact .fail heap _ _

end Operators

/-! ### Assignments and functions -/

theorem safe_defineIn (heap : w.Heap m) (frame : Nat) {name : Token} (isName : name.IsName)
    {value : Value} (fits : w.Fitting value m) :
    w.Safe (Run.defineIn frame name.lexeme value) m fun _ _ => True := by
  have later := Machine.Extends.define m frame isName value
  exact .of_ok rfl (heap.define isName (fits.mono later.store)) ⟨later, rfl⟩ trivial

theorem safe_assignIn (heap : w.Heap m) (e : Environment) {name : Token} (isName : name.IsName)
    {value : Value} (fits : w.Fitting value m) :
    w.Safe (Run.assignIn e name value) m fun _ _ => True := by
  refine .get ?_
  split
  · exact safe_defineIn heap _ isName fits
  · exact .fail heap _ _

theorem safe_assign {ls : Levels} {target : Use} {value : Value} (heap : w.Heap m)
    (fits : w.Fits m.store m.current ls) (occurs : w.occurs ⟨.assign, target, ls⟩)
    (isName : target.name.IsName) (fitting : w.Fitting value m) :
    w.Safe (Run.assign target value) m fun _ _ => True := by
  have distance : Run.distance? target m = .ok m.distances[target.id]? m := rfl
  refine (Safe.of_read (Q := fun d after => d = m.distances[target.id]? ∧ after = m) distance heap
    ⟨rfl, rfl⟩).bind ?_
  rintro d m - - - ⟨rfl, rfl⟩
  split
  next d known =>
    obtain ⟨l, frame, a, outer, -, -, here, -⟩ := Ready.frame heap fits occurs known
    refine .get ?_
    have ancestor : Run.ofExcept (Store.ancestor m.current d) m = .ok frame m := by
      have found : m.current.ancestor? d = some frame := here
      rw [Store.ancestor, found]
      rfl
    refine (Safe.of_read (Q := fun f after => f = frame ∧ after = m) ancestor heap
      ⟨rfl, rfl⟩).bind ?_
    rintro f m - - - ⟨rfl, rfl⟩
    exact safe_defineIn heap f isName fitting
  · exact safe_assignIn heap _ isName fitting

theorem safe_newFunction {f : Closure} (heap : w.Heap m) (fits : w.ClosureFits m.store f) :
    w.Safe (Run.newFunction f) m w.Fitting := by
  have made : Run.newFunction f m = .ok (.function m.store.nextId f)
      { m with store := m.store.newId.2 } := rfl
  have later := Machine.Extends.newId m
  exact .of_ok made heap.newId ⟨later, rfl⟩ (fits.mono later.store)

/-- A bound method is a function inside a frame that binds `this`. -/
theorem safe_bindMethod {method : Closure} {id : Nat} (happens : w.happens ⟨.bind method id, m⟩)
    (heap : w.Heap m) (bindable : w.Bindable m.store method id) :
    w.Safe (Run.bind method id) m fun bound after =>
      w.ClosureFits after.store bound ∧ bound.arity = method.arity := by
  obtain ⟨c, i, name, here, descends, own, code, declared, ls, methods, decl, mem, closed, fits, place,
    occurs⟩ := bindable
  have made : Run.bind method id m = .ok { method with environment := m.child method.environment }
      (m.push method.environment ((∅ : Bindings).insert "this" (.instance id))) := rfl
  have later := Machine.Extends.push m method.environment ((∅ : Bindings).insert "this" (.instance id))
  have pushed : w.Heap (m.push method.environment ((∅ : Bindings).insert "this" (.instance id))) := by
    refine heap.push fun x v found => ?_
    rw [Std.TreeMap.getElem?_insert] at found
    split at found
    · obtain rfl := Option.some.inj found
      trivial
    · simp at found
  have place := place.mono later.store
  have binding : Binding (m.push method.environment ((∅ : Bindings).insert "this" (.instance id))).store
      (m.child method.environment) method c id := by
    refine ⟨rfl, ?_, ⟨i, here, descends⟩, ⟨name, own⟩, fun above declared => ?_⟩
    · rw [Machine.bindings_push]
      exact Std.TreeMap.getElem?_insert_self
    · unfold Class.Place at place
      rw [declared] at place
      exact place.2
  have bound : BoundAt (m.push method.environment ((∅ : Bindings).insert "this" (.instance id))).store
      (m.child method.environment) (.methods methods :: ls) method c id :=
    ⟨binding, .methods methods, ls, methods, rfl, rfl, ⟨decl, mem, closed⟩, place⟩
  refine .of_ok made pushed ⟨later, rfl⟩ ⟨⟨code, .methods methods :: ls, ?_, ?_, occurs⟩, rfl⟩
  · refine fits.push heap.positive (w.past happens) (.bind mem closed) ?_ ?_ (.methods methods)
      ⟨method, c, id, m, rfl, rfl, binding, place⟩
    · intro x
      simp only [Level.methods, Std.TreeMap.getElem?_insert]
      split <;> simp
    · intro x complete
      simp only [Level.methods, Std.TreeMap.getElem?_insert] at complete
      split at complete
      next same => simp [Std.TreeMap.contains_insert, same]
      · simp at complete
  · exact .inr ⟨method, c, id, m, w.past happens, rfl, declared, bound⟩

end World

end Lox
