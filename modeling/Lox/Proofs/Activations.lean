import Lox.Proofs.Activations.Belonging

/-!
# Closures capture activations

Two function values share a variable from a scope around them exactly if they belong to the same
activation of that scope: `captures_per_activation`.
-/

namespace Lox

open Relation

/-- The code that runs at a moment in a frame of its own. -/
def Moment.body? (a : Moment) : Option Site :=
  match a.task with
  | .execute (_ + 1) (.block body) => some (.block body)
  | .call _ f _ => some (.function f.params f.body)
  | _ => none

inductive Moment.Yields : Moment → Value → Prop
  | evaluate {n e m v after} : evaluate n e m = .ok v after → Yields ⟨.evaluate n e, m⟩ v

namespace Opens

variable {a b : Moment} {site : Site} {e : Environment}

/-- The code of a block or a function runs in the frame that is made for it. -/
theorem current (opens : Opens a site e) (body : site.isBody = true) (begins : Begins a b) :
    b.machine.current = e := by
  cases opens with
  | block =>
    cases begins with
    | expression first => cases first
    | block => rfl
  | call =>
    cases begins
    rfl
  | bind | superclass => cases body

theorem of_body? (h : a.body? = some site) : ∃ e, Opens a site e ∧ site.isBody = true := by
  obtain ⟨task, m⟩ := a
  unfold Moment.body? at h
  split at h
  next n body same =>
    obtain rfl := Option.some.inj h
    cases same
    exact ⟨_, .block, rfl⟩
  next n f arguments same =>
    obtain rfl := Option.some.inj h
    cases same
    exact ⟨_, .call, rfl⟩
  · cases h

end Opens

/-- An assignment to a name with a distance yields the assigned value and changes that name. -/
theorem evaluate_assign {n d frame : Nat} {target : Use} {value : Expr} {m mid : Machine}
    {v : Value} (known : m.distances[target.id]? = some d) (here : m.current.frames[d]? = some frame)
    (ran : evaluate n value m = .ok v mid) :
    evaluate (n + 1) (.assign target value) m =
      .ok v { mid with store := mid.store.define frame target.name.lexeme v } := by
  have distances : mid.distances = m.distances :=
    ((grows.respects_evaluate n value).of_ok ran).distances
  have current : mid.current = m.current := (keepsCurrent.respects_evaluate n value).of_ok ran
  have assigned : Run.assign target v mid =
      .ok () { mid with store := mid.store.define frame target.name.lexeme v } := by
    rw [assign_local v (distances ▸ known) (current ▸ here)]
    rfl
  exact (bind_of_ok ran).trans (bind_of_ok assigned)

namespace Session

/-- At this moment a use is evaluated whose name is declared in a block or a function, the scope at
this distance. -/
structure Refers (s : Session) (history : List Entry) (a : Moment) (o : Occurrence) (d : Nat)
    (site : Site) : Prop where
  happens : s.Happens history a
  used : a.use? = some o.plain
  occurs : s.Occurs history o
  distance : o.distance? = some d
  scope : ∃ l, o.levels[d]? = some l ∧ l.site = site
  body : site.isBody = true

/-- At this moment a use of a name that is declared in this scope is evaluated, in the body of a
function value of a function inside that scope, and the name has this frame. -/
def Accesses (s : Session) (history : List Entry) (kind : UseKind) (x : String) (site : Site)
    (f : Closure) (a : Moment) (frame : Nat) : Prop :=
  ∃ o d k, s.Refers history a o d site ∧ o.kind = kind ∧ o.use.name.lexeme = x ∧
    s.Inside history a.machine.current k f ∧ k < d ∧ a.machine.current.frames[d]? = some frame

variable {clock : Clock} {history : List Entry} {a b c : Moment} {o : Occurrence} {site : Site}
  {f g : Closure} {φ ψ d k : Nat} {x : String} {v : Value} {kind : UseKind}

/-! ### Uses -/

theorem scope_of_use {used : UseKind × Use} (happens : (initial clock).Happens history a)
    (here : a.use? = some used) (known : a.machine.distances[used.2.id]? = some d) :
    ∃ o l, o.plain = used ∧ (initial clock).Occurs history o ∧ o.levels[d]? = some l ∧
      (l.site.isBody = true → (initial clock).Refers history a o d l.site) := by
  obtain ⟨n, e, m, rfl, inside⟩ := Moment.use?_eq_some here
  obtain ⟨ls, occurs, distance, -⟩ := shape_of_use happens inside
  have found := distance.symm.trans known
  obtain ⟨bound, -⟩ := List.findIdx?_eq_some_iff_getElem.mp found
  have level := List.getElem?_eq_getElem bound
  exact ⟨⟨used.1, used.2, ls⟩, ls[d], rfl, occurs, level, fun body =>
    ⟨happens, here, occurs, found, ⟨_, level, rfl⟩, body⟩⟩

namespace Refers

variable (refers : (initial clock).Refers history a o d site)

include refers

theorem framed : (initial clock).Framed history a.machine.current o.levels :=
  (framed_of_use refers.happens refers.used refers.occurs).1

theorem known : a.machine.distances[o.use.id]? = some d :=
  (framed_of_use refers.happens refers.used refers.occurs).2.1.trans refers.distance

theorem mem_names : o.use.name.lexeme ∈ site.names := by
  obtain ⟨l, level, rfl⟩ := refers.scope
  exact (occurs_nested refers.occurs).mem_names refers.distance level

theorem activation :
    ∃ φ, a.machine.current.frames[d]? = some φ ∧ (initial clock).Activation history site φ := by
  obtain ⟨l, level, rfl⟩ := refers.scope
  exact refers.framed.activation level refers.body

theorem activation_of_found (found : a.machine.current.frames[d]? = some φ) :
    (initial clock).Activation history site φ := by
  obtain ⟨ψ, there, act⟩ := refers.activation
  exact Option.some.inj (there.symm.trans found) ▸ act

/-- A function value in whose body the use stands belongs to that activation and to no other. -/
theorem belongs_iff (found : a.machine.current.frames[d]? = some φ)
    (inside : (initial clock).Inside history a.machine.current k f) (lt : k < d)
    (act : (initial clock).Activation history site ψ) : f.BelongsTo ψ ↔ ψ = φ := by
  obtain ⟨l, level, rfl⟩ := refers.scope
  exact refers.framed.belongs_iff (occurs_nested refers.occurs) inside lt level found act

theorem yields_iff (reads : o.kind = .variable) (found : a.machine.current.frames[d]? = some φ) :
    a.Yields v ↔ (a.machine.store.bindings φ)[o.use.name.lexeme]? = some v := by
  have known := refers.known
  obtain ⟨n, e, m, rfl, used⟩ := Moment.use?_eq_some refers.used
  obtain ⟨kind, use, ls⟩ := o
  cases reads
  cases e <;> cases used
  have looked : evaluate (n + 1) (.variable use) m = _ := Run.lookup_local known
  rw [Store.getAt_eq use.name.lexeme found] at looked
  change _ ↔ (m.store.bindings φ)[use.name.lexeme]? = some v
  constructor
  · rintro ⟨ran⟩
    rw [looked] at ran
    cases bound : (m.store.bindings φ)[use.name.lexeme]? with
    | none =>
      rw [bound] at ran
      cases ran
    | some v' =>
      rw [bound] at ran
      cases ran
      rfl
  · intro bound
    rw [bound] at looked
    exact .evaluate looked

section Assign

variable (assigns : o.kind = .assign) (found : a.machine.current.frames[d]? = some φ)

include assigns found

theorem assigned (yields : a.Yields v) : ∃ n value m mid,
    a = ⟨.evaluate (n + 1) (.assign o.use value), m⟩ ∧ evaluate n value m = .ok v mid ∧
      a.after = { mid with store := mid.store.define φ o.use.name.lexeme v } := by
  have known := refers.known
  obtain ⟨n, e, m, rfl, used⟩ := Moment.use?_eq_some refers.used
  obtain ⟨kind, use, ls⟩ := o
  cases assigns
  cases e <;> cases used
  next value =>
    obtain ⟨ran⟩ := yields
    obtain ⟨v', mid, valued, rest⟩ := bind_ok ran
    have whole := evaluate_assign known found valued
    obtain ⟨rfl, -⟩ := EStateM.Result.ok.inj (whole.symm.trans ran)
    exact ⟨n, value, m, mid, rfl, valued, stateAfter_ok whole⟩

/-- An assignment writes its value to the frame of its variable, and nothing else. -/
theorem writes_iff {y : String} :
    a.Writes ψ y v ↔ (ψ = φ ∧ y = o.use.name.lexeme) ∧ a.Yields v := by
  have known := refers.known
  constructor
  · intro written
    obtain ⟨n, e, m, rfl, used⟩ := Moment.use?_eq_some refers.used
    obtain ⟨kind, use, ls⟩ := o
    cases assigns
    cases written with
    | assign ran distance here =>
      cases used
      obtain rfl := Option.some.inj (distance.symm.trans known)
      obtain rfl := Option.some.inj (here.symm.trans found)
      exact ⟨⟨rfl, rfl⟩, .evaluate (evaluate_assign known found ran)⟩
    | assignGlobal ran unknown =>
      cases used
      cases unknown.symm.trans known
  · rintro ⟨⟨rfl, rfl⟩, yields⟩
    obtain ⟨n, value, m, mid, rfl, ran, -⟩ := refers.assigned assigns found yields
    exact .assign ran known found

/-- After an assignment its variable has the assigned value. -/
theorem bound_after (yields : a.Yields v) :
    (a.after.store.bindings φ)[o.use.name.lexeme]? = some v := by
  have old := (framed_of_use refers.happens refers.used refers.occurs).2.2 φ
    (List.mem_of_getElem? found)
  obtain ⟨n, value, m, mid, rfl, ran, after⟩ := refers.assigned assigns found yields
  have there : φ < mid.store.frames.size :=
    Nat.lt_of_lt_of_le old ((grows.respects_evaluate n value).of_ok ran).frames
  rw [after]
  change ((mid.store.define φ o.use.name.lexeme v).bindings φ)[o.use.name.lexeme]? = some v
  rw [Store.bindings_define, if_pos ⟨rfl, there⟩]
  exact Std.TreeMap.getElem?_insert_self

end Assign

end Refers

/-! ### Function values that share a variable -/

theorem Accesses.belongs_iff (h : (initial clock).Accesses history kind x site f a φ) :
    (initial clock).Activation history site φ ∧
      ∀ ψ, (initial clock).Activation history site ψ → (f.BelongsTo ψ ↔ ψ = φ) := by
  obtain ⟨o, d, k, refers, rfl, rfl, inside, lt, found⟩ := h
  exact ⟨refers.activation_of_found found, fun ψ => refers.belongs_iff found inside lt⟩

/-- The frames are the same exactly if the function values belong to the same activation. -/
theorem Accesses.frame_eq_iff {kind' : UseKind}
    (h : (initial clock).Accesses history kind x site f a φ)
    (h' : (initial clock).Accesses history kind' x site g b ψ) :
    φ = ψ ↔ ∃ χ, (initial clock).Activation history site χ ∧ f.BelongsTo χ ∧ g.BelongsTo χ := by
  obtain ⟨act, belongs⟩ := h.belongs_iff
  obtain ⟨act', belongs'⟩ := h'.belongs_iff
  constructor
  · rintro rfl
    exact ⟨φ, act, (belongs φ act).mpr rfl, (belongs' φ act).mpr rfl⟩
  · rintro ⟨χ, actχ, one, other⟩
    exact ((belongs χ actχ).mp one).symm.trans ((belongs' χ actχ).mp other)

/-- A variable has the value that it had at an earlier moment unless another was written since. -/
theorem Before.yields (earlier : (initial clock).Before history c b)
    (refers : (initial clock).Refers history b o d site) (reads : o.kind = .variable)
    (found : b.machine.current.frames[d]? = some φ)
    (bound : (c.after.store.bindings φ)[o.use.name.lexeme]? = some v)
    (only : ∀ v', (initial clock).Between history c b φ o.use.name.lexeme v' → v' = v) :
    b.Yields v :=
  (refers.yields_iff reads found).mpr (earlier.changes.bound bound only)

/-- What a variable yields it had at an earlier moment, or it was written since. -/
theorem Before.bound_or_between (earlier : (initial clock).Before history c b)
    (refers : (initial clock).Refers history b o d site) (reads : o.kind = .variable)
    (found : b.machine.current.frames[d]? = some φ) (old : φ < c.after.store.frames.size)
    (yields : b.Yields v) : (c.after.store.bindings φ)[o.use.name.lexeme]? = some v ∨
      (initial clock).Between history c b φ o.use.name.lexeme v :=
  earlier.changes.origin old ((refers.yields_iff reads found).mp yields)

theorem not_begins_of_variable {use : Use} (used : a.use? = some (.variable, use)) :
    ¬ Begins a b := by
  intro begins
  obtain ⟨n, e, m, rfl, here⟩ := Moment.use?_eq_some used
  cases e <;> cases here
  cases begins with
  | part first => cases first

/-- A variable is read before an assignment to it begins, or in its course, or after its end. -/
theorem Accesses.order (h : (initial clock).Accesses history .assign x site f a φ)
    (h' : (initial clock).Accesses history .variable x site g b ψ) :
    (initial clock).Before history b a ∨ TransGen Begins a b ∨
      (initial clock).Before history a b := by
  obtain ⟨o, d, k, refers, assigns, -⟩ := h
  obtain ⟨o', d', k', refers', reads, -⟩ := h'
  have used' := refers'.used
  rw [Occurrence.plain, reads] at used'
  have different : b ≠ a := by
    rintro rfl
    have same := congrArg Prod.fst (Option.some.inj (refers.used.symm.trans refers'.used))
    exact absurd (assigns.symm.trans (same.trans reads)) nofun
  rcases comparable refers.happens refers'.happens with course | course | before | after
  · exact .inr (.inl ((reflTransGen_iff_eq_or_transGen.mp course).resolve_left different))
  · rcases course.cases_head with same | ⟨c, begins, -⟩
    · exact absurd same different
    · exact absurd begins (not_begins_of_variable used')
  · exact .inr (.inr before)
  · exact .inl after

/-- A frame of a block or a function is written by assignments that refer to its scope, and by
declarations that are executed in it. -/
theorem refers_of_writes (h : (initial clock).Happens history a)
    (act : (initial clock).Activation history site φ)
    (written : a.Writes φ x v ∨ a.Announces φ x v) :
    (∃ o d, (initial clock).Refers history a o d site ∧ o.kind = .assign ∧ o.use.name.lexeme = x ∧
      a.machine.current.frames[d]? = some φ) ∨
    ∃ n s, a.task = .execute n s ∧ s.declared? = some x ∧ a.machine.current.frame = φ := by
  rcases written with written | announced
  · cases written with
    | @assign n m target value v m' d frame ran known found =>
      obtain ⟨ls, occurs, distance, -⟩ := shape_of_use h rfl
      have framed := (framed_of_use h rfl occurs).1
      exact .inl ⟨_, d, ⟨h, rfl, occurs, distance.symm.trans known,
        framed.level_of_activation found act, act.body⟩, rfl, rfl, found⟩
    | assignGlobal ran unknown found =>
      obtain rfl := List.mem_singleton.mp (List.mem_of_find?_eq_some found)
      exact absurd act.pos (Nat.lt_irrefl _)
    | var | function | base | derived => exact .inr ⟨_, _, rfl, rfl, rfl⟩
  · cases announced
    exact .inr ⟨_, _, rfl, rfl, rfl⟩

end Session

/-- Each execution of a block and each call of a function makes one frame, an activation, in which
its body runs; no other moment makes it, and later executions make later ones. Every function value
comes from the evaluation of a function or, if it is a method, of its class, and whether it is
bound, kept or called, it belongs to the activations in which that was evaluated, one for each block
and function around its code. Where a use of a local name is evaluated, the name has its frame in an
activation of the scope that declares it, and a function value in whose body that happens belongs to
this activation of the scope alone. A variable yields what its frame binds and an assignment writes
to its frame, so an assignment and a variable in the bodies of two function values have the same
frame exactly if both belong to one activation. Then the variable yields what was assigned unless
something else was written in between, be the scope left or not; otherwise the assignment does not
write what the variable reads. For whatever a variable yields was there at an earlier moment or was
written since, and only declarations that are executed in an activation, and assignments that have
their name in it, write to it. -/
theorem captures_per_activation (clock : Clock) (history : List Entry) :
    let s := Session.initial clock
    (∀ a site, s.Happens history a → a.body? = some site → ∃ e, Opens a site e ∧
      s.Activation history site e.frame ∧ (∀ b, Begins a b → b.machine.current = e) ∧
      e.frame = a.machine.store.frames.size ∧ e.frame < a.after.store.frames.size ∧
      ∀ b site' e', s.Happens history b → Opens b site' e' →
        (e'.frame = e.frame → b = a ∧ site' = site ∧ e' = e) ∧
        (TransGen Begins a b ∨ s.Before history a b → e.frame < e'.frame)) ∧
    (∀ f, s.Arises history f → (∃ a, s.Happens history a ∧ s.Stems history a f) ∧
      ∃ ls : Levels, ∀ o ∈ Stmt.occurrencesAll (.function f.params f.body :: ls) f.body,
        s.Occurs history o ∧ ls <:+ o.levels ∧ ∀ l ∈ ls, l.site.isBody = true →
          ∃ φ, s.Activation history l.site φ ∧
            ∀ ψ, s.Activation history l.site ψ → (f.BelongsTo ψ ↔ ψ = φ)) ∧
    (∀ a f site φ, s.Happens history a → s.Stems history a f → s.Activation history site φ →
      (f.BelongsTo φ ↔ φ ∈ a.machine.current.frames)) ∧
    (∀ a used d, s.Happens history a → a.use? = some used →
      a.machine.distances[used.2.id]? = some d → ∃ o l, o.plain = used ∧ s.Occurs history o ∧
        o.levels[d]? = some l ∧ (l.site.isBody = true → s.Refers history a o d l.site)) ∧
    (∀ a o d site, s.Refers history a o d site →
      o.use.name.lexeme ∈ site.names ∧ a.machine.distances[o.use.id]? = some d ∧
      ∃ φ, a.machine.current.frames[d]? = some φ ∧ s.Activation history site φ ∧
        (∀ k f, s.Inside history a.machine.current k f →
          ∃ l, o.levels[k]? = some l ∧ l.site = .function f.params f.body) ∧
        ∀ k l params body, k < d → o.levels[k]? = some l → l.site = .function params body →
          ∃ f, f.params = params ∧ f.body = body ∧
            s.Accesses history o.kind o.use.name.lexeme site f a φ) ∧
    (∀ kind x site f a φ, s.Accesses history kind x site f a φ →
      s.Activation history site φ ∧
      (∀ ψ, s.Activation history site ψ → (f.BelongsTo ψ ↔ ψ = φ)) ∧
      (kind = .variable → ∀ v, a.Yields v ↔ (a.machine.store.bindings φ)[x]? = some v) ∧
      (kind = .assign → ∀ ψ y v, a.Writes ψ y v ↔ (ψ = φ ∧ y = x) ∧ a.Yields v)) ∧
    (∀ x site f a φ g b ψ, s.Accesses history .assign x site f a φ →
      s.Accesses history .variable x site g b ψ →
      (φ = ψ ↔ ∃ χ, s.Activation history site χ ∧ f.BelongsTo χ ∧ g.BelongsTo χ) ∧
      (s.Before history b a ∨ TransGen Begins a b ∨ s.Before history a b) ∧
      (φ = ψ → s.Before history a b → ∀ v, a.Yields v →
        (∀ v', s.Between history a b φ x v' → v' = v) → b.Yields v) ∧
      (φ ≠ ψ → ∀ v, ¬ a.Writes ψ x v)) ∧
    (∀ x site f a φ b v, s.Accesses history .variable x site f a φ → s.Before history b a →
      φ < b.after.store.frames.size → a.Yields v →
      (b.after.store.bindings φ)[x]? = some v ∨ s.Between history b a φ x v) ∧
    (∀ a site φ x v, s.Happens history a → s.Activation history site φ →
      a.Writes φ x v ∨ a.Announces φ x v →
      (∃ o d, s.Refers history a o d site ∧ o.kind = .assign ∧ o.use.name.lexeme = x ∧
        a.machine.current.frames[d]? = some φ) ∨
      ∃ n t, a.task = .execute n t ∧ t.declared? = some x ∧ a.machine.current.frame = φ) := by
  intro s
  refine ⟨fun a site happens code => ?_, fun f arises => ⟨arises.stems, arises.belongs⟩,
    fun a f site φ happens stems act => stems.belongs_iff happens act,
    fun a used d happens here known => Session.scope_of_use happens here known,
    fun a o d site refers => ?_, fun kind x site f a φ accesses => ?_,
    fun x site f a φ g b ψ write read => ?_,
    fun x site f a φ b v read earlier old yields => ?_,
    fun a site φ x v happens act written => Session.refers_of_writes happens act written⟩
  · obtain ⟨e, opens, body⟩ := Opens.of_body? code
    refine ⟨e, opens, ⟨body, a, e, happens, opens, rfl⟩, fun b => opens.current body, opens.frame,
      opens.frame ▸ happens.size_lt opens, fun b site' e' happens' opens' => ⟨fun same => ?_, ?_⟩⟩
    -- A frame is made once, and a body is not mistaken for another.
    · obtain rfl := Session.opens_unique happens' happens opens' opens same
      obtain ⟨rfl, code⟩ := opens.same opens'
      exact ⟨rfl, (code body).symm, rfl⟩
    · rintro (inside | earlier)
      · exact Session.frame_lt_inside happens opens inside opens'
      · exact earlier.frame_lt opens opens'
  · obtain ⟨φ, found, act⟩ := refers.activation
    refine ⟨refers.mem_names, refers.known, φ, found, act,
      fun k f => refers.framed.level_of_inside, fun k l params body lt level code => ?_⟩
    obtain ⟨f, inside, rfl, rfl⟩ := refers.framed.called k l params body level code
    exact ⟨f, rfl, rfl, o, d, k, refers, rfl, rfl, inside, lt, found⟩
  · obtain ⟨act, belongs⟩ := accesses.belongs_iff
    obtain ⟨o, d, k, refers, rfl, rfl, inside, lt, found⟩ := accesses
    exact ⟨act, belongs, fun reads v => refers.yields_iff reads found,
      fun assigns ψ y v => refers.writes_iff assigns found⟩
  · refine ⟨write.frame_eq_iff read, write.order read, ?_, fun different v written => ?_⟩
    -- In the same frame the read has the assigned value unless another was written since.
    · rintro rfl earlier v yields only
      obtain ⟨o, d, k, refers, assigns, rfl, -, -, found⟩ := write
      obtain ⟨o', d', k', refers', reads, name, -, -, found'⟩ := read
      have bound := refers.bound_after assigns found yields
      rw [← name] at bound only
      exact earlier.yields refers' reads found' bound only
    -- In another frame the assignment writes nothing at all.
    · obtain ⟨o, d, k, refers, assigns, rfl, -, -, found⟩ := write
      exact different ((refers.writes_iff assigns found).mp written).1.1.symm
  · obtain ⟨o, d, k, refers, reads, rfl, -, -, found⟩ := read
    exact earlier.bound_or_between refers reads found old yields

end Lox
