import Lox.Proofs.Agreement.Initializers
import Lox.Proofs.Agreement.Session

/-!
# Scopes and frames agree

Wherever a run comes to a use of a name, the environment has one frame for each scope that the
resolver saw around it. `scopes_agree` says so, and which crashes that leaves: only a use in the
initializer of its own variable can find the variable unbound.
-/

namespace Lox

def Expr.use? : Expr → Option (UseKind × Use)
  | .variable use => some (.variable, use)
  | .assign target _ => some (.assign, target)
  | .this use => some (.this, use)
  | .super use _ => some (.super, use)
  | _ => none

theorem Expr.mem_occurrences_of_use? {e : Expr} {kind : UseKind} {use : Use}
    (h : e.use? = some (kind, use)) (ls : Levels) : ⟨kind, use, ls⟩ ∈ e.occurrences ls := by
  cases e <;> cases h
  case assign value => exact List.mem_append_right _ List.mem_cons_self
  all_goals exact List.mem_cons_self

/-- The frame at a distance was made, in the course of a history, for a scope; it is not the global
frame. -/
def Session.MadeFor (s : Session) (history : List Entry) (e : Environment) (d : Nat) (site : Site) :
    Prop :=
  ∃ frame a, e.frames[d]? = some frame ∧ frame ≠ Environment.global.frame ∧
    s.Happens history a ∧ Opens a site ⟨frame, e.frames.drop (d + 1)⟩

/-- A use of a variable in a function without a name that stands in the initializer of the variable.
The scope of the variable is at this distance. -/
structure Occurrence.Early (o : Occurrence) (d : Nat) (name : Token) (value : Expr) : Prop where
  kind : o.kind = .variable
  distance : o.distance? = some d
  initializing : ∃ l, o.levels[d]? = some l ∧ l.initializing = some (name, value)
  name : name.lexeme = o.use.name.lexeme
  deferred : o.plain ∈ value.deferred

theorem Store.getAt_error {s : Store} {e : Environment} {d frame : Nat} {name : String} {c : Crash}
    (here : e.frames[d]? = some frame) (h : s.getAt e d name = .error c) :
    c = .unbound name d ∧ (s.bindings frame).contains name = false := by
  rw [getAt_eq name here] at h
  rw [Std.TreeMap.contains_eq_isSome_getElem?]
  cases found : (s.bindings frame)[name]? with
  | none =>
    rw [found] at h
    exact ⟨(Except.error.inj h).symm, rfl⟩
  | some v =>
    rw [found] at h
    cases h

/-- A look-up crashes at a use that has a distance. -/
theorem Run.lookup_crash {use : Use} {m after : Machine} {c : Crash}
    (h : Run.lookup use m = .error (.crash c) after) :
    ∃ d, m.distances[use.id]? = some d ∧ m.store.getAt m.current d use.name.lexeme = .error c := by
  cases known : m.distances[use.id]? with
  | some d =>
    rw [lookup_local known] at h
    cases got : m.store.getAt m.current d use.name.lexeme with
    | ok v =>
      rw [got] at h
      cases h
    | error c' =>
      rw [got] at h
      cases h
      exact ⟨d, rfl, got⟩
  | none =>
    rw [lookup_global known] at h
    split at h <;> cases h

namespace World

variable {w : World} {m : Machine}

theorem Fits.exists_frame {e : Environment} {ls : Levels} (heap : w.Heap m)
    (fits : w.Fits m.store e ls) : e.frame < m.store.frames.size := by
  cases fits with
  | global => exact heap.positive
  | child _ made => exact made.bound

/-- Where a variable is not bound, no execution of its declaration in that frame is complete. -/
theorem not_grows_of_unbound {k : Nat} {name : Token} {initializer : Option Expr} {flow : Flow}
    {before after : Machine} (ran : execute k (.var name initializer) before = .ok flow after)
    (exists_frame : before.current.frame < before.store.frames.size)
    (unbound : (m.store.bindings before.current.frame).contains name.lexeme = false) :
    ¬ after.Grows m := by
  intro later
  have bound := later.names _ _ (execute_binds rfl exists_frame ran)
  rw [unbound] at bound
  cases bound

/-- A use that is not bound is one in the initializer of its own variable. -/
theorem Ready.early {n : Nat} {use : Use} {c : Crash} {after : Machine}
    (ready : w.Ready ⟨.evaluate (n + 1) (.variable use), m⟩)
    (failed : Run.lookup use m = .error (.crash c) after)
    (source : ∀ o, w.occurs o → ∃ p : Program, o ∈ p.occurrences) :
    ∃ ls d name value frame, w.occurs ⟨.variable, use, ls⟩ ∧
      Occurrence.Early ⟨.variable, use, ls⟩ d name value ∧
      c = .unbound use.name.lexeme d ∧ m.current.frames[d]? = some frame ∧
      (m.store.bindings frame).contains use.name.lexeme = false ∧
      ∃ k before, w.happened ⟨.execute k (.var name (some value)), before⟩ ∧
        before.current = ⟨frame, m.current.frames.drop (d + 1)⟩ := by
  obtain ⟨heap, -, ls, place, occurs⟩ := ready
  have here : w.occurs ⟨.variable, use, ls⟩ := occurs _ List.mem_cons_self
  obtain ⟨d, known, got⟩ := Run.lookup_crash failed
  obtain ⟨l, frame, a, outer, level, contains, found, -, made⟩ :=
    Ready.frame heap place.fits here known
  have binds := made.binds
  obtain ⟨rfl, unbound⟩ := Store.getAt_error found got
  -- The name is in the scope but not bound, so its declaration is not complete there.
  have pending : l.scope[use.name.lexeme]? = some false := by
    rw [Std.TreeMap.contains_eq_isSome_getElem?] at contains
    obtain ⟨complete, declared⟩ := Option.isSome_iff_exists.mp contains
    cases complete with
    | false => exact declared
    | true =>
      have bound := binds.complete _ declared
      rw [unbound] at bound
      cases bound
  obtain ⟨name, value, k, before, initializing, same, happened, current, -⟩ :=
    binds.pending _ pending
  obtain ⟨distance, legal⟩ := heap.known _ here
  have outer : d ≠ 0 := by
    rintro rfl
    exact legal l (by rw [List.head?_eq_getElem?]; exact level) pending
  obtain ⟨p, mem⟩ := source _ here
  exact ⟨ls, d, name, value, frame, here,
    ⟨rfl, distance.symm.trans known, ⟨l, level, initializing⟩, same,
      Program.deferred_of_initializing mem level outer initializing⟩,
    rfl, found, unbound, k, before, happened, current⟩

end World

namespace Session

variable {s : Session} {history : List Entry}

/-- The environment at a use has a frame for each scope around it. -/
theorem shape_of_use {clock : Clock} {n : Nat} {e : Expr} {kind : UseKind} {use : Use} {m : Machine}
    (happens : (initial clock).Happens history ⟨.evaluate (n + 1) e, m⟩)
    (here : e.use? = some (kind, use)) :
    ∃ ls, (initial clock).Occurs history ⟨kind, use, ls⟩ ∧
      m.distances[use.id]? = ls.distance? use.name.lexeme ∧
      m.current.frames.length = ls.length + 1 ∧
      ∀ d l, ls[d]? = some l → (initial clock).MadeFor history m.current d l.site := by
  obtain ⟨before, entry, later, rfl, -, ⟨heap, -, ls, place, occurs⟩⟩ := ready clock happens
  have occurs := occurs _ (e.mem_occurrences_of_use? here ls)
  refine ⟨ls, occurs.later later, (heap.known _ occurs).1, place.fits.length, fun d l level => ?_⟩
  obtain ⟨frame, a, outer, found, -, made⟩ := place.fits.level level
  exact ⟨frame, a, found, Nat.ne_of_gt made.positive, made.happened.later later, made.opens⟩

/-- A variable whose frame at a use does not bind it, although its declaration began there. -/
structure Unbound (s : Session) (history : List Entry) (m : Machine) (frame : Nat) (d : Nat)
    (name : Token) (value : Expr) : Prop where
  found : m.current.frames[d]? = some frame
  unbound : (m.store.bindings frame).contains name.lexeme = false
  began : ∃ k before, s.Happens history ⟨.execute k (.var name (some value)), before⟩ ∧
    before.current = ⟨frame, m.current.frames.drop (d + 1)⟩
  /-- No execution of the declaration in this frame is complete. -/
  incomplete : ∀ k before flow after,
    s.Happens history ⟨.execute k (.var name (some value)), before⟩ → before.current.frame = frame →
    Lox.execute k (.var name (some value)) before = .ok flow after → ¬ after.Grows m

/-- An entry crashes for want of levels or at a use in the initializer of its own variable. -/
theorem crash_early {clock : Clock} {entry : Entry} {c : Crash}
    (h : (((initial clock).afterAll history).enter entry).1.crash = some c) :
    c = .unfinished ∨ ∃ n use m ls d name value frame,
      (initial clock).Happens (history ++ [entry]) ⟨.evaluate (n + 1) (.variable use), m⟩ ∧
      (initial clock).Occurs (history ++ [entry]) ⟨.variable, use, ls⟩ ∧
      Occurrence.Early ⟨.variable, use, ls⟩ d name value ∧ c = .unbound use.name.lexeme d ∧
      (initial clock).Unbound (history ++ [entry]) m frame d name value := by
  obtain ⟨p, after, executes, ran⟩ := enter_crash h
  have world := (kept clock history).executes executes
  obtain unfinished | ⟨n, use, m, happens, failed⟩ := world.safe_program.crash ran
  · exact .inl unfinished
  have happened := Happens.earlier happens
  obtain ⟨before, entry', later, split, -, ready⟩ := Session.ready clock happened
  obtain ⟨ls, d, name, value, frame, occurs, early, crash, found, unbound, k, m₀, declared, current⟩ :=
    ready.early failed fun o ⟨_, q, _, mem⟩ => ⟨q, mem⟩
  have unbound : (m.store.bindings frame).contains name.lexeme = false := early.name ▸ unbound
  refine .inr ⟨n, use, m, ls, d, name, value, frame, happened, split ▸ occurs.later later, early,
    crash, found, unbound, ⟨k, m₀, split ▸ declared.later later, current⟩, ?_⟩
  rintro k' m₁ flow after' happens' rfl ended
  obtain ⟨_, _, _, -, -, ⟨heap, -, ls', place, -⟩⟩ := Session.ready clock happens'
  exact World.not_grows_of_unbound ended (place.fits.exists_frame heap) unbound

end Session

/-- At each use of a name in the course of a session, the environment has one frame for each local
scope around the use, made for that scope, and the global frame after them; the distance of the use
is that of the first scope that holds the name. So no look-up leaves the environment, and one that
finds its frame without the name is at a use in a function without a name, inside the initializer of
the variable, before that initializer has completed in that frame. A session whose programs have no
such use does not crash for its names. -/
theorem scopes_agree (clock : Clock) (history : List Entry) :
    let s := Session.initial clock
    (∀ n e kind use m, s.Happens history ⟨.evaluate (n + 1) e, m⟩ → e.use? = some (kind, use) →
      ∃ start p ls, s.Runs history start p ∧ ⟨kind, use, ls⟩ ∈ p.occurrences ∧
        m.distances[use.id]? = ls.distance? use.name.lexeme ∧
        m.current.frames.length = ls.length + 1 ∧
        (∀ d l, ls[d]? = some l → s.MadeFor history m.current d l.site) ∧
        ∀ d, m.distances[use.id]? = some d → d + 1 < m.current.frames.length ∧
          ∃ l, ls[d]? = some l ∧ l.scope.contains use.name.lexeme = true) ∧
    (∀ before entry later c, history = before ++ entry :: later →
      ((s.afterAll before).enter entry).1.crash = some c →
      c = .unfinished ∨ ∃ n use m ls d name value frame,
        s.Happens history ⟨.evaluate (n + 1) (.variable use), m⟩ ∧
        s.Occurs history ⟨.variable, use, ls⟩ ∧
        Occurrence.Early ⟨.variable, use, ls⟩ d name value ∧ c = .unbound use.name.lexeme d ∧
        s.Unbound (before ++ [entry]) m frame d name value) ∧
    ((∀ start p, s.Runs history start p →
        ∀ o ∈ p.occurrences, ∀ d name value, ¬ o.Early d name value) →
      ∀ before entry later, history = before ++ entry :: later →
        ((s.afterAll before).enter entry).1.crash = none ∨
          ((s.afterAll before).enter entry).1.crash = some .unfinished) := by
  intro s
  refine ⟨fun n e kind use m happens here => ?_, fun before entry later c split crashed => ?_,
    fun none before entry later split => ?_⟩
  · obtain ⟨ls, ⟨start, p, runs, mem⟩, distance, length, made⟩ := Session.shape_of_use happens here
    refine ⟨start, p, ls, runs, mem, distance, length, made, fun d known => ?_⟩
    obtain ⟨bound, contains, -⟩ := List.findIdx?_eq_some_iff_getElem.mp (distance.symm.trans known)
    exact ⟨by omega, ls[d], List.getElem?_eq_getElem bound, contains⟩
  · rw [List.append_cons] at split
    subst split
    obtain unfinished | ⟨n, use, m, ls, d, name, value, frame, happens, occurs, early, crash, unbound⟩ :=
      Session.crash_early crashed
    · exact .inl unfinished
    · exact .inr ⟨n, use, m, ls, d, name, value, frame, happens.later later, occurs.later later,
        early, crash, unbound⟩
  · cases crashed : ((s.afterAll before).enter entry).1.crash with
    | none => exact .inl rfl
    | some c =>
      obtain rfl | ⟨n, use, m, ls, d, name, value, frame, -, ⟨start, p, runs, mem⟩, early, -⟩ :=
        Session.crash_early crashed
      · exact .inr rfl
      · rw [List.append_cons] at split
        exact absurd early (none start p (split ▸ runs.later later) _ mem d name value)

end Lox
