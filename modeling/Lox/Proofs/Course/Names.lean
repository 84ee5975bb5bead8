import Lox.Proofs.Course.Declarations
import Lox.Proofs.Course.Success

/-!
# Names in frames

An assignment changes a name that its frame binds, unless the declaration of the name is under way.
So a statement that declares nothing leaves the frame in which it is executed with the names that it
had: `Session.contains_after_iff`.
-/

namespace Lox

open Relation

variable {a b w : Moment} {φ : Nat} {x : String}

/-- A row of moments binds a name in a frame only if one of them does, or the writes around them. -/
theorem Machine.Leads.not_contains {before after : Writing} {m m' : Machine} {bs : List Moment}
    (h : m.Leads before after bs m') (old : φ < m.store.frames.size)
    (free : (m.store.bindings φ).contains x = false) (unannounced : ∀ v, ¬ before φ x v)
    (each : ∀ d ∈ bs, φ < d.machine.store.frames.size →
      (d.machine.store.bindings φ).contains x = false →
      φ < d.after.store.frames.size ∧ (d.after.store.bindings φ).contains x = false) :
    (∀ d ∈ bs, (d.after.store.bindings φ).contains x = false) ∧
      ((∀ v, ¬ after φ x v) → (m'.store.bindings φ).contains x = false) := by
  induction bs generalizing m before with
  | nil =>
    obtain ⟨mid, first, rest⟩ := h
    have older := Nat.lt_of_lt_of_le old first.size_le
    exact ⟨nofun, rest.not_contains older (first.not_contains old free unannounced)⟩
  | cons b bs ih =>
    obtain ⟨first, rest⟩ := h
    have begun := first.not_contains old free unannounced
    obtain ⟨older, ended⟩ :=
      each b List.mem_cons_self (Nat.lt_of_lt_of_le old first.size_le) begun
    obtain ⟨others, last⟩ :=
      ih rest older ended (fun _ => nofun) fun d mem => each d (List.mem_cons_of_mem b mem)
    exact ⟨List.forall_mem_cons.mpr ⟨ended, others⟩, last⟩

namespace Moment

variable {n : Nat} {m mid : Machine}

theorem after_evaluate {e : Expr} {v : Value} (ran : Lox.evaluate n e m = .ok v mid) :
    Moment.after ⟨.evaluate n e, m⟩ = mid := stateAfter_ok ran

theorem after_execute {s : Stmt} {flow : Flow} (ran : Lox.execute n s m = .ok flow mid) :
    Moment.after ⟨.execute n s, m⟩ = mid := stateAfter_ok ran

end Moment

namespace Session

variable {clock : Clock} {history : List Entry}

theorem Happens.exists_frame {n : Nat} {s : Stmt} {m : Machine}
    (h : (initial clock).Happens history ⟨.execute n s, m⟩) :
    m.current.frame < m.store.frames.size := by
  obtain ⟨_, _, _, -, -, heap, -, ls, place, -, -⟩ := Session.ready clock h
  exact place.fits.exists_frame heap

/-- The frame of a name to which a value is assigned binds it, or a declaration of it began there
before. -/
theorem Happens.bound_or_pending {k d : Nat} {target : Use} {value : Expr} {m : Machine}
    (h : (initial clock).Happens history ⟨.evaluate (k + 1) (.assign target value), m⟩)
    (known : m.distances[target.id]? = some d) (found : m.current.frames[d]? = some φ) :
    (m.store.bindings φ).contains target.name.lexeme = true ∨
    ∃ name initializer n before,
      (initial clock).Happens history ⟨.execute n (.var name (some initializer)), before⟩ ∧
      name.lexeme = target.name.lexeme ∧ before.current.frame = φ ∧ 0 < φ ∧
      before.store.Extends m.store := by
  obtain ⟨_, _, later, rfl, -, heap, -, ls, place, occurs⟩ := Session.ready clock h
  have here := occurs ⟨.assign, target, ls⟩ (List.mem_append_right _ List.mem_cons_self)
  obtain ⟨l, frame, a, outer, -, contains, found', -, made⟩ :=
    World.Ready.frame heap place.fits here known
  obtain rfl := Option.some.inj (found'.symm.trans found)
  rw [Std.TreeMap.contains_eq_isSome_getElem?] at contains
  obtain ⟨complete, declared⟩ := Option.isSome_iff_exists.mp contains
  cases complete with
  | true => exact .inl (made.binds.complete _ declared)
  | false =>
    obtain ⟨name, initializer, n, before, -, same, happened, current, began⟩ :=
      made.binds.pending _ declared
    exact .inr ⟨name, initializer, n, before, Happens.later happened later, same,
      congrArg Environment.frame current, made.positive, began⟩

theorem bound_of_declared {o : Moment} {k : Nat} {name : Token} {initializer : Option Expr}
    {m : Machine} (made : (initial clock).Happens history o)
    (began : (initial clock).Happens history ⟨.execute k (.var name initializer), m⟩)
    (earlier : o.Earlier ⟨.execute k (.var name initializer), m⟩ b) :
    (b.machine.store.bindings m.current.frame).contains name.lexeme = true := by
  obtain ⟨flow, declared, ended⟩ := earlier.succeeds
  have bound := execute_binds rfl began.exists_frame ended
  have later := (earlier.before made).changes_wrote
  rw [Moment.after_execute ended] at later
  exact later.contains bound

section Plain

variable {n : Nat} {s : Stmt} {m : Machine}
  (h : (initial clock).Happens history ⟨.execute n s, m⟩) (plain : s.Plain)

include h plain

/-- In the course of a statement that declares nothing, no statement in its frame does. -/
theorem Happens.not_declares (course : ReflTransGen Begins ⟨.execute n s, m⟩ b) {k : Nat}
    {t : Stmt} (task : b.task = .execute k t) (here : b.machine.current.frame = m.current.frame) :
    t.declared? = none := by
  have nothing := h.stays Begins.declaresNothing h.exists_frame (fun _ => plain) course here
  rw [task] at nothing
  exact nothing.2

/-- The initializer of a variable executes no statement in the frame of the variable. -/
theorem Happens.not_in_initializer {name : Token} {initializer : Expr} {k : Nat} {before : Machine}
    (began : (initial clock).Happens history ⟨.execute k (.var name (some initializer)), before⟩)
    (here : before.current.frame = m.current.frame) :
    ¬ ReflTransGen Begins ⟨.execute k (.var name (some initializer)), before⟩ ⟨.execute n s, m⟩ := by
  intro course
  rcases course.cases_head with same | ⟨d, begins, course⟩
  · cases same
    cases plain.2
  · cases begins with
    | expression first =>
      cases first
      have inside := Happens.step began (.expression rfl)
      have old := began.exists_frame
      exact inside.stays Begins.executesNothing old (fun _ => trivial) course here.symm

/-- In the course of a statement that declares nothing, what is assigned to a name of its frame is
assigned to a name that the frame binds. -/
theorem Happens.assigns_bound {k d : Nat} {target : Use} {value : Expr} {v : Value}
    {before mid : Machine}
    (course : ReflTransGen Begins ⟨.execute n s, m⟩
      ⟨.evaluate (k + 1) (.assign target value), before⟩)
    (known : before.distances[target.id]? = some d)
    (found : before.current.frames[d]? = some m.current.frame)
    (ran : evaluate k value before = .ok v mid) :
    (mid.store.bindings m.current.frame).contains target.name.lexeme = true := by
  have happens := h.course course
  have onwards : before.Changes ((initial clock).Wrote history) mid := by
    have changes := (Happens.step happens (.part rfl)).changes_wrote
    rwa [Moment.after_evaluate ran] at changes
  rcases happens.bound_or_pending known found with
    bound | ⟨name, initializer, j, declaring, began, same, here, positive, earlier⟩
  · exact onwards.contains bound
  -- The statement and the declaration run in the course of the moment that made their frame.
  rcases h.opened with outermost | ⟨o, site, made, opens, -, inside⟩
  · change m.current = .global at outermost
    rw [outermost] at positive
    exact absurd positive (Nat.lt_irrefl _)
  have inside' := began.course_of_opens made opens here
  suffices bound : (before.store.bindings m.current.frame).contains target.name.lexeme = true from
    onwards.contains bound
  rcases Moment.order_of_course inside.to_reflTransGen inside'.to_reflTransGen with
    course' | course' | first | last
  · cases h.not_declares plain course' rfl here
  · exact absurd course' (h.not_in_initializer plain began here)
  · -- Then the assignment has ended when the declaration begins.
    have old : m.current.frame < mid.store.frames.size :=
      Nat.lt_of_lt_of_le h.exists_frame (Nat.le_trans (h.changes_to course).size_le onwards.size_le)
    have later := (h.changes_from course).trans (first.before made).changes_wrote
    rw [Moment.after_evaluate (evaluate_assign known found ran)] at later
    exact earlier.names _ _ (later.contains (Store.contains_define_self _ _ old))
  · -- Then the declaration is complete when the statement begins.
    have bound := bound_of_declared made began last
    rw [here, same] at bound
    exact (h.changes_to course).contains bound

/-- In the course of a statement that declares nothing, a name that its frame does not bind is not
written there. -/
theorem Happens.not_writes (course : ReflTransGen Begins ⟨.execute n s, m⟩ b)
    (each : ∀ d ∈ b.children, (d.after.store.bindings m.current.frame).contains x = false)
    (v : Value) : ¬ b.Writes m.current.frame x v := by
  intro written
  generalize here : m.current.frame = frame at written
  cases written with
  | @assign k before target value v mid d frame ran known found =>
    have bound := h.assigns_bound plain course known (here ▸ found) ran
    have free := each _ (Moment.mem_children.mpr (.part rfl))
    rw [Moment.after_evaluate ran, bound] at free
    cases free
  | @assignGlobal k before target value v mid frame ran unknown found =>
    have bound := List.find?_some found
    have free := each _ (Moment.mem_children.mpr (.part rfl))
    rw [Moment.after_evaluate ran, here, bound] at free
    cases free
  | var | function | base | derived =>
    cases h.not_declares plain course rfl here.symm

/-- A statement that declares nothing leaves its frame with the names that it had. -/
theorem contains_after_iff (x : String) :
    ((Moment.after ⟨.execute n s, m⟩).store.bindings m.current.frame).contains x = true ↔
      (m.store.bindings m.current.frame).contains x = true := by
  refine ⟨fun bound => ?_, h.changes_wrote.contains⟩
  by_contra unbound
  have free := Bool.eq_false_iff.mpr unbound
  have inside (b : Moment) : ReflTransGen Begins ⟨.execute n s, m⟩ b →
      (b.machine.store.bindings m.current.frame).contains x = false →
      (b.after.store.bindings m.current.frame).contains x = false := by
    induction b using Begins.wellFounded.induction with
    | _ b ih =>
      intro course free
      have happens := h.course course
      have old := Nat.lt_of_lt_of_le h.exists_frame (h.changes_to course).size_le
      obtain ⟨each, last⟩ := happens.leads.not_contains (x := x) old free
        (fun v announced => by
          generalize here : m.current.frame = frame at announced
          cases announced
          cases h.not_declares plain course rfl here.symm)
        fun d mem older begun => by
          have begins := Moment.mem_children.mp mem
          have lasts := (Happens.step happens begins).changes_wrote.size_le
          exact ⟨Nat.lt_of_lt_of_le older lasts, ih d begins (course.tail begins) begun⟩
      exact last (h.not_writes plain course each)
  rw [inside _ .refl free] at bound
  cases bound

end Plain

end Session

end Lox
