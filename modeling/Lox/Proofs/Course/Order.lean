import Mathlib.Logic.Relation
import Lox.Proofs.Agreement
import Lox.Proofs.Course

/-!
# The order of moments

Of two moments in a history either one has ended before the other begins, or one comes in the course
of the other. What lies between two moments tells how the frames change from the end of the first to
the beginning of the second: `Session.Before.changes`.
-/

namespace Lox

open Relation

/-! ### Histories in order -/

def Stmt.turns (m : Machine) : List Stmt → List Moment
  | [] => []
  | s :: ss => ⟨.execute limit s, m⟩ :: whenOk (s.execute m) fun _ m => Stmt.turns m ss

def Program.turns (p : Program) (start : Machine) : List Moment :=
  Stmt.turns start p.statements ++ whenOk (interpret p.statements start) fun _ m =>
    (p.trailing.map fun e => ⟨.evaluate limit e, m⟩).toList

theorem Stmt.mem_turns {ss : List Stmt} {m : Machine} {a : Moment} :
    a ∈ Stmt.turns m ss ↔ ∃ before s later mid, ss = before ++ s :: later ∧
      interpret before m = .ok () mid ∧ a = ⟨.execute limit s, mid⟩ := by
  induction ss generalizing m with
  | nil => simp [Stmt.turns]
  | cons s ss ih =>
    constructor
    · intro mem
      rcases List.mem_cons.mp mem with rfl | mem
      · exact ⟨[], s, ss, m, rfl, rfl, rfl⟩
      · obtain ⟨flow, next, ran, mem⟩ := mem_whenOk.mp mem
        obtain ⟨before, t, later, mid, rfl, front, rfl⟩ := ih.mp mem
        exact ⟨s :: before, t, later, mid, rfl, (bind_of_ok ran).trans front, rfl⟩
    · rintro ⟨before, t, later, mid, split, front, rfl⟩
      cases before with
      | nil =>
        cases split
        cases front
        exact List.mem_cons_self
      | cons s' before =>
        cases split
        obtain ⟨flow, next, ran, front⟩ := bind_ok front
        refine List.mem_cons_of_mem _ (mem_whenOk.mpr ⟨flow, next, ran, ?_⟩)
        exact ih.mpr ⟨before, t, later, mid, rfl, front, rfl⟩

theorem Program.mem_turns {p : Program} {start : Machine} {a : Moment} :
    a ∈ p.turns start ↔ p.Turns start a := by
  constructor
  · intro mem
    rcases List.mem_append.mp mem with mem | mem
    · obtain ⟨before, s, later, mid, split, ran, rfl⟩ := Stmt.mem_turns.mp mem
      exact .statement split ran
    · obtain ⟨⟨⟩, m, ran, mem⟩ := mem_whenOk.mp mem
      obtain ⟨e, here, rfl⟩ := Option.map_eq_some_iff.mp (Option.mem_toList.mp mem)
      exact .trailing here ran
  · rintro (⟨split, ran⟩ | ⟨here, ran⟩)
    · exact List.mem_append_left _ (Stmt.mem_turns.mpr ⟨_, _, _, _, split, ran, rfl⟩)
    · refine List.mem_append_right _ (mem_whenOk.mpr ⟨_, _, ran, ?_⟩)
      simp [here]

namespace Session

instance (s : Session) (entry : Entry) :
    Decidable (s.Executes entry (entry.parsed s.nextId).result) :=
  decidable_of_iff (s.diagnostics.hadError = false ∧ (scan entry.source).faults = [] ∧
      (entry.parsed s.nextId).errors = [] ∧ (entry.parsed s.nextId).result.resolve.errors = [])
    ⟨fun ⟨clear, scanned, parsed, resolved⟩ => ⟨clear, scanned, parsed, rfl, resolved⟩,
      fun h => ⟨h.clear, h.scanned, h.parsed, h.resolved⟩⟩

def turnsOf (s : Session) (entry : Entry) : List Moment :=
  let p := (entry.parsed s.nextId).result
  if s.Executes entry p then p.turns (s.start p) else []

def turns (s : Session) : List Entry → List Moment
  | [] => []
  | entry :: later => s.turnsOf entry ++ (s.enter entry).2.turns later

theorem mem_turnsOf {s : Session} {entry : Entry} {a : Moment} :
    a ∈ s.turnsOf entry ↔ ∃ p, s.Executes entry p ∧ p.Turns (s.start p) a := by
  unfold turnsOf
  dsimp only
  split
  next executes =>
    rw [Program.mem_turns]
    constructor
    · exact fun turns => ⟨_, executes, turns⟩
    · rintro ⟨p, executes', turns⟩
      exact executes'.program ▸ turns
  next idle =>
    constructor
    · exact fun mem => nomatch mem
    · rintro ⟨p, executes, -⟩
      exact absurd (executes.program ▸ executes) idle

theorem mem_turns {s : Session} {history : List Entry} {a : Moment} :
    a ∈ s.turns history ↔ ∃ start p, s.Runs history start p ∧ p.Turns start a := by
  induction history generalizing s with
  | nil =>
    constructor
    · exact fun mem => nomatch mem
    · rintro ⟨start, p, ⟨before, entry, later, split, -⟩, -⟩
      cases before <;> cases split
  | cons entry later ih =>
    rw [turns, List.mem_append, mem_turnsOf, ih]
    constructor
    · rintro (⟨p, executes, turns⟩ | ⟨start, p, ⟨before, entry', rest, rfl, executes, rfl⟩, turns⟩)
      · exact ⟨_, p, ⟨[], entry, later, rfl, executes, rfl⟩, turns⟩
      · exact ⟨_, p, ⟨entry :: before, entry', rest, rfl, executes, rfl⟩, turns⟩
    · rintro ⟨start, p, ⟨before, entry', rest, split, executes, rfl⟩, turns⟩
      cases before with
      | nil =>
        cases split
        exact .inl ⟨p, executes, turns⟩
      | cons entry before =>
        cases split
        exact .inr ⟨_, p, ⟨before, entry', rest, rfl, executes, rfl⟩, turns⟩

end Session

namespace Machine.Leads

variable {before after : Writing} {m mid m' : Machine} {bs cs : List Moment}

theorem append (h : m.Leads before .nothing bs mid) (h' : mid.Leads .nothing after cs m') :
    m.Leads before after (bs ++ cs) m' := by
  induction bs generalizing m before with
  | nil =>
    obtain ⟨last, first, rest⟩ := h
    exact .start (first.trans rest.of_nothing) h'
  | cons b bs ih => exact ⟨h.1, ih h.2⟩

theorem bind_append {α β : Type} {p : Run α} {f : α → Run β} {next : α → Machine → List Moment}
    (first : m.Leads before .nothing bs (stateAfter p m))
    (rest : ∀ a mid, p m = .ok a mid →
      mid.Leads .nothing after (next a mid) (stateAfter (f a) mid)) :
    m.Leads before after (bs ++ whenOk (p m) next) (stateAfter (p >>= f) m) := by
  refine first.append ?_
  unfold stateAfter
  rw [bind_apply]
  cases ran : p m with
  | ok a mid => exact rest a mid ran
  | error e mid => exact .same rfl

end Machine.Leads

theorem Stmt.leads_turns (ss : List Stmt) (m : Machine) {before after : Writing} :
    m.Leads before after (Stmt.turns m ss) (stateAfter (interpret ss) m) := by
  induction ss generalizing m before with
  | nil => exact .same rfl
  | cons s ss ih => exact .bind rfl fun _ mid _ => ih mid

theorem Program.leads_turns (p : Program) (start : Machine) {before after : Writing} :
    start.Leads before after (p.turns start) (stateAfter p.run start) := by
  refine .bind_append (Stmt.leads_turns p.statements start) fun _ m _ => ?_
  cases p.trailing with
  | none => exact .same rfl
  | some e => exact .bind_last rfl fun _ mid _ => .refl mid

namespace Session

theorem leads_turnsOf (s : Session) (entry : Entry) {before after : Writing} :
    s.machine.Leads before after (s.turnsOf entry) (s.enter entry).2.machine := by
  unfold turnsOf
  dsimp only
  split
  next executes =>
    rw [enter_machine executes]
    have started : s.machine.Changes before (s.start (entry.parsed s.nextId).result) := .same rfl
    exact .start started (Program.leads_turns _ _)
  next idle =>
    rw [enter_machine_idle fun p executes => idle (executes.program ▸ executes)]
    exact .same rfl

theorem leads_turns (s : Session) (history : List Entry) {before after : Writing} :
    s.machine.Leads before after (s.turns history) (s.afterAll history).machine := by
  induction history generalizing s before with
  | nil => exact .same rfl
  | cons entry later ih => exact (s.leads_turnsOf entry).append (ih _)

end Session

/-! ### What lies between moments -/

/-- Two members of a list are one, or one of them comes first. -/
theorem eq_or_sublist {α : Type} {a b : α} {l : List α} (ha : a ∈ l) (hb : b ∈ l) :
    a = b ∨ [a, b].Sublist l ∨ [b, a].Sublist l := by
  induction l with
  | nil => cases ha
  | cons c l ih =>
    rcases List.mem_cons.mp ha with rfl | inside <;>
      rcases List.mem_cons.mp hb with rfl | inside'
    · exact .inl rfl
    · exact .inr (.inl (.cons_cons _ (List.singleton_sublist.mpr inside')))
    · exact .inr (.inr (.cons_cons _ (List.singleton_sublist.mpr inside)))
    · rcases ih inside inside' with same | first | last
      · exact .inl same
      · exact .inr (.inl (.cons c first))
      · exact .inr (.inr (.cons c last))

namespace Machine.Leads

variable {before after : Writing} {m m' : Machine} {bs : List Moment} {b c : Moment}
  {V : Moment → Writing}

theorem changes_to (h : m.Leads before after bs m')
    (each : ∀ d ∈ bs, d.machine.Changes (V d) d.after) (mem : c ∈ bs) :
    m.Changes (fun frame x v => before frame x v ∨ ∃ d, [d, c].Sublist bs ∧ V d frame x v)
      c.machine := by
  induction bs generalizing m before with
  | nil => cases mem
  | cons b bs ih =>
    obtain ⟨first, rest⟩ := h
    have opened : m.Changes (fun frame x v => before frame x v ∨
        ∃ d, [d, c].Sublist (b :: bs) ∧ V d frame x v) b.machine :=
      first.mono fun _ _ _ written => .inl written
    rcases List.mem_cons.mp mem with rfl | mem
    · exact opened
    · have own := each b List.mem_cons_self
      have others := ih rest (fun d mem => each d (List.mem_cons_of_mem b mem)) mem
      refine opened.trans (.trans (own.mono fun _ _ _ written => ?_) (others.mono ?_))
      · exact .inr ⟨b, .cons_cons b (List.singleton_sublist.mpr mem), written⟩
      · rintro frame x v (⟨⟨⟩⟩ | ⟨d, sub, written⟩)
        exact .inr ⟨d, .cons b sub, written⟩

theorem changes (h : m.Leads before after bs m')
    (each : ∀ d ∈ bs, d.machine.Changes (V d) d.after) :
    m.Changes (fun frame x v => before frame x v ∨ after frame x v ∨ ∃ d ∈ bs, V d frame x v)
      m' := by
  induction bs generalizing m before with
  | nil =>
    obtain ⟨mid, first, rest⟩ := h
    exact .trans (first.mono fun _ _ _ written => .inl written)
      (rest.mono fun _ _ _ written => .inr (.inl written))
  | cons b bs ih =>
    obtain ⟨first, rest⟩ := h
    have own := each b List.mem_cons_self
    have others := ih rest fun d mem => each d (List.mem_cons_of_mem b mem)
    refine .trans (first.mono fun _ _ _ written => .inl written)
      (.trans (own.mono fun _ _ _ written => ?_) (others.mono ?_))
    · exact .inr (.inr ⟨b, List.mem_cons_self, written⟩)
    · rintro frame x v (⟨⟨⟩⟩ | written | ⟨d, mem, written⟩)
      · exact .inr (.inl written)
      · exact .inr (.inr ⟨d, List.mem_cons_of_mem b mem, written⟩)

theorem changes_from (h : m.Leads before after bs m')
    (each : ∀ d ∈ bs, d.machine.Changes (V d) d.after) (mem : b ∈ bs) :
    b.after.Changes (fun frame x v => after frame x v ∨ ∃ d, [b, d].Sublist bs ∧ V d frame x v)
      m' := by
  induction bs generalizing m before with
  | nil => cases mem
  | cons e bs ih =>
    obtain ⟨first, rest⟩ := h
    have others : ∀ d ∈ bs, d.machine.Changes (V d) d.after :=
      fun d mem => each d (List.mem_cons_of_mem e mem)
    rcases List.mem_cons.mp mem with rfl | mem
    · refine (rest.changes others).mono ?_
      rintro frame x v (⟨⟨⟩⟩ | written | ⟨d, mem, written⟩)
      · exact .inl written
      · exact .inr ⟨d, .cons_cons b (List.singleton_sublist.mpr mem), written⟩
    · refine (ih rest others mem).mono ?_
      rintro frame x v (written | ⟨d, sub, written⟩)
      · exact .inl written
      · exact .inr ⟨d, .cons e sub, written⟩

theorem changes_between (h : m.Leads before after bs m')
    (each : ∀ d ∈ bs, d.machine.Changes (V d) d.after) (later : [b, c].Sublist bs) :
    b.after.Changes
      (fun frame x v => ∃ d, [b, d].Sublist bs ∧ [d, c].Sublist bs ∧ V d frame x v) c.machine := by
  induction bs generalizing m before with
  | nil => cases later
  | cons e bs ih =>
    obtain ⟨first, rest⟩ := h
    have others : ∀ d ∈ bs, d.machine.Changes (V d) d.after :=
      fun d mem => each d (List.mem_cons_of_mem e mem)
    cases later with
    | cons _ later =>
      refine (ih rest others later).mono ?_
      rintro frame x v ⟨d, sub, sub', written⟩
      exact ⟨d, .cons e sub, .cons e sub', written⟩
    | cons_cons _ later =>
      refine (rest.changes_to others (List.singleton_sublist.mp later)).mono ?_
      rintro frame x v (⟨⟨⟩⟩ | ⟨d, sub, written⟩)
      have mem : d ∈ bs := sub.subset List.mem_cons_self
      exact ⟨d, .cons_cons b (List.singleton_sublist.mpr mem), .cons b sub, written⟩

end Machine.Leads

namespace Moment

/-- A superclass is looked up at once. -/
theorem Announces.not_begins {w b c : Moment} {frame : Nat} {x : String} {v : Value}
    (announced : w.Announces frame x v) (under : Begins w b) : ¬ Begins b c := by
  intro begins
  cases announced
  cases under with
  | expression first => cases first
  | superclass =>
    cases begins with
    | part first => cases first

def CourseWrites (a : Moment) : Writing :=
  fun frame x v => ∃ b, ReflTransGen Begins a b ∧ (b.Announces frame x v ∨ b.Writes frame x v)

end Moment

namespace Session

section

variable {s : Session} {clock : Clock} {history : List Entry} {a b : Moment}

theorem Happens.course (h : s.Happens history a) (course : ReflTransGen Begins a b) :
    s.Happens history b := by
  induction course with
  | refl => exact h
  | tail _ begins ih => exact .step ih begins

theorem happens_of_mem_turns (mem : a ∈ s.turns history) : s.Happens history a := by
  obtain ⟨start, p, runs, turns⟩ := mem_turns.mp mem
  exact .turn runs turns

theorem happens_of_mem_children (h : s.Happens history a) (mem : b ∈ a.children) :
    s.Happens history b := .step h (Moment.mem_children.mp mem)

theorem Happens.leads (h : (initial clock).Happens history a) :
    a.machine.Leads a.Announces a.Writes a.children a.after := by
  refine a.leads fun n s task => ?_
  obtain ⟨before, entry, later, -, -, ready⟩ := Session.ready clock h
  obtain ⟨task', m⟩ := a
  cases task
  obtain ⟨heap, -, ls, place, -, -⟩ := ready
  exact place.fits.exists_frame heap

theorem Happens.changes (h : (initial clock).Happens history a) :
    a.machine.Changes a.CourseWrites a.after := by
  induction a using Begins.wellFounded.induction with
  | _ a ih =>
    have each (b : Moment) (mem : b ∈ a.children) : b.machine.Changes b.CourseWrites b.after :=
      ih b (Moment.mem_children.mp mem) (happens_of_mem_children h mem)
    refine (h.leads.changes each).mono ?_
    rintro frame x v (announced | written | ⟨b, mem, w, course, written⟩)
    · exact ⟨a, .refl, .inl announced⟩
    · exact ⟨a, .refl, .inr written⟩
    · exact ⟨w, course.head (Moment.mem_children.mp mem), written⟩

end

/-- The first moment has ended when the second begins. -/
inductive Before (s : Session) (history : List Entry) : Moment → Moment → Prop
  | turns {b c} : [b, c].Sublist (s.turns history) → Before s history b c
  | children {a b c} : s.Happens history a → [b, c].Sublist a.children → Before s history b c
  | left {a b c} : Before s history a c → Begins a b → Before s history b c
  | right {a b c} : Before s history a b → Begins b c → Before s history a c

variable {s : Session} {clock : Clock} {history : List Entry} {a b c : Moment}

namespace Before

theorem happens (h : s.Before history a b) : s.Happens history a ∧ s.Happens history b := by
  induction h with
  | turns sub =>
    exact ⟨happens_of_mem_turns (sub.subset (by simp)), happens_of_mem_turns (sub.subset (by simp))⟩
  | children h sub =>
    exact ⟨happens_of_mem_children h (sub.subset (by simp)),
      happens_of_mem_children h (sub.subset (by simp))⟩
  | left _ begins ih => exact ⟨.step ih.1 begins, ih.2⟩
  | right _ begins ih => exact ⟨ih.1, .step ih.2 begins⟩

theorem left_course (h : s.Before history a c) (course : ReflTransGen Begins a b) :
    s.Before history b c := by
  induction course with
  | refl => exact h
  | tail _ begins ih => exact .left ih begins

theorem right_course (h : s.Before history a b) (course : ReflTransGen Begins b c) :
    s.Before history a c := by
  induction course with
  | refl => exact h
  | tail _ begins ih => exact .right ih begins

end Before

/-- What is written after the end of the first moment and before the beginning of the second. A
moment writes at its end; only the name of a class is also written before, and that class may be
under way when the second moment begins. -/
inductive Between (s : Session) (history : List Entry) (a b : Moment) : Nat → String → Value → Prop
  | written {w frame x v} : w.Writes frame x v → s.Before history a w ∨ TransGen Begins w a →
    s.Before history w b → Between s history a b frame x v
  | announced {w frame x v} : w.Announces frame x v → s.Before history a w →
    s.Before history w b ∨ Begins w b → Between s history a b frame x v

theorem between_of_course {d w : Moment} (first : s.Before history a d)
    (last : s.Before history d b) (course : ReflTransGen Begins d w) {frame : Nat} {x : String} {v : Value}
    (h : w.Announces frame x v ∨ w.Writes frame x v) : s.Between history a b frame x v := by
  rcases h with announced | written
  · exact .announced announced (first.right_course course) (.inl (last.left_course course))
  · exact .written written (.inl (first.right_course course)) (last.left_course course)

theorem Before.changes_left (earlier : (initial clock).Before history a c) (begins : Begins a b)
    (changed : a.after.Changes ((initial clock).Between history a c) c.machine) :
    b.after.Changes ((initial clock).Between history b c) c.machine := by
  have h := earlier.happens.1
  have each (d : Moment) (mem : d ∈ a.children) := (happens_of_mem_children h mem).changes
  have rest := h.leads.changes_from each (Moment.mem_children.mpr begins)
  refine .trans (rest.mono ?_) (changed.mono ?_)
  · rintro frame x v (written | ⟨d, sub, w, course, written⟩)
    · exact .written written (.inr (.single begins)) earlier
    · have inside : d ∈ a.children := sub.subset (by simp)
      exact between_of_course (.children h sub)
        (.left earlier (Moment.mem_children.mp inside)) course written
  · rintro frame x v (⟨written, first, last⟩ | ⟨announced, first, last⟩)
    · refine .written written ?_ last
      rcases first with first | around
      · exact .inl (.left first begins)
      · exact .inr (around.tail begins)
    · exact .announced announced (.left first begins) last

theorem Before.changes_right (earlier : (initial clock).Before history a b) (begins : Begins b c)
    (changed : a.after.Changes ((initial clock).Between history a b) b.machine) :
    a.after.Changes ((initial clock).Between history a c) c.machine := by
  have h := earlier.happens.2
  have each (d : Moment) (mem : d ∈ b.children) := (happens_of_mem_children h mem).changes
  have start := h.leads.changes_to each (Moment.mem_children.mpr begins)
  refine .trans (changed.mono ?_) (start.mono ?_)
  · rintro frame x v (⟨written, first, last⟩ | ⟨announced, first, last⟩)
    · exact .written written first (.right last begins)
    · refine .announced announced first ?_
      rcases last with last | under
      · exact .inl (.right last begins)
      · exact absurd begins (announced.not_begins under)
  · rintro frame x v (announced | ⟨d, sub, w, course, written⟩)
    · exact .announced announced earlier (.inr begins)
    · have inside : d ∈ b.children := sub.subset (by simp)
      exact between_of_course (.right earlier (Moment.mem_children.mp inside))
        (.children h sub) course written

/-- Between two moments the frames change by what is written between them. -/
theorem Before.changes (h : (initial clock).Before history a b) :
    a.after.Changes ((initial clock).Between history a b) b.machine := by
  induction h with
  | @turns a b sub =>
    have all : Machine.Leads .nothing .nothing _ _ _ := (initial clock).leads_turns history
    refine (all.changes_between (fun d mem => (happens_of_mem_turns mem).changes) sub).mono ?_
    rintro frame x v ⟨d, first, last, w, course, written⟩
    exact between_of_course (.turns first) (.turns last) course written
  | @children a b c h sub =>
    have each (d : Moment) (mem : d ∈ a.children) := (happens_of_mem_children h mem).changes
    refine (h.leads.changes_between each sub).mono ?_
    rintro frame x v ⟨d, first, last, w, course, written⟩
    exact between_of_course (.children h first) (.children h last) course written
  | left earlier begins ih => exact earlier.changes_left begins ih
  | right earlier begins ih => exact earlier.changes_right begins ih

/-! ### Any two moments -/

/-- One moment comes in the course of the other, or one has ended when the other begins. -/
def Comparable (s : Session) (history : List Entry) (a b : Moment) : Prop :=
  ReflTransGen Begins a b ∨ ReflTransGen Begins b a ∨ s.Before history a b ∨ s.Before history b a

theorem comparable_of_course (h : s.Happens history c) (ha : ReflTransGen Begins c a)
    (hb : ReflTransGen Begins c b) : s.Comparable history a b := by
  induction ha using ReflTransGen.head_induction_on with
  | refl => exact .inl hb
  | @head c c₁ begins ha ih =>
    rcases hb.cases_head with rfl | ⟨c₂, begins', hb⟩
    · exact .inr (.inl (ha.head begins))
    rcases eq_or_sublist (Moment.mem_children.mpr begins) (Moment.mem_children.mpr begins') with
      rfl | first | last
    · exact ih (.step h begins) hb
    · exact .inr (.inr (.inl (((Before.children h first).left_course ha).right_course hb)))
    · exact .inr (.inr (.inr (((Before.children h last).left_course hb).right_course ha)))

theorem Happens.from_turn (h : s.Happens history a) :
    ∃ t ∈ s.turns history, ReflTransGen Begins t a := by
  induction h with
  | turn runs turns => exact ⟨_, mem_turns.mpr ⟨_, _, runs, turns⟩, .refl⟩
  | step _ begins ih =>
    obtain ⟨t, mem, course⟩ := ih
    exact ⟨t, mem, course.tail begins⟩

theorem comparable (ha : s.Happens history a) (hb : s.Happens history b) :
    s.Comparable history a b := by
  obtain ⟨t, mem, course⟩ := ha.from_turn
  obtain ⟨u, mem', course'⟩ := hb.from_turn
  rcases eq_or_sublist mem mem' with rfl | first | last
  · exact comparable_of_course (happens_of_mem_turns mem) course course'
  · exact .inr (.inr (.inl (((Before.turns first).left_course course).right_course course')))
  · exact .inr (.inr (.inr (((Before.turns last).left_course course').right_course course)))

end Session

end Lox
