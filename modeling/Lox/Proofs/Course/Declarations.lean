import Lox.Proofs.Activations

/-!
# Frames in which nothing is declared

Code runs in the global environment or in the course of the moment that made its frame, and what a
block or a call runs stays there. So the frame of a block without declarations never binds a name:
`Session.block_unbound`.
-/

namespace Lox

open Relation

variable {a b c : Moment} {φ : Nat} {x : String}

/-! ### Where code runs -/

/-- What comes in the course of a moment begins in its environment, or in the one that it makes. -/
theorem Begins.current (begins : Begins a b) : b.machine.current = a.machine.current ∨
    ∃ site, Opens a site b.machine.current ∧ site.isBody = true := by
  cases begins with
  | block => exact .inr ⟨_, .block, rfl⟩
  | called => exact .inr ⟨_, .call, rfl⟩
  | right ran | undecided ran | field ran | property ran | arguments ran =>
    exact .inl ((keepsCurrent.respects_evaluate _ _).of_ok ran)
  | tail ran | branch ran | body ran =>
    exact .inl ((keepsCurrent.respects_evaluate _ _).of_ok ran)
  | invoke ran all =>
    refine .inl (Eq.trans ?_ ((keepsCurrent.respects_evaluate _ _).of_ok ran))
    exact (keepsCurrent.respects_evaluateAll (keepsCurrent.respects_evaluate _) _).of_ok all
  | next ran => exact .inl ((keepsCurrent.respects_execute _ _).of_ok ran)
  | again tested _ ran =>
    refine .inl (Eq.trans ?_ ((keepsCurrent.respects_evaluate _ _).of_ok tested))
    exact (keepsCurrent.respects_execute _ _).of_ok ran
  | @callInitializer _ m c _ _ _ m' _ ran =>
    have same : m'.current = (m.withInstance c).current :=
      (keepsCurrent.respects_bindMethod _ _).of_ok ran
    exact .inl same
  | _ => exact .inl rfl

def Stmt.Plain (s : Stmt) : Prop := s.Proper ∧ s.declared? = none

/-- The task declares nothing in the environment in which it begins. -/
def Task.DeclaresNothing : Task → Prop
  | .execute _ s => s.Plain
  | .executeAll _ ss => ∀ s ∈ ss, s.Plain
  | .repeatWhile _ _ body _ => body.Plain
  | _ => True

def Task.ExecutesNothing : Task → Prop
  | .execute _ _ | .executeAll _ _ | .repeatWhile _ _ _ _ => False
  | _ => True

theorem Begins.declaresNothing (begins : Begins a b) (h : a.task.DeclaresNothing) :
    b.task.DeclaresNothing ∨ ∃ site, Opens a site b.machine.current := by
  cases begins with
  | block => exact .inr ⟨_, .block⟩
  | called => exact .inr ⟨_, .call⟩
  | @branch _ _ _ _ elseBranch value _ s tested chose =>
    obtain ⟨proper, -⟩ := h
    refine .inl ?_
    unfold chosen at chose
    split at chose
    · cases chose
      cases elseBranch with
      | none => exact proper.2
      | some other => exact proper.2.1
    · cases chose
      exact proper.2.2
  | loop => exact .inl h.1.2
  | first => exact .inl (h _ List.mem_cons_self)
  | next => exact .inl fun s mem => h s (List.mem_cons_of_mem _ mem)
  | body | again => exact .inl h
  | _ => exact .inl trivial

theorem Begins.executesNothing (begins : Begins a b) (h : a.task.ExecutesNothing) :
    b.task.ExecutesNothing ∨ ∃ site, Opens a site b.machine.current := by
  cases begins with
  | called => exact .inr ⟨_, .call⟩
  | block | expression | branch | loop | superclass | first | next | condition | body | again =>
    exact h.elim
  | _ => exact .inl trivial

theorem Stmt.declares_of_plain (s : Stmt) (h : s.Plain) : s.declares = [] := by
  obtain ⟨proper, plain⟩ := h
  cases s with
  | var | function | classDecl => cases plain
  | ifElse condition thenBranch elseBranch =>
    cases elseBranch with
    | none => exact thenBranch.declares_of_plain proper.2
    | some elseBranch =>
      rw [Stmt.declares, thenBranch.declares_of_plain proper.2.1,
        elseBranch.declares_of_plain proper.2.2]
      rfl
  | whileLoop condition body => exact body.declares_of_plain proper.2
  | _ => rfl
termination_by structural s

/-! ### Names in frames -/

namespace Machine.Changes

variable {W : Writing} {m m' : Machine} (h : m.Changes W m')

include h

theorem contains (bound : (m.store.bindings φ).contains x = true) :
    (m'.store.bindings φ).contains x = true := by
  have old : φ < m.store.frames.size := by
    refine Nat.lt_of_not_le fun outside => ?_
    rw [Store.bindings_of_size_le outside] at bound
    simp at bound
  rw [Std.TreeMap.contains_eq_isSome_getElem?] at bound ⊢
  rcases h.getElem?_cases (x := x) old with same | ⟨v, -, found⟩
  · rw [same]
    exact bound
  · rw [found]
    rfl

theorem not_contains (old : φ < m.store.frames.size)
    (free : (m.store.bindings φ).contains x = false) (unwritten : ∀ v, ¬ W φ x v) :
    (m'.store.bindings φ).contains x = false := by
  rw [Std.TreeMap.contains_eq_isSome_getElem?] at free ⊢
  rcases h.getElem?_cases (x := x) old with same | ⟨v, written, -⟩
  · rw [same]
    exact free
  · exact absurd written (unwritten v)

end Machine.Changes

namespace Session

variable {clock : Clock} {history : List Entry} {site : Site} {e : Environment}

/-- Code runs in the global environment or in the course of the moment that made its frame. -/
theorem Happens.opened (h : (initial clock).Happens history a) :
    a.machine.current = .global ∨ ∃ o site, (initial clock).Happens history o ∧
      Opens o site a.machine.current ∧ site.isBody = true ∧ TransGen Begins o a := by
  induction h with
  | @turn start p a runs turns =>
    obtain ⟨before, entry, later, -, executes, rfl⟩ := runs
    have outermost := ((kept clock before).executes executes).outermost
    cases turns with
    | statement _ ran | trailing _ ran =>
      exact .inl (((keepsCurrent.respects_interpret _).of_ok ran).trans outermost)
  | @step a b happens begins ih =>
    rcases begins.current with same | ⟨site, opens, body⟩
    · rw [same]
      rcases ih with outermost | ⟨o, site, made, opens, body, course⟩
      · exact .inl outermost
      · exact .inr ⟨o, site, made, opens, body, course.tail begins⟩
    · exact .inr ⟨a, site, happens, opens, body, .single begins⟩

/-- Code in the frame that a moment made runs in the course of the moment. -/
theorem Happens.course_of_opens (h : (initial clock).Happens history c)
    (made : (initial clock).Happens history a) (opens : Opens a site e)
    (here : c.machine.current.frame = e.frame) : TransGen Begins a c := by
  rcases h.opened with outermost | ⟨o, site', made', opens', -, course⟩
  · have positive : 0 < e.frame := by
      obtain ⟨_, _, _, -, -, ready⟩ := Session.ready clock made
      rw [opens.frame]
      exact ready.1.positive
    rw [outermost] at here
    exact absurd here (Nat.ne_of_lt positive)
  · obtain rfl := opens_unique made made' opens opens' here.symm
    exact course

/-- What a task leaves alone in its own environment is left alone in that frame in its course. -/
theorem Happens.stays {P : Task → Prop}
    (step : ∀ {b c}, Begins b c → P b.task → P c.task ∨ ∃ site, Opens b site c.machine.current)
    (h : (initial clock).Happens history a) (old : φ < a.machine.store.frames.size)
    (here : a.machine.current.frame = φ → P a.task) (course : ReflTransGen Begins a b)
    (there : b.machine.current.frame = φ) : P b.task := by
  induction course with
  | refl => exact here there
  | @tail b c course begins ih =>
    have older := Nat.lt_of_lt_of_le old (h.within course).1
    have new {site : Site} (opens : Opens b site c.machine.current) : False := by
      rw [opens.frame] at there
      exact absurd there (Nat.ne_of_gt older)
    rcases begins.current with same | ⟨site, opens, -⟩
    · exact (step begins (ih (same ▸ there))).resolve_right fun ⟨site, opens⟩ => new opens
    · exact (new opens).elim

/-! ### What is written -/

def Wrote (s : Session) (history : List Entry) : Writing :=
  fun frame x v => ∃ c, s.Happens history c ∧ (c.Announces frame x v ∨ c.Writes frame x v)

theorem Happens.changes_wrote (h : (initial clock).Happens history a) :
    a.machine.Changes ((initial clock).Wrote history) a.after :=
  h.changes.mono fun _ _ _ ⟨b, course, written⟩ => ⟨b, h.course course, written⟩

theorem Happens.changes_to (h : (initial clock).Happens history a)
    (course : ReflTransGen Begins a b) :
    a.machine.Changes ((initial clock).Wrote history) b.machine := by
  induction course with
  | refl => exact .refl _
  | @tail b c course begins ih =>
    have happens := h.course course
    have each (d : Moment) (mem : d ∈ b.children) :=
      (happens_of_mem_children happens mem).changes_wrote
    refine ih.trans ((happens.leads.changes_to each (Moment.mem_children.mpr begins)).mono ?_)
    rintro frame x v (announced | ⟨d, -, wrote⟩)
    · exact ⟨b, happens, .inl announced⟩
    · exact wrote

theorem Happens.changes_from (h : (initial clock).Happens history a)
    (course : ReflTransGen Begins a b) :
    b.after.Changes ((initial clock).Wrote history) a.after := by
  induction course with
  | refl => exact .refl _
  | @tail b c course begins ih =>
    have happens := h.course course
    have each (d : Moment) (mem : d ∈ b.children) :=
      (happens_of_mem_children happens mem).changes_wrote
    refine .trans ((happens.leads.changes_from each (Moment.mem_children.mpr begins)).mono ?_) ih
    rintro frame x v (written | ⟨d, -, wrote⟩)
    · exact ⟨b, happens, .inr written⟩
    · exact wrote

theorem Before.changes_wrote (h : (initial clock).Before history a b) :
    a.after.Changes ((initial clock).Wrote history) b.machine := by
  refine h.changes.mono ?_
  rintro frame x v (⟨written, -, later⟩ | ⟨announced, earlier, -⟩)
  · exact ⟨_, later.happens.1, .inr written⟩
  · exact ⟨_, earlier.happens.2, .inl announced⟩

/-! ### Blocks without declarations -/

section Block

variable {n : Nat} {body : List Stmt} {m : Machine}
  (h : (initial clock).Happens history ⟨.execute (n + 1) (.block body), m⟩)
  (plain : ∀ s ∈ body, s.Plain)

include h plain

/-- No moment writes to the frame of the block. -/
theorem not_wrote_block (x : String) (v : Value) :
    ¬ (initial clock).Wrote history m.store.frames.size x v := by
  rintro ⟨c, happens, written⟩
  have act : (initial clock).Activation history (.block body) m.store.frames.size :=
    ⟨rfl, _, _, h, .block, rfl⟩
  rcases refers_of_writes happens act written.symm with
    ⟨o, d, refers, -, rfl, -⟩ | ⟨k, s, task, declares, here⟩
  · have mem := refers.mem_names
    have none : body.flatMap Stmt.declares = [] :=
      List.flatMap_eq_nil_iff.mpr fun s mem => s.declares_of_plain (plain s mem)
    rw [Site.names, none] at mem
    cases mem
  · obtain ⟨d, begins, course⟩ := TransGen.head'_iff.mp (happens.course_of_opens h .block here)
    cases begins with
    | expression first => cases first
    | block =>
      have nothing := (Happens.step h .block).stays Begins.declaresNothing
        (by rw [Machine.size_enter]; exact Nat.lt_succ_self _) (fun _ => plain) course here
      rw [task] at nothing
      exact absurd (nothing.2.symm.trans declares) nofun

/-- The frame of a block without declarations never binds a name. -/
theorem block_unbound (happens : (initial clock).Happens history c) (x : String) :
    (c.machine.store.bindings m.store.frames.size).contains x = false ∧
      (c.after.store.bindings m.store.frames.size).contains x = false := by
  have inside := h.step (Begins.block (n := n))
  have old : m.store.frames.size < (m.enter m.current ∅).store.frames.size := by
    rw [Machine.size_enter]
    exact Nat.lt_succ_self _
  have empty : ((m.enter m.current ∅).store.bindings m.store.frames.size).contains x = false := by
    change ((m.push m.current ∅).store.bindings (m.child m.current).frame).contains x = false
    rw [Machine.bindings_push]
    simp
  have free {m' : Machine} (later : (m.enter m.current ∅).Changes ((initial clock).Wrote history) m') :
      (m'.store.bindings m.store.frames.size).contains x = false :=
    later.not_contains old empty (not_wrote_block h plain x)
  have early {m' : Machine} (size : m'.store.frames.size ≤ m.store.frames.size) :
      (m'.store.bindings m.store.frames.size).contains x = false := by
    rw [Store.bindings_of_size_le size]
    simp
  have ended := inside.changes_wrote.trans (h.changes_from (.single .block))
  rcases comparable h happens with course | course | before | before
  · rcases course.cases_head with rfl | ⟨d, begins, course⟩
    · exact ⟨early (Nat.le_refl _), free ended⟩
    · cases begins with
      | expression first => cases first
      | block =>
        have here := inside.changes_to course
        exact ⟨free here, free (here.trans happens.changes_wrote)⟩
  · exact ⟨early (happens.within course).1, free (ended.trans (happens.changes_from course))⟩
  · have here := ended.trans before.changes_wrote
    exact ⟨free here, free (here.trans happens.changes_wrote)⟩
  · have size := before.changes_wrote.size_le
    exact ⟨early (Nat.le_trans happens.changes_wrote.size_le size), early size⟩

end Block

end Session

end Lox
