import Lox.Proofs.Course.Declarations
import Lox.Proofs.ForLoops.Rounds

/-!
# Clauses of loops

Which variables the clauses of a `for` loop use. Each execution of a block has one frame, and all code
of the block finds the names of the block there: `Session.frame_of_refers`. In a loop these are the
condition and the increment too, in every round: `ForLoop.finds_clause`.
-/

namespace Lox

open Relation

/-! ### Uses in clauses -/

mutual

/-- The uses in an expression, apart from those in functions. -/
def Expr.ownUses : Expr → List (UseKind × Use)
  | .literal _ => []
  | .grouping inner => inner.ownUses
  | .unary _ operand => operand.ownUses
  | .binary left _ right => left.ownUses ++ right.ownUses
  | .logical left _ right => left.ownUses ++ right.ownUses
  | .variable use => [(.variable, use)]
  | .assign target value => (.assign, target) :: value.ownUses
  | .this use => [(.this, use)]
  | .super use _ => [(.super, use)]
  | .call callee _ arguments => callee.ownUses ++ Expr.ownUsesAll arguments
  | .get object _ => object.ownUses
  | .set object _ value => object.ownUses ++ value.ownUses
  | .lambda _ _ => []
termination_by structural e => e

def Expr.ownUsesAll : List Expr → List (UseKind × Use)
  | [] => []
  | e :: es => e.ownUses ++ Expr.ownUsesAll es
termination_by structural es => es

end

mutual

/-- Around the uses apart from functions there are the scopes around the expression. -/
theorem Expr.occurrences_of_own {ls : Levels} (e : Expr) {kind : UseKind} {use : Use}
    (mem : (kind, use) ∈ e.ownUses) : ⟨kind, use, ls⟩ ∈ e.occurrences ls := by
  cases e with
  | literal | lambda => cases mem
  | grouping inner => exact inner.occurrences_of_own mem
  | unary operator operand => exact operand.occurrences_of_own mem
  | binary left operator right | logical left operator right =>
    rcases List.mem_append.mp mem with mem | mem
    · exact List.mem_append_left _ (left.occurrences_of_own mem)
    · exact List.mem_append_right _ (right.occurrences_of_own mem)
  | «variable» | this | super =>
    cases List.mem_singleton.mp mem
    exact List.mem_cons_self
  | assign target value =>
    rcases List.mem_cons.mp mem with same | mem
    · cases same
      exact List.mem_append_right _ List.mem_cons_self
    · exact List.mem_append_left _ (value.occurrences_of_own mem)
  | call callee paren arguments =>
    rcases List.mem_append.mp mem with mem | mem
    · exact List.mem_append_left _ (callee.occurrences_of_own mem)
    · exact List.mem_append_right _ (Expr.occurrencesAll_of_own arguments mem)
  | get object name => exact object.occurrences_of_own mem
  | set object name value =>
    rcases List.mem_append.mp mem with mem | mem
    · exact List.mem_append_right _ (object.occurrences_of_own mem)
    · exact List.mem_append_left _ (value.occurrences_of_own mem)
termination_by structural e

theorem Expr.occurrencesAll_of_own {ls : Levels} (es : List Expr) {kind : UseKind} {use : Use}
    (mem : (kind, use) ∈ Expr.ownUsesAll es) : ⟨kind, use, ls⟩ ∈ Expr.occurrencesAll ls es := by
  cases es with
  | nil => cases mem
  | cons e es =>
    rcases List.mem_append.mp mem with mem | mem
    · exact List.mem_append_left _ (e.occurrences_of_own mem)
    · exact List.mem_append_right _ (Expr.occurrencesAll_of_own es mem)
termination_by structural es

end

/-! ### The code of a loop -/

namespace Moment

/-- The second moment comes in the course of the first, in the same code: no function is called in
between. -/
def Directly : Moment → Moment → Prop :=
  ReflTransGen fun a b => Begins a b ∧ ∀ n f arguments, b.task ≠ .invoke n f arguments

variable {a b : Moment}

theorem Directly.course (h : a.Directly b) : ReflTransGen Begins a b :=
  ReflTransGen.mono (fun _ _ step => step.1) _ _ h

end Moment

/-- A call begins only where a value is invoked. -/
theorem Begins.task_ne_call {a b : Moment} (begins : Begins a b)
    (other : ∀ n f arguments, a.task ≠ .invoke n f arguments) (n : Nat) (f : Closure)
    (arguments : List Value) : b.task ≠ .call n f arguments := by
  intro called
  cases begins with
  | function | callInitializer => exact other _ _ _ rfl
  | _ => cases called

/-- Code runs in the environment in which it begins, or further inside. -/
theorem Moment.Directly.suffix {a b : Moment} (h : a.Directly b)
    (notInvoked : ∀ n f arguments, a.task ≠ .invoke n f arguments)
    (notCalled : ∀ n f arguments, a.task ≠ .call n f arguments) :
    a.machine.current.frames <:+ b.machine.current.frames := by
  suffices a.machine.current.frames <:+ b.machine.current.frames ∧
      (∀ n f arguments, b.task ≠ .invoke n f arguments) ∧
      ∀ n f arguments, b.task ≠ .call n f arguments from this.1
  induction h with
  | refl => exact ⟨List.suffix_rfl, notInvoked, notCalled⟩
  | @tail b c _ step ih =>
    obtain ⟨begins, direct⟩ := step
    obtain ⟨inside, notInvoked, notCalled⟩ := ih
    refine ⟨inside.trans ?_, direct, begins.task_ne_call notInvoked⟩
    rcases begins.current with same | ⟨site, opens, body⟩
    · exact same ▸ List.suffix_rfl
    · generalize c.machine.current = e at opens
      cases opens with
      | block => exact List.suffix_cons _ _
      | call => exact absurd rfl (notCalled _ _ _)
      | bind | superclass => cases body

namespace Session

variable {clock : Clock} {history : List Entry} {c : Moment} {o : Occurrence} {d φ : Nat}

/-- Each execution of a block has a frame of its own, and all code of the block finds the names of the
block there. -/
theorem frame_of_refers {n : Nat} {body : List Stmt} {m : Machine}
    (h : (initial clock).Happens history ⟨.execute n (.block body), m⟩)
    (direct : Moment.Directly ⟨.execute n (.block body), m⟩ c)
    (refers : (initial clock).Refers history c o d (.block body)) :
    c.machine.current.frames[d]? = some m.store.frames.size := by
  rcases direct.cases_head with rfl | ⟨b, ⟨begins, -⟩, direct⟩
  · cases refers.used
  cases begins with
  | expression first => cases first
  | @block n =>
    have inside := Moment.Directly.suffix direct nofun nofun
    obtain ⟨i, there⟩ := List.mem_iff_getElem?.mp (inside.subset List.mem_cons_self)
    change c.machine.current.frames[i]? = some m.store.frames.size at there
    obtain ⟨ψ, found, -⟩ := refers.activation
    obtain ⟨level, here, same⟩ := refers.scope
    have act : (initial clock).Activation history level.site m.store.frames.size :=
      same ▸ ⟨rfl, _, _, h, .block, rfl⟩
    rw [refers.framed.eq_of_activation (occurs_nested refers.occurs) here found there act]
    exact found

theorem Refers.bound {site : Site} (refers : (initial clock).Refers history c o d site)
    (found : c.machine.current.frames[d]? = some φ) {l : Level} (level : o.levels[d]? = some l)
    (complete : l.scope[o.use.name.lexeme]? = some true) :
    (c.machine.store.bindings φ).contains o.use.name.lexeme = true := by
  obtain ⟨n, e, m, rfl, used⟩ := Moment.use?_eq_some refers.used
  obtain ⟨_, _, later, rfl, -, heap, -, ls, place, occurs⟩ := Session.ready clock refers.happens
  have here := occurs _ (e.mem_occurrences_of_use? used ls)
  obtain rfl : o.levels = ls :=
    congrArg Occurrence.levels (occurs_unique refers.occurs (here.later later) rfl)
  obtain ⟨frame, a, outer, found', -, made⟩ := place.fits.level level
  obtain rfl := Option.some.inj (found'.symm.trans found)
  exact made.binds.complete _ complete

end Session

namespace ForLoop

variable {l : ForLoop}

def clauseUses (l : ForLoop) : List (UseKind × Use) :=
  (l.condition.map Expr.ownUses).getD [] ++ (l.increment.map Expr.ownUses).getD []

/-- Between a use in a clause and the scopes around the loop there is at most the scope around a
round, which holds no name. -/
theorem occurrences_of_clause (ls : Levels) {kind : UseKind} {use : Use}
    (mem : (kind, use) ∈ l.clauseUses) : ∃ inner : Levels,
      ⟨kind, use, inner ++ ls⟩ ∈ l.loop.occurrences ls ∧ ∀ k ∈ inner, k.scope = ∅ := by
  have parts : l.loop.occurrences ls = l.test.occurrences ls ++ l.round.occurrences ls := by
    rw [loop, Stmt.occurrences]
  rw [parts]
  rcases List.mem_append.mp mem with mem | mem
  · cases cond : l.condition with
    | none =>
      rw [cond] at mem
      cases mem
    | some e =>
      rw [cond] at mem
      refine ⟨[], List.mem_append_left _ ?_, List.forall_mem_nil _⟩
      rw [test, cond]
      exact e.occurrences_of_own mem
  · cases inc : l.increment with
    | none =>
      rw [inc] at mem
      cases mem
    | some e =>
      rw [inc] at mem
      refine ⟨[.block [l.body, .expression e]], List.mem_append_right _ ?_, ?_⟩
      · have after : l.body.after (.block [l.body, .expression e] :: ls) =
            .block [l.body, .expression e] :: ls := by rw [Stmt.after, l.plain]
        rw [round_some inc, Stmt.occurrences, Stmt.occurrencesAll, after]
        refine List.mem_append_right _ (List.mem_append_left _ ?_)
        exact e.occurrences_of_own mem
      · intro k here
        cases List.mem_singleton.mp here
        rfl

section Variable

variable {clock : Clock} {history : List Entry} {x : Token} {value : Option Expr} {n : Nat}
  {m : Machine} (init : l.initializer = some (.var x value))
  (h : (Session.initial clock).Happens history ⟨.execute n l.tree, m⟩)

include init

theorem tree_initialized : l.tree = .block [.var x value, l.loop] := by
  rw [tree_eq, init]
  rfl

include h

/-- A use of the variable in a clause refers to the scope around the loop. -/
theorem refers_of_clause {c : Moment} {kind : UseKind} {use : Use}
    (happens : (Session.initial clock).Happens history c) (used : c.use? = some (kind, use))
    (mem : (kind, use) ∈ l.clauseUses) (named : use.name.lexeme = x.lexeme) :
    ∃ o d level, (Session.initial clock).Refers history c o d (.block [.var x value, l.loop]) ∧
      o.use = use ∧ o.levels[d]? = some level ∧ level.scope[use.name.lexeme]? = some true := by
  obtain ⟨_, _, later, rfl, -, -, -, ls, -, -, occurs⟩ := Session.ready clock h
  rw [tree_initialized init, Stmt.occurrences, Stmt.occurrencesAll, Stmt.occurrencesAll] at occurs
  let level := (Level.block [.var x value, l.loop]).introduce x.lexeme
  obtain ⟨inner, inside, empty⟩ := occurrences_of_clause (level :: ls) mem
  have here := occurs _ (List.mem_append_right _ (List.mem_append_left _ inside))
  have complete : level.scope[use.name.lexeme]? = some true := by
    rw [named]
    simp [level, Level.introduce, Level.put]
  have position : (inner ++ level :: ls)[inner.length]? = some level := by simp
  refine ⟨⟨kind, use, inner ++ level :: ls⟩, inner.length, level,
    ⟨happens, used, here.later later, ?_, ⟨level, position, rfl⟩, rfl⟩, rfl, position, complete⟩
  rw [Occurrence.distance?, Levels.distance?, List.findIdx?_eq_some_iff_getElem]
  refine ⟨by simp, ?_, fun i less => ?_⟩
  · rw [List.getElem_append_right (Nat.le_refl _)]
    simp [Std.TreeMap.contains_eq_isSome_getElem?, complete]
  · rw [List.getElem_append_left less, empty _ (List.getElem_mem less)]
    simp

/-- All rounds of an execution of the loop have the variable in one frame, and the condition and the
increment find it there. -/
theorem finds_clause {c : Moment} (direct : Moment.Directly ⟨.execute n l.tree, m⟩ c)
    {kind : UseKind} {use : Use} (used : c.use? = some (kind, use))
    (mem : (kind, use) ∈ l.clauseUses) (named : use.name.lexeme = x.lexeme) :
    ∃ d, c.machine.distances[use.id]? = some d ∧
      c.machine.current.frames[d]? = some m.store.frames.size ∧
      (c.machine.store.bindings m.store.frames.size).contains use.name.lexeme = true := by
  have happens := h.course direct.course
  obtain ⟨o, d, level, refers, rfl, position, complete⟩ :=
    refers_of_clause init h happens used mem named
  rw [tree_initialized init] at h direct
  have found := Session.frame_of_refers h direct refers
  exact ⟨d, refers.known, found, refers.bound found position complete⟩

end Variable

end ForLoop

end Lox
