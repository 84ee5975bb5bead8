import Lox.Proofs.Course.Names
import Lox.Proofs.ForLoops.Clauses
import Lox.Proofs.ForLoops.Reading

/-!
# For loops

The tree that the parser makes of a `for` loop does what the clauses of the loop say, and the scopes
in the tree are no more than the loop needs: `for_loops_by_clause`.
-/

namespace Lox

namespace ForLoop

/-- From every machine the tree of a loop and the loop end in the same ways; where one of them stops
for want of levels, the other prints as much. -/
structure Faithful (l : ForLoop) : Prop where
  finished : ∀ m r, r.Finished → (l.tree.Executes m r ↔ l.Runs m r)
  runs : ∀ m r, l.tree.Executes m r → ∃ r', l.Runs m r' ∧ r.Reaches r'
  executes : ∀ m r, l.Runs m r → ∃ r', l.tree.Executes m r' ∧ r.Reaches r'

/-- In the course of a history the loop is executed on this machine. Its variable is in one frame for
all rounds, where the condition and the increment find it bound; no frame around the body and the
increment of a round ever binds a name; and the frame in which the loop is executed binds no more
names afterwards than before. -/
structure Scoped (l : ForLoop) (s : Session) (history : List Entry) (n : Nat) (m : Machine) :
    Prop where
  shared : ∀ x value, l.initializer = some (.var x value) →
    ∀ c o d, Moment.Directly ⟨.execute n l.tree, m⟩ c →
      s.Refers history c o d (.block [.var x value, l.loop]) →
      c.machine.current.frames[d]? = some m.store.frames.size
  clauses : ∀ x value, l.initializer = some (.var x value) →
    ∀ c kind use, Moment.Directly ⟨.execute n l.tree, m⟩ c → c.use? = some (kind, use) →
      (kind, use) ∈ l.clauseUses → use.name.lexeme = x.lexeme →
      ∃ d, c.machine.distances[use.id]? = some d ∧
        c.machine.current.frames[d]? = some m.store.frames.size ∧
        (c.machine.store.bindings m.store.frames.size).contains x.lexeme = true
  rounds : ∀ e k before, l.increment = some e →
    s.Happens history ⟨.execute (k + 1) l.round, before⟩ → ∀ c, s.Happens history c → ∀ x,
      (c.machine.store.bindings before.store.frames.size).contains x = false ∧
        (c.after.store.bindings before.store.frames.size).contains x = false
  outside : ∀ x,
    ((Moment.after ⟨.execute n l.tree, m⟩).store.bindings m.current.frame).contains x = true ↔
      (m.store.bindings m.current.frame).contains x = true

variable {l : ForLoop} {clock : Clock} {history : List Entry} {n : Nat} {m : Machine}

theorem faithful (l : ForLoop) : l.Faithful where
  finished m r finished := by
    constructor
    · rintro ⟨n, rfl⟩
      obtain ⟨r, runs, reaches⟩ := l.runs_of_execute n m
      rwa [reaches.of_finished finished] at runs
    · intro runs
      obtain ⟨n, reaches⟩ := execute_of_runs runs
      exact ⟨n, reaches.of_finished finished⟩
  runs := by
    rintro m _ ⟨n, rfl⟩
    exact l.runs_of_execute n m
  executes m r runs := by
    obtain ⟨n, reaches⟩ := execute_of_runs runs
    exact ⟨_, ⟨n, rfl⟩, reaches⟩

theorem plain_tree (h : (Session.initial clock).Happens history ⟨.execute n l.tree, m⟩) :
    l.tree.Plain := by
  obtain ⟨_, _, _, -, -, ready⟩ := Session.ready clock h
  refine ⟨World.proper _ ready.holds_stmt, ?_⟩
  rw [tree_eq]
  cases l.initializer <;> rfl

/-- The frame around the body and the increment of a round never binds a name. -/
theorem round_unbound {e : Expr} (inc : l.increment = some e)
    (round : (Session.initial clock).Happens history ⟨.execute (n + 1) l.round, m⟩)
    {c : Moment} (happens : (Session.initial clock).Happens history c) (x : String) :
    (c.machine.store.bindings m.store.frames.size).contains x = false ∧
      (c.after.store.bindings m.store.frames.size).contains x = false := by
  rw [round_some inc] at round
  obtain ⟨_, _, _, -, -, ready⟩ := Session.ready clock round
  have proper : (Stmt.block [l.body, .expression e]).Proper := World.proper _ ready.holds_stmt
  refine Session.block_unbound round (fun s mem => ?_) happens x
  rcases List.mem_cons.mp mem with rfl | mem
  · exact ⟨proper.1, l.plain⟩
  · obtain rfl := List.mem_singleton.mp mem
    exact ⟨proper.2.1, rfl⟩

theorem scoped_of_happens (h : (Session.initial clock).Happens history ⟨.execute n l.tree, m⟩) :
    l.Scoped (Session.initial clock) history n m where
  shared x value init c o d direct refers := by
    have tree := tree_initialized init
    exact Session.frame_of_refers (tree ▸ h) (tree ▸ direct) refers
  clauses x value init c kind use direct used mem named := by
    rw [← named]
    exact finds_clause init h direct used mem named
  rounds e k before inc round c happens x := round_unbound inc round happens x
  outside := Session.contains_after_iff h (plain_tree h)

end ForLoop

/-- The parser reads a `for` loop clause by clause and makes a tree of the clauses. From every
machine this tree ends as the loop does, with the same result, output and effects: the initializer is
run once, in a new scope if there is one, and then round after round a test, the body, and the
increment if the body ends normally, until a test does not hold or a round breaks the loop off,
returns or fails. In every session, all rounds of one execution of the loop have its variable in one
frame, and the condition and the increment find it there, whatever the body declares; the frame
around the body and the increment never binds a name, and the frame in which the loop is executed
binds the same names afterwards as before. -/
theorem for_loops_by_clause :
    (∀ n s st s', Syntax.forStatement (Syntax.rules n) s = .ok st s' →
      ∃ l : ForLoop, st = l.tree ∧ Syntax.forClauses (Syntax.rules n) s =
        .ok (l.initializer, l.condition, l.increment, l.body) s') ∧
    ∀ l : ForLoop, l.Faithful ∧
      ∀ clock history n m, (Session.initial clock).Happens history ⟨.execute n l.tree, m⟩ →
        l.Scoped (Session.initial clock) history n m :=
  ⟨fun _ _ _ _ => Syntax.forStatement_ok,
    fun l => ⟨l.faithful, fun _ _ _ _ => ForLoop.scoped_of_happens⟩⟩

end Lox
