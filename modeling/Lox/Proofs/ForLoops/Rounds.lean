import Lox.Proofs.Approximation
import Lox.Proofs.Transfer
import Lox.Syntax.Parser

/-!
# Loops with clauses

What a `for` loop does, clause by clause, and that the tree which stands for it does the same:
`ForLoop.runs_of_execute` and `ForLoop.execute_of_runs`.
-/

namespace Lox

structure ForLoop where
  initializer : Option Stmt
  condition : Option Expr
  increment : Option Expr
  body : Stmt
  clause : ∀ s ∈ initializer, (∃ name value, s = .var name value) ∨ ∃ e, s = .expression e
  plain : body.declared? = none

/-- Evaluated with some number of levels, the expression ends so. -/
def Expr.Evaluates (e : Expr) (m : Machine) (r : Ending Value) : Prop :=
  ∃ n, Lox.evaluate n e m = r

def Stmt.Executes (s : Stmt) (m : Machine) (r : Ending Flow) : Prop :=
  ∃ n, Lox.execute n s m = r

/-! ### Blocks and rows -/

section Rows

variable {m mid : Machine} {s : Stmt}

theorem execute_block (n : Nat) (body : List Stmt) (m : Machine) :
    execute (n + 1) (.block body) m =
      Ending.back m.current (executeAll (execute n) body (m.enter m.current ∅)) :=
  Run.within_eq _ _ (m.push m.current ∅)

theorem execute_expression (n : Nat) (e : Expr) :
    execute (n + 1) (.expression e) = evaluate (n + 1) e >>= fun _ => pure .normal := rfl

theorem back_execute (n : Nat) (s : Stmt) (m : Machine) :
    Ending.back m.current (execute n s m) = execute n s m := by
  have same := keepsCurrent.respects_execute n s m
  unfold stateAfter at same
  unfold Ending.back
  cases run : execute n s m <;> (rw [run] at same; dsimp only at same ⊢; rw [← same])

theorem executeAll_singleton (exec : Stmt → Run Flow) (s : Stmt) : executeAll exec [s] = exec s := by
  funext m
  unfold executeAll
  rw [bind_apply]
  cases exec s m with
  | error a m' => rfl
  | ok flow m' => cases flow <;> rfl

theorem executeAll_normal {exec : Stmt → Run Flow} {ss : List Stmt}
    (ran : exec s m = .ok .normal mid) :
    executeAll exec (s :: ss) m = executeAll exec ss mid := bind_of_ok ran

theorem executeAll_transfer {exec : Stmt → Run Flow} {ss : List Stmt} {flow : Flow}
    (ran : exec s m = .ok flow mid) (transfer : flow ≠ .normal) :
    executeAll exec (s :: ss) m = .ok flow mid := by
  refine (bind_of_ok ran).trans ?_
  cases flow with
  | normal => exact absurd rfl transfer
  | _ => rfl

theorem executeAll_error {exec : Stmt → Run Flow} {ss : List Stmt} {a : Abort}
    (ran : exec s m = .error a mid) : executeAll exec (s :: ss) m = .error a mid :=
  bind_of_error ran

end Rows

namespace ForLoop

variable (l : ForLoop)

def tree : Stmt := Syntax.forLoop l.initializer l.condition l.increment l.body

/-! ### What a loop does -/

/-- The test before a round, which holds where there is no condition. -/
def Tests (m : Machine) (r : Ending Value) : Prop :=
  match l.condition with
  | none => r = .ok (.bool true) m
  | some e => e.Evaluates m r

def Increments (m : Machine) (r : Ending Value) : Prop :=
  match l.increment with
  | none => r = .ok .nil m
  | some e => e.Evaluates m r

/-- Where a body runs: in a new scope, if there is an increment. -/
def inRound (m : Machine) : Machine :=
  match l.increment with
  | none => m
  | some _ => m.enter m.current ∅

/-- The body, and the increment if the body ends normally. -/
inductive Round : Machine → Ending Flow → Prop
  | fails {m a m'} : l.body.Executes (l.inRound m) (.error a m') →
    Round m (Ending.back m.current (.error a m'))
  | leaves {m flow m'} : l.body.Executes (l.inRound m) (.ok flow m') → flow ≠ .normal →
    Round m (Ending.back m.current (.ok flow m'))
  | unstepped {m m' a m''} : l.body.Executes (l.inRound m) (.ok .normal m') →
    l.Increments m' (.error a m'') → Round m (Ending.back m.current (.error a m''))
  | steps {m m' v m''} : l.body.Executes (l.inRound m) (.ok .normal m') →
    l.Increments m' (.ok v m'') → Round m (Ending.back m.current (.ok .normal m''))

/-- Rounds until a test does not hold, or until a round breaks the loop off, returns or fails. -/
inductive Rounds : Machine → Ending Flow → Prop
  | untested {m a m'} : l.Tests m (.error a m') → Rounds m (.error a m')
  | stops {m v m'} : l.Tests m (.ok v m') → v.isTruthy = false → Rounds m (.ok .normal m')
  | fails {m v m' a m''} : l.Tests m (.ok v m') → v.isTruthy = true → l.Round m' (.error a m'') →
    Rounds m (.error a m'')
  | breaks {m v m' m''} : l.Tests m (.ok v m') → v.isTruthy = true →
    l.Round m' (.ok .breaking m'') → Rounds m (.ok .normal m'')
  | returns {m v m' w m''} : l.Tests m (.ok v m') → v.isTruthy = true →
    l.Round m' (.ok (.returning w) m'') → Rounds m (.ok (.returning w) m'')
  | again {m v m' m'' r} : l.Tests m (.ok v m') → v.isTruthy = true →
    l.Round m' (.ok .normal m'') → Rounds m'' r → Rounds m r

/-- The initializer once, in a new scope, and then the rounds. -/
inductive Runs : Machine → Ending Flow → Prop
  | rounds {m r} : l.initializer = none → l.Rounds m r → Runs m r
  | uninitialized {m s a m'} : l.initializer = some s →
    s.Executes (m.enter m.current ∅) (.error a m') →
    Runs m (Ending.back m.current (.error a m'))
  | initialized {m s m' r} : l.initializer = some s →
    s.Executes (m.enter m.current ∅) (.ok .normal m') → l.Rounds m' r →
    Runs m (Ending.back m.current r)

/-! ### The parts of the tree -/

def test : Expr := l.condition.getD (.literal (.bool true))

def round : Stmt :=
  match l.increment with
  | none => l.body
  | some e => .block [l.body, .expression e]

def loop : Stmt := .whileLoop l.test l.round

theorem tree_eq : l.tree = l.initializer.elim l.loop fun s => .block [s, l.loop] := by
  unfold tree Syntax.forLoop loop round
  cases l.initializer <;> rfl

variable {l} {m : Machine}

theorem tests_of_evaluate (l : ForLoop) (n : Nat) (m : Machine) :
    l.Tests m (evaluate (n + 1) l.test m) := by
  unfold Tests test
  cases l.condition with
  | none => rfl
  | some e => exact ⟨n + 1, rfl⟩

theorem evaluate_of_tests {r : Ending Value} (h : l.Tests m r) :
    ∃ k, ∀ n ≥ k, r.Reaches (evaluate (n + 1) l.test m) := by
  unfold Tests at h
  unfold test
  cases cond : l.condition with
  | none =>
    rw [cond] at h
    obtain rfl := h
    exact ⟨0, fun n _ => .refl _⟩
  | some e =>
    rw [cond] at h
    obtain ⟨k, rfl⟩ := h
    exact ⟨k, fun n le => evaluate_reaches (Nat.le_succ_of_le le) e m⟩

theorem prints_inRound : m.Prints (l.inRound m) := by
  unfold inRound
  cases l.increment <;> exact .of_same rfl

theorem inRound_some {e : Expr} (some : l.increment = some e) :
    l.inRound m = m.enter m.current ∅ := by rw [inRound, some]

theorem inRound_none (none : l.increment = none) : l.inRound m = m := by rw [inRound, none]

theorem increments_some {e : Expr} {r : Ending Value} (some : l.increment = some e) :
    l.Increments m r ↔ e.Evaluates m r := by rw [Increments, some]

theorem increments_none {r : Ending Value} (none : l.increment = none) :
    l.Increments m r ↔ r = .ok .nil m := by rw [Increments, none]

theorem round_some {e : Expr} (some : l.increment = some e) :
    l.round = .block [l.body, .expression e] := by rw [round, some]

theorem round_none (none : l.increment = none) : l.round = l.body := by rw [round, none]

/-- An initializer neither breaks nor returns. -/
theorem initializer_normal {s : Stmt} {n : Nat} {flow : Flow} {m' : Machine} (l : ForLoop)
    (init : l.initializer = some s) (ran : execute n s m = .ok flow m') : flow = .normal := by
  cases n with
  | zero => cases ran
  | succ n =>
    obtain ⟨name, value, rfl⟩ | ⟨e, rfl⟩ := l.clause s init
    · obtain ⟨_, _, -, ran⟩ := bind_ok ran
      obtain ⟨_, _, -, ran⟩ := bind_ok ran
      cases ran
      rfl
    · obtain ⟨_, _, -, ran⟩ := bind_ok ran
      cases ran
      rfl

/-! ### What the tree does, the loop does -/

theorem round_of_executeAll {e : Expr} (inc : l.increment = some e) (n : Nat) (m : Machine) :
    l.Round m (Ending.back m.current
      (executeAll (execute n) [l.body, .expression e] (l.inRound m))) := by
  cases ran : execute n l.body (l.inRound m) with
  | error a m' =>
    rw [executeAll_error ran]
    exact .fails ⟨n, ran⟩
  | ok flow m' =>
    by_cases normal : flow = .normal
    · subst normal
      rw [executeAll_normal ran, executeAll_singleton]
      cases n with
      | zero => cases ran
      | succ n =>
        rw [execute_expression]
        cases stepped : evaluate (n + 1) e m' with
        | error a m'' =>
          rw [bind_of_error stepped]
          exact .unstepped ⟨n + 1, ran⟩ ((increments_some inc).mpr ⟨n + 1, stepped⟩)
        | ok v m'' =>
          rw [bind_of_ok stepped]
          exact .steps ⟨n + 1, ran⟩ ((increments_some inc).mpr ⟨n + 1, stepped⟩)
    · rw [executeAll_transfer ran normal]
      exact .leaves ⟨n, ran⟩ normal

theorem round_of_execute (l : ForLoop) (n : Nat) (m : Machine) :
    ∃ r, l.Round m r ∧ Ending.Reaches (execute n l.round m) r := by
  cases inc : l.increment with
  | none =>
    have scope := inRound_none (m := m) inc
    have ends {r : Ending Flow} (ran : execute n l.body m = r) : l.body.Executes (l.inRound m) r :=
      ⟨n, by rw [scope]; exact ran⟩
    refine ⟨execute n l.body m, ?_, by rw [round_none inc]; exact .refl _⟩
    rw [← back_execute]
    cases ran : execute n l.body m with
    | error a m' => exact .fails (ends ran)
    | ok flow m' =>
      by_cases normal : flow = .normal
      · subst normal
        exact .steps (ends ran) ((increments_none inc).mpr rfl)
      · exact .leaves (ends ran) normal
  | some e =>
    rw [round_some inc]
    cases n with
    | zero =>
      have stopped : l.body.Executes (l.inRound m) (execute 0 l.body (l.inRound m)) := ⟨0, rfl⟩
      exact ⟨_, .fails stopped, .inr ⟨m, rfl, prints_inRound⟩⟩
    | succ n =>
      rw [execute_block, ← inRound_some inc]
      exact ⟨_, round_of_executeAll inc n m, .refl _⟩

/-- A loop that has not begun has printed nothing. -/
theorem exists_rounds (l : ForLoop) (m : Machine) :
    ∃ r, l.Rounds m r ∧ m.Prints (Ending.machine r) := by
  cases cond : l.condition with
  | some e => exact ⟨_, .untested (by rw [Tests, cond]; exact ⟨0, rfl⟩), .of_same rfl⟩
  | none =>
    have holds : l.Tests m (.ok (.bool true) m) := by rw [Tests, cond]
    exact ⟨_, .fails holds rfl (.fails ⟨0, rfl⟩), prints_inRound⟩

/-- Rounds that begin with one that was stopped for want of levels. -/
theorem rounds_of_stopped {v : Value} {m' m'' : Machine} {r : Ending Flow}
    (tests : l.Tests m (.ok v m')) (holds : v.isTruthy = true) (round : l.Round m' r)
    (printed : m''.Prints r.machine) : ∃ r, l.Rounds m r ∧ m''.Prints (Ending.machine r) := by
  cases r with
  | error a last => exact ⟨_, .fails tests holds round, printed⟩
  | ok flow last =>
    cases flow with
    | normal =>
      obtain ⟨r, runs, more⟩ := l.exists_rounds last
      exact ⟨r, .again tests holds round runs, prints.trans printed more⟩
    | breaking => exact ⟨_, .breaks tests holds round, printed⟩
    | returning w => exact ⟨_, .returns tests holds round, printed⟩

theorem rounds_of_repeatWhile (l : ForLoop) (n rounds : Nat) (m : Machine) : ∃ r, l.Rounds m r ∧
    Ending.Reaches (repeatWhile (evaluate (n + 1) l.test) (execute n l.round) rounds m) r := by
  induction rounds generalizing m with
  | zero =>
    obtain ⟨r, runs, printed⟩ := l.exists_rounds m
    exact ⟨r, runs, .inr ⟨m, rfl, printed⟩⟩
  | succ rounds ih =>
    have tests := l.tests_of_evaluate n m
    unfold repeatWhile
    cases tested : evaluate (n + 1) l.test m with
    | error a m' =>
      rw [bind_of_error tested]
      exact ⟨_, .untested (tested ▸ tests), .refl _⟩
    | ok v m' =>
      rw [tested] at tests
      rw [bind_of_ok tested]
      by_cases holds : v.isTruthy = true
      · rw [if_pos holds]
        obtain ⟨r, round, same | ⟨m'', stopped, printed⟩⟩ := l.round_of_execute n m'
        · cases r with
          | error a m'' =>
            rw [bind_of_error same.symm]
            exact ⟨_, .fails tests holds round, .refl _⟩
          | ok flow m'' =>
            rw [bind_of_ok same.symm]
            cases flow with
            | normal =>
              obtain ⟨r, runs, reaches⟩ := ih m''
              exact ⟨r, .again tests holds round runs, reaches⟩
            | breaking => exact ⟨_, .breaks tests holds round, .refl _⟩
            | returning w => exact ⟨_, .returns tests holds round, .refl _⟩
        · rw [bind_of_error stopped]
          obtain ⟨r, runs, more⟩ := rounds_of_stopped tests holds round printed
          exact ⟨r, runs, .inr ⟨m'', rfl, more⟩⟩
      · rw [if_neg holds]
        exact ⟨_, .stops tests (Bool.eq_false_iff.mpr holds), .refl _⟩

/-- What the tree does, the loop does. -/
theorem runs_of_execute (l : ForLoop) (n : Nat) (m : Machine) :
    ∃ r, l.Runs m r ∧ Ending.Reaches (execute n l.tree m) r := by
  rw [tree_eq]
  cases init : l.initializer with
  | none =>
    cases n with
    | zero =>
      obtain ⟨r, rounds, printed⟩ := l.exists_rounds m
      exact ⟨r, .rounds init rounds, .inr ⟨m, rfl, printed⟩⟩
    | succ n =>
      obtain ⟨r, rounds, reaches⟩ := l.rounds_of_repeatWhile n n m
      exact ⟨r, .rounds init rounds, reaches⟩
  | some s =>
    cases n with
    | zero =>
      have stopped : s.Executes (m.enter m.current ∅) (execute 0 s (m.enter m.current ∅)) := ⟨0, rfl⟩
      exact ⟨_, .uninitialized init stopped, .inr ⟨m, rfl, .of_same rfl⟩⟩
    | succ n =>
      dsimp only [Option.elim]
      rw [execute_block]
      cases ran : execute n s (m.enter m.current ∅) with
      | error a m' =>
        rw [executeAll_error ran]
        exact ⟨_, .uninitialized init ⟨n, ran⟩, .refl _⟩
      | ok flow m' =>
        obtain rfl := l.initializer_normal init ran
        rw [executeAll_normal ran, executeAll_singleton]
        cases n with
        | zero => cases ran
        | succ n =>
          obtain ⟨r, rounds, reaches⟩ := l.rounds_of_repeatWhile n n m'
          exact ⟨_, .initialized init ⟨n + 1, ran⟩ rounds, reaches.back m.current⟩

/-! ### What the loop does, the tree does -/

theorem executeAll_of_round {e : Expr} {r : Ending Flow} (inc : l.increment = some e)
    (h : l.Round m r) : ∃ r', r = Ending.back m.current r' ∧ ∃ k, ∀ n ≥ k,
      Ending.Reaches r' (executeAll (execute n) [l.body, .expression e] (l.inRound m)) := by
  cases h with
  | fails ran =>
    obtain ⟨k, ran⟩ := ran
    refine ⟨_, rfl, k, fun n le => ?_⟩
    exact Ending.Reaches.executeAll (ran ▸ execute_reaches le l.body _)
  | leaves ran transfer =>
    obtain ⟨k, ran⟩ := ran
    refine ⟨_, rfl, k, fun n le => ?_⟩
    rw [executeAll_transfer (execute_of_le le ran) transfer]
    exact .refl _
  | unstepped ran stepped =>
    obtain ⟨k, ran⟩ := ran
    obtain ⟨j, stepped⟩ := (increments_some inc).mp stepped
    refine ⟨_, rfl, k + j + 1, fun n le => ?_⟩
    rw [executeAll_normal (execute_of_le (by omega) ran), executeAll_singleton]
    obtain ⟨n, rfl⟩ := Nat.exists_eq_add_of_le' (show 1 ≤ n by omega)
    have reaches := evaluate_reaches (show j ≤ n + 1 by omega) e
    rw [execute_expression]
    exact Ending.Reaches.bind (stepped ▸ reaches _) fun _ => prints.respects_pure _
  | steps ran stepped =>
    obtain ⟨k, ran⟩ := ran
    obtain ⟨j, stepped⟩ := (increments_some inc).mp stepped
    refine ⟨_, rfl, k + j + 1, fun n le => ?_⟩
    rw [executeAll_normal (execute_of_le (by omega) ran), executeAll_singleton]
    obtain ⟨n, rfl⟩ := Nat.exists_eq_add_of_le' (show 1 ≤ n by omega)
    rw [execute_expression, bind_of_ok (evaluate_of_le (show j ≤ n + 1 by omega) stepped)]
    exact .refl _

theorem execute_of_round {r : Ending Flow} (h : l.Round m r) :
    ∃ k, ∀ n ≥ k, r.Reaches (execute n l.round m) := by
  cases inc : l.increment with
  | none =>
    have scope := inRound_none (m := m) inc
    have goes {r : Ending Flow} (ran : l.body.Executes (l.inRound m) r) :
        ∃ k, ∀ n ≥ k, Ending.Reaches (r.back m.current) (execute n l.round m) := by
      obtain ⟨k, rfl⟩ := ran
      refine ⟨k, fun n le => ?_⟩
      rw [round_none inc, ← back_execute n, scope]
      exact (execute_reaches le l.body m).back m.current
    cases h with
    | fails ran => exact goes ran
    | leaves ran transfer => exact goes ran
    | unstepped ran stepped => cases (increments_none inc).mp stepped
    | steps ran stepped =>
      cases (increments_none inc).mp stepped
      exact goes ran
  | some e =>
    obtain ⟨r', rfl, k, reaches⟩ := executeAll_of_round inc h
    -- One level more for the block around the body and the increment.
    refine ⟨k + 1, fun n le => ?_⟩
    obtain ⟨n, rfl⟩ := Nat.exists_eq_add_of_le' (Nat.le_trans (Nat.le_add_left 1 k) le)
    rw [round_some inc, execute_block, ← inRound_some inc]
    exact (reaches n (Nat.le_of_succ_le_succ le)).back m.current

/-- With enough levels, a test that holds is followed by the round. -/
theorem levels_of_round {v : Value} {m' : Machine} {r : Ending Flow}
    (tests : l.Tests m (.ok v m')) (round : l.Round m' r) : ∃ k, ∀ n ≥ k,
      evaluate (n + 1) l.test m = .ok v m' ∧ r.Reaches (execute n l.round m') := by
  obtain ⟨k, reaches⟩ := evaluate_of_tests tests
  obtain ⟨j, reaches'⟩ := execute_of_round round
  refine ⟨max k j, fun n le => ⟨?_, ?_⟩⟩
  · exact (reaches n (Nat.le_trans (Nat.le_max_left k j) le)).of_ok
  · exact reaches' n (Nat.le_trans (Nat.le_max_right k j) le)

/-- What rounds do, the loop in the tree does. -/
theorem repeatWhile_of_rounds {r : Ending Flow} (h : l.Rounds m r) :
    ∃ k, ∀ n ≥ k, ∀ rounds ≥ k,
      r.Reaches (repeatWhile (evaluate (n + 1) l.test) (execute n l.round) (rounds + 1) m) := by
  induction h with
  | untested tests =>
    obtain ⟨k, reaches⟩ := evaluate_of_tests tests
    refine ⟨k, fun n le rounds _ => ?_⟩
    exact .repeatWhile_condition (prints.respects_execute n l.round)
      (prints.respects_evaluate _ _) (reaches n (by omega))
  | stops tests falsy =>
    obtain ⟨k, reaches⟩ := evaluate_of_tests tests
    refine ⟨k, fun n le rounds _ => ?_⟩
    refine .inl ((bind_of_ok (reaches n (by omega)).of_ok).trans ?_)
    rw [if_neg (Bool.eq_false_iff.mp falsy)]
    rfl
  | fails tests holds round =>
    obtain ⟨k, goes⟩ := levels_of_round tests round
    refine ⟨k, fun n le rounds _ => ?_⟩
    obtain ⟨tested, reaches⟩ := goes n le
    exact .repeatWhile_body (prints.respects_execute n l.round)
      (prints.respects_evaluate _ _) tested holds reaches
  | breaks tests holds round =>
    obtain ⟨k, goes⟩ := levels_of_round tests round
    refine ⟨k, fun n le rounds _ => ?_⟩
    obtain ⟨tested, reaches⟩ := goes n le
    exact .inl (repeatWhile_broken tested holds reaches.of_ok)
  | returns tests holds round =>
    obtain ⟨k, goes⟩ := levels_of_round tests round
    refine ⟨k, fun n le rounds _ => ?_⟩
    obtain ⟨tested, reaches⟩ := goes n le
    refine .inl ((bind_of_ok tested).trans ?_)
    rw [if_pos holds]
    exact bind_of_ok reaches.of_ok
  | again tests holds round rest ih =>
    obtain ⟨k, goes⟩ := levels_of_round tests round
    obtain ⟨j, reaches'⟩ := ih
    refine ⟨k + j + 1, fun n le rounds le' => ?_⟩
    obtain ⟨tested, reaches⟩ := goes n (by omega)
    obtain ⟨rounds, rfl⟩ := Nat.exists_eq_add_of_le' (show 1 ≤ rounds by omega)
    rw [repeatWhile_again tested holds reaches.of_ok]
    exact reaches' n (by omega) rounds (by omega)

/-- What the loop does, the tree does. -/
theorem execute_of_runs {r : Ending Flow} (h : l.Runs m r) :
    ∃ n, r.Reaches (execute n l.tree m) := by
  rw [tree_eq]
  cases h with
  | rounds init rounds =>
    rw [init]
    obtain ⟨k, reaches⟩ := repeatWhile_of_rounds rounds
    exact ⟨k + 2, reaches (k + 1) (Nat.le_succ k) k (Nat.le_refl k)⟩
  | uninitialized init ran =>
    rw [init]
    obtain ⟨k, ran⟩ := ran
    refine ⟨k + 1, ?_⟩
    dsimp only [Option.elim]
    rw [execute_block, executeAll_error ran]
    exact .refl _
  | initialized init ran rounds =>
    rw [init]
    obtain ⟨k, ran⟩ := ran
    obtain ⟨j, reaches⟩ := repeatWhile_of_rounds rounds
    refine ⟨k + j + 3, ?_⟩
    dsimp only [Option.elim]
    rw [execute_block, executeAll_normal (execute_of_le (by omega) ran), executeAll_singleton]
    exact (reaches (k + j + 1) (by omega) (k + j) (by omega)).back m.current

end ForLoop

end Lox
