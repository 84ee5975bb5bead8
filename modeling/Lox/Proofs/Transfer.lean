import Lox.Proofs.Agreement.Session

/-!
# Transfers of control

A `break` ends a round of the innermost loop around it, and a `return` ends the body of the function
around it; neither gets any further: `transfers_enclosed`.
-/

namespace Lox

/-! ### Where a transfer comes from -/

inductive Stmt.Transfers : Stmt → Flow → Prop
  | breaking {keyword} : Transfers (.breakLoop keyword) .breaking
  | returning {keyword value v} : Transfers (.returnFrom keyword value) (.returning v)

def Flow.leavesLoops : Flow → Bool
  | .returning _ => true
  | _ => false

/-- Whether a task runs statements, in rounds only if `loops` allows so. -/
def Task.Runs (loops : Bool) : Task → Prop
  | .execute _ _ | .executeAll _ _ => True
  | .repeatWhile _ _ _ _ => loops = true
  | _ => False

/-- The second moment comes in the course of the first, statement in statement: in no call, and in a
loop only if `loops` allows so. -/
inductive Inside (loops : Bool) : Moment → Moment → Prop
  | here {a} : Inside loops a a
  | step {a b c} : a.task.Runs loops → Begins a b → b.task.Runs loops → Inside loops b c →
    Inside loops a c

/-- A statement in the course of a moment has ended the moment with a transfer of control. -/
def Moment.EndedBy (a : Moment) (flow : Flow) (after : Machine) : Prop :=
  ∃ k s m ended, Inside flow.leavesLoops a ⟨.execute (k + 1) s, m⟩ ∧ s.Transfers flow ∧
    execute (k + 1) s m = .ok flow ended ∧ after = { ended with current := after.current }

/-! ### How statements end -/

section Clauses

variable {n : Nat} {flow : Flow} {m after : Machine}

theorem Run.within_ok_iff {α : Type} {e : Environment} {p : Run α} {a : α} :
    Run.within e p m = .ok a after ↔
      ∃ inner, p { m with current := e } = .ok a inner ∧
        after = { inner with current := m.current } := by
  unfold Run.within
  constructor
  · intro ran
    split at ran
    next b inner h =>
      cases ran
      exact ⟨inner, h, rfl⟩
    · cases ran
  · rintro ⟨inner, h, rfl⟩
    rw [h]

theorem execute_block_iff {body : List Stmt} :
    execute (n + 1) (.block body) m = .ok flow after ↔
      ∃ inner, executeAll (execute n) body (m.enter m.current ∅) = .ok flow inner ∧
        after = { inner with current := m.current } :=
  Run.within_ok_iff (m := m.push m.current ∅)

theorem execute_ifElse {condition : Expr} {thenBranch : Stmt} {elseBranch : Option Stmt}
    {value : Value} {mid : Machine} (tested : evaluate (n + 1) condition m = .ok value mid) :
    execute (n + 1) (.ifElse condition thenBranch elseBranch) m =
      (chosen value thenBranch elseBranch).elim (.ok .normal mid) fun s => execute n s mid := by
  rw [execute_succ]
  refine (bind_of_ok tested).trans ?_
  unfold chosen
  split
  · rfl
  · cases elseBranch <;> rfl

section Rounds

variable {condition : Expr} {body : Stmt} {rounds : Nat} {value : Value} {mid next : Machine}
  (tested : evaluate (n + 1) condition m = .ok value mid) (holds : value.isTruthy = true)

include tested holds

theorem repeatWhile_again (ran : execute n body mid = .ok .normal next) :
    repeatWhile (evaluate (n + 1) condition) (execute n body) (rounds + 1) m =
      repeatWhile (evaluate (n + 1) condition) (execute n body) rounds next := by
  refine (bind_of_ok tested).trans ?_
  rw [if_pos holds]
  exact bind_of_ok ran

theorem repeatWhile_broken (ran : execute n body mid = .ok .breaking next) :
    repeatWhile (evaluate (n + 1) condition) (execute n body) (rounds + 1) m =
      .ok .normal next := by
  refine (bind_of_ok tested).trans ?_
  rw [if_pos holds]
  exact bind_of_ok ran

end Rounds

end Clauses

section Origin

variable {n : Nat} {flow : Flow} {m after : Machine}

theorem Moment.EndedBy.step {a b : Moment} {before : Machine} (h : b.EndedBy flow before)
    (runs : a.task.Runs flow.leavesLoops) (begins : Begins a b)
    (inner : b.task.Runs flow.leavesLoops)
    (same : after = { before with current := after.current }) : a.EndedBy flow after := by
  obtain ⟨k, s, m, ended, inside, transfers, ran, moved⟩ := h
  exact ⟨k, s, m, ended, .step runs begins inner inside, transfers, ran,
    same.trans (congrArg (fun m : Machine => { m with current := after.current }) moved)⟩

theorem executeAll_endedBy
    (ih : ∀ s m after, execute n s m = .ok flow after →
      Moment.EndedBy ⟨.execute n s, m⟩ flow after)
    (transfer : flow ≠ .normal) {ss : List Stmt} (ran : executeAll (execute n) ss m = .ok flow after) :
    Moment.EndedBy ⟨.executeAll n ss, m⟩ flow after := by
  induction ss generalizing m with
  | nil =>
    cases ran
    exact absurd rfl transfer
  | cons s ss others =>
    obtain ⟨first, mid, here, rest⟩ := bind_ok ran
    cases first with
    | normal => exact (others rest).step trivial (.next here) trivial rfl
    | breaking =>
      cases rest
      exact (ih s m _ here).step trivial .first trivial rfl
    | returning v =>
      cases rest
      exact (ih s m _ here).step trivial .first trivial rfl

theorem repeatWhile_endedBy
    (ih : ∀ s m after, execute n s m = .ok flow after →
      Moment.EndedBy ⟨.execute n s, m⟩ flow after)
    (transfer : flow ≠ .normal) {condition : Expr} {body : Stmt} {rounds : Nat}
    (ran : repeatWhile (evaluate (n + 1) condition) (execute n body) rounds m = .ok flow after) :
    flow.leavesLoops = true ∧
      Moment.EndedBy ⟨.repeatWhile n condition body rounds, m⟩ flow after := by
  induction rounds generalizing m with
  | zero => cases ran
  | succ rounds again =>
    obtain ⟨value, mid, tested, rest⟩ := bind_ok ran
    by_cases holds : value.isTruthy = true
    · rw [if_pos holds] at rest
      obtain ⟨first, next, here, rest⟩ := bind_ok rest
      cases first with
      | normal =>
        obtain ⟨leaves, ended⟩ := again rest
        exact ⟨leaves, ended.step leaves (.again tested holds here) leaves rfl⟩
      | breaking =>
        cases rest
        exact absurd rfl transfer
      | returning v =>
        cases rest
        exact ⟨rfl, (ih body mid _ here).step rfl (.body tested holds) trivial rfl⟩
    · rw [if_neg holds] at rest
      cases rest
      exact absurd rfl transfer

/-- A transfer of control comes from a statement in the course of the execution. -/
theorem execute_endedBy {s : Stmt} (ran : execute n s m = .ok flow after)
    (transfer : flow ≠ .normal) : Moment.EndedBy ⟨.execute n s, m⟩ flow after := by
  induction n generalizing s m after with
  | zero => cases ran
  | succ n ih =>
    have deeper : ∀ s m after, execute n s m = .ok flow after →
        Moment.EndedBy ⟨.execute n s, m⟩ flow after := fun s m after ran => ih ran
    have whole := ran
    rw [execute_succ] at ran
    cases s with
    | breakLoop keyword =>
      cases ran
      exact ⟨n, _, m, _, .here, .breaking, whole, rfl⟩
    | returnFrom keyword value =>
      obtain ⟨v, mid, -, rest⟩ := bind_ok ran
      cases rest
      exact ⟨n, _, m, _, .here, .returning, whole, rfl⟩
    | block body =>
      obtain ⟨inner, ended, rfl⟩ := execute_block_iff.mp whole
      exact (executeAll_endedBy deeper transfer ended).step trivial .block trivial rfl
    | ifElse condition thenBranch elseBranch =>
      obtain ⟨value, mid, tested, -⟩ := bind_ok ran
      rw [execute_ifElse tested] at whole
      cases choice : chosen value thenBranch elseBranch with
      | none =>
        rw [choice] at whole
        cases whole
        exact absurd rfl transfer
      | some s =>
        rw [choice] at whole
        exact (ih whole).step trivial (.branch tested choice) trivial rfl
    | whileLoop condition body =>
      obtain ⟨leaves, ended⟩ := repeatWhile_endedBy deeper transfer ran
      exact ended.step trivial .loop leaves rfl
    -- The other statements end normally.
    | expression e =>
      obtain ⟨value, mid, -, rest⟩ := bind_ok ran
      cases rest
      exact absurd rfl transfer
    | print e =>
      obtain ⟨value, mid, -, rest⟩ := bind_ok ran
      cases rest
      exact absurd rfl transfer
    | var name initializer =>
      obtain ⟨value, mid, -, rest⟩ := bind_ok ran
      cases rest
      exact absurd rfl transfer
    | function declaration =>
      cases ran
      exact absurd rfl transfer
    | classDecl name superclass methods =>
      obtain ⟨_, mid, -, rest⟩ := bind_ok ran
      cases rest
      exact absurd rfl transfer

end Origin

/-! ### What is inside -/

def Task.statements : Task → List Stmt
  | .execute _ s => [s]
  | .executeAll _ ss => ss
  | .repeatWhile _ _ body _ => [body]
  | _ => []

/-- What runs in the course of a task stands in its statements. -/
theorem Inside.holds {loops : Bool} {a : Moment} {k : Nat} {s : Stmt} {m : Machine}
    (h : Inside loops a ⟨.execute k s, m⟩) : ∃ t ∈ a.task.statements, t.Holds loops s := by
  generalize target : Moment.mk (.execute k s) m = b at h
  induction h with
  | here =>
    subst target
    exact ⟨s, List.mem_cons_self, .self⟩
  | step outer begins inner _ ih =>
    obtain ⟨t, mem, holds⟩ := ih target
    cases begins with
    | block => exact ⟨_, List.mem_cons_self, .block mem holds⟩
    | @branch _ _ condition thenBranch elseBranch value _ _ _ choice =>
      obtain rfl := List.mem_singleton.mp mem
      unfold chosen at choice
      split at choice
      · obtain rfl := Option.some.inj choice
        exact ⟨_, List.mem_cons_self, .thenBranch holds⟩
      · subst choice
        exact ⟨_, List.mem_cons_self, .elseBranch holds⟩
    | loop =>
      obtain rfl := List.mem_singleton.mp mem
      exact ⟨_, List.mem_cons_self, .loop inner holds⟩
    | first =>
      obtain rfl := List.mem_singleton.mp mem
      exact ⟨_, List.mem_cons_self, holds⟩
    | next => exact ⟨t, List.mem_cons_of_mem _ mem, holds⟩
    | body | again => exact ⟨t, mem, holds⟩
    | _ => first | exact False.elim outer | exact False.elim inner

inductive Moment.Ends : Moment → Flow → Machine → Prop
  | execute {n s m flow after} : execute n s m = .ok flow after → Ends ⟨.execute n s, m⟩ flow after
  | executeAll {n ss m flow after} : executeAll (Lox.execute n) ss m = .ok flow after →
    Ends ⟨.executeAll n ss, m⟩ flow after

/-- What breaks off a part of a moment, in no loop, breaks off the moment. -/
theorem Inside.ends_breaking {a b : Moment} {after : Machine} (h : Inside false a b)
    (ends : b.Ends .breaking { after with current := b.machine.current }) :
    a.Ends .breaking { after with current := a.machine.current } := by
  induction h with
  | here => exact ends
  | step outer begins inner _ ih =>
    have part := ih ends
    cases begins with
    | block =>
      obtain _ | ran := part
      exact .execute (execute_block_iff.mpr ⟨_, ran, rfl⟩)
    | @branch n m condition thenBranch elseBranch value mid s tested choice =>
      obtain ran | _ := part
      have same : mid.current = m.current := (keepsCurrent.respects_evaluate _ _).of_ok tested
      refine .execute ?_
      rw [execute_ifElse tested, choice, ← same]
      exact ran
    | first =>
      obtain ran | _ := part
      exact .executeAll (bind_of_ok ran)
    | @next n m s ss mid first =>
      obtain _ | ran := part
      have same : mid.current = m.current := (keepsCurrent.respects_execute _ _).of_ok first
      refine .executeAll ((bind_of_ok first).trans ?_)
      rw [← same]
      exact ran
    | loop => cases inner
    | body | again => cases outer
    | _ => first | exact False.elim outer | exact False.elim inner

/-! ### Loops around -/

/-- A loop that begins at `start` runs its body on `m`. -/
structure Round (happens : Moment → Prop) (k : Nat) (condition : Expr) (body : Stmt)
    (start m : Machine) : Prop where
  began : happens ⟨.execute (k + 1) (.whileLoop condition body), start⟩
  round : ∃ rounds value before,
    execute (k + 1) (.whileLoop condition body) start =
      repeatWhile (evaluate (k + 1) condition) (execute k body) (rounds + 1) before ∧
    evaluate (k + 1) condition before = .ok value m ∧ value.isTruthy = true

theorem Round.broken {happens : Moment → Prop} {k : Nat} {condition : Expr} {body : Stmt}
    {start m after : Machine} (h : Round happens k condition body start m)
    (ran : execute k body m = .ok .breaking after) :
    execute (k + 1) (.whileLoop condition body) start = .ok .normal after := by
  obtain ⟨rounds, value, before, same, tested, holds⟩ := h.round
  rw [same, repeatWhile_broken tested holds ran]

/-- A moment in a round of a loop and in no loop inside it. -/
def InRound (happens : Moment → Prop) (a : Moment) : Prop :=
  ∃ k condition body start m, Round happens k condition body start m ∧
    Inside false ⟨.execute k body, m⟩ a

/-- Where a loop is around the statements of a moment, a round of it is under way. -/
def Enclosed (happens : Moment → Prop) (a : Moment) : Prop :=
  match a.task with
  | .execute _ s => ∃ around, s.BreaksInLoops around ∧ (around = true → InRound happens a)
  | .executeAll _ ss =>
    ∃ around, Stmt.AllBreaksInLoops around ss ∧ (around = true → InRound happens a)
  | .repeatWhile k condition body rounds => body.BreaksInLoops true ∧ ∃ start,
    happens ⟨.execute (k + 1) (.whileLoop condition body), start⟩ ∧
    execute (k + 1) (.whileLoop condition body) start =
      repeatWhile (evaluate (k + 1) condition) (execute k body) rounds a.machine
  | _ => True

theorem Inside.tail {loops : Bool} {a b c : Moment} (h : Inside loops a b)
    (runs : b.task.Runs loops) (begins : Begins b c) (inner : c.task.Runs loops) :
    Inside loops a c := by
  induction h with
  | here => exact .step runs begins inner .here
  | step outer first mid _ ih => exact .step outer first mid (ih runs begins)

theorem InRound.step {happens : Moment → Prop} {a b : Moment} (h : InRound happens a)
    (runs : a.task.Runs false) (begins : Begins a b) (inner : b.task.Runs false) :
    InRound happens b := by
  obtain ⟨k, condition, body, start, m, round, inside⟩ := h
  exact ⟨k, condition, body, start, m, round, inside.tail runs begins inner⟩

theorem Enclosed.step {happens : Moment → Prop} {a b : Moment} (h : Enclosed happens a)
    (happened : happens a) (begins : Begins a b)
    (called : ∀ n f arguments m, a = ⟨.call n f arguments, m⟩ →
      Stmt.AllBreaksInLoops false f.body) : Enclosed happens b := by
  cases begins with
  | block =>
    obtain ⟨around, breaks, inRound⟩ := h
    exact ⟨around, breaks, fun inLoop => (inRound inLoop).step trivial .block trivial⟩
  | @branch _ _ condition thenBranch elseBranch value _ s tested choice =>
    obtain ⟨around, breaks, inRound⟩ := h
    refine ⟨around, ?_, fun inLoop => (inRound inLoop).step trivial (.branch tested choice) trivial⟩
    unfold chosen at choice
    split at choice
    · obtain rfl := Option.some.inj choice
      cases elseBranch with
      | none => exact breaks.2
      | some s => exact breaks.2.1
    · subst choice
      exact breaks.2.2
  | @loop n m condition body =>
    obtain ⟨around, breaks, -⟩ := h
    exact ⟨breaks.2, m, happened, rfl⟩
  | first =>
    obtain ⟨around, breaks, inRound⟩ := h
    exact ⟨around, breaks.1, fun inLoop => (inRound inLoop).step trivial .first trivial⟩
  | next ran =>
    obtain ⟨around, breaks, inRound⟩ := h
    exact ⟨around, breaks.2, fun inLoop => (inRound inLoop).step trivial (.next ran) trivial⟩
  | @body n m condition body rounds value mid tested holds =>
    obtain ⟨breaks, start, began, same⟩ := h
    exact ⟨true, breaks, fun _ => ⟨n, condition, body, start, mid,
      ⟨began, rounds, value, m, same, tested, holds⟩, .here⟩⟩
  | again tested holds ran =>
    obtain ⟨breaks, start, began, same⟩ := h
    exact ⟨breaks, start, began, same.trans (repeatWhile_again tested holds ran)⟩
  | @called n m f arguments =>
    exact ⟨false, called n f arguments m rfl, nofun⟩
  | _ => trivial

/-! ### Returns -/

/-- Some walk that finds no error resolves each statement of the body. -/
theorem Stmt.clean_of_mem {c : Context} {ss : List Stmt} {r : Resolution}
    (clean : (Stmt.resolveAllIn c ss r).errors = []) {s : Stmt} (mem : s ∈ ss) :
    ∃ r', (s.resolveIn c r').errors = [] := by
  induction ss generalizing r with
  | nil => cases mem
  | cons t ss ih =>
    obtain rfl | mem := List.mem_cons.mp mem
    · exact ⟨r, Stmt.clean_before_all ss clean⟩
    · exact ih clean mem

/-- Outside of functions no `return` stands in a statement that is resolved without an error. -/
theorem Stmt.Holds.in_function {c : Context} {s : Stmt} {keyword : Token} {value : Option Expr}
    (h : s.Holds true (.returnFrom keyword value)) {r : Resolution}
    (clean : (s.resolveIn c r).errors = []) : c.function ≠ .none := by
  intro outside
  generalize target : Stmt.returnFrom keyword value = t at h
  induction h generalizing r with
  | self =>
    subst target
    have checked : ∃ hasValue, (r.checkReturnIn c keyword hasValue).errors = [] := by
      cases value with
      | none => exact ⟨false, clean⟩
      | some e => exact ⟨true, e.clean_before clean⟩
    obtain ⟨hasValue, checked⟩ := checked
    obtain ⟨allowed, -⟩ := Resolution.of_reportIf (Resolution.of_reportIf checked).2
    simp [outside] at allowed
  | block mem _ ih =>
    obtain ⟨r', clean⟩ := Stmt.clean_of_mem (r := r.enter) clean mem
    exact ih clean target
  | @thenBranch condition s elseBranch t _ ih =>
    cases elseBranch with
    | none => exact ih clean target
    | some elseBranch => exact ih (elseBranch.clean_before clean) target
  | elseBranch _ ih => exact ih clean target
  | loop _ _ ih => exact ih clean target

/-! ### Whole programs -/

theorem Program.clean_statements {p : Program} (clean : p.resolve.errors = []) :
    (Stmt.resolveAllIn {} p.statements {}).errors = [] := by
  rw [Program.resolve_eq] at clean
  cases trailing : p.trailing with
  | none =>
    rw [trailing] at clean
    exact clean
  | some e =>
    rw [trailing] at clean
    exact e.clean_before clean

/-- A transfer of control out of a statement comes from a statement that stands in it. -/
theorem execute_transfer {n : Nat} {s : Stmt} {m after : Machine} {flow : Flow}
    (ran : execute n s m = .ok flow after) (transfer : flow ≠ .normal) :
    ∃ t, t.Transfers flow ∧ s.Holds flow.leavesLoops t := by
  obtain ⟨k, t, m', ended, inside, transfers, -, -⟩ := execute_endedBy ran transfer
  obtain ⟨s', mem, holds⟩ := inside.holds
  obtain rfl := List.mem_singleton.mp mem
  exact ⟨t, transfers, holds⟩

/-- A statement of a program with no static error ends normally if at all, on any machine. -/
theorem execute_statement {p : Program} {i j : Nat} (lawful : p.Lawful i j)
    (clean : p.resolve.errors = []) {s : Stmt} (mem : s ∈ p.statements) {n : Nat} {m after : Machine}
    {flow : Flow} (ran : execute n s m = .ok flow after) : flow = .normal := by
  by_cases transfer : flow = .normal
  · exact transfer
  obtain ⟨t, transfers, holds⟩ := execute_transfer ran transfer
  cases transfers with
  | breaking =>
    have inLoop := holds.around (Stmt.allBreaksInLoops_iff.mp lawful.breaks s mem)
    cases inLoop
  | returning =>
    obtain ⟨r, clean⟩ := Stmt.clean_of_mem (Program.clean_statements clean) mem
    exact absurd rfl (holds.in_function clean)

/-! ### Called functions and loops -/

/-- A `return` that stands in the statements, and in no function inside them, has ended their run
on `m`. -/
def ReturnedBy (n : Nat) (ss : List Stmt) (m : Machine) (v : Value) (after : Machine) : Prop :=
  ∃ k keyword value m' ended, (∃ s ∈ ss, s.Holds true (.returnFrom keyword value)) ∧
    Inside true ⟨.executeAll n ss, m⟩ ⟨.execute (k + 1) (.returnFrom keyword value), m'⟩ ∧
    execute (k + 1) (.returnFrom keyword value) m' = .ok (.returning v) ended ∧
    after = { ended with current := after.current }

/-- A `break` has ended the loop most closely around it, which stands in the same function. -/
def EndsLoop (happens : Moment → Prop) (n : Nat) (keyword : Token) (m : Machine) : Prop :=
  ∃ k condition body start before, Round happens k condition body start before ∧
    body.Holds false (.breakLoop keyword) ∧
    Inside false ⟨.execute k body, before⟩ ⟨.execute (n + 1) (.breakLoop keyword), m⟩ ∧
    execute k body before = .ok .breaking { m with current := start.current } ∧
    execute (k + 1) (.whileLoop condition body) start =
      .ok .normal { m with current := start.current }

/-- A body in which each `break` is in a loop ends normally or by one of its `return`s. -/
theorem executeAll_body {n : Nat} {ss : List Stmt} {m after : Machine} {flow : Flow}
    (breaks : Stmt.AllBreaksInLoops false ss) (ran : executeAll (execute n) ss m = .ok flow after) :
    flow = .normal ∨ ∃ v, flow = .returning v ∧ ReturnedBy n ss m v after := by
  by_cases transfer : flow = .normal
  · exact .inl transfer
  obtain ⟨k, t, m', ended, inside, transfers, last, moved⟩ :=
    executeAll_endedBy (fun s m after ran => execute_endedBy ran transfer) transfer ran
  obtain ⟨s, mem, holds⟩ := inside.holds
  cases transfers with
  | breaking =>
    have inLoop := holds.around (Stmt.allBreaksInLoops_iff.mp breaks s mem)
    cases inLoop
  | @returning keyword value v =>
    exact .inr ⟨v, rfl, k, keyword, value, m', ended, ⟨s, mem, holds⟩, inside, last, moved⟩

theorem Enclosed.endsLoop {happens : Moment → Prop} {n : Nat} {keyword : Token} {m : Machine}
    (h : Enclosed happens ⟨.execute (n + 1) (.breakLoop keyword), m⟩) :
    EndsLoop happens n keyword m := by
  obtain ⟨around, inLoop, inRound⟩ := h
  obtain ⟨k, condition, body, start, before, round, inside⟩ := inRound inLoop
  obtain ⟨s, mem, holds⟩ := inside.holds
  obtain rfl := List.mem_singleton.mp mem
  have ends : Moment.Ends ⟨.execute k s, before⟩ .breaking { m with current := before.current } :=
    inside.ends_breaking (.execute rfl)
  obtain ran | _ := ends
  have loop := round.broken ran
  have same : before.current = start.current :=
    ((keepsCurrent.respects_execute _ _).of_ok loop : _)
  rw [same] at ran loop
  exact ⟨k, condition, s, start, before, round, holds, inside, ran, loop⟩

namespace Session

variable {clock : Clock} {history : List Entry}

theorem Holds.breaksInLoops {s : Session} {c : Code} (h : s.Holds history c) : c.BreaksInLoops := by
  obtain ⟨start, p, ⟨before, entry, later, -, executes, -⟩, contains⟩ := h
  exact executes.lawful.breaksInLoops contains

theorem breaksInLoops_call {n : Nat} {f : Closure} {arguments : List Value} {m : Machine}
    (happens : (initial clock).Happens history ⟨.call n f arguments, m⟩) :
    Stmt.AllBreaksInLoops false f.body := by
  obtain ⟨before, entry, later, rfl, -, ready⟩ := ready clock happens
  have holds : (initial clock).Holds (before ++ [entry]) f.code := ready.2.2.1.code
  exact holds.breaksInLoops

theorem enclosed {a : Moment} (happens : (initial clock).Happens history a) :
    Enclosed ((initial clock).Happens history) a := by
  induction happens with
  | turn runs turns =>
    obtain ⟨before, entry, later, rfl, executes, rfl⟩ := runs
    cases turns with
    | @statement before s later m split ran =>
      have mem : s ∈ _ := split ▸ List.mem_append_right before List.mem_cons_self
      exact ⟨false, Stmt.allBreaksInLoops_iff.mp executes.lawful.breaks s mem, nofun⟩
    | trailing => trivial
  | step happened begins ih =>
    refine ih.step happened begins ?_
    rintro n f arguments m rfl
    exact breaksInLoops_call happened

end Session

/-- A statement of a program that parses and resolves with no error ends normally if at all, on any
machine. In any session the body of a called function ends normally, or by a `return` that stands in
it and in no function inside it; and a `break` ends the loop most closely around it in the same
function. -/
theorem transfers_enclosed :
    (∀ (entry : Entry) (i : Nat), (entry.parsed i).errors = [] →
      (entry.parsed i).result.resolve.errors = [] →
      ∀ s ∈ (entry.parsed i).result.statements, ∀ n m flow after,
        execute n s m = .ok flow after → flow = .normal) ∧
    ∀ (clock : Clock) (history : List Entry),
      (∀ n f arguments m, (Session.initial clock).Happens history ⟨.call n f arguments, m⟩ →
        ∀ flow after, executeAll (execute n) f.body (m.enter f.environment (f.frame arguments)) =
          .ok flow after → flow = .normal ∨ ∃ v, flow = .returning v ∧
            ReturnedBy n f.body (m.enter f.environment (f.frame arguments)) v after) ∧
      ∀ n keyword m,
        (Session.initial clock).Happens history ⟨.execute (n + 1) (.breakLoop keyword), m⟩ →
        EndsLoop ((Session.initial clock).Happens history) n keyword m := by
  refine ⟨fun entry i parsed resolved s mem n m flow after ran =>
    execute_statement (Entry.lawful parsed) resolved mem ran, fun clock history => ⟨?_, ?_⟩⟩
  · intro n f arguments m happens flow after ran
    exact executeAll_body (Session.breaksInLoops_call happens) ran
  · exact fun n keyword m happens => (Session.enclosed happens).endsLoop

end Lox
