import Lox.Proofs.StepRelation

/-!
# Histories of sessions

A session is entered by programs and by prompt lines. `enter_machine` says what an entry does to the
machine: nothing, unless it has no static error and none is pending.
-/

namespace Lox

inductive Entry where
  | program (source : String)
  | line (source : String)

namespace Entry

def source : Entry → String
  | program source => source
  | line source => source

def withSource (source : String) : Entry → Entry
  | program _ => program source
  | line _ => line source

theorem withSource_source (entry : Entry) : entry.withSource entry.source = entry := by
  cases entry <;> rfl

/-- What the parser makes of an entry whose uses are numbered from `firstId`. -/
def parsed (entry : Entry) (firstId : Nat) : Syntax.Parsed Program :=
  match entry with
  | program source =>
    let p := Syntax.parse (scan source).tokens firstId
    { p with result := { statements := p.result } }
  | line source => Syntax.parsePrompt (scan source).tokens firstId

end Entry

namespace Session

def enter (s : Session) : Entry → Report × Session
  | .program source => s.run source
  | .line source => s.prompt source

def afterAll (s : Session) (history : List Entry) : Session :=
  history.foldl (fun s entry => (s.enter entry).2) s

theorem afterAll_append (s : Session) (history later : List Entry) :
    s.afterAll (history ++ later) = (s.afterAll history).afterAll later := List.foldl_append

theorem afterAll_concat (s : Session) (history : List Entry) (entry : Entry) :
    s.afterAll (history ++ [entry]) = ((s.afterAll history).enter entry).2 := by
  simp [afterAll]

/-- No static error is pending, the entry has none, and `p` is its program. -/
structure Executes (s : Session) (entry : Entry) (p : Program) : Prop where
  clear : s.diagnostics.hadError = false
  scanned : (scan entry.source).faults = []
  parsed : (entry.parsed s.nextId).errors = []
  program : p = (entry.parsed s.nextId).result
  resolved : p.resolve.errors = []

def start (s : Session) (p : Program) : Machine :=
  { s.machine.addDistances p.resolve.distances with output := "" }

theorem machine_execute (s : Session) (p : Program) :
    (s.execute p).2.machine = stateAfter p.run { s.machine with output := "" } := by
  unfold execute stateAfter
  split <;> rename_i h <;> simp only [h]

theorem nextId_execute (s : Session) (p : Program) : (s.execute p).2.nextId = s.nextId := by
  unfold execute
  split <;> rfl

theorem enter_program (s : Session) (source : String) :
    s.enter (.program source) =
      s.step (fun _ => (Entry.program source).parsed) source := by
  unfold enter run step
  rfl

theorem enter_line (s : Session) (source : String) :
    s.enter (.line source) =
      ((s.step (fun _ => (Entry.line source).parsed) source).1,
        { (s.step (fun _ => (Entry.line source).parsed) source).2 with
          diagnostics :=
            (s.step (fun _ => (Entry.line source).parsed) source).2.diagnostics.reset }) := by
  unfold enter prompt step
  rfl

theorem enter_eq_step (s : Session) (entry : Entry) :
    (s.enter entry).1 = (s.step (fun _ => entry.parsed) entry.source).1 ∧
      (s.enter entry).2.machine = (s.step (fun _ => entry.parsed) entry.source).2.machine ∧
      (s.enter entry).2.nextId = (s.step (fun _ => entry.parsed) entry.source).2.nextId := by
  cases entry with
  | program source =>
    rw [enter_program]
    exact ⟨rfl, rfl, rfl⟩
  | line source =>
    rw [enter_line]
    exact ⟨rfl, rfl, rfl⟩

theorem step_of_executes {s : Session} {entry : Entry} {p : Program} (h : s.Executes entry p) :
    s.step (fun _ => entry.parsed) entry.source =
      execute { machine := s.machine.addDistances p.resolve.distances
                diagnostics := s.diagnostics
                nextId := (entry.parsed s.nextId).nextId } p := by
  obtain ⟨clear, scanned, parsed, rfl, resolved⟩ := h
  simp [step, resolveAndExecute, note, Diagnostics.addErrors, scanned, parsed, clear, resolved]

/-- What an entry comes to that is not executed: static errors at most. -/
structure Idle (s : Session) (answer : Report × Session) : Prop where
  report : ∃ errors, answer.1 = { errors }
  machine : answer.2.machine = s.machine
  runtimeErrors : answer.2.diagnostics.runtimeErrors = s.diagnostics.runtimeErrors

theorem executes_or_step_idle (s : Session) (entry : Entry) :
    s.Executes entry (entry.parsed s.nextId).result ∨
      s.Idle (s.step (fun _ => entry.parsed) entry.source) := by
  unfold step
  dsimp only
  split
  · exact .inr ⟨⟨_, rfl⟩, rfl, rfl⟩
  unfold resolveAndExecute
  dsimp only
  split
  · exact .inr ⟨⟨_, rfl⟩, rfl, rfl⟩
  rename_i unscanned unresolved
  simp only [note, Diagnostics.hadError_addErrors, Bool.not_eq_true, Bool.or_eq_false_iff,
    Bool.not_eq_false', List.isEmpty_iff, List.append_eq_nil_iff, List.map_eq_nil_iff]
    at unscanned unresolved
  exact .inl ⟨unscanned.1, unscanned.2.1, unscanned.2.2, rfl, unresolved.2⟩

theorem executes_or_idle (s : Session) (entry : Entry) :
    s.Executes entry (entry.parsed s.nextId).result ∨ s.Idle (s.enter entry) := by
  obtain executes | idle := s.executes_or_step_idle entry
  · exact .inl executes
  · cases entry with
    | program source =>
      rw [enter_program]
      exact .inr idle
    | line source =>
      rw [enter_line]
      exact .inr ⟨idle.report, idle.machine, idle.runtimeErrors⟩

theorem nextId_enter (s : Session) (entry : Entry) :
    (s.enter entry).2.nextId = (entry.parsed s.nextId).nextId := by
  rw [(s.enter_eq_step entry).2.2]
  unfold step
  dsimp only
  split
  · rfl
  unfold resolveAndExecute
  dsimp only
  split
  · rfl
  · rw [nextId_execute]
    rfl

theorem enter_report {s : Session} {entry : Entry} {p : Program} (h : s.Executes entry p) :
    (s.enter entry).1 = match p.run (s.start p) with
      | .ok shown m => { output := m.output, shown }
      | .error (.error e) m => { output := m.output, runtimeError := some e }
      | .error (.crash c) m => { output := m.output, crash := some c } := by
  rw [(s.enter_eq_step entry).1, step_of_executes h]
  unfold execute
  change (match p.run (s.start p) with
    | .ok shown m => ({ output := m.output, shown }, _)
    | .error (.error e) m => ({ output := m.output, runtimeError := some e }, _)
    | .error (.crash c) m => ({ output := m.output, crash := some c }, _) : Report × Session).1 = _
  split <;> rfl

theorem enter_crash {s : Session} {entry : Entry} {c : Crash}
    (h : (s.enter entry).1.crash = some c) :
    ∃ p m, s.Executes entry p ∧ p.run (s.start p) = .error (.crash c) m := by
  obtain executes | idle := s.executes_or_idle entry
  · rw [enter_report executes] at h
    split at h
    · cases h
    · cases h
    next m ran =>
      obtain rfl := Option.some.inj h
      exact ⟨_, m, executes, ran⟩
  · obtain ⟨errors, same⟩ := idle.report
    rw [same] at h
    cases h

theorem enter_machine {s : Session} {entry : Entry} {p : Program} (h : s.Executes entry p) :
    (s.enter entry).2.machine = stateAfter p.run (s.start p) := by
  rw [(s.enter_eq_step entry).2.1, step_of_executes h, machine_execute]
  rfl

theorem enter_machine_idle {s : Session} {entry : Entry} (h : ∀ p, ¬ s.Executes entry p) :
    (s.enter entry).2.machine = s.machine :=
  ((s.executes_or_idle entry).resolve_left (h _)).machine

/-- What every run of a program keeps of the machine holds after every history. -/
theorem machine_afterAll {P : Machine → Prop} {s : Session} (history : List Entry)
    (run : ∀ (s : Session) (p : Program), P s.machine → P (stateAfter p.run (s.start p)))
    (h : P s.machine) : P (s.afterAll history).machine := by
  induction history generalizing s with
  | nil => exact h
  | cons entry history ih =>
    refine ih ?_
    by_cases executes : ∃ p, s.Executes entry p
    · obtain ⟨p, executes⟩ := executes
      rw [enter_machine executes]
      exact run s p h
    · rw [enter_machine_idle (not_exists.mp executes)]
      exact h

end Session

end Lox
