import Lox.Proofs.StaticErrors
import Mathlib.Data.List.Induction

/-!
# Accounting of errors

What each entry adds to the errors of a session, and what the exit code after a history says about
its entries: `errors_accounted`. Static errors are pending up to the next line, runtime errors stay.
-/

namespace Lox

namespace Diagnostics

theorem exitCode_eq_two (d : Diagnostics) : d.exitCode = 2 ↔ d.hadError = true := by
  unfold exitCode
  cases d.hadError <;> cases d.hadRuntimeError <;> decide

theorem exitCode_eq_three (d : Diagnostics) :
    d.exitCode = 3 ↔ ¬ d.hadError = true ∧ d.hadRuntimeError = true := by
  unfold exitCode
  cases d.hadError <;> cases d.hadRuntimeError <;> decide

theorem exitCode_eq_zero (d : Diagnostics) :
    d.exitCode = 0 ↔ ¬ d.hadError = true ∧ ¬ d.hadRuntimeError = true := by
  unfold exitCode
  cases d.hadError <;> cases d.hadRuntimeError <;> decide

end Diagnostics

def Entry.isProgram : Entry → Bool
  | .program _ => true
  | .line _ => false

namespace Session

variable {s : Session} {history before : List Entry} {source earlier : String}

/-! ### One entry -/

/-- What an answer adds to the errors of a session. -/
structure Accounts (s : Session) (answer : Report × Session) : Prop where
  errors : answer.2.diagnostics.errors = s.diagnostics.errors ++ answer.1.errors
  runtimeErrors : answer.2.diagnostics.runtimeErrors = s.diagnostics.runtimeErrors ++
    (answer.1.runtimeError.map RuntimeError.diagnostic).toList
  apart : answer.1.errors = [] ∨ answer.1.runtimeError = none

theorem errors_execute (s : Session) (p : Program) : (s.execute p).1.errors = [] := by
  unfold execute
  split <;> rfl

theorem accounts_execute (s : Session) (p : Program) : s.Accounts (s.execute p) := by
  unfold execute
  split
  · exact ⟨by simp, by simp, .inl rfl⟩
  · exact ⟨by simp [Diagnostics.addRuntimeError], by simp [Diagnostics.addRuntimeError], .inl rfl⟩
  · exact ⟨by simp, by simp, .inl rfl⟩

theorem accounts_resolveAndExecute (s : Session) (p : Program) :
    s.Accounts (s.resolveAndExecute p) := by
  unfold resolveAndExecute
  dsimp only
  split
  · exact ⟨rfl, by simp [note, Diagnostics.addErrors], .inr rfl⟩
  · rename_i clear
    -- Nothing was noted, so the program runs with the errors that were there before.
    have none : p.resolve.errors = [] := by
      simp only [note, Diagnostics.hadError_addErrors, Bool.not_eq_true, Bool.or_eq_false_iff,
        Bool.not_eq_false', List.isEmpty_iff, List.map_eq_nil_iff] at clear
      exact clear.2
    obtain ⟨errors, runtimeErrors, apart⟩ := accounts_execute
      { s.note (p.resolve.errors.map StaticError.diagnostic) s.nextId with
        machine := s.machine.addDistances p.resolve.distances } p
    refine ⟨errors.trans ?_, runtimeErrors, apart⟩
    simp [note, Diagnostics.addErrors, none]

theorem accounts_step (parse : TokenStream → Nat → Syntax.Parsed Program) (s : Session)
    (source : String) : s.Accounts (s.step parse source) := by
  unfold step
  dsimp only
  split
  · exact ⟨rfl, by simp [note, Diagnostics.addErrors], .inr rfl⟩
  · rename_i clear
    simp only [note, Diagnostics.hadError_addErrors, Bool.not_eq_true, Bool.or_eq_false_iff,
      Bool.not_eq_false', List.isEmpty_iff] at clear
    obtain ⟨errors, runtimeErrors, apart⟩ := accounts_resolveAndExecute (s.note _ _) _
    refine ⟨errors.trans ?_, runtimeErrors, apart⟩
    simp [note, Diagnostics.addErrors, clear.2]

theorem accounts_program (s : Session) (source : String) :
    s.Accounts (s.enter (.program source)) := by
  rw [enter_program]
  exact accounts_step _ s source

theorem errors_enter_line (s : Session) (source : String) :
    (s.enter (.line source)).2.diagnostics.errors = [] := by
  rw [enter_line]
  rfl

/-- An entry adds the runtime error that ends it, if there is one, and then no static error. -/
theorem runtimeErrors_enter (s : Session) (entry : Entry) :
    (s.enter entry).2.diagnostics.runtimeErrors = s.diagnostics.runtimeErrors ++
        ((s.enter entry).1.runtimeError.map RuntimeError.diagnostic).toList ∧
      ((s.enter entry).1.errors = [] ∨ (s.enter entry).1.runtimeError = none) := by
  cases entry with
  | program source =>
    have accounts := s.accounts_program source
    exact ⟨accounts.runtimeErrors, accounts.apart⟩
  | line source =>
    rw [enter_line]
    have accounts := accounts_step (fun _ => (Entry.line source).parsed) s source
    exact ⟨accounts.runtimeErrors, accounts.apart⟩

/-- Where no static error is pending, a program that is read reports one exactly if it has one. -/
theorem errors_resolveAndExecute (clear : s.diagnostics.hadError = false) (p : Program) :
    (s.resolveAndExecute p).1.errors = [] ↔ p.resolve.errors = [] := by
  unfold resolveAndExecute
  simp only [note, Diagnostics.hadError_addErrors, clear, Bool.false_or]
  cases errors : p.resolve.errors with
  | nil => exact iff_of_true (errors_execute _ p) rfl
  | cons e es => exact iff_of_false (List.cons_ne_nil _ _) (List.cons_ne_nil _ _)

/-- And so does any entry. -/
theorem errors_enter_of_clear (clear : s.diagnostics.hadError = false) (entry : Entry) :
    (s.enter entry).1.errors = [] ↔ ¬ entry.HasStaticError s.nextId := by
  rw [(s.enter_eq_step entry).1]
  unfold step Entry.HasStaticError
  simp only [note, Diagnostics.hadError_addErrors, clear, Bool.false_or]
  cases faults : (scan entry.source).faults with
  | cons f fs =>
    exact iff_of_false (List.cons_ne_nil _ _) fun free => free (.inl (List.cons_ne_nil _ _))
  | nil =>
    cases unread : (entry.parsed s.nextId).errors with
    | cons e es =>
      exact iff_of_false (List.cons_ne_nil _ _) fun free =>
        free (.inr (.inl (List.cons_ne_nil _ _)))
    | nil =>
      simp only [List.map_nil, List.append_nil, List.isEmpty_nil, Bool.not_true, Bool.false_eq_true,
        if_false, ne_eq, not_true_eq_false, false_or, Decidable.not_not]
      refine errors_resolveAndExecute ?_ _
      rw [Diagnostics.hadError_addErrors, clear]
      rfl

/-! ### Histories -/

/-- The program was entered after the last line of a history, with `before` before it. -/
def SinceLine (history before : List Entry) (source : String) : Prop :=
  ∃ later, history = before ++ .program source :: later ∧ ∀ entry ∈ later, entry.isProgram = true

theorem not_sinceLine_nil : ¬ SinceLine [] before source := by
  rintro ⟨later, split, -⟩
  cases before <;> cases split

theorem not_sinceLine_line (line : String) : ¬ SinceLine (history ++ [.line line]) before source := by
  rintro ⟨later, split, programs⟩
  obtain rfl | ⟨later, last, rfl⟩ := List.eq_nil_or_concat later
  · cases (List.append_inj' split rfl).2
  · rw [List.concat_eq_append, ← List.cons_append, ← List.append_assoc] at split
    cases (List.append_inj' split rfl).2
    have program := programs (.line line) (by simp)
    cases program

theorem sinceLine_program (last : String) :
    SinceLine (history ++ [.program last]) before source ↔
      (before = history ∧ source = last) ∨ SinceLine history before source := by
  constructor
  · rintro ⟨later, split, programs⟩
    obtain rfl | ⟨later, entry, rfl⟩ := List.eq_nil_or_concat later
    · obtain ⟨rfl, same⟩ := List.append_inj' split rfl
      cases same
      exact .inl ⟨rfl, rfl⟩
    · rw [List.concat_eq_append, ← List.cons_append, ← List.append_assoc] at split
      obtain ⟨rfl, -⟩ := List.append_inj' split rfl
      exact .inr ⟨later, rfl, fun e mem => programs e (by simp [mem])⟩
  · rintro (⟨rfl, rfl⟩ | ⟨later, rfl, programs⟩)
    · exact ⟨[], rfl, nofun⟩
    · refine ⟨later ++ [.program last], by simp, fun e mem => ?_⟩
      rcases List.mem_append.mp mem with mem | mem
      · exact programs e mem
      · rw [List.mem_singleton.mp mem]
        rfl

/-- Some program since the last line reported a static error. -/
def Pending (clock : Clock) (history : List Entry) : Prop :=
  ∃ before source, SinceLine history before source ∧
    (((initial clock).afterAll before).enter (.program source)).1.errors ≠ []

def Aborted (clock : Clock) (history : List Entry) : Prop :=
  ∃ before entry, before ++ [entry] <+: history ∧
    (((initial clock).afterAll before).enter entry).1.runtimeError ≠ none

theorem hadError_enter_program (s : Session) (source : String) :
    (s.enter (.program source)).2.diagnostics.hadError = true ↔
      s.diagnostics.hadError = true ∨ (s.enter (.program source)).1.errors ≠ [] := by
  have added := (s.accounts_program source).errors
  simp only [Diagnostics.hadError, added, Bool.not_eq_true', List.isEmpty_eq_false_iff, ne_eq,
    List.append_eq_nil_iff]
  tauto

theorem hadError_iff_pending (clock : Clock) (history : List Entry) :
    ((initial clock).afterAll history).diagnostics.hadError = true ↔ Pending clock history := by
  induction history using List.reverseRecOn with
  | nil =>
    refine iff_of_false nofun ?_
    rintro ⟨before, source, since, -⟩
    exact not_sinceLine_nil since
  | append_singleton history entry ih =>
    rw [afterAll_concat]
    cases entry with
    | line line =>
      have none := errors_enter_line ((initial clock).afterAll history) line
      refine iff_of_false (by simp [Diagnostics.hadError, none]) ?_
      rintro ⟨before, source, since, -⟩
      exact not_sinceLine_line line since
    | program last =>
      rw [hadError_enter_program, ih]
      constructor
      · rintro (⟨before, source, since, reported⟩ | reported)
        · exact ⟨before, source, (sinceLine_program last).mpr (.inr since), reported⟩
        · exact ⟨history, last, (sinceLine_program last).mpr (.inl ⟨rfl, rfl⟩), reported⟩
      · rintro ⟨before, source, since, reported⟩
        rcases (sinceLine_program last).mp since with ⟨rfl, rfl⟩ | since
        · exact .inr reported
        · exact .inl ⟨before, source, since, reported⟩

/-- No static error is pending exactly if the programs since the last line have none. -/
theorem hadError_eq_false_iff (clock : Clock) (history : List Entry) :
    ((initial clock).afterAll history).diagnostics.hadError = false ↔
      ∀ before source, SinceLine history before source →
        ¬ (Entry.program source).HasStaticError ((initial clock).afterAll before).nextId := by
  induction history using List.reverseRecOn with
  | nil => exact iff_of_true rfl fun before source since => (not_sinceLine_nil since).elim
  | append_singleton history entry ih =>
    rw [afterAll_concat]
    cases entry with
    | line line =>
      have none := errors_enter_line ((initial clock).afterAll history) line
      refine iff_of_true (by simp [Diagnostics.hadError, none]) fun before source since => ?_
      exact (not_sinceLine_line line since).elim
    | program last =>
      rw [← Bool.not_eq_true, hadError_enter_program, not_or, Bool.not_eq_true, not_not]
      constructor
      · rintro ⟨clear, reported⟩ before source since
        rcases (sinceLine_program last).mp since with ⟨rfl, rfl⟩ | since
        · exact (errors_enter_of_clear clear _).mp reported
        · exact ih.mp clear before source since
      · intro free
        have clear := ih.mpr fun before source since =>
          free before source ((sinceLine_program last).mpr (.inr since))
        have own := free history last ((sinceLine_program last).mpr (.inl ⟨rfl, rfl⟩))
        exact ⟨clear, (errors_enter_of_clear clear _).mpr own⟩

theorem hadRuntimeError_enter (s : Session) (entry : Entry) :
    (s.enter entry).2.diagnostics.hadRuntimeError = true ↔
      s.diagnostics.hadRuntimeError = true ∨ (s.enter entry).1.runtimeError ≠ none := by
  have added := (s.runtimeErrors_enter entry).1
  cases ended : (s.enter entry).1.runtimeError <;>
    simp [Diagnostics.hadRuntimeError, added, ended]

theorem hadRuntimeError_iff_aborted (clock : Clock) (history : List Entry) :
    ((initial clock).afterAll history).diagnostics.hadRuntimeError = true ↔
      Aborted clock history := by
  induction history using List.reverseRecOn with
  | nil =>
    refine iff_of_false nofun ?_
    rintro ⟨before, entry, part, -⟩
    have short := part.length_le
    simp at short
  | append_singleton history last ih =>
    rw [afterAll_concat, hadRuntimeError_enter, ih]
    constructor
    · rintro (⟨before, entry, part, ended⟩ | ended)
      · exact ⟨before, entry, part.trans (List.prefix_append _ _), ended⟩
      · exact ⟨history, last, List.prefix_rfl, ended⟩
    · rintro ⟨before, entry, part, ended⟩
      rcases List.prefix_concat_iff.mp part with same | part
      · obtain ⟨rfl, rfl⟩ : before = history ∧ entry = last := by simpa using same
        exact .inr ended
      · exact .inl ⟨before, entry, part, ended⟩

theorem runtimeErrors_prefix (s : Session) (later : List Entry) :
    s.diagnostics.runtimeErrors <+: (s.afterAll later).diagnostics.runtimeErrors := by
  induction later generalizing s with
  | nil => exact List.prefix_rfl
  | cons entry later ih =>
    have added := (s.runtimeErrors_enter entry).1
    exact List.IsPrefix.trans ⟨_, added.symm⟩ (ih _)

theorem runtimeError_enter_iff (s : Session) (entry : Entry) (e : RuntimeError) :
    (s.enter entry).1.runtimeError = some e ↔
      ∃ p m, s.Executes entry p ∧ p.run (s.start p) = .error (.error e) m := by
  constructor
  · intro ended
    rcases s.executes_or_idle entry with executes | idle
    · rw [enter_report executes] at ended
      split at ended
      · cases ended
      next e' m ran =>
        obtain rfl := Option.some.inj ended
        exact ⟨_, m, executes, ran⟩
      · cases ended
    · obtain ⟨errors, same⟩ := idle.report
      rw [same] at ended
      cases ended
  · rintro ⟨p, m, executes, ran⟩
    rw [enter_report executes, ran]

theorem exists_executes_iff (s : Session) (entry : Entry) :
    (∃ p, s.Executes entry p) ↔
      s.diagnostics.hadError = false ∧ ¬ entry.HasStaticError s.nextId := by
  constructor
  · rintro ⟨p, clear, scanned, parsed, rfl, resolved⟩
    simp [Entry.HasStaticError, clear, scanned, parsed, resolved]
  · rintro ⟨clear, free⟩
    simp only [Entry.HasStaticError, not_or, not_not] at free
    exact ⟨_, clear, free.1, free.2.1, rfl, free.2.2⟩

end Session

open Session in
/-- After any history of programs and lines, the exit code is 2 exactly if a program since the last
line reported a static error, else 3 exactly if some entry was ended by a runtime error, else 0.
An entry adds at most one runtime error, namely that of the run of its program, and none beside
static errors. A program is executed exactly if it and the programs since the last line have no
static error, and otherwise only its errors are noted. Runtime errors are never removed. -/
theorem errors_accounted (clock : Clock) (history : List Entry) :
    let now := (initial clock).afterAll history
    (now.exitCode = 2 ↔ Pending clock history) ∧
    (now.exitCode = 3 ↔ ¬ Pending clock history ∧ Aborted clock history) ∧
    (now.exitCode = 0 ↔ ¬ Pending clock history ∧ ¬ Aborted clock history) ∧
    (∀ entry : Entry,
      (now.enter entry).2.diagnostics.runtimeErrors = now.diagnostics.runtimeErrors ++
        ((now.enter entry).1.runtimeError.map RuntimeError.diagnostic).toList ∧
      ((now.enter entry).1.errors = [] ∨ (now.enter entry).1.runtimeError = none) ∧
      ∀ e, (now.enter entry).1.runtimeError = some e ↔
        ∃ p m, now.Executes entry p ∧ p.run (now.start p) = .error (.error e) m) ∧
    (∀ source : String,
      let p := ((Entry.program source).parsed now.nextId).result
      let free := ¬ (Entry.program source).HasStaticError now.nextId ∧
        ∀ before earlier, SinceLine history before earlier →
          ¬ (Entry.program earlier).HasStaticError ((initial clock).afterAll before).nextId
      (free → now.enter (.program source) =
        { machine := now.machine.addDistances p.resolve.distances
          diagnostics := now.diagnostics
          nextId := ((Entry.program source).parsed now.nextId).nextId : Session }.execute p) ∧
      (¬ free → now.Idle (now.enter (.program source)))) ∧
    ∀ later : List Entry, now.diagnostics.runtimeErrors <+:
      ((initial clock).afterAll (history ++ later)).diagnostics.runtimeErrors := by
  intro now
  have pending := hadError_iff_pending clock history
  have aborted := hadRuntimeError_iff_aborted clock history
  refine ⟨?_, ?_, ?_, fun entry => ?_, fun source => ?_, fun later => ?_⟩
  · rw [← pending]
    exact Diagnostics.exitCode_eq_two _
  · rw [← pending, ← aborted]
    exact Diagnostics.exitCode_eq_three _
  · rw [← pending, ← aborted]
    exact Diagnostics.exitCode_eq_zero _
  · obtain ⟨added, apart⟩ := now.runtimeErrors_enter entry
    exact ⟨added, apart, now.runtimeError_enter_iff entry⟩
  · have executed := now.exists_executes_iff (.program source)
    rw [hadError_eq_false_iff clock history, and_comm] at executed
    constructor
    · intro free
      obtain ⟨p, executes⟩ := executed.mpr free
      obtain rfl := executes.program
      rw [enter_program]
      exact step_of_executes executes
    · intro blocked
      have idle := now.executes_or_idle (.program source)
      exact idle.resolve_left fun executes => blocked (executed.mp ⟨_, executes⟩)
  · rw [afterAll_append]
    exact now.runtimeErrors_prefix later

end Lox
