import Lox.Proofs.Alike.Self
import Lox.Proofs.Alike.Session

/-!
# Static errors leave no trace

An entry with a static error, or one while a static error is pending, does nothing to the machine. A
line with a static error is forgotten altogether, although it used up numbers for uses:
`static_errors_leave_no_trace`.
-/

namespace Lox

/-- Scanning, parsing or resolving finds an error. -/
def Entry.HasStaticError (entry : Entry) (firstId : Nat) : Prop :=
  (scan entry.source).faults ≠ [] ∨ (entry.parsed firstId).errors ≠ [] ∨
    (entry.parsed firstId).result.resolve.errors ≠ []

instance (entry : Entry) (firstId : Nat) : Decidable (entry.HasStaticError firstId) :=
  inferInstanceAs (Decidable (_ ∨ _ ∨ _))

/-- The numbers of uses from a session and from one that did not hand out those from `n` to below
`n'`. -/
inductive Renumbered (n n' : Nat) : Nat → Nat → Prop
  | earlier {i} : i < n → Renumbered n n' i i
  | later (k) : Renumbered n n' (n' + k) (n + k)

theorem Renumbered.unique {n n' i i' j j' : Nat} (more : n ≤ n') (h : Renumbered n n' i i')
    (h' : Renumbered n n' j j') : i = j ↔ i' = j' := by
  cases h <;> cases h' <;> omega

namespace Session

variable {s : Session} {entry : Entry}

theorem le_nextId_enter (s : Session) (entry : Entry) : s.nextId ≤ (s.enter entry).2.nextId := by
  rw [nextId_enter]
  exact entry.le_nextId s.nextId

theorem not_executes (h : entry.HasStaticError s.nextId ∨ s.diagnostics.hadError = true)
    (p : Program) : ¬ s.Executes entry p := by
  rintro ⟨clear, scanned, parsed, rfl, resolved⟩
  obtain (faults | errors | errors) | pending := h
  · exact faults scanned
  · exact errors parsed
  · exact errors resolved
  · rw [clear] at pending
    cases pending

theorem idle_of_static_error
    (h : entry.HasStaticError s.nextId ∨ s.diagnostics.hadError = true) :
    s.Idle (s.enter entry) :=
  (s.executes_or_idle entry).resolve_left (not_executes h _)

/-- After a line with a static error a session is alike to the one before. -/
theorem Kept.forgets {history : List Entry} (kept : s.Kept history)
    (clear : (s.afterAll history).diagnostics.hadError = false) {line : String}
    (error : (Entry.line line).HasStaticError (s.afterAll history).nextId) :
    (((s.afterAll history).enter (.line line)).2).Alike Eq
      (Renumbered (s.afterAll history).nextId ((s.afterAll history).enter (.line line)).2.nextId)
      (s.afterAll history) := by
  have idle := idle_of_static_error (.inl error)
  have keeps : (Pairing.plain Eq (Renumbered (s.afterAll history).nextId
      ((s.afterAll history).enter (.line line)).2.nextId)).Keeps (s.afterAll history).nextId :=
    ⟨rfl, fun _ => rfl, fun _ => trivial, fun _ below => .earlier below⟩
  have alike := kept.alike keeps fun i i' paired => ⟨?_, trivial⟩
  · refine ⟨⟨(s.afterAll history).machine.store.plainFrames, ?_⟩, fun k => .later k, ?_, ?_⟩
    · rw [idle.machine]
      exact ⟨alike.store, alike.current, alike.current', alike.distances, rfl, alike.clock⟩
    · have pending : (s.afterAll history).diagnostics.errors = [] := by
        simpa [Diagnostics.hadError] using clear
      rw [pending]
      rfl
    · rw [idle.runtimeErrors]
      exact List.forall₂_same.mpr fun _ _ => .same
  · cases paired with
    | earlier => rfl
    | later k =>
      have more := (s.afterAll history).le_nextId_enter (.line line)
      rw [kept.fresh _ (Nat.le_add_right _ k), kept.fresh _ (Nat.le_trans more (Nat.le_add_right _ k))]

end Session

/-- In any session, an entry with a static error of its own, or entered while one is pending, prints
and shows nothing, ends without a runtime error, and leaves the machine with all frames, instances
and distances as it was. If no error is pending, then after a line with a static error every later
entry is answered as if the line had not been entered, and the same errors are collected. -/
theorem static_errors_leave_no_trace (clock : Clock) (history : List Entry) :
    let s := (Session.initial clock).afterAll history
    (∀ entry : Entry, entry.HasStaticError s.nextId ∨ s.diagnostics.hadError = true →
      (s.enter entry).1.output = "" ∧ (s.enter entry).1.runtimeError = none ∧
      (s.enter entry).1.crash = none ∧ (s.enter entry).1.shown = none ∧
      (s.enter entry).2.machine = s.machine ∧
      (s.enter entry).2.diagnostics.runtimeErrors = s.diagnostics.runtimeErrors) ∧
    ∀ line : String, s.diagnostics.hadError = false → (Entry.line line).HasStaticError s.nextId →
      ∀ (later : List Entry) (entry : Entry),
        let after := ((s.enter (.line line)).2.afterAll later).enter entry
        let without := (s.afterAll later).enter entry
        after.1 = without.1 ∧ after.2.diagnostics = without.2.diagnostics := by
  refine ⟨fun entry error => ?_, fun line clear error later entry => ?_⟩
  · obtain ⟨⟨errors, report⟩, machine, runtimeErrors⟩ := Session.idle_of_static_error error
    rw [report]
    exact ⟨rfl, rfl, rfl, rfl, machine, runtimeErrors⟩
  · have more := ((Session.initial clock).afterAll history).le_nextId_enter (.line line)
    have alike := (Session.kept clock history).forgets clear error
    have answered := (alike.afterAll (Renumbered.unique more) later fun _ _ _ _ => rfl).enter
      (Renumbered.unique more) entry fun _ _ => rfl
    exact ⟨answered.1.eq.symm, (answered.2.diagnostics_eq rfl).symm⟩

end Lox
