import Lox.Proofs.Joining.Origins
import Lox.Proofs.Joining.Parsing

/-!
# Sources that are joined

Sources that are entered one after another, each as a program or as a line, come to the same as the
one program in which they stand one below the other: `joined_runs_alike`. Only the lines of errors
differ, by as many lines as stand before a source.
-/

namespace Lox

/-! ### The statements of several sources -/

/-- The statements of sources in a row, whose uses are numbered from `n`, and the next number. -/
def readAll (n : Nat) : List String → List Stmt × Nat
  | [] => ([], n)
  | source :: sources =>
    let first := Syntax.parse (scan source).tokens n
    let others := readAll first.nextId sources
    (first.result ++ others.1, others.2)

theorem parse_empty (endLine n : Nat) :
    Syntax.parse ⟨[], endLine⟩ n = { result := [], errors := [], nextId := n } :=
  rfl

-- What a source is read as plays no part below, and reading is costly to unfold.
attribute [local irreducible] Syntax.parse

section Reading

variable {source : String} {sources : List String}

/-- A source without static errors has none under any numbers of its uses. -/
theorem sound_of_clean (clean : ¬ (Entry.program source).HasStaticError 0) (n : Nat) :
    (Syntax.parse (scan source).tokens n).errors = [] ∧
      Program.Sound (Syntax.parse (scan source).tokens n).result n
        (Syntax.parse (scan source).tokens n).nextId := by
  have here := Entry.clean_at clean n
  simp only [Entry.HasStaticError, not_or, not_not] at here
  obtain ⟨-, errors, resolves⟩ := here
  have above (k : Nat) : IdsFrom n (n + k) (n + k) := ⟨rfl, Nat.le_add_right n k⟩
  have fresh : Syntax.Parsed.Alike (.plain Eq (IdsFrom n)) _ _ _ _ _ :=
    (Entry.program source).parsed_alike above fun _ _ => rfl
  exact ⟨errors, Entry.lawful errors, resolves, fresh.result.statements⟩

theorem readAll_sound (clean : ∀ source ∈ sources, ¬ (Entry.program source).HasStaticError 0)
    (n : Nat) : Program.Sound (readAll n sources).1 n (readAll n sources).2 := by
  induction sources generalizing n with
  | nil => exact .nil n
  | cons source sources ih =>
    obtain ⟨here, others⟩ := List.forall_mem_cons.mp clean
    exact (sound_of_clean here n).2.append (ih others _)

/-- The tokens of sources in a row are read as the statements of each source. -/
theorem parse_bodies (clean : ∀ source ∈ sources, ¬ (Entry.program source).HasStaticError 0)
    (n endLine : Nat) :
    Syntax.parse ⟨bodies sources, endLine⟩ n =
      { result := (readAll n sources).1, errors := [], nextId := (readAll n sources).2 } := by
  induction sources generalizing n with
  | nil => exact parse_empty endLine n
  | cons source sources ih =>
    obtain ⟨here, others⟩ := List.forall_mem_cons.mp clean
    have rest := ih others (Syntax.parse (scan source).tokens n).nextId
    have split : (TokenStream.mk (bodies (source :: sources)) endLine).body =
        (scan source).tokens.body ++ (TokenStream.mk (bodies sources) endLine).body :=
      bodies_cons source sources
    rw [Grammar.parse_append split (sound_of_clean here n).1 (by rw [rest]), rest]
    rfl

end Reading

/-- A source without static errors is read the same as a line and as a program. -/
theorem Entry.parsed_eq_program (entry : Entry) {n : Nat}
    (clean : ¬ (Entry.program entry.source).HasStaticError n) :
    entry.parsed n = (Entry.program entry.source).parsed n := by
  simp only [Entry.HasStaticError, not_or, not_not] at clean
  cases entry with
  | program source => rfl
  | line source => exact Grammar.parsePrompt_of_parse clean.2.1

theorem Entry.clean_of_program {entry : Entry} {n : Nat}
    (clean : ¬ (Entry.program entry.source).HasStaticError n) : ¬ entry.HasStaticError n := by
  rw [Entry.HasStaticError, entry.parsed_eq_program clean]
  exact clean

/-! ### Entering one source after another -/

namespace Session

/-- Sessions that answer all later entries the same, and after which a process ends the same way. -/
structure AnswersSame (s s' : Session) : Prop where
  answers : ∀ (later : List Entry) (entry : Entry),
    ((s'.afterAll later).enter entry).1 = ((s.afterAll later).enter entry).1
  exitCode : ∀ later : List Entry, (s'.afterAll later).exitCode = (s.afterAll later).exitCode

section Answers

variable {s s' s'' : Session}

theorem Alike.answersSame (h : s.Alike Eq Eq s') : s.AnswersSame s' := by
  have alike (later : List Entry) : (s.afterAll later).Alike Eq Eq (s'.afterAll later) :=
    h.afterAll eq_unique later fun _ _ _ _ => rfl
  exact ⟨fun later entry => ((alike later).enter eq_unique entry fun _ _ => rfl).1.eq,
    fun later => (alike later).exitCode⟩

theorem AnswersSame.refl (s : Session) : s.AnswersSame s := ⟨fun _ _ => rfl, fun _ => rfl⟩

theorem AnswersSame.trans (h : s.AnswersSame s') (h' : s'.AnswersSame s'') : s.AnswersSame s'' :=
  ⟨fun later entry => (h'.answers later entry).trans (h.answers later entry),
    fun later => (h'.exitCode later).trans (h.exitCode later)⟩

end Answers

section Enter

variable {s : Session} {entry : Entry}

/-- Where no static error is pending, there is none to forget. -/
theorem reset_eq_self (none : s.diagnostics.errors = []) :
    { s with diagnostics := s.diagnostics.reset } = s := by
  obtain ⟨machine, ⟨errors, runtimeErrors⟩, nextId⟩ := s
  obtain rfl : errors = [] := none
  rfl

theorem Executes.of_clean (clear : s.diagnostics.hadError = false)
    (clean : ¬ (Entry.program entry.source).HasStaticError 0) :
    s.Executes entry (.of (Syntax.parse (scan entry.source).tokens s.nextId).result) ∧
      (entry.parsed s.nextId).nextId =
        (Syntax.parse (scan entry.source).tokens s.nextId).nextId := by
  have parsed := entry.parsed_eq_program (Entry.clean_at clean s.nextId)
  have here := Entry.clean_at clean s.nextId
  simp only [Entry.HasStaticError, not_or, not_not] at here
  rw [parsed]
  refine ⟨⟨clear, here.1, ?_, ?_, here.2.2⟩, rfl⟩
  · rw [parsed]
    exact here.2.1
  · rw [parsed]
    rfl

theorem enter_eq_perform (clear : s.diagnostics.hadError = false)
    (clean : ¬ (Entry.program entry.source).HasStaticError 0) :
    s.enter entry = s.perform (Syntax.parse (scan entry.source).tokens s.nextId).result
      (Syntax.parse (scan entry.source).tokens s.nextId).nextId := by
  obtain ⟨executes, nextId⟩ := Executes.of_clean clear clean
  have performed := step_eq_perform executes
  rw [nextId] at performed
  cases entry with
  | program source => exact (enter_program s source).trans performed
  | line source =>
    have stepped : s.step (fun _ => (Entry.line source).parsed) source = _ := performed
    have none : s.diagnostics.errors = [] := by simpa [Diagnostics.hadError] using clear
    rw [enter_line, stepped, reset_eq_self ((errors_perform s _ _).trans none)]

theorem clear_enter (clear : s.diagnostics.hadError = false)
    (clean : ¬ (Entry.program entry.source).HasStaticError 0) :
    (s.enter entry).2.diagnostics.hadError = false := by
  rw [enter_eq_perform clear clean]
  unfold Diagnostics.hadError
  rw [errors_perform]
  exact clear

end Enter

section Reports

variable {clock : Clock} {history entries : List Entry}

/-- Entries that are performed as one program are so after one more, if that one ends. -/
theorem reports_cons_eq_perform {entry : Entry} {ss ts : List Stmt} {j k : Nat}
    (sound : Program.Sound ss ((initial clock).afterAll history).nextId j)
    (later : Program.Sound ts j k) :
    let s := (initial clock).afterAll history
    let first := s.enter entry
    first = s.perform ss j → first.1.runtimeError = none → first.1.crash = none →
      Report.concat (first.2.reports entries) = (first.2.perform ts k).1 →
      (first.2.afterAll entries).AnswersSame (first.2.perform ts k).2 →
      Report.concat (s.reports (entry :: entries)) = (s.perform (ss ++ ts) k).1 ∧
        (s.afterAll (entry :: entries)).AnswersSame (s.perform (ss ++ ts) k).2 := by
  intro s first entered quiet fine reports answers
  rw [entered] at quiet fine
  obtain ⟨whole, alike⟩ := (kept clock history).perform_append sound later quiet fine
  rw [← entered] at whole alike
  refine ⟨?_, answers.trans alike.answersSame⟩
  exact (congrArg first.1.append reports).trans whole.symm

/-- Sources without static errors are performed as one program, if all but the last end without a
runtime error. -/
theorem reports_eq_perform
    (clear : ((initial clock).afterAll history).diagnostics.hadError = false)
    (clean : ∀ entry ∈ entries, ¬ (Entry.program entry.source).HasStaticError 0)
    (quiet : ∀ r ∈ (((initial clock).afterAll history).reports entries).dropLast,
      r.runtimeError = none ∧ r.crash = none) :
    let s := (initial clock).afterAll history
    let all := readAll s.nextId (entries.map Entry.source)
    Report.concat (s.reports entries) = (s.perform all.1 all.2).1 ∧
      (s.afterAll entries).AnswersSame (s.perform all.1 all.2).2 := by
  induction entries generalizing history with
  | nil => exact ⟨rfl, (kept clock history).perform_nil.answersSame⟩
  | cons entry entries ih =>
    intro s all
    obtain ⟨here, others⟩ := List.forall_mem_cons.mp clean
    have entered := enter_eq_perform clear here
    cases entries with
    | nil =>
      have whole : s.perform all.1 all.2 = s.enter entry := by
        rw [entered]
        show s.perform (_ ++ []) _ = _
        rw [List.append_nil]
        rfl
      rw [whole]
      exact ⟨Report.append_empty _, .refl _⟩
    | cons next entries =>
      obtain ⟨⟨quiet, fine⟩, quietLater⟩ := List.forall_mem_cons.mp quiet
      have after : (s.enter entry).2 = (initial clock).afterAll (history ++ [entry]) :=
        (afterAll_concat _ _ _).symm
      have nextId : (s.enter entry).2.nextId =
          (Syntax.parse (scan entry.source).tokens s.nextId).nextId := by
        rw [entered, nextId_perform]
      have clearLater := clear_enter clear here
      rw [after] at clearLater
      have sources : ∀ source ∈ (next :: entries).map Entry.source,
          ¬ (Entry.program source).HasStaticError 0 := by
        intro source mem
        obtain ⟨entry, there, rfl⟩ := List.mem_map.mp mem
        exact others entry there
      obtain ⟨reports, answers⟩ := ih clearLater others (after ▸ quietLater)
      rw [← after, nextId] at reports answers
      exact reports_cons_eq_perform (sound_of_clean here s.nextId).2 (readAll_sound sources _)
        entered quiet fine reports answers

end Reports

end Session

/-- Joined sources are executed as the statements of each source below the lines before it. -/
theorem Session.executes_joined {s : Session} {sources : List String}
    (clear : s.diagnostics.hadError = false)
    (clean : ∀ source ∈ belowEach (linesAbove sources) sources,
      ¬ (Entry.program source).HasStaticError 0)
    (faults : ∀ source ∈ sources, (scan source).faults = []) :
    let all := readAll s.nextId (belowEach (linesAbove sources) sources)
    s.Executes (.program (joinLines sources)) (.of all.1) ∧
      ((Entry.program (joinLines sources)).parsed s.nextId).nextId = all.2 := by
  intro all
  obtain ⟨body, none⟩ : (scan (joinLines sources)).tokens.body = _ ∧
    (scan (joinLines sources)).faults = [] := body_join faults 0
  have read := parse_bodies clean s.nextId (scan (joinLines sources)).tokens.endLine
  have tokens : (scan (joinLines sources)).tokens =
      ⟨bodies (belowEach (linesAbove sources) sources),
        (scan (joinLines sources)).tokens.endLine⟩ := congrArg (TokenStream.mk · _) body
  rw [← tokens] at read
  have parsed : (Entry.program (joinLines sources)).parsed s.nextId =
      { result := .of all.1, errors := [], nextId := all.2 } := by
    rw [Entry.parsed, read]
  exact ⟨⟨clear, none, by rw [parsed], by rw [parsed], (readAll_sound clean s.nextId).clean⟩,
    by rw [parsed]⟩

/-- In any session without a pending static error, sources are entered one after another, each as a
program or as a line. If none of them has a static error of its own and all but the last end without
a runtime error and a crash, then the one program in which they stand one below the other has no
static error, prints and reports the same as the sources each below as many empty lines as there are
lines before it, and leaves a session that answers all later entries the same. The empty lines only
move the line of a runtime error, and they move it with the source that it is in, now or later. -/
theorem joined_runs_alike (clock : Clock) (history entries : List Entry) :
    let s := (Session.initial clock).afterAll history
    let sources := entries.map Entry.source
    let whole := s.run (joinLines sources)
    let inPlace := lowered (linesAbove sources) entries
    s.diagnostics.hadError = false →
      (∀ source ∈ sources, ¬ (Entry.program source).HasStaticError 0) →
      (∀ r ∈ (s.reports entries).dropLast, r.runtimeError = none ∧ r.crash = none) →
      whole.1.errors = [] ∧
        whole.1 = Report.concat (s.reports inPlace) ∧
        (s.afterAll inPlace).AnswersSame whole.2 ∧
        (Report.concat (s.reports entries)).MovesWith (fun above =>
          Report.concat (s.reports (lowered above entries))) ∧
        (s.afterAll entries).AnswersMoveWith entries.length (fun above =>
          s.afterAll (lowered above entries)) := by
  intro s sources whole inPlace clear clean quiet
  have sound (entry : Entry) (mem : entry ∈ entries) :
      ¬ (Entry.program entry.source).HasStaticError 0 := clean _ (List.mem_map_of_mem mem)
  have soundEntries (entry : Entry) (mem : entry ∈ entries) : ¬ entry.HasStaticError 0 :=
    Entry.clean_of_program (sound entry mem)
  have soundInPlace (entry : Entry) (mem : entry ∈ inPlace) :
      ¬ (Entry.program entry.source).HasStaticError 0 := by
    obtain ⟨i, old, there, rfl⟩ := exists_of_mem_lowered mem
    rw [source_below]
    exact Entry.clean_below (sound old there) _
  have texts : inPlace.map Entry.source = belowEach (linesAbove sources) sources :=
    map_source_lowered
  obtain ⟨bound, within⟩ := exists_bound (history ++ entries)
  have alike := (Session.alike_lowered clock history soundEntries within (fun _ => 0)
    (linesAbove sources)).1
  rw [lowered_zero] at alike
  obtain ⟨reports, answers⟩ :=
    Session.reports_eq_perform clear soundInPlace (Report.quiet_of_alike alike quiet)
  rw [texts] at reports answers
  obtain ⟨executes, nextId⟩ := Session.executes_joined clear
    (texts ▸ List.forall_mem_map.mpr soundInPlace) fun source mem =>
      not_not.mp fun faults => clean source mem (.inl faults)
  have performed : whole = s.perform _ _ :=
    (Session.step_eq_perform executes).trans (congrArg (s.perform _) nextId)
  rw [performed]
  exact ⟨Session.clean_perform s _ _, reports.symm, answers,
    Session.reports_move clock history soundEntries,
    Session.answers_move clock history soundEntries⟩

/-- A program, a line that ends in a comment, and a program that fails. -/
theorem joined_runs_alike_three :
    let s := (Session.initial (0 : Float)).afterAll []
    let entries : List Entry := [.program "var a;", .line "print a; // a", .program "print b;"]
    let sources := entries.map Entry.source
    let whole := s.run (joinLines sources)
    let inPlace := lowered (linesAbove sources) entries
    whole.1.errors = [] ∧
      whole.1 = Report.concat (s.reports inPlace) ∧
      (s.afterAll inPlace).AnswersSame whole.2 ∧
      (Report.concat (s.reports entries)).MovesWith (fun above =>
        Report.concat (s.reports (lowered above entries))) ∧
      (s.afterAll entries).AnswersMoveWith entries.length (fun above =>
        s.afterAll (lowered above entries)) :=
  joined_runs_alike (0 : Float) [] [.program "var a;", .line "print a; // a", .program "print b;"] rfl
    (by decide +kernel) (by decide +kernel)

-- The error is in the second source, although the third runs into it.
example :
    ((Session.initial (0 : Float)).run
        (joinLines ["print 1;", "fun f() { print b; }", "f();"])).1.runtimeError =
      some ⟨2, .undefinedVariable "b"⟩ := by decide +kernel

end Lox
