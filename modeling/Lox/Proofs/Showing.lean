import Lox.Proofs.Accounting
import Lox.Proofs.Joining
import Lox.Proofs.PromptLines

/-!
# Showing and printing

A line that is one expression shows what the program prints that has the line between `print` and a
semicolon. Both leave the same session behind, but for the output: `shown_is_printed`.
-/

namespace Lox

/-! ### Tokens -/

section Tokens

variable {source : String}

def printKeyword : Token := ⟨.kwPrint, "print", 1⟩

def semicolonBelow (source : String) : Token := ⟨.semicolon, ";", 1 + linesOf source⟩

theorem Piece.cut_print (cs : List Char) :
    cut ("print ".toList ++ cs) =
      .token .kwPrint "print".toList :: .trivia [' '] :: cut cs := by
  have word : First (.token .kwPrint "print".toList) (' ' :: cs) :=
    @first_splitWord 'p' ("rint ".toList ++ cs) (by decide) (by decide) (by decide)
  exact (cuts_iff.mp (.cons word (.cons (first_blank (by decide)) (cuts_iff.mpr rfl)))).symm

theorem scan_print (source : String) :
    (scan ("print " ++ source)).tokens.body = printKeyword :: (scan source).tokens.body ∧
      (scan ("print " ++ source)).faults = (scan source).faults := by
  have items : numberPieces 1 (Piece.cut ("print " ++ source).toList) =
      .token printKeyword :: numberPieces 1 (Piece.cut source.toList) := by
    rw [String.toList_append, Piece.cut_print]
    rfl
  rw [scan_eq, scan_eq, items]
  exact ⟨rfl, rfl⟩

/-- The tokens of a text between `print` and a semicolon on the line below. -/
theorem scan_printed (clean : (scan source).faults = []) :
    (scan ("print " ++ source ++ "\n;")).tokens.body =
        printKeyword :: ((scan source).tokens.body ++ [semicolonBelow source]) ∧
      (scan ("print " ++ source ++ "\n;")).faults = [] := by
  have text : "print " ++ source ++ "\n;" = "print " ++ source ++ "\n" ++ ";" := by
    have both : "\n;" = "\n" ++ ";" := by decide
    rw [both, ← String.append_assoc]
  have lines : linesOf ("print " ++ source) = linesOf source := by
    unfold linesOf
    rw [String.toList_append, lineEnds_append]
    exact congrArg (· + 1) (Nat.zero_add _)
  obtain ⟨body, faults⟩ := scan_print source
  have semicolon : scan ";" = ⟨⟨[⟨.semicolon, ";", 1⟩], 1⟩, []⟩ := by decide +kernel
  have mark : (scan ";").faults = [] := by rw [semicolon]
  obtain ⟨whole, none⟩ := scan_join (faults.trans clean) mark
  rw [text]
  refine ⟨?_, none⟩
  rw [whole, body, lines, semicolon]
  rfl

end Tokens

/-! ### Statements -/

namespace Syntax

open Grammar

section Statements

variable {n m i : Nat} {s t : ParseState} {e : Expr} {ts : TokenStream} {print semicolon : Token}

theorem errors_of_recover_none {p : Parse α} (none : (recover p s).1 = none) :
    (recover p s).2.errors ≠ [] := by
  unfold recover at none ⊢
  cases read : p s with
  | ok a t =>
    rw [read] at none
    cases none
  | error e t => exact List.append_ne_nil_of_right_ne_nil _ (List.cons_ne_nil _ _)

/-- A line without errors whose only item is an expression at the end. -/
theorem Items.only_trailing (h : Items (rules n) s { statements := [], trailing := some e } t)
    (clean : t.errors = []) : Trailing (rules n) s e t := by
  generalize line : Program.mk [] (some e) = p at h
  cases h with
  | ended ended => cases line
  | trailing last =>
    cases line
    exact last
  | @next s p t more rest =>
    have none : (recover (declaration (rules n)) s).1.toList = [] :=
      (List.append_eq_nil_iff.mp (Program.mk.inj line).1.symm).1
    -- A declaration that is left out has reported an error, and no error is taken back.
    have before := rest.leads.errors
    rw [clean, List.prefix_nil] at before
    exact absurd before (errors_of_recover_none (Option.toList_eq_nil_iff.mp none))

theorem declaration_print {r : Rules} {rest : List Token} (here : s.rest = print :: rest)
    (keyword : print.type = .kwPrint) :
    declaration r s = printStatement r { s with rest } := by
  have notFunction : ¬ s.atFunction = true := by
    simp [ParseState.atFunction, ParseState.nextIs, here, keyword]
  have other : acceptIf (fun type => type == .kwClass || type == .kwVar) s = .ok none s := by
    refine acceptIf_of_none fun word rest' split => ?_
    obtain ⟨rfl, -⟩ := List.cons.inj (here.symm.trans split)
    rw [keyword]
    rfl
  have opens : acceptIf opensStatement s = .ok (some print) { s with rest } :=
    acceptIf_of_some here (by rw [keyword]; rfl)
  unfold declaration
  rw [get_bind, if_neg notFunction, bind_of_ok other]
  change statement r s = _
  unfold statement
  rw [bind_of_ok opens]
  simp only [keyword]

/-- An expression at the end is printed where `print` stands before it and a semicolon after it. -/
theorem Trailing.printed (h : Trailing (rules n) s e t) (short : s.rest.length ≤ n)
    (longer : s.rest.length ≤ m) (type : semicolon.type = .semicolon) (endLine : Nat) :
    printStatement (rules (m + 1)) (s.amid ⟨[], [semicolon], endLine⟩) =
      .ok (.print e) { t.amid ⟨[], [semicolon], endLine⟩ with rest := [] } := by
  have read := h.read_closed type endLine short longer
  exact (bind_of_ok read).trans (bind_of_ok (expect_of_some (h.rest_closed endLine) type _))

/-- The program that prints the expression of a line. The uses in it have the same numbers. -/
theorem parse_printed
    (line : (parsePrompt ts i).result = { statements := [], trailing := some e })
    (clean : (parsePrompt ts i).errors = []) (keyword : print.type = .kwPrint)
    (type : semicolon.type = .semicolon) (endLine : Nat) :
    parse ⟨print :: (ts.body ++ [semicolon]), endLine⟩ i =
      ⟨[.print e], [], (parsePrompt ts i).nextId⟩ := by
  obtain ⟨t, items, errors, nextId⟩ := items_parsePrompt ts i
  rw [line] at items
  have trailing := items.only_trailing (errors.trans clean)
  let first : ParseState :=
    { rest := print :: (ts.body ++ [semicolon]), endLine := endLine, nextId := i }
  let last : ParseState := { t.amid ⟨[], [semicolon], endLine⟩ with rest := [] }
  let tokens := ts.body.length + 2
  have length : first.rest.length = tokens := congrArg (· + 1) List.length_append
  have statement : (rules tokens).declaration first = (some (.print e), last) := by
    change recover (declaration (rules (ts.body.length + 1))) first = _
    refine recover_of_ok ((declaration_print rfl keyword).trans ?_)
    exact trailing.printed (Nat.le_refl _) (Nat.le_refl ts.body.length) type endLine
  have read : declarations (rules tokens) ParseState.atEnd tokens first = ([.print e], last) := by
    rw [declarations_more (List.cons_ne_nil _ _), statement, declarations_ended rfl]
    rfl
  unfold parse program Total.run
  dsimp only
  rw [length, read, ← nextId]
  exact congrArg (Parsed.mk [Stmt.print e] · t.nextId) (errors.trans clean)

end Statements

end Syntax

/-! ### Runs -/

/-- What a session comes to by showing a value, and by printing it. A run that fails is the same. -/
inductive Printed (s : Session) : Report × Session → Report × Session → Prop
  | value (text : String) (m : Machine) : Printed s
      ({ output := m.output, shown := some ("= " ++ text) }, { s with machine := m })
      ({ output := m.output ++ text ++ "\n" },
        { s with machine := { m with output := m.output ++ text ++ "\n" } })
  | error (e : RuntimeError) (m : Machine) : Printed s
      ({ output := m.output, runtimeError := some e },
        { s with machine := m, diagnostics := s.diagnostics.addRuntimeError e.diagnostic })
      ({ output := m.output, runtimeError := some e },
        { s with machine := m, diagnostics := s.diagnostics.addRuntimeError e.diagnostic })
  | crash (c : Crash) (m : Machine) : Printed s
      ({ output := m.output, crash := some c }, { s with machine := m })
      ({ output := m.output, crash := some c }, { s with machine := m })

theorem Program.run_trailing (e : Expr) :
    Program.run { statements := [], trailing := some e } = (do
      let value ← e.evaluate
      return some ("= " ++ (← get).store.display value)) := rfl

theorem Program.run_print (e : Expr) :
    Program.run { statements := [.print e] } = (do
      let value ← e.evaluate
      Run.print ((← get).store.display value)
      return none) := by
  have statement : (Stmt.print e).execute = (do
      let value ← e.evaluate
      Run.print ((← get).store.display value)
      return .normal) := rfl
  funext m
  change (((Stmt.print e).execute >>= fun _ => (pure () : Run Unit)) >>= fun _ =>
    (pure none : Run (Option String))) m = _
  rw [statement, bind_apply, bind_apply, bind_apply, bind_apply]
  cases e.evaluate m <;> rfl

theorem Session.execute_printed (s : Session) (e : Expr) :
    Printed s (s.execute { statements := [], trailing := some e })
      (s.execute { statements := [.print e] }) := by
  unfold execute
  rw [Program.run_trailing, Program.run_print, bind_apply, bind_apply]
  cases e.evaluate { s.machine with output := "" } with
  | ok value m => exact .value _ m
  | error a m =>
    cases a with
    | error e => exact .error e m
    | crash c => exact .crash c m

/-! ### Sessions -/

/-- The program that prints what a line shows. -/
def printing (line : String) : String := "print " ++ line ++ "\n;"

namespace Session

section Printing

variable {s : Session} {line : String} {e : Expr}

theorem Executes.printing (h : s.Executes (.line line) { statements := [], trailing := some e }) :
    (Entry.program (printing line)).parsed s.nextId =
        ⟨{ statements := [.print e] }, [], ((Entry.line line).parsed s.nextId).nextId⟩ ∧
      s.Executes (.program (Lox.printing line)) { statements := [.print e] } := by
  obtain ⟨body, faults⟩ := scan_printed h.scanned
  have tokens : (scan (Lox.printing line)).tokens =
      ⟨printKeyword :: ((scan line).tokens.body ++ [semicolonBelow line]),
        (scan (Lox.printing line)).tokens.endLine⟩ := congrArg (TokenStream.mk · _) body
  have parsed : (Entry.program (Lox.printing line)).parsed s.nextId =
      ⟨{ statements := [.print e] }, [], ((Entry.line line).parsed s.nextId).nextId⟩ := by
    have keyword : printKeyword.type = .kwPrint := rfl
    have mark : (semicolonBelow line).type = .semicolon := rfl
    unfold Entry.parsed
    dsimp only
    rw [tokens, Syntax.parse_printed h.program.symm h.parsed keyword mark]
  refine ⟨parsed, h.clear, faults, ?_, ?_, h.resolved⟩
  · rw [parsed]
  · rw [parsed]

theorem Executes.printed (h : s.Executes (.line line) { statements := [], trailing := some e }) :
    ∃ start : Session, start.diagnostics = s.diagnostics ∧
      Printed start (s.prompt line) (s.run (Lox.printing line)) := by
  obtain ⟨parsed, executes⟩ := h.printing
  let start : Session :=
    { machine := s.machine.addDistances e.resolution.distances
      diagnostics := s.diagnostics
      nextId := ((Entry.line line).parsed s.nextId).nextId }
  have printed : s.run (Lox.printing line) = start.execute { statements := [.print e] } := by
    refine (s.enter_program _).trans ((step_of_executes executes).trans ?_)
    rw [parsed]
    rfl
  have shown : s.prompt line = start.execute { statements := [], trailing := some e } := by
    have step : s.step (fun _ => (Entry.line line).parsed) line = start.execute _ :=
      step_of_executes h
    have clear : s.diagnostics.errors = [] := by simpa [Diagnostics.hadError] using h.clear
    have pending := (start.accounts_execute { statements := [], trailing := some e }).errors
    rw [start.errors_execute, List.append_nil] at pending
    refine (s.enter_line _).trans ?_
    rw [step, reset_eq_self (pending.trans clear)]
  refine ⟨start, rfl, ?_⟩
  rw [shown, printed]
  exact start.execute_printed e

end Printing

/-! ### Later entries -/

section Later

variable {s s' : Session}

def silent (s : Session) : Session := { s with machine := { s.machine with output := "" } }

theorem step_silent (parse : TokenStream → Nat → Syntax.Parsed Program) (s : Session)
    (source : String) :
    (s.silent.step parse source).1 = (s.step parse source).1 ∧
      (s.silent.step parse source).2.silent = (s.step parse source).2.silent := by
  -- A source that runs begins with nothing printed; one that does not run leaves the machine alone.
  unfold step resolveAndExecute
  dsimp only [silent, note]
  split
  · exact ⟨rfl, rfl⟩
  · split
    · exact ⟨rfl, rfl⟩
    · exact ⟨rfl, rfl⟩

theorem enter_silent (s : Session) (entry : Entry) :
    (s.silent.enter entry).1 = (s.enter entry).1 ∧
      (s.silent.enter entry).2.silent = (s.enter entry).2.silent := by
  obtain ⟨report, session⟩ := s.step_silent (fun _ => entry.parsed) entry.source
  cases entry with
  | program source =>
    rw [enter_program, enter_program]
    exact ⟨report, session⟩
  | line source =>
    rw [enter_line, enter_line]
    refine ⟨report, ?_⟩
    exact congrArg (fun s : Session => { s with diagnostics := s.diagnostics.reset }) session

theorem enter_of_silent (same : s.silent = s'.silent) (entry : Entry) :
    (s.enter entry).1 = (s'.enter entry).1 ∧
      (s.enter entry).2.silent = (s'.enter entry).2.silent := by
  obtain ⟨report, session⟩ := s.enter_silent entry
  obtain ⟨report', session'⟩ := s'.enter_silent entry
  rw [← report, ← session, ← report', ← session', same]
  exact ⟨rfl, rfl⟩

theorem afterAll_of_silent (same : s.silent = s'.silent) (later : List Entry) :
    (s.afterAll later).silent = (s'.afterAll later).silent := by
  induction later generalizing s s' with
  | nil => exact same
  | cons entry later ih => exact ih (enter_of_silent same entry).2

end Later

end Session

theorem Printed.silent {s : Session} {shown printed : Report × Session}
    (h : Printed s shown printed) : printed.2.silent = shown.2.silent := by
  cases h <;> rfl

/-- In any session, a line without static errors that is one expression is answered as the program
that prints the expression. A value that the line shows is what the program prints in addition, and
then neither fails. If the line shows none, the answers are the same, and name the same runtime
error unless the run crashes. All later entries are answered alike. -/
theorem shown_is_printed (clock : Clock) (history : List Entry) (line : String) (e : Expr) :
    let s := (Session.initial clock).afterAll history
    s.Executes (.line line) { statements := [], trailing := some e } →
    let shown := s.prompt line
    let printed := s.run (printing line)
    (∀ text, shown.1.shown = some text → ∃ value, text = "= " ++ value ∧
      shown.1 = { output := shown.1.output, shown := some text } ∧
      printed.1 = { output := shown.1.output ++ value ++ "\n" } ∧
      printed.2.diagnostics = s.diagnostics) ∧
    (shown.1.shown = none → printed = shown ∧ shown.1.errors = [] ∧
      (shown.1.crash = none → ∃ error, shown.1.runtimeError = some error ∧
        printed.2.diagnostics = s.diagnostics.addRuntimeError error.diagnostic)) ∧
    ∀ (later : List Entry) (entry : Entry),
      let afterShown := (shown.2.afterAll later).enter entry
      let afterPrinted := (printed.2.afterAll later).enter entry
      afterPrinted.1 = afterShown.1 ∧ afterPrinted.2.diagnostics = afterShown.2.diagnostics ∧
        afterPrinted.2.nextId = afterShown.2.nextId := by
  intro s executes shown printed
  obtain ⟨start, diagnostics, answers⟩ : ∃ start : Session, start.diagnostics = s.diagnostics ∧
    Printed start shown printed := executes.printed
  rw [← diagnostics]
  refine ⟨fun text here => ?_, fun none => ?_, fun later entry => ?_⟩
  · generalize shown = a, printed = b at answers here
    cases answers with
    | value value m =>
      obtain rfl := Option.some.inj here
      exact ⟨value, rfl, rfl, rfl, rfl⟩
    | error e m => cases here
    | crash c m => cases here
  · generalize shown = a, printed = b at answers none
    cases answers with
    | value value m => cases none
    | error e m => exact ⟨rfl, rfl, fun _ => ⟨e, rfl, rfl⟩⟩
    | crash c m => exact ⟨rfl, rfl, nofun⟩
  · have silent := Session.afterAll_of_silent answers.silent later
    obtain ⟨report, session⟩ := Session.enter_of_silent silent entry
    have diagnostics := congrArg Session.diagnostics session
    have nextId := congrArg Session.nextId session
    exact ⟨report, diagnostics, nextId⟩

/-- A line that shows a text and ends in a comment. -/
theorem shown_is_printed_text :
    let s := (Session.initial (0 : Float)).afterAll []
    let line := "\"a\" // b"
    s.Executes (.line line) { statements := [], trailing := some (.literal (.string "a")) } ∧
      (s.prompt line).1.shown = some "= a" ∧ (s.run (printing line)).1 = { output := "a\n" } := by
  intro s line
  have tokens : (scan line).tokens = ⟨[⟨.string "a", "\"a\"", 1⟩], 1⟩ := by decide +kernel
  have read : (Entry.line line).parsed s.nextId =
      ⟨{ statements := [], trailing := some (.literal (.string "a")) }, [], 0⟩ := by
    change Syntax.parsePrompt (scan line).tokens 0 = _
    rw [tokens]
    rfl
  have executes : s.Executes (.line line)
      { statements := [], trailing := some (.literal (.string "a")) } :=
    ⟨rfl, by decide +kernel, by rw [read], by rw [read], rfl⟩
  have shown : (s.prompt line).1.shown = some "= a" := by decide +kernel
  have nothing : (s.prompt line).1.output = "" := by decide +kernel
  obtain ⟨value, text, -, report, -⟩ := (shown_is_printed (0 : Float) [] line _ executes).1 _ shown
  obtain rfl : "a" = value := (String.append_right_inj "= ").mp text
  rw [nothing] at report
  exact ⟨executes, shown, report⟩

end Lox
