import Lox.Diagnostic
import Lox.Evaluation
import Lox.Syntax.Parser

/-!
# Sessions

A session runs one source after another on the same machine. A source with a static error does not
run, and a runtime error ends the run of its source only. `run` is for programs and `prompt` for
single lines, which may show a value and whose static errors are forgotten.
-/

namespace Lox

structure Session where
  machine : Machine
  diagnostics : Diagnostics := {}
  /-- The number of the next use, over all sources. -/
  nextId : Nat := 0

structure Report where
  /-- What was printed. -/
  output : String := ""
  /-- The static errors that were found. -/
  errors : List Diagnostic := []
  /-- The error that ended the run. -/
  runtimeError : Option RuntimeError := none
  crash : Option Crash := none
  /-- The value shown for an expression at the end of a line. -/
  shown : Option String := none

/-- Runs a program; the value of an expression at its end is shown. -/
def Program.run (p : Program) : Run (Option String) := do
  interpret p.statements
  match p.trailing with
  | none => pure none
  | some e =>
    let value ← e.evaluate
    return some ("= " ++ (← get).store.display value)

namespace Session

def initial (clock : Clock) : Session := { machine := .initial clock }

def setClock (s : Session) (time : Float) : Session :=
  { s with machine := { s.machine with clock := s.machine.clock.set time } }

def note (s : Session) (errors : List Diagnostic) (nextId : Nat) : Session :=
  { s with diagnostics := s.diagnostics.addErrors errors, nextId := nextId }

/-- Runs a program that has no static error. -/
def execute (s : Session) (p : Program) : Report × Session :=
  match p.run { s.machine with output := "" } with
  | .ok shown m => ({ output := m.output, shown }, { s with machine := m })
  | .error (.error e) m =>
    ({ output := m.output, runtimeError := some e },
      { s with machine := m, diagnostics := s.diagnostics.addRuntimeError e.diagnostic })
  | .error (.crash c) m => ({ output := m.output, crash := some c }, { s with machine := m })

def resolveAndExecute (s : Session) (p : Program) : Report × Session :=
  let r := p.resolve
  let errors := r.errors.map StaticError.diagnostic
  let s := s.note errors s.nextId
  if s.diagnostics.hadError then ({ errors }, s)
  else { s with machine := s.machine.addDistances r.distances }.execute p

/-- Reads a source and runs it, unless there is a static error from it or from before. -/
def step (parse : TokenStream → Nat → Syntax.Parsed Program) (s : Session) (source : String) :
    Report × Session :=
  let scanned := scan source
  let parsed := parse scanned.tokens s.nextId
  let errors :=
    scanned.faults.map LexicalFault.diagnostic ++ parsed.errors.map SyntaxError.diagnostic
  let s := s.note errors parsed.nextId
  if s.diagnostics.hadError then ({ errors }, s) else s.resolveAndExecute parsed.result

def run (s : Session) (source : String) : Report × Session :=
  let parse ts firstId :=
    let p := Syntax.parse ts firstId
    { p with result := { statements := p.result } }
  s.step parse source

/-- Runs a line; its static errors do not keep later ones from running. -/
def prompt (s : Session) (line : String) : Report × Session :=
  let (report, s) := s.step Syntax.parsePrompt line
  (report, { s with diagnostics := s.diagnostics.reset })

def exitCode (s : Session) : Nat := s.diagnostics.exitCode

end Session

end Lox
