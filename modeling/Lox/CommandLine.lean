import Lox.Session
import Lox.Syntax.Printer
import Lox.Text.Utf8
import Lox.Token.Display

/-!
# The command line

What each command writes and how it ends, given the bytes of its file and the lines of its input.
-/

namespace Lox.CommandLine

/-- What a process leaves behind. -/
structure Outcome where
  output : String := ""
  errors : String := ""
  exitCode : Nat := 0
  deriving DecidableEq, Repr

inductive FileCommand where
  /-- Lists the tokens, as lines or as a JSON document. -/
  | tokenize (json : Bool)
  /-- Prints the trees of the statements. -/
  | parse
  /-- Runs a program. -/
  | run
  deriving DecidableEq, Repr

inductive Request where
  | file (command : FileCommand) (name : String)
  | prompt
  deriving DecidableEq, Repr

/-- The request that arguments spell. The switch `--log` has no effect on what is written. -/
def Request.ofArguments? (arguments : List String) : Option Request :=
  match arguments.filter (· != "--log") with
  | ["tokenize", name] => some (.file (.tokenize false) name)
  | ["tokenize", name, "--json"] => some (.file (.tokenize true) name)
  | ["tokenize", "--json", name] => some (.file (.tokenize true) name)
  | ["parse", name] => some (.file .parse name)
  | ["run", name] => some (.file .run name)
  | ["run"] => some .prompt
  | ["repl"] => some .prompt
  | _ => none

def usage : String :=
  "usage: lox [--log] (tokenize FILE [--json] | parse FILE | run [FILE] | repl)\n"

/-- Texts with a line end after each. -/
def lines (texts : List String) : String := String.join (texts.map (· ++ "\n"))

def errorLines (ds : List Diagnostic) : String := lines (ds.map Diagnostic.text)

def failure (message cause : String) : Outcome where
  errors := "Error: " ++ message ++ "\n\nCaused by:\n    " ++ cause ++ "\n"
  exitCode := 1

def crashCode : Nat := 101

def tokenize (json : Bool) (source : String) : Outcome :=
  let s := scan source
  let tokens := s.tokens.toList
  let d := ({} : Diagnostics).addErrors (s.faults.map LexicalFault.diagnostic)
  { output := if json then lines [Token.jsonListing tokens] else lines (tokens.map Token.display)
    errors := errorLines d.errors
    exitCode := d.exitCode }

def parse (source : String) : Outcome :=
  let s := scan source
  let p := Syntax.parse s.tokens 0
  let d := ({} : Diagnostics).addErrors
    (s.faults.map LexicalFault.diagnostic ++ p.errors.map SyntaxError.diagnostic)
  { output := lines (p.result.map Stmt.text)
    errors := errorLines d.errors
    exitCode := d.exitCode }

def reportErrors (r : Report) : String :=
  errorLines (r.errors ++ (r.runtimeError.map RuntimeError.diagnostic).toList)
    ++ lines (r.crash.map Crash.message).toList

def run (clock : Clock) (source : String) : Outcome :=
  let (r, s) := (Session.initial clock).run source
  { output := r.output
    errors := reportErrors r
    exitCode := if r.crash.isSome then crashCode else s.exitCode }

def runText (clock : Clock) (source : String) : FileCommand → Outcome
  | .tokenize json => tokenize json source
  | .parse => parse source
  | .run => run clock source

def runFile (clock : Clock) (name : String) (bytes : Option ByteArray) (c : FileCommand) : Outcome :=
  match bytes with
  | none =>
    failure ("Failed to open file \"" ++ name ++ "\"") "No such file or directory (os error 2)"
  | some bytes =>
    match Text.Utf8.decode bytes with
    | .ok source => runText clock source c
    | .error fault => failure ("File \"" ++ name ++ "\" is not valid UTF-8") fault.message

def promptMark : String := "> "

def promptLine (s : Session) (line : String) : Outcome × Session :=
  let (r, s) := s.prompt line
  ({ output := r.output ++ lines r.shown.toList
     errors := reportErrors r
     exitCode := if r.crash.isSome then crashCode else 0 }, s)

/-- Runs lines at the prompt until they end or one of them crashes. -/
def promptLines (s : Session) : List String → Outcome
  | [] => { output := promptMark ++ "\n" }
  | line :: rest =>
    let (first, s) := promptLine s line
    if first.exitCode = 0 then
      let others := promptLines s rest
      { output := promptMark ++ first.output ++ others.output
        errors := first.errors ++ others.errors
        exitCode := others.exitCode }
    else { first with output := promptMark ++ first.output }

/-- The lines of a text with their line ends, after the characters of a line that are read. -/
def linesFrom (read : List Char) : List Char → List String
  | [] => if read.isEmpty then [] else [String.ofList read.reverse]
  | c :: cs =>
    if c = '\n' then String.ofList (c :: read).reverse :: linesFrom [] cs
    else linesFrom (c :: read) cs

def inputLines (input : String) : List String := linesFrom [] input.toList

def prompt (clock : Clock) (input : String) : Outcome :=
  promptLines (.initial clock) (inputLines input)

theorem join_linesFrom (read cs : List Char) :
    String.join (linesFrom read cs) = String.ofList (read.reverse ++ cs) := by
  induction cs generalizing read with
  | nil => cases read <;> simp [linesFrom, String.join]
  | cons c cs ih =>
    unfold linesFrom
    split
    · apply String.toList_inj.mp
      simp [ih]
    · simp [ih]

/-- No character of an input is lost. -/
theorem join_inputLines (input : String) : String.join (inputLines input) = input := by
  simp [inputLines, join_linesFrom]

end Lox.CommandLine
