import Lox.CommandLine
import Std.Time.DateTime.Timestamp

/-!
# The program

Reads files, lines and the clock, and writes what the command line says.
-/

namespace Lox.CommandLine

/-- The seconds since 1970, to the microsecond. -/
def now : IO Float := do
  let nanoseconds := (← Std.Time.Timestamp.now).toNanosecondsSinceUnixEpoch.val
  return (Float.ofInt (nanoseconds / 1000)) / 1000000

def finish (o : Outcome) : IO UInt32 := do
  IO.print o.output
  IO.eprint o.errors
  (← IO.getStdout).flush
  return o.exitCode.toUInt32

def readBytes (name : String) : IO (Option ByteArray) := do
  try
    return some (← IO.FS.readBinFile name)
  catch _ =>
    return none

/-- Reads and runs lines until they end. -/
partial def promptLoop (input : IO.FS.Stream) (s : Session) : IO UInt32 := do
  IO.print promptMark
  (← IO.getStdout).flush
  let line ← input.getLine
  if line.isEmpty then
    IO.println ""
    return 0
  let (o, s) := promptLine (s.setClock (← now)) line
  let code ← finish o
  if code = 0 then promptLoop input s else return code

def serve : Request → IO UInt32
  | .file command name => do finish (runFile (← now) name (← readBytes name) command)
  | .prompt => do promptLoop (← IO.getStdin) (.initial (← now))

end Lox.CommandLine

def main (arguments : List String) : IO UInt32 := do
  match Lox.CommandLine.Request.ofArguments? arguments with
  | some request => Lox.CommandLine.serve request
  | none =>
    IO.eprint Lox.CommandLine.usage
    return 2
