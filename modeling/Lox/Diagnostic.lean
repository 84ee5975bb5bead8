import Lox.Machine
import Lox.Syntax.Error
import Lox.Token.Stream

/-!
# Diagnostics

Every error in the form in which it is shown, and the collection that a session keeps. `exitCode`
says how a process ends after them.
-/

namespace Lox

inductive Diagnostic where
  | lexical (line : Nat) (message : String)
  | syntactic (token : Token) (message : String)
  | static (token : Token) (message : String)
  | runtime (line : Nat) (message : String)
  /-- A fault of the surroundings, such as a write that fails. -/
  | host (message : String)
  deriving DecidableEq, Repr

namespace Diagnostic

def line? : Diagnostic → Option Nat
  | .lexical line _ => some line
  | .syntactic token _ => some token.line
  | .static token _ => some token.line
  | .runtime line _ => some line
  | .host _ => none

def place (token : Token) : String :=
  if token.type = .eof then " at end" else " at '" ++ token.lexeme ++ "'"

def report (line : Nat) (place message : String) : String :=
  "[line " ++ toString line ++ "] Error" ++ place ++ ": " ++ message

def text : Diagnostic → String
  | .lexical line message => report line "" message
  | .syntactic token message => report token.line (place token) message
  | .static token message => report token.line (place token) message
  | .runtime line message => message ++ "\n[line " ++ toString line ++ "]"
  | .host message => message

end Diagnostic

def LexicalFault.diagnostic (f : LexicalFault) : Diagnostic := .lexical f.line f.error.message

def SyntaxError.diagnostic (e : SyntaxError) : Diagnostic := .syntactic e.token e.fault.message

def StaticError.diagnostic (e : StaticError) : Diagnostic := .static e.token e.fault.message

def RuntimeError.diagnostic (e : RuntimeError) : Diagnostic := .runtime e.line e.fault.message

structure Diagnostics where
  /-- Errors found before anything runs. -/
  errors : List Diagnostic := []
  runtimeErrors : List Diagnostic := []
  deriving DecidableEq, Repr

namespace Diagnostics

def addErrors (d : Diagnostics) (es : List Diagnostic) : Diagnostics :=
  { d with errors := d.errors ++ es }

def addRuntimeError (d : Diagnostics) (e : Diagnostic) : Diagnostics :=
  { d with runtimeErrors := d.runtimeErrors ++ [e] }

def reset (d : Diagnostics) : Diagnostics := { d with errors := [] }

/-- Whether there is an error found before anything ran. -/
def hadError (d : Diagnostics) : Bool := !d.errors.isEmpty

def hadRuntimeError (d : Diagnostics) : Bool := !d.runtimeErrors.isEmpty

def exitCode (d : Diagnostics) : Nat :=
  if d.hadError then 2 else if d.hadRuntimeError then 3 else 0

theorem hadError_addErrors (d : Diagnostics) (es : List Diagnostic) :
    (d.addErrors es).hadError = (d.hadError || !es.isEmpty) := by
  cases h : d.errors <;> cases es <;> simp [hadError, addErrors, h]

theorem hadError_reset (d : Diagnostics) : d.reset.hadError = false := rfl

theorem hadRuntimeError_addRuntimeError (d : Diagnostics) (e : Diagnostic) :
    (d.addRuntimeError e).hadRuntimeError = true := by
  simp [hadRuntimeError, addRuntimeError]

end Diagnostics

end Lox
