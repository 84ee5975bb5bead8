import Lox.Main
import Lox.Proofs.Accounting
import Lox.Proofs.Activations
import Lox.Proofs.Agreement
import Lox.Proofs.Alike.Shift
import Lox.Proofs.Calls
import Lox.Proofs.Cursor
import Lox.Proofs.ForLoops
import Lox.Proofs.Grammar
import Lox.Proofs.InternalErrors
import Lox.Proofs.Isolation
import Lox.Proofs.Joining
import Lox.Proofs.LexicalDistances
import Lox.Proofs.Lines
import Lox.Proofs.LocalNames
import Lox.Proofs.LongestMatch
import Lox.Proofs.LoopDepth
import Lox.Proofs.MethodBinding
import Lox.Proofs.NestedFrames
import Lox.Proofs.Numbering
import Lox.Proofs.PrintedTrees
import Lox.Proofs.Progress
import Lox.Proofs.PromptLines
import Lox.Proofs.Recovery
import Lox.Proofs.Respelling
import Lox.Proofs.Restoration
import Lox.Proofs.Showing
import Lox.Proofs.StaticErrors
import Lox.Proofs.StaticViolations
import Lox.Proofs.Surroundings
import Lox.Proofs.Surroundings.Rules
import Lox.Proofs.Transfer
import Lox.Syntax.Uses
import Lox.Proofs.Calls
