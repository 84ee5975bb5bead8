import Lox.Token

/-!
# Syntax errors

What a parser finds missing or out of place, and the words for it.
-/

namespace Lox

/-- The forms of function that have a name in messages. -/
inductive FunctionForm where
  | function
  | method
  deriving DecidableEq, Repr

def FunctionForm.word : FunctionForm → String
  | .function => "function"
  | .method => "method"

inductive SyntaxFault where
  | missingExpression
  | missingClassName
  | missingSuperclassName
  | missingFunctionName (form : FunctionForm)
  | missingParameterName
  | missingVariableName
  | missingPropertyName
  | missingSuperMethodName
  | missingDotAfterSuper
  | unopenedParameters (form : FunctionForm)
  | unclosedParameters
  | unopenedBody (form : FunctionForm)
  | unopenedClassBody
  | unclosedClassBody
  | unclosedBlock
  | unclosedGrouping
  | unclosedArguments
  | unopenedForClauses
  | unclosedForClauses
  | unopenedIfCondition
  | unclosedIfCondition
  | unopenedWhileCondition
  | unclosedWhileCondition
  | unterminatedVariable
  | unterminatedExpression
  | unterminatedPrint
  | unterminatedReturn
  | unterminatedBreak
  | unterminatedLoopCondition
  | tooManyParameters
  | tooManyArguments
  | invalidAssignmentTarget
  | breakOutsideLoop
  deriving DecidableEq, Repr

def SyntaxFault.message : SyntaxFault → String
  | .missingExpression => "Expect expression."
  | .missingClassName => "Expect class name."
  | .missingSuperclassName => "Expect superclass name."
  | .missingFunctionName form => "Expect " ++ form.word ++ " name."
  | .missingParameterName => "Expect parameter name."
  | .missingVariableName => "Expect variable name."
  | .missingPropertyName => "Expect property name after '.'."
  | .missingSuperMethodName => "Expect superclass method name."
  | .missingDotAfterSuper => "Expect '.' after 'super'."
  | .unopenedParameters form => "Expect '(' after " ++ form.word ++ " name."
  | .unclosedParameters => "Expect ')' after parameters."
  | .unopenedBody form => "Expect '\x7b' before " ++ form.word ++ " body."
  | .unopenedClassBody => "Expect '\x7b' before class body."
  | .unclosedClassBody => "Expect '\x7d' after class body."
  | .unclosedBlock => "Expect '\x7d' after block."
  | .unclosedGrouping => "Expect ')' after expression."
  | .unclosedArguments => "Expect ')' after arguments."
  | .unopenedForClauses => "Expect '(' after 'for'."
  | .unclosedForClauses => "Expect ')' after for clauses."
  | .unopenedIfCondition => "Expect '(' after 'if'."
  | .unclosedIfCondition => "Expect ')' after if condition."
  | .unopenedWhileCondition => "Expect '(' after 'while'."
  | .unclosedWhileCondition => "Expect ')' after condition."
  | .unterminatedVariable => "Expect ';' after variable declaration."
  | .unterminatedExpression => "Expect ';' after expression."
  | .unterminatedPrint => "Expect ';' after value."
  | .unterminatedReturn => "Expect ';' after return value."
  | .unterminatedBreak => "Expect ';' after 'break'."
  | .unterminatedLoopCondition => "Expect ';' after loop condition."
  | .tooManyParameters => "Can't have more than 255 parameters."
  | .tooManyArguments => "Can't have more than 255 arguments."
  | .invalidAssignmentTarget => "Invalid assignment target."
  | .breakOutsideLoop => "Must be inside a loop to use 'break'."

structure SyntaxError where
  token : Token
  fault : SyntaxFault
  deriving DecidableEq, Repr

end Lox
