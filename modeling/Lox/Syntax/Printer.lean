import Lox.Decimal.Layout
import Lox.Syntax

/-!
# Printed trees

A tree as a text of nested parentheses, each with the operator or the kind of the node first.
-/

namespace Lox

/-- Whole numbers show every digit and end in `.0`, and no exponent is ever written. -/
def Literal.numberLayout : Decimal.Layout where
  wholeMark _ := ".0"
  exactWhole := true

def Literal.text : Literal → String
  | .nil => "nil"
  | .bool b => if b then "true" else "false"
  | .number x => numberLayout.write x
  | .string s => s

def parenthesized (words : List String) : String := "(" ++ " ".intercalate words ++ ")"

def paramsText (params : List Token) : String := parenthesized (params.map Token.lexeme)

mutual

def Expr.text : Expr → String
  | .literal value => value.text
  | .grouping inner => parenthesized ["group", inner.text]
  | .unary operator operand => parenthesized [operator.lexeme, operand.text]
  | .binary left operator right => parenthesized [operator.lexeme, left.text, right.text]
  | .logical left operator right => parenthesized [operator.lexeme, left.text, right.text]
  | .variable use => use.name.lexeme
  | .assign target value => parenthesized ["=", target.name.lexeme, value.text]
  | .this _ => "this"
  | .super _ method => parenthesized ["super", method.lexeme]
  | .call callee _ arguments => parenthesized ("call" :: callee.text :: Expr.texts arguments)
  | .get object name => parenthesized [".", object.text, name.lexeme]
  | .set object name value =>
    parenthesized ["=", parenthesized [".", object.text, name.lexeme], value.text]
  | .lambda params body => parenthesized ("fun" :: paramsText params :: Stmt.texts body)
termination_by structural e => e

def Expr.texts : List Expr → List String
  | [] => []
  | e :: es => e.text :: Expr.texts es
termination_by structural es => es

/-- The text of a function after its `tag`. -/
def FunctionDecl.text (tag : String) : FunctionDecl → String
  | ⟨name, params, body⟩ =>
    parenthesized (tag :: name.lexeme :: paramsText params :: Stmt.texts body)
termination_by structural f => f

def FunctionDecl.texts : List FunctionDecl → List String
  | [] => []
  | f :: fs => f.text "method" :: FunctionDecl.texts fs
termination_by structural fs => fs

def Stmt.text : Stmt → String
  | .expression e => parenthesized [";", e.text]
  | .print e => parenthesized ["print", e.text]
  | .var name none => parenthesized ["var", name.lexeme]
  | .var name (some e) => parenthesized ["var", name.lexeme, e.text]
  | .block body => parenthesized ("block" :: Stmt.texts body)
  | .ifElse condition thenBranch none =>
    parenthesized ["if", condition.text, thenBranch.text]
  | .ifElse condition thenBranch (some elseBranch) =>
    parenthesized ["if", condition.text, thenBranch.text, elseBranch.text]
  | .whileLoop condition body => parenthesized ["while", condition.text, body.text]
  | .breakLoop _ => "(break)"
  | .returnFrom _ none => "(return)"
  | .returnFrom _ (some e) => parenthesized ["return", e.text]
  | .function declaration => declaration.text "fun"
  | .classDecl name none methods =>
    parenthesized ("class" :: name.lexeme :: FunctionDecl.texts methods)
  | .classDecl name (some superclass) methods =>
    parenthesized ("class" :: name.lexeme :: "<" :: superclass.name.lexeme
      :: FunctionDecl.texts methods)
termination_by structural s => s

def Stmt.texts : List Stmt → List String
  | [] => []
  | s :: ss => s.text :: Stmt.texts ss
termination_by structural ss => ss

end

theorem Stmt.texts_eq_map (ss : List Stmt) : Stmt.texts ss = ss.map Stmt.text := by
  induction ss with
  | nil => rfl
  | cons s ss ih => rw [Stmt.texts, ih, List.map_cons]

theorem Expr.texts_eq_map (es : List Expr) : Expr.texts es = es.map Expr.text := by
  induction es with
  | nil => rfl
  | cons e es ih => rw [Expr.texts, ih, List.map_cons]

end Lox
