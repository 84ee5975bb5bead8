import Lox.Proofs.Grammar.Sound.Prompt
import Lox.Proofs.Progress

/-!
# Parsers as sequences of steps

A script says how a parser is put together: from basic steps, in a row, with the loop bodies and
the function bodies marked and the places where errors are recovered from. All parse functions have
scripts, so what holds of every script holds of every parse function.
-/

namespace Lox.Syntax

inductive Script : {α : Type} → Parse α → Type 1
  | pure {α : Type} (a : α) : Script (pure a)
  | look : Script (get : Parse ParseState)
  | acceptIf (test : TokenType → Bool) : Script (acceptIf test)
  | raise {α : Type} (fault : SyntaxFault) (other : fault ≠ .breakOutsideLoop) :
      Script (raise fault : Parse α)
  | report (token : Token) (fault : SyntaxFault) (other : fault ≠ .breakOutsideLoop) :
      Script (report token fault)
  | newUse (name : Token) : Script (newUse name)
  | single (e : Expr) : Script (single e)
  | bind {α β : Type} {p : Parse α} {f : α → Parse β} (first : Script p)
      (next : ∀ a, Script (f a)) : Script (p >>= f)
  | loopBody {α : Type} {p : Parse α} (body : Script p) : Script (insideLoop p)
  | functionBody {α : Type} {p : Parse α} (body : Script p) : Script (insideFunction p)
  | recover {α : Type} {p : Parse α} (inner : Script p) : Script (recover p).toParse
  /-- A `break` statement after its keyword. -/
  | breakLoop (keyword : Token) : Script (breakStatement keyword)

structure Rules.Scripts (r : Rules) where
  expression : Script r.expression
  statement : Script r.statement
  declaration : Script r.declaration.toParse

namespace Script

/-- A relation that parsers keep to is kept by whatever has a script. -/
theorem respects {R : ParseState → ParseState → Prop} (h : ParseRelation R) {p : Parse α}
    (script : Script p) : Respects R p := by
  induction script with
  | pure a => exact h.respects_pure a
  | look => exact h.respects_get
  | acceptIf test => exact h.respects_acceptIf test
  | raise fault other => exact h.respects_raise fault
  | report token fault other => exact h.respects_report token fault
  | newUse name => exact h.respects_newUse name
  | single e => exact h.respects_single e
  | bind first next firstIh nextIh => exact h.respects_bind firstIh nextIh
  | loopBody body ih => exact h.respects_insideLoop ih
  | functionBody body ih => exact h.respects_insideFunction ih
  | recover inner ih => exact h.respects_recover ih
  | breakLoop keyword => exact h.respects_breakStatement keyword

def cast {p q : Parse α} (script : Script p) (same : p = q) : Script q := same ▸ script

def map {p : Parse α} (g : α → β) (script : Script p) : Script (g <$> p) :=
  (script.bind fun a => pure (g a)).cast (map_eq_pure_bind g p).symm

def ite {p q : Parse α} {c : Prop} [Decidable c] (yes : Script p) (no : Script q) :
    Script (if c then p else q) :=
  if h : c then yes.cast (if_pos h).symm else no.cast (if_neg h).symm

/-! ### Parsers that raise nothing -/

section Total

variable {p q : Total α} {f : α → Total β}

def total (a : α) : Script (Total.toParse (Pure.pure a)) := pure a

def totalBind (first : Script p.toParse) (next : ∀ a, Script (f a).toParse) :
    Script (p >>= f).toParse := first.bind next

def totalIte {test : ParseState → Bool} (yes : Script p.toParse) (no : Script q.toParse) :
    Script (Total.toParse (do if test (← get) then p else q)) :=
  (look.bind fun s => ite (c := test s = true) yes no).cast (Grammar.toParse_ite test p q).symm

end Total

end Script

/-! ### Basic parsers and lists -/

def acceptScript (type : TokenType) : Script (accept type) := .acceptIf _

def expectScript {type : TokenType} {fault : SyntaxFault}
    (other : fault ≠ .breakOutsideLoop := by nofun) : Script (expect type fault) :=
  (acceptScript type).bind fun
    | none => .raise fault other
    | some t => .pure t

def Script.expect {type : TokenType} {fault : SyntaxFault} {f : Token → Parse β}
    (next : ∀ t, Script (f t)) (other : fault ≠ .breakOutsideLoop := by nofun) :
    Script (expect type fault >>= f) := (expectScript other).bind next

section Lists

variable {p : Parse α} {fault : SyntaxFault} (other : fault ≠ .breakOutsideLoop) (item : Script p)

def limitedScript (count : Nat) : Script (limited fault p count) :=
  .ite (Script.look.bind fun s => (Script.report s.peek fault other).bind fun _ => item) item

def moreItemsScript : ∀ (n : Nat) (items : List α), Script (moreItems fault p n items)
  | 0, items => .pure items
  | n + 1, items => (acceptScript .comma).bind fun
    | none => .pure items
    | some _ => (limitedScript other item items.length).bind fun next =>
      moreItemsScript n (items ++ [next])

def itemsScript (n : Nat) : Script (itemsBeforeParen fault p n) :=
  Script.look.bind fun _ => .ite (.pure [])
    (item.bind fun first => moreItemsScript other item n [first])

end Lists

section Operands

variable {operators : TokenType → Bool} {join : Expr → Token → Expr → Expr} {p : Parse Expr}
  (operand : Script p)

def moreOperandsScript :
    ∀ (n : Nat) (left : Expr), Script (moreOperands operators join p n left)
  | 0, left => .pure left
  | n + 1, left => (Script.acceptIf operators).bind fun
    | none => .pure left
    | some operator => operand.bind fun right => moreOperandsScript n (join left operator right)

def leftAssociativeScript (n : Nat) : Script (leftAssociative operators join p n) :=
  operand.bind fun first => moreOperandsScript operand n first

def expressionStatementScript : Script (expressionStatement p) :=
  operand.bind fun e => .expect fun _ => .pure _

end Operands

section Rules

variable {r : Rules} (hr : r.Scripts)

include hr

/-! ### Functions and expressions -/

def declarationsScript (stop : ParseState → Bool) :
    ∀ n : Nat, Script (declarations r stop n).toParse
  | 0 => .total _
  | n + 1 => .totalIte (.total _)
    (.totalBind hr.declaration fun _ => .totalBind (declarationsScript stop n) fun _ => .total _)

def blockScript : Script (block r) :=
  (declarationsScript hr _ r.rounds).bind fun body => .expect fun _ => .pure body

def functionRestScript (form : FunctionForm) : Script (functionRest r form) :=
  .expect fun _ =>
  (itemsScript (by nofun) expectScript _).bind fun params =>
  .expect fun _ =>
  .expect fun _ =>
  (blockScript hr).functionBody.bind fun body => .pure _

def functionScript (form : FunctionForm) : Script (function r form) :=
  .expect fun name => (functionRestScript hr form).bind fun _ =>
    .pure _

def primaryAtScript (token : Token) : Script (primaryAt r token) := by
  unfold primaryAt
  split
  iterate 5 exact .single _
  · exact (Script.newUse _).bind fun use => .single (.this use)
  · exact (Script.newUse _).bind fun use => .single (.variable use)
  · exact (acceptScript .kwSuper).bind fun _ => .expect fun _ =>
      .expect fun method => (Script.newUse _).bind fun use => .pure _
  · exact (acceptScript .kwFun).bind fun _ => (functionRestScript hr _).bind fun _ =>
      .pure _
  · exact (acceptScript .leftParen).bind fun _ => hr.expression.bind fun inner =>
      .expect fun _ => .pure _
  · exact .raise _ nofun

def primaryScript : Script (primary r) :=
  Script.look.bind fun s => primaryAtScript hr s.peek

def callRestScript : ∀ (n : Nat) (e : Expr), Script (callRest r n e)
  | 0, e => .pure e
  | n + 1, e => (Script.acceptIf _).bind fun
    | none => .pure e
    | some mark => .ite (c := (mark.type == .leftParen) = true)
      ((itemsScript (by nofun) hr.expression r.rounds).bind fun arguments =>
        .expect fun paren => callRestScript n (.call e paren arguments))
      (.expect fun name => callRestScript n (.get e name))

def callScript : Script (call r) := (primaryScript hr).bind fun e => callRestScript hr r.rounds e

def unaryUpToScript : ∀ n : Nat, Script (unaryUpTo r n)
  | 0 => callScript hr
  | n + 1 => (Script.acceptIf isUnary).bind fun
    | none => callScript hr
    | some _ => (unaryUpToScript n).bind fun _ => .pure _

def unaryScript : Script (unary r) := unaryUpToScript hr r.rounds

def factorScript : Script (factor r) := leftAssociativeScript (unaryScript hr) _

def termScript : Script (term r) := leftAssociativeScript (factorScript hr) _

def comparisonScript : Script (comparison r) := leftAssociativeScript (termScript hr) _

def equalityScript : Script (equality r) := leftAssociativeScript (comparisonScript hr) _

def logicalAndScript : Script (logicalAnd r) := leftAssociativeScript (equalityScript hr) _

def logicalOrScript : Script (logicalOr r) := leftAssociativeScript (logicalAndScript hr) _

def assignmentScript : Script (assignment r) :=
  (logicalOrScript hr).bind fun target => (acceptScript .equal).bind fun
    | none => .pure target
    | some equals => hr.expression.bind fun _ => by
      split
      · exact .pure _
      · exact (Script.report equals .invalidAssignmentTarget nofun).bind fun _ => .pure _

/-! ### Statements and declarations -/

def variableDeclarationScript : Script (variableDeclaration r) :=
  .expect fun _ => (acceptScript .equal).bind fun
    | none => (Script.pure none).bind fun _ => .expect fun _ => .pure _
    | some _ => (hr.expression.map some).bind fun _ => .expect fun _ => .pure _

def unlessNextScript (type : TokenType) : Script (unlessNext type r) :=
  Script.look.bind fun _ => .ite (.pure none) (hr.expression.map some)

def forInitializerScript : Script (forInitializer r) :=
  (acceptScript .semicolon).bind fun
    | some _ => .pure none
    | none => (acceptScript .kwVar).bind fun
      | some _ => (variableDeclarationScript hr).map some
      | none => (expressionStatementScript hr.expression).map some

def forStatementScript : Script (forStatement r) :=
  .expect fun _ =>
  (forInitializerScript hr).bind fun initializer =>
  (unlessNextScript hr .semicolon).bind fun condition =>
  .expect fun _ =>
  (unlessNextScript hr .rightParen).bind fun increment =>
  .expect fun _ =>
  hr.statement.loopBody.bind fun body => .pure _

def ifStatementScript : Script (ifStatement r) :=
  .expect fun _ => hr.expression.bind fun _ => .expect fun _ => hr.statement.bind fun _ =>
  (acceptScript .kwElse).bind fun
    | none => (Script.pure none).bind fun _ => .pure _
    | some _ => (hr.statement.map some).bind fun _ => .pure _

def whileStatementScript : Script (whileStatement r) :=
  .expect fun _ =>
  hr.expression.bind fun condition =>
  .expect fun _ =>
  hr.statement.loopBody.bind fun body => .pure _

def returnStatementScript (keyword : Token) : Script (returnStatement keyword r) :=
  (unlessNextScript hr .semicolon).bind fun value =>
  .expect fun _ => .pure _

def printStatementScript : Script (printStatement r) :=
  hr.expression.bind fun e => .expect fun _ => .pure _

def statementScript : Script (statement r) :=
  (Script.acceptIf opensStatement).bind fun
    | none => expressionStatementScript (assignmentScript hr)
    | some token => by
      dsimp only
      split
      · exact forStatementScript hr
      · exact ifStatementScript hr
      · exact whileStatementScript hr
      · exact returnStatementScript hr token
      · exact .breakLoop token
      · exact (blockScript hr).map Stmt.block
      · exact printStatementScript hr

def methodsScript : ∀ n : Nat, Script (methods r n)
  | 0 => .pure _
  | n + 1 => Script.look.bind fun s => .ite (c := (s.atEnd || s.nextIs .rightBrace) = true)
    (.pure _)
    ((functionScript hr .method).bind fun _ => (methodsScript n).bind fun _ => .pure _)

def classBodyScript (name : Token) (superclass : Option Use) : Script (do
    let _ ← expect .leftBrace .unopenedClassBody
    let members ← methods r r.rounds
    let _ ← expect .rightBrace .unclosedClassBody
    pure (Stmt.classDecl name superclass members)) :=
  .expect fun _ => (methodsScript hr r.rounds).bind fun _ => .expect fun _ => .pure _

def classDeclarationScript : Script (classDeclaration r) :=
  .expect fun name => (acceptScript .less).bind fun
    | none => (Script.pure none).bind (classBodyScript hr name)
    | some _ => .expect fun superName =>
      ((Script.newUse superName).map some).bind (classBodyScript hr name)

def declarationScript : Script (declaration r) :=
  Script.look.bind fun s => .ite (c := s.atFunction = true)
    ((acceptScript .kwFun).bind fun _ => (functionScript hr .function).map Stmt.function)
    ((Script.acceptIf _).bind fun
      | none => statementScript hr
      | some token => .ite (c := (token.type == .kwClass) = true) (classDeclarationScript hr)
        (variableDeclarationScript hr))

/-! ### Prompt lines -/

def promptExpressionScript : Script (promptExpression r) :=
  (assignmentScript hr).bind fun _ => Script.look.bind fun s =>
    .ite (c := s.atEnd = true) (.pure _) (.expect fun _ => .pure _)

def promptItemScript : Script (promptItem r).toParse :=
  .totalIte (.totalBind (declarationScript hr).recover fun _ => .total _)
    (.totalBind (promptExpressionScript hr).recover fun _ => .total _)

def promptItemsScript : ∀ n : Nat, Script (promptItems r n).toParse
  | 0 => .total _
  | n + 1 => .totalIte (.total _)
    (.totalBind (promptItemScript hr) fun _ => .totalBind (promptItemsScript n) fun _ => .total _)

end Rules

/-! ### All levels -/

def rulesScripts : ∀ n : Nat, (rules n).Scripts
  | 0 => ⟨.raise _ nofun, .raise _ nofun, (Script.raise .missingExpression nofun).recover⟩
  | n + 1 =>
    have inner := rulesScripts n
    ⟨assignmentScript inner, statementScript inner, (declarationScript inner).recover⟩

/-! ### Whole texts -/

def ParseState.start (ts : TokenStream) (firstId : Nat) : ParseState :=
  { rest := ts.body, endLine := ts.endLine, nextId := firstId }

def programScript (ts : TokenStream) : Script (program ts.body.length).toParse :=
  declarationsScript (rulesScripts _) ParseState.atEnd _

def promptScript (ts : TokenStream) :
    Script (promptItems (rules ts.body.length) ts.body.length).toParse :=
  promptItemsScript (rulesScripts _) _

def expressionScript (ts : TokenStream) : Script (assignment (rules ts.body.length)) :=
  assignmentScript (rulesScripts _)

/-- The parse functions, with the rules for any number of levels. -/
inductive ParseFunction : {α : Type} → Parse α → Prop
  | program (n : Nat) : ParseFunction (program n).toParse
  | promptItems (n k : Nat) : ParseFunction (promptItems (rules n) k).toParse
  | promptItem (n : Nat) : ParseFunction (promptItem (rules n)).toParse
  | promptExpression (n : Nat) : ParseFunction (promptExpression (rules n))
  | recovered (n : Nat) : ParseFunction (rules n).declaration.toParse
  | declaration (n : Nat) : ParseFunction (declaration (rules n))
  | declarations (n k : Nat) (stop : ParseState → Bool) :
      ParseFunction (declarations (rules n) stop k).toParse
  | classDeclaration (n : Nat) : ParseFunction (classDeclaration (rules n))
  | methods (n k : Nat) : ParseFunction (methods (rules n) k)
  | function (n : Nat) (form : FunctionForm) : ParseFunction (function (rules n) form)
  | functionRest (n : Nat) (form : FunctionForm) : ParseFunction (functionRest (rules n) form)
  | variableDeclaration (n : Nat) : ParseFunction (variableDeclaration (rules n))
  | nested (n : Nat) : ParseFunction (rules n).statement
  | statement (n : Nat) : ParseFunction (statement (rules n))
  | forStatement (n : Nat) : ParseFunction (forStatement (rules n))
  | forInitializer (n : Nat) : ParseFunction (forInitializer (rules n))
  | unlessNext (n : Nat) (type : TokenType) : ParseFunction (unlessNext type (rules n))
  | loopBody (n : Nat) : ParseFunction (insideLoop (rules n).statement)
  | breakStatement (keyword : Token) : ParseFunction (breakStatement keyword)
  | ifStatement (n : Nat) : ParseFunction (ifStatement (rules n))
  | printStatement (n : Nat) : ParseFunction (printStatement (rules n))
  | whileStatement (n : Nat) : ParseFunction (whileStatement (rules n))
  | returnStatement (n : Nat) (keyword : Token) :
      ParseFunction (returnStatement keyword (rules n))
  | block (n : Nat) : ParseFunction (block (rules n))
  | expressionStatement (n : Nat) : ParseFunction (expressionStatement (rules n).expression)
  | expression (n : Nat) : ParseFunction (rules n).expression
  | assignment (n : Nat) : ParseFunction (assignment (rules n))
  | logicalOr (n : Nat) : ParseFunction (logicalOr (rules n))
  | logicalAnd (n : Nat) : ParseFunction (logicalAnd (rules n))
  | equality (n : Nat) : ParseFunction (equality (rules n))
  | comparison (n : Nat) : ParseFunction (comparison (rules n))
  | term (n : Nat) : ParseFunction (term (rules n))
  | factor (n : Nat) : ParseFunction (factor (rules n))
  | unary (n k : Nat) : ParseFunction (unaryUpTo (rules n) k)
  | call (n : Nat) : ParseFunction (call (rules n))
  | callRest (n k : Nat) (e : Expr) : ParseFunction (callRest (rules n) k e)
  | arguments (n k : Nat) :
      ParseFunction (itemsBeforeParen .tooManyArguments (rules n).expression k)
  | parameters (k : Nat) : ParseFunction
      (itemsBeforeParen .tooManyParameters (expect .identifier .missingParameterName) k)
  | primary (n : Nat) : ParseFunction (primary (rules n))

/-- Every parse function is put together from the steps. -/
theorem ParseFunction.scripted {p : Parse α} (h : ParseFunction p) : Nonempty (Script p) := by
  have hr := rulesScripts
  cases h with
  | program n => exact ⟨declarationsScript (hr n) _ n⟩
  | promptItems n k => exact ⟨promptItemsScript (hr n) k⟩
  | promptItem n => exact ⟨promptItemScript (hr n)⟩
  | promptExpression n => exact ⟨promptExpressionScript (hr n)⟩
  | recovered n => exact ⟨(hr n).declaration⟩
  | declaration n => exact ⟨declarationScript (hr n)⟩
  | declarations n k stop => exact ⟨declarationsScript (hr n) stop k⟩
  | classDeclaration n => exact ⟨classDeclarationScript (hr n)⟩
  | methods n k => exact ⟨methodsScript (hr n) k⟩
  | function n form => exact ⟨functionScript (hr n) form⟩
  | functionRest n form => exact ⟨functionRestScript (hr n) form⟩
  | variableDeclaration n => exact ⟨variableDeclarationScript (hr n)⟩
  | nested n => exact ⟨(hr n).statement⟩
  | statement n => exact ⟨statementScript (hr n)⟩
  | forStatement n => exact ⟨forStatementScript (hr n)⟩
  | forInitializer n => exact ⟨forInitializerScript (hr n)⟩
  | unlessNext n type => exact ⟨unlessNextScript (hr n) type⟩
  | loopBody n => exact ⟨(hr n).statement.loopBody⟩
  | breakStatement keyword => exact ⟨.breakLoop keyword⟩
  | ifStatement n => exact ⟨ifStatementScript (hr n)⟩
  | printStatement n => exact ⟨printStatementScript (hr n)⟩
  | whileStatement n => exact ⟨whileStatementScript (hr n)⟩
  | returnStatement n keyword => exact ⟨returnStatementScript (hr n) keyword⟩
  | block n => exact ⟨blockScript (hr n)⟩
  | expressionStatement n => exact ⟨expressionStatementScript (hr n).expression⟩
  | expression n => exact ⟨(hr n).expression⟩
  | assignment n => exact ⟨assignmentScript (hr n)⟩
  | logicalOr n => exact ⟨logicalOrScript (hr n)⟩
  | logicalAnd n => exact ⟨logicalAndScript (hr n)⟩
  | equality n => exact ⟨equalityScript (hr n)⟩
  | comparison n => exact ⟨comparisonScript (hr n)⟩
  | term n => exact ⟨termScript (hr n)⟩
  | factor n => exact ⟨factorScript (hr n)⟩
  | unary n k => exact ⟨unaryUpToScript (hr n) k⟩
  | call n => exact ⟨callScript (hr n)⟩
  | callRest n k e => exact ⟨callRestScript (hr n) k e⟩
  | arguments n k => exact ⟨itemsScript (by nofun) (hr n).expression k⟩
  | parameters k => exact ⟨itemsScript (by nofun) expectScript k⟩
  | primary n => exact ⟨primaryScript (hr n)⟩

end Lox.Syntax
