import Lox.Proofs.Steps
import Lox.Syntax.Parser

/-!
# Relations that every parser keeps to

A relation between the states before and after reading which holds of the basic parsers, and which
loop bodies and function bodies pass on, holds of all rules: `respects_rules`.
-/

namespace Lox.Syntax

/-- A relation that the basic parsers keep to and that can be passed along a text. -/
structure ParseRelation (R : ParseState → ParseState → Prop) : Prop where
  refl : ∀ s, R s s
  trans : ∀ {s₁ s₂ s₃}, R s₁ s₂ → R s₂ s₃ → R s₁ s₃
  skip : ∀ s rest, rest <:+ s.rest → R s { s with rest }
  report : ∀ s e, R s (s.report e)
  number : ∀ s, R s { s with nextId := s.nextId + 1 }
  loop : ∀ {s after : ParseState}, R { s with loopDepth := s.loopDepth + 1 } after →
    R s { after with loopDepth := after.loopDepth - 1 }
  body : ∀ {s after : ParseState}, R { s with loopDepth := 0 } after →
    R s { after with loopDepth := s.loopDepth }

structure Rules.Respect (R : ParseState → ParseState → Prop) (r : Rules) : Prop where
  expression : Respects R r.expression
  statement : Respects R r.statement
  declaration : ∀ s, R s (r.declaration s).2

namespace ParseRelation

variable {R : ParseState → ParseState → Prop} (h : ParseRelation R)

include h

/-! ### Basic parsers -/

theorem respects_pure (a : α) : Respects R (pure a : Parse α) := fun s => h.refl s

theorem respects_get : Respects R (get : Parse ParseState) := fun s => h.refl s

theorem respects_bind {p : Parse α} {f : α → Parse β} (hp : Respects R p)
    (hf : ∀ a, Respects R (f a)) : Respects R (p >>= f) := hp.bind h.trans hf

theorem respects_map {p : Parse α} (f : α → β) (hp : Respects R p) : Respects R (f <$> p) := by
  rw [map_eq_pure_bind]
  exact h.respects_bind hp fun a => h.respects_pure (f a)

theorem respects_acceptIf (test : TokenType → Bool) : Respects R (acceptIf test) := by
  intro s
  unfold stateAfter acceptIf
  cases hr : s.rest with
  | nil => exact h.refl s
  | cons t rest =>
    dsimp only
    cases test t.type with
    | true => exact h.skip s rest (hr ▸ List.suffix_cons t rest)
    | false => exact h.refl s

theorem respects_accept (type : TokenType) : Respects R (accept type) := h.respects_acceptIf _

theorem respects_raise (fault : SyntaxFault) : Respects R (raise fault : Parse α) :=
  fun s => h.refl s

theorem respects_report (token : Token) (fault : SyntaxFault) : Respects R (Syntax.report token fault) :=
  fun s => h.report s _

theorem respects_expect (type : TokenType) (fault : SyntaxFault) :
    Respects R (expect type fault) := by
  refine h.respects_bind (h.respects_accept type) fun t => ?_
  cases t with
  | none => exact h.respects_raise fault
  | some t => exact h.respects_pure t

theorem respects_newUse (name : Token) : Respects R (newUse name) := fun s => h.number s

theorem respects_single (e : Expr) : Respects R (single e) :=
  fun s => h.skip s _ (List.tail_suffix _)

theorem respects_insideLoop {p : Parse α} (hp : Respects R p) : Respects R (insideLoop p) := by
  intro s
  have inner := hp { s with loopDepth := s.loopDepth + 1 }
  unfold stateAfter at inner ⊢
  unfold insideLoop
  cases hps : p { s with loopDepth := s.loopDepth + 1 } <;> rw [hps] at inner <;>
    exact h.loop inner

theorem respects_insideFunction {p : Parse α} (hp : Respects R p) :
    Respects R (insideFunction p) := by
  intro s
  have inner := hp { s with loopDepth := 0 }
  unfold stateAfter at inner ⊢
  unfold insideFunction
  cases hps : p { s with loopDepth := 0 } <;> rw [hps] at inner <;> exact h.body inner

theorem respects_recover {p : Parse α} (hp : Respects R p) (s : ParseState) :
    R s (recover p s).2 := by
  have inner := hp s
  unfold stateAfter at inner
  unfold recover
  cases hps : p s with
  | ok a after => rw [hps] at inner; exact inner
  | error e after =>
    rw [hps] at inner
    refine h.trans inner (h.trans (h.report after e) ?_)
    exact h.skip (after.report e) _ (synchronize_suffix after.rest)

/-! ### Lists -/

theorem respects_limited (fault : SyntaxFault) {item : Parse α} (hitem : Respects R item)
    (count : Nat) : Respects R (limited fault item count) := by
  unfold limited
  split
  · refine h.respects_bind h.respects_get fun s => ?_
    exact h.respects_bind (h.respects_report _ _) fun _ => hitem
  · exact hitem

theorem respects_moreItems (fault : SyntaxFault) {item : Parse α} (hitem : Respects R item)
    (n : Nat) (items : List α) : Respects R (moreItems fault item n items) := by
  induction n generalizing items with
  | zero => exact h.respects_pure _
  | succ n ih =>
    refine h.respects_bind (h.respects_accept _) fun comma => ?_
    cases comma with
    | none => exact h.respects_pure _
    | some comma => exact h.respects_bind (h.respects_limited fault hitem _) fun next => ih _

theorem respects_itemsBeforeParen (fault : SyntaxFault) {item : Parse α}
    (hitem : Respects R item) (n : Nat) : Respects R (itemsBeforeParen fault item n) := by
  refine h.respects_bind h.respects_get fun s => ?_
  split
  · exact h.respects_pure _
  · exact h.respects_bind hitem fun first => h.respects_moreItems fault hitem n _

theorem respects_moreOperands (operators : TokenType → Bool) (join : Expr → Token → Expr → Expr)
    {operand : Parse Expr} (hoperand : Respects R operand) (n : Nat) (left : Expr) :
    Respects R (moreOperands operators join operand n left) := by
  induction n generalizing left with
  | zero => exact h.respects_pure _
  | succ n ih =>
    refine h.respects_bind (h.respects_acceptIf _) fun operator => ?_
    cases operator with
    | none => exact h.respects_pure _
    | some operator => exact h.respects_bind hoperand fun right => ih _

theorem respects_leftAssociative (operators : TokenType → Bool)
    (join : Expr → Token → Expr → Expr) {operand : Parse Expr} (hoperand : Respects R operand)
    (n : Nat) : Respects R (leftAssociative operators join operand n) :=
  h.respects_bind hoperand fun first => h.respects_moreOperands operators join hoperand n first

/-! ### Functions and expressions -/

variable {r : Rules} (hr : r.Respect R)

include hr

theorem respects_declarations (stop : ParseState → Bool) (n : Nat) (s : ParseState) :
    R s (declarations r stop n s).2 := by
  induction n generalizing s with
  | zero => exact h.refl s
  | succ n ih =>
    change R s ((if stop s then pure [] else do
      let first ← r.declaration
      let others ← declarations r stop n
      pure (first.toList ++ others) : Total (List Stmt)) s).2
    split
    · exact h.refl s
    · exact h.trans (hr.declaration s) (ih _)

theorem respects_block : Respects R (block r) := by
  refine h.respects_bind (fun s => h.respects_declarations hr _ r.rounds s) fun body => ?_
  exact h.respects_bind (h.respects_expect _ _) fun _ => h.respects_pure body

theorem respects_functionRest (form : FunctionForm) : Respects R (functionRest r form) := by
  refine h.respects_bind (h.respects_expect _ _) fun _ => ?_
  refine h.respects_bind (h.respects_itemsBeforeParen _ (h.respects_expect _ _) _) fun params => ?_
  refine h.respects_bind (h.respects_expect _ _) fun _ => ?_
  refine h.respects_bind (h.respects_expect _ _) fun _ => ?_
  exact h.respects_bind (h.respects_insideFunction (h.respects_block hr)) fun _ =>
    h.respects_pure _

theorem respects_function (form : FunctionForm) : Respects R (function r form) :=
  h.respects_bind (h.respects_expect _ _) fun _ =>
    h.respects_bind (h.respects_functionRest hr form) fun _ => h.respects_pure _

theorem respects_primary : Respects R (primary r) := by
  refine h.respects_bind h.respects_get fun s => ?_
  dsimp only
  split
  iterate 5 exact h.respects_single _
  · exact h.respects_bind (h.respects_newUse _) fun _ => h.respects_single _
  · exact h.respects_bind (h.respects_newUse _) fun _ => h.respects_single _
  · refine h.respects_bind (h.respects_accept _) fun _ => ?_
    refine h.respects_bind (h.respects_expect _ _) fun _ => ?_
    refine h.respects_bind (h.respects_expect _ _) fun method => ?_
    exact h.respects_bind (h.respects_newUse _) fun _ => h.respects_pure _
  · refine h.respects_bind (h.respects_accept _) fun _ => ?_
    exact h.respects_bind (h.respects_functionRest hr _) fun _ => h.respects_pure _
  · refine h.respects_bind (h.respects_accept _) fun _ => ?_
    refine h.respects_bind hr.expression fun inner => ?_
    exact h.respects_bind (h.respects_expect _ _) fun _ => h.respects_pure _
  · exact h.respects_raise _

theorem respects_callRest (n : Nat) (e : Expr) : Respects R (callRest r n e) := by
  induction n generalizing e with
  | zero => exact h.respects_pure _
  | succ n ih =>
    refine h.respects_bind (h.respects_acceptIf _) fun mark => ?_
    cases mark with
    | none => exact h.respects_pure _
    | some mark =>
      dsimp only
      split
      · refine h.respects_bind (h.respects_itemsBeforeParen _ hr.expression _) fun arguments => ?_
        exact h.respects_bind (h.respects_expect _ _) fun paren => ih _
      · exact h.respects_bind (h.respects_expect _ _) fun name => ih _

theorem respects_call : Respects R (call r) :=
  h.respects_bind (h.respects_primary hr) fun e => h.respects_callRest hr r.rounds e

theorem respects_unaryUpTo (n : Nat) : Respects R (unaryUpTo r n) := by
  induction n with
  | zero => exact h.respects_call hr
  | succ n ih =>
    refine h.respects_bind (h.respects_acceptIf _) fun operator => ?_
    cases operator with
    | none => exact h.respects_call hr
    | some operator => exact h.respects_bind ih fun _ => h.respects_pure _

theorem respects_unary : Respects R (unary r) := h.respects_unaryUpTo hr r.rounds

theorem respects_factor : Respects R (factor r) :=
  h.respects_leftAssociative _ _ (h.respects_unary hr) _

theorem respects_term : Respects R (term r) :=
  h.respects_leftAssociative _ _ (h.respects_factor hr) _

theorem respects_comparison : Respects R (comparison r) :=
  h.respects_leftAssociative _ _ (h.respects_term hr) _

theorem respects_equality : Respects R (equality r) :=
  h.respects_leftAssociative _ _ (h.respects_comparison hr) _

theorem respects_logicalAnd : Respects R (logicalAnd r) :=
  h.respects_leftAssociative _ _ (h.respects_equality hr) _

theorem respects_logicalOr : Respects R (logicalOr r) :=
  h.respects_leftAssociative _ _ (h.respects_logicalAnd hr) _

theorem respects_assignment : Respects R (assignment r) := by
  refine h.respects_bind (h.respects_logicalOr hr) fun target => ?_
  refine h.respects_bind (h.respects_accept _) fun equals => ?_
  cases equals with
  | none => exact h.respects_pure _
  | some equals =>
    refine h.respects_bind hr.expression fun value => ?_
    split
    · exact h.respects_pure _
    · exact h.respects_bind (h.respects_report _ _) fun _ => h.respects_pure _

/-! ### Statements and declarations -/

omit hr in
theorem respects_expressionStatement {p : Parse Expr} (hp : Respects R p) :
    Respects R (expressionStatement p) :=
  h.respects_bind hp fun _ => h.respects_bind (h.respects_expect _ _) fun _ => h.respects_pure _

theorem respects_variableDeclaration : Respects R (variableDeclaration r) := by
  refine h.respects_bind (h.respects_expect _ _) fun name => ?_
  refine h.respects_bind (h.respects_accept _) fun equal => ?_
  cases equal with
  | none =>
    refine h.respects_bind (h.respects_pure _) fun _ => ?_
    exact h.respects_bind (h.respects_expect _ _) fun _ => h.respects_pure _
  | some equal =>
    refine h.respects_bind (h.respects_map _ hr.expression) fun _ => ?_
    exact h.respects_bind (h.respects_expect _ _) fun _ => h.respects_pure _

theorem respects_unlessNext (type : TokenType) : Respects R (unlessNext type r) := by
  refine h.respects_bind h.respects_get fun s => ?_
  split
  · exact h.respects_pure _
  · exact h.respects_map _ hr.expression

theorem respects_forInitializer : Respects R (forInitializer r) := by
  refine h.respects_bind (h.respects_accept _) fun semicolon => ?_
  cases semicolon with
  | some semicolon => exact h.respects_pure _
  | none =>
    refine h.respects_bind (h.respects_accept _) fun keyword => ?_
    cases keyword with
    | some keyword => exact h.respects_map _ (h.respects_variableDeclaration hr)
    | none => exact h.respects_map _ (h.respects_expressionStatement hr.expression)

theorem respects_forStatement : Respects R (forStatement r) := by
  refine h.respects_bind (h.respects_expect _ _) fun _ => ?_
  refine h.respects_bind (h.respects_forInitializer hr) fun _ => ?_
  refine h.respects_bind (h.respects_unlessNext hr _) fun _ => ?_
  refine h.respects_bind (h.respects_expect _ _) fun _ => ?_
  refine h.respects_bind (h.respects_unlessNext hr _) fun _ => ?_
  refine h.respects_bind (h.respects_expect _ _) fun _ => ?_
  exact h.respects_bind (h.respects_insideLoop hr.statement) fun _ => h.respects_pure _

theorem respects_ifStatement : Respects R (ifStatement r) := by
  refine h.respects_bind (h.respects_expect _ _) fun _ => ?_
  refine h.respects_bind hr.expression fun _ => ?_
  refine h.respects_bind (h.respects_expect _ _) fun _ => ?_
  refine h.respects_bind hr.statement fun _ => ?_
  refine h.respects_bind (h.respects_accept _) fun keyword => ?_
  cases keyword with
  | none => exact h.respects_bind (h.respects_pure _) fun _ => h.respects_pure _
  | some keyword =>
    exact h.respects_bind (h.respects_map _ hr.statement) fun _ => h.respects_pure _

theorem respects_whileStatement : Respects R (whileStatement r) := by
  refine h.respects_bind (h.respects_expect _ _) fun _ => ?_
  refine h.respects_bind hr.expression fun _ => ?_
  refine h.respects_bind (h.respects_expect _ _) fun _ => ?_
  exact h.respects_bind (h.respects_insideLoop hr.statement) fun _ => h.respects_pure _

theorem respects_returnStatement (keyword : Token) : Respects R (returnStatement keyword r) := by
  refine h.respects_bind (h.respects_unlessNext hr _) fun _ => ?_
  exact h.respects_bind (h.respects_expect _ _) fun _ => h.respects_pure _

omit hr in
theorem respects_breakStatement (keyword : Token) : Respects R (breakStatement keyword) := by
  refine h.respects_bind h.respects_get fun s => ?_
  dsimp only
  split
  · refine h.respects_bind (h.respects_report _ _) fun _ => ?_
    exact h.respects_bind (h.respects_expect _ _) fun _ => h.respects_pure _
  · exact h.respects_bind (h.respects_expect _ _) fun _ => h.respects_pure _

theorem respects_printStatement : Respects R (printStatement r) :=
  h.respects_bind hr.expression fun _ =>
    h.respects_bind (h.respects_expect _ _) fun _ => h.respects_pure _

theorem respects_statement : Respects R (statement r) := by
  refine h.respects_bind (h.respects_acceptIf _) fun keyword => ?_
  cases keyword with
  | none => exact h.respects_expressionStatement (h.respects_assignment hr)
  | some keyword =>
    dsimp only
    split
    · exact h.respects_forStatement hr
    · exact h.respects_ifStatement hr
    · exact h.respects_whileStatement hr
    · exact h.respects_returnStatement hr keyword
    · exact h.respects_breakStatement keyword
    · exact h.respects_map _ (h.respects_block hr)
    · exact h.respects_printStatement hr

theorem respects_methods (n : Nat) : Respects R (methods r n) := by
  induction n with
  | zero => exact h.respects_pure _
  | succ n ih =>
    refine h.respects_bind h.respects_get fun s => ?_
    split
    · exact h.respects_pure _
    · refine h.respects_bind (h.respects_function hr _) fun first => ?_
      exact h.respects_bind ih fun _ => h.respects_pure _

theorem respects_classDeclaration : Respects R (classDeclaration r) := by
  have rest (name : Token) (superclass : Option Use) : Respects R (do
      let _ ← expect .leftBrace .unopenedClassBody
      let members ← methods r r.rounds
      let _ ← expect .rightBrace .unclosedClassBody
      pure (Stmt.classDecl name superclass members)) := by
    refine h.respects_bind (h.respects_expect _ _) fun _ => ?_
    refine h.respects_bind (h.respects_methods hr _) fun _ => ?_
    exact h.respects_bind (h.respects_expect _ _) fun _ => h.respects_pure _
  refine h.respects_bind (h.respects_expect _ _) fun name => ?_
  refine h.respects_bind (h.respects_accept _) fun less => ?_
  cases less with
  | none => exact h.respects_bind (h.respects_pure _) fun superclass => rest name superclass
  | some less =>
    refine h.respects_bind (h.respects_expect _ _) fun superName => ?_
    exact h.respects_bind (h.respects_map _ (h.respects_newUse _)) fun superclass =>
      rest name superclass

theorem respects_declaration : Respects R (declaration r) := by
  refine h.respects_bind h.respects_get fun s => ?_
  split
  · refine h.respects_bind (h.respects_accept _) fun _ => ?_
    exact h.respects_map _ (h.respects_function hr _)
  · refine h.respects_bind (h.respects_acceptIf _) fun keyword => ?_
    cases keyword with
    | none => exact h.respects_statement hr
    | some keyword =>
      dsimp only
      split
      · exact h.respects_classDeclaration hr
      · exact h.respects_variableDeclaration hr

/-! ### All levels -/

omit hr in
theorem respects_rules (n : Nat) : (rules n).Respect R := by
  induction n with
  | zero =>
    exact ⟨h.respects_raise _, h.respects_raise _, h.respects_recover (h.respects_raise _)⟩
  | succ n ih =>
    exact ⟨h.respects_assignment ih, h.respects_statement ih,
      h.respects_recover (h.respects_declaration ih)⟩

end ParseRelation

/-- A later state of the same text: tokens are read from the front, errors and numbers are only
added, and the loops around the place are the same. -/
structure ParseState.Leads (s later : ParseState) : Prop where
  rest : later.rest <:+ s.rest
  errors : s.errors <+: later.errors
  nextId : s.nextId ≤ later.nextId
  endLine : later.endLine = s.endLine
  loopDepth : later.loopDepth = s.loopDepth

theorem onward : ParseRelation ParseState.Leads where
  refl s := ⟨List.suffix_rfl, List.prefix_rfl, Nat.le_refl _, rfl, rfl⟩
  trans h₁ h₂ := ⟨h₂.rest.trans h₁.rest, h₁.errors.trans h₂.errors,
    Nat.le_trans h₁.nextId h₂.nextId, h₂.endLine.trans h₁.endLine,
    h₂.loopDepth.trans h₁.loopDepth⟩
  skip _ _ h := ⟨h, List.prefix_rfl, Nat.le_refl _, rfl, rfl⟩
  report _ _ := ⟨List.suffix_rfl, List.prefix_append _ _, Nat.le_refl _, rfl, rfl⟩
  number _ := ⟨List.suffix_rfl, List.prefix_rfl, Nat.le_succ _, rfl, rfl⟩
  loop h := ⟨h.rest, h.errors, h.nextId, h.endLine, by
    have := h.loopDepth
    dsimp only at this ⊢
    omega⟩
  body h := ⟨h.rest, h.errors, h.nextId, h.endLine, rfl⟩

end Lox.Syntax
