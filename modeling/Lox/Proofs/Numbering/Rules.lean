import Lox.Proofs.Numbering.Takes

/-!
# Uses that the rules number

Each rule numbers the uses of its tree in the order of the text, and reads only operators that have
a meaning: `rules_count`.
-/

namespace Lox

namespace Syntax

/-! ### What is left in a tree -/

abbrev HoldsExpr (e : Expr) (us : List Use) : Prop := Made [.expr e] e.uses us

abbrev HoldsExprs (es : List Expr) (us : List Use) : Prop := Made (es.map .expr) (Expr.usesAll es) us

abbrev HoldsOption (e : Option Expr) (us : List Use) : Prop :=
  Made (e.map .expr).toList ((e.map Expr.uses).getD []) us

abbrev HoldsStmt (s : Stmt) (us : List Use) : Prop := Made [.stmt s] s.uses us

abbrev HoldsStmts (ss : List Stmt) (us : List Use) : Prop :=
  Made (ss.map .stmt) (Stmt.usesAll ss) us

abbrev HoldsOptional (s : Option Stmt) (us : List Use) : Prop :=
  Made (s.map .stmt).toList ((s.map Stmt.uses).getD []) us

abbrev HoldsFunction (f : FunctionDecl) (us : List Use) : Prop :=
  ∀ isInitializer, Made [f.code isInitializer] f.uses us

abbrev HoldsFunctions (fs : List FunctionDecl) (us : List Use) : Prop :=
  Made (fs.map fun f => f.code f.isInitializer) (FunctionDecl.usesAll fs) us

structure Rules.Count (r : Rules) : Prop where
  leads : r.Respect ParseState.Leads
  expression : ∀ s, Numbers [] r.expression s HoldsExpr
  statement : ∀ s, Numbers [] r.statement s HoldsStmt
  declaration : ∀ s, NumbersAll r.declaration s HoldsOptional

theorem HoldsOptional.stmts {t : Option Stmt} {us : List Use} (h : HoldsOptional t us) :
    HoldsStmts t.toList us := by
  cases t with
  | none => exact h
  | some t => exact h.reorder (by simp [Stmt.usesAll]) fun c mem => mem

variable {r : Rules}

/-! ### Lists -/

theorem numbers_limited {us : List Use} {Q : α → List Use → Prop} (fault : SyntaxFault)
    {item : Parse α} (h : ∀ s, Numbers us item s Q) (count : Nat) (s : ParseState) :
    Numbers us (limited fault item count) s Q := by
  unfold limited
  split
  · exact .get (.skip (onward.respects_report _ _) fun _ after => h after)
  · exact h s

theorem numbers_moreItems (fault : SyntaxFault) {item : Parse Expr}
    (h : ∀ s, Numbers [] item s HoldsExpr) (n : Nat) {items : List Expr} {us : List Use}
    (held : HoldsExprs items us) (s : ParseState) :
    Numbers us (moreItems fault item n items) s HoldsExprs := by
  induction n generalizing items us s with
  | zero => exact .pure held
  | succ n ih =>
    refine .skip (onward.respects_accept _) fun comma s => ?_
    cases comma with
    | none => exact .pure held
    | some comma =>
      refine (numbers_limited fault h _ s).bind fun next vs s made => ih ?_ s
      have both := held.append made
      rw [HoldsExprs, List.map_append, Expr.usesAll_append]
      exact both.reorder (by simp [Expr.usesAll]) fun c mem => mem

theorem numbers_itemsBeforeParen (fault : SyntaxFault) {item : Parse Expr}
    (h : ∀ s, Numbers [] item s HoldsExpr) (n : Nat) (s : ParseState) :
    Numbers [] (itemsBeforeParen fault item n) s HoldsExprs := by
  refine .get ?_
  split
  · exact .pure .nil
  · refine (h s).bind fun first vs s made => numbers_moreItems fault h n ?_ s
    exact made.reorder (by simp [Expr.usesAll]) fun c mem => mem

theorem numbers_acceptIf (test : TokenType → Bool) (s : ParseState) :
    Numbers [] (acceptIf test) s fun t us => us = [] ∧ ∀ t' ∈ t, test t'.type := by
  intro t after ran
  refine ⟨[], .none ((onward.respects_acceptIf test).of_ok ran), rfl, ?_⟩
  rintro t' ⟨⟩
  obtain ⟨_, -, passed, -⟩ := Grammar.acceptIf_some ran
  exact passed

theorem numbers_moreOperands (operators : TokenType → Bool) (join : Expr → Token → Expr → Expr)
    (joined : ∀ left operator right us vs, operators operator.type → HoldsExpr left us →
      HoldsExpr right vs → HoldsExpr (join left operator right) (us ++ vs))
    {operand : Parse Expr} (h : ∀ s, Numbers [] operand s HoldsExpr) (n : Nat) {left : Expr}
    {us : List Use} (held : HoldsExpr left us) (s : ParseState) :
    Numbers us (moreOperands operators join operand n left) s HoldsExpr := by
  induction n generalizing left us s with
  | zero => exact .pure held
  | succ n ih =>
    refine (numbers_acceptIf operators s).bind ?_
    rintro operator _ s ⟨rfl, passed⟩
    rw [List.append_nil]
    cases operator with
    | none => exact .pure held
    | some operator =>
      refine (h s).bind fun right vs s made => ih ?_ s
      exact joined left operator right us vs (passed operator rfl) held made

theorem numbers_leftAssociative (operators : TokenType → Bool)
    (join : Expr → Token → Expr → Expr)
    (joined : ∀ left operator right us vs, operators operator.type → HoldsExpr left us →
      HoldsExpr right vs → HoldsExpr (join left operator right) (us ++ vs))
    {operand : Parse Expr} (h : ∀ s, Numbers [] operand s HoldsExpr) (n : Nat) (s : ParseState) :
    Numbers [] (leftAssociative operators join operand n) s HoldsExpr :=
  (h s).bind fun _ _ s made => numbers_moreOperands operators join joined h n made s

/-! ### Functions and expressions -/

section Rules

variable (hr : r.Count)

include hr

theorem numbers_declarations (stop : ParseState → Bool) (n : Nat) (s : ParseState) :
    NumbersAll (declarations r stop n) s HoldsStmts := by
  induction n generalizing s with
  | zero => exact ⟨[], .refl s, .nil⟩
  | succ n ih =>
    change NumbersAll (if stop s then pure [] else do
      let first ← r.declaration
      let others ← declarations r stop n
      pure (first.toList ++ others)) s HoldsStmts
    split
    · exact ⟨[], .refl s, .nil⟩
    · obtain ⟨us, taken, made⟩ := hr.declaration s
      obtain ⟨vs, taken', made'⟩ := ih (r.declaration s).2
      refine ⟨us ++ vs, taken.trans taken', ?_⟩
      change HoldsStmts ((r.declaration s).1.toList ++ _) _
      rw [HoldsStmts, List.map_append, Stmt.usesAll_append]
      exact (HoldsOptional.stmts made).append made'

theorem numbers_block (s : ParseState) : Numbers [] (block r) s HoldsStmts := by
  refine (Numbers.toParse (numbers_declarations hr _ r.rounds s)).bind fun body vs s made => ?_
  exact .skip (onward.respects_expect _ _) fun _ s => .pure made

theorem numbers_functionRest (form : FunctionForm) (s : ParseState) :
    Numbers [] (functionRest r form) s fun (_, body) => HoldsStmts body := by
  refine .skip (onward.respects_expect _ _) fun _ s => ?_
  refine .skip (onward.respects_itemsBeforeParen _ (onward.respects_expect _ _) _) fun _ s => ?_
  refine .skip (onward.respects_expect _ _) fun _ s => ?_
  refine .skip (onward.respects_expect _ _) fun _ s => ?_
  exact (Numbers.insideFunction (numbers_block hr)).bind fun body vs s made => .pure made

theorem numbers_function (form : FunctionForm) (s : ParseState) :
    Numbers [] (function r form) s HoldsFunction := by
  refine .skip (onward.respects_expect _ _) fun name s => ?_
  refine (numbers_functionRest hr form s).bind fun ⟨params, body⟩ vs s made => .pure ?_
  exact fun isInitializer => Made.code (c := .function isInitializer params body) made trivial

/-! #### Tokens that are uses -/

omit hr in
theorem peek_type {s : ParseState} {type : TokenType} (here : s.peek.type = type)
    (other : type ≠ .eof) : s.rest = s.peek :: s.rest.tail := by
  unfold ParseState.peek at here ⊢
  cases left : s.rest with
  | nil =>
    rw [left] at here
    exact absurd here.symm other
  | cons t rest => rfl

omit hr in
theorem numbers_single {e : Expr} {s : ParseState} (held : HoldsExpr e []) :
    Numbers [] (single e) s HoldsExpr := by
  intro a after ran
  cases ran
  exact ⟨[], .none ((onward.respects_single e).of_ok rfl), held⟩

omit hr in
theorem numbers_name {s : ParseState} (here : s.rest = s.peek :: s.rest.tail) {f : Use → Expr}
    (held : ∀ use, HoldsExpr (f use) [use]) :
    Numbers [] (newUse s.peek >>= fun use => single (f use)) s HoldsExpr := by
  intro a after ran
  cases ran
  exact ⟨_, Takes.number here (.refl _), held _⟩

omit hr in
/-- A use whose number is handed out after tokens that follow its own. -/
theorem numbers_super {s : ParseState} (here : s.peek.type = .kwSuper) :
    Numbers [] (do
      let _ ← accept .kwSuper
      let _ ← expect .dot .missingDotAfterSuper
      let method ← expect .identifier .missingSuperMethodName
      pure (.super (← newUse s.peek) method)) s HoldsExpr := by
  have split := peek_type here nofun
  intro a after ran
  rw [bind_of_ok (Grammar.accept_of_some split here)] at ran
  obtain ⟨_, second, dot, ran⟩ := bind_ok ran
  obtain ⟨method, third, found, ran⟩ := bind_ok ran
  cases ran
  have leads := onward.trans ((onward.respects_expect _ _).of_ok dot)
    ((onward.respects_expect _ _).of_ok found)
  exact ⟨_, Takes.number split (.none leads),
    Made.expr (.super _ method) trivial ⟨.refl _, nofun⟩⟩

/-! #### Expressions -/

theorem numbers_primary (s : ParseState) : Numbers [] (primary r) s HoldsExpr := by
  have leaf (e : Expr) (known : Code.KnownOperator (.expr e)) (none : e.parts = []) :
      HoldsExpr e (e.uses.map Prod.snd) := by
    refine Made.expr e known ⟨.refl _, ?_⟩
    simp [none]
  refine .get ?_
  dsimp only
  split
  · exact numbers_single (leaf (.literal (.bool false)) trivial rfl)
  · exact numbers_single (leaf (.literal (.bool true)) trivial rfl)
  · exact numbers_single (leaf (.literal .nil) trivial rfl)
  next x _ => exact numbers_single (leaf (.literal (.number x)) trivial rfl)
  next contents _ => exact numbers_single (leaf (.literal (.string contents)) trivial rfl)
  next here => exact numbers_name (peek_type here nofun) fun use => leaf (.this use) trivial rfl
  next here => exact numbers_name (peek_type here nofun) fun use => leaf (.variable use) trivial rfl
  next here => exact numbers_super here
  · refine .skip (onward.respects_accept _) fun _ s => ?_
    refine (numbers_functionRest hr _ s).bind fun ⟨params, body⟩ vs s made => .pure ?_
    exact Made.expr (.lambda params body) trivial
      (Made.code (c := .function false params body) made trivial)
  · refine .skip (onward.respects_accept _) fun _ s => ?_
    refine (hr.expression s).bind fun inner vs s made => ?_
    exact .skip (onward.respects_expect _ _) fun _ s =>
      .pure (Made.expr (.grouping inner) trivial made)
  · exact .raise _

theorem numbers_callRest (n : Nat) {e : Expr} {us : List Use} (held : HoldsExpr e us)
    (s : ParseState) : Numbers us (callRest r n e) s HoldsExpr := by
  induction n generalizing e us s with
  | zero => exact .pure held
  | succ n ih =>
    refine .skip (onward.respects_acceptIf _) fun mark s => ?_
    cases mark with
    | none => exact .pure held
    | some mark =>
      dsimp only
      split
      · refine (numbers_itemsBeforeParen _ hr.expression _ s).bind fun arguments vs s made => ?_
        refine .skip (onward.respects_expect _ _) fun paren s => ih ?_ s
        exact Made.expr (.call e paren arguments) trivial (held.append made)
      · refine .skip (onward.respects_expect _ _) fun name s => ih ?_ s
        exact Made.expr (.get e name) trivial held

theorem numbers_call (s : ParseState) : Numbers [] (call r) s HoldsExpr :=
  (numbers_primary hr s).bind fun _ _ s made => numbers_callRest hr r.rounds made s

theorem numbers_unaryUpTo (n : Nat) (s : ParseState) : Numbers [] (unaryUpTo r n) s HoldsExpr := by
  induction n generalizing s with
  | zero => exact numbers_call hr s
  | succ n ih =>
    refine (numbers_acceptIf isUnary s).bind ?_
    rintro operator _ s ⟨rfl, passed⟩
    cases operator with
    | none => exact numbers_call hr s
    | some operator =>
      refine (ih s).bind fun operand vs s made => .pure ?_
      exact Made.expr (.unary operator operand) (passed operator rfl) made

theorem numbers_unary (s : ParseState) : Numbers [] (unary r) s HoldsExpr :=
  numbers_unaryUpTo hr r.rounds s

omit hr in
theorem numbers_binary (operators : TokenType → Bool)
    (known : ∀ type, operators type = true → isBinary type = true) {operand : Parse Expr}
    (h : ∀ s, Numbers [] operand s HoldsExpr) (n : Nat) (s : ParseState) :
    Numbers [] (leftAssociative operators .binary operand n) s HoldsExpr := by
  refine numbers_leftAssociative _ _ ?_ h n s
  intro left operator right us vs passed first second
  exact Made.expr (.binary left operator right) (known _ passed) (first.append second)

omit hr in
theorem isBinary_of_either {a b : TokenType} (first : isBinary a = true) (second : isBinary b = true)
    (type : TokenType) (either : (type == a || type == b) = true) : isBinary type = true := by
  simp only [Bool.or_eq_true, beq_iff_eq] at either
  rcases either with rfl | rfl
  · exact first
  · exact second

omit hr in
theorem isBinary_of_isComparison (type : TokenType) (h : isComparison type = true) :
    isBinary type = true := by
  unfold isComparison at h
  split at h
  iterate 4 rfl
  cases h

theorem numbers_factor (s : ParseState) : Numbers [] (factor r) s HoldsExpr :=
  numbers_binary _ (isBinary_of_either rfl rfl) (numbers_unary hr) _ s

theorem numbers_term (s : ParseState) : Numbers [] (term r) s HoldsExpr :=
  numbers_binary _ (isBinary_of_either rfl rfl) (numbers_factor hr) _ s

theorem numbers_comparison (s : ParseState) : Numbers [] (comparison r) s HoldsExpr :=
  numbers_binary _ isBinary_of_isComparison (numbers_term hr) _ s

theorem numbers_equality (s : ParseState) : Numbers [] (equality r) s HoldsExpr :=
  numbers_binary _ (isBinary_of_either rfl rfl) (numbers_comparison hr) _ s

omit hr in
theorem numbers_logical (type : TokenType) (known : type = .kwAnd ∨ type = .kwOr)
    {operand : Parse Expr} (h : ∀ s, Numbers [] operand s HoldsExpr) (n : Nat) (s : ParseState) :
    Numbers [] (leftAssociative (· == type) .logical operand n) s HoldsExpr := by
  refine numbers_leftAssociative _ _ ?_ h n s
  intro left operator right us vs passed first second
  rw [← eq_of_beq passed] at known
  exact Made.expr (.logical left operator right) known (first.append second)

theorem numbers_logicalAnd (s : ParseState) : Numbers [] (logicalAnd r) s HoldsExpr :=
  numbers_logical .kwAnd (.inl rfl) (numbers_equality hr) _ s

theorem numbers_logicalOr (s : ParseState) : Numbers [] (logicalOr r) s HoldsExpr :=
  numbers_logical .kwOr (.inr rfl) (numbers_logicalAnd hr) _ s

omit hr in
/-- An assignment takes the uses of its target over. -/
theorem holds_assignTo {target value e : Expr} {us vs : List Use}
    (assigned : assignTo? value target = some e) (first : HoldsExpr target us)
    (second : HoldsExpr value vs) : HoldsExpr e (us ++ vs) := by
  cases target with
  | «variable» use =>
    cases assigned
    refine Made.expr (.assign use value) trivial ⟨?_, second.known⟩
    exact first.uses.append second.uses
  | get object name =>
    cases assigned
    have parts : ∀ c ∈ [Code.expr object], c.KnownOperators := by
      intro c mem
      exact (first.known _ List.mem_cons_self).part mem
    exact Made.expr (.set object name value) trivial (Made.append ⟨first.uses, parts⟩ second)
  | _ => cases assigned

theorem numbers_assignment (s : ParseState) : Numbers [] (assignment r) s HoldsExpr := by
  refine (numbers_logicalOr hr s).bind fun target us s made => ?_
  refine .skip (onward.respects_accept _) fun equals s => ?_
  cases equals with
  | none => exact .pure made
  | some equals =>
    intro e after ran
    obtain ⟨value, mid, read, ran⟩ := bind_ok ran
    obtain ⟨vs, taken, made'⟩ := hr.expression s value mid read
    cases assigned : assignTo? value target with
    | some e =>
      rw [assigned] at ran
      cases ran
      exact ⟨vs, taken, holds_assignTo assigned made made'⟩
    | none =>
      -- The right side of an invalid assignment is dropped.
      rw [assigned] at ran
      obtain ⟨_, reported, report, ran⟩ := bind_ok ran
      cases ran
      have leads := (onward.respects_report _ _).of_ok report
      refine ⟨[], (taken.drop (List.nil_sublist vs)).trans (.none leads), ?_⟩
      rwa [List.append_nil]

/-! ### Statements and declarations -/

omit hr in
theorem numbers_expressionStatement {p : Parse Expr} (h : ∀ s, Numbers [] p s HoldsExpr)
    (s : ParseState) : Numbers [] (expressionStatement p) s HoldsStmt := by
  refine (h s).bind fun e vs s made => ?_
  exact .skip (onward.respects_expect _ _) fun _ s => .pure (Made.stmt (.expression e) made)

theorem numbers_variableDeclaration (s : ParseState) :
    Numbers [] (variableDeclaration r) s HoldsStmt := by
  refine .skip (onward.respects_expect _ _) fun name s => ?_
  have rest (initializer : Option Expr) (us : List Use) (s : ParseState)
      (made : HoldsOption initializer us) : Numbers us (do
        let _ ← expect .semicolon .unterminatedVariable
        pure (Stmt.var name initializer)) s HoldsStmt := by
    refine .skip (onward.respects_expect _ _) fun _ s => .pure ?_
    cases initializer with
    | none => exact Made.stmt (.var name none) made
    | some e => exact Made.stmt (.var name (some e)) made
  refine .skip (onward.respects_accept _) fun equal s => ?_
  cases equal with
  | none => exact rest none [] s .nil
  | some equal => exact (hr.expression s).map (fun e us made => made) |>.bind rest

theorem numbers_unlessNext (type : TokenType) (s : ParseState) :
    Numbers [] (unlessNext type r) s HoldsOption := by
  refine .get ?_
  split
  · exact .pure .nil
  · exact (hr.expression s).map fun e vs made => made

theorem numbers_forInitializer (s : ParseState) :
    Numbers [] (forInitializer r) s HoldsOptional := by
  refine .skip (onward.respects_accept _) fun semicolon s => ?_
  cases semicolon with
  | some semicolon => exact .pure .nil
  | none =>
    refine .skip (onward.respects_accept _) fun keyword s => ?_
    cases keyword with
    | some keyword => exact (numbers_variableDeclaration hr s).map fun t vs made => made
    | none => exact (numbers_expressionStatement hr.expression s).map fun t vs made => made

omit hr in
/-- A loop with clauses holds the uses of the increment after those of the body. -/
theorem holds_loop {condition increment : Option Expr} {body : Stmt} {us vs ws : List Use}
    (first : HoldsOption condition us) (second : HoldsOption increment vs)
    (last : HoldsStmt body ws) :
    HoldsStmt (forLoop none condition increment body) (us ++ (vs ++ ws)) := by
  have first : HoldsExpr (condition.getD (.literal (.bool true))) us := by
    cases condition with
    | none => exact Made.expr (.literal (.bool true)) trivial first
    | some e => exact first
  cases increment with
  | none => exact Made.stmt (.whileLoop _ body) (first.append (second.append last))
  | some e =>
    have round := (Made.stmt (.expression e) second).append last
    have swapped : HoldsStmt (.block [body, .expression e]) (vs ++ ws) := by
      refine Made.stmt _ (round.reorder ?_ ?_)
      · simpa [Stmt.uses, Stmt.usesAll] using List.perm_append_comm
      · simp [Stmt.parts, or_comm]
    exact Made.stmt (.whileLoop _ _) (first.append swapped)

omit hr in
theorem holds_forLoop {initializer : Option Stmt} {condition increment : Option Expr} {body : Stmt}
    {us vs ws xs : List Use} (first : HoldsOptional initializer us)
    (second : HoldsOption condition vs) (third : HoldsOption increment ws)
    (last : HoldsStmt body xs) :
    HoldsStmt (forLoop initializer condition increment body) (us ++ vs ++ ws ++ xs) := by
  rw [List.append_assoc, List.append_assoc]
  have both := first.append (holds_loop second third last)
  cases initializer with
  | none => exact both
  | some t =>
    refine Made.stmt (.block [t, forLoop none condition increment body]) (both.reorder ?_ ?_)
    · simp [Stmt.uses, Stmt.usesAll]
    · exact fun c mem => mem

theorem numbers_forStatement (s : ParseState) : Numbers [] (forStatement r) s HoldsStmt := by
  refine .skip (onward.respects_expect _ _) fun _ s => ?_
  refine (numbers_forInitializer hr s).bind fun initializer us s first => ?_
  refine (numbers_unlessNext hr _ s).bind fun condition vs s second => ?_
  refine .skip (onward.respects_expect _ _) fun _ s => ?_
  refine (numbers_unlessNext hr _ s).bind fun increment ws s third => ?_
  refine .skip (onward.respects_expect _ _) fun _ s => ?_
  exact (Numbers.insideLoop hr.statement).bind fun body xs s last =>
    .pure (holds_forLoop first second third last)

theorem numbers_ifStatement (s : ParseState) : Numbers [] (ifStatement r) s HoldsStmt := by
  refine .skip (onward.respects_expect _ _) fun _ s => ?_
  refine (hr.expression s).bind fun condition us s first => ?_
  refine .skip (onward.respects_expect _ _) fun _ s => ?_
  refine (hr.statement s).bind fun thenBranch vs s second => ?_
  have rest (elseBranch : Option Stmt) (ws : List Use) (s : ParseState)
      (third : HoldsOptional elseBranch ws) : Numbers (us ++ vs ++ ws)
        (pure (Stmt.ifElse condition thenBranch elseBranch)) s HoldsStmt := by
    have whole := (first.append second).append third
    refine .pure ?_
    cases elseBranch with
    | none =>
      rw [HoldsStmt, Stmt.uses]
      exact Made.stmt (.ifElse condition thenBranch none) (whole.reorder (by simp [Stmt.uses]) fun c mem => mem)
    | some t => exact Made.stmt (.ifElse condition thenBranch (some t)) whole
  refine .skip (onward.respects_accept _) fun keyword s => ?_
  cases keyword with
  | none => exact (Numbers.pure (a := none) (Q := HoldsOptional) .nil).bind rest
  | some keyword => exact ((hr.statement s).map fun t ws made => made).bind rest

theorem numbers_whileStatement (s : ParseState) : Numbers [] (whileStatement r) s HoldsStmt := by
  refine .skip (onward.respects_expect _ _) fun _ s => ?_
  refine (hr.expression s).bind fun condition us s first => ?_
  refine .skip (onward.respects_expect _ _) fun _ s => ?_
  exact (Numbers.insideLoop hr.statement).bind fun body vs s second =>
    .pure (Made.stmt (.whileLoop condition body) (first.append second))

theorem numbers_returnStatement (keyword : Token) (s : ParseState) :
    Numbers [] (returnStatement keyword r) s HoldsStmt := by
  refine (numbers_unlessNext hr _ s).bind fun value us s made => ?_
  refine .skip (onward.respects_expect _ _) fun _ s => .pure ?_
  cases value with
  | none => exact Made.stmt (.returnFrom keyword none) made
  | some e => exact Made.stmt (.returnFrom keyword (some e)) made

omit hr in
theorem numbers_breakStatement (keyword : Token) (s : ParseState) :
    Numbers [] (breakStatement keyword) s HoldsStmt := by
  have rest (s : ParseState) : Numbers [] (do
      let _ ← expect .semicolon .unterminatedBreak
      pure (Stmt.breakLoop keyword)) s HoldsStmt :=
    .skip (onward.respects_expect _ _) fun _ s => .pure (Made.stmt (.breakLoop keyword) .nil)
  refine .get ?_
  dsimp only
  split
  · exact .skip (onward.respects_report _ _) fun _ s => rest s
  · exact rest s

theorem numbers_printStatement (s : ParseState) : Numbers [] (printStatement r) s HoldsStmt := by
  refine (hr.expression s).bind fun e us s made => ?_
  exact .skip (onward.respects_expect _ _) fun _ s => .pure (Made.stmt (.print e) made)

theorem numbers_statement (s : ParseState) : Numbers [] (statement r) s HoldsStmt := by
  refine .skip (onward.respects_acceptIf _) fun keyword s => ?_
  cases keyword with
  | none => exact numbers_expressionStatement (numbers_assignment hr) s
  | some keyword =>
    dsimp only
    split
    · exact numbers_forStatement hr s
    · exact numbers_ifStatement hr s
    · exact numbers_whileStatement hr s
    · exact numbers_returnStatement hr keyword s
    · exact numbers_breakStatement keyword s
    · exact (numbers_block hr s).map fun body us made => Made.stmt (.block body) made
    · exact numbers_printStatement hr s

theorem numbers_methods (n : Nat) (s : ParseState) : Numbers [] (methods r n) s HoldsFunctions := by
  induction n generalizing s with
  | zero => exact .pure .nil
  | succ n ih =>
    refine .get ?_
    split
    · exact .pure .nil
    · refine (numbers_function hr _ s).bind fun first us s made => ?_
      exact (ih s).bind fun others vs s made' => .pure ((made _).append made')

omit hr in
theorem numbers_superclass {f : Option Use → Parse Stmt}
    (rest : ∀ use s, Numbers [use] (f (some use)) s HoldsStmt) (s : ParseState) :
    Numbers [] (do
      let superName ← expect .identifier .missingSuperclassName
      let superclass ← some <$> newUse superName
      f superclass) s HoldsStmt := by
  intro t after ran
  obtain ⟨superName, mid, found, ran⟩ := bind_ok ran
  obtain ⟨left, split, -, rfl⟩ := Grammar.expect_ok found
  obtain ⟨vs, taken, made⟩ := rest _ _ t after ran
  exact ⟨_, (Takes.number split (.refl _)).trans taken, made⟩

theorem numbers_classDeclaration (s : ParseState) :
    Numbers [] (classDeclaration r) s HoldsStmt := by
  refine .skip (onward.respects_expect _ _) fun name s => ?_
  have rest (superclass : Option Use) (us : List Use) (s : ParseState)
      (made : us = superclass.toList) : Numbers us (do
        let _ ← expect .leftBrace .unopenedClassBody
        let members ← methods r r.rounds
        let _ ← expect .rightBrace .unclosedClassBody
        pure (Stmt.classDecl name superclass members)) s HoldsStmt := by
    refine .skip (onward.respects_expect _ _) fun _ s => ?_
    refine (numbers_methods hr _ s).bind fun members vs s made' => ?_
    refine .skip (onward.respects_expect _ _) fun _ s => .pure ?_
    subst made
    cases superclass with
    | none => exact Made.stmt (.classDecl name none members) made'
    | some use =>
      have read : HoldsExpr (.variable use) [use] :=
        Made.expr (.variable use) trivial ⟨.refl _, nofun⟩
      exact Made.stmt (.classDecl name (some use) members) (read.append made')
  refine .skip (onward.respects_accept _) fun less s => ?_
  cases less with
  | none => exact rest none [] s rfl
  | some less => exact numbers_superclass (fun use s => rest (some use) [use] s rfl) s

theorem numbers_declaration (s : ParseState) : Numbers [] (declaration r) s HoldsStmt := by
  refine .get ?_
  split
  · refine .skip (onward.respects_accept _) fun _ s => ?_
    refine (numbers_function hr _ s).map fun f us made => ?_
    exact Made.stmt (.function f) (made false)
  · refine .skip (onward.respects_acceptIf _) fun keyword s => ?_
    cases keyword with
    | none => exact numbers_statement hr s
    | some keyword =>
      dsimp only
      split
      · exact numbers_classDeclaration hr s
      · exact numbers_variableDeclaration hr s

end Rules

/-! ### All levels -/

theorem rules_count (n : Nat) : (rules n).Count := by
  have leads := onward.respects_rules
  induction n with
  | zero =>
    refine ⟨leads 0, fun s => .raise _, fun s => .raise _, fun s => ?_⟩
    exact Numbers.recover (Q := HoldsStmt) (.raise _) (onward.respects_raise _) .nil
      fun t us made => made
  | succ n ih =>
    refine ⟨leads (n + 1), numbers_assignment ih, numbers_statement ih, fun s => ?_⟩
    exact (numbers_declaration ih s).recover (onward.respects_declaration (leads n)) .nil
      fun t us made => made

end Syntax

end Lox
