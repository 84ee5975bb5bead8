import Lox.Proofs.Progress

/-!
# Statements that cannot leave their semicolon

In a text with a semicolon at its end, and with no other and no brace or `for` before it, no rule
reads the semicolon unless it ends a statement: `stops_rules`. So an error is found no later than
there.
-/

namespace Lox.Syntax

open Grammar

/-- Tokens that end in their only semicolon and open neither a brace nor a `for`. -/
inductive Terminated : List Token → Prop
  | last {semicolon} : semicolon.type = .semicolon → Terminated [semicolon]
  | cons {t ts} : t.type ≠ .semicolon → t.type ≠ .leftBrace → t.type ≠ .kwFor → Terminated ts →
    Terminated (t :: ts)

namespace Terminated

variable {t : Token} {ts us : List Token}

theorem ne_nil (h : Terminated ts) : ts ≠ [] := by cases h <;> exact List.cons_ne_nil _ _

theorem of_suffix (h : Terminated ts) (suffix : us <:+ ts) : us = [] ∨ Terminated us := by
  induction h with
  | @last semicolon type =>
    obtain rfl | ended := List.suffix_cons_iff.mp suffix
    · exact .inr (.last type)
    · exact .inl (List.eq_nil_of_suffix_nil ended)
  | cons other brace «for» rest ih =>
    obtain rfl | inner := List.suffix_cons_iff.mp suffix
    · exact .inr (.cons other brace «for» rest)
    · exact ih inner

theorem tail (h : Terminated (t :: ts)) (other : t.type ≠ .semicolon) : Terminated ts := by
  cases h with
  | last type => exact absurd type other
  | cons _ _ _ rest => exact rest

theorem ended (h : Terminated (t :: ts)) (type : t.type = .semicolon) : ts = [] := by
  cases h with
  | last _ => rfl
  | cons other _ _ _ => exact absurd type other

theorem ne_brace (h : Terminated (t :: ts)) : t.type ≠ .leftBrace := by
  cases h with
  | last type => rw [type]; nofun
  | cons _ brace _ _ => exact brace

theorem ne_for (h : Terminated (t :: ts)) : t.type ≠ .kwFor := by
  cases h with
  | last type => rw [type]; nofun
  | cons _ _ «for» _ => exact «for»

end Terminated

/-- What is accepted is neither the semicolon nor a brace or `for`. -/
theorem Terminated.acceptIf {s : ParseState} (h : Terminated s.rest) {test : TokenType → Bool}
    (other : test .semicolon = false) :
    acceptIf test s = .ok none s ∨ ∃ word rest, acceptIf test s = .ok (some word) { s with rest } ∧
      word.type ≠ .leftBrace ∧ word.type ≠ .kwFor ∧ Terminated rest := by
  cases here : s.rest with
  | nil => exact absurd here h.ne_nil
  | cons word rest =>
    rw [here] at h
    cases fits : test word.type with
    | false =>
      refine .inl (acceptIf_of_none ?_)
      rw [here]
      rintro _ _ ⟨⟩
      exact fits
    | true =>
      have ne : word.type ≠ .semicolon := by
        intro type
        rw [type, other] at fits
        cases fits
      exact .inr ⟨word, rest, acceptIf_of_some here fits, h.ne_brace, h.ne_for, h.tail ne⟩

def Remains (s t : ParseState) : Prop := Terminated s.rest → Terminated t.rest

abbrev Stays (p : Parse α) : Prop := Respects Remains p

/-- The semicolon was read last or not at all, and before an error not at all. -/
def Ends : EStateM.Result SyntaxError ParseState α → Prop
  | .ok _ t => t.rest = [] ∨ Terminated t.rest
  | .error _ t => Terminated t.rest

def Settles (p : Parse α) : Prop := ∀ s : ParseState, Terminated s.rest → Ends (p s)

/-- Rules whose expressions do not read the semicolon and whose statements end with it. -/
structure Rules.Stops (r : Rules) : Prop where
  expression : Stays r.expression
  statement : Settles r.statement

/-! ### Parsers that stay -/

namespace Stays

variable {p : Parse α} {f : α → Parse β}

theorem pure (a : α) : Stays (pure a : Parse α) := fun _ h => h

theorem raise (fault : SyntaxFault) : Stays (raise fault : Parse α) := fun _ h => h

theorem report (token : Token) (fault : SyntaxFault) : Stays (report token fault) := fun _ h => h

theorem newUse (name : Token) : Stays (newUse name) := fun _ h => h

theorem bind (hp : Stays p) (hf : ∀ a, Stays (f a)) : Stays (p >>= f) :=
  Respects.bind (fun first second h => second (first h)) hp hf

theorem map (g : α → β) (hp : Stays p) : Stays (g <$> p) := by
  rw [map_eq_pure_bind]
  exact hp.bind fun a => pure (g a)

theorem get {f : ParseState → Parse β} (hf : ∀ s, Stays (f s)) : Stays (MonadState.get >>= f) :=
  fun s => hf s s

theorem accepting {test : TokenType → Bool} {f : Option Token → Parse β}
    (other : test .semicolon = false) (no : Stays (f none))
    (yes : ∀ word, Stays (f (some word))) : Stays (acceptIf test >>= f) := by
  intro s h
  unfold stateAfter
  rw [bind_apply]
  obtain none | ⟨word, rest, read, -, -, more⟩ := h.acceptIf other
  · rw [none]
    exact no s h
  · rw [read]
    exact yes word { s with rest } more

theorem expect {type : TokenType} (other : type ≠ .semicolon) (fault : SyntaxFault) :
    Stays (expect type fault) :=
  accepting (by simpa using other.symm) (.raise fault) .pure

/-- No brace is there to be read. -/
theorem expectBrace (fault : SyntaxFault) (f : Token → Parse β) :
    Stays (Syntax.expect .leftBrace fault >>= f) := by
  intro s h
  unfold stateAfter
  rw [bind_apply]
  cases read : Syntax.expect .leftBrace fault s with
  | ok t u =>
    obtain ⟨rest, here, type, -⟩ := expect_ok read
    rw [here] at h
    exact absurd type h.ne_brace
  | error e t =>
    have other : TokenType.leftBrace ≠ .semicolon := nofun
    have stays := expect other fault s h
    rw [stateAfter_error read] at stays
    exact stays

theorem single {s : ParseState} (e : Expr) (h : Terminated s.rest)
    (other : s.peek.type ≠ .semicolon) : Terminated (stateAfter (Syntax.single e) s).rest := by
  cases here : s.rest with
  | nil => exact absurd here h.ne_nil
  | cons word rest =>
    rw [here] at h
    rw [ParseState.peek, here] at other
    change Terminated s.rest.tail
    rw [here]
    exact h.tail other

/-! ### Lists -/

theorem limited (fault : SyntaxFault) (hp : Stays p) (count : Nat) :
    Stays (limited fault p count) := by
  unfold Syntax.limited
  split
  · exact get fun s => (report _ _).bind fun _ => hp
  · exact hp

theorem moreItems (fault : SyntaxFault) (hp : Stays p) (n : Nat) (items : List α) :
    Stays (moreItems fault p n items) := by
  induction n generalizing items with
  | zero => exact pure items
  | succ n ih =>
    exact accepting rfl (pure items) fun _ => (hp.limited fault _).bind fun next => ih _

theorem itemsBeforeParen (fault : SyntaxFault) (hp : Stays p) (n : Nat) :
    Stays (itemsBeforeParen fault p n) := by
  refine get fun s => ?_
  split
  · exact pure []
  · exact hp.bind fun first => hp.moreItems fault n _

theorem moreOperands {operators : TokenType → Bool} (join : Expr → Token → Expr → Expr)
    (other : operators .semicolon = false) {operand : Parse Expr} (hp : Stays operand) (n : Nat)
    (left : Expr) : Stays (moreOperands operators join operand n left) := by
  induction n generalizing left with
  | zero => exact pure left
  | succ n ih => exact accepting other (pure left) fun _ => hp.bind fun right => ih _

theorem leftAssociative {operators : TokenType → Bool} {join : Expr → Token → Expr → Expr}
    (other : operators .semicolon = false) {operand : Parse Expr} (hp : Stays operand) (n : Nat) :
    Stays (leftAssociative operators join operand n) :=
  hp.bind fun first => hp.moreOperands join other n first

end Stays

/-! ### Expressions -/

section Rules

variable {r : Rules} (hr : r.Stops)

include hr

omit hr in
theorem stays_functionRest (form : FunctionForm) : Stays (functionRest r form) := by
  refine (Stays.expect (by nofun) _).bind fun _ => ?_
  refine ((Stays.expect (by nofun) _).itemsBeforeParen _ _).bind fun params => ?_
  exact (Stays.expect (by nofun) _).bind fun _ => .expectBrace _ _

theorem stays_primary : Stays (primary r) := by
  intro s h
  have single {e : Expr} {type : TokenType} (here : s.peek.type = type)
      (other : type ≠ .semicolon) : Terminated (stateAfter (Syntax.single e) s).rest :=
    Stays.single e h (here ▸ other)
  have use {e : Use → Expr} {type : TokenType} (here : s.peek.type = type)
      (other : type ≠ .semicolon) :
      Terminated (stateAfter (newUse s.peek >>= fun use => Syntax.single (e use)) s).rest :=
    Stays.single (s := { s with nextId := s.nextId + 1 }) (e ⟨s.nextId, s.peek⟩) h (here ▸ other)
  have opened {type : TokenType} {p : Parse Expr} (other : type ≠ .semicolon) (hp : Stays p) :
      Terminated (stateAfter (accept type >>= fun _ => p) s).rest :=
    Stays.accepting (by simpa using other.symm) hp (fun _ => hp) s h
  change Terminated (stateAfter (primaryAt r s.peek) s).rest
  unfold primaryAt
  split
  iterate 5 next type => exact single type (by nofun)
  next type => exact use type (by nofun)
  next type => exact use type (by nofun)
  · refine opened (by nofun) ((Stays.expect (by nofun) _).bind fun _ => ?_)
    refine (Stays.expect (by nofun) _).bind fun method => ?_
    exact (Stays.newUse _).bind fun _ => .pure _
  · exact opened (by nofun) ((stays_functionRest _).bind fun _ => .pure _)
  · refine opened (by nofun) (hr.expression.bind fun inner => ?_)
    exact (Stays.expect (by nofun) _).bind fun _ => .pure _
  · exact h

theorem stays_callRest (n : Nat) (e : Expr) : Stays (callRest r n e) := by
  induction n generalizing e with
  | zero => exact .pure e
  | succ n ih =>
    refine .accepting rfl (.pure e) fun mark => ?_
    dsimp only
    split
    · refine (hr.expression.itemsBeforeParen _ _).bind fun arguments => ?_
      exact (Stays.expect (by nofun) _).bind fun paren => ih _
    · exact (Stays.expect (by nofun) _).bind fun name => ih _

theorem stays_call : Stays (call r) :=
  (stays_primary hr).bind fun e => stays_callRest hr r.rounds e

theorem stays_unaryUpTo (n : Nat) : Stays (unaryUpTo r n) := by
  induction n with
  | zero => exact stays_call hr
  | succ n ih => exact .accepting rfl (stays_call hr) fun _ => ih.bind fun _ => .pure _

theorem stays_assignment : Stays (assignment r) := by
  have factor : Stays (factor r) := .leftAssociative rfl (stays_unaryUpTo hr _) _
  have comparison : Stays (comparison r) :=
    .leftAssociative rfl (.leftAssociative rfl factor _) _
  have logicalOr : Stays (logicalOr r) :=
    .leftAssociative rfl (.leftAssociative rfl (.leftAssociative rfl comparison _) _) _
  refine logicalOr.bind fun target => ?_
  refine .accepting rfl (.pure target) fun equals => hr.expression.bind fun value => ?_
  split
  · exact .pure _
  · exact (Stays.report _ _).bind fun _ => .pure _

/-! ### Statements -/

end Rules

namespace Settles

variable {p : Parse α} {f : α → Parse β}

theorem of_stays (hp : Stays p) : Settles p := by
  intro s h
  have after := hp s h
  unfold stateAfter at after
  cases run : p s with
  | ok a t =>
    rw [run] at after
    exact .inr after
  | error e t =>
    rw [run] at after
    exact after

theorem pure (a : α) : Settles (pure a : Parse α) := of_stays (.pure a)

/-- After a statement nothing is left, or the statement is not the last. -/
theorem bind (hp : Settles p) (ends : ∀ a (s : ParseState), s.rest = [] → Ends (f a s))
    (hf : ∀ a, Settles (f a)) : Settles (p >>= f) := by
  intro s h
  have first := hp s h
  cases run : p s with
  | error e t =>
    rw [run] at first
    rw [bind_of_error run]
    exact first
  | ok a t =>
    rw [run] at first
    rw [bind_of_ok run]
    obtain ended | more := first
    · exact ends a t ended
    · exact hf a t more

theorem bind_pure (hp : Settles p) (g : α → β) : Settles (p >>= fun a => Pure.pure (g a)) :=
  hp.bind (fun _ _ ended => .inl ended) fun a => pure (g a)

theorem map (g : α → β) (hp : Settles p) : Settles (g <$> p) := by
  rw [map_eq_pure_bind]
  exact hp.bind_pure g

theorem after (hp : Stays p) (hf : ∀ a, Settles (f a)) : Settles (p >>= f) := by
  intro s h
  have first := hp s h
  unfold stateAfter at first
  cases run : p s with
  | error e t =>
    rw [run] at first
    rw [bind_of_error run]
    exact first
  | ok a t =>
    rw [run] at first
    rw [bind_of_ok run]
    exact hf a t first

theorem get {f : ParseState → Parse β} (hf : ∀ s, Settles (f s)) :
    Settles (MonadState.get >>= f) := fun s h => hf s s h

theorem semicolon (fault : SyntaxFault) : Settles (expect .semicolon fault) := by
  intro s h
  cases here : s.rest with
  | nil => exact absurd here h.ne_nil
  | cons word rest =>
    by_cases type : word.type = .semicolon
    · rw [expect_of_some here type]
      rw [here] at h
      exact .inl (h.ended type)
    · have missing : expect .semicolon fault s = .error ⟨s.peek, fault⟩ s := by
        refine bind_of_ok (accept_of_none ?_)
        rw [here]
        rintro _ _ ⟨⟩
        exact type
      rw [missing]
      exact h

theorem accepting {test : TokenType → Bool} {f : Option Token → Parse β}
    (other : test .semicolon = false) (no : Settles (f none))
    (yes : ∀ word, word.type ≠ .leftBrace → word.type ≠ .kwFor → Settles (f (some word))) :
    Settles (acceptIf test >>= f) := by
  intro s h
  rw [bind_apply]
  obtain none | ⟨word, rest, read, brace, «for», more⟩ := h.acceptIf other
  · rw [none]
    exact no s h
  · rw [read]
    exact yes word brace «for» { s with rest } more

theorem insideLoop (hp : Settles p) : Settles (insideLoop p) := by
  intro s h
  have inner := hp { s with loopDepth := s.loopDepth + 1 } h
  unfold Syntax.insideLoop
  cases run : p { s with loopDepth := s.loopDepth + 1 } <;> rw [run] at inner <;> exact inner

end Settles

section Rules

variable {r : Rules} (hr : r.Stops)

include hr

omit hr in
theorem settles_expressionStatement {p : Parse Expr} (hp : Stays p) :
    Settles (expressionStatement p) :=
  .after hp fun e => (Settles.semicolon _).bind_pure fun _ => Stmt.expression e

theorem settles_variableDeclaration : Settles (variableDeclaration r) := by
  refine .after (Stays.expect (by nofun) _) fun name => ?_
  refine .accepting rfl ?_ fun _ _ _ => ?_
  · exact .after (Stays.pure none) fun _ => (Settles.semicolon _).bind_pure _
  · exact .after (hr.expression.map some) fun _ => (Settles.semicolon _).bind_pure _

theorem settles_ifStatement : Settles (ifStatement r) := by
  refine .after (Stays.expect (by nofun) _) fun _ => ?_
  refine .after hr.expression fun condition => ?_
  refine .after (Stays.expect (by nofun) _) fun _ => ?_
  refine hr.statement.bind (fun thenBranch s ended => ?_) fun thenBranch => ?_
  · -- The branch ended with the semicolon, so no `else` is there.
    rw [bind_of_ok (accept_of_none (by rw [ended]; nofun))]
    exact .inl ended
  · refine .accepting rfl ?_ fun _ _ _ => ?_
    · exact (Settles.pure none).bind_pure _
    · exact (hr.statement.map some).bind_pure _

theorem settles_whileStatement : Settles (whileStatement r) := by
  refine .after (Stays.expect (by nofun) _) fun _ => ?_
  refine .after hr.expression fun condition => ?_
  refine .after (Stays.expect (by nofun) _) fun _ => ?_
  exact hr.statement.insideLoop.bind_pure _

theorem stays_unlessNext (type : TokenType) : Stays (unlessNext type r) := by
  refine .get fun s => ?_
  split
  · exact .pure none
  · exact hr.expression.map some

theorem settles_returnStatement (keyword : Token) : Settles (returnStatement keyword r) :=
  .after (stays_unlessNext hr _) fun _ => (Settles.semicolon _).bind_pure _

omit hr in
theorem settles_breakStatement (keyword : Token) : Settles (breakStatement keyword) := by
  refine .get fun s => ?_
  dsimp only
  split
  · exact .after (Stays.report _ _) fun _ => (Settles.semicolon _).bind_pure _
  · exact (Settles.semicolon _).bind_pure _

theorem settles_printStatement : Settles (printStatement r) :=
  .after hr.expression fun _ => (Settles.semicolon _).bind_pure _

theorem settles_statement : Settles (statement r) := by
  refine .accepting rfl (settles_expressionStatement (stays_assignment hr))
    fun keyword brace «for» => ?_
  dsimp only
  split
  next type => exact absurd type «for»
  · exact settles_ifStatement hr
  · exact settles_whileStatement hr
  · exact settles_returnStatement hr keyword
  · exact settles_breakStatement keyword
  next type => exact absurd type brace
  · exact settles_printStatement hr

omit hr in
theorem stays_classDeclaration : Stays (classDeclaration r) := by
  refine (Stays.expect (by nofun) _).bind fun name => ?_
  refine .accepting rfl ?_ fun _ => ?_
  · exact (Stays.pure none).bind fun superclass => .expectBrace _ _
  · refine (Stays.expect (by nofun) _).bind fun superName => ?_
    exact ((Stays.newUse superName).map some).bind fun superclass => .expectBrace _ _

theorem settles_declaration : Settles (declaration r) := by
  refine .get fun s => ?_
  split
  · refine .of_stays (Stays.accepting rfl ?_ fun _ => ?_)
    all_goals
      refine Stays.map _ ((Stays.expect (by nofun) _).bind fun name => ?_)
      exact (stays_functionRest _).bind fun _ => .pure _
  · refine .accepting rfl (settles_statement hr) fun keyword _ _ => ?_
    dsimp only
    split
    · exact .of_stays stays_classDeclaration
    · exact settles_variableDeclaration hr

end Rules

/-! ### All levels -/

theorem stops_rules (n : Nat) : (rules n).Stops := by
  induction n with
  | zero => exact ⟨.raise _, .of_stays (.raise _)⟩
  | succ n ih => exact ⟨stays_assignment ih, settles_statement ih⟩

end Lox.Syntax
