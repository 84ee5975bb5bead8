import Lox.Proofs.Alike
import Lox.Proofs.Steps
import Lox.Syntax.Parser

/-!
# Texts that are read alike

Texts whose tokens differ at most in their lines give programs that are alike, or the same errors,
whatever number the uses begin with: `parse_alike` and `parsePrompt_alike`.
-/

namespace Lox

/-- Two tokens that differ at most in their lines, the first with a known name. -/
structure Pairing.Reads (P : Pairing) (t t' : Token) : Prop where
  tokens : P.Tokens t t'
  known : P.names t.lexeme

structure Pairing.Mistakes (P : Pairing) (e e' : SyntaxError) : Prop where
  token : P.Tokens e.token e'.token
  fault : e'.fault = e.fault

theorem Pairing.Reads.named {P : Pairing} {t t' : Token} (h : P.Reads t t') :
    P.Named (Equiv.refl String) t t' :=
  ⟨h.tokens.type, h.tokens.lexeme, h.known, h.tokens.line⟩

theorem Pairing.Reads.uses {P : Pairing} {t t' : Token} (h : P.Reads t t') {i i' : Nat}
    (ids : P.ids i i') : P.Uses .plain ⟨i, t⟩ ⟨i', t'⟩ := by
  refine ⟨ids, h.tokens.type, fun d _ => ?_, h.known, h.tokens.line⟩
  rw [Renamings.at?_plain]
  exact h.tokens.lexeme

theorem Expr.AllAlike.of_forall₂ {P : Pairing} {Γ : Renamings} {es es' : List Expr}
    (h : List.Forall₂ (Expr.Alike P Γ) es es') : Expr.AllAlike P Γ es es' := by
  induction h with
  | nil => exact .nil
  | cons first _ ih => exact .cons first ih

theorem FunctionDecl.AllAlike.of_forall₂ {P : Pairing} {Γ : Renamings} {fs fs' : List FunctionDecl}
    (h : List.Forall₂ (FunctionDecl.Alike P Γ) fs fs') : FunctionDecl.AllAlike P Γ fs fs' := by
  induction h with
  | nil => exact .nil
  | cons first _ ih => exact .cons first ih

theorem Stmt.AllAlike.append {P : Pairing} {Γ : Renamings} {ss ss' ts ts' : List Stmt}
    (h : Stmt.AllAlike P Γ ss ss') (h' : Stmt.AllAlike P Γ ts ts') :
    Stmt.AllAlike P Γ (ss ++ ts) (ss' ++ ts') := by
  induction ss generalizing ss' with
  | nil =>
    cases h
    exact h'
  | cons s ss ih =>
    obtain _ | ⟨first, rest⟩ := h
    exact .cons first (ih rest)

namespace Syntax

/-- States of two parsers that have read as much, whose uses are numbered from `n` and `n'`. -/
structure ParseState.Alike (P : Pairing) (n n' : Nat) (s s' : ParseState) : Prop where
  rest : List.Forall₂ P.Reads s.rest s'.rest
  endLine : P.lines s.endLine s'.endLine
  loopDepth : s'.loopDepth = s.loopDepth
  nextId : ∃ k, s.nextId = n + k ∧ s'.nextId = n' + k
  errors : List.Forall₂ P.Mistakes s.errors s'.errors

/-- What two parsers end with: results that are related, or the same error. -/
inductive ParseEnds (P : Pairing) (n n' : Nat) {α β : Type} (R : α → β → Prop) :
    EStateM.Result SyntaxError ParseState α → EStateM.Result SyntaxError ParseState β → Prop
  | ok {a b s s'} : R a b → s.Alike P n n' s' → ParseEnds P n n' R (.ok a s) (.ok b s')
  | error {e e' s s'} : P.Mistakes e e' → s.Alike P n n' s' →
    ParseEnds P n n' R (.error e s) (.error e' s')

def ParsesAlike (P : Pairing) (n n' : Nat) {α β : Type} (R : α → β → Prop) (p : Parse α)
    (p' : Parse β) : Prop :=
  ∀ s s', s.Alike P n n' s' → ParseEnds P n n' R (p s) (p' s')

def TotalsAlike (P : Pairing) (n n' : Nat) {α β : Type} (R : α → β → Prop) (p : Total α)
    (p' : Total β) : Prop :=
  ∀ s s', s.Alike P n n' s' → R (p s).1 (p' s').1 ∧ (p s).2.Alike P n n' (p' s').2

section Parsers

variable {P : Pairing} {n n' : Nat} {α β γ δ : Type} {R : α → β → Prop} {S : γ → δ → Prop}

/-! ### What a state shows -/

namespace ParseState.Alike

variable {s s' : ParseState} (h : s.Alike P n n' s')

include h

theorem peek : P.Tokens s.peek s'.peek := by
  unfold ParseState.peek
  have rest := h.rest
  revert rest
  cases s.rest <;> cases s'.rest <;> intro rest
  · exact ⟨rfl, rfl, h.endLine⟩
  · cases rest
  · cases rest
  · exact (List.forall₂_cons.mp rest).1.tokens

theorem reads_peek (more : s.peek.type ≠ .eof) : P.Reads s.peek s'.peek := by
  refine ⟨h.peek, ?_⟩
  unfold ParseState.peek at more ⊢
  have rest := h.rest
  revert rest more
  cases s.rest <;> cases s'.rest <;> intro more rest
  · exact absurd rfl more
  · cases rest
  · cases rest
  · exact (List.forall₂_cons.mp rest).1.known

theorem atEnd : s'.atEnd = s.atEnd := by
  unfold ParseState.atEnd
  have rest := h.rest
  revert rest
  cases s.rest <;> cases s'.rest <;> intro rest <;> cases rest <;> rfl

theorem head?_any (test : TokenType → Bool) :
    (s'.rest.head?.any fun t => test t.type) = s.rest.head?.any fun t => test t.type := by
  have rest := h.rest
  revert rest
  cases s.rest <;> cases s'.rest <;> intro rest
  · rfl
  · cases rest
  · cases rest
  · exact congrArg test (List.forall₂_cons.mp rest).1.tokens.type

theorem nextIs (type : TokenType) : s'.nextIs type = s.nextIs type := h.head?_any (· == type)

theorem tail : ({ s with rest := s.rest.tail } : ParseState).Alike P n n'
    { s' with rest := s'.rest.tail } := by
  refine ⟨?_, h.endLine, h.loopDepth, h.nextId, h.errors⟩
  have rest := h.rest
  revert rest
  cases s.rest <;> cases s'.rest <;> intro rest
  · exact .nil
  · cases rest
  · cases rest
  · exact (List.forall₂_cons.mp rest).2

theorem secondIs (type : TokenType) : s'.secondIs type = s.secondIs type := by
  have second (ts : List Token) : ts[1]? = ts.tail.head? := by
    rw [List.head?_tail]
  unfold ParseState.secondIs
  rw [second, second]
  exact h.tail.head?_any (· == type)

theorem atFunction : s'.atFunction = s.atFunction := by
  unfold ParseState.atFunction
  rw [h.nextIs, h.secondIs]

theorem atStatement : s'.atStatement = s.atStatement := by
  rw [ParseState.atStatement_eq, ParseState.atStatement_eq, h.atFunction, h.nextIs, h.nextIs, h.head?_any opensStatement]

theorem report {e e' : SyntaxError} (mistakes : P.Mistakes e e') :
    (s.report e).Alike P n n' (s'.report e') :=
  ⟨h.rest, h.endLine, h.loopDepth, h.nextId,
    List.rel_append h.errors (.cons mistakes .nil)⟩

end ParseState.Alike

theorem toBoundary_alike {t t' : Token} (previous : P.Tokens t t') {ts ts' : List Token}
    (rest : List.Forall₂ P.Reads ts ts') :
    List.Forall₂ P.Reads (toBoundary t ts) (toBoundary t' ts') := by
  induction rest generalizing t t' with
  | nil => exact .nil
  | cons first rest ih =>
    unfold toBoundary
    rw [previous.type, first.tokens.type]
    split
    · exact .cons first rest
    · exact ih first.tokens

theorem synchronize_alike {ts ts' : List Token} (rest : List.Forall₂ P.Reads ts ts') :
    List.Forall₂ P.Reads (synchronize ts) (synchronize ts') := by
  cases rest with
  | nil => exact .nil
  | cons first rest => exact toBoundary_alike first.tokens rest

/-! ### Basic parsers -/

namespace ParsesAlike

theorem pure {a : α} {b : β} (h : R a b) : ParsesAlike P n n' R (pure a) (pure b) :=
  fun _ _ alike => .ok h alike

theorem bind {p : Parse α} {p' : Parse β} {f : α → Parse γ} {f' : β → Parse δ}
    (hp : ParsesAlike P n n' R p p')
    (hf : ∀ a b, R a b → ParsesAlike P n n' S (f a) (f' b)) :
    ParsesAlike P n n' S (p >>= f) (p' >>= f') := by
  intro s s' alike
  rw [bind_apply, bind_apply]
  have first := hp s s' alike
  revert first
  cases p s <;> cases p' s' <;> intro first
  · obtain ⟨related, later⟩ | _ := first
    exact hf _ _ related _ _ later
  · cases first
  · cases first
  · obtain _ | ⟨mistakes, later⟩ := first
    exact .error mistakes later

theorem map {p : Parse α} {p' : Parse β} {f : α → γ} {f' : β → δ} (hp : ParsesAlike P n n' R p p')
    (hf : ∀ a b, R a b → S (f a) (f' b)) : ParsesAlike P n n' S (f <$> p) (f' <$> p') := by
  rw [map_eq_pure_bind, map_eq_pure_bind]
  exact hp.bind fun a b related => pure (hf a b related)

theorem get {f : ParseState → Parse α} {f' : ParseState → Parse β}
    (h : ∀ s s', s.Alike P n n' s' → ParsesAlike P n n' R (f s) (f' s')) :
    ParsesAlike P n n' R (get >>= f) (get >>= f') :=
  fun s s' alike => h s s' alike s s' alike

end ParsesAlike

namespace TotalsAlike

theorem pure {a : α} {b : β} (h : R a b) : TotalsAlike P n n' R (pure a) (pure b) :=
  fun _ _ alike => ⟨h, alike⟩

theorem bind {p : Total α} {p' : Total β} {f : α → Total γ} {f' : β → Total δ}
    (hp : TotalsAlike P n n' R p p')
    (hf : ∀ a b, R a b → TotalsAlike P n n' S (f a) (f' b)) :
    TotalsAlike P n n' S (p >>= f) (p' >>= f') := by
  intro s s' alike
  obtain ⟨related, later⟩ := hp s s' alike
  exact hf _ _ related _ _ later

theorem get {f : ParseState → Total α} {f' : ParseState → Total β}
    (h : ∀ s s', s.Alike P n n' s' → TotalsAlike P n n' R (f s) (f' s')) :
    TotalsAlike P n n' R (get >>= f) (get >>= f') :=
  fun s s' alike => h s s' alike s s' alike

end TotalsAlike

theorem acceptIf_alike (test : TokenType → Bool) :
    ParsesAlike P n n' (Option.Rel P.Reads) (acceptIf test) (Syntax.acceptIf test) := by
  intro s s' alike
  have rest := alike.rest
  unfold Syntax.acceptIf
  revert rest
  cases here : s.rest <;> cases there : s'.rest <;> intro rest
  · exact .ok .none alike
  · cases rest
  · cases rest
  rename_i t ts t' ts'
  obtain ⟨first, others⟩ := List.forall₂_cons.mp rest
  dsimp only
  rw [first.tokens.type]
  cases test t.type with
  | true =>
    exact .ok (.some first) ⟨others, alike.endLine, alike.loopDepth, alike.nextId, alike.errors⟩
  | false => exact .ok .none alike

theorem accept_alike (type : TokenType) :
    ParsesAlike P n n' (Option.Rel P.Reads) (accept type) (Syntax.accept type) := acceptIf_alike _

theorem raise_alike (fault : SyntaxFault) :
    ParsesAlike P n n' R (raise fault : Parse α) (Syntax.raise fault : Parse β) :=
  fun _ _ alike => .error ⟨alike.peek, rfl⟩ alike

theorem report_alike {t t' : Token} (tokens : P.Tokens t t') (fault : SyntaxFault) :
    ParsesAlike P n n' (fun _ _ => True) (report t fault) (Syntax.report t' fault) :=
  fun _ _ alike => .ok trivial (alike.report ⟨tokens, rfl⟩)

theorem expect_alike (type : TokenType) (fault : SyntaxFault) :
    ParsesAlike P n n' P.Reads (expect type fault) (Syntax.expect type fault) := by
  refine (accept_alike type).bind fun t t' token => ?_
  cases token with
  | some token => exact .pure token
  | none => exact raise_alike fault

theorem newUse_alike (counted : ∀ k, P.ids (n + k) (n' + k)) {t t' : Token} (reads : P.Reads t t') :
    ParsesAlike P n n' (P.Uses .plain) (newUse t) (Syntax.newUse t') := by
  intro s s' alike
  obtain ⟨k, count, count'⟩ := alike.nextId
  refine .ok (reads.uses ?_) ⟨alike.rest, alike.endLine, alike.loopDepth, ⟨k + 1, ?_, ?_⟩,
    alike.errors⟩
  · rw [count, count']
    exact counted k
  · exact congrArg (· + 1) count
  · exact congrArg (· + 1) count'

theorem single_alike {e e' : Expr} (h : e.Alike P .plain e') :
    ParsesAlike P n n' (Expr.Alike P .plain) (single e) (Syntax.single e') :=
  fun _ _ alike => .ok h alike.tail

theorem insideLoop_alike {p : Parse α} {p' : Parse β} (hp : ParsesAlike P n n' R p p') :
    ParsesAlike P n n' R (insideLoop p) (Syntax.insideLoop p') := by
  intro s s' alike
  have inner := hp { s with loopDepth := s.loopDepth + 1 } { s' with loopDepth := s'.loopDepth + 1 }
    ⟨alike.rest, alike.endLine, congrArg (· + 1) alike.loopDepth, alike.nextId, alike.errors⟩
  unfold Syntax.insideLoop
  revert inner
  cases p { s with loopDepth := s.loopDepth + 1 } <;>
    cases p' { s' with loopDepth := s'.loopDepth + 1 } <;> intro inner
  · obtain ⟨related, later⟩ | _ := inner
    exact .ok related ⟨later.rest, later.endLine, congrArg (· - 1) later.loopDepth, later.nextId,
      later.errors⟩
  · cases inner
  · cases inner
  · obtain _ | ⟨mistakes, later⟩ := inner
    exact .error mistakes ⟨later.rest, later.endLine, congrArg (· - 1) later.loopDepth,
      later.nextId, later.errors⟩

theorem insideFunction_alike {p : Parse α} {p' : Parse β} (hp : ParsesAlike P n n' R p p') :
    ParsesAlike P n n' R (insideFunction p) (Syntax.insideFunction p') := by
  intro s s' alike
  have inner := hp { s with loopDepth := 0 } { s' with loopDepth := 0 }
    ⟨alike.rest, alike.endLine, rfl, alike.nextId, alike.errors⟩
  unfold Syntax.insideFunction
  revert inner
  cases p { s with loopDepth := 0 } <;> cases p' { s' with loopDepth := 0 } <;> intro inner
  · obtain ⟨related, later⟩ | _ := inner
    exact .ok related ⟨later.rest, later.endLine, alike.loopDepth, later.nextId, later.errors⟩
  · cases inner
  · cases inner
  · obtain _ | ⟨mistakes, later⟩ := inner
    exact .error mistakes ⟨later.rest, later.endLine, alike.loopDepth, later.nextId,
      later.errors⟩

theorem recover_alike {p : Parse α} {p' : Parse β} (hp : ParsesAlike P n n' R p p') :
    TotalsAlike P n n' (Option.Rel R) (recover p) (Syntax.recover p') := by
  intro s s' alike
  have inner := hp s s' alike
  unfold Syntax.recover
  revert inner
  cases p s <;> cases p' s' <;> intro inner
  · obtain ⟨related, later⟩ | _ := inner
    exact ⟨.some related, later⟩
  · cases inner
  · cases inner
  · obtain _ | ⟨mistakes, later⟩ := inner
    have reported := later.report mistakes
    exact ⟨.none, synchronize_alike later.rest, reported.endLine, reported.loopDepth,
      reported.nextId, reported.errors⟩

theorem toParse_alike {p : Total α} {p' : Total β}
    (hp : TotalsAlike P n n' R p p') : ParsesAlike P n n' R p.toParse p'.toParse :=
  fun s s' alike => .ok (hp s s' alike).1 (hp s s' alike).2

/-! ### Lists -/

theorem limited_alike (fault : SyntaxFault) {item : Parse α} {item' : Parse β}
    (hitem : ParsesAlike P n n' R item item') (count : Nat) :
    ParsesAlike P n n' R (limited fault item count) (Syntax.limited fault item' count) := by
  unfold Syntax.limited
  split
  · refine .get fun s s' alike => ?_
    exact (report_alike alike.peek fault).bind fun _ _ _ => hitem
  · exact hitem

theorem moreItems_alike (fault : SyntaxFault) {item : Parse α} {item' : Parse β}
    (hitem : ParsesAlike P n n' R item item') (k : Nat) {items : List α} {items' : List β}
    (h : List.Forall₂ R items items') :
    ParsesAlike P n n' (List.Forall₂ R) (moreItems fault item k items)
      (Syntax.moreItems fault item' k items') := by
  induction k generalizing items items' with
  | zero => exact .pure h
  | succ k ih =>
    refine (accept_alike .comma).bind fun comma comma' read => ?_
    cases read with
    | none => exact .pure h
    | some read =>
      rw [h.length_eq]
      refine (limited_alike fault hitem _).bind fun next next' related => ?_
      exact ih (List.rel_append h (.cons related .nil))

theorem itemsBeforeParen_alike (fault : SyntaxFault) {item : Parse α} {item' : Parse β}
    (hitem : ParsesAlike P n n' R item item') (k : Nat) :
    ParsesAlike P n n' (List.Forall₂ R) (itemsBeforeParen fault item k)
      (Syntax.itemsBeforeParen fault item' k) := by
  refine .get fun s s' alike => ?_
  rw [alike.nextIs]
  split
  · exact .pure .nil
  · exact hitem.bind fun first first' related => moreItems_alike fault hitem k (.cons related .nil)

theorem moreOperands_alike (operators : TokenType → Bool) {join : Expr → Token → Expr → Expr}
    (hjoin : ∀ {l l' t t' r r'}, l.Alike P .plain l' → P.Tokens t t' → r.Alike P .plain r' →
      (join l t r).Alike P .plain (join l' t' r'))
    {operand operand' : Parse Expr}
    (hoperand : ParsesAlike P n n' (Expr.Alike P .plain) operand operand') (k : Nat)
    {left left' : Expr} (h : left.Alike P .plain left') :
    ParsesAlike P n n' (Expr.Alike P .plain) (moreOperands operators join operand k left)
      (Syntax.moreOperands operators join operand' k left') := by
  induction k generalizing left left' with
  | zero => exact .pure h
  | succ k ih =>
    refine (acceptIf_alike operators).bind fun operator operator' read => ?_
    cases read with
    | none => exact .pure h
    | some read => exact hoperand.bind fun right right' alike => ih (hjoin h read.tokens alike)

theorem leftAssociative_alike (operators : TokenType → Bool) {join : Expr → Token → Expr → Expr}
    (hjoin : ∀ {l l' t t' r r'}, l.Alike P .plain l' → P.Tokens t t' → r.Alike P .plain r' →
      (join l t r).Alike P .plain (join l' t' r'))
    {operand operand' : Parse Expr}
    (hoperand : ParsesAlike P n n' (Expr.Alike P .plain) operand operand') (k : Nat) :
    ParsesAlike P n n' (Expr.Alike P .plain) (leftAssociative operators join operand k)
      (Syntax.leftAssociative operators join operand' k) :=
  hoperand.bind fun _ _ first => moreOperands_alike operators hjoin hoperand k first

end Parsers

/-! ### Rules -/

structure Rules.Alike (P : Pairing) (n n' : Nat) (r : Rules) : Prop where
  expression : ParsesAlike P n n' (Expr.Alike P .plain) r.expression r.expression
  statement : ParsesAlike P n n' (Stmt.Alike P .plain) r.statement r.statement
  declaration : TotalsAlike P n n' (Option.Rel (Stmt.Alike P .plain)) r.declaration r.declaration

namespace Rules.Alike

variable {P : Pairing} {n n' : Nat} {r : Rules} (hr : r.Alike P n n')

include hr

theorem declarations {stop : ParseState → Bool}
    (same : ∀ s s', s.Alike P n n' s' → stop s' = stop s) (k : Nat) :
    TotalsAlike P n n' (Stmt.AllAlike P .plain) (declarations r stop k)
      (Syntax.declarations r stop k) := by
  induction k with
  | zero => exact .pure .nil
  | succ k ih =>
    refine .get fun s s' alike => ?_
    rw [same s s' alike]
    split
    · exact .pure .nil
    refine hr.declaration.bind fun first first' h => ?_
    refine ih.bind fun others others' rest => .pure ?_
    cases h with
    | some h => exact .cons h rest
    | none => exact rest

theorem block : ParsesAlike P n n' (Stmt.AllAlike P .plain) (block r) (Syntax.block r) := by
  have same (s s' : ParseState) (alike : s.Alike P n n' s') :
      (s'.atEnd || s'.nextIs .rightBrace) = (s.atEnd || s.nextIs .rightBrace) := by
    rw [alike.atEnd, alike.nextIs]
  have body := hr.declarations same r.rounds
  exact (toParse_alike body).bind fun ss ss' alike => (expect_alike _ _).bind fun _ _ _ => .pure alike

theorem functionRest (form : FunctionForm) :
    ParsesAlike P n n' (fun a b => List.Forall₂ (P.Named (Equiv.refl String)) a.1 b.1 ∧
      Stmt.AllAlike P .plain a.2 b.2) (functionRest r form) (Syntax.functionRest r form) := by
  refine (expect_alike _ _).bind fun _ _ _ => ?_
  refine (itemsBeforeParen_alike _ (expect_alike _ _) _).bind fun params params' reads => ?_
  refine (expect_alike _ _).bind fun _ _ _ => ?_
  refine (expect_alike _ _).bind fun _ _ _ => ?_
  refine (insideFunction_alike hr.block).bind fun body body' alike => ?_
  exact .pure ⟨reads.imp fun _ _ h => h.named, alike⟩

variable (lawful : P.Lawful)

include lawful

theorem function (form : FunctionForm) :
    ParsesAlike P n n' (fun f f' => f.Alike P .plain f' ∧ P.Reads f.name f'.name) (function r form)
      (Syntax.function r form) := by
  refine (expect_alike _ _).bind fun name name' reads => ?_
  refine (hr.functionRest form).bind fun rest rest' alike => ?_
  refine .pure ⟨.mk reads.tokens lawful.refl alike.1 ?_, reads⟩
  rw [Renamings.push_plain]
  exact alike.2

variable (counted : ∀ k, P.ids (n + k) (n' + k))

include counted

theorem primary : ParsesAlike P n n' (Expr.Alike P .plain) (primary r) (Syntax.primary r) := by
  refine .get fun s s' alike => ?_
  have reads := alike.reads_peek
  dsimp only
  rw [alike.peek.type]
  revert reads
  cases s.peek.type <;> intro reads
  case kwFalse => exact single_alike .literal
  case kwTrue => exact single_alike .literal
  case kwNil => exact single_alike .literal
  case number => exact single_alike .literal
  case string => exact single_alike .literal
  case kwThis => exact (newUse_alike counted (reads nofun)).bind fun _ _ use => single_alike (.this use)
  case identifier => exact (newUse_alike counted (reads nofun)).bind fun _ _ use => single_alike (.variable use)
  case kwSuper =>
    refine (accept_alike _).bind fun _ _ _ => ?_
    refine (expect_alike _ _).bind fun _ _ _ => ?_
    refine (expect_alike _ _).bind fun _ _ method => ?_
    exact (newUse_alike counted (reads nofun)).bind fun _ _ use => .pure (.super use method.tokens)
  case kwFun =>
    refine (accept_alike _).bind fun _ _ _ => ?_
    refine (hr.functionRest _).bind fun rest rest' alike => .pure ?_
    refine .lambda lawful.refl alike.1 ?_
    rw [Renamings.push_plain]
    exact alike.2
  case leftParen =>
    refine (accept_alike _).bind fun _ _ _ => ?_
    refine hr.expression.bind fun _ _ inner => ?_
    exact (expect_alike _ _).bind fun _ _ _ => .pure (.grouping inner)
  all_goals exact raise_alike _

omit lawful counted in
theorem callRest (k : Nat) {e e' : Expr} (h : e.Alike P .plain e') :
    ParsesAlike P n n' (Expr.Alike P .plain) (callRest r k e) (Syntax.callRest r k e') := by
  induction k generalizing e e' with
  | zero => exact .pure h
  | succ k ih =>
    refine (acceptIf_alike _).bind fun mark mark' read => ?_
    cases read with
    | none => exact .pure h
    | some read =>
      dsimp only
      rw [read.tokens.type]
      split
      · refine (itemsBeforeParen_alike _ hr.expression _).bind fun _ _ arguments => ?_
        refine (expect_alike _ _).bind fun _ _ paren => ih ?_
        exact .call h paren.tokens (.of_forall₂ arguments)
      · exact (expect_alike _ _).bind fun _ _ name => ih (.get h name.tokens)

theorem call : ParsesAlike P n n' (Expr.Alike P .plain) (call r) (Syntax.call r) :=
  (hr.primary lawful counted).bind fun _ _ first => hr.callRest _ first

theorem unaryUpTo (k : Nat) :
    ParsesAlike P n n' (Expr.Alike P .plain) (unaryUpTo r k) (Syntax.unaryUpTo r k) := by
  induction k with
  | zero => exact hr.call lawful counted
  | succ k ih =>
    refine (acceptIf_alike _).bind fun operator operator' read => ?_
    cases read with
    | none => exact hr.call lawful counted
    | some read => exact ih.bind fun _ _ operand => .pure (.unary read.tokens operand)

theorem logicalOr :
    ParsesAlike P n n' (Expr.Alike P .plain) (logicalOr r) (Syntax.logicalOr r) := by
  have unary : ParsesAlike P n n' (Expr.Alike P .plain) (Syntax.unary r) (Syntax.unary r) :=
    hr.unaryUpTo lawful counted r.rounds
  have factor := leftAssociative_alike (fun type => type == .star || type == .slash) .binary unary
    r.rounds
  have term := leftAssociative_alike (fun type => type == .minus || type == .plus) .binary factor
    r.rounds
  have comparison := leftAssociative_alike isComparison .binary term r.rounds
  have equality := leftAssociative_alike (fun type => type == .bangEqual || type == .equalEqual) .binary
    comparison r.rounds
  have conjunction := leftAssociative_alike (· == .kwAnd) .logical equality r.rounds
  exact leftAssociative_alike (· == .kwOr) .logical conjunction r.rounds

omit hr lawful counted in
theorem assignTo? {value value' target target' : Expr} (hvalue : value.Alike P .plain value')
    (htarget : target.Alike P .plain target') :
    Option.Rel (Expr.Alike P .plain) (assignTo? value target) (Syntax.assignTo? value' target') := by
  cases htarget with
  | «variable» use => exact .some (.assign use hvalue)
  | get object name => exact .some (.set object name hvalue)
  | _ => exact .none

theorem assignment :
    ParsesAlike P n n' (Expr.Alike P .plain) (assignment r) (Syntax.assignment r) := by
  refine (hr.logicalOr lawful counted).bind fun target target' htarget => ?_
  refine (accept_alike _).bind fun equals equals' read => ?_
  cases read with
  | none => exact .pure htarget
  | some read =>
    refine hr.expression.bind fun value value' hvalue => ?_
    have assigned := assignTo? hvalue htarget
    revert assigned
    cases Syntax.assignTo? value target <;> cases Syntax.assignTo? value' target' <;> intro assigned
    · exact (report_alike read.tokens _).bind fun _ _ _ => .pure htarget
    · cases assigned
    · cases assigned
    · obtain assigned | _ := assigned
      exact .pure assigned

/-! ### Statements -/

omit hr lawful counted in
theorem expressionStatement {p : Parse Expr} (hp : ParsesAlike P n n' (Expr.Alike P .plain) p p) :
    ParsesAlike P n n' (Stmt.Alike P .plain) (expressionStatement p)
      (Syntax.expressionStatement p) :=
  hp.bind fun _ _ alike => (expect_alike _ _).bind fun _ _ _ => .pure (.expression alike)

omit lawful counted in
theorem variableDeclaration :
    ParsesAlike P n n' (Stmt.Alike P .plain) (variableDeclaration r)
      (Syntax.variableDeclaration r) := by
  refine (expect_alike _ _).bind fun name name' reads => ?_
  refine (accept_alike _).bind fun equal equal' read => ?_
  cases read with
  | none =>
    refine (ParsesAlike.pure (R := fun a b => a = none ∧ b = none) ⟨rfl, rfl⟩).bind ?_
    rintro _ _ ⟨rfl, rfl⟩
    exact (expect_alike _ _).bind fun _ _ _ => .pure (.var reads.named)
  | some read =>
    refine (hr.expression.map (S := Option.Rel (Expr.Alike P .plain)) fun _ _ => .some).bind
      fun initializer initializer' alike => ?_
    refine (expect_alike _ _).bind fun _ _ _ => .pure ?_
    cases alike with
    | some alike => exact .varWith reads.named alike
    | none => exact .var reads.named

omit lawful counted in
theorem unlessNext (type : TokenType) :
    ParsesAlike P n n' (Option.Rel (Expr.Alike P .plain)) (unlessNext type r)
      (Syntax.unlessNext type r) := by
  refine .get fun s s' alike => ?_
  rw [alike.nextIs]
  split
  · exact .pure .none
  · exact hr.expression.map fun _ _ => .some

omit hr counted in
theorem forLoop {initializer initializer' : Option Stmt} {condition condition' : Option Expr}
    {increment increment' : Option Expr} {body body' : Stmt}
    (hinitializer : Option.Rel (Stmt.Alike P .plain) initializer initializer')
    (hcondition : Option.Rel (Expr.Alike P .plain) condition condition')
    (hincrement : Option.Rel (Expr.Alike P .plain) increment increment')
    (hbody : body.Alike P .plain body') :
    (forLoop initializer condition increment body).Alike P .plain
      (Syntax.forLoop initializer' condition' increment' body') := by
  have block {s s' t t' : Stmt} (h : s.Alike P .plain s') (h' : t.Alike P .plain t') :
      (Stmt.block [s, t]).Alike P .plain (.block [s', t']) := by
    refine .block lawful.refl ?_
    rw [Renamings.push_plain]
    exact .cons h (.cons h' .nil)
  have test : (condition.getD (.literal (.bool true))).Alike P .plain
      (condition'.getD (.literal (.bool true))) := by
    cases hcondition with
    | some h => exact h
    | none => exact .literal
  unfold Syntax.forLoop
  cases hincrement with
  | none =>
    cases hinitializer with
    | none => exact .whileLoop test hbody
    | some first => exact block first (.whileLoop test hbody)
  | some last =>
    have round := block hbody (.expression last)
    cases hinitializer with
    | none => exact .whileLoop test round
    | some first => exact block first (.whileLoop test round)

omit lawful counted in
theorem forInitializer :
    ParsesAlike P n n' (Option.Rel (Stmt.Alike P .plain)) (forInitializer r)
      (Syntax.forInitializer r) := by
  refine (accept_alike _).bind fun semicolon semicolon' read => ?_
  cases read with
  | some read => exact .pure .none
  | none =>
    refine (accept_alike _).bind fun keyword keyword' read => ?_
    cases read with
    | some read => exact hr.variableDeclaration.map fun _ _ => .some
    | none => exact (expressionStatement hr.expression).map fun _ _ => .some

omit counted in
theorem forStatement :
    ParsesAlike P n n' (Stmt.Alike P .plain) (forStatement r) (Syntax.forStatement r) := by
  refine (expect_alike _ _).bind fun _ _ _ => ?_
  refine hr.forInitializer.bind fun _ _ initializer => ?_
  refine (hr.unlessNext _).bind fun _ _ condition => ?_
  refine (expect_alike _ _).bind fun _ _ _ => ?_
  refine (hr.unlessNext _).bind fun _ _ increment => ?_
  refine (expect_alike _ _).bind fun _ _ _ => ?_
  refine (insideLoop_alike hr.statement).bind fun _ _ body => ?_
  exact .pure (forLoop lawful initializer condition increment body)

omit lawful counted in
theorem ifStatement :
    ParsesAlike P n n' (Stmt.Alike P .plain) (ifStatement r) (Syntax.ifStatement r) := by
  refine (expect_alike _ _).bind fun _ _ _ => ?_
  refine hr.expression.bind fun _ _ condition => ?_
  refine (expect_alike _ _).bind fun _ _ _ => ?_
  refine hr.statement.bind fun _ _ thenBranch => ?_
  refine (accept_alike _).bind fun keyword keyword' read => ?_
  cases read with
  | none =>
    refine (ParsesAlike.pure (R := fun a b => a = none ∧ b = none) ⟨rfl, rfl⟩).bind ?_
    rintro _ _ ⟨rfl, rfl⟩
    exact .pure (.ifThen condition thenBranch)
  | some read =>
    refine (hr.statement.map (S := Option.Rel (Stmt.Alike P .plain)) fun _ _ => .some).bind
      fun elseBranch elseBranch' alike => .pure ?_
    cases alike with
    | some alike => exact .ifElse condition thenBranch alike
    | none => exact .ifThen condition thenBranch

omit lawful counted in
theorem whileStatement :
    ParsesAlike P n n' (Stmt.Alike P .plain) (whileStatement r) (Syntax.whileStatement r) := by
  refine (expect_alike _ _).bind fun _ _ _ => ?_
  refine hr.expression.bind fun _ _ condition => ?_
  refine (expect_alike _ _).bind fun _ _ _ => ?_
  exact (insideLoop_alike hr.statement).bind fun _ _ body => .pure (.whileLoop condition body)

omit lawful counted in
theorem returnStatement {t t' : Token} (tokens : P.Tokens t t') :
    ParsesAlike P n n' (Stmt.Alike P .plain) (returnStatement t r) (Syntax.returnStatement t' r) := by
  refine (hr.unlessNext _).bind fun value value' alike => ?_
  refine (expect_alike _ _).bind fun _ _ _ => .pure ?_
  cases alike with
  | some alike => exact .returnWith tokens alike
  | none => exact .returnFrom tokens

omit hr lawful counted in
theorem breakStatement {t t' : Token} (tokens : P.Tokens t t') :
    ParsesAlike P n n' (Stmt.Alike P .plain) (breakStatement t) (Syntax.breakStatement t') := by
  refine .get fun s s' alike => ?_
  rw [alike.loopDepth]
  split
  · refine (report_alike tokens _).bind fun _ _ _ => ?_
    exact (expect_alike _ _).bind fun _ _ _ => .pure (.breakLoop tokens)
  · exact (expect_alike _ _).bind fun _ _ _ => .pure (.breakLoop tokens)

omit lawful counted in
theorem printStatement :
    ParsesAlike P n n' (Stmt.Alike P .plain) (printStatement r) (Syntax.printStatement r) :=
  hr.expression.bind fun _ _ alike => (expect_alike _ _).bind fun _ _ _ => .pure (.print alike)

theorem statement_rule :
    ParsesAlike P n n' (Stmt.Alike P .plain) (Syntax.statement r) (Syntax.statement r) := by
  refine (acceptIf_alike _).bind fun keyword keyword' read => ?_
  cases read with
  | none => exact expressionStatement (hr.assignment lawful counted)
  | some read =>
    dsimp only
    rw [read.tokens.type]
    split
    · exact hr.forStatement lawful
    · exact hr.ifStatement
    · exact hr.whileStatement
    · exact hr.returnStatement read.tokens
    · exact breakStatement read.tokens
    · refine hr.block.map fun _ _ body => .block lawful.refl ?_
      rw [Renamings.push_plain]
      exact body
    · exact hr.printStatement

/-! ### Declarations -/

omit counted in
theorem methods (k : Nat) :
    ParsesAlike P n n' (List.Forall₂ (FunctionDecl.Alike P .plain)) (methods r k)
      (Syntax.methods r k) := by
  induction k with
  | zero => exact .pure .nil
  | succ k ih =>
    refine .get fun s s' alike => ?_
    rw [alike.atEnd, alike.nextIs]
    split
    · exact .pure .nil
    · refine (hr.function lawful _).bind fun _ _ first => ?_
      exact ih.bind fun _ _ others => .pure (.cons first.1 others)

theorem classDeclaration :
    ParsesAlike P n n' (Stmt.Alike P .plain) (classDeclaration r) (Syntax.classDeclaration r) := by
  have rest {name name' : Token} (reads : P.Reads name name') {superclass superclass' : Option Use}
      (above : Option.Rel (P.Uses .plain) superclass superclass') :
      ParsesAlike P n n' (Stmt.Alike P .plain) (do
          let _ ← Syntax.expect .leftBrace .unopenedClassBody
          let members ← Syntax.methods r r.rounds
          let _ ← Syntax.expect .rightBrace .unclosedClassBody
          Pure.pure (Stmt.classDecl name superclass members)) (do
          let _ ← Syntax.expect .leftBrace .unopenedClassBody
          let members ← Syntax.methods r r.rounds
          let _ ← Syntax.expect .rightBrace .unclosedClassBody
          Pure.pure (Stmt.classDecl name' superclass' members)) := by
    refine (expect_alike _ _).bind fun _ _ _ => ?_
    refine (hr.methods lawful _).bind fun members members' alike => ?_
    refine (expect_alike _ _).bind fun _ _ _ => .pure ?_
    cases above with
    | none =>
      refine .base reads.tokens reads.named ?_
      rw [Renamings.push_plain]
      exact .of_forall₂ alike
    | some use =>
      refine .derived reads.tokens reads.named use ?_
      rw [Renamings.push_plain, Renamings.push_plain]
      exact .of_forall₂ alike
  refine (expect_alike _ _).bind fun name name' reads => ?_
  refine (accept_alike _).bind fun less less' read => ?_
  cases read with
  | none =>
    exact (ParsesAlike.pure (R := Option.Rel (P.Uses .plain)) .none).bind fun _ _ above => rest reads above
  | some read =>
    refine (expect_alike _ _).bind fun _ _ superName => ?_
    exact ((newUse_alike counted superName).map fun _ _ => .some).bind fun _ _ above => rest reads above

theorem declaration_rule :
    ParsesAlike P n n' (Stmt.Alike P .plain) (Syntax.declaration r) (Syntax.declaration r) := by
  refine .get fun s s' alike => ?_
  rw [alike.atFunction]
  split
  · refine (accept_alike _).bind fun _ _ _ => ?_
    exact (hr.function lawful _).map fun _ _ h => .function h.2.named h.1
  · refine (acceptIf_alike _).bind fun keyword keyword' read => ?_
    cases read with
    | none => exact hr.statement_rule lawful counted
    | some read =>
      dsimp only
      rw [read.tokens.type]
      split
      · exact hr.classDeclaration lawful counted
      · exact hr.variableDeclaration

end Rules.Alike

/-! ### Whole texts -/

section Texts

variable {P : Pairing} {n n' : Nat}

theorem rules_alike (lawful : P.Lawful) (counted : ∀ k, P.ids (n + k) (n' + k)) (k : Nat) :
    (rules k).Alike P n n' := by
  induction k with
  | zero => exact ⟨raise_alike _, raise_alike _, recover_alike (raise_alike _)⟩
  | succ k ih =>
    exact ⟨ih.assignment lawful counted, ih.statement_rule lawful counted,
      recover_alike (ih.declaration_rule lawful counted)⟩

structure TokenStream.Alike (P : Pairing) (ts ts' : TokenStream) : Prop where
  body : List.Forall₂ P.Reads ts.body ts'.body
  endLine : P.lines ts.endLine ts'.endLine

/-- What was made of two texts: results that are related and the same errors, with as many uses. -/
structure Parsed.Alike (P : Pairing) (n n' : Nat) {α β : Type} (R : α → β → Prop) (p : Parsed α)
    (p' : Parsed β) : Prop where
  result : R p.result p'.result
  errors : List.Forall₂ P.Mistakes p.errors p'.errors
  nextId : ∃ k, p.nextId = n + k ∧ p'.nextId = n' + k

theorem TotalsAlike.run {α β : Type} {R : α → β → Prop} {p : Total α} {p' : Total β}
    (h : TotalsAlike P n n' R p p') {ts ts' : TokenStream} (tokens : TokenStream.Alike P ts ts') :
    Parsed.Alike P n n' R (p.run ts n) (p'.run ts' n') := by
  obtain ⟨result, last⟩ := h { rest := ts.body, endLine := ts.endLine, nextId := n }
    { rest := ts'.body, endLine := ts'.endLine, nextId := n' }
    ⟨tokens.body, tokens.endLine, rfl, ⟨0, rfl, rfl⟩, .nil⟩
  exact ⟨result, last.errors, last.nextId⟩

variable (lawful : P.Lawful) (counted : ∀ k, P.ids (n + k) (n' + k)) {ts ts' : TokenStream}

include lawful counted

theorem parse_alike (tokens : TokenStream.Alike P ts ts') :
    Parsed.Alike P n n' (Stmt.AllAlike P .plain) (parse ts n) (parse ts' n') := by
  unfold parse
  rw [← tokens.body.length_eq]
  refine TotalsAlike.run ?_ tokens
  exact (rules_alike lawful counted _).declarations (fun _ _ alike => alike.atEnd) _

theorem promptExpression_alike {r : Rules} (hr : r.Alike P n n') :
    ParsesAlike P n n' (Program.Alike P) (promptExpression r) (promptExpression r) := by
  refine (hr.assignment lawful counted).bind fun e e' alike => ?_
  refine .get fun s s' same => ?_
  rw [same.atEnd]
  split
  · exact .pure ⟨.nil, .some alike⟩
  · exact (expect_alike _ _).bind fun _ _ _ => .pure ⟨.cons (.expression alike) .nil, .none⟩

theorem promptItem_alike {r : Rules} (hr : r.Alike P n n') :
    TotalsAlike P n n' (Program.Alike P) (promptItem r) (promptItem r) := by
  refine .get fun s s' same => ?_
  rw [same.atStatement]
  split
  · refine (recover_alike (hr.declaration_rule lawful counted)).bind fun _ _ h => .pure ?_
    cases h with
    | some h => exact ⟨.cons h .nil, .none⟩
    | none => exact ⟨.nil, .none⟩
  · refine (recover_alike (promptExpression_alike lawful counted hr)).bind fun _ _ h => .pure ?_
    cases h with
    | some h => exact h
    | none => exact ⟨.nil, .none⟩

theorem promptItems_alike {r : Rules} (hr : r.Alike P n n') (k : Nat) :
    TotalsAlike P n n' (Program.Alike P) (promptItems r k) (promptItems r k) := by
  have done : (Program.mk [] none).Alike P (Program.mk [] none) := ⟨.nil, .none⟩
  induction k with
  | zero => exact .pure done
  | succ k ih =>
    refine .get fun s s' same => ?_
    rw [same.atEnd]
    split
    · exact .pure done
    refine (promptItem_alike lawful counted hr).bind fun first first' h => ?_
    refine ih.bind fun others others' rest => .pure ?_
    refine ⟨h.statements.append rest.statements, ?_⟩
    have trailing := h.trailing
    dsimp only
    revert trailing
    cases first.trailing <;> cases first'.trailing <;> intro trailing
    · exact rest.trailing
    · cases trailing
    · cases trailing
    · obtain trailing | _ := trailing
      exact .some trailing

theorem parsePrompt_alike (tokens : TokenStream.Alike P ts ts') :
    Parsed.Alike P n n' (Program.Alike P) (parsePrompt ts n) (parsePrompt ts' n') := by
  unfold parsePrompt
  rw [← tokens.body.length_eq]
  exact TotalsAlike.run (promptItems_alike lawful counted (rules_alike lawful counted _) _) tokens

end Texts

end Syntax

end Lox
