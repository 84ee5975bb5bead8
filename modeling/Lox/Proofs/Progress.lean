import Lox.Proofs.Joining.Parsing

/-!
# Parsers that get on

A rule that succeeds has read at least one token, so a loop over a text has no more rounds than the
text has tokens: `advance_rules`. Where no token is left, every rule for a statement or an
expression misses an expression.
-/

namespace Lox.Syntax

open Grammar

/-- A parser that succeeds only by reading a token. -/
def Advances (p : Parse α) : Prop :=
  ∀ (s t : ParseState) (a : α), p s = .ok a t → t.rest.length < s.rest.length

/-- Rules that drop tokens from the front only, and drop at least one where they succeed; a
declaration drops one wherever there is one. -/
structure Rules.Advance (r : Rules) : Prop where
  respects : r.Respect ParseState.Leads
  expression : Advances r.expression
  statement : Advances r.statement
  declaration : ∀ s : ParseState, s.rest ≠ [] →
    (r.declaration s).2.rest.length < s.rest.length

theorem ParseState.Leads.length {s later : ParseState} (h : s.Leads later) :
    later.rest.length ≤ s.rest.length := h.rest.length_le

theorem length_synchronize_lt {ts : List Token} (more : ts ≠ []) :
    (synchronize ts).length < ts.length := by
  cases ts with
  | nil => exact absurd rfl more
  | cons t rest => exact Nat.lt_succ_of_le (toBoundary_suffix t rest).length_le

namespace Advances

variable {p : Parse α} {f : α → Parse β}

theorem bind (hp : Advances p) (hf : ∀ a, Respects ParseState.Leads (f a)) :
    Advances (p >>= f) := by
  intro s t b h
  obtain ⟨a, mid, first, rest⟩ := bind_ok h
  exact Nat.lt_of_le_of_lt ((hf a).of_ok rest).length (hp s mid a first)

theorem after (hp : Respects ParseState.Leads p) (hf : ∀ a, Advances (f a)) :
    Advances (p >>= f) := by
  intro s t b h
  obtain ⟨a, mid, first, rest⟩ := bind_ok h
  exact Nat.lt_of_lt_of_le (hf a mid t b rest) (hp.of_ok first).length

theorem map (g : α → β) (hp : Advances p) : Advances (g <$> p) := by
  intro s t b h
  obtain ⟨a, first, -⟩ := map_ok h
  exact hp s t a first

theorem raise (fault : SyntaxFault) : Advances (raise fault : Parse α) := nofun

/-- A parser that reads a token or goes on with one that advances. -/
theorem acceptIf {test : TokenType → Bool} {f : Option Token → Parse β}
    (none : Advances (f none)) (some : ∀ t, Respects ParseState.Leads (f (some t))) :
    Advances (acceptIf test >>= f) := by
  intro s t b h
  rw [bind_apply] at h
  unfold Syntax.acceptIf at h
  cases split : s.rest with
  | nil =>
    rw [split] at h
    rw [← split]
    exact none s t b h
  | cons word rest =>
    rw [split] at h
    dsimp only at h
    cases fits : test word.type with
    | true =>
      rw [fits] at h
      exact Nat.lt_succ_of_le ((some word).of_ok h).length
    | false =>
      rw [fits] at h
      rw [← split]
      exact none s t b h

theorem expect (type : TokenType) (fault : SyntaxFault) : Advances (expect type fault) :=
  acceptIf (raise fault) onward.respects_pure

theorem at_end (hp : Advances p) {s : ParseState} (ended : s.rest = []) {a : α} {t : ParseState} :
    p s ≠ .ok a t := by
  intro h
  have less := hp s t a h
  rw [ended] at less
  cases less

end Advances

def primaryAt (r : Rules) (token : Token) : Parse Expr :=
  match token.type with
  | .kwFalse => single (.literal (.bool false))
  | .kwTrue => single (.literal (.bool true))
  | .kwNil => single (.literal .nil)
  | .number x => single (.literal (.number x))
  | .string contents => single (.literal (.string contents))
  | .kwThis => newUse token >>= fun u => single (.this u)
  | .identifier => newUse token >>= fun u => single (.variable u)
  | .kwSuper => do
    let _ ← accept .kwSuper
    let _ ← expect .dot .missingDotAfterSuper
    let method ← expect .identifier .missingSuperMethodName
    pure (.super (← newUse token) method)
  | .kwFun => do
    let _ ← accept .kwFun
    let (params, body) ← functionRest r .function
    pure (.lambda params body)
  | .leftParen => do
    let _ ← accept .leftParen
    let inner ← r.expression
    let _ ← expect .rightParen .unclosedGrouping
    pure (.grouping inner)
  | _ => raise .missingExpression

theorem primary_apply (r : Rules) (s : ParseState) : primary r s = primaryAt r s.peek s := rfl

/-- A parser that drops a token wherever there is one, if it succeeds. -/
def Drops (p : Parse α) : Prop :=
  ∀ (s t : ParseState) (a : α), s.rest ≠ [] → p s = .ok a t → t.rest.length < s.rest.length

/-! ### Expressions -/

section Rules

variable {r : Rules} (hr : r.Advance)

include hr

theorem advances_functionRest (form : FunctionForm) : Advances (functionRest r form) := by
  refine (Advances.expect _ _).bind fun _ => ?_
  refine onward.respects_bind (onward.respects_itemsBeforeParen _ (onward.respects_expect _ _) _)
    fun params => ?_
  refine onward.respects_bind (onward.respects_expect _ _) fun _ => ?_
  refine onward.respects_bind (onward.respects_expect _ _) fun _ => ?_
  exact onward.respects_bind (onward.respects_insideFunction (onward.respects_block hr.respects))
    fun _ => onward.respects_pure _

theorem advances_function (form : FunctionForm) : Advances (function r form) :=
  (Advances.expect _ _).bind fun _ =>
    onward.respects_bind (onward.respects_functionRest hr.respects form)
      fun _ => onward.respects_pure _

omit hr in
theorem drops_single (e : Expr) : Drops (single e) := by
  intro s t _ more h
  cases h
  rw [List.length_tail]
  exact Nat.sub_lt (List.length_pos_iff.mpr more) Nat.one_pos

omit hr in
theorem drops_use (name : Token) (e : Use → Expr) :
    Drops (newUse name >>= fun use => single (e use)) := by
  intro s t a more h
  obtain ⟨use, mid, first, second⟩ := bind_ok h
  cases first
  exact drops_single (e _) { s with nextId := s.nextId + 1 } t a more second

omit hr in
theorem drops_opened (type : TokenType) {p : Parse α} (hp : Advances p) :
    Drops (accept type >>= fun _ => p) := by
  intro s t a _ h
  obtain ⟨_, mid, first, second⟩ := bind_ok h
  exact Nat.lt_of_lt_of_le (hp mid t a second) ((onward.respects_accept type).of_ok first).length

theorem drops_primaryAt (token : Token) : Drops (primaryAt r token) := by
  unfold primaryAt
  split
  iterate 5 exact drops_single _
  · exact drops_use token .this
  · exact drops_use token .variable
  · refine drops_opened _ ((Advances.expect _ _).bind fun _ => ?_)
    refine onward.respects_bind (onward.respects_expect _ _) fun method => ?_
    exact onward.respects_bind (onward.respects_newUse _) fun _ => onward.respects_pure _
  · exact drops_opened _ ((advances_functionRest hr _).bind fun _ => onward.respects_pure _)
  · refine drops_opened _ (hr.expression.bind fun inner => ?_)
    exact onward.respects_bind (onward.respects_expect _ _) fun _ => onward.respects_pure _
  · exact nofun

omit hr in
theorem primary_ended {s : ParseState} (ended : s.rest = []) :
    primary r s = .error ⟨s.peek, .missingExpression⟩ s := by
  have peek : s.peek = .eof s.endLine := by rw [ParseState.peek, ended]; rfl
  have missing : primaryAt r (.eof s.endLine) s = .error ⟨s.peek, .missingExpression⟩ s := rfl
  rw [← peek] at missing
  exact missing

theorem advances_primary : Advances (primary r) := by
  intro s t e h
  by_cases ended : s.rest = []
  · rw [primary_ended ended] at h
    cases h
  · exact drops_primaryAt hr _ s t e ended h

theorem advances_call : Advances (call r) :=
  (advances_primary hr).bind fun e => onward.respects_callRest hr.respects r.rounds e

theorem advances_unaryUpTo (n : Nat) : Advances (unaryUpTo r n) := by
  induction n with
  | zero => exact advances_call hr
  | succ n ih =>
    refine .acceptIf (advances_call hr) fun _ => ?_
    exact onward.respects_bind (onward.respects_unaryUpTo hr.respects n)
      fun _ => onward.respects_pure _

omit hr in
theorem advances_leftAssociative {operators : TokenType → Bool} {join : Expr → Token → Expr → Expr}
    {operand : Parse Expr} (respects : Respects ParseState.Leads operand)
    (advances : Advances operand) (n : Nat) :
    Advances (leftAssociative operators join operand n) :=
  advances.bind fun first => onward.respects_moreOperands operators join respects n first

theorem advances_unary : Advances (unary r) := advances_unaryUpTo hr r.rounds

theorem advances_factor : Advances (factor r) :=
  advances_leftAssociative (onward.respects_unary hr.respects) (advances_unary hr) _

theorem advances_term : Advances (term r) :=
  advances_leftAssociative (onward.respects_factor hr.respects) (advances_factor hr) _

theorem advances_comparison : Advances (comparison r) :=
  advances_leftAssociative (onward.respects_term hr.respects) (advances_term hr) _

theorem advances_equality : Advances (equality r) :=
  advances_leftAssociative (onward.respects_comparison hr.respects) (advances_comparison hr) _

theorem advances_logicalAnd : Advances (logicalAnd r) :=
  advances_leftAssociative (onward.respects_equality hr.respects) (advances_equality hr) _

theorem advances_logicalOr : Advances (logicalOr r) :=
  advances_leftAssociative (onward.respects_logicalAnd hr.respects) (advances_logicalAnd hr) _

theorem advances_assignment : Advances (assignment r) := by
  refine (advances_logicalOr hr).bind fun target => ?_
  refine onward.respects_bind (onward.respects_accept _) fun equals => ?_
  cases equals with
  | none => exact onward.respects_pure _
  | some equals =>
    refine onward.respects_bind hr.respects.expression fun value => ?_
    split
    · exact onward.respects_pure _
    · exact onward.respects_bind (onward.respects_report _ _) fun _ => onward.respects_pure _

/-! ### Statements and declarations -/

omit hr in
theorem advances_expressionStatement {p : Parse Expr} (hp : Advances p) :
    Advances (expressionStatement p) :=
  hp.bind fun _ => onward.respects_bind (onward.respects_expect _ _) fun _ => onward.respects_pure _

theorem advances_statement : Advances (statement r) := by
  refine .acceptIf ?_ fun keyword => ?_
  · exact advances_expressionStatement (advances_assignment hr)
  · have h := hr.respects
    dsimp only
    split
    · exact onward.respects_forStatement h
    · exact onward.respects_ifStatement h
    · exact onward.respects_whileStatement h
    · exact onward.respects_returnStatement h keyword
    · exact onward.respects_breakStatement keyword
    · exact onward.respects_map _ (onward.respects_block h)
    · exact onward.respects_printStatement h

theorem advances_declaration : Advances (declaration r) := by
  have h := hr.respects
  intro s t d run
  unfold declaration at run
  rw [get_bind] at run
  revert run
  split
  · intro run
    obtain ⟨_, mid, first, second⟩ := bind_ok run
    exact Nat.lt_of_lt_of_le (((advances_function hr .function).map _) mid t d second)
      ((onward.respects_accept .kwFun).of_ok first).length
  · refine Advances.acceptIf (advances_statement hr) (fun keyword => ?_) s t d
    dsimp only
    split
    · exact onward.respects_classDeclaration h
    · exact onward.respects_variableDeclaration h

omit hr in
theorem recover_drops {p : Parse α} (respects : Respects ParseState.Leads p) (advances : Advances p)
    {s : ParseState} (more : s.rest ≠ []) : (recover p s).2.rest.length < s.rest.length := by
  unfold recover
  cases run : p s with
  | ok a t => exact advances s t a run
  | error e t =>
    have toHere := respects s
    rw [stateAfter_error run] at toHere
    by_cases ended : t.rest = []
    · dsimp only
      rw [ended]
      exact List.length_pos_iff.mpr more
    · exact Nat.lt_of_lt_of_le (length_synchronize_lt ended) toHere.length

/-! ### Where a primary expression fails -/

section Failing

variable {s t : ParseState} {e : SyntaxError}

omit hr

theorem unaryUpTo_of_error (first : primary r s = .error e t)
    (plain : ∀ word rest, s.rest = word :: rest → isUnary word.type = false) (n : Nat) :
    unaryUpTo r n s = .error e t := by
  have call : call r s = .error e t := bind_of_error first
  cases n with
  | zero => exact call
  | succ n => exact (bind_of_ok (acceptIf_of_none plain)).trans call

theorem assignment_of_error (first : primary r s = .error e t)
    (plain : ∀ word rest, s.rest = word :: rest → isUnary word.type = false) :
    assignment r s = .error e t := by
  have comparison : comparison r s = .error e t :=
    bind_of_error (bind_of_error (bind_of_error (unaryUpTo_of_error first plain r.rounds)))
  exact bind_of_error (bind_of_error (bind_of_error (bind_of_error comparison)))

theorem declaration_of_error (first : primary r s = .error e t)
    (plain : ∀ word rest, s.rest = word :: rest → isUnary word.type = false)
    (other : s.atStatement = false) : declaration r s = .error e t := by
  rw [declaration_eq other]
  exact bind_of_error (assignment_of_error first plain)

/-- A function's keyword alone is the beginning of a function without a name. -/
theorem declaration_of_fun {word : Token} (here : s.rest = [word]) (type : word.type = .kwFun) :
    ∃ e, declaration r s = .error e { s with rest := [] } := by
  have unopened : functionRest r .function { s with rest := [] } =
      .error ⟨.eof s.endLine, .unopenedParameters .function⟩ { s with rest := [] } := rfl
  have peek : s.peek = word := by rw [ParseState.peek, here]; rfl
  have first : primary r s =
      .error ⟨.eof s.endLine, .unopenedParameters .function⟩ { s with rest := [] } := by
    rw [primary_apply, peek]
    simp only [primaryAt, type]
    exact (bind_of_ok (accept_of_some here type)).trans (bind_of_error unopened)
  refine ⟨_, declaration_of_error first ?_ ?_⟩
  · rw [here]
    rintro _ _ ⟨⟩
    rw [type]
    rfl
  · unfold ParseState.atStatement ParseState.secondIs
    rw [peek, type, here]
    rfl

theorem nothing_passes (ended : s.rest = []) {test : TokenType → Bool} :
    ∀ word rest, s.rest = word :: rest → test word.type = false := by
  intro word rest more
  rw [ended] at more
  cases more

structure Rules.Ends (r : Rules) : Prop where
  expression : ∀ s : ParseState, s.rest = [] →
    r.expression s = .error ⟨s.peek, .missingExpression⟩ s
  statement : ∀ s : ParseState, s.rest = [] →
    r.statement s = .error ⟨s.peek, .missingExpression⟩ s
  declaration : ∀ s : ParseState, s.rest = [] →
    r.declaration s = (none, s.report ⟨s.peek, .missingExpression⟩)

theorem recover_ended {p : Parse Stmt} (ended : s.rest = [])
    (h : p s = .error ⟨s.peek, .missingExpression⟩ s) :
    recover p s = (none, s.report ⟨s.peek, .missingExpression⟩) := by
  unfold recover
  rw [h]
  have same : synchronize s.rest = s.rest := by rw [ended]; rfl
  dsimp only
  rw [same]
  rfl

/-- Whatever rules stand below, a level over them misses an expression where nothing is left. -/
theorem ends_nextLevel (r : Rules) : (nextLevel r).Ends := by
  have assignment (s : ParseState) (ended : s.rest = []) :=
    assignment_of_error (primary_ended (r := r) ended) (nothing_passes ended)
  refine ⟨assignment, fun s ended => ?_, fun s ended => recover_ended ended ?_⟩
  · exact (bind_of_ok (acceptIf_of_none (nothing_passes ended))).trans
      (bind_of_error (assignment s ended))
  · refine declaration_of_error (primary_ended ended) (nothing_passes ended) ?_
    unfold ParseState.atStatement ParseState.peek
    rw [ended]
    rfl

theorem ends_rules (n : Nat) : (rules n).Ends := by
  cases n with
  | zero => exact ⟨fun _ _ => rfl, fun _ _ => rfl, fun _ ended => recover_ended ended rfl⟩
  | succ n => exact ends_nextLevel (rules n)

end Failing

/-! ### All levels -/

theorem Rules.Advance.nextLevel : (nextLevel r).Advance where
  respects := ⟨onward.respects_assignment hr.respects, onward.respects_statement hr.respects,
    onward.respects_recover (onward.respects_declaration hr.respects)⟩
  expression := advances_assignment hr
  statement := advances_statement hr
  declaration _ := recover_drops (onward.respects_declaration hr.respects) (advances_declaration hr)

omit hr in
theorem advance_rules (n : Nat) : (rules n).Advance := by
  induction n with
  | zero =>
    exact ⟨onward.respects_rules 0, .raise _, .raise _,
      fun _ => recover_drops (onward.respects_raise _) (.raise _)⟩
  | succ n ih => exact ih.nextLevel

end Rules

end Lox.Syntax
