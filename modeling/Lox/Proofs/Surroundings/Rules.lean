import Lox.Proofs.Surroundings

/-!
# Rules within a longer text

The rules for a text agree with those for a longer one, whatever stands around it, as long as each
has a level for every token that is left: `agree_rules`. An expression ends at a semicolon as it
ends with the text, and a statement at everything but `else`.
-/

namespace Lox.Syntax

open Grammar Surroundings

structure Rules.Agree (c : Surroundings) (k : Nat) (r r' : Rules) : Prop where
  advance : r.Advance
  rounds : k < r.rounds
  rounds' : k < r'.rounds
  expression : Syntax.Agree c c.Closing k r.expression r'.expression
  statement : Syntax.Agree c c.Apart k r.statement r'.statement
  declaration : Syntax.Agree c False k r.declaration.toParse r'.declaration.toParse

variable {c : Surroundings} {q q₁ : Prop} {j k : Nat}

/-! ### Bodies and lists -/

theorem agree_insideLoop {p p' : Parse α} (hp : Agree c q k p p') :
    Agree c q k (insideLoop p) (insideLoop p') := by
  refine ⟨onward.respects_insideLoop hp.onward, fun s short settled => ?_⟩
  have inner : c.Settled q (p { s with loopDepth := s.loopDepth + 1 }) →
      p' { s.amid c with loopDepth := (s.amid c).loopDepth + 1 } =
        c.widen (p { s with loopDepth := s.loopDepth + 1 }) :=
    hp.same { s with loopDepth := s.loopDepth + 1 } short
  unfold insideLoop at settled ⊢
  cases first : p { s with loopDepth := s.loopDepth + 1 } <;> rw [first] at settled inner <;>
    rw [inner settled] <;> rfl

theorem agree_insideFunction {p p' : Parse α} (hp : Agree c q k p p') :
    Agree c q k (insideFunction p) (insideFunction p') := by
  refine ⟨onward.respects_insideFunction hp.onward, fun s short settled => ?_⟩
  have inner : c.Settled q (p { s with loopDepth := 0 }) →
      p' { s.amid c with loopDepth := 0 } = c.widen (p { s with loopDepth := 0 }) :=
    hp.same { s with loopDepth := 0 } short
  unfold insideFunction at settled ⊢
  cases first : p { s with loopDepth := 0 } <;> rw [first] at settled inner <;>
    rw [inner settled] <;> rfl

/-- What is skipped after an error ends where it does in the longer text, if something is left. -/
theorem agree_recover {p p' : Parse α} (hp : Agree c q k p p') :
    Agree c False k (recover p).toParse (recover p').toParse := by
  refine .total (onward.respects_recover hp.onward) fun s short hidden => ?_
  have inner := hp.same s short
  unfold AgreeAt at inner
  unfold recover at hidden ⊢
  cases first : p s with
  | ok a t =>
    rw [first] at hidden inner
    rw [inner (Hidden.mono hidden False.elim)]
    rfl
  | error e t =>
    rw [first] at hidden inner
    have split : synchronize (t.rest ++ c.more) = synchronize t.rest ++ c.more ∧
        c.Hidden False t := by
      obtain stops | last | none := hidden
      · refine ⟨synchronize_append c.more stops, .inl fun ended => stops ?_⟩
        change synchronize t.rest = []
        rw [ended]
        rfl
      · refine ⟨?_, .inr (.inl last)⟩
        rw [last.1, List.append_nil, List.append_nil]
      · exact none.elim
    rw [inner split.2]
    change (none, { (t.amid c).report e with rest := synchronize (t.rest ++ c.more) }) = _
    rw [split.1, ← ParseState.amid_report]
    rfl

section Lists

variable (fault : SyntaxFault) {item item' : Parse α} (hitem : Agree c q k item item')

include hitem

theorem agree_limited (count : Nat) :
    Agree c False k (limited fault item count) (limited fault item' count) := by
  have item := hitem.hide
  have leads := onward.respects_limited fault item.onward count
  unfold limited at leads ⊢
  split
  · rw [if_pos ‹_›] at leads
    refine .get leads fun s short hidden => ?_
    rw [ParseState.peek_amid hidden]
    exact ((Agree.report s.peek fault).bind (fun _ => item) id).same s short
  · exact item

theorem agree_moreItems (n n' : Nat) (le : j ≤ k) (few : j < n) (few' : j < n') (items : List α) :
    Agree c False j (moreItems fault item n items) (moreItems fault item' n' items) := by
  induction n generalizing n' j items with
  | zero => exact absurd few (Nat.not_lt_zero j)
  | succ n ih =>
    obtain _ | n' := n'
    · exact absurd few' (Nat.not_lt_zero j)
    refine .accepting (onward.respects_moreItems fault hitem.onward (n + 1) items) (.pure items)
      (fun comma i less => ?_) (.inl False.elim)
    have next := agree_limited fault (hitem.mono (Nat.le_trans (Nat.le_of_lt less) le) id)
      items.length
    exact next.bind (fun next => ih n' (by omega) (by omega) (by omega) _) id

theorem agree_itemsBeforeParen (n n' : Nat) (few : k < n) (few' : k < n') :
    Agree c False k (itemsBeforeParen fault item n) (itemsBeforeParen fault item' n') := by
  refine .get (onward.respects_itemsBeforeParen fault hitem.onward n) fun s short hidden => ?_
  rw [ParseState.nextIs_amid hidden]
  split
  · exact (Agree.pure []).same s short
  · have item := hitem.hide
    have more (first : α) := agree_moreItems fault hitem n n' (Nat.le_refl k) few few' [first]
    exact (item.bind more id).same s short

end Lists

section Operands

variable {operators : TokenType → Bool} {join : Expr → Token → Expr → Expr}
  {operand operand' : Parse Expr} (hoperand : Agree c q k operand operand')
  (quiet : q → c.Quiet operators)

include hoperand quiet

theorem agree_moreOperands (n n' : Nat) (le : j ≤ k) (few : j < n) (few' : j < n') (left : Expr) :
    Agree c q j (moreOperands operators join operand n left)
      (moreOperands operators join operand' n' left) := by
  induction n generalizing n' j left with
  | zero => exact absurd few (Nat.not_lt_zero j)
  | succ n ih =>
    obtain _ | n' := n'
    · exact absurd few' (Nat.not_lt_zero j)
    refine .accepting (onward.respects_moreOperands operators join hoperand.onward (n + 1) left)
      (.pure left) (fun operator i less => ?_) (.inl quiet)
    exact (hoperand.mono (Nat.le_trans (Nat.le_of_lt less) le) id).bind
      (fun right => ih n' (by omega) (by omega) (by omega) _) id

/-- After the first operand a token less is left. -/
theorem agree_leftAssociative (advances : Advances operand) (n n' : Nat) (few : k ≤ n)
    (few' : k ≤ n') :
    Agree c q k (leftAssociative operators join operand n)
      (leftAssociative operators join operand' n') := by
  refine ⟨onward.respects_leftAssociative operators join hoperand.onward n, fun s short => ?_⟩
  refine (hoperand.same s short).bind
    (fun first => onward.respects_moreOperands operators join hoperand.onward n first) ?_ (.inl id)
  intro first t read
  have less := advances s t first read
  exact (agree_moreOperands hoperand quiet n n' (by omega) (by omega) (by omega) first).same t
    (Nat.le_refl _)

end Operands

/-! ### Declarations in a row -/

theorem declarations_stopped {r : Rules} {stop : ParseState → Bool} {s : ParseState}
    (stopped : stop s = true) (n : Nat) : declarations r stop n s = ([], s) := by
  cases n with
  | zero => rfl
  | succ n =>
    unfold declarations
    rw [total_ite, if_pos stopped]
    rfl

theorem declarations_next {r : Rules} {stop : ParseState → Bool} {s : ParseState}
    (goes : stop s = false) (n : Nat) :
    declarations r stop (n + 1) s =
      ((r.declaration s).1.toList ++ (declarations r stop n (r.declaration s).2).1,
        (declarations r stop n (r.declaration s).2).2) := by
  conv => lhs; unfold declarations
  rw [total_ite, if_neg (Bool.eq_false_iff.mp goes)]
  rfl

/-! ### Functions -/

section Rules

variable {r r' : Rules} (hr : r.Agree c k r')

include hr

theorem agree_declarations {stop : ParseState → Bool}
    (same : ∀ s, c.Hidden False s → stop (s.amid c) = stop s)
    (ends : ∀ s : ParseState, s.rest = [] → stop s = true) (n n' : Nat) (le : j ≤ k) (few : j ≤ n)
    (few' : j ≤ n') :
    Agree c False j (declarations r stop n).toParse (declarations r' stop n').toParse := by
  have leads (n : Nat) : Respects ParseState.Leads (declarations r stop n).toParse :=
    fun s => onward.respects_declarations hr.advance.respects stop n s
  refine .total (leads n) fun s short hidden => ?_
  induction n generalizing n' j s with
  | zero =>
    have stopped := ends s (List.eq_nil_of_length_eq_zero (by omega))
    rw [declarations_stopped stopped] at hidden ⊢
    exact declarations_stopped ((same s hidden).trans stopped) n'
  | succ n ih =>
    cases stopped : stop s with
    | true =>
      rw [declarations_stopped stopped] at hidden ⊢
      exact declarations_stopped ((same s hidden).trans stopped) n'
    | false =>
      rw [declarations_next stopped] at hidden ⊢
      have more : s.rest ≠ [] := by
        intro ended
        rw [ends s ended] at stopped
        cases stopped
      have some := List.length_pos_iff.mpr more
      have less := hr.advance.declaration s more
      have first := hr.declaration.of_total (Nat.le_trans short le)
        (hidden.of_leads (leads n (r.declaration s).2))
      obtain ⟨n', rfl⟩ := Nat.exists_eq_add_of_le' (Nat.le_trans some (Nat.le_trans short few'))
      have goes : stop (s.amid c) = false := (same s (.inl more)).trans stopped
      have others := ih (j := (r.declaration s).2.rest.length) n' (by omega) (by omega) (by omega)
        (r.declaration s).2 (Nat.le_refl _) hidden
      rw [declarations_next goes, first, others]

theorem agree_block : Agree c q k (block r) (block r') := by
  refine .upTo (agree_declarations hr (fun s hidden => ?_) (fun s ended => ?_) _ _ (Nat.le_refl k)
    (Nat.le_of_lt hr.rounds) (Nat.le_of_lt hr.rounds')) fun body _ => .pure body
  · rw [ParseState.atEnd_amid hidden, ParseState.nextIs_amid hidden]
  · rw [ParseState.atEnd, ended]
    rfl

theorem agree_functionRest (form : FunctionForm) :
    Agree c q k (functionRest r form) (functionRest r' form) := by
  refine (Agree.expect _ _).bind (fun _ => ?_) id
  have name : Agree c q k (expect .identifier .missingParameterName)
      (expect .identifier .missingParameterName) := .expect _ _
  have params := agree_itemsBeforeParen .tooManyParameters name _ _ hr.rounds hr.rounds'
  refine params.upTo fun params _ => ?_
  refine (Agree.expect _ _).bind (fun _ => ?_) id
  exact (agree_insideFunction (agree_block hr)).bind (fun _ => .pure _) id

theorem agree_function (form : FunctionForm) :
    Agree c q k (function r form) (function r' form) :=
  (Agree.expect _ _).bind (fun _ => (agree_functionRest hr form).bind (fun _ => .pure _) id) id

/-! ### Statements after their keyword -/

omit hr in
theorem agree_expressionStatement {p p' : Parse Expr} (hp : Agree c q₁ k p p') :
    Agree c q k (expressionStatement p) (expressionStatement p') :=
  hp.upTo fun _ _ => .pure _

theorem agree_variableDeclaration :
    Agree c q k (variableDeclaration r) (variableDeclaration r') := by
  refine (Agree.expect _ _).bind (fun name => ?_) id
  refine .choosing ?_ (fun _ => ?_) (.inr ?_)
  · exact (Agree.pure (q := q) none).upTo fun _ _ => .pure _
  · exact (hr.expression.map some).upTo fun _ _ => .pure _
  · exact Advances.after (onward.respects_pure _) fun _ =>
      (Advances.expect _ _).bind fun _ => onward.respects_pure _

theorem agree_unlessNext (type : TokenType) :
    Agree c False k (unlessNext type r) (unlessNext type r') := by
  refine .get (onward.respects_unlessNext hr.advance.respects type) fun s short hidden => ?_
  rw [ParseState.nextIs_amid hidden]
  split
  · exact (Agree.pure none).same s short
  · exact (hr.expression.hide.map some).same s short

theorem agree_forInitializer :
    Agree c False k (forInitializer r) (forInitializer r') := by
  refine .choosing ?_ (fun _ => .pure none) (.inl False.elim)
  refine .choosing ?_ (fun _ => ?_) (.inl False.elim)
  · exact (agree_expressionStatement hr.expression).map some
  · exact (agree_variableDeclaration hr).map some

theorem agree_forStatement : Agree c c.Apart k (forStatement r) (forStatement r') := by
  refine (Agree.expect _ _).bind (fun _ => ?_) id
  refine (agree_forInitializer hr).before (fun initializer => ?_) fun initializer => ?_
  · refine (agree_unlessNext hr _).upTo fun condition _ => ?_
    refine (agree_unlessNext hr _).upTo fun increment _ => ?_
    exact (agree_insideLoop hr.statement).bind (fun _ => .pure _) id
  · have h := hr.advance.respects
    refine Advances.after (onward.respects_unlessNext h _) fun _ => ?_
    refine (Advances.expect _ _).bind fun _ => ?_
    refine onward.respects_bind (onward.respects_unlessNext h _) fun _ => ?_
    refine onward.respects_bind (onward.respects_expect _ _) fun _ => ?_
    exact onward.respects_bind (onward.respects_insideLoop h.statement) fun _ =>
      onward.respects_pure _

theorem agree_ifStatement : Agree c c.Apart k (ifStatement r) (ifStatement r') := by
  refine (Agree.expect _ _).bind (fun _ => ?_) id
  refine hr.expression.upTo fun condition _ => ?_
  refine hr.statement.bind (fun thenBranch => ?_) id
  refine .choosing ?_ (fun _ => ?_) (.inl id)
  · exact (Agree.pure none).bind (fun _ => .pure _) id
  · exact (hr.statement.map some).bind (fun _ => .pure _) id

theorem agree_whileStatement : Agree c c.Apart k (whileStatement r) (whileStatement r') := by
  refine (Agree.expect _ _).bind (fun _ => ?_) id
  refine hr.expression.upTo fun condition _ => ?_
  exact (agree_insideLoop hr.statement).bind (fun _ => .pure _) id

theorem agree_returnStatement (keyword : Token) :
    Agree c q k (returnStatement keyword r) (returnStatement keyword r') :=
  (agree_unlessNext hr _).upTo fun _ _ => .pure _

omit hr in
theorem agree_breakStatement (keyword : Token) :
    Agree c q k (breakStatement keyword) (breakStatement keyword) := by
  have rest : Agree c q k (do
      let _ ← expect .semicolon .unterminatedBreak
      pure (Stmt.breakLoop keyword)) (do
      let _ ← expect .semicolon .unterminatedBreak
      pure (Stmt.breakLoop keyword)) :=
    (Agree.expect _ _).bind (fun _ => .pure _) id
  refine .get (onward.respects_breakStatement keyword) fun s short _ => ?_
  dsimp only
  rw [ParseState.amid_loopDepth]
  split
  · exact ((Agree.report _ _).bind (fun _ => rest) id).same s short
  · exact rest.same s short

theorem agree_printStatement : Agree c q k (printStatement r) (printStatement r') :=
  hr.expression.upTo fun _ _ => .pure _

/-! ### Classes -/

theorem agree_methods (n n' : Nat) (le : j ≤ k) (few : j < n) (few' : j < n') :
    Agree c False j (methods r n) (methods r' n') := by
  induction n generalizing n' j with
  | zero => exact absurd few (Nat.not_lt_zero j)
  | succ n ih =>
    obtain _ | n' := n'
    · exact absurd few' (Nat.not_lt_zero j)
    have respects := hr.advance.respects
    refine .get (onward.respects_methods respects (n + 1)) fun s short hidden => ?_
    rw [ParseState.atEnd_amid hidden, ParseState.nextIs_amid hidden]
    split
    · exact (Agree.pure []).same s short
    · refine (((agree_function hr .method).mono le id).same s short).bind (fun first => ?_) ?_
        (.inl id)
      · exact onward.respects_bind (onward.respects_methods respects n) fun _ =>
          onward.respects_pure _
      · intro first t read
        have less := advances_function hr.advance .method s t first read
        refine ((ih n' (j := t.rest.length) ?_ ?_ ?_).bind (fun others => .pure _) id).same t
          (Nat.le_refl _) <;> omega

theorem agree_classDeclaration :
    Agree c q k (classDeclaration r) (classDeclaration r') := by
  have rest (name : Token) (superclass : Option Use) : Agree c q k (do
      let _ ← expect .leftBrace .unopenedClassBody
      let members ← methods r r.rounds
      let _ ← expect .rightBrace .unclosedClassBody
      pure (Stmt.classDecl name superclass members)) (do
      let _ ← expect .leftBrace .unopenedClassBody
      let members ← methods r' r'.rounds
      let _ ← expect .rightBrace .unclosedClassBody
      pure (Stmt.classDecl name superclass members)) := by
    refine (Agree.expect _ _).bind (fun _ => ?_) id
    exact (agree_methods hr _ _ (Nat.le_refl k) hr.rounds hr.rounds').upTo fun _ _ => .pure _
  refine (Agree.expect _ _).bind (fun name => ?_) id
  refine .choosing ?_ (fun _ => ?_) (.inr ?_)
  · exact (Agree.pure (q := q) none).bind (rest name) id
  · refine (Agree.expect _ _).bind (fun superName => ?_) id
    exact ((Agree.newUse (q := q) superName).map some).bind (rest name) id
  · refine Advances.after (onward.respects_pure _) fun superclass => ?_
    refine (Advances.expect _ _).bind fun _ => ?_
    refine onward.respects_bind (onward.respects_methods hr.advance.respects _) fun _ => ?_
    exact onward.respects_bind (onward.respects_expect _ _) fun _ => onward.respects_pure _

/-! ### Expressions -/

omit hr in
theorem agreeAt_single {s : ParseState} (more : s.rest ≠ []) (e : Expr) :
    AgreeAt c q (single e) (single e) s := by
  intro _
  obtain ⟨word, rest, here⟩ := List.exists_cons_of_ne_nil more
  unfold single
  rw [ParseState.amid_of_cons here, here]
  rfl

theorem agreeAt_primaryAt {s : ParseState} {word : Token} {rest : List Token}
    (here : s.rest = word :: rest) (short : rest.length ≤ k) :
    AgreeAt c q (primaryAt r word) (primaryAt r' word) s := by
  have more : s.rest ≠ [] := by rw [here]; nofun
  have use (e : Use → Expr) : AgreeAt c q (newUse word >>= fun use => single (e use))
      (newUse word >>= fun use => single (e use)) s := by
    refine AgreeAt.bind ((Agree.newUse (q := q) word).same s (Nat.le_refl _))
      (fun _ => onward.respects_single _) ?_ (.inl id)
    rintro _ _ ⟨⟩
    exact agreeAt_single (s := { s with nextId := s.nextId + 1 }) more _
  have opened {type : TokenType} {p p' : Parse Expr} (fits : word.type = type)
      (hp : Agree c q k p p') :
      AgreeAt c q (accept type >>= fun _ => p) (accept type >>= fun _ => p') s :=
    .read here (by rw [fits]; exact beq_self_eq_true type) (hp.same _ short)
  unfold primaryAt
  split
  iterate 5 exact agreeAt_single more _
  · exact use .this
  · exact use .variable
  next type =>
    refine opened type ((Agree.expect _ _).bind (fun _ => ?_) id)
    refine (Agree.expect _ _).bind (fun method => ?_) id
    exact (Agree.newUse _).bind (fun _ => .pure _) id
  next type => exact opened type ((agree_functionRest hr _).bind (fun _ => .pure _) id)
  next type => exact opened type (hr.expression.upTo fun _ _ => .pure _)
  · exact (Agree.raise (k := s.rest.length) _).same s (Nat.le_refl _)

theorem agree_primary : Agree c q (k + 1) (primary r) (primary r') := by
  have leads := onward.respects_primary hr.advance.respects
  refine ⟨leads, fun s short => ?_⟩
  cases here : s.rest with
  | nil => exact .ended here (primary_ended here) primary_ended
  | cons word rest =>
    intro settled
    have hidden := settled.hidden_of_advances leads (advances_primary hr.advance)
    have peek : s.peek = word := by rw [ParseState.peek, here]; rfl
    rw [here] at short
    rw [primary_apply r, peek] at settled ⊢
    rw [primary_apply r', ParseState.peek_amid hidden, peek]
    exact agreeAt_primaryAt hr here (Nat.le_of_succ_le_succ short) settled

theorem agree_callRest (quiet : q → c.Closing) (n n' : Nat) (le : j ≤ k) (few : j < n)
    (few' : j < n') (e : Expr) : Agree c q j (callRest r n e) (callRest r' n' e) := by
  induction n generalizing n' j e with
  | zero => exact absurd few (Nat.not_lt_zero j)
  | succ n ih =>
    obtain _ | n' := n'
    · exact absurd few' (Nat.not_lt_zero j)
    refine .accepting (onward.respects_callRest hr.advance.respects (n + 1) e) (.pure e)
      (fun mark i less => ?_) (.inl fun holds => (quiet holds).quiet rfl)
    have later (e : Expr) : Agree c q i (callRest r n e) (callRest r' n' e) :=
      ih n' (by omega) (by omega) (by omega) e
    dsimp only
    split
    · have items := agree_itemsBeforeParen .tooManyArguments hr.expression _ _ hr.rounds
        hr.rounds'
      exact (items.mono (by omega) id).upTo fun arguments paren => later _
    · exact (Agree.expect _ _).bind (fun name => later _) id

theorem agree_call : Agree c c.Closing (k + 1) (call r) (call r') := by
  refine ⟨onward.respects_call hr.advance.respects, fun s short => ?_⟩
  refine ((agree_primary hr).same s short).bind
    (fun e => onward.respects_callRest hr.advance.respects _ e) (fun e t read => ?_) (.inl id)
  have less := advances_primary hr.advance s t e read
  exact (agree_callRest hr id _ _ (j := k) (Nat.le_refl k) hr.rounds hr.rounds' e).same t
    (by omega)

theorem agree_unaryUpTo (n n' : Nat) (le : j ≤ k + 1) (few : j ≤ n) (few' : j ≤ n') :
    Agree c c.Closing j (unaryUpTo r n) (unaryUpTo r' n') := by
  induction j generalizing n n' with
  | zero =>
    refine ⟨onward.respects_unaryUpTo hr.advance.respects n, fun s short => ?_⟩
    have here : s.rest = [] := List.eq_nil_of_length_eq_zero (Nat.le_zero.mp short)
    exact .ended here (unaryUpTo_of_error (primary_ended here) (nothing_passes here) n)
      fun there => unaryUpTo_of_error (primary_ended there) (nothing_passes there) n'
  | succ j ih =>
    obtain ⟨n, rfl⟩ := Nat.exists_eq_add_of_le' (Nat.lt_of_lt_of_le j.succ_pos few)
    obtain ⟨n', rfl⟩ := Nat.exists_eq_add_of_le' (Nat.lt_of_lt_of_le j.succ_pos few')
    refine .entering ((agree_call hr).mono le id) (fun operator => ?_)
      (.inl fun closing => closing.quiet rfl)
    exact (ih n n' (by omega) (by omega) (by omega)).bind (fun operand => .pure _) id

theorem agree_unary : Agree c c.Closing (k + 1) (unary r) (unary r') :=
  agree_unaryUpTo hr _ _ (Nat.le_refl _) hr.rounds hr.rounds'

theorem agree_operators {operators : TokenType → Bool} {join : Expr → Token → Expr → Expr}
    {operand operand' : Parse Expr} (agree : Agree c c.Closing (k + 1) operand operand')
    (advances : Advances operand) (other : operators .semicolon = false) :
    Agree c c.Closing (k + 1) (leftAssociative operators join operand r.rounds)
      (leftAssociative operators join operand' r'.rounds) :=
  agree_leftAssociative agree (fun closing => closing.quiet other) advances _ _ hr.rounds hr.rounds'

theorem agree_factor : Agree c c.Closing (k + 1) (factor r) (factor r') :=
  agree_operators hr (agree_unary hr) (advances_unary hr.advance) rfl

theorem agree_term : Agree c c.Closing (k + 1) (term r) (term r') :=
  agree_operators hr (agree_factor hr) (advances_factor hr.advance) rfl

theorem agree_comparison : Agree c c.Closing (k + 1) (comparison r) (comparison r') :=
  agree_operators hr (agree_term hr) (advances_term hr.advance) rfl

theorem agree_equality : Agree c c.Closing (k + 1) (equality r) (equality r') :=
  agree_operators hr (agree_comparison hr) (advances_comparison hr.advance) rfl

theorem agree_logicalAnd : Agree c c.Closing (k + 1) (logicalAnd r) (logicalAnd r') :=
  agree_operators hr (agree_equality hr) (advances_equality hr.advance) rfl

theorem agree_logicalOr : Agree c c.Closing (k + 1) (logicalOr r) (logicalOr r') :=
  agree_operators hr (agree_logicalAnd hr) (advances_logicalAnd hr.advance) rfl

theorem agree_assignment : Agree c c.Closing (k + 1) (assignment r) (assignment r') := by
  refine (agree_logicalOr hr).bind (fun target => ?_) id
  refine .entering (.pure target) (fun equals => ?_) (.inl fun closing => closing.quiet rfl)
  refine hr.expression.bind (fun value => ?_) id
  split
  · exact .pure _
  · exact (Agree.report _ _).bind (fun _ => .pure _) id

/-! ### Statements and declarations -/

theorem agree_statement : Agree c c.Apart (k + 1) (statement r) (statement r') := by
  refine .entering (agree_expressionStatement (agree_assignment hr)) (fun keyword => ?_)
    (.inr (advances_expressionStatement (advances_assignment hr.advance)))
  dsimp only
  split
  · exact agree_forStatement hr
  · exact agree_ifStatement hr
  · exact agree_whileStatement hr
  · exact agree_returnStatement hr keyword
  · exact agree_breakStatement keyword
  · exact (agree_block hr).map Stmt.block
  · exact agree_printStatement hr

/-- Whether a function is declared is seen where the text goes on or ends; after `fun` alone no
declaration is read. -/
theorem atFunction_amid {s : ParseState} (settled : c.Settled q (declaration r s)) :
    (s.amid c).atFunction = s.atFunction := by
  have hidden := settled.hidden_of_advances (onward.respects_declaration hr.advance.respects)
    (advances_declaration hr.advance)
  unfold ParseState.atFunction
  rw [ParseState.nextIs_amid hidden]
  have last (last : c.Last s) : (s.amid c).secondIs .identifier = s.secondIs .identifier := by
    rw [ParseState.secondIs, ParseState.amid_of_last last, ParseState.secondIs]
  obtain more | isLast | none := hidden
  · obtain ⟨word, rest, here⟩ := List.exists_cons_of_ne_nil more
    cases rest with
    | cons second rest =>
      rw [ParseState.secondIs, ParseState.amid_of_cons here, ParseState.secondIs, here]
      rfl
    | nil =>
      cases isFun : s.nextIs .kwFun with
      | false => rfl
      | true =>
        obtain ⟨_, _, split, type⟩ := nextIs_eq_true isFun
        rw [here] at split
        cases split
        obtain ⟨e, failed⟩ := declaration_of_fun (r := r) here type
        rw [failed] at settled
        obtain more | isLast | none := settled
        · exact absurd rfl more
        · rw [last isLast]
        · exact none.elim
  · rw [last isLast]
  · exact none.elim

theorem agree_declaration : Agree c c.Apart (k + 1) (declaration r) (declaration r') := by
  refine ⟨onward.respects_declaration hr.advance.respects, fun s short settled => ?_⟩
  have same := atFunction_amid hr settled
  revert settled
  unfold declaration
  rw [get_bind, get_bind, same]
  cases isFunction : s.atFunction with
  | true =>
    obtain ⟨word, rest, here, type⟩ := nextIs_eq_true (Bool.and_eq_true_iff.mp isFunction).1
    rw [here] at short
    have fits : (word.type == TokenType.kwFun) = true := beq_iff_eq.mpr type
    exact AgreeAt.read here fits (((agree_function hr .function).map _).same _
      (Nat.le_of_succ_le_succ short))
  | false =>
    refine (Agree.entering (agree_statement hr) (fun keyword => ?_)
      (.inr (advances_statement hr.advance))).same s short
    dsimp only
    split
    · exact agree_classDeclaration hr
    · exact agree_variableDeclaration hr

end Rules

/-! ### All levels -/

theorem agree_nextLevel {r r' : Rules} (hr : r.Agree c k r') :
    (nextLevel r).Agree c (k + 1) (nextLevel r') where
  advance := hr.advance.nextLevel
  rounds := Nat.succ_lt_succ hr.rounds
  rounds' := Nat.succ_lt_succ hr.rounds'
  expression := agree_assignment hr
  statement := agree_statement hr
  declaration := agree_recover (agree_declaration hr)

/-- Where no token is left, rules that miss an expression agree. -/
theorem agree_ended {r r' : Rules} (advance : r.Advance) (ends : r.Ends) (ends' : r'.Ends)
    (rounds : 0 < r.rounds) (rounds' : 0 < r'.rounds) : r.Agree c 0 r' := by
  have respects := advance.respects
  have nothing {s : ParseState} (short : s.rest.length ≤ 0) : s.rest = [] :=
    List.eq_nil_of_length_eq_zero (Nat.le_zero.mp short)
  refine ⟨advance, rounds, rounds',
    ⟨respects.expression, fun s short =>
      .ended (nothing short) (ends.expression s (nothing short)) (ends'.expression _)⟩,
    ⟨respects.statement, fun s short =>
      .ended (nothing short) (ends.statement s (nothing short)) (ends'.statement _)⟩,
    .total respects.declaration fun s short hidden => ?_⟩
  have here := nothing short
  rw [ends.declaration s here] at hidden ⊢
  obtain more | last | none := hidden
  · exact absurd here more
  · have last : c.Last s := last
    have there : (s.amid c).rest = [] := by rw [ParseState.amid_of_last last, here]
    rw [ends'.declaration (s.amid c) there, ParseState.peek_amid (.inr (.inl last)),
      ← ParseState.amid_report]
  · exact none.elim

theorem rounds_pos (n : Nat) : 0 < (rules n).rounds := by cases n <;> exact Nat.succ_pos _

theorem agree_rules (n n' : Nat) (le : k ≤ n) (le' : k ≤ n') :
    (rules n).Agree c k (rules n') := by
  induction k generalizing n n' with
  | zero =>
    exact agree_ended (advance_rules n) (ends_rules n) (ends_rules n') (rounds_pos n) (rounds_pos n')
  | succ k ih =>
    -- Rules are entered after a token is read, so a level less serves for a token less.
    obtain ⟨n, rfl⟩ := Nat.exists_eq_add_of_le' (Nat.lt_of_lt_of_le k.succ_pos le)
    obtain ⟨n', rfl⟩ := Nat.exists_eq_add_of_le' (Nat.lt_of_lt_of_le k.succ_pos le')
    exact agree_nextLevel (ih n n' (Nat.le_of_succ_le_succ le) (Nat.le_of_succ_le_succ le'))

/-! ### Declarations to the end -/

section Declarations

variable {r : Rules} {s : ParseState}

/-- A declaration is read in the longer text as in the text, unless it is read to the end. -/
theorem declaration_amid {n : Nat} (n' : Nat) (short : s.rest.length ≤ n)
    (short' : s.rest.length ≤ n')
    (hidden : c.Hidden False ((rules n).declaration s).2) :
    (rules n').declaration (s.amid c) =
      (((rules n).declaration s).1, ((rules n).declaration s).2.amid c) :=
  (agree_rules n n' short short').declaration.of_total (Nat.le_refl _) hidden

/-- A level more makes no difference. -/
theorem recover_declaration {n : Nat} (short : s.rest.length ≤ n) :
    recover (declaration (rules n)) s = (rules n).declaration s := by
  let c : Surroundings := ⟨[], [], s.endLine⟩
  have alone {t : ParseState} (line : t.endLine = s.endLine) : t.amid c = t := by
    obtain ⟨rest, endLine, loopDepth, nextId, errors⟩ := t
    obtain rfl : endLine = s.endLine := line
    simp only [ParseState.amid, c, List.append_nil, List.nil_append]
  have line := ((advance_rules n).respects.declaration s).endLine
  have hidden : c.Hidden False ((rules n).declaration s).2 := .inr (.inl ⟨rfl, line.symm⟩)
  have same := declaration_amid (n + 1) short (Nat.le_succ_of_le short) hidden
  rw [alone rfl, alone line] at same
  exact same

theorem declarations_ended (ended : s.rest = []) (n : Nat) :
    declarations r ParseState.atEnd n s = ([], s) :=
  declarations_stopped (List.isEmpty_iff.mpr ended) n

theorem declarations_more (more : s.rest ≠ []) (n : Nat) :
    declarations r ParseState.atEnd (n + 1) s =
      ((r.declaration s).1.toList ++ (declarations r ParseState.atEnd n (r.declaration s).2).1,
        (declarations r ParseState.atEnd n (r.declaration s).2).2) :=
  declarations_next (Bool.eq_false_iff.mpr fun ended => more (List.isEmpty_iff.mp ended)) n

end Declarations

end Lox.Syntax
