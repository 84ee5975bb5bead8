import Lox.Proofs.Grammar.Complete.Expression

/-!
# Phrases of programs are read

The parsers of statements and declarations, and all levels of rules: `complete_rules`.
-/

namespace Lox.Grammar

open Syntax

theorem completes_expressionStatement {p : Parse Expr} {bound : Nat}
    (hp : Completes (f := .rule (.expr .expression)) id bound ExprSymbol.expression.goesOn p) :
    Completes (f := .rule .exprStmt) id (bound + 1) [] (expressionStatement p) := by
  intro s d rest spans short _
  obtain _ | ⟨_ | _ | ⟨e, ⟨t, ht⟩⟩⟩ := d
  obtain ⟨first, -⟩ := (spans.of_plain rfl).of_seq
  have isEnd : t.type = .semicolon := by simpa using ht
  simp only [Phrase.tokens, List.length_append, List.length_singleton] at short
  refine (bind_of_ok (hp first (by omega) ?_)).trans ?_
  · simp [begins, Phrase.tokens, isEnd, ExprSymbol.goesOn]
  · exact (bind_of_ok (expect_of_some rfl isEnd _)).trans rfl

variable {k : Nat} {r : Rules} (hr : CompleteRules k r)

include hr

theorem completes_variableDeclaration :
    CompletesAfter .varDecl (k + 1) fun _ => variableDeclaration r := by
  intro s d keyword rest spans short
  match d, spans, short with
  | .rule (.seq (.token t ht) (.seq (.token u hu) (.seq .none (.token v hv)))), spans, _ =>
    obtain ⟨_, split, parts⟩ := (spans.of_plain rfl).uncons
    cases split
    have here : s.rest = u :: v :: rest := parts.split
    refine (bind_of_ok (expect_of_some here (by simpa using hu) _)).trans ?_
    refine (bind_of_ok (accept_of_none fun t ts split => ?_)).trans ?_
    · cases split
      rw [show v.type = .semicolon by simpa using hv]
      nofun
    · exact (bind_of_ok (expect_of_some rfl (by simpa using hv) _)).trans rfl
  | .rule (.seq (.token t ht) (.seq (.token u hu) (.seq (.some (.seq (.token w hw) e))
      (.token v hv)))), spans, short =>
    obtain ⟨_, split, parts⟩ := (spans.of_plain rfl).uncons
    cases split
    obtain ⟨_, split, parts⟩ := parts.uncons
    obtain ⟨initializer, -⟩ := parts.of_seq
    obtain ⟨_, split', value⟩ := initializer.of_some.uncons
    cases split'
    have isEnd : v.type = .semicolon := by simpa using hv
    simp only [Phrase.tokens, List.length_append, List.length_singleton] at short
    refine (bind_of_ok (expect_of_some split (by simpa using hu) _)).trans ?_
    refine (bind_of_ok (accept_of_some rfl (by simpa using hw))).trans ?_
    refine (bind_of_ok (map_of_ok (hr.expression value (by omega) ?_))).trans ?_
    · simp [begins, Phrase.tokens, isEnd, ExprSymbol.goesOn]
    · exact (bind_of_ok (expect_of_some rfl isEnd _)).trans rfl

/-- An expression that may be missing, before a token that ends it. -/
theorem completes_unlessNext {type : TokenType} (ends : ExprSymbol.expression.goesOn.contains type = false)
    (apart : (Form.rule (.expr .expression)).first type = false) {s : ParseState}
    {d : Phrase (.optional (.rule (.expr .expression)))} {word : Token} {rest : List Token}
    (isWord : word.type = type)
    (spans : Spans (decide (s.loopDepth ≠ 0)) d s.rest (word :: rest)) (short : d.tokens.length ≤ k) :
    unlessNext type r s = .ok (orNone d.value s.nextId).1
      { s with rest := word :: rest, nextId := (orNone d.value s.nextId).2 } := by
  refine (get_bind _ s).trans ?_
  cases d with
  | none =>
    have here : s.rest = word :: rest := spans.split
    rw [if_pos (by simp [ParseState.nextIs, here, isWord]), ← here]
    rfl
  | some e =>
    rw [if_neg (Bool.eq_false_iff.mp (nextIs_eq_false (spans.of_some.first_ne rfl apart)))]
    refine (map_of_ok (hr.expression spans.of_some short ?_)).trans rfl
    rw [begins, List.head?_cons, Option.any_some, isWord, ends]

theorem completes_forInitializer :
    Completes (f := .firstClause) firstClause k [] (forInitializer r) := by
  intro s d rest spans short _
  match d, spans, short with
  | .left d, spans, short =>
    obtain ⟨t, text, split, isVar, declaration⟩ := spans.of_left.opens rfl fun _ => beq_iff_eq.mp
    refine (bind_of_ok (accept_of_none (spans.of_left.first_ne rfl rfl))).trans ?_
    refine (bind_of_ok (accept_of_some split isVar)).trans ?_
    exact (map_of_ok (completes_variableDeclaration hr (s := { s with rest := text }) declaration
      (Nat.le_succ_of_le short))).trans rfl
  | .right (.left d), spans, short =>
    refine (bind_of_ok (accept_of_none ?_)).trans ?_
    · exact spans.of_right.of_left.first_ne rfl rfl
    refine (bind_of_ok (accept_of_none ?_)).trans ?_
    · exact spans.of_right.of_left.first_ne rfl rfl
    exact (map_of_ok (completes_expressionStatement hr.expression spans.of_right.of_left
      (Nat.le_succ_of_le short) (begins_nil _))).trans rfl
  | .right (.right (.token t ht)), spans, _ =>
    exact (bind_of_ok (accept_of_some spans.split (by simpa using ht))).trans rfl

theorem completes_forStatement : CompletesAfter .forStmt (k + 1) fun _ => forStatement r := by
  intro s d keyword rest spans short
  obtain _ | ⟨_ | _ | ⟨⟨t, ht⟩, _ | _ | ⟨⟨u, hu⟩, _ | _ | ⟨initializer, _ | _ | ⟨condition, _ | _ |
    ⟨⟨v, hv⟩, _ | _ | ⟨increment, _ | _ | ⟨⟨w, hw⟩, body⟩⟩⟩⟩⟩⟩⟩⟩ := d
  have parts : Spans true _ _ _ := spans.of_rule
  obtain ⟨_, split, parts⟩ := parts.uncons
  cases split
  obtain ⟨_, split₁, parts⟩ := parts.uncons
  obtain ⟨first, parts⟩ := parts.of_seq
  obtain ⟨second, parts⟩ := parts.of_seq
  obtain ⟨_, split₂, parts⟩ := parts.uncons
  obtain ⟨third, parts⟩ := parts.of_seq
  obtain ⟨_, split₃, last⟩ := parts.uncons
  rw [split₂] at second
  rw [split₃] at third
  have isEnd : v.type = .semicolon := by simpa using hv
  have isClosing : w.type = .rightParen := by simpa using hw
  simp only [Phrase.tokens, List.length_append, List.length_singleton] at short
  refine (bind_of_ok (expect_of_some split₁ (by simpa using hu) _)).trans ?_
  refine (bind_of_ok (completes_forInitializer hr (first.sheltered rfl _) (by omega)
    (begins_nil _))).trans ?_
  refine (bind_of_ok (completes_unlessNext hr rfl rfl isEnd (second.sheltered rfl _)
    (by omega))).trans ?_
  refine (bind_of_ok (expect_of_some rfl isEnd _)).trans ?_
  refine (bind_of_ok (completes_unlessNext hr rfl rfl isClosing (third.sheltered rfl _)
    (by omega))).trans ?_
  refine (bind_of_ok (expect_of_some rfl isClosing _)).trans ?_
  refine (bind_of_ok (hr.loopBody last (by omega))).trans ?_
  rw [← whileForm_eq]
  rfl

theorem completes_whileStatement : CompletesAfter .whileStmt (k + 1) fun _ => whileStatement r := by
  intro s d keyword rest spans short
  obtain _ | ⟨_ | _ | ⟨⟨t, ht⟩, _ | _ | ⟨⟨u, hu⟩, _ | _ | ⟨condition, _ | _ | ⟨⟨v, hv⟩, body⟩⟩⟩⟩⟩ := d
  have parts : Spans true _ _ _ := spans.of_rule
  obtain ⟨_, split, parts⟩ := parts.uncons
  cases split
  obtain ⟨_, split₁, parts⟩ := parts.uncons
  obtain ⟨first, parts⟩ := parts.of_seq
  obtain ⟨_, split₂, last⟩ := parts.uncons
  rw [split₂] at first
  have isClosing : v.type = .rightParen := by simpa using hv
  simp only [Phrase.tokens, List.length_append, List.length_singleton] at short
  refine (bind_of_ok (expect_of_some split₁ (by simpa using hu) _)).trans ?_
  refine (bind_of_ok (hr.expression (first.sheltered rfl _) (by omega) ?_)).trans ?_
  · simp [begins, isClosing, ExprSymbol.goesOn]
  refine (bind_of_ok (expect_of_some rfl isClosing _)).trans ?_
  exact (bind_of_ok (hr.loopBody last (by omega))).trans rfl

theorem completes_ifStatement : CompletesAfter .ifStmt (k + 1) fun _ => ifStatement r := by
  intro s d keyword rest spans short
  obtain _ | ⟨_ | _ | ⟨⟨t, ht⟩, _ | _ | ⟨⟨u, hu⟩, _ | _ | ⟨condition, _ | _ | ⟨⟨v, hv⟩, _ | _ |
    ⟨thenBranch, elseBranch⟩⟩⟩⟩⟩⟩ := d
  obtain ⟨_, split, parts⟩ := (spans.of_plain rfl).uncons
  cases split
  obtain ⟨_, split₁, parts⟩ := parts.uncons
  obtain ⟨first, parts⟩ := parts.of_seq
  obtain ⟨_, split₂, parts⟩ := parts.uncons
  obtain ⟨second, last⟩ := parts.of_seq
  rw [split₂] at first
  have isClosing : v.type = .rightParen := by simpa using hv
  simp only [Phrase.tokens, List.length_append, List.length_singleton] at short
  refine (bind_of_ok (expect_of_some split₁ (by simpa using hu) _)).trans ?_
  refine (bind_of_ok (hr.expression first (by omega) ?_)).trans ?_
  · simp [begins, isClosing, ExprSymbol.goesOn]
  refine (bind_of_ok (expect_of_some rfl isClosing _)).trans ?_
  refine (bind_of_ok (hr.statement second (by omega) (begins_nil _))).trans ?_
  cases elseBranch with
  | none =>
    refine (bind_of_ok (accept_of_none fun word text split isElse => ?_)).trans rfl
    have noElse := last.openEnd rfl
    rw [show rest = word :: text from split, beginsElse, isElse] at noElse
    cases noElse
  | some e =>
    obtain _ | _ | ⟨⟨w, hw⟩, e⟩ := e
    obtain ⟨_, split₃, inside⟩ := last.of_some.uncons
    simp only [Phrase.tokens, List.length_append, List.length_singleton] at short
    refine (bind_of_ok (accept_of_some split₃ (by simpa using hw))).trans ?_
    exact (bind_of_ok (map_of_ok (hr.statement inside (by omega) (begins_nil _)))).trans rfl

theorem completes_returnStatement : CompletesAfter .returnStmt (k + 1) (returnStatement · r) := by
  intro s d keyword rest spans short
  obtain _ | ⟨_ | _ | ⟨⟨t, ht⟩, _ | _ | ⟨value, ⟨u, hu⟩⟩⟩⟩ := d
  obtain ⟨_, split, parts⟩ := (spans.of_plain rfl).uncons
  cases split
  obtain ⟨first, -⟩ := parts.of_seq
  have isEnd : u.type = .semicolon := by simpa using hu
  simp only [Phrase.tokens, List.length_append, List.length_singleton] at short
  refine (bind_of_ok (completes_unlessNext hr rfl rfl isEnd first (by omega))).trans ?_
  exact (bind_of_ok (expect_of_some rfl isEnd _)).trans rfl

omit hr in
theorem completes_breakStatement : CompletesAfter .breakStmt (k + 1) breakStatement := by
  intro s d keyword rest spans short
  obtain _ | ⟨_ | _ | ⟨⟨t, ht⟩, ⟨u, hu⟩⟩⟩ := d
  have inside : s.loopDepth ≠ 0 := by simpa using spans.breaks.1 rfl
  obtain ⟨_, split, last⟩ := spans.of_rule.uncons
  cases split
  refine (get_bind _ s).trans ?_
  dsimp only
  rw [if_neg inside]
  exact (bind_of_ok (expect_of_some last.split (by simpa using hu) _)).trans rfl

theorem completes_printStatement : CompletesAfter .printStmt (k + 1) fun _ => printStatement r := by
  intro s d keyword rest spans short
  obtain _ | ⟨_ | _ | ⟨⟨t, ht⟩, _ | _ | ⟨e, ⟨u, hu⟩⟩⟩⟩ := d
  obtain ⟨_, split, parts⟩ := (spans.of_plain rfl).uncons
  cases split
  obtain ⟨first, -⟩ := parts.of_seq
  have isEnd : u.type = .semicolon := by simpa using hu
  simp only [Phrase.tokens, List.length_append, List.length_singleton] at short
  refine (bind_of_ok (hr.expression first (by omega) ?_)).trans ?_
  · simp [begins, Phrase.tokens, isEnd, ExprSymbol.goesOn]
  · exact (bind_of_ok (expect_of_some rfl isEnd _)).trans rfl

omit hr in
theorem opensStatement_of_startsExpression {type : TokenType} (h : startsExpression type = true) :
    opensStatement type = false := by
  cases type <;> first | rfl | cases h

theorem completes_statement :
    Completes (f := .rule .statement) id (k + 1) [] (statement r) := by
  intro s d rest spans short _
  -- A keyword or a brace tells the statements apart; an expression begins with none of them.
  match d, spans, short with
  | .rule (.left d), spans, short =>
    have body := (spans.of_plain rfl).of_left
    obtain ⟨t, text, split, isFirst⟩ := body.exists_first rfl
    refine (bind_of_ok (acceptIf_of_none fun t' ts split' => ?_)).trans ?_
    · cases split.symm.trans split'
      exact opensStatement_of_startsExpression isFirst
    have expression : Completes (f := .rule (.expr .expression)) id (k + 1)
        ExprSymbol.expression.goesOn (assignment r) :=
      Completes.rule (n := .expr .expression) rfl (completes_assignment hr)
    exact completes_expressionStatement expression body (Nat.le_succ_of_le short) (begins_nil _)
  | .rule (.right (.left d)), spans, short =>
    obtain ⟨t, text, split, type, body⟩ :=
      (spans.of_plain rfl).of_right.of_left.opens rfl fun _ => beq_iff_eq.mp
    refine (bind_of_ok (acceptIf_of_some split (by rw [type]; rfl))).trans ?_
    simp only [type]
    exact completes_forStatement hr (s := { s with rest := text }) body short
  | .rule (.right (.right (.left d))), spans, short =>
    obtain ⟨t, text, split, type, body⟩ :=
      (spans.of_plain rfl).of_right.of_right.of_left.opens rfl fun _ => beq_iff_eq.mp
    refine (bind_of_ok (acceptIf_of_some split (by rw [type]; rfl))).trans ?_
    simp only [type]
    exact completes_ifStatement hr (s := { s with rest := text }) body short
  | .rule (.right (.right (.right (.left d)))), spans, short =>
    obtain ⟨t, text, split, type, body⟩ :=
      (spans.of_plain rfl).of_right.of_right.of_right.of_left.opens rfl fun _ => beq_iff_eq.mp
    refine (bind_of_ok (acceptIf_of_some split (by rw [type]; rfl))).trans ?_
    simp only [type]
    exact completes_printStatement hr (s := { s with rest := text }) body short
  | .rule (.right (.right (.right (.right (.left d))))), spans, short =>
    obtain ⟨t, text, split, type, body⟩ :=
      (spans.of_plain rfl).of_right.of_right.of_right.of_right.of_left.opens rfl fun _ => beq_iff_eq.mp
    refine (bind_of_ok (acceptIf_of_some split (by rw [type]; rfl))).trans ?_
    simp only [type]
    exact completes_returnStatement hr (s := { s with rest := text }) body short
  | .rule (.right (.right (.right (.right (.right (.left d)))))), spans, short =>
    obtain ⟨t, text, split, type, body⟩ :=
      (spans.of_plain rfl).of_right.of_right.of_right.of_right.of_right.of_left.opens rfl fun _ => beq_iff_eq.mp
    refine (bind_of_ok (acceptIf_of_some split (by rw [type]; rfl))).trans ?_
    simp only [type]
    exact completes_whileStatement hr (s := { s with rest := text }) body short
  | .rule (.right (.right (.right (.right (.right (.right (.left d))))))), spans, short =>
    obtain ⟨t, text, split, type, body⟩ :=
      (spans.of_plain rfl).of_right.of_right.of_right.of_right.of_right.of_right.of_left.opens rfl fun _ => beq_iff_eq.mp
    refine (bind_of_ok (acceptIf_of_some split (by rw [type]; rfl))).trans ?_
    simp only [type]
    exact completes_breakStatement (s := { s with rest := text }) body short
  | .rule (.right (.right (.right (.right (.right (.right (.right d))))))), spans, short =>
    obtain ⟨t, text, split, type, body⟩ :=
      (spans.of_plain rfl).of_right.of_right.of_right.of_right.of_right.of_right.of_right.opens rfl fun _ => beq_iff_eq.mp
    refine (bind_of_ok (acceptIf_of_some split (by rw [type]; rfl))).trans ?_
    simp only [type]
    exact map_of_ok (completes_block hr (s := { s with rest := text }) body short)

/-! ### Declarations -/

theorem completes_methods {s : ParseState} {brace : Token} {rest : List Token}
    (isBrace : brace.type = .rightBrace) (rounds : Nat) :
    (ps : Phrase (.many (.rule .function))) →
    Spans (decide (s.loopDepth ≠ 0)) ps s.rest (brace :: rest) → ps.tokens.length ≤ k + 1 →
    ps.repeats ≤ rounds →
    methods r rounds s = .ok (inOrder ps.value s.nextId).1
      { s with rest := brace :: rest, nextId := (inOrder ps.value s.nextId).2 }
  | .nil, spans, _, _ => by
    have here : s.rest = brace :: rest := spans.split
    cases rounds with
    | zero => rw [← here]; rfl
    | succ rounds =>
      refine (get_bind _ s).trans ?_
      rw [if_pos (by simp [ParseState.nextIs, here, isBrace]), ← here]
      rfl
  | .cons p ps, spans, short, few => by
    obtain ⟨first, others⟩ := spans.of_cons (.inl rfl)
    obtain ⟨t, ts, begin, isFirst⟩ := first.exists_first rfl
    have isName : t.type = .identifier := beq_iff_eq.mp isFirst
    simp only [Phrase.tokens, List.length_append] at short
    obtain _ | rounds := rounds
    · exact absurd few (Nat.not_succ_le_zero _)
    refine (get_bind _ s).trans ?_
    rw [if_neg (by simp [ParseState.nextIs, ParseState.atEnd, begin, isName])]
    refine (bind_of_ok (completes_function hr .method first (by omega) (begins_nil _))).trans ?_
    exact (bind_of_ok (completes_methods isBrace rounds ps others (by omega)
      (Nat.le_of_succ_le_succ few))).trans rfl

theorem completes_classDeclaration :
    CompletesAfter .classDecl (k + 1) fun _ => classDeclaration r := by
  intro s d keyword rest spans short
  obtain _ | ⟨_ | _ | ⟨⟨t, ht⟩, _ | _ | ⟨⟨u, hu⟩, _ | _ | ⟨superclass, _ | _ | ⟨⟨v, hv⟩, _ | _ |
    ⟨members, ⟨w, hw⟩⟩⟩⟩⟩⟩⟩ := d
  have isBrace : v.type = .leftBrace := by simpa using hv
  have isClosing : w.type = .rightBrace := by simpa using hw
  obtain ⟨_, split, parts⟩ := (spans.of_plain rfl).uncons
  cases split
  obtain ⟨_, split₁, parts⟩ := parts.uncons
  obtain ⟨above, parts⟩ := parts.of_seq
  obtain ⟨_, split₂, parts⟩ := parts.uncons
  obtain ⟨first, -⟩ := parts.of_seq
  simp only [Phrase.tokens, List.length_append, List.length_singleton] at short
  have few := members.repeats_le rfl
  rw [split₂] at above
  refine (bind_of_ok (expect_of_some split₁ (by simpa using hu) _)).trans ?_
  obtain _ | _ | _ | _ | _ | _ | ⟨_ | _ | ⟨⟨x, hx⟩, ⟨y, hy⟩⟩⟩ := superclass
  · cases above.split
    refine (bind_of_ok (accept_of_none fun t ts split => ?_)).trans ?_
    · cases split
      rw [isBrace]
      intro same
      cases same
    refine (bind_of_ok (expect_of_some rfl isBrace _)).trans ?_
    refine (bind_of_ok (completes_methods hr isClosing _ members first (by omega)
      (by rw [hr.rounds]; omega))).trans ?_
    exact (bind_of_ok (expect_of_some rfl isClosing _)).trans rfl
  · cases above.split
    refine (bind_of_ok (accept_of_some rfl (by simpa using hx))).trans ?_
    refine (bind_of_ok (expect_of_some rfl (by simpa using hy) _)).trans ?_
    refine (bind_of_ok (map_of_ok (newUse_ok y _))).trans ?_
    refine (bind_of_ok (expect_of_some rfl isBrace _)).trans ?_
    refine (bind_of_ok (completes_methods hr isClosing _ members first (by omega)
      (by rw [hr.rounds]; omega))).trans ?_
    exact (bind_of_ok (expect_of_some rfl isClosing _)).trans rfl

omit hr in
/-- A phrase that does not begin with `fun` and a name does not look like a function. -/
theorem atFunction_eq_false {s : ParseState} {ts rest : List Token} (full : ts ≠ [])
    (h : beginsFunction ts = false) (split : s.rest = ts ++ rest) : s.atFunction = false := by
  unfold ParseState.atFunction ParseState.nextIs ParseState.secondIs
  match ts, full, h with
  | [t], _, h =>
    rw [split]
    simpa [beginsFunction] using fun isFun => absurd isFun (by simpa [beginsFunction] using h)
  | t :: u :: ts, _, h =>
    rw [split]
    simpa [beginsFunction] using h

omit hr in
theorem startsStatement_ne {type : TokenType} (h : Symbol.statement.first type = true) :
    (type == .kwClass || type == .kwVar) = false := by
  cases type <;> first | rfl | cases h

theorem completes_declaration :
    Completes (f := .rule .declaration) id (k + 1) [] (declaration r) := by
  intro s d rest spans short _
  match d, spans, short with
  | .rule (.left d), spans, short =>
    obtain ⟨t, text, split, type, body⟩ := (spans.of_plain rfl).of_left.opens rfl
      fun _ => beq_iff_eq.mp
    have notFunction : s.atFunction = false := by
      simp [ParseState.atFunction, ParseState.nextIs, split, type]
    refine (get_bind _ s).trans ?_
    rw [if_neg (Bool.eq_false_iff.mp notFunction)]
    refine (bind_of_ok (acceptIf_of_some split (by simp [type]))).trans ?_
    simp only [type, beq_self_eq_true, if_true]
    exact completes_classDeclaration hr (s := { s with rest := text }) body short
  | .rule (.right (.left (.rule (.seq (.token t ht) d)))), spans, short =>
    have isFun : t.type = .kwFun := by simpa using ht
    obtain ⟨_, split, body⟩ := ((spans.of_plain rfl).of_right.of_left.of_plain rfl).uncons
    obtain ⟨u, text, split', isName, -⟩ := body.opens rfl fun _ => beq_iff_eq.mp
    have atFunction : s.atFunction = true := by
      simp [ParseState.atFunction, ParseState.nextIs, ParseState.secondIs, split, split', isFun,
        isName]
    simp only [Phrase.tokens, List.length_append, List.length_singleton] at short
    refine (get_bind _ s).trans ?_
    rw [if_pos atFunction]
    refine (bind_of_ok (accept_of_some split isFun)).trans ?_
    exact (map_of_ok (completes_function hr .function body (by omega) (begins_nil _))).trans rfl
  | .rule (.right (.right (.left d))), spans, short =>
    obtain ⟨t, text, split, type, body⟩ := (spans.of_plain rfl).of_right.of_right.of_left.opens rfl
      fun _ => beq_iff_eq.mp
    have notFunction : s.atFunction = false := by
      simp [ParseState.atFunction, ParseState.nextIs, split, type]
    refine (get_bind _ s).trans ?_
    rw [if_neg (Bool.eq_false_iff.mp notFunction)]
    refine (bind_of_ok (acceptIf_of_some split (by simp [type]))).trans ?_
    simp only [type]
    exact completes_variableDeclaration hr (s := { s with rest := text }) body short
  | .rule (.right (.right (.right d))), spans, short =>
    have body := (spans.of_plain rfl).of_right.of_right.of_right
    obtain ⟨t, text, split, isFirst⟩ := body.exists_first rfl
    have notFunction := atFunction_eq_false (d.tokens_ne_nil rfl) (d.not_beginsFunction rfl) body.split
    refine (get_bind _ s).trans ?_
    rw [if_neg (Bool.eq_false_iff.mp notFunction)]
    refine (bind_of_ok (acceptIf_of_none fun t' ts split' => ?_)).trans ?_
    · cases split.symm.trans split'
      exact startsStatement_ne isFirst
    · exact completes_statement hr body short (begins_nil _)

omit hr in
/-- All levels of rules read the phrases that are short enough. -/
theorem complete_rules (n : Nat) : CompleteRules n (rules n) := by
  induction n with
  | zero =>
    refine ⟨rfl, ?_, ?_, ?_⟩
    all_goals
      intro s d rest spans short
      exact absurd (List.length_eq_zero_iff.mp (Nat.le_zero.mp short)) (d.tokens_ne_nil rfl)
  | succ n ih =>
    refine ⟨?_, ?_, completes_statement ih, ?_⟩
    · exact congrArg (· + 1) ih.rounds
    · exact Completes.rule (n := .expr .expression) rfl (completes_assignment ih)
    · intro s d rest spans short stops
      have read := completes_declaration ih spans short stops
      change Total.toParse (recover (declaration (rules n))) s = _
      unfold Total.toParse recover
      rw [read]
      rfl

end Lox.Grammar
