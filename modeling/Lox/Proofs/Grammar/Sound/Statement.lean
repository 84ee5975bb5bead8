import Lox.Proofs.Grammar.Sound.Expression

/-!
# What is read as a program is a phrase

The parsers of statements and declarations, and all levels of rules: `sound_rules`.
-/

namespace Lox.Grammar

open Syntax

variable {r : Rules}

theorem finds_expressionStatement {p : Parse Expr}
    (hp : Finds p (Reads (.rule (.expr .expression)) id)) :
    Finds (expressionStatement p) (Reads (.rule .exprStmt) id) := by
  refine (hp.bind fun e => (Finds.expect _ _).bind fun _ => Finds.pure (Stmt.expression e)).mono ?_
  rintro s _ t ⟨e, mid, ⟨p, spans, number⟩, -, word, _, ⟨split, isEnd, same⟩, -, rfl, rfl⟩
  refine Reads.plain rfl ⟨.seq p (.only isEnd), .seq spans ?_, ?_⟩
  · rw [split]
    exact .only _
  · rw [same]
    exact Numbered.map_eq (x := p.value) number

variable (hr : SoundRules r)

include hr

theorem finds_variableDeclaration : Finds (variableDeclaration r) fun s a t =>
    ∀ keyword, keyword.type = .kwVar → ReadsFrom keyword .varDecl s a t := by
  have ending (name : Token) (initializer : Option Expr) :=
    (Finds.expect .semicolon .unterminatedVariable).bind fun _ =>
      Finds.pure (Stmt.var name initializer)
  refine ((Finds.expect _ _).bind fun name => Finds.accept
    ((Finds.pure none).bind fun initializer => ending name initializer) fun _ =>
      (hr.expression.map some).bind fun initializer => ending name initializer).mono ?_
  rintro s _ t ⟨name, s₁, ⟨split, isName, same₁⟩, loops₁, found⟩ keyword isVar
  obtain ⟨-, _, s₂, ⟨rfl, rfl⟩, -, word, _, ⟨last, isEnd, same₂⟩, -, rfl, rfl⟩ |
    ⟨equal, s₂, ⟨next, isEqual, same₂⟩, loops₂, _, s₃, ⟨e, ⟨p, spans, number⟩, rfl⟩, -, word, _,
      ⟨last, isEnd, same₃⟩, -, rfl, rfl⟩ := found
  · refine Reads.plain rfl ⟨.seq (.only isVar) (.seq (.only isName) (.seq .none (.only isEnd))),
      .seq (.only _) ?_, ?_⟩
    · dsimp only
      rw [split, last]
      exact .seq (.only _) (.seq (.none nofun) (.only _))
    · rw [same₂, same₁]
      rfl
  · rw [loops₂, loops₁] at spans
    refine Reads.plain rfl ⟨.seq (.only isVar) (.seq (.only isName)
      (.seq (.some (.seq (.only isEqual) p)) (.only isEnd))), .seq (.only _) ?_, ?_⟩
    · dsimp only
      rw [split, next]
      refine .seq (.only _) (.seq (.some (.seq (.only _) spans)) ?_)
      rw [last]
      exact .only _
    · change ((some <$> p.value) >>= fun initializer => pure (Stmt.var name initializer)) s.nextId = _
      rw [← same₁, ← same₂, Numbered.bind_eq (Numbered.map_eq (x := p.value) number), same₃]
      rfl

theorem finds_unlessNext (type : TokenType) :
    Finds (unlessNext type r) (Reads (.optional (.rule (.expr .expression))) orNone) := by
  refine Finds.get fun now => ?_
  split
  · refine (Finds.pure none).mono ?_
    rintro s _ _ ⟨rfl, rfl⟩ -
    exact ⟨.none, .none nofun, rfl⟩
  · refine (hr.expression.map some).mono ?_
    rintro s _ t ⟨e, ⟨p, spans, number⟩, rfl⟩ -
    exact ⟨.some p, .some spans, Numbered.map_eq (x := p.value) number⟩

theorem finds_forInitializer : Finds (forInitializer r) (Reads .firstClause firstClause) := by
  refine (Finds.accept (Finds.accept ((finds_expressionStatement hr.expression).map some)
    fun keyword => (finds_variableDeclaration hr).map some) fun _ => Finds.pure none).mono ?_
  rintro s _ t (⟨-, ⟨-, a, ⟨p, spans, number⟩, rfl⟩ |
    ⟨keyword, s₁, ⟨split, isVar, same⟩, loops, a, declared, rfl⟩⟩ |
    ⟨word, _, ⟨split, isEnd, same⟩, -, rfl, rfl⟩)
  · exact ⟨.right (.left p), .right (.left spans), Numbered.map_eq (x := p.value) number⟩
  · obtain ⟨p, spans, number⟩ := (declared keyword isVar).back split same loops
    exact ⟨.left p, .left spans, Numbered.map_eq (x := p.value) number⟩
  · refine ⟨.right (.right (.only isEnd)), .right (.right ?_), by rw [same]; rfl⟩
    rw [split]
    exact .only _

theorem finds_forStatement {keyword : Token} (isFor : keyword.type = .kwFor) :
    Finds (forStatement r) (ReadsFrom keyword .forStmt) := by
  refine ((Finds.expect _ _).bind fun _ => (finds_forInitializer hr).bind fun initializer =>
    (finds_unlessNext hr .semicolon).bind fun condition => (Finds.expect _ _).bind fun _ =>
    (finds_unlessNext hr .rightParen).bind fun increment => (Finds.expect _ _).bind fun _ =>
    (Finds.insideLoop hr.statement).bind fun body =>
    Finds.pure (forLoop initializer condition increment body)).mono ?_
  rintro s _ t ⟨opening, s₁, ⟨split₁, isOpening, same₁⟩, -, initializer, s₂, ⟨a, first, number₂⟩, -,
    condition, s₃, ⟨b, second, number₃⟩, -, word, s₄, ⟨split₄, isEnd, same₄⟩, -,
    increment, s₅, ⟨c, third, number₅⟩, -, closing, s₆, ⟨split₆, isClosing, same₆⟩, -,
    body, _, ⟨after, ⟨d, last, number₇⟩, rests, same₇⟩, -, rfl, rfl⟩
  refine ⟨.rule (.seq (.only isFor) (.seq (.only isOpening) (.seq a (.seq b (.seq (.only isEnd)
    (.seq c (.seq (.only isClosing) d))))))), .rule (.seq (.only _) ?_) nofun nofun, ?_⟩
  · refine split₁ ▸ .seq (.only _) (.seq (first.sheltered rfl _) (.seq (second.sheltered rfl _) ?_))
    refine split₄ ▸ .seq (.only _) (.seq (third.sheltered rfl _) ?_)
    refine split₆ ▸ .seq (.only _) (rests ▸ ?_)
    have : Spans true d s₆.rest after.rest := by simpa using last
    exact this
  · change (firstClause a.value >>= fun initializer => orNone b.value >>= fun condition =>
      orNone c.value >>= fun increment => d.value >>= fun body =>
      pure (whileForm initializer condition increment body)) s.nextId = _
    rw [← same₁, Numbered.bind_eq number₂, Numbered.bind_eq number₃, ← same₄,
      Numbered.bind_eq number₅, ← same₆, Numbered.bind_eq (x := d.value) number₇, whileForm_eq,
      same₇]
    rfl

theorem finds_whileStatement {keyword : Token} (isWhile : keyword.type = .kwWhile) :
    Finds (whileStatement r) (ReadsFrom keyword .whileStmt) := by
  refine ((Finds.expect _ _).bind fun _ => hr.expression.bind fun condition =>
    (Finds.expect _ _).bind fun _ => (Finds.insideLoop hr.statement).bind fun body =>
    Finds.pure (Stmt.whileLoop condition body)).mono ?_
  rintro s _ t ⟨opening, s₁, ⟨split₁, isOpening, same₁⟩, -, condition, s₂, ⟨c, first, number₂⟩, -,
    closing, s₃, ⟨split₃, isClosing, same₃⟩, -, body, _, ⟨after, ⟨d, last, number₄⟩, rests, same₄⟩,
    -, rfl, rfl⟩
  refine ⟨.rule (.seq (.only isWhile) (.seq (.only isOpening) (.seq c (.seq (.only isClosing) d)))),
    .rule (.seq (.only _) ?_) nofun nofun, ?_⟩
  · refine split₁ ▸ .seq (.only _) (.seq (first.sheltered rfl _) ?_)
    refine split₃ ▸ .seq (.only _) (rests ▸ ?_)
    have : Spans true d s₃.rest after.rest := by simpa using last
    exact this
  · change (c.value >>= fun condition => d.value >>= fun body =>
      pure (Stmt.whileLoop condition body)) s.nextId = _
    rw [← same₁, Numbered.bind_eq (x := c.value) number₂, ← same₃,
      Numbered.bind_eq (x := d.value) number₄, same₄]
    rfl

theorem finds_ifStatement {keyword : Token} (isIf : keyword.type = .kwIf) :
    Finds (ifStatement r) (ReadsFrom keyword .ifStmt) := by
  have ending (condition : Expr) (thenBranch : Stmt) (elseBranch : Option Stmt) :=
    Finds.pure (Stmt.ifElse condition thenBranch elseBranch)
  refine ((Finds.expect _ _).bind fun _ => hr.expression.bind fun condition =>
    (Finds.expect _ _).bind fun _ => hr.statement.bind fun thenBranch =>
    Finds.accept ((Finds.pure none).bind fun elseBranch => ending condition thenBranch elseBranch)
      fun _ => (hr.statement.map some).bind fun elseBranch =>
        ending condition thenBranch elseBranch).mono ?_
  rintro s _ t ⟨opening, s₁, ⟨split₁, isOpening, same₁⟩, loops₁, condition, s₂,
    ⟨c, first, number₂⟩, loops₂, closing, s₃, ⟨split₃, isClosing, same₃⟩, loops₃, thenBranch, s₄,
    ⟨d, second, number₄⟩, loops₄, found⟩
  rw [loops₁] at first
  rw [loops₃, loops₂, loops₁] at second
  obtain ⟨other, _, _, ⟨rfl, rfl⟩, -, rfl, rfl⟩ | ⟨word, s₅, ⟨split₅, isElse, same₅⟩, loops₅, _, _,
    ⟨elseBranch, ⟨e, third, number₆⟩, rfl⟩, -, rfl, rfl⟩ := found
  · refine Reads.plain rfl ⟨.seq (.only isIf) (.seq (.only isOpening) (.seq c
      (.seq (.only isClosing) (.seq d .none)))), .seq (.only _) ?_, ?_⟩
    · refine split₁ ▸ .seq (.only _) (.seq first (split₃ ▸ .seq (.only _) (.seq second ?_)))
      refine .none fun _ => ?_
      cases hs : t.rest with
      | nil => rfl
      | cons word rest => simpa [beginsElse] using other word rest hs
    · change (c.value >>= fun condition => d.value >>= fun thenBranch =>
        pure (Stmt.ifElse condition thenBranch none)) s.nextId = _
      rw [← same₁, Numbered.bind_eq (x := c.value) number₂, ← same₃,
        Numbered.bind_eq (x := d.value) number₄]
      rfl
  · rw [loops₅, loops₄, loops₃, loops₂, loops₁] at third
    refine Reads.plain rfl ⟨.seq (.only isIf) (.seq (.only isOpening) (.seq c
      (.seq (.only isClosing) (.seq d (.some (.seq (.only isElse) e)))))), .seq (.only _) ?_, ?_⟩
    · refine split₁ ▸ .seq (.only _) (.seq first (split₃ ▸ .seq (.only _) (.seq second ?_)))
      exact split₅ ▸ .some (.seq (.only _) third)
    · change (c.value >>= fun condition => d.value >>= fun thenBranch => (some <$> e.value) >>=
        fun elseBranch => pure (Stmt.ifElse condition thenBranch elseBranch)) s.nextId = _
      rw [← same₁, Numbered.bind_eq (x := c.value) number₂, ← same₃,
        Numbered.bind_eq (x := d.value) number₄, ← same₅,
        Numbered.bind_eq (Numbered.map_eq (x := e.value) number₆)]
      rfl

theorem finds_returnStatement {keyword : Token} (isReturn : keyword.type = .kwReturn) :
    Finds (returnStatement keyword r) (ReadsFrom keyword .returnStmt) := by
  refine ((finds_unlessNext hr _).bind fun value => (Finds.expect _ _).bind fun _ =>
    Finds.pure (Stmt.returnFrom keyword value)).mono ?_
  rintro s _ t ⟨value, s₁, ⟨e, spans, number⟩, -, word, _, ⟨split, isEnd, same⟩, -, rfl, rfl⟩
  refine Reads.plain rfl ⟨.seq (.only isReturn) (.seq e (.only isEnd)), .seq (.only _) ?_, ?_⟩
  · exact .seq spans (split ▸ .only _)
  · rw [same]
    exact Numbered.map_eq number

omit hr in
theorem finds_breakStatement {keyword : Token} (isBreak : keyword.type = .kwBreak) :
    Finds (breakStatement keyword) (ReadsFrom keyword .breakStmt) := by
  refine Finds.get fun now => ?_
  dsimp only
  split
  · refine (Finds.report.bind fun _ => (Finds.expect _ _).bind fun _ => Finds.pure _).mono ?_
    rintro s _ t ⟨_, _, impossible, _⟩
    exact impossible.elim
  next inside =>
    refine ((Finds.expect _ _).bind fun _ => Finds.pure (Stmt.breakLoop keyword)).mono ?_
    rintro s _ t ⟨word, _, ⟨split, isEnd, same⟩, -, rfl, rfl⟩ rfl
    refine ⟨.rule (.seq (.only isBreak) (.only isEnd)),
      .rule (.seq (.only _) (split ▸ .only _)) nofun fun _ => by simpa using inside, ?_⟩
    rw [same]
    rfl

theorem finds_printStatement : Finds (printStatement r) fun s a t =>
    ∀ keyword, keyword.type = .kwPrint → ReadsFrom keyword .printStmt s a t := by
  refine (hr.expression.bind fun e => (Finds.expect _ _).bind fun _ =>
    Finds.pure (Stmt.print e)).mono ?_
  rintro s _ t ⟨e, mid, ⟨p, spans, number⟩, -, word, _, ⟨split, isEnd, same⟩, -, rfl, rfl⟩ keyword
    isPrint
  refine Reads.plain rfl ⟨.seq (.only isPrint) (.seq p (.only isEnd)), .seq (.only _) ?_, ?_⟩
  · exact .seq spans (split ▸ .only _)
  · rw [same]
    exact Numbered.map_eq (x := p.value) number

theorem finds_statement : Finds (statement r) (Reads (.rule .statement) id) := by
  have expression : Finds (assignment r) (Reads (.rule (.expr .expression)) id) :=
    (finds_assignment hr).mono fun s e t ⟨p, spans, number⟩ => Reads.plain rfl ⟨p, spans, number⟩
  refine Finds.mono (Finds.acceptIf (S := fun keyword s a t => opensStatement keyword.type = true →
    ReadsFrom keyword .statement s a t) (finds_expressionStatement expression) fun keyword => ?_) ?_
  · dsimp only
    split
    next isFor =>
      refine (finds_forStatement hr isFor).mono fun s a t ⟨p, spans, number⟩ _ => ?_
      exact Reads.plain rfl ⟨.right (.left p), .right (.left spans), number⟩
    next isIf =>
      refine (finds_ifStatement hr isIf).mono fun s a t ⟨p, spans, number⟩ _ => ?_
      exact Reads.plain rfl ⟨.right (.right (.left p)), .right (.right (.left spans)), number⟩
    next isWhile =>
      refine (finds_whileStatement hr isWhile).mono fun s a t ⟨p, spans, number⟩ _ => ?_
      exact Reads.plain rfl ⟨.right (.right (.right (.right (.right (.left p))))),
        .right (.right (.right (.right (.right (.left spans))))), number⟩
    next isReturn =>
      refine (finds_returnStatement hr isReturn).mono fun s a t ⟨p, spans, number⟩ _ => ?_
      exact Reads.plain rfl ⟨.right (.right (.right (.right (.left p)))),
        .right (.right (.right (.right (.left spans)))), number⟩
    next isBreak =>
      refine (finds_breakStatement isBreak).mono fun s a t ⟨p, spans, number⟩ _ => ?_
      exact Reads.plain rfl ⟨.right (.right (.right (.right (.right (.right (.left p)))))),
        .right (.right (.right (.right (.right (.right (.left spans)))))), number⟩
    next isBrace =>
      refine ((finds_block hr).map Stmt.block).mono ?_
      rintro s _ t ⟨body, read, rfl⟩ -
      obtain ⟨p, spans, number⟩ := read keyword isBrace
      exact Reads.plain rfl ⟨.right (.right (.right (.right (.right (.right (.right p)))))),
        .right (.right (.right (.right (.right (.right (.right spans)))))),
        Numbered.map_eq (x := p.value) number⟩
    next =>
      refine (finds_printStatement hr).mono fun s a t read opens => ?_
      obtain ⟨p, spans, number⟩ := read keyword (by unfold opensStatement at opens; split at opens <;> simp_all)
      exact Reads.plain rfl ⟨.right (.right (.right (.left p))), .right (.right (.right (.left spans))),
        number⟩
  · rintro s a t (⟨-, p, spans, number⟩ | ⟨keyword, mid, ⟨split, opens, same⟩, loops, read⟩)
    · exact Reads.plain rfl ⟨.left p, .left spans, number⟩
    · exact (read opens).back split same loops

/-! ### Declarations -/

theorem finds_methods (n : Nat) : Finds (methods r n) (Reads (.many (.rule .function)) inOrder) := by
  have done : Finds (pure []) (Reads (.many (.rule .function)) inOrder) := by
    refine (Finds.pure []).mono ?_
    rintro s _ _ ⟨rfl, rfl⟩
    exact ⟨.nil, .nil, rfl⟩
  induction n with
  | zero => exact done
  | succ n ih =>
    refine Finds.get fun now => ?_
    split
    · exact done.mono fun _ _ _ h _ => h
    · refine ((finds_function hr .method).bind fun first => ih.bind fun others =>
        Finds.pure (first :: others)).mono ?_
      rintro s _ t ⟨first, mid, ⟨p, here, number⟩, loops, others, _, ⟨ps, there, numbers⟩, -, rfl, rfl⟩ -
      rw [loops] at there
      refine ⟨.cons p ps, .cons here there, ?_⟩
      change (p.value >>= fun first => _) s.nextId = _
      rw [Numbered.bind_eq (x := p.value) number]
      exact Numbered.bind_eq numbers

theorem finds_classDeclaration : Finds (classDeclaration r) fun s a t =>
    ∀ keyword, keyword.type = .kwClass → ReadsFrom keyword .classDecl s a t := by
  have ending (name : Token) (superclass : Option Use) :=
    (Finds.expect .leftBrace .unopenedClassBody).bind fun _ => (finds_methods hr r.rounds).bind
      fun members => (Finds.expect .rightBrace .unclosedClassBody).bind fun _ =>
      Finds.pure (Stmt.classDecl name superclass members)
  refine ((Finds.expect _ _).bind fun name => Finds.accept
    ((Finds.pure none).bind fun superclass => ending name superclass) fun _ =>
      (Finds.expect _ _).bind fun superName =>
      ((Finds.newUse superName).map some).bind fun superclass => ending name superclass).mono ?_
  rintro s _ t ⟨name, s₁, ⟨split₁, isName, same₁⟩, loops₁, found⟩ keyword isClass
  obtain ⟨-, _, s₂, ⟨rfl, rfl⟩, -, brace, s₃, ⟨split₃, isBrace, same₃⟩, loops₃, members, s₄,
      ⟨ps, spans, numbers⟩, -, closing, _, ⟨split₄, isClosing, same₄⟩, -, rfl, rfl⟩ |
    ⟨less, s₂, ⟨split₂, isLess, same₂⟩, loops₂, superName, s₅, ⟨split₅, isSuper, same₅⟩, loops₅,
      _, s₆, ⟨_, ⟨rfl, rests, same₆⟩, rfl⟩, loops₆, brace, s₃, ⟨split₃, isBrace, same₃⟩, loops₃,
      members, s₄, ⟨ps, spans, numbers⟩, -, closing, _, ⟨split₄, isClosing, same₄⟩, -, rfl, rfl⟩ := found
  · rw [loops₃, loops₁] at spans
    refine Reads.plain rfl ⟨.seq (.only isClass) (.seq (.only isName) (.seq .none
      (.seq (.only isBrace) (.seq ps (.only isClosing))))), .seq (.only _) ?_, ?_⟩
    · refine split₁ ▸ .seq (.only _) (.seq (.none nofun) (split₃ ▸ .seq (.only _) ?_))
      exact .seq spans (split₄ ▸ .only _)
    · change (inOrder ps.value >>= fun members => pure (Stmt.classDecl name none members)) s.nextId = _
      rw [← same₁, ← same₃, Numbered.bind_eq numbers, same₄]
      rfl
  · rw [loops₃, loops₆, loops₅, loops₂, loops₁] at spans
    refine Reads.plain rfl ⟨.seq (.only isClass) (.seq (.only isName)
      (.seq (.some (.seq (.only isLess) (.only isSuper))) (.seq (.only isBrace)
        (.seq ps (.only isClosing))))), .seq (.only _) ?_, ?_⟩
    · rw [rests] at split₃
      refine split₁ ▸ .seq (.only _) (split₂ ▸ split₅ ▸ split₃ ▸ .seq (.some (.seq (.only _) (.only _))) ?_)
      exact .seq (.only _) (.seq spans (split₄ ▸ .only _))
    · change (inOrder ps.value >>= fun members =>
        pure (Stmt.classDecl name (some ⟨s.nextId, superName⟩) members)) (s.nextId + 1) = _
      rw [← same₁, ← same₂, ← same₅, ← same₆, ← same₃, Numbered.bind_eq numbers, same₄]
      rfl

theorem finds_declaration : Finds (declaration r) (Reads (.rule .declaration) id) := by
  refine Finds.get fun now => ?_
  split
  next atFunction =>
    have rest := (finds_function hr .function).map Stmt.function
    refine (Finds.accept rest fun _ => rest).mono ?_
    rintro s _ t (⟨other, -⟩ | ⟨keyword, mid, ⟨split, isFun, same⟩, loops, f, ⟨p, spans, number⟩, rfl⟩) rfl
    · unfold ParseState.atFunction at atFunction
      rw [Bool.and_eq_true] at atFunction
      obtain ⟨word, rest, split, isFun⟩ := nextIs_eq_true atFunction.1
      exact absurd isFun (other word rest split)
    rw [loops] at spans
    refine Reads.plain rfl ⟨.right (.left (.rule (.seq (.only isFun) p))), .right (.left ?_), ?_⟩
    · exact .plain rfl (split ▸ .seq (.only _) spans)
    · rw [← same]
      exact Numbered.map_eq (x := p.value) number
  · refine Finds.mono (Finds.acceptIf (S := fun keyword s a t =>
      (keyword.type == .kwClass || keyword.type == .kwVar) = true →
      ReadsFrom keyword .declaration s a t) (finds_statement hr) fun keyword => ?_) ?_
    · dsimp only
      split
      next isClass =>
        refine (finds_classDeclaration hr).mono fun s a t read _ => ?_
        obtain ⟨p, spans, number⟩ := read keyword (by simpa using isClass)
        exact Reads.plain rfl ⟨.left p, .left spans, number⟩
      next notClass =>
        refine (finds_variableDeclaration hr).mono fun s a t read opens => ?_
        obtain ⟨p, spans, number⟩ := read keyword (by simpa [notClass] using opens)
        exact Reads.plain rfl ⟨.right (.right (.left p)), .right (.right (.left spans)), number⟩
    · rintro s a t (⟨-, p, spans, number⟩ | ⟨keyword, mid, ⟨split, opens, same⟩, loops, read⟩) -
      · exact Reads.plain rfl ⟨.right (.right (.right p)), .right (.right (.right spans)), number⟩
      · exact (read opens).back split same loops

omit hr in
theorem sound_rules (n : Nat) : SoundRules (rules n) := by
  induction n with
  | zero => exact ⟨.raise _, .raise _, Finds.recover (Finds.raise _)⟩
  | succ n ih =>
    refine ⟨(finds_assignment ih).mono ?_, finds_statement ih, Finds.recover (finds_declaration ih)⟩
    rintro s e t ⟨p, spans, number⟩
    exact Reads.plain rfl ⟨p, spans, number⟩

end Lox.Grammar
