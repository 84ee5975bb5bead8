import Lox.Proofs.Grammar.Finds

/-!
# What is read as an expression is a phrase

Each parser of expressions that reports nothing has read a phrase of its symbol, and its result is
the tree of that phrase.
-/

namespace Lox.Grammar

open Syntax

/-- What has been read between two states is a phrase of the form, and `a` is what `tree` makes of
it. -/
def Reads (f : Form) (tree : f.Value → Numbered α) (s : ParseState) (a : α) (t : ParseState) :
    Prop :=
  ∃ p : Phrase f, Spans (decide (s.loopDepth ≠ 0)) p s.rest t.rest ∧
    tree p.value s.nextId = (a, t.nextId)

def ReadsFrom (word : Token) (n : Symbol) (s : ParseState) (a : n.Value) (t : ParseState) : Prop :=
  Reads (.rule n) id { s with rest := word :: s.rest } a t

theorem Numbered.bind_eq {x : Numbered α} {f : α → Numbered β} {i j : Nat} {a : α}
    (h : x i = (a, j)) : (x >>= f) i = f a j := by
  change f (x i).1 (x i).2 = _
  rw [h]

theorem Numbered.map_eq {x : Numbered α} {f : α → β} {i j : Nat} {a : α}
    (h : x i = (a, j)) : (f <$> x) i = (f a, j) := by
  change (f (x i).1, (x i).2) = _
  rw [h]

theorem Numbered.of_map_eq {x : Numbered α} {f : α → β} {i j : Nat} {b : β}
    (h : (f <$> x) i = (b, j)) : ∃ a, x i = (a, j) ∧ f a = b := by
  change (f (x i).1, (x i).2) = _ at h
  cases h
  exact ⟨_, rfl, rfl⟩

namespace Reads

variable {s t : ParseState}

/-- A token that was read before, with what is read after it. -/
theorem back {f : Form} {tree : f.Value → Numbered α} {a : α} {mid : ParseState} {word : Token}
    (split : s.rest = word :: mid.rest) (same : mid.nextId = s.nextId)
    (loops : mid.loopDepth = s.loopDepth)
    (h : Reads f tree { mid with rest := word :: mid.rest } a t) : Reads f tree s a t := by
  obtain ⟨p, spans, number⟩ := h
  refine ⟨p, ?_, ?_⟩
  · rw [split, ← loops]
    exact spans
  · rw [← same]
    exact number

theorem plain {n : Symbol} {a : n.Value} (plain : n.plain = true)
    (h : Reads n.form n.tree s a t) : Reads (.rule n) id s a t := by
  obtain ⟨p, spans, value⟩ := h
  exact ⟨.rule p, spans.plain plain, value⟩

theorem of_plain {n : Symbol} {a : n.Value} (plain : n.plain = true)
    (h : Reads (.rule n) id s a t) : Reads n.form n.tree s a t := by
  obtain ⟨⟨⟩, spans, value⟩ := h
  exact ⟨_, spans.of_plain plain, value⟩

end Reads

structure SoundRules (r : Rules) : Prop where
  expression : Finds r.expression (Reads (.rule (.expr .expression)) id)
  statement : Finds r.statement (Reads (.rule .statement) id)
  declaration : Finds r.declaration.toParse fun s found t =>
    ∃ st, found = some st ∧ Reads (.rule .declaration) id s st t

/-! ### Lists -/

section Lists

variable {α : Type} {f : Form} {item : Parse α} {tree : f.Value → Numbered α}

theorem finds_limited {Q : ParseState → α → ParseState → Prop} (fault : SyntaxFault)
    (reads : Finds item Q) (count : Nat) :
    Finds (limited fault item count) fun s a t => count < maxArity ∧ Q s a t := by
  unfold limited
  split
  · refine (Finds.get fun now => ?_).mono fun _ _ _ h => h
    refine (Finds.bind .report fun _ => reads).mono ?_
    rintro s a t ⟨_, _, impossible, _⟩
    exact impossible.elim
  · exact reads.mono fun s a t h => ⟨Nat.lt_of_not_le ‹_›, h⟩

/-- Commas and items have been read, each item a phrase of the form; `all` are the items before
them and theirs, and no more than may be. -/
def ReadsMore (tree : f.Value → Numbered α) (items : List α) (s : ParseState) (all : List α)
    (t : ParseState) : Prop :=
  ∃ (ps : Phrase (.many (.seq (.only .comma) f))) (more : List α),
    Spans (decide (s.loopDepth ≠ 0)) ps s.rest t.rest ∧ all = items ++ more ∧
    inOrder (ps.value.map fun part => tree part.2) s.nextId = (more, t.nextId) ∧
    (items.length ≤ maxArity → items.length + ps.repeats ≤ maxArity)

theorem finds_moreItems (fault : SyntaxFault) (reads : Finds item (Reads f tree)) (n : Nat)
    (items : List α) : Finds (moreItems fault item n items) (ReadsMore tree items) := by
  have done (items : List α) : Finds (pure items) (ReadsMore tree items) := by
    refine (Finds.pure items).mono ?_
    rintro s _ _ ⟨rfl, rfl⟩
    exact ⟨.nil, [], .nil, (List.append_nil _).symm, rfl, id⟩
  induction n generalizing items with
  | zero => exact done items
  | succ n ih =>
    refine (Finds.accept (done items) fun comma =>
      (finds_limited fault reads items.length).bind fun next => ih (items ++ [next])).mono ?_
    rintro s all t (⟨-, none⟩ | ⟨comma, s₁, ⟨split, isComma, same⟩, loops₁, next, s₂,
      ⟨few, p, first, number⟩, loops₂, ps, others, second, rfl, numbers, fewer⟩)
    · exact none
    rw [loops₂, loops₁] at second
    rw [loops₁] at first
    rw [same] at number
    refine ⟨.cons (.seq (.only isComma) p) ps, next :: others, ?_, ?_, ?_, ?_⟩
    · rw [split]
      exact .cons (.seq (.only _) first) second
    · rw [List.append_assoc, List.singleton_append]
    · change (tree p.value >>= fun first => _) s.nextId = _
      rw [Numbered.bind_eq number]
      exact Numbered.bind_eq numbers
    · intro _
      have := fewer (by rw [List.length_append]; exact few)
      rw [List.length_append, List.length_singleton] at this
      rw [Phrase.repeats]
      omega

theorem finds_itemsBeforeParen (fault : SyntaxFault) (reads : Finds item (Reads f tree)) (n : Nat) :
    Finds (itemsBeforeParen fault item n) fun s all t =>
      (all = [] ∧ t = s) ∨
      ∃ (first : Phrase f) (ps : Phrase (.many (.seq (.only .comma) f))),
        Spans (decide (s.loopDepth ≠ 0)) (.seq first ps) s.rest t.rest ∧
        inOrder (tree first.value :: ps.value.map fun part => tree part.2) s.nextId =
          (all, t.nextId) ∧
        ps.repeats + 1 ≤ maxArity := by
  refine Finds.get fun now => ?_
  split
  · refine (Finds.pure _).mono ?_
    rintro s _ _ ⟨rfl, rfl⟩ -
    exact .inl ⟨rfl, rfl⟩
  · refine (reads.bind fun first => finds_moreItems fault reads n [first]).mono ?_
    rintro s _ t ⟨first, mid, ⟨p, here, number⟩, loops, ps, others, there, rfl, numbers, few⟩ -
    rw [loops] at there
    refine .inr ⟨p, ps, .seq here there, ?_, ?_⟩
    · change (tree p.value >>= fun first => _) s.nextId = _
      rw [Numbered.bind_eq number]
      exact Numbered.bind_eq numbers
    · rw [List.length_singleton, maxArity] at few
      rw [maxArity]
      omega

end Lists

theorem finds_parameters (n : Nat) :
    Finds (itemsBeforeParen .tooManyParameters (expect .identifier .missingParameterName) n)
      fun s names t => Reads (.optional (.rule .parameters))
        (fun v => (·.getD []) <$> orNone v) { s with loopDepth := 0 } names t := by
  have item : Finds (expect .identifier .missingParameterName)
      (Reads (.only .identifier) (pure : Token → Numbered Token)) := by
    refine (Finds.expect _ _).mono ?_
    rintro s name t ⟨split, isName, same⟩
    refine ⟨.only isName, ?_, by rw [same]; rfl⟩
    rw [split]
    exact .only isName
  refine (finds_itemsBeforeParen _ item n).mono ?_
  rintro s names t (⟨rfl, rfl⟩ | ⟨first, ps, spans, numbers, few⟩)
  · exact ⟨.none, .none nofun, rfl⟩
  have : (ps.value.map fun part => (pure part.2 : Numbered Token)) =
      (ps.value.map Prod.snd).map pure := by rw [List.map_map]; rfl
  rw [this, ← List.map_cons, inOrder_pure] at numbers
  refine ⟨.some (.rule (.seq first ps)), .some (.rule (spans.sheltered rfl _) ?_ nofun), numbers⟩
  intro _
  cases first
  simpa [Phrase.repeats] using few

variable {r : Rules} (hr : SoundRules r)

include hr

theorem finds_arguments (n : Nat) :
    Finds (itemsBeforeParen .tooManyArguments r.expression n)
      (Reads (.optional (.rule .arguments)) fun v => (·.getD []) <$> orNone v) := by
  refine (finds_itemsBeforeParen _ hr.expression n).mono ?_
  rintro s items t (⟨rfl, rfl⟩ | ⟨first, ps, spans, numbers, few⟩)
  · exact ⟨.none, .none nofun, rfl⟩
  refine ⟨.some (.rule (.seq first ps)), .some (.rule spans ?_ nofun), ?_⟩
  · intro _
    cases first
    simpa [Phrase.repeats] using few
  · exact Numbered.map_eq (Numbered.map_eq numbers)

/-! ### Functions -/

/-- Declarations are read until `stop` holds or `n` of them are read. -/
theorem finds_declarations (stop : ParseState → Bool) (n : Nat) :
    Finds (declarations r stop n).toParse fun s body t =>
      ∃ ps : Phrase (.many (.rule .declaration)),
        Spans (decide (s.loopDepth ≠ 0)) ps s.rest t.rest ∧
        inOrder ps.value s.nextId = (body, t.nextId) ∧ (stop t = true ∨ ps.repeats = n) := by
  induction n with
  | zero =>
    refine (Finds.pure []).mono ?_
    rintro s _ _ ⟨rfl, rfl⟩
    exact ⟨.nil, .nil, rfl, .inr rfl⟩
  | succ n ih =>
    rw [toParse_declarations]
    refine Finds.get fun now => ?_
    split
    · rename_i stopped
      refine (Finds.pure []).mono ?_
      rintro s _ _ ⟨rfl, rfl⟩ rfl
      exact ⟨.nil, .nil, rfl, .inl stopped⟩
    · refine (hr.declaration.bind fun first => ih.bind fun others => Finds.pure _).mono ?_
      rintro s _ t ⟨_, mid, ⟨first, rfl, p, here, number⟩, loops, others, _,
        ⟨ps, there, numbers, enough⟩, -, rfl, rfl⟩ -
      rw [loops] at there
      refine ⟨.cons p ps, .cons here there, ?_, ?_⟩
      · change (p.value >>= fun first => _) s.nextId = _
        rw [Numbered.bind_eq (x := p.value) number]
        exact Numbered.bind_eq numbers
      · exact enough.imp_right fun all => by rw [Phrase.repeats, all]

theorem finds_block : Finds (block r) fun s body t =>
    ∀ brace, brace.type = .leftBrace → ReadsFrom brace .block s body t := by
  refine ((finds_declarations hr _ _).bind fun body =>
    (Finds.expect .rightBrace _).bind fun brace => Finds.pure body).mono ?_
  rintro s _ t ⟨body, mid, ⟨ps, spans, numbers, -⟩, -, closing, _, ⟨split, isClosing, same⟩, -,
    rfl, rfl⟩ brace isBrace
  refine Reads.plain rfl ⟨.seq (.only isBrace) (.seq ps (.only isClosing)), ?_, ?_⟩
  · refine .seq (.only _) (.seq spans ?_)
    rw [split]
    exact .only _
  · rw [same]
    exact numbers

theorem finds_functionRest (form : FunctionForm) :
    Finds (functionRest r form) fun s a t =>
      Reads .functionTail (fun v => functionParts v.2.1 v.2.2.2) { s with loopDepth := 0 } a t := by
  refine ((Finds.expect _ _).bind fun opening => (finds_parameters r.rounds).bind fun params =>
    (Finds.expect _ _).bind fun closing => (Finds.expect _ _).bind fun brace =>
    (Finds.insideFunction (finds_block hr)).bind fun body => Finds.pure (params, body)).mono ?_
  rintro s _ t ⟨opening, s₁, ⟨split, isOpening, same₁⟩, loops₁, params, s₂, ⟨ps, spans, numbers⟩, -,
    closing, s₃, ⟨next, isClosing, same₃⟩, -, brace, s₄, ⟨last, isBrace, same₄⟩, -, body, _,
    ⟨after, body, rests, same₅⟩, -, rfl, rfl⟩
  obtain ⟨block, spansBlock, number⟩ := body brace isBrace
  refine ⟨.seq (.only isOpening) (.seq ps (.seq (.only isClosing) block)), ?_, ?_⟩
  · refine .seq ?_ (.seq spans ?_)
    · rw [split]
      exact .only _
    · rw [next, last, rests]
      exact .seq (.only _) spansBlock
  · obtain ⟨names, first, rfl⟩ := Numbered.of_map_eq numbers
    change (orNone ps.value >>= fun params => _) s.nextId = _
    rw [← same₁, Numbered.bind_eq (x := orNone ps.value) first, ← same₃, ← same₄, same₅]
    exact Numbered.bind_eq (x := block.value) number

theorem finds_function (form : FunctionForm) :
    Finds (function r form) (Reads (.rule .function) id) := by
  refine ((Finds.expect _ _).bind fun name => (finds_functionRest hr form).bind fun rest =>
    Finds.pure (⟨name, rest.1, rest.2⟩ : FunctionDecl)).mono ?_
  rintro s _ t ⟨name, s₁, ⟨split, isName, same⟩, -, ⟨params, body⟩, _, ⟨tail, spans, number⟩, -,
    rfl, rfl⟩
  refine ⟨.rule (.seq (.only isName) tail), .rule ?_ nofun nofun, ?_⟩
  · rw [split]
    exact .seq (.only _) spans
  · rw [← same]
    exact Numbered.bind_eq (x := functionParts _ _) number

/-! ### Expressions -/

omit hr in
theorem peek_of_ne {s : ParseState} (h : s.peek.type ≠ .eof) : s.rest = s.peek :: s.rest.tail := by
  unfold ParseState.peek at h ⊢
  cases hs : s.rest with
  | nil => rw [hs] at h; exact absurd rfl h
  | cons t rest => rfl

omit hr in
theorem finds_single {p : Parse Expr} {now : ParseState}
    (h : Finds p fun s e t => wordTree now.peek s.nextId = (e, t.nextId) ∧ t.rest = s.rest.tail)
    (isWord : (isNumber now.peek.type || isString now.peek.type ||
      [.kwTrue, .kwFalse, .kwNil, .kwThis, .identifier].contains now.peek.type) = true)
    (notEnd : now.peek.type ≠ .eof) :
    Finds p fun s e t => s = now → Reads (.rule (.expr .primary)) id s e t := by
  refine h.mono ?_
  rintro s e t ⟨number, rest⟩ rfl
  refine ⟨.rule (.left (.token s.peek isWord)), .rule (.left ?_) nofun nofun, number⟩
  rw [rest, peek_of_ne notEnd]
  exact .token _

theorem finds_primary : Finds (primary r) (Reads (.rule (.expr .primary)) id) := by
  refine Finds.get fun now => ?_
  have single (e : Expr) : Finds (single e) fun s a t =>
      a = e ∧ t.rest = s.rest.tail ∧ t.nextId = s.nextId :=
    ⟨onward.respects_single e, fun run _ => by cases run; exact ⟨rfl, rfl, rfl⟩⟩
  have constant {e : Expr} (h : wordTree now.peek = pure e) :
      Finds (Syntax.single e) fun s a t =>
        wordTree now.peek s.nextId = (a, t.nextId) ∧ t.rest = s.rest.tail := by
    refine (single e).mono ?_
    rintro s _ t ⟨rfl, rest, same⟩
    rw [h, same]
    exact ⟨rfl, rest⟩
  dsimp only
  split
  next type => exact finds_single (constant (by simp [wordTree, type])) (by simp [type]) (by simp [type])
  next type => exact finds_single (constant (by simp [wordTree, type])) (by simp [type]) (by simp [type])
  next type => exact finds_single (constant (by simp [wordTree, type])) (by simp [type]) (by simp [type])
  next type => exact finds_single (constant (by simp [wordTree, type])) (by simp [type, isNumber]) (by simp [type])
  next type => exact finds_single (constant (by simp [wordTree, type])) (by simp [type, isString]) (by simp [type])
  next type =>
    refine finds_single ?_ (by simp [type]) (by simp [type])
    refine ((Finds.newUse _).bind fun u => single (.this u)).mono ?_
    rintro s _ t ⟨u, mid, ⟨rfl, rests, next⟩, -, rfl, rest, same⟩
    simp only [wordTree, type]
    rw [same, next, rest, rests]
    exact ⟨rfl, rfl⟩
  next type =>
    refine finds_single ?_ (by simp [type]) (by simp [type])
    refine ((Finds.newUse _).bind fun u => single (.variable u)).mono ?_
    rintro s _ t ⟨u, mid, ⟨rfl, rests, next⟩, -, rfl, rest, same⟩
    simp only [wordTree, type]
    rw [same, next, rest, rests]
    exact ⟨rfl, rfl⟩
  next type =>
    have rest := (Finds.expect .dot .missingDotAfterSuper).bind fun dot =>
      (Finds.expect .identifier .missingSuperMethodName).bind fun method =>
      (Finds.newUse now.peek).bind fun keyword => Finds.pure (Expr.super keyword method)
    refine (Finds.accept rest fun _ => rest).mono ?_
    rintro s _ t (⟨other, -⟩ | ⟨keyword, s₁, ⟨split, isSuper, same₁⟩, -, dot, s₂, ⟨next, isDot, same₂⟩,
      -, method, s₃, ⟨last, isName, same₃⟩, -, _, s₄, ⟨rfl, rests, same₄⟩, -, rfl, rfl⟩) rfl
    · exact absurd type (other _ _ (peek_of_ne (by simp [type])))
    have : s.peek = keyword := by rw [ParseState.peek, split]; rfl
    refine ⟨.rule (.right (.right (.left (.seq (.only isSuper) (.seq (.only isDot)
      (.only isName)))))), .rule (.right (.right (.left ?_))) nofun nofun, ?_⟩
    · rw [split, next, last, rests]
      exact .seq (.only _) (.seq (.only _) (.only _))
    · rw [same₄, same₃, same₂, same₁, this]
      rfl
  next type =>
    have rest := (finds_functionRest hr .function).bind fun parts =>
      Finds.pure (Expr.lambda parts.1 parts.2)
    refine (Finds.accept rest fun _ => rest).mono ?_
    rintro s _ t (⟨other, -⟩ | ⟨keyword, s₁, ⟨split, isFun, same₁⟩, -, ⟨params, body⟩, _,
      ⟨tail, spans, number⟩, -, rfl, rfl⟩) rfl
    · exact absurd type (other _ _ (peek_of_ne (by simp [type])))
    refine ⟨.rule (.right (.right (.right (.seq (.only isFun) tail)))),
      .rule (.right (.right (.right ?_))) nofun nofun, ?_⟩
    · rw [split]
      exact .seq (.only _) spans
    · rw [← same₁]
      exact Numbered.bind_eq (x := functionParts _ _) number
  next type =>
    have rest := hr.expression.bind fun inner =>
      (Finds.expect .rightParen .unclosedGrouping).bind fun _ => Finds.pure (Expr.grouping inner)
    refine (Finds.accept rest fun _ => rest).mono ?_
    rintro s _ t (⟨other, -⟩ | ⟨opening, s₁, ⟨split, isOpening, same₁⟩, loops, inner, s₂,
      ⟨p, spans, number⟩, -, closing, _, ⟨next, isClosing, same₂⟩, -, rfl, rfl⟩) rfl
    · exact absurd type (other _ _ (peek_of_ne (by simp [type])))
    refine ⟨.rule (.right (.left (.seq (.only isOpening) (.seq p (.only isClosing))))),
      .rule (.right (.left ?_)) nofun nofun, ?_⟩
    · rw [split]
      refine .seq (.only _) (.seq (spans.sheltered rfl _) ?_)
      rw [next]
      exact .only _
    · rw [← same₁, same₂]
      exact Numbered.map_eq (x := p.value) number
  next => exact Finds.raise _

theorem finds_callRest (n : Nat) (e : Expr) :
    Finds (callRest r n e) (Reads (.many .callPart) (callTree e)) := by
  have done (e : Expr) : Finds (pure e) (Reads (.many .callPart) (callTree e)) := by
    refine (Finds.pure e).mono ?_
    rintro s _ _ ⟨rfl, rfl⟩
    exact ⟨.nil, .nil, rfl⟩
  induction n generalizing e with
  | zero => exact done e
  | succ n ih =>
    refine Finds.mono (Finds.acceptIf (S := fun mark s e' t =>
        (mark.type = .leftParen → Reads (.many .callPart) (callTree e)
          { s with rest := mark :: s.rest } e' t) ∧
        (mark.type = .dot → Reads (.many .callPart) (callTree e)
          { s with rest := mark :: s.rest } e' t)) (done e) fun mark => ?_) ?_
    · dsimp only
      split
      next isOpening =>
        refine ((finds_arguments hr r.rounds).bind fun items => (Finds.expect _ _).bind fun paren =>
          ih (.call e paren items)).mono ?_
        rintro s e' t ⟨items, s₁, ⟨arguments, spans, numbers⟩, loops₁, paren, s₂,
          ⟨next, isParen, same⟩, loops₂, ps, more, number⟩
        have opening : mark.type = .leftParen := by simpa using isOpening
        refine ⟨fun _ => ?_, fun isDot => by rw [opening] at isDot; cases isDot⟩
        rw [loops₂, loops₁] at more
        refine ⟨.cons (.left (.seq (.only opening) (.seq arguments (.only isParen)))) ps, ?_, ?_⟩
        · refine .cons (.left (.seq (.only _) (.seq spans ?_))) more
          rw [next]
          exact .only _
        · obtain ⟨found, first, rfl⟩ := Numbered.of_map_eq numbers
          change (orNone arguments.value >>= fun arguments => _) s.nextId = _
          rw [Numbered.bind_eq (x := orNone arguments.value) first, ← same]
          exact number
      next notOpening =>
        refine ((Finds.expect _ _).bind fun name => ih (.get e name)).mono ?_
        rintro s e' t ⟨name, s₁, ⟨split, isName, same⟩, loops, ps, more, number⟩
        refine ⟨fun opening => absurd opening (by simpa using notOpening), fun isDot => ?_⟩
        rw [loops] at more
        refine ⟨.cons (.right (.seq (.only isDot) (.only isName))) ps, ?_, ?_⟩
        · refine .cons (.right (.seq (.only _) ?_)) more
          dsimp only
          rw [split]
          exact .only _
        · rw [same] at number
          exact number
    · rintro s e' t (⟨-, none⟩ | ⟨mark, mid, ⟨split, isMark, same⟩, loops, opening, dot⟩)
      · exact none
      simp only [Bool.or_eq_true, beq_iff_eq] at isMark
      exact (isMark.elim opening dot).back split same loops

theorem finds_call : Finds (call r) (Reads (.rule (.expr .call)) id) := by
  refine ((finds_primary hr).bind fun e => finds_callRest hr r.rounds e).mono ?_
  rintro s e t ⟨first, mid, ⟨p, spans, number⟩, loops, ps, more, numbers⟩
  rw [loops] at more
  refine Reads.plain rfl ⟨.seq p ps, .seq spans more, ?_⟩
  change (p.value >>= fun e => _) s.nextId = _
  rw [Numbered.bind_eq (x := p.value) number]
  exact numbers

theorem finds_unaryUpTo (n : Nat) :
    Finds (unaryUpTo r n) (Reads (.rule (.expr .unary)) id) := by
  have last : Finds (call r) (Reads (.rule (.expr .unary)) id) := by
    refine (finds_call hr).mono ?_
    rintro s e t ⟨p, spans, number⟩
    exact Reads.plain rfl ⟨.right p, .right spans, number⟩
  induction n with
  | zero => exact last
  | succ n ih =>
    refine (Finds.acceptIf last fun operator => ih.bind fun operand =>
      Finds.pure (Expr.unary operator operand)).mono ?_
    rintro s _ t (⟨-, found⟩ | ⟨operator, s₁, ⟨split, isUnary, same⟩, loops, operand, _,
      ⟨p, spans, number⟩, -, rfl, rfl⟩)
    · exact found
    have fits : [.bang, .minus].contains operator.type = true := by
      unfold Syntax.isUnary at isUnary
      split at isUnary <;> simp_all
    rw [loops] at spans
    refine Reads.plain rfl ⟨.left (.seq (.token operator fits) p), .left ?_, ?_⟩
    · rw [split]
      exact .seq (.token _) spans
    · rw [← same]
      exact Numbered.bind_eq (x := p.value) number

section Chains

variable {operators : TokenType → Bool} (types : List TokenType)
  {join : Expr → Token → Expr → Expr} {operand : Parse Expr} {m n : ExprSymbol}
  (same : ∀ type, operators type = true → types.contains type = true)
  (reads : Finds operand (Reads (.rule (.expr m)) id))

include same reads

omit hr in
theorem finds_moreOperands (rounds : Nat) (left : Expr) :
    Finds (moreOperands operators join operand rounds left)
      (Reads (.many (.seq (.oneOf types) (.rule (.expr m)))) (joinLeft join left)) := by
  have done (left : Expr) : Finds (pure left)
      (Reads (.many (.seq (.oneOf types) (.rule (.expr m)))) (joinLeft join left)) := by
    refine (Finds.pure left).mono ?_
    rintro s _ _ ⟨rfl, rfl⟩
    exact ⟨.nil, .nil, rfl⟩
  induction rounds generalizing left with
  | zero => exact done left
  | succ rounds ih =>
    refine (Finds.acceptIf (done left) fun operator => reads.bind fun right =>
      ih (join left operator right)).mono ?_
    rintro s e t (⟨-, found⟩ | ⟨operator, s₁, ⟨split, fits, unmoved⟩, loops₁, right, s₂,
      ⟨p, spans, number⟩, loops₂, ps, more, numbers⟩)
    · exact found
    rw [loops₂, loops₁] at more
    rw [loops₁] at spans
    refine ⟨.cons (.seq (.token operator (same _ fits)) p) ps, ?_, ?_⟩
    · rw [split]
      exact .cons (.seq (.token _) spans) more
    · change (p.value >>= fun right => _) s.nextId = _
      rw [← unmoved, Numbered.bind_eq (x := p.value) number]
      exact numbers

omit hr in
theorem finds_leftAssociative (rounds : Nat) :
    Finds (leftAssociative operators join operand rounds)
      (Reads (.chain m types) (chainTree join)) := by
  refine (reads.bind fun first => finds_moreOperands types same reads rounds first).mono ?_
  rintro s e t ⟨first, mid, ⟨p, spans, number⟩, loops, ps, more, numbers⟩
  rw [loops] at more
  refine ⟨.seq p ps, .seq spans more, ?_⟩
  change (p.value >>= fun left => _) s.nextId = _
  rw [Numbered.bind_eq (x := p.value) number]
  exact numbers

end Chains

theorem finds_factor : Finds (factor r) (Reads (.rule (.expr .factor)) id) := by
  refine (finds_leftAssociative [.slash, .star] ?_ (finds_unaryUpTo hr _) _).mono
    fun _ _ _ => Reads.plain (n := .expr .factor) rfl
  intro type fits
  simpa [or_comm] using fits

theorem finds_term : Finds (term r) (Reads (.rule (.expr .term)) id) := by
  refine (finds_leftAssociative [.minus, .plus] ?_ (finds_factor hr) _).mono
    fun _ _ _ => Reads.plain (n := .expr .term) rfl
  intro type fits
  simpa using fits

theorem finds_comparison : Finds (comparison r) (Reads (.rule (.expr .comparison)) id) := by
  refine (finds_leftAssociative [.greater, .greaterEqual, .less, .lessEqual] ?_ (finds_term hr) _).mono
    fun _ _ _ => Reads.plain (n := .expr .comparison) rfl
  intro type fits
  unfold isComparison at fits
  split at fits <;> simp_all

theorem finds_equality : Finds (equality r) (Reads (.rule (.expr .equality)) id) := by
  refine (finds_leftAssociative [.bangEqual, .equalEqual] ?_ (finds_comparison hr) _).mono
    fun _ _ _ => Reads.plain (n := .expr .equality) rfl
  intro type fits
  simpa using fits

theorem finds_logicalAnd : Finds (logicalAnd r) (Reads (.rule (.expr .logicAnd)) id) := by
  refine (finds_leftAssociative [.kwAnd] ?_ (finds_equality hr) _).mono
    fun _ _ _ => Reads.plain (n := .expr .logicAnd) rfl
  intro type fits
  simpa using fits

theorem finds_logicalOr : Finds (logicalOr r) (Reads (.rule (.expr .logicOr)) id) := by
  refine (finds_leftAssociative [.kwOr] ?_ (finds_logicalAnd hr) _).mono
    fun _ _ _ => Reads.plain (n := .expr .logicOr) rfl
  intro type fits
  simpa using fits

omit hr

/-! ### Targets of assignments -/

def isTarget : Expr → Bool
  | .variable _ | .get _ _ => true
  | _ => false

variable {s t : ParseState} {e : Expr}

theorem isTarget_joinLeft {join : Expr → Token → Expr → Expr}
    (joined : ∀ left operator right, isTarget (join left operator right) = false) {left : Expr}
    (h : isTarget left = false) (rest : List (Token × Numbered Expr)) (i : Nat) :
    isTarget (joinLeft join left rest i).1 = false := by
  induction rest generalizing left i with
  | nil => exact h
  | cons part rest ih => exact ih (joined _ _ _) _

/-- A chain that is a target is a single operand. -/
theorem Reads.of_chain {m : ExprSymbol} {types : List TokenType}
    {join : Expr → Token → Expr → Expr}
    (joined : ∀ left operator right, isTarget (join left operator right) = false)
    (h : Reads (.chain m types) (chainTree join) s e t) (target : isTarget e = true) :
    Reads (.rule (.expr m)) id s e t := by
  obtain ⟨parts, spans, number⟩ := h
  obtain _ | _ | ⟨p, ps⟩ := parts
  cases ps with
  | nil => exact ⟨p, spans.of_seq.1, number⟩
  | cons part ps =>
    have : isTarget (chainTree join (p.value, (Phrase.cons part ps).value) s.nextId).1 = false :=
      isTarget_joinLeft joined (joined _ _ _) _ _
    rw [show (chainTree join (p.value, (Phrase.cons part ps).value) s.nextId).1 = e from
      congrArg Prod.fst number, target] at this
    cases this

theorem isTarget_wordTree {word : Token} {i : Nat} (h : isTarget (wordTree word i).1 = true) :
    word.type = .identifier := by
  cases type : word.type with
  | identifier => rfl
  | _ => simp only [wordTree, type] at h; cases h

theorem Reads.primary_target (h : Reads (.rule (.expr .primary)) id s e t)
    (target : isTarget e = true) :
    ∃ name, e = .variable ⟨s.nextId, name⟩ ∧ name.type = .identifier ∧ s.rest = name :: t.rest ∧
      t.nextId = s.nextId + 1 := by
  obtain ⟨p, spans, number⟩ := h
  have found : isTarget (id p.value s.nextId).1 = true := by rwa [number]
  match p, spans, number, found with
  | .rule (.left (.token word isWord)), spans, number, found =>
    have isName := isTarget_wordTree (show isTarget (wordTree word _).1 = true from found)
    have : wordTree word s.nextId = (e, t.nextId) := number
    simp only [wordTree, isName] at this
    obtain ⟨rfl, next⟩ := Prod.mk.inj this
    exact ⟨word, rfl, isName, spans.split, next.symm⟩
  | .rule (.right (.left (.seq _ (.seq _ _)))), _, _, found => cases found
  | .rule (.right (.right (.left (.seq _ (.seq _ _))))), _, _, found => cases found
  | .rule (.right (.right (.right (.seq _ (.seq _ (.seq _ (.seq _ _))))))), _, _, found =>
    cases found

/-- Calls and properties that make a target are none, or end in a property. -/
theorem callParts_target {around : Bool} {before after : List Token} {start : Expr} {i j : Nat} :
    (ps : Phrase (.many .callPart)) → Spans around ps before after →
      callTree start ps.value i = (e, j) → isTarget e = true →
      (before = after ∧ start = e ∧ i = j) ∨
      ∃ object dot name, ∃ init : Phrase (.many .callPart), e = .get object name ∧
        dot.type = .dot ∧ name.type = .identifier ∧ Spans around init before (dot :: name :: after) ∧
        callTree start init.value i = (object, j)
  | .nil, spans, number, _ => by
    cases number
    exact .inl ⟨spans.split, rfl, rfl⟩
  | .cons (.left (.seq (.token opening isOpening) (.seq arguments (.token paren isParen)))) ps,
      spans, number, target => by
    obtain ⟨first, rest⟩ := spans.of_cons (.inl rfl)
    obtain ⟨-, ended, -⟩ | ⟨object, dot, name, init, rfl, isDot, isName, inner, number⟩ :=
      callParts_target ps rest number target
    · rw [← ended] at target
      cases target
    · exact .inr ⟨object, dot, name, .cons _ init, rfl, isDot, isName, .cons first inner, number⟩
  | .cons (.right (.seq (.token dot isDot) (.token name isName))) ps, spans, number, target => by
    obtain ⟨first, rest⟩ := spans.of_cons (.inl rfl)
    obtain ⟨none, rfl, rfl⟩ | ⟨object, dot, name, init, rfl, isDot, isName, inner, number⟩ :=
      callParts_target ps rest number target
    · refine .inr ⟨start, dot, name, .nil, rfl, by simpa using isDot, by simpa using isName, ?_, rfl⟩
      rw [first.split, none]
      exact .nil
    · exact .inr ⟨object, dot, name, .cons _ init, rfl, isDot, isName, .cons first inner, number⟩

/-- A call that is a target is a name or ends in a property. -/
theorem Reads.call_target (h : Reads (.rule (.expr .call)) id s e t) (target : isTarget e = true) :
    (∃ name, e = .variable ⟨s.nextId, name⟩ ∧ name.type = .identifier ∧ s.rest = name :: t.rest ∧
      t.nextId = s.nextId + 1) ∨
    ∃ object dot name, e = .get object name ∧ dot.type = .dot ∧ name.type = .identifier ∧
      Reads (.rule (.expr .call)) id s object { t with rest := dot :: name :: t.rest } := by
  obtain ⟨parts, spans, number⟩ := Reads.of_plain rfl h
  obtain _ | _ | ⟨p, ps⟩ := parts
  obtain ⟨here, there⟩ := spans.of_seq
  change callTree (p.value s.nextId).1 ps.value (p.value s.nextId).2 = _ at number
  have first : Reads (.rule (.expr .primary)) id s (p.value s.nextId).1
      { s with rest := ps.tokens ++ t.rest, nextId := (p.value s.nextId).2 } := ⟨p, here, rfl⟩
  obtain ⟨none, rfl, same⟩ | ⟨object, dot, name, init, rfl, isDot, isName, inner, last⟩ :=
    callParts_target ps there number target
  · obtain ⟨name, value, isName, split, next⟩ := first.primary_target target
    refine .inl ⟨name, value, isName, none ▸ split, same ▸ next⟩
  · exact .inr ⟨object, dot, name, rfl, isDot, isName,
      Reads.plain rfl ⟨.seq p init, .seq here inner, last⟩⟩

/-- A disjunction that is a target is a call. -/
theorem Reads.logicOr_target (h : Reads (.rule (.expr .logicOr)) id s e t)
    (target : isTarget e = true) : Reads (.rule (.expr .call)) id s e t := by
  have h := (Reads.of_plain rfl h).of_chain (fun _ _ _ => rfl) target
  have h := (Reads.of_plain rfl h).of_chain (fun _ _ _ => rfl) target
  have h := (Reads.of_plain rfl h).of_chain (fun _ _ _ => rfl) target
  have h := (Reads.of_plain rfl h).of_chain (fun _ _ _ => rfl) target
  have h := (Reads.of_plain rfl h).of_chain (fun _ _ _ => rfl) target
  have h := (Reads.of_plain rfl h).of_chain (fun _ _ _ => rfl) target
  obtain ⟨p, spans, number⟩ := Reads.of_plain rfl h
  have found : isTarget (Symbol.tree (.expr .unary) p.value s.nextId).1 = true := by rwa [number]
  match p, spans, number, found with
  | .left (.seq _ _), _, _, found => cases found
  | .right p, spans, number, _ =>
    exact ⟨p, ⟨spans.split, spans.arity, spans.breaks, spans.nearest, spans.openEnd⟩, number⟩

/-- The end of an assignment, where its target and its value are known. -/
theorem finds_assigned (target : Expr) (equals : Token) (value : Expr) :
    Finds (match assignTo? value target with
      | some e => pure e
      | none => do
        report equals .invalidAssignmentTarget
        pure target : Parse Expr) fun s e t =>
      isTarget target = true ∧ assignTo? value target = some e ∧ t = s := by
  split
  next e assigned =>
    refine (Finds.pure e).mono ?_
    rintro s _ _ ⟨rfl, rfl⟩
    refine ⟨?_, assigned, rfl⟩
    unfold assignTo? at assigned
    split at assigned <;> first | rfl | cases assigned
  next =>
    refine (Finds.report.bind fun _ => Finds.pure target).mono ?_
    rintro s e t ⟨_, _, impossible, _⟩
    exact impossible.elim

include hr

/-- The value of an assignment is read after its target. -/
theorem finds_assignedValue (target : Expr) (equals : Token) :
    Finds (do
      let value ← r.expression
      match assignTo? value target with
      | some e => pure e
      | none =>
        report equals .invalidAssignmentTarget
        pure target) fun s e t => isTarget target = true ∧ ∃ value, assignTo? value target = some e ∧
      Reads (.rule (.expr .expression)) id s value t := by
  refine (hr.expression.bind fun value => finds_assigned target equals value).mono ?_
  rintro s e t ⟨value, mid, read, -, isTarget, assigned, rfl⟩
  exact ⟨isTarget, value, assigned, read⟩

theorem finds_assignment : Finds (assignment r) (Reads (.rule (.expr .assignment)) id) := by
  refine ((finds_logicalOr hr).bind fun target => Finds.accept (Finds.pure target)
    fun equals => finds_assignedValue hr target equals).mono ?_
  rintro s e t ⟨target, s₁, first, loops₁, ⟨-, rfl, rfl⟩ | ⟨equals, s₂, ⟨split, isEqual, same⟩,
    loops₂, valid, value, assigned, p, spans, number⟩⟩
  · obtain ⟨p, spans, number⟩ := first
    exact Reads.plain rfl ⟨.right p, .right spans, number⟩
  obtain ⟨q, rest, value⟩ := Reads.of_plain rfl ⟨p, spans, number⟩
  rw [loops₂, loops₁] at rest
  rw [same] at value
  obtain ⟨name, rfl, isName, here, next⟩ | ⟨object, dot, name, rfl, isDot, isName, c, here, callee⟩ :=
    (first.logicOr_target valid).call_target valid
  · cases assigned
    refine Reads.plain rfl ⟨.left (.seq .none (.seq (.only isName) (.seq (.only isEqual) q))),
      .left (.seq (.none nofun) ?_), ?_⟩
    · rw [here, split]
      exact .seq (.only _) (.seq (.only _) rest)
    · change (q.value >>= fun value => pure (Expr.assign ⟨s.nextId, name⟩ value)) (s.nextId + 1) = _
      rw [← next]
      exact Numbered.bind_eq (x := q.value) value
  · cases assigned
    refine Reads.plain rfl ⟨.left (.seq (.some (.seq c (.only isDot)))
      (.seq (.only isName) (.seq (.only isEqual) q))), .left (.seq (.some (.seq here (.only _))) ?_), ?_⟩
    · rw [split]
      exact .seq (.only _) (.seq (.only _) rest)
    · change (c.value >>= fun object => q.value >>= fun value => pure (Expr.set object name value))
        s.nextId = _
      rw [Numbered.bind_eq (x := c.value) callee]
      exact Numbered.bind_eq (x := q.value) value

end Lox.Grammar
