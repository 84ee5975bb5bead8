import Lox.Proofs.Grammar.First
import Lox.Proofs.Grammar.Reading

/-!
# Phrases of expressions are read

Each parser of expressions reads a phrase of its symbol that comes first in a text, unless what
follows would go on with it, and gives back the tree of the phrase.
-/

namespace Lox.Grammar

open Syntax

def begins (types : List TokenType) (ts : List Token) : Bool :=
  ts.head?.any fun t => types.contains t.type

/-- The tokens that would go on with a phrase which they follow. -/
def ExprSymbol.goesOn : ExprSymbol → List TokenType
  | .primary => []
  | .call | .unary => [.leftParen, .dot]
  | .factor => [.slash, .star, .leftParen, .dot]
  | .term => [.minus, .plus, .slash, .star, .leftParen, .dot]
  | .comparison =>
    [.greater, .greaterEqual, .less, .lessEqual, .minus, .plus, .slash, .star, .leftParen, .dot]
  | .equality =>
    [.bangEqual, .equalEqual, .greater, .greaterEqual, .less, .lessEqual, .minus, .plus, .slash,
      .star, .leftParen, .dot]
  | .logicAnd =>
    [.kwAnd, .bangEqual, .equalEqual, .greater, .greaterEqual, .less, .lessEqual, .minus, .plus,
      .slash, .star, .leftParen, .dot]
  | .logicOr =>
    [.kwOr, .kwAnd, .bangEqual, .equalEqual, .greater, .greaterEqual, .less, .lessEqual, .minus,
      .plus, .slash, .star, .leftParen, .dot]
  | .assignment | .expression =>
    [.equal, .kwOr, .kwAnd, .bangEqual, .equalEqual, .greater, .greaterEqual, .less, .lessEqual,
      .minus, .plus, .slash, .star, .leftParen, .dot]

/-- The parser reads each phrase of the form with at most `bound` tokens that comes first, where
none of the tokens `stop` follows, and numbers its tree. -/
def Completes {f : Form} (tree : f.Value → Numbered α) (bound : Nat) (stop : List TokenType)
    (p : Parse α) : Prop :=
  ∀ {s : ParseState} {d : Phrase f} {rest : List Token},
    Spans (decide (s.loopDepth ≠ 0)) d s.rest rest → d.tokens.length ≤ bound →
    begins stop rest = false →
    p s = .ok (tree d.value s.nextId).1 { s with rest, nextId := (tree d.value s.nextId).2 }

/-- The same for a parser that begins after the first token of the phrase. -/
def CompletesAfter (n : Symbol) (bound : Nat) (p : Token → Parse n.Value) : Prop :=
  ∀ {s : ParseState} {d : Phrase (.rule n)} {keyword : Token} {rest : List Token},
    Spans (decide (s.loopDepth ≠ 0)) d (keyword :: s.rest) rest → d.tokens.length ≤ bound →
    p keyword s = .ok (d.value s.nextId).1 { s with rest, nextId := (d.value s.nextId).2 }

structure CompleteRules (k : Nat) (r : Rules) : Prop where
  rounds : r.rounds = k + 1
  expression : Completes (f := .rule (.expr .expression)) id k ExprSymbol.expression.goesOn r.expression
  statement : Completes (f := .rule .statement) id k [] r.statement
  declaration : Completes (f := .rule .declaration) (fun v => some <$> v) k [] r.declaration.toParse

/-- A loop body, which is inside a loop wherever the loop stands. -/
theorem CompleteRules.loopBody {k : Nat} {r : Rules} (hr : CompleteRules k r) {s : ParseState}
    {d : Phrase (.rule .statement)} {rest : List Token} (spans : Spans true d s.rest rest)
    (short : d.tokens.length ≤ k) :
    insideLoop r.statement s = .ok (d.value s.nextId).1
      { s with rest, nextId := (d.value s.nextId).2 } := by
  have inside : Spans (decide (s.loopDepth + 1 ≠ 0)) d s.rest rest := by simpa using spans
  have body := hr.statement (s := { s with loopDepth := s.loopDepth + 1 }) inside short
    (by cases rest <;> rfl)
  unfold insideLoop
  rw [body]
  rfl

/-! ### Parsers of single tokens -/

section Tokens

variable {s : ParseState} {t : Token} {rest : List Token} {type : TokenType}
  {test : TokenType → Bool}

theorem acceptIf_of_some (h : s.rest = t :: rest) (fits : test t.type = true) :
    acceptIf test s = .ok (some t) { s with rest } := by
  unfold acceptIf
  rw [h]
  dsimp only
  rw [if_pos fits]

theorem acceptIf_of_none (h : ∀ t rest, s.rest = t :: rest → test t.type = false) :
    acceptIf test s = .ok none s := by
  unfold acceptIf
  cases hs : s.rest with
  | nil => rfl
  | cons t rest =>
    dsimp only
    rw [if_neg (Bool.eq_false_iff.mp (h t rest hs))]

theorem accept_of_some (h : s.rest = t :: rest) (fits : t.type = type) :
    accept type s = .ok (some t) { s with rest } := acceptIf_of_some h (by simpa using fits)

theorem accept_of_none (h : ∀ t rest, s.rest = t :: rest → t.type ≠ type) :
    accept type s = .ok none s := acceptIf_of_none fun t rest hs => by simpa using h t rest hs

theorem expect_of_some (h : s.rest = t :: rest) (fits : t.type = type) (fault : SyntaxFault) :
    expect type fault s = .ok t { s with rest } :=
  (bind_of_ok (accept_of_some h fits)).trans rfl

theorem newUse_ok (name : Token) (s : ParseState) :
    newUse name s = .ok ⟨s.nextId, name⟩ { s with nextId := s.nextId + 1 } := rfl

theorem insideFunction_of_ok {p : Parse α} {a : α} {after : ParseState}
    (h : p { s with loopDepth := 0 } = .ok a after) :
    insideFunction p s = .ok a { after with loopDepth := s.loopDepth } := by
  unfold insideFunction
  rw [h]

theorem ne_of_begins {types : List TokenType} {ts : List Token} (h : begins types ts = false)
    (t : Token) (rest : List Token) (hs : ts = t :: rest) : types.contains t.type = false := by
  rw [hs] at h
  exact h

theorem begins_nil (ts : List Token) : begins [] ts = false := by cases ts <;> rfl

theorem begins_append {types more : List TokenType} {ts : List Token} :
    begins (types ++ more) ts = (begins types ts || begins more ts) := by
  cases ts with
  | nil => rfl
  | cons t ts => exact List.contains_append

end Tokens

theorem Spans.exists_first {f : Form} {around : Bool} {p : Phrase f} {before after : List Token}
    (h : Spans around p before after) (full : f.nonempty = true) :
    ∃ t ts, before = t :: ts ∧ f.first t.type = true := by
  obtain ⟨t, ts, begin, isFirst⟩ := p.exists_first full
  exact ⟨t, ts ++ after, by rw [h.split, begin, List.cons_append], isFirst⟩

theorem nextIs_eq_false {s : ParseState} {type : TokenType}
    (h : ∀ t ts, s.rest = t :: ts → t.type ≠ type) : s.nextIs type = false := by
  unfold ParseState.nextIs
  cases hs : s.rest with
  | nil => rfl
  | cons t ts => simpa using h t ts hs

/-- A phrase that comes first hides the tokens that cannot begin it. -/
theorem Spans.first_ne {f : Form} {around : Bool} {p : Phrase f} {before after : List Token}
    (h : Spans around p before after) (full : f.nonempty = true) {type : TokenType}
    (other : f.first type = false) (t : Token) (ts : List Token) (ht : before = t :: ts) :
    t.type ≠ type := by
  obtain ⟨t', ts', begin, isFirst⟩ := h.exists_first full
  cases ht.symm.trans begin
  rintro rfl
  rw [other] at isFirst
  cases isFirst

/-- A phrase whose first token is told by its form puts that token first. -/
theorem Spans.opens {f : Form} {around : Bool} {p : Phrase f} {before after : List Token}
    (h : Spans around p before after) (full : f.nonempty = true) {type : TokenType}
    (told : ∀ t, f.first t = true → t = type) :
    ∃ word text, before = word :: text ∧ word.type = type ∧ Spans around p (word :: text) after := by
  obtain ⟨word, text, split, isFirst⟩ := h.exists_first full
  exact ⟨word, text, split, told _ isFirst, split ▸ h⟩

theorem Completes.rule {n : Symbol} {bound : Nat} {stop : List TokenType} {p : Parse n.Value}
    (plain : n.plain = true) (h : Completes n.tree bound stop p) :
    Completes (f := .rule n) id bound stop p := by
  intro s d rest spans short stops
  cases d with
  | rule d => exact h (spans.of_plain plain) short stops

/-- Each repeated part has a token. -/
theorem Phrase.repeats_le {f : Form} (h : f.nonempty = true) :
    (ps : Phrase (.many f)) → ps.repeats ≤ ps.tokens.length
  | .nil => Nat.le_refl 0
  | .cons p ps => by
    have := repeats_le h ps
    have := List.length_pos_iff.mpr (p.tokens_ne_nil h)
    simp only [repeats, tokens, List.length_append]
    omega

/-- Between repeated parts stands what begins each of them, and after them what follows. -/
theorem begins_of_separators {types stop : List TokenType} {g : Form} {rest : List Token}
    (apart : ∀ type, types.contains type = true → stop.contains type = false)
    (ps : Phrase (.many (.seq (.oneOf types) g))) (stops : begins (types ++ stop) rest = false) :
    begins stop (ps.tokens ++ rest) = false := by
  cases ps with
  | nil =>
    rw [begins_append, Bool.or_eq_false_iff] at stops
    exact stops.2
  | cons p ps =>
    obtain _ | _ | ⟨⟨t, ht⟩, p⟩ := p
    exact apart _ ht

/-! ### Chains -/

section Chains

variable {operators : TokenType → Bool} (types : List TokenType) {stop : List TokenType}
  {join : Expr → Token → Expr → Expr} {operand : Parse Expr} {m : ExprSymbol} {bound : Nat}
  (same : ∀ type, operators type = types.contains type)
  (apart : ∀ type, types.contains type = true → stop.contains type = false)
  (reads : Completes (f := .rule (.expr m)) id bound stop operand)

include same apart reads

theorem completes_moreOperands {s : ParseState} {rest : List Token} (left : Expr) (rounds : Nat) :
    (ps : Phrase (.many (.seq (.oneOf types) (.rule (.expr m))))) →
    Spans (decide (s.loopDepth ≠ 0)) ps s.rest rest → ps.tokens.length ≤ bound →
    ps.repeats ≤ rounds → begins (types ++ stop) rest = false →
    moreOperands operators join operand rounds left s =
      .ok (joinLeft join left ps.value s.nextId).1
        { s with rest, nextId := (joinLeft join left ps.value s.nextId).2 }
  | .nil, spans, _, _, stops => by
    have here : s.rest = rest := spans.split
    subst here
    cases rounds with
    | zero => rfl
    | succ rounds =>
      refine (bind_of_ok (acceptIf_of_none fun t rest hs => ?_)).trans rfl
      rw [begins_append, Bool.or_eq_false_iff] at stops
      rw [same]
      exact ne_of_begins stops.1 t rest hs
  | .cons (.seq (.token t ht) p) ps, spans, short, few, stops => by
    obtain ⟨first, others⟩ := spans.of_cons (.inl rfl)
    obtain ⟨word, next⟩ := first.of_seq
    simp only [Phrase.tokens, List.length_append, List.length_singleton] at short
    obtain _ | rounds := rounds
    · exact absurd few (Nat.not_succ_le_zero _)
    refine (bind_of_ok (acceptIf_of_some word.split ((same _).trans ht))).trans ?_
    have stopped := begins_of_separators apart ps stops
    refine (bind_of_ok (reads next (by omega) stopped)).trans ?_
    exact completes_moreOperands _ rounds ps others (by omega) (Nat.le_of_succ_le_succ few) stops

theorem completes_leftAssociative {rounds : Nat} (enough : bound ≤ rounds) :
    Completes (f := .chain m types) (chainTree join) bound (types ++ stop)
      (leftAssociative operators join operand rounds) := by
  intro s d rest spans short stops
  obtain _ | _ | ⟨p, ps⟩ := d
  obtain ⟨first, others⟩ := spans.of_seq
  simp only [Phrase.tokens, List.length_append] at short
  have few := ps.repeats_le rfl
  refine (bind_of_ok (reads first (by omega) (begins_of_separators apart ps stops))).trans ?_
  exact completes_moreOperands types same apart reads _ rounds ps others (by omega) (by omega) stops

end Chains

/-! ### Lists -/

section Lists

variable {α : Type} {f : Form} {item : Parse α} {tree : f.Value → Numbered α} {bound : Nat}
  {stop : List TokenType} {s : ParseState} {rest : List Token} {fault : SyntaxFault}
  (reads : Completes tree bound stop item)
  (apart : ∀ type, [.comma].contains type = true → stop.contains type = false)

include reads apart

theorem completes_moreItems {s : ParseState} (items : List α) (rounds : Nat) :
    (ps : Phrase (.many (.seq (.only .comma) f))) →
    Spans (decide (s.loopDepth ≠ 0)) ps s.rest rest → ps.tokens.length ≤ bound →
    ps.repeats ≤ rounds → items.length + ps.repeats ≤ maxArity →
    begins (.comma :: stop) rest = false →
    moreItems fault item rounds items s =
      .ok (items ++ (inOrder (ps.value.map fun part => tree part.2) s.nextId).1)
        { s with rest, nextId := (inOrder (ps.value.map fun part => tree part.2) s.nextId).2 }
  | .nil, spans, _, _, _, stops => by
    have here : s.rest = rest := spans.split
    subst here
    change _ = EStateM.Result.ok (items ++ []) s
    rw [List.append_nil]
    cases rounds with
    | zero => rfl
    | succ rounds =>
      refine (bind_of_ok (accept_of_none fun t rest hs => ?_)).trans rfl
      have := ne_of_begins stops t rest hs
      rw [List.contains_cons, Bool.or_eq_false_iff] at this
      simpa using this.1
  | .cons (.seq (.token t ht) p) ps, spans, short, few, fits, stops => by
    obtain ⟨first, others⟩ := spans.of_cons (.inr rfl)
    obtain ⟨word, next⟩ := first.of_seq
    simp only [Phrase.tokens, List.length_append, List.length_singleton] at short
    simp only [Phrase.repeats] at fits few
    obtain _ | rounds := rounds
    · exact absurd few (Nat.not_succ_le_zero _)
    have stopped := begins_of_separators apart ps stops
    refine (bind_of_ok (accept_of_some word.split (by simpa using ht))).trans ?_
    have under : limited fault item items.length = item := if_neg (by omega)
    refine (bind_of_ok ((congrFun under _).trans (reads next (by omega) stopped))).trans ?_
    refine (completes_moreItems (items ++ [_]) rounds ps others (by omega) (by omega) ?_ stops).trans ?_
    · rw [List.length_append, List.length_singleton]
      omega
    · rw [List.append_assoc]
      rfl

/-- Items between commas, the first of which does not begin with a closing parenthesis. -/
theorem completes_itemsBeforeParen {rounds : Nat} (enough : bound ≤ rounds) {first : Phrase f}
    {ps : Phrase (.many (.seq (.only .comma) f))}
    (spans : Spans (decide (s.loopDepth ≠ 0)) (.seq first ps) s.rest rest)
    (short : (Phrase.seq first ps).tokens.length ≤ bound) (few : ps.repeats + 1 ≤ maxArity)
    (open' : s.nextIs .rightParen = false) (stops : begins (.comma :: stop) rest = false) :
    itemsBeforeParen fault item rounds s =
      .ok (inOrder (tree first.value :: ps.value.map fun part => tree part.2) s.nextId).1
        { s with
          rest
          nextId := (inOrder (tree first.value :: ps.value.map fun part => tree part.2) s.nextId).2 } := by
  obtain ⟨here, others⟩ := spans.of_seq
  simp only [Phrase.tokens, List.length_append] at short
  have repeats := ps.repeats_le rfl
  have stopped := begins_of_separators apart ps stops
  change (if s.nextIs .rightParen then pure [] else _ : Parse (List α)) s = _
  rw [if_neg (Bool.eq_false_iff.mp open')]
  refine (bind_of_ok (reads here (by omega) stopped)).trans ?_
  refine completes_moreItems reads apart [_] rounds ps others (by omega) (by omega) ?_ stops
  rw [List.length_singleton]
  omega

end Lists

theorem completes_parameters (bound : Nat) {rounds : Nat} (enough : bound ≤ rounds) {s : ParseState}
    {d : Phrase (.optional (.rule .parameters))} {closing : Token} {rest : List Token}
    (isClosing : closing.type = .rightParen)
    (spans : Spans (decide (s.loopDepth ≠ 0)) d s.rest (closing :: rest))
    (short : d.tokens.length ≤ bound) :
    itemsBeforeParen .tooManyParameters (expect .identifier .missingParameterName) rounds s =
      .ok (((·.getD []) <$> orNone d.value : Numbered (List Token)) s.nextId).1
        { s with
          rest := closing :: rest
          nextId := (((·.getD []) <$> orNone d.value : Numbered (List Token)) s.nextId).2 } := by
  have item : Completes (f := .only .identifier) (pure : Token → Numbered Token) bound []
      (expect .identifier .missingParameterName) := by
    intro s d rest spans _ _
    obtain ⟨name, isName⟩ := d
    exact expect_of_some spans.split (by simpa using isName) _
  have closed : begins [.comma] (closing :: rest) = false := by simp [begins, isClosing]
  cases d with
  | none =>
    have here : s.rest = closing :: rest := spans.split
    change (if s.nextIs .rightParen then pure [] else _ : Parse (List Token)) s = _
    rw [if_pos (by simp [ParseState.nextIs, here, isClosing]), ← here]
    rfl
  | some d =>
    obtain _ | ⟨_ | _ | ⟨first, ps⟩⟩ := d
    have few := spans.arity.1 (.inl rfl)
    have spans := spans.of_some.of_rule
    have single : first.repeats = 0 := by cases first; rfl
    simp only [Phrase.repeats, single, Nat.zero_add] at few
    refine (completes_itemsBeforeParen item (fun _ _ => rfl) enough spans short few
      (nextIs_eq_false (spans.first_ne rfl rfl)) closed).trans ?_
    have : (ps.value.map fun part => (pure part.2 : Numbered Token)) =
        (ps.value.map Prod.snd).map pure := by rw [List.map_map]; rfl
    rw [this, ← List.map_cons, inOrder_pure]
    rfl

variable {k : Nat} {r : Rules} (hr : CompleteRules k r)

include hr

theorem completes_arguments {s : ParseState} {d : Phrase (.optional (.rule .arguments))}
    {closing : Token} {rest : List Token} (isClosing : closing.type = .rightParen)
    (spans : Spans (decide (s.loopDepth ≠ 0)) d s.rest (closing :: rest))
    (short : d.tokens.length ≤ k) :
    itemsBeforeParen .tooManyArguments r.expression r.rounds s =
      .ok (((·.getD []) <$> orNone d.value : Numbered (List Expr)) s.nextId).1
        { s with
          rest := closing :: rest
          nextId := (((·.getD []) <$> orNone d.value : Numbered (List Expr)) s.nextId).2 } := by
  cases d with
  | none =>
    have here : s.rest = closing :: rest := spans.split
    change (if s.nextIs .rightParen then pure [] else _ : Parse (List Expr)) s = _
    rw [if_pos (by simp [ParseState.nextIs, here, isClosing]), ← here]
    rfl
  | some d =>
    obtain _ | ⟨_ | _ | ⟨first, ps⟩⟩ := d
    have few := spans.arity.1 (.inr rfl)
    have spans := spans.of_some.of_rule
    simp only [Phrase.repeats, Phrase.repeats_rule, Nat.zero_add] at few
    refine completes_itemsBeforeParen hr.expression ?_ (by rw [hr.rounds]; omega) spans short few
      (nextIs_eq_false (spans.first_ne rfl rfl)) ?_
    · intro type isComma
      rw [show type = .comma by simpa using isComma]
      rfl
    · simp [begins, isClosing, ExprSymbol.goesOn]

/-! ### Functions -/

theorem completes_declarations (stop : ParseState → Bool) (rounds : Nat) {rest : List Token}
    (go : ∀ {s : ParseState} {t ts}, s.rest = t :: ts → Symbol.declaration.first t.type = true →
      stop s = false) (done : ∀ {s : ParseState}, s.rest = rest → stop s = true)
    {s : ParseState} :
    (ps : Phrase (.many (.rule .declaration))) →
    Spans (decide (s.loopDepth ≠ 0)) ps s.rest rest → ps.tokens.length ≤ k → ps.repeats ≤ rounds →
    (declarations r stop rounds).toParse s =
      .ok (inOrder ps.value s.nextId).1 { s with rest, nextId := (inOrder ps.value s.nextId).2 }
  | .nil, spans, _, _ => by
    have here : s.rest = rest := spans.split
    have stopped := done here
    subst here
    cases rounds with
    | zero => rfl
    | succ rounds =>
      rw [toParse_declarations, get_bind, if_pos stopped]
      rfl
  | .cons p ps, spans, short, few => by
    obtain ⟨first, others⟩ := spans.of_cons (.inr rfl)
    obtain ⟨t, ts, begin, isFirst⟩ := first.exists_first rfl
    simp only [Phrase.tokens, List.length_append] at short
    obtain _ | rounds := rounds
    · exact absurd few (Nat.not_succ_le_zero _)
    rw [toParse_declarations, get_bind, if_neg (Bool.eq_false_iff.mp (go begin isFirst))]
    refine (bind_of_ok (hr.declaration first (by omega) (begins_nil _))).trans ?_
    exact (bind_of_ok (completes_declarations stop rounds go done ps others (by omega)
      (Nat.le_of_succ_le_succ few))).trans rfl

theorem completes_block : CompletesAfter .block (k + 1) fun _ => block r := by
  intro s d brace rest spans short
  obtain _ | ⟨_ | _ | ⟨⟨t, ht⟩, _ | _ | ⟨ps, ⟨u, hu⟩⟩⟩⟩ := d
  obtain ⟨_, split, inside⟩ := (Spans.of_plain rfl spans).uncons
  cases split
  simp only [Phrase.tokens, List.length_append, List.length_singleton] at short
  obtain ⟨body, closing⟩ := inside.of_seq
  have isClosing : u.type = .rightBrace := by simpa using hu
  have few := ps.repeats_le rfl
  refine (bind_of_ok (completes_declarations hr _ r.rounds ?_ ?_ ps body (by omega)
    (by rw [hr.rounds]; omega))).trans ?_
  · intro s t ts split isFirst
    have : t.type ≠ .rightBrace := by
      intro isBrace
      rw [isBrace] at isFirst
      cases isFirst
    simp [ParseState.atEnd, ParseState.nextIs, split, this]
  · intro s split
    have split : s.rest = u :: rest := split
    simp [ParseState.nextIs, split, isClosing]
  · exact (bind_of_ok (expect_of_some rfl isClosing _)).trans rfl

theorem completes_functionRest (form : FunctionForm) {s : ParseState}
    {opening closing : Token} {isOpening : [.leftParen].contains opening.type = true}
    {isClosing : [.rightParen].contains closing.type = true}
    {params : Phrase (.optional (.rule .parameters))} {body : Phrase (.rule .block)}
    {rest : List Token}
    (spans : Spans false (.seq (.token opening isOpening) (.seq params
      (.seq (.token closing isClosing) body))) s.rest rest)
    (short : params.tokens.length + body.tokens.length ≤ k) :
    functionRest r form s = .ok (functionParts params.value body.value s.nextId).1
      { s with rest, nextId := (functionParts params.value body.value s.nextId).2 } := by
  obtain ⟨_, split, inside⟩ := spans.uncons
  obtain ⟨names, inside⟩ := inside.of_seq
  obtain ⟨_, split', block⟩ := inside.uncons
  cases split'
  obtain ⟨brace, text, begin, isBrace⟩ := block.exists_first rfl
  rw [begin] at block
  refine (bind_of_ok (expect_of_some split (by simpa using isOpening) _)).trans ?_
  refine (bind_of_ok (completes_parameters k (by rw [hr.rounds]; omega)
    (by simpa using isClosing) (names.sheltered rfl _) (by omega))).trans ?_
  refine (bind_of_ok (expect_of_some rfl (by simpa using isClosing) _)).trans ?_
  refine (bind_of_ok (expect_of_some begin (beq_iff_eq.mp isBrace) _)).trans ?_
  have inner := completes_block hr (s := ⟨text, s.endLine, 0, (orNone params.value s.nextId).2,
    s.errors⟩) block (by omega)
  exact (bind_of_ok (insideFunction_of_ok inner)).trans rfl

theorem completes_function (form : FunctionForm) :
    Completes (f := .rule .function) id (k + 1) [] (function r form) := by
  intro s d rest spans short _
  obtain _ | ⟨_ | _ | ⟨⟨t, ht⟩, _ | _ | ⟨⟨u, hu⟩, _ | _ | ⟨params, _ | _ | ⟨⟨v, hv⟩, body⟩⟩⟩⟩⟩ := d
  have parts : Spans false _ _ _ := spans.of_rule
  obtain ⟨_, split, tail⟩ := parts.uncons
  simp only [Phrase.tokens, List.length_append, List.length_singleton] at short
  refine (bind_of_ok (expect_of_some split (by simpa using ht) _)).trans ?_
  exact (bind_of_ok (completes_functionRest hr form tail (by omega))).trans rfl

/-! ### Expressions -/

omit hr in
theorem single_of_cons {s : ParseState} {t : Token} {rest : List Token} (h : s.rest = t :: rest)
    (e : Expr) : single e s = .ok e { s with rest } := by
  unfold single
  rw [h]
  rfl

omit hr in
theorem peek_of_cons {s : ParseState} {t : Token} {rest : List Token} (h : s.rest = t :: rest) :
    s.peek = t := by
  rw [ParseState.peek, h]
  rfl

omit hr in
theorem primary_of_word {s : ParseState} {t : Token} {rest : List Token} (split : s.rest = t :: rest)
    (isWord : (isNumber t.type || isString t.type ||
      [.kwTrue, .kwFalse, .kwNil, .kwThis, .identifier].contains t.type) = true) :
    primary r s = .ok (wordTree t s.nextId).1 { s with rest, nextId := (wordTree t s.nextId).2 } := by
  unfold primary
  rw [get_bind, peek_of_cons split]
  cases type : t.type with
  | kwTrue | kwFalse | kwNil | number _ | string _ =>
    simp only [wordTree, type]
    exact single_of_cons split _
  | kwThis | identifier =>
    simp only [wordTree, type]
    exact (bind_of_ok rfl).trans (single_of_cons (s := { s with nextId := s.nextId + 1 }) split _)
  | _ => rw [type] at isWord; cases isWord

theorem completes_primary :
    Completes (f := .rule (.expr .primary)) id (k + 1) [] (primary r) := by
  intro s d rest spans short _
  match d, spans, short with
  | .rule (.left (.token t ht)), spans, _ => exact primary_of_word spans.split ht
  | .rule (.right (.left (.seq (.token t ht) (.seq inner (.token u hu))))), spans, short =>
    have type : t.type = .leftParen := by simpa using ht
    obtain ⟨_, split, parts⟩ := spans.of_rule.of_right.of_left.uncons
    obtain ⟨inside, -⟩ := parts.of_seq
    simp only [Phrase.tokens, List.length_append, List.length_singleton] at short
    have isClosing : u.type = .rightParen := by simpa using hu
    unfold primary
    rw [get_bind, peek_of_cons split]
    simp only [type]
    refine (bind_of_ok (accept_of_some split type)).trans ?_
    refine (bind_of_ok (hr.expression (inside.sheltered rfl _) (by omega) ?_)).trans ?_
    · simp [begins, Phrase.tokens, isClosing, ExprSymbol.goesOn]
    · exact (bind_of_ok (expect_of_some rfl isClosing _)).trans rfl
  | .rule (.right (.right (.left (.seq (.token t ht) (.seq (.token u hu) (.token v hv)))))), spans, _ =>
    have type : t.type = .kwSuper := by simpa using ht
    have split : s.rest = t :: u :: v :: rest := spans.split
    unfold primary
    rw [get_bind, peek_of_cons split]
    simp only [type]
    refine (bind_of_ok (accept_of_some split type)).trans ?_
    refine (bind_of_ok (expect_of_some rfl (by simpa using hu) _)).trans ?_
    exact (bind_of_ok (expect_of_some rfl (by simpa using hv) _)).trans rfl
  | .rule (.right (.right (.right (.seq (.token t ht) (.seq (.token u hu) (.seq params
      (.seq (.token v hv) body))))))), spans, short =>
    have type : t.type = .kwFun := by simpa using ht
    have parts : Spans false _ _ _ := spans.of_rule.of_right.of_right.of_right
    obtain ⟨_, split, tail⟩ := parts.uncons
    simp only [Phrase.tokens, List.length_append, List.length_singleton] at short
    unfold primary
    rw [get_bind, peek_of_cons split]
    simp only [type]
    refine (bind_of_ok (accept_of_some split type)).trans ?_
    exact (bind_of_ok (completes_functionRest hr _ tail (by omega))).trans rfl

theorem completes_callRest {s : ParseState} {rest : List Token} (e : Expr) (rounds : Nat) :
    (ps : Phrase (.many Form.callPart)) → Spans (decide (s.loopDepth ≠ 0)) ps s.rest rest →
    ps.tokens.length ≤ k → ps.repeats ≤ rounds → begins [.leftParen, .dot] rest = false →
    callRest r rounds e s = .ok (callTree e ps.value s.nextId).1
      { s with rest, nextId := (callTree e ps.value s.nextId).2 }
  | .nil, spans, _, _, stops => by
    have here : s.rest = rest := spans.split
    subst here
    cases rounds with
    | zero => rfl
    | succ rounds =>
      refine (bind_of_ok (acceptIf_of_none fun t rest hs => ?_)).trans rfl
      simpa using ne_of_begins stops t rest hs
  | .cons (.left (.seq (.token t ht) (.seq arguments (.token u hu)))) ps, spans, short, few,
      stops => by
    obtain ⟨first, others⟩ := spans.of_cons (.inl rfl)
    obtain ⟨_, split, parts⟩ := first.of_left.uncons
    obtain ⟨inside, -⟩ := parts.of_seq
    simp only [Phrase.tokens, List.length_append, List.length_singleton] at short
    have isOpening : t.type = .leftParen := by simpa using ht
    have isClosing : u.type = .rightParen := by simpa using hu
    obtain _ | rounds := rounds
    · exact absurd few (Nat.not_succ_le_zero _)
    refine (bind_of_ok (acceptIf_of_some split (by simp [isOpening]))).trans ?_
    simp only [isOpening, beq_self_eq_true, if_true]
    refine (bind_of_ok (completes_arguments hr isClosing inside (by omega))).trans ?_
    refine (bind_of_ok (expect_of_some rfl isClosing _)).trans ?_
    exact completes_callRest _ rounds ps others (by omega) (Nat.le_of_succ_le_succ few) stops
  | .cons (.right (.seq (.token t ht) (.token u hu))) ps, spans, short, few, stops => by
    obtain ⟨first, others⟩ := spans.of_cons (.inl rfl)
    have split : s.rest = t :: u :: (ps.tokens ++ rest) := first.split
    have isDot : t.type = .dot := by simpa using ht
    simp only [Phrase.tokens, List.length_append, List.length_singleton] at short
    obtain _ | rounds := rounds
    · exact absurd few (Nat.not_succ_le_zero _)
    refine (bind_of_ok (acceptIf_of_some split (by simp [isDot]))).trans ?_
    simp only [isDot]
    refine (bind_of_ok (expect_of_some rfl (by simpa using hu) _)).trans ?_
    exact completes_callRest _ rounds ps others (by omega) (Nat.le_of_succ_le_succ few) stops

theorem completes_call :
    Completes (f := .rule (.expr .call)) id (k + 1) ExprSymbol.call.goesOn (call r) := by
  refine Completes.rule rfl ?_
  intro s d rest spans short stops
  obtain _ | _ | ⟨p, ps⟩ := d
  obtain ⟨first, others⟩ := spans.of_seq
  have few := ps.repeats_le rfl
  have := List.length_pos_iff.mpr (p.tokens_ne_nil rfl)
  simp only [Phrase.tokens, List.length_append] at short
  refine (bind_of_ok (completes_primary hr first (by omega) (begins_nil _))).trans ?_
  exact completes_callRest hr _ _ ps others (by omega) (by rw [hr.rounds]; omega) stops

theorem completes_unaryUpTo {s : ParseState} {rest : List Token} (rounds : Nat)
    (stops : begins [.leftParen, .dot] rest = false) (d : Phrase (.rule (.expr .unary)))
    (spans : Spans (decide (s.loopDepth ≠ 0)) d s.rest rest) (short : d.tokens.length ≤ k + 1)
    (few : d.tokens.length ≤ rounds) :
    unaryUpTo r rounds s = .ok (d.value s.nextId).1
      { s with rest, nextId := (d.value s.nextId).2 } := by
  induction rounds generalizing s d with
  | zero =>
    exact absurd few (Nat.not_le_of_lt (List.length_pos_iff.mpr (d.tokens_ne_nil rfl)))
  | succ rounds ih =>
    match d, spans, short, few with
    | .rule (.left (.seq (.token t ht) d)), spans, short, few =>
      obtain ⟨_, split, operand⟩ := (spans.of_plain rfl).of_left.uncons
      simp only [Phrase.tokens, List.length_append, List.length_singleton] at short few
      have isUnary : isUnary t.type = true := by
        obtain type | type : t.type = .bang ∨ t.type = .minus := by simpa using ht
        · rw [type]; rfl
        · rw [type]; rfl
      refine (bind_of_ok (acceptIf_of_some split isUnary)).trans ?_
      exact (bind_of_ok (ih d operand (by omega) (by omega))).trans rfl
    | .rule (.right d), spans, short, few =>
      refine (bind_of_ok (acceptIf_of_none fun t ts split => ?_)).trans ?_
      · obtain ⟨t', ts', begin, isFirst⟩ := spans.of_rule.of_right.exists_first rfl
        cases split.symm.trans begin
        unfold isUnary
        split
        next type => rw [type] at isFirst; cases isFirst
        next type => rw [type] at isFirst; cases isFirst
        next => rfl
      · exact completes_call hr (spans.of_plain rfl).of_right short stops

theorem completes_unary :
    Completes (f := .rule (.expr .unary)) id (k + 1) ExprSymbol.unary.goesOn (unary r) := by
  intro s d rest spans short stops
  exact completes_unaryUpTo hr _ stops d spans short (by rw [hr.rounds]; exact short)

theorem completes_factor : Completes (f := .rule (.expr .factor)) id (k + 1)
    ExprSymbol.factor.goesOn (factor r) := by
  refine Completes.rule rfl (completes_leftAssociative [.slash, .star] ?_ ?_ (completes_unary hr)
    (Nat.le_of_eq hr.rounds.symm))
  · intro type
    cases type <;> rfl
  · intro type operator
    cases type <;> first | rfl | cases operator

theorem completes_term : Completes (f := .rule (.expr .term)) id (k + 1)
    ExprSymbol.term.goesOn (term r) := by
  refine Completes.rule rfl (completes_leftAssociative [.minus, .plus] ?_ ?_ (completes_factor hr)
    (Nat.le_of_eq hr.rounds.symm))
  · intro type
    cases type <;> rfl
  · intro type operator
    cases type <;> first | rfl | cases operator

theorem completes_comparison : Completes (f := .rule (.expr .comparison)) id (k + 1)
    ExprSymbol.comparison.goesOn (comparison r) := by
  refine Completes.rule rfl (completes_leftAssociative [.greater, .greaterEqual, .less, .lessEqual] ?_ ?_ (completes_term hr)
    (Nat.le_of_eq hr.rounds.symm))
  · intro type
    cases type <;> rfl
  · intro type operator
    cases type <;> first | rfl | cases operator

theorem completes_equality : Completes (f := .rule (.expr .equality)) id (k + 1)
    ExprSymbol.equality.goesOn (equality r) := by
  refine Completes.rule rfl (completes_leftAssociative [.bangEqual, .equalEqual] ?_ ?_ (completes_comparison hr)
    (Nat.le_of_eq hr.rounds.symm))
  · intro type
    cases type <;> rfl
  · intro type operator
    cases type <;> first | rfl | cases operator

theorem completes_logicalAnd : Completes (f := .rule (.expr .logicAnd)) id (k + 1)
    ExprSymbol.logicAnd.goesOn (logicalAnd r) := by
  refine Completes.rule rfl (completes_leftAssociative [.kwAnd] ?_ ?_ (completes_equality hr)
    (Nat.le_of_eq hr.rounds.symm))
  · intro type
    cases type <;> rfl
  · intro type operator
    cases type <;> first | rfl | cases operator

theorem completes_logicalOr : Completes (f := .rule (.expr .logicOr)) id (k + 1)
    ExprSymbol.logicOr.goesOn (logicalOr r) := by
  refine Completes.rule rfl (completes_leftAssociative [.kwOr] ?_ ?_ (completes_logicalAnd hr)
    (Nat.le_of_eq hr.rounds.symm))
  · intro type
    cases type <;> rfl
  · intro type operator
    cases type <;> first | rfl | cases operator

/-! ### Assignments -/

omit hr in
/-- A phrase of repeated parts with one more at its end. -/
theorem Spans.concat {f : Form} {around : Bool} {before mid after : List Token} {q : Phrase f}
    (apart : f.closed = true) :
    (ps : Phrase (.many f)) → Spans around ps before mid → Spans around q mid after →
    ∃ qs : Phrase (.many f), Spans around qs before after ∧ qs.value = ps.value ++ [q.value]
  | .nil, hps, hq => by
    have here : before = mid := hps.split
    subst here
    exact ⟨.cons q .nil, .cons hq .nil, rfl⟩
  | .cons p ps, hps, hq => by
    obtain ⟨first, others⟩ := hps.of_cons (.inl apart)
    obtain ⟨qs, spans, value⟩ := concat apart ps others hq
    exact ⟨.cons p qs, .cons first spans, by rw [Phrase.value, value]; rfl⟩

omit hr in
theorem Spans.logicOr_of_call {around : Bool} {before after : List Token}
    {p : Phrase (.rule (.expr .call))} (h : Spans around p before after) :
    ∃ q : Phrase (.rule (.expr .logicOr)), Spans around q before after ∧ q.value = p.value := by
  refine ⟨.rule (.seq (.rule (.seq (.rule (.seq (.rule (.seq (.rule (.seq (.rule (.seq
    (.rule (.right p)) .nil)) .nil)) .nil)) .nil)) .nil)) .nil), ?_, rfl⟩
  have unary : Spans around (.rule (n := .expr .unary) (.right p)) before after := .plain rfl h.right
  have factor := Spans.plain (n := .expr .factor) rfl (unary.seq .nil)
  have term := Spans.plain (n := .expr .term) rfl (factor.seq .nil)
  have comparison := Spans.plain (n := .expr .comparison) rfl (term.seq .nil)
  have equality := Spans.plain (n := .expr .equality) rfl (comparison.seq .nil)
  have logicAnd := Spans.plain (n := .expr .logicAnd) rfl (equality.seq .nil)
  exact Spans.plain (n := .expr .logicOr) rfl (logicAnd.seq .nil)

omit hr in
theorem begins_assignment {rest : List Token} (h : begins ExprSymbol.assignment.goesOn rest = false) :
    begins [.equal] rest = false ∧ begins ExprSymbol.logicOr.goesOn rest = false := by
  rw [show ExprSymbol.assignment.goesOn = [.equal] ++ ExprSymbol.logicOr.goesOn from rfl,
    begins_append, Bool.or_eq_false_iff] at h
  exact h

omit hr in
theorem callTree_concat (e : Expr) (parts : CallParts) (dot name : Token) :
    callTree e (parts ++ [.inr (dot, name)]) =
      (callTree e parts >>= fun object => pure (.get object name)) := by
  induction parts generalizing e with
  | nil => rfl
  | cons part parts ih =>
    obtain ⟨_, arguments, paren⟩ | ⟨_, property⟩ := part
    · simp only [List.cons_append, callTree, ih, bind_assoc]
    · exact ih _

theorem assignment_of_target {s : ParseState} {c : Phrase (.rule (.expr .call))} {equal : Token}
    {q : Phrase (.rule (.expr .assignment))} {text rest : List Token} {target e : Expr} {i : Nat}
    (isEqual : equal.type = .equal)
    (spans : Spans (decide (s.loopDepth ≠ 0)) c s.rest (equal :: text))
    (value : c.value s.nextId = (target, i))
    (spans' : Spans (decide (s.loopDepth ≠ 0)) q text rest)
    (short : c.tokens.length ≤ k + 1) (short' : q.tokens.length ≤ k)
    (stops : begins ExprSymbol.assignment.goesOn rest = false)
    (assigned : assignTo? (q.value i).1 target = some e) :
    assignment r s = .ok e { s with rest, nextId := (q.value i).2 } := by
  obtain ⟨d, asOr, same⟩ := spans.logicOr_of_call
  have tokens : d.tokens = c.tokens := List.append_cancel_right (asOr.split.symm.trans spans.split)
  have first := completes_logicalOr hr asOr (by rw [tokens]; exact short) (by
    simp [begins, isEqual, ExprSymbol.goesOn])
  rw [same, id, value] at first
  refine (bind_of_ok first).trans ?_
  refine (bind_of_ok (accept_of_some rfl isEqual)).trans ?_
  have second : r.expression { s with rest := text, nextId := i } =
      .ok (q.value i).1 { s with rest, nextId := (q.value i).2 } :=
    hr.expression (d := .rule q) (spans'.plain (n := .expr .expression) rfl) short' stops
  refine (bind_of_ok second).trans ?_
  dsimp only
  rw [assigned]
  rfl

theorem completes_assignment :
    Completes (f := .rule (.expr .assignment)) id (k + 1) ExprSymbol.assignment.goesOn
      (assignment r) := by
  intro s d rest spans short stops
  match d, spans, short with
  | .rule (.right d), spans, short =>
    obtain ⟨noEqual, stops⟩ := begins_assignment stops
    refine (bind_of_ok (completes_logicalOr hr (spans.of_plain rfl).of_right short stops)).trans ?_
    refine (bind_of_ok (accept_of_none fun t ts split => ?_)).trans rfl
    simpa using ne_of_begins noEqual t ts split
  | .rule (.left (.seq .none (.seq (.token t ht) (.seq (.token u hu) q)))), spans, short =>
    obtain ⟨-, parts⟩ := (spans.of_plain rfl).of_left.of_seq
    obtain ⟨_, split, parts⟩ := parts.uncons
    obtain ⟨text, split', value⟩ := parts.uncons
    have isName : t.type = .identifier := by simpa using ht
    have split : s.rest = t :: u :: text := (spans.split.trans split).trans (congrArg _ split')
    have word : (isNumber t.type || isString t.type ||
        [.kwTrue, .kwFalse, .kwNil, .kwThis, .identifier].contains t.type) = true := by simp [isName]
    -- The parser reads the name as a call without parts, and makes it a target at the `=`.
    have callee : Spans (decide (s.loopDepth ≠ 0)) (.rule (n := .expr .call) (.seq
        (.rule (n := .expr .primary) (.left (.token t word))) .nil)) s.rest (u :: text) := by
      rw [split]
      exact .plain rfl (.seq (.rule (.left (.token word)) nofun nofun) .nil)
    have number : Phrase.value (.rule (n := .expr .call) (.seq
        (.rule (n := .expr .primary) (.left (.token t word))) .nil)) s.nextId =
        (Expr.variable ⟨s.nextId, t⟩, s.nextId + 1) := by
      change wordTree t s.nextId = _
      rw [wordTree, isName]
      rfl
    simp only [Phrase.tokens, List.length_append, List.length_cons, List.length_nil] at short
    exact assignment_of_target hr (q := q) (by simpa using hu) callee number value
      (by simp [Phrase.tokens]) (by omega) stops rfl
  | .rule (.left (.seq (.some (.seq (.rule (.seq p parts)) (.token v hv)))
      (.seq (.token t ht) (.seq (.token u hu) q)))), spans, short =>
    obtain ⟨object, tail⟩ := (spans.of_plain rfl).of_left.of_seq
    obtain ⟨_, split, tail⟩ := tail.uncons
    obtain ⟨text, rfl, value⟩ := tail.uncons
    obtain ⟨object, -⟩ := object.of_some.of_seq
    obtain ⟨first, others⟩ := (object.of_plain rfl).of_seq
    rw [split] at first others
    -- The parser reads the property as the last part of the call.
    obtain ⟨qs, property, values⟩ := Spans.concat (q := .right (.seq (.token v hv) (.token t ht)))
      rfl parts others (.right (.seq (.token _) (.token _)))
    have callee : Spans (decide (s.loopDepth ≠ 0)) (.rule (n := .expr .call) (.seq p qs)) s.rest
      (u :: text) := .plain rfl (first.seq property)
    have number : Phrase.value (.rule (n := .expr .call) (.seq p qs)) s.nextId =
        (Expr.get (Phrase.value (.rule (n := .expr .call) (.seq p parts)) s.nextId).1 t,
          (Phrase.value (.rule (n := .expr .call) (.seq p parts)) s.nextId).2) := by
      change callTree (p.value s.nextId).1 qs.value (p.value s.nextId).2 = _
      rw [values]
      exact congrFun (callTree_concat (p.value s.nextId).1 parts.value v t) _
    have lengths := congrArg List.length (callee.split.symm.trans spans.split)
    rw [value.split] at lengths
    simp only [List.length_append, List.length_cons] at lengths
    exact assignment_of_target hr (q := q) (by simpa using hu) callee number value (by omega)
      (by omega) stops rfl

end Lox.Grammar
