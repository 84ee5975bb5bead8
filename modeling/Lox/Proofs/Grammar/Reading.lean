import Lox.Proofs.Grammar.Analysis
import Lox.Proofs.Grammar.Tree
import Lox.Proofs.ParseRelation

/-!
# Phrases at the front of a text

When the tokens of a phrase come first in a text, and what the parsers of single tokens do there.
-/

namespace Lox.Grammar

open Syntax

abbrev Form.functionTail : Form :=
  .seq (.only .leftParen) <| .seq (.optional (.rule .parameters)) <| .seq (.only .rightParen)
    (.rule .block)

abbrev Form.callPart : Form :=
  .either (.seq (.only .leftParen) <| .seq (.optional (.rule .arguments)) (.only .rightParen))
    (.seq (.only .dot) (.only .identifier))

abbrev Form.firstClause : Form :=
  .either (.rule .varDecl) <| .either (.rule .exprStmt) (.only .semicolon)

/-- The phrase comes first in the text `before`, of which `after` is left, and it may stand there:
its lists are short enough, its `break`s are in loops, and each `else` is taken by the nearest
`if`. -/
structure Spans {f : Form} (around : Bool) (p : Phrase f) (before after : List Token) : Prop where
  split : before = p.tokens ++ after
  arity : p.WithinArity
  breaks : p.BreaksInLoops around
  nearest : p.NearestElse
  openEnd : p.EndsOpen → beginsElse after = false

namespace Spans

variable {f g : Form} {around : Bool} {before mid after : List Token}

theorem token {fits : TokenType → Bool} {t : Token} (h : fits t.type = true) :
    Spans around (.token t h) (t :: after) after :=
  ⟨rfl, trivial, trivial, trivial, False.elim⟩

theorem only {t : Token} {type : TokenType} (h : t.type = type) :
    Spans around (Phrase.only h) (t :: after) after := token _

theorem rule {n : Symbol} {p : Phrase n.form} (h : Spans (n.inLoop around) p before after)
    (arity : n = .parameters ∨ n = .arguments → p.repeats + 1 ≤ maxArity)
    (inLoop : n = .breakStmt → around = true) :
    Spans around (.rule p) before after :=
  ⟨h.split, ⟨arity, h.arity⟩, ⟨inLoop, h.breaks⟩, h.nearest, h.openEnd⟩

theorem of_rule {n : Symbol} {p : Phrase n.form} (h : Spans around (.rule p) before after) :
    Spans (n.inLoop around) p before after :=
  ⟨h.split, h.arity.2, h.breaks.2, h.nearest, h.openEnd⟩

theorem seq {p : Phrase f} {q : Phrase g} (hp : Spans around p before mid)
    (hq : Spans around q mid after) : Spans around (.seq p q) before after := by
  refine ⟨?_, ⟨hp.arity, hq.arity⟩, ⟨hp.breaks, hq.breaks⟩, ⟨hp.nearest, hq.nearest, ?_⟩, ?_⟩
  · rw [hp.split, hq.split, Phrase.tokens, List.append_assoc]
  · intro begins openEnd
    have next := hp.openEnd openEnd
    have full : q.tokens ≠ [] := by rintro empty; rw [empty] at begins; cases begins
    rw [hq.split, beginsElse_append full, begins] at next
    cases next
  · rintro (openEnd | ⟨empty, openEnd⟩)
    · exact hq.openEnd openEnd
    · have next := hp.openEnd openEnd
      rwa [hq.split, empty] at next

theorem of_seq {p : Phrase f} {q : Phrase g} (h : Spans around (.seq p q) before after) :
    Spans around p before (q.tokens ++ after) ∧ Spans around q (q.tokens ++ after) after := by
  refine ⟨⟨?_, h.arity.1, h.breaks.1, h.nearest.1, fun openEnd => ?_⟩,
    rfl, h.arity.2, h.breaks.2, h.nearest.2.1, fun openEnd => h.openEnd (.inl openEnd)⟩
  · rw [h.split, Phrase.tokens, List.append_assoc]
  · by_cases empty : q.tokens = []
    · rw [empty]
      exact h.openEnd (.inr ⟨empty, openEnd⟩)
    · rw [beginsElse_append empty]
      exact Bool.eq_false_iff.mpr fun begins => h.nearest.2.2 begins openEnd

theorem uncons {fits : TokenType → Bool} {t : Token} {ht : fits t.type = true} {q : Phrase g}
    (h : Spans around (.seq (.token t ht) q) before after) :
    ∃ text, before = t :: text ∧ Spans around q text after :=
  ⟨q.tokens ++ after, h.of_seq.1.split, h.of_seq.2⟩

theorem left {p : Phrase f} (h : Spans around p before after) :
    Spans around (Phrase.left (g := g) p) before after :=
  ⟨h.split, h.arity, h.breaks, h.nearest, h.openEnd⟩

theorem right {q : Phrase g} (h : Spans around q before after) :
    Spans around (Phrase.right (f := f) q) before after :=
  ⟨h.split, h.arity, h.breaks, h.nearest, h.openEnd⟩

theorem of_left {p : Phrase f} (h : Spans around (Phrase.left (g := g) p) before after) :
    Spans around p before after := ⟨h.split, h.arity, h.breaks, h.nearest, h.openEnd⟩

theorem of_right {q : Phrase g} (h : Spans around (Phrase.right (f := f) q) before after) :
    Spans around q before after := ⟨h.split, h.arity, h.breaks, h.nearest, h.openEnd⟩

theorem none (h : f.isElse = true → beginsElse after = false) :
    Spans around (Phrase.none (f := f)) after after :=
  ⟨rfl, trivial, trivial, trivial, h⟩

theorem some {p : Phrase f} (h : Spans around p before after) :
    Spans around (Phrase.some p) before after :=
  ⟨h.split, h.arity, h.breaks, h.nearest, h.openEnd⟩

theorem of_some {p : Phrase f} (h : Spans around (Phrase.some p) before after) :
    Spans around p before after := ⟨h.split, h.arity, h.breaks, h.nearest, h.openEnd⟩

theorem nil : Spans around (Phrase.nil (f := f)) after after :=
  ⟨rfl, trivial, trivial, trivial, False.elim⟩

theorem cons {p : Phrase f} {ps : Phrase (.many f)} (hp : Spans around p before mid)
    (hps : Spans around ps mid after) : Spans around (.cons p ps) before after := by
  refine ⟨?_, ⟨hp.arity, hps.arity⟩, ⟨hp.breaks, hps.breaks⟩, ⟨hp.nearest, hps.nearest⟩, ?_⟩
  · rw [hp.split, hps.split, Phrase.tokens, List.append_assoc]
  · rintro (openEnd | ⟨empty, openEnd⟩)
    · exact hps.openEnd openEnd
    · have next := hp.openEnd openEnd
      rwa [hps.split, empty] at next

theorem of_cons {p : Phrase f} {ps : Phrase (.many f)} (h : Spans around (.cons p ps) before after)
    (apart : f.closed = true ∨ f.mayBeginElse = false) :
    Spans around p before (ps.tokens ++ after) ∧ Spans around ps (ps.tokens ++ after) after := by
  refine ⟨⟨?_, h.arity.1, h.breaks.1, h.nearest.1, fun openEnd => ?_⟩,
    rfl, h.arity.2, h.breaks.2, h.nearest.2, fun openEnd => h.openEnd (.inl openEnd)⟩
  · rw [h.split, Phrase.tokens, List.append_assoc]
  · by_cases empty : ps.tokens = []
    · rw [empty]
      exact h.openEnd (.inr ⟨empty, openEnd⟩)
    · rw [beginsElse_append empty]
      refine Bool.eq_false_iff.mpr fun begins => ?_
      obtain closed | noElse := apart
      · exact p.not_endsOpen closed openEnd
      · rw [show f.mayBeginElse = true from ps.mayBeginElse_of_begins begins] at noElse
        cases noElse

theorem sheltered {p : Phrase f} (h : Spans around p before after) (only : f.sheltered = true)
    (wider : Bool) : Spans wider p before after :=
  ⟨h.split, h.arity, p.breaks_of_sheltered only h.breaks wider, h.nearest, h.openEnd⟩

end Spans

/-- The symbols that ask no more of their phrases than that their parts fit. -/
def Symbol.plain (n : Symbol) : Bool :=
  match n with
  | .parameters | .arguments | .breakStmt | .function | .forStmt | .whileStmt => false
  | .expr .primary => false
  | _ => true

theorem Spans.plain {n : Symbol} (plain : n.plain = true) {around : Bool} {p : Phrase n.form}
    {before after : List Token} (h : Spans around p before after) :
    Spans around (.rule p) before after := by
  refine .rule ?_ ?_ ?_
  · cases n with
    | expr n => cases n <;> first | exact h | cases plain
    | _ => first | exact h | cases plain
  · rintro (rfl | rfl) <;> cases plain
  · rintro rfl; cases plain

theorem Spans.of_plain {n : Symbol} (plain : n.plain = true) {around : Bool} {p : Phrase n.form}
    {before after : List Token} (h : Spans around (.rule p) before after) :
    Spans around p before after := by
  refine ⟨h.split, h.arity.2, ?_, h.nearest, h.openEnd⟩
  have := h.breaks.2
  cases n with
  | expr n => cases n <;> first | exact this | cases plain
  | _ => first | exact this | cases plain

/-! ### Parsers of single tokens -/

variable {s u : ParseState} {t : Token} {type : TokenType} {fault : SyntaxFault}

theorem acceptIf_some {test : TokenType → Bool} (h : acceptIf test s = .ok (some t) u) :
    ∃ rest, s.rest = t :: rest ∧ test t.type = true ∧ u = { s with rest } := by
  unfold acceptIf at h
  cases hs : s.rest with
  | nil => rw [hs] at h; cases h
  | cons t' rest =>
    rw [hs] at h
    dsimp only at h
    split at h
    · cases h; exact ⟨rest, rfl, ‹_›, rfl⟩
    · cases h

theorem acceptIf_none {test : TokenType → Bool} (h : acceptIf test s = .ok none u) :
    u = s ∧ ∀ t rest, s.rest = t :: rest → test t.type = false := by
  unfold acceptIf at h
  cases hs : s.rest with
  | nil => rw [hs] at h; cases h; exact ⟨rfl, fun _ _ h => by cases h⟩
  | cons t' rest =>
    rw [hs] at h
    dsimp only at h
    split at h
    · cases h
    · rename_i no
      cases h
      exact ⟨rfl, fun t _ h => by cases h; exact Bool.eq_false_iff.mpr no⟩

theorem accept_some (h : accept type s = .ok (some t) u) :
    ∃ rest, s.rest = t :: rest ∧ t.type = type ∧ u = { s with rest } := by
  obtain ⟨rest, split, fits, same⟩ := acceptIf_some h
  exact ⟨rest, split, by simpa using fits, same⟩

theorem expect_ok (h : expect type fault s = .ok t u) :
    ∃ rest, s.rest = t :: rest ∧ t.type = type ∧ u = { s with rest } := by
  obtain ⟨found, mid, read, h⟩ := bind_ok h
  cases found with
  | none => cases h
  | some found => cases h; exact accept_some read

theorem nextIs_eq_true (h : s.nextIs type = true) :
    ∃ t rest, s.rest = t :: rest ∧ t.type = type := by
  unfold ParseState.nextIs at h
  cases hs : s.rest with
  | nil => rw [hs] at h; cases h
  | cons t rest => exact ⟨t, rest, rfl, by simpa [hs] using h⟩

/-- The rounds in which declarations are read, as a parser that raises nothing. -/
theorem toParse_declarations (r : Rules) (stop : ParseState → Bool) (n : Nat) :
    (declarations r stop (n + 1)).toParse = (do
      if stop (← get) then pure []
      else
        let first ← r.declaration.toParse
        let others ← (declarations r stop n).toParse
        pure (first.toList ++ others)) := by
  funext s
  change Total.toParse (if stop s then pure [] else do
    let first ← r.declaration
    let others ← declarations r stop n
    pure (first.toList ++ others) : Total (List Stmt)) s = (if stop s then pure [] else do
    let first ← r.declaration.toParse
    let others ← (declarations r stop n).toParse
    pure (first.toList ++ others) : Parse (List Stmt)) s
  split <;> rfl

/-- The parser builds the loop that the rules ask for. -/
theorem whileForm_eq (initializer : Option Stmt) (condition increment : Option Expr) (body : Stmt) :
    whileForm initializer condition increment body =
      forLoop initializer condition increment body := by
  cases initializer <;> cases condition <;> cases increment <;> rfl

end Lox.Grammar
