import Lox.Proofs.Levels

/-!
# The place in the text

A parser passes over a text from the front: in no step does it go back, and it stays on the tokens
and the end. Every declaration and every item of a prompt line reads a token, so reading ends, and
it ends where the text does: `cursor_advances`.
-/

namespace Lox.Syntax

open Grammar

/-- Where the steps of a parser end, in order, for as far as they are made. -/
def Script.states : {α : Type} → {p : Parse α} → Script p → ParseState → List ParseState
  | _, _, .bind (p := p) first next, s =>
    first.states s ++
      match p s with
      | .ok a t => (next a).states t
      | .error _ _ => []
  | _, _, .loopBody body, s => body.states { s with loopDepth := s.loopDepth + 1 }
  | _, _, .functionBody body, s => body.states { s with loopDepth := 0 }
  | _, _, .recover (p := p) inner, s => inner.states s ++ [(Syntax.recover p s).2]
  | _, p, _, s => [stateAfter p s]

/-- A place of the same text that is not before another. -/
structure ParseState.Passed (s later : ParseState) : Prop where
  rest : later.rest <:+ s.rest
  endLine : later.endLine = s.endLine

namespace ParseState

variable {s t u : ParseState}

theorem Passed.refl (s : ParseState) : s.Passed s := ⟨List.suffix_rfl, rfl⟩

theorem Passed.trans (h : s.Passed t) (h' : t.Passed u) : s.Passed u :=
  ⟨h'.rest.trans h.rest, h'.endLine.trans h.endLine⟩

theorem Leads.passed (h : s.Leads t) : s.Passed t := ⟨h.rest, h.endLine⟩

end ParseState

structure InOrder (s t : ParseState) (states : List ParseState) : Prop where
  order : states.Pairwise ParseState.Passed
  after : ∀ u ∈ states, s.Passed u
  before : ∀ u ∈ states, u.Passed t

namespace InOrder

variable {s t u : ParseState} {first others : List ParseState}

theorem one (h : s.Passed t) : InOrder s t [t] where
  order := List.pairwise_singleton _ _
  after _ here := List.mem_singleton.mp here ▸ h
  before _ here := List.mem_singleton.mp here ▸ .refl t

theorem append (h : InOrder s t first) (h' : InOrder t u others) (start : s.Passed t)
    (last : t.Passed u) : InOrder s u (first ++ others) := by
  refine ⟨List.pairwise_append.mpr ⟨h.order, h'.order, ?_⟩, ?_, ?_⟩
  · intro v here w there
    exact (h.before v here).trans (h'.after w there)
  · intro v here
    obtain here | here := List.mem_append.mp here
    · exact h.after v here
    · exact start.trans (h'.after v here)
  · intro v here
    obtain here | here := List.mem_append.mp here
    · exact (h.before v here).trans last
    · exact h'.before v here

end InOrder

namespace Script

theorem passed {p : Parse α} (script : Script p) (s : ParseState) : s.Passed (stateAfter p s) :=
  (script.respects onward s).passed

/-- A parser goes on from step to step. -/
theorem inOrder {p : Parse α} (script : Script p) (s : ParseState) :
    InOrder s (stateAfter p s) (script.states s) := by
  induction script generalizing s with
  | @bind _ _ p f first next firstIh nextIh =>
    have before := firstIh s
    have toMid := first.passed s
    unfold states
    cases run : p s with
    | ok a t =>
      have same : stateAfter (p >>= f) s = stateAfter (f a) t := by
        unfold stateAfter
        rw [bind_of_ok run]
      rw [stateAfter_ok run] at before toMid
      rw [same]
      exact before.append (nextIh a t) toMid ((next a).passed t)
    | error e t =>
      rw [stateAfter_error run] at before
      rw [stateAfter_error (bind_of_error run), List.append_nil]
      exact before
  | @loopBody _ p body ih =>
    obtain ⟨order, after, before⟩ := ih { s with loopDepth := s.loopDepth + 1 }
    refine ⟨order, fun u here => ⟨(after u here).rest, (after u here).endLine⟩, fun u here => ?_⟩
    have last := before u here
    unfold stateAfter at last ⊢
    unfold insideLoop
    cases run : p { s with loopDepth := s.loopDepth + 1 } <;> rw [run] at last <;>
      exact ⟨last.rest, last.endLine⟩
  | @functionBody _ p body ih =>
    obtain ⟨order, after, before⟩ := ih { s with loopDepth := 0 }
    refine ⟨order, fun u here => ⟨(after u here).rest, (after u here).endLine⟩, fun u here => ?_⟩
    have last := before u here
    unfold stateAfter at last ⊢
    unfold insideFunction
    cases run : p { s with loopDepth := 0 } <;> rw [run] at last <;>
      exact ⟨last.rest, last.endLine⟩
  | @recover _ p inner ih =>
    have last : (stateAfter p s).Passed (Syntax.recover p s).2 := by
      unfold stateAfter Syntax.recover
      cases p s with
      | ok a t => exact .refl t
      | error e t => exact ⟨synchronize_suffix t.rest, rfl⟩
    exact (ih s).append (.one last) (inner.passed s) last
  | pure a => exact .one ((Script.pure a).passed s)
  | look => exact .one (Script.look.passed s)
  | acceptIf test => exact .one ((Script.acceptIf test).passed s)
  | raise fault other => exact .one ((Script.raise fault other).passed s)
  | report token fault other => exact .one ((Script.report token fault other).passed s)
  | newUse name => exact .one ((Script.newUse name).passed s)
  | single e => exact .one ((Script.single e).passed s)
  | breakLoop keyword => exact .one ((Script.breakLoop keyword).passed s)

end Script

/-! ### Places as numbers -/

/-- How many tokens of the text have been read. -/
def ParseState.cursor (s : ParseState) (ts : TokenStream) : Nat := ts.body.length - s.rest.length

namespace ParseState

variable {s t : ParseState} {ts : TokenStream} {firstId : Nat}

theorem Passed.cursor_le (h : s.Passed t) (ts : TokenStream) : s.cursor ts ≤ t.cursor ts :=
  Nat.sub_le_sub_left h.rest.length_le _

/-- The next token stands at the cursor, and after the last token the end of the text does. -/
theorem Passed.getElem?_cursor (h : (start ts firstId).Passed s) :
    s.cursor ts ≤ ts.body.length ∧ ts.toList[s.cursor ts]? = some s.peek := by
  obtain ⟨before, text⟩ := h.rest
  obtain line : s.endLine = ts.endLine := h.endLine
  change before ++ s.rest = ts.body at text
  have place : s.cursor ts = before.length := by
    rw [cursor, ← text, List.length_append]
    exact Nat.add_sub_cancel _ _
  refine ⟨Nat.sub_le _ _, ?_⟩
  rw [place, TokenStream.toList, ← text, peek, line]
  cases s.rest <;> simp

end ParseState

/-! ### The end of a text -/

section Ends

variable {r : Rules} (hr : r.Advance) {s : ParseState}

include hr

theorem declarations_rest {k : Nat} (few : s.rest.length ≤ k) :
    (declarations r ParseState.atEnd k s).2.rest = [] := by
  induction k generalizing s with
  | zero => exact List.eq_nil_of_length_eq_zero (Nat.le_zero.mp few)
  | succ k ih =>
    by_cases ended : s.rest = []
    · rw [declarations_ended ended]
      exact ended
    · have less := hr.declaration s ended
      rw [declarations_more ended]
      exact ih (by omega)

theorem promptItems_rest {k : Nat} (few : s.rest.length ≤ k) :
    (promptItems r k s).2.rest = [] := by
  induction k generalizing s with
  | zero => exact List.eq_nil_of_length_eq_zero (Nat.le_zero.mp few)
  | succ k ih =>
    by_cases ended : s.rest = []
    · rw [promptItems_ended ended]
      exact ended
    · have less := promptItem_drops hr ended
      rw [promptItems_more ended (Prod.eta _).symm]
      exact ih (by omega)

end Ends

theorem advances_promptExpression {r : Rules} (hr : r.Advance) : Advances (promptExpression r) := by
  refine (advances_assignment hr).bind fun e => onward.respects_bind onward.respects_get fun s => ?_
  split
  · exact onward.respects_pure _
  · exact onward.respects_bind (onward.respects_expect _ _) fun _ => onward.respects_pure _

/-- Reading a text ends whatever bounds it: rules with a level for every token and one more, with
any rules below them, and rounds for every token give the same result. Before the end of the text
every declaration and every item of a line reads a token. No step of a parser goes back, all stay on
the tokens and the end, and `parse` and `parsePrompt` stop at the end. -/
theorem cursor_advances :
    (∀ (ts : TokenStream) (firstId n k : Nat) (bottom : Rules),
      ts.body.length < n → ts.body.length ≤ k →
      (declarations (levels bottom n) ParseState.atEnd k).run ts firstId = parse ts firstId ∧
        (promptItems (levels bottom n) k).run ts firstId = parsePrompt ts firstId ∧
        assignment (levels bottom n) (.start ts firstId) =
          assignment (rules ts.body.length) (.start ts firstId)) ∧
    (∀ (n : Nat) (s : ParseState), s.rest ≠ [] →
      ((rules n).declaration s).2.rest.length < s.rest.length ∧
        (recover (declaration (rules n)) s).2.rest.length < s.rest.length ∧
        (recover (promptExpression (rules n)) s).2.rest.length < s.rest.length ∧
        (promptItem (rules n) s).2.rest.length < s.rest.length) ∧
    (∀ {α : Type} {p : Parse α} (script : Script p) (ts : TokenStream) (firstId : Nat),
      let states := .start ts firstId :: script.states (.start ts firstId)
      (states.map (·.cursor ts)).Pairwise (· ≤ ·) ∧
        ∀ s ∈ states, s.cursor ts ≤ ts.body.length ∧ ts.toList[s.cursor ts]? = some s.peek) ∧
    ∀ (ts : TokenStream) (firstId : Nat),
      (stateAfter (program ts.body.length).toParse (.start ts firstId)).cursor ts =
          ts.body.length ∧
        (stateAfter (promptItems (rules ts.body.length) ts.body.length).toParse
          (.start ts firstId)).cursor ts = ts.body.length := by
  refine ⟨fun ts firstId n k bottom less few => ⟨?_, ?_, ?_⟩, fun n s more => ?_,
    fun script ts firstId => ?_, fun ts firstId => ?_⟩
  · have same := declarations_levels (s := .start ts firstId) bottom (Nat.le_refl _) less
      (Nat.le_refl _) few
    exact congrArg (fun result => Parsed.mk result.1 result.2.errors result.2.nextId) same
  · have same := promptItems_levels (s := .start ts firstId) bottom (Nat.le_refl _) less
      (Nat.le_refl _) few
    exact congrArg (fun result => Parsed.mk result.1 result.2.errors result.2.nextId) same
  · exact assignment_levels bottom (Nat.le_refl _) less
  · have hr := advance_rules n
    refine ⟨hr.declaration s more, ?_, ?_, promptItem_drops hr more⟩
    · exact recover_drops (onward.respects_declaration hr.respects) (advances_declaration hr) more
    · exact recover_drops ((promptExpressionScript (rulesScripts n)).respects onward)
        (advances_promptExpression hr) more
  · have order := script.inOrder (.start ts firstId)
    refine ⟨List.pairwise_map.mpr ?_, fun s here => ?_⟩
    · refine List.pairwise_cons.mpr ⟨fun s here => ?_, order.order.imp (·.cursor_le ts)⟩
      exact (order.after s here).cursor_le ts
    · have passed : (ParseState.start ts firstId).Passed s := by
        obtain rfl | here := List.mem_cons.mp here
        · exact .refl _
        · exact order.after s here
      exact passed.getElem?_cursor
  · have hr := advance_rules ts.body.length
    have atEnd {s : ParseState} (ended : s.rest = []) : s.cursor ts = ts.body.length := by
      rw [ParseState.cursor, ended]
      rfl
    exact ⟨atEnd (declarations_rest hr (Nat.le_refl _)), atEnd (promptItems_rest hr (Nat.le_refl _))⟩

end Lox.Syntax
