import Lox.Proofs.Grammar.Sound.Statement

/-!
# What is read as a prompt line is a phrase

A line is declarations and perhaps an expression: `finds_promptItems`.
-/

namespace Lox.Grammar

open Syntax

/-- Declarations, and perhaps an expression without its semicolon. -/
abbrev Form.line : Form :=
  .seq (.many (.rule .declaration)) (.optional (.rule (.expr .expression)))

def lineTree (parts : Form.line.Value) : Numbered Program := do
  let statements ← inOrder parts.1
  let trailing ← orNone parts.2
  pure { statements, trailing }

theorem lineTree_cons (first : Numbered Stmt) (others : List (Numbered Stmt))
    (trailing : Option (Numbered Expr)) :
    lineTree (first :: others, trailing) =
      first >>= fun s => (fun p => ⟨s :: p.statements, p.trailing⟩) <$> lineTree (others, trailing) :=
  rfl

def ReadsItem (s : ParseState) (p : Program) (t : ParseState) : Prop :=
  (∃ st, p = { statements := [st] } ∧ Reads (.rule .declaration) id s st t) ∨
    ∃ e, p = { statements := [], trailing := some e } ∧
      Reads (.rule (.expr .expression)) id s e t ∧ t.rest = []

theorem toParse_ite (test : ParseState → Bool) (p q : Syntax.Total α) :
    Syntax.Total.toParse (do if test (← get) then p else q) =
      (do if test (← get) then p.toParse else q.toParse : Parse α) := by
  funext s
  change Syntax.Total.toParse (if test s then p else q) s = (if test s then p.toParse else q.toParse) s
  split <;> rfl

theorem Reads.exprStmt {s mid t : ParseState} {e : Expr} {word : Token}
    (h : Reads (.rule (.expr .assignment)) id s e mid) (split : mid.rest = word :: t.rest)
    (isEnd : word.type = .semicolon) (same : t.nextId = mid.nextId) :
    Reads (.rule .declaration) id s (.expression e) t := by
  obtain ⟨p, spans, number⟩ := h
  have statement : Reads (.rule .exprStmt) id s (.expression e) t := by
    refine Reads.plain rfl ⟨.seq (.rule p) (.only isEnd), .seq (spans.plain rfl) ?_, ?_⟩
    · rw [split]
      exact .only _
    · rw [same]
      exact Numbered.map_eq (x := p.value) number
  obtain ⟨q, spans, number⟩ := statement
  have inner : Reads (.rule .statement) id s (.expression e) t :=
    Reads.plain rfl ⟨.left q, .left spans, number⟩
  obtain ⟨q, spans, number⟩ := inner
  exact Reads.plain rfl ⟨.right (.right (.right q)), .right (.right (.right spans)), number⟩

variable {r : Rules} (hr : SoundRules r)

include hr

theorem finds_promptExpression : Finds (promptExpression r) ReadsItem := by
  refine ((finds_assignment hr).bind fun e => (?_ : Finds _ fun mid p t =>
    (p = { statements := [], trailing := some e } ∧ t = mid ∧ t.rest = []) ∨
      p = { statements := [.expression e] } ∧ ∃ word : Token, mid.rest = word :: t.rest ∧
        word.type = .semicolon ∧ t.nextId = mid.nextId)).mono ?_
  · refine Finds.get fun now => ?_
    split
    next atEnd =>
      refine (Finds.pure _).mono ?_
      rintro s _ _ ⟨rfl, rfl⟩ rfl
      exact .inl ⟨rfl, rfl, List.isEmpty_iff.mp atEnd⟩
    · refine ((Finds.expect .semicolon _).bind fun _ => Finds.pure _).mono ?_
      rintro s _ t ⟨word, mid, ⟨split, isEnd, same⟩, -, rfl, rfl⟩ -
      exact .inr ⟨rfl, word, split, isEnd, same⟩
  · rintro s p t ⟨e, mid, read, -, ⟨rfl, rfl, atEnd⟩ | ⟨rfl, word, split, isEnd, same⟩⟩
    · obtain ⟨p, spans, number⟩ := read
      exact .inr ⟨e, rfl, Reads.plain rfl ⟨p, spans, number⟩, atEnd⟩
    · exact .inl ⟨_, rfl, read.exprStmt split isEnd same⟩

theorem finds_promptItem : Finds (promptItem r).toParse ReadsItem := by
  have form : (promptItem r).toParse = (do
      if (← get).atStatement then
        let s ← (recover (declaration r)).toParse
        pure { statements := s.toList }
      else
        let p ← (recover (promptExpression r)).toParse
        pure (p.getD { statements := [] })) := toParse_ite _ _ _
  rw [form]
  refine Finds.get fun now => ?_
  split
  · refine ((Finds.recover (finds_declaration hr)).bind fun s => Finds.pure _).mono ?_
    rintro s _ t ⟨_, mid, ⟨st, rfl, read⟩, -, rfl, rfl⟩ -
    exact .inl ⟨st, rfl, read⟩
  · refine ((Finds.recover (finds_promptExpression hr)).bind fun p => Finds.pure _).mono ?_
    rintro s _ t ⟨_, mid, ⟨p, rfl, read⟩, -, rfl, rfl⟩ -
    exact read

theorem finds_promptItems (n : Nat) : Finds (promptItems r n).toParse fun s p t =>
    Reads .line lineTree s p t ∧ (s.rest = [] → p = { statements := [] } ∧ t = s) := by
  have done : Finds (pure { statements := [] }) fun s p t =>
      Reads .line lineTree s p t ∧ (s.rest = [] → p = { statements := [] } ∧ t = s) := by
    refine (Finds.pure _).mono ?_
    rintro s _ _ ⟨rfl, rfl⟩
    exact ⟨⟨.seq .nil .none, .seq .nil (.none nofun), rfl⟩, fun _ => ⟨rfl, rfl⟩⟩
  induction n with
  | zero => exact done
  | succ n ih =>
    have form : (promptItems r (n + 1)).toParse = (do
        if (← get).atEnd then pure { statements := [] }
        else
          let first ← (promptItem r).toParse
          let others ← (promptItems r n).toParse
          pure ⟨first.statements ++ others.statements, first.trailing <|> others.trailing⟩) :=
      toParse_ite _ _ _
    rw [form]
    refine Finds.get fun now => ?_
    split
    · exact done.mono fun s p t found _ => found
    next more =>
      refine ((finds_promptItem hr).bind fun first => ih.bind fun others => Finds.pure _).mono ?_
      rintro s _ t ⟨first, mid, read, loops, others, _, ⟨readOthers, atEnd⟩, -, rfl, rfl⟩ rfl
      refine ⟨?_, fun empty => absurd (List.isEmpty_iff.mpr empty) more⟩
      obtain ⟨st, rfl, p, here, number⟩ | ⟨e, rfl, ⟨p, here, number⟩, last⟩ := read
      · obtain ⟨_ | _ | ⟨ps, trailing⟩, spans, numbers⟩ := readOthers
        rw [loops] at spans
        obtain ⟨there, ending⟩ := spans.of_seq
        refine ⟨.seq (.cons p ps) trailing, .seq (.cons here there) ending, ?_⟩
        change lineTree (p.value :: ps.value, trailing.value) s.nextId = _
        rw [lineTree_cons, Numbered.bind_eq (x := p.value) number]
        exact Numbered.map_eq numbers
      · obtain ⟨rfl, rfl⟩ := atEnd last
        refine ⟨.seq .nil (.some p), .seq .nil (.some here), ?_⟩
        change (p.value >>= fun e => pure (Program.mk [] (some e))) s.nextId = _
        exact Numbered.bind_eq number

end Lox.Grammar
