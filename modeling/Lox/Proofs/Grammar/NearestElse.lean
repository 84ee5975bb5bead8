import Lox.Proofs.Grammar.Analysis

/-!
# The nearest `else`

The rules leave open to which `if` an `else` belongs. `exists_nearestElse` says that each phrase has
the tokens of one in which every `else` belongs to the nearest `if`.
-/

namespace Lox.Grammar

def elseForm : Form := .seq (.only .kwElse) (.rule .statement)

/-- A phrase of the same form that keeps what the rules ask of parameter lists and `break`. -/
structure Phrase.Keeps {f : Form} (p q : Phrase f) : Prop where
  repeats : q.repeats = p.repeats
  arity : p.WithinArity → q.WithinArity
  breaks : ∀ around, p.BreaksInLoops around → q.BreaksInLoops around

theorem Symbol.inLoop_mono (n : Symbol) {around wider : Bool} (h : around = true → wider = true) :
    n.inLoop around = true → n.inLoop wider = true := by
  cases n with
  | expr n => cases n <;> first | exact h | exact id
  | _ => first | exact h | exact id

namespace Phrase

theorem breaks_mono {f : Form} (p : Phrase f) {around wider : Bool}
    (h : around = true → wider = true) (hp : p.BreaksInLoops around) : p.BreaksInLoops wider := by
  induction p generalizing around wider with
  | token _ _ | none | nil => trivial
  | rule p ih => exact ⟨fun hn => h (hp.1 hn), ih (Symbol.inLoop_mono _ h) hp.2⟩
  | seq p q ihp ihq => exact ⟨ihp h hp.1, ihq h hp.2⟩
  | left p ih => exact ih h hp
  | right q ih => exact ih h hp
  | some p ih => exact ih h hp
  | cons p ps ihp ihps => exact ⟨ihp h hp.1, ihps h hp.2⟩

/-- A loop around a symbol whose phrase ends in an open `if` is around what the phrase ends in. -/
theorem inLoop_of_endsOpen {n : Symbol} (p : Phrase (.rule n)) (h : p.EndsOpen) {around : Bool} :
    around = true → n.inLoop around = true := by
  cases n with
  | function => exact absurd h (p.not_endsOpen rfl)
  | expr n => exact absurd h (p.not_endsOpen rfl)
  | _ => first | exact id | exact fun _ => rfl

/-- A phrase that ends in an open `if` can take an `else`, at the nearest such `if`. -/
theorem attach {f : Form} (p : Phrase f) (openEnd : p.EndsOpen) (e : Phrase elseForm) :
    ∃ q : Phrase f, q.tokens = p.tokens ++ e.tokens ∧ q.repeats = p.repeats ∧
      (p.WithinArity → e.WithinArity → q.WithinArity) ∧
      (∀ around, p.BreaksInLoops around → e.BreaksInLoops around → q.BreaksInLoops around) ∧
      (p.NearestElse → e.NearestElse → q.NearestElse) := by
  induction p with
  | token _ _ | nil => exact openEnd.elim
  | @rule n p ih =>
    obtain ⟨q, tokens, repeats, arity, breaks, nearest⟩ := ih openEnd
    refine ⟨.rule q, tokens, rfl, ?_, ?_, nearest⟩
    · intro hp he
      exact ⟨fun hn => repeats.symm ▸ hp.1 hn, arity hp.2 he⟩
    · intro around hp he
      exact ⟨hp.1, breaks _ hp.2 (e.breaks_mono ((Phrase.rule p).inLoop_of_endsOpen openEnd) he)⟩
  | seq p q ihp ihq =>
    -- The phrase ends in what its first part ends in, if nothing stands in the second.
    by_cases before : q.tokens = [] ∧ p.EndsOpen
    · obtain ⟨p', tokens, repeats, arity, breaks, nearest⟩ := ihp before.2
      refine ⟨.seq p' q, ?_, ?_, ?_, ?_, ?_⟩
      · simp [Phrase.tokens, tokens, before.1]
      · simp [Phrase.repeats, repeats]
      · exact fun hp he => ⟨arity hp.1 he, hp.2⟩
      · exact fun around hp he => ⟨breaks around hp.1 he, hp.2⟩
      · refine fun hp he => ⟨nearest hp.1 he, hp.2.1, fun begins => ?_⟩
        rw [before.1] at begins
        cases begins
    · obtain ⟨q', tokens, repeats, arity, breaks, nearest⟩ := ihq (openEnd.resolve_right before)
      refine ⟨.seq p q', ?_, ?_, ?_, ?_, ?_⟩
      · simp [Phrase.tokens, tokens]
      · simp [Phrase.repeats, repeats]
      · exact fun hp he => ⟨hp.1, arity hp.2 he⟩
      · exact fun around hp he => ⟨hp.1, breaks around hp.2 he⟩
      · refine fun hp he => ⟨hp.1, nearest hp.2.1 he, fun begins => ?_⟩
        by_cases empty : q.tokens = []
        · exact fun h => before ⟨empty, h⟩
        · rw [tokens, beginsElse_append empty] at begins
          exact hp.2.2 begins
  | left p ih =>
    obtain ⟨q, tokens, repeats, arity, breaks, nearest⟩ := ih openEnd
    exact ⟨.left q, tokens, repeats, arity, breaks, nearest⟩
  | right p ih =>
    obtain ⟨q, tokens, repeats, arity, breaks, nearest⟩ := ih openEnd
    exact ⟨.right q, tokens, repeats, arity, breaks, nearest⟩
  | @none f =>
    -- The form of the missing part is that of an `else` up to the test of its first token.
    obtain ⟨fits, rfl, hfits⟩ : ∃ fits, f = .seq (.token fits) (.rule .statement) ∧
        fits .kwElse = true := by
      unfold EndsOpen Form.isElse at openEnd
      split at openEnd
      · exact ⟨_, rfl, openEnd⟩
      · cases openEnd
    cases e with
    | seq keyword s =>
      cases keyword with
      | token t ht =>
        have type : t.type = .kwElse := by simpa using ht
        exact ⟨.some (.seq (.token t (type ▸ hfits)) s), rfl, by simp [Phrase.repeats],
          fun _ he => he, fun _ _ he => he, fun _ he => he⟩
  | some p ih =>
    obtain ⟨q, tokens, repeats, arity, breaks, nearest⟩ := ih openEnd
    exact ⟨.some q, tokens, repeats, arity, breaks, nearest⟩
  | cons p ps ihp ihps =>
    -- The same of a list and its items.
    obtain later | ⟨empty, here⟩ := openEnd
    · obtain ⟨qs, tokens, repeats, arity, breaks, nearest⟩ := ihps later
      refine ⟨.cons p qs, ?_, ?_, ?_, ?_, ?_⟩
      · simp [Phrase.tokens, tokens]
      · simp [Phrase.repeats, repeats]
      · exact fun hp he => ⟨hp.1, arity hp.2 he⟩
      · exact fun around hp he => ⟨hp.1, breaks around hp.2 he⟩
      · exact fun hp he => ⟨hp.1, nearest hp.2 he⟩
    · obtain ⟨q, tokens, repeats, arity, breaks, nearest⟩ := ihp here
      refine ⟨.cons q ps, ?_, ?_, ?_, ?_, ?_⟩
      · simp [Phrase.tokens, tokens, empty]
      · simp [Phrase.repeats]
      · exact fun hp he => ⟨arity hp.1 he, hp.2⟩
      · exact fun around hp he => ⟨breaks around hp.1 he, hp.2⟩
      · exact fun hp he => ⟨nearest hp.1 he, hp.2⟩

end Phrase

def Form.isOptionalElse : Form → Bool
  | .optional f => f.isElse
  | _ => false

/-- Only a part that may be missing begins with `else`. -/
def Form.elseOptional : Form → Bool
  | .token _ => true
  | .rule _ => true
  | .seq f g => f.elseOptional && g.elseOptional && (!g.mayBeginElse || g.isOptionalElse)
  | .either f g => f.elseOptional && g.elseOptional
  | .optional f => f.elseOptional
  | .many f => f.elseOptional

theorem Symbol.form_elseOptional (n : Symbol) : n.form.elseOptional = true := by
  cases n with
  | expr n => cases n <;> rfl
  | _ => rfl

namespace Phrase

theorem nearest_seq {f g : Form} (p : Phrase f) (q : Phrase g) (hp : p.NearestElse)
    (hq : q.NearestElse)
    (tame : (!g.mayBeginElse || g.isOptionalElse) = true) :
    ∃ r : Phrase (.seq f g), r.tokens = p.tokens ++ q.tokens ∧ (Phrase.seq p q).Keeps r ∧
      r.NearestElse := by
  by_cases wrong : beginsElse q.tokens = true ∧ p.EndsOpen
  · rw [q.mayBeginElse_of_begins wrong.1] at tame
    cases q with
    | none => cases wrong.1
    | @some h e =>
      obtain ⟨fits, rfl⟩ : ∃ fits, h = .seq (.token fits) (.rule .statement) := by
        change h.isElse = true at tame
        unfold Form.isElse at tame
        split at tame
        · exact ⟨_, rfl⟩
        · cases tame
      cases e with
      | seq keyword s =>
        cases keyword with
        | token t ht =>
          have type : t.type = .kwElse := by simpa [beginsElse, tokens] using wrong.1
          let e : Phrase elseForm := .seq (.token t (by simp [type])) s
          obtain ⟨p', tokens, repeats, arity, breaks, nearest⟩ := p.attach wrong.2 e
          refine ⟨.seq p' .none, ?_, ⟨?_, ?_, ?_⟩, nearest hp hq, trivial, fun h => by cases h⟩
          · exact (List.append_nil _).trans tokens
          · simp [Phrase.repeats, repeats]
          · exact fun h => ⟨arity h.1 h.2, trivial⟩
          · exact fun around h => ⟨breaks around h.1 h.2, trivial⟩
    | _ => cases tame
  · exact ⟨.seq p q, rfl, ⟨rfl, id, fun _ => id⟩, hp, hq, fun begins h => wrong ⟨begins, h⟩⟩

/-- The same tokens with every `else` at the nearest `if`. -/
theorem exists_nearestElse {f : Form} (p : Phrase f) (tame : f.elseOptional = true) :
    ∃ q : Phrase f, q.tokens = p.tokens ∧ p.Keeps q ∧ q.NearestElse := by
  induction p with
  | token t h => exact ⟨.token t h, rfl, ⟨rfl, id, fun _ => id⟩, trivial⟩
  | none => exact ⟨.none, rfl, ⟨rfl, id, fun _ => id⟩, trivial⟩
  | nil => exact ⟨.nil, rfl, ⟨rfl, id, fun _ => id⟩, trivial⟩
  | @rule n p ih =>
    obtain ⟨q, tokens, keeps, nearest⟩ := ih n.form_elseOptional
    refine ⟨.rule q, tokens, ⟨rfl, fun h => ?_, fun around h => ?_⟩, nearest⟩
    · exact ⟨fun hn => keeps.repeats.symm ▸ h.1 hn, keeps.arity h.2⟩
    · exact ⟨h.1, keeps.breaks _ h.2⟩
  | seq p q ihp ihq =>
    simp only [Form.elseOptional, Bool.and_eq_true] at tame
    obtain ⟨p', ptokens, pkeeps, pnearest⟩ := ihp tame.1.1
    obtain ⟨q', qtokens, qkeeps, qnearest⟩ := ihq tame.1.2
    obtain ⟨r, rtokens, rkeeps, rnearest⟩ := nearest_seq p' q' pnearest qnearest tame.2
    refine ⟨r, by rw [rtokens, ptokens, qtokens]; rfl, ⟨?_, fun h => ?_, fun around h => ?_⟩,
      rnearest⟩
    · rw [rkeeps.repeats, Phrase.repeats, pkeeps.repeats, qkeeps.repeats]; rfl
    · exact rkeeps.arity ⟨pkeeps.arity h.1, qkeeps.arity h.2⟩
    · exact rkeeps.breaks around ⟨pkeeps.breaks around h.1, qkeeps.breaks around h.2⟩
  | left p ih =>
    simp only [Form.elseOptional, Bool.and_eq_true] at tame
    obtain ⟨q, tokens, keeps, nearest⟩ := ih tame.1
    exact ⟨.left q, tokens, ⟨keeps.repeats, keeps.arity, keeps.breaks⟩, nearest⟩
  | right p ih =>
    simp only [Form.elseOptional, Bool.and_eq_true] at tame
    obtain ⟨q, tokens, keeps, nearest⟩ := ih tame.2
    exact ⟨.right q, tokens, ⟨keeps.repeats, keeps.arity, keeps.breaks⟩, nearest⟩
  | some p ih =>
    obtain ⟨q, tokens, keeps, nearest⟩ := ih tame
    exact ⟨.some q, tokens, ⟨keeps.repeats, keeps.arity, keeps.breaks⟩, nearest⟩
  | cons p ps ihp ihps =>
    obtain ⟨q, qtokens, qkeeps, qnearest⟩ := ihp tame
    obtain ⟨qs, qstokens, qskeeps, qsnearest⟩ := ihps tame
    refine ⟨.cons q qs, by rw [tokens, qtokens, qstokens]; rfl, ⟨?_, fun h => ?_, fun around h => ?_⟩,
      qnearest, qsnearest⟩
    · rw [Phrase.repeats, qskeeps.repeats]; rfl
    · exact ⟨qkeeps.arity h.1, qskeeps.arity h.2⟩
    · exact ⟨qkeeps.breaks around h.1, qskeeps.breaks around h.2⟩

end Phrase

end Lox.Grammar
