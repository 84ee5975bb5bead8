import Lox.Proofs.PromptLines
import Lox.Proofs.Scripts

/-!
# Levels that are never reached

The rules for a text have a level for each of its tokens and one round for each in every loop. More
levels and more rounds give the same result, and so do other rules below the lowest level: none of
the bounds is ever reached, and reading ends for want of tokens only.
-/

namespace Lox.Syntax

open Grammar

def levels (bottom : Rules) : Nat → Rules
  | 0 => bottom
  | n + 1 => nextLevel (levels bottom n)

/-- A level more than there are tokens left hides what stands below. -/
theorem agree_levels {c : Surroundings} {k : Nat} (bottom : Rules) (n n' : Nat) (le : k ≤ n)
    (less : k < n') : (rules n).Agree c k (levels bottom n') := by
  induction k generalizing n n' with
  | zero =>
    obtain ⟨n', rfl⟩ := Nat.exists_eq_add_of_le' less
    exact agree_ended (advance_rules n) (ends_rules n) (ends_nextLevel _) (rounds_pos n)
      (Nat.succ_pos _)
  | succ k ih =>
    obtain ⟨n, rfl⟩ := Nat.exists_eq_add_of_le' (Nat.lt_of_lt_of_le k.succ_pos le)
    obtain ⟨n', rfl⟩ := Nat.exists_eq_add_of_le' (Nat.zero_lt_of_lt less)
    exact agree_nextLevel (ih n n' (Nat.le_of_succ_le_succ le) (Nat.lt_of_succ_lt_succ less))

/-! ### The same text -/

section Alone

variable {q : Prop} {k : Nat} {s t : ParseState}

/-- Nothing stands around a text. -/
def ParseState.alone (s : ParseState) : Surroundings := ⟨[], [], s.endLine⟩

theorem ParseState.amid_alone (line : t.endLine = s.endLine) : t.amid s.alone = t := by
  obtain ⟨rest, endLine, loopDepth, nextId, errors⟩ := t
  obtain rfl : endLine = s.endLine := line
  simp only [ParseState.amid, ParseState.alone, List.append_nil, List.nil_append]

theorem ParseState.last_alone (line : t.endLine = s.endLine) : s.alone.Last t := ⟨rfl, line.symm⟩

theorem Agree.eq {p p' : Parse α} (h : Agree s.alone q k p p') (short : s.rest.length ≤ k) :
    p' s = p s := by
  have line := (h.onward s).endLine
  have same := h.same s short
  unfold AgreeAt at same
  rw [ParseState.amid_alone rfl] at same
  cases run : p s with
  | ok a t =>
    rw [stateAfter_ok run] at line
    rw [run] at same
    rw [same (.inr (.inl (ParseState.last_alone line))), Surroundings.widen,
      ParseState.amid_alone line]
  | error e t =>
    rw [stateAfter_error run] at line
    rw [run] at same
    rw [same (.inr (.inl (ParseState.last_alone line))), Surroundings.widen,
      ParseState.amid_alone line]

theorem Agree.total_eq {p p' : Total α} (h : Agree s.alone q k p.toParse p'.toParse)
    (short : s.rest.length ≤ k) : p' s = p s := by
  have same := h.eq short
  unfold Total.toParse at same
  injection same with result state
  exact Prod.ext result state

end Alone

/-! ### Whole texts -/

section Levels

variable {n m : Nat} {s : ParseState} (bottom : Rules)

theorem assignment_levels (le : s.rest.length ≤ n) (less : s.rest.length < m) :
    assignment (levels bottom m) s = assignment (rules n) s :=
  (agree_assignment (agree_levels bottom n m le less)).eq (Nat.le_succ _)

theorem declarations_levels {k k' : Nat} (le : s.rest.length ≤ n) (less : s.rest.length < m)
    (few : s.rest.length ≤ k) (few' : s.rest.length ≤ k') :
    declarations (levels bottom m) ParseState.atEnd k' s =
      declarations (rules n) ParseState.atEnd k s := by
  refine (agree_declarations (agree_levels bottom n m le less) (fun t hidden => ?_)
    (fun t ended => ?_) k k' (Nat.le_refl _) few few').total_eq (Nat.le_refl _)
  · exact ParseState.atEnd_amid hidden
  · exact List.isEmpty_iff.mpr ended

theorem recover_congr {p p' : Parse α} (same : p s = p' s) : recover p s = recover p' s := by
  unfold recover
  rw [same]

theorem promptItem_levels (le : s.rest.length ≤ n) (less : s.rest.length < m) :
    promptItem (levels bottom m) s = promptItem (rules n) s := by
  have hr := agree_levels (c := s.alone) bottom n m le less
  have statement : declaration (levels bottom m) s = declaration (rules n) s :=
    (agree_declaration hr).eq (Nat.le_succ _)
  have expression : promptExpression (levels bottom m) s = promptExpression (rules n) s := by
    unfold promptExpression
    rw [bind_apply, bind_apply, assignment_levels bottom le less]
  unfold promptItem
  rw [total_ite, total_ite]
  split
  · have same := recover_congr statement
    exact congrArg (fun result => (Program.mk result.1.toList none, result.2)) same
  · have same := recover_congr expression
    exact congrArg (fun result => (result.1.getD { statements := [] }, result.2)) same

theorem promptItem_drops {r : Rules} (hr : r.Advance) (more : s.rest ≠ []) :
    (promptItem r s).2.rest.length < s.rest.length := by
  obtain item | ⟨e, t, trailing, item⟩ := promptItem_cases r s
  · rw [item]
    exact recover_drops (onward.respects_declaration hr.respects) (advances_declaration hr) more
  · rw [item, trailing.ended]
    exact List.length_pos_iff.mpr more

theorem promptItems_levels {k l : Nat} (le : s.rest.length ≤ n) (less : s.rest.length < m)
    (few : s.rest.length ≤ k) (enough : s.rest.length ≤ l) :
    promptItems (levels bottom m) l s = promptItems (rules n) k s := by
  induction k generalizing l s with
  | zero =>
    have ended := List.eq_nil_of_length_eq_zero (Nat.le_zero.mp few)
    rw [promptItems_ended ended, promptItems_ended ended]
  | succ k ih =>
    by_cases ended : s.rest = []
    · rw [promptItems_ended ended, promptItems_ended ended]
    · have some := List.length_pos_iff.mpr ended
      have drops := promptItem_drops (advance_rules n) ended
      obtain ⟨l, rfl⟩ := Nat.exists_eq_add_of_le' (Nat.lt_of_lt_of_le some enough)
      rw [promptItems_more ended (Prod.eta _).symm, promptItems_more ended (Prod.eta _).symm,
        promptItem_levels bottom le less,
        ih (l := l) (by omega) (by omega) (by omega) (by omega)]

end Levels

end Lox.Syntax
