import Lox.Proofs.ForLoops.Rounds
import Lox.Proofs.Numbering

/-!
# Reading loops

The parser reads a `for` loop clause by clause and makes of it the tree of its clauses:
`Syntax.forStatement_ok`.
-/

namespace Lox

namespace Syntax

variable {r : Rules} {s s' : ParseState}

def forClauses (r : Rules) : Parse (Option Stmt × Option Expr × Option Expr × Stmt) := do
  let _ ← expect .leftParen .unopenedForClauses
  let initializer ← forInitializer r
  let condition ← unlessNext .semicolon r
  let _ ← expect .semicolon .unterminatedLoopCondition
  let increment ← unlessNext .rightParen r
  let _ ← expect .rightParen .unclosedForClauses
  let body ← insideLoop r.statement
  pure (initializer, condition, increment, body)

theorem forStatement_eq (r : Rules) : forStatement r =
    forClauses r >>= fun (initializer, condition, increment, body) =>
      pure (forLoop initializer condition increment body) := by
  unfold forStatement forClauses
  simp only [bind_assoc, pure_bind]

theorem returns_variableDeclaration :
    Returns (fun st => ∃ name value, st = .var name value) (variableDeclaration r) := by
  refine .skip fun name => .skip fun found => ?_
  cases found <;> exact .skip fun value => .skip fun _ => .pure ⟨name, value, rfl⟩

theorem returns_expressionStatement (p : Parse Expr) :
    Returns (fun st => ∃ e, st = .expression e) (expressionStatement p) :=
  .skip fun e => .skip fun _ => .pure ⟨e, rfl⟩

/-- The first clause of a loop is a declaration of a variable or an expression. -/
theorem returns_forInitializer : Returns (fun initializer => ∀ st ∈ initializer,
    (∃ name value, st = .var name value) ∨ ∃ e, st = .expression e) (forInitializer r) := by
  refine .skip fun found => ?_
  cases found with
  | some _ => exact .pure nofun
  | none =>
    refine .skip fun found => ?_
    cases found with
    | some _ =>
      refine .map (returns_variableDeclaration.mono ?_)
      rintro st var _ ⟨⟩
      exact .inl var
    | none =>
      refine .map ((returns_expressionStatement r.expression).mono ?_)
      rintro st expression _ ⟨⟩
      exact .inr expression

/-- No statement is a declaration. -/
theorem returns_statement : Returns (·.declared? = none) (statement r) := by
  refine .skip fun found => ?_
  cases found with
  | none =>
    refine (returns_expressionStatement _).mono ?_
    rintro _ ⟨e, rfl⟩
    rfl
  | some token =>
    dsimp only
    split
    · rw [forStatement_eq]
      refine .skip fun clauses => .pure ?_
      cases clauses.1 <;> rfl
    · refine .skip fun _ => .skip fun _ => .skip fun _ => .skip fun _ => .skip fun found => ?_
      cases found <;> exact .skip fun _ => .pure rfl
    · exact .skip fun _ => .skip fun _ => .skip fun _ => .skip fun _ => .pure rfl
    · exact .skip fun _ => .skip fun _ => .pure rfl
    · refine .skip fun _ => ?_
      split
      · exact .skip fun _ => .skip fun _ => .pure rfl
      · exact .skip fun _ => .pure rfl
    · exact .map fun _ _ _ _ => rfl
    · exact .skip fun _ => .skip fun _ => .pure rfl

theorem returns_rules (n : Nat) : Returns (·.declared? = none) (rules n).statement := by
  cases n with
  | zero => exact nofun
  | succ n => exact returns_statement

/-- A `for` loop is read clause by clause, and what is made of it is the tree of its clauses. -/
theorem forStatement_ok {n : Nat} {st : Stmt} (h : forStatement (rules n) s = .ok st s') :
    ∃ l : ForLoop, st = l.tree ∧
      forClauses (rules n) s = .ok (l.initializer, l.condition, l.increment, l.body) s' := by
  rw [forStatement_eq] at h
  obtain ⟨⟨initializer, condition, increment, body⟩, _, clauses, made⟩ := bind_ok h
  cases made
  obtain ⟨_, _, -, rest⟩ := bind_ok clauses
  obtain ⟨_, _, first, rest⟩ := bind_ok rest
  obtain ⟨_, _, -, rest⟩ := bind_ok rest
  obtain ⟨_, _, -, rest⟩ := bind_ok rest
  obtain ⟨_, _, -, rest⟩ := bind_ok rest
  obtain ⟨_, _, -, rest⟩ := bind_ok rest
  obtain ⟨_, _, last, rest⟩ := bind_ok rest
  cases rest
  exact ⟨⟨initializer, condition, increment, body, returns_forInitializer _ _ _ first,
    (returns_rules n).insideLoop _ _ _ last⟩, rfl, clauses⟩

end Syntax

end Lox
