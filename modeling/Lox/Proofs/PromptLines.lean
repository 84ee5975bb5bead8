import Lox.Proofs.Alike.Shift
import Lox.Proofs.Surroundings.Rules

/-!
# Prompt lines are programs

A prompt line is read as the program with the same tokens, but for an expression at its end, which a
program misses a semicolon after: `parsePrompt_agrees`.
-/

namespace Lox.Syntax

open Grammar

/-! ### One round -/

section Rounds

variable {r : Rules} {s t : ParseState} {e : Expr}

theorem recover_of_ok {p : Parse α} {a : α} (h : p s = .ok a t) : recover p s = (some a, t) := by
  unfold recover
  rw [h]

/-- How an expression at the end of a line is read as a declaration. -/
structure Trailing (r : Rules) (s : ParseState) (e : Expr) (t : ParseState) : Prop where
  other : s.atStatement = false
  read : assignment r s = .ok e t
  ended : t.rest = []

theorem Trailing.more (h : Trailing r s e t) (hr : r.Advance) : s.rest ≠ [] :=
  fun ended => (advances_assignment hr).at_end ended h.read

theorem Trailing.recover (h : Trailing r s e t) :
    recover (declaration r) s = (none, t.report ⟨.eof t.endLine, .unterminatedExpression⟩) := by
  have missing : expect .semicolon .unterminatedExpression t =
      .error ⟨t.peek, .unterminatedExpression⟩ t :=
    bind_of_ok (accept_of_none (by rw [h.ended]; nofun))
  have failed : declaration r s = .error ⟨t.peek, .unterminatedExpression⟩ t := by
    rw [declaration_eq h.other]
    exact (bind_of_ok h.read).trans (bind_of_error missing)
  have peek : t.peek = .eof t.endLine := by rw [ParseState.peek, h.ended]; rfl
  rw [peek] at failed
  unfold Syntax.recover
  rw [failed]
  dsimp only
  rw [h.ended]
  have here : t.report ⟨.eof t.endLine, .unterminatedExpression⟩ =
      { t.report ⟨.eof t.endLine, .unterminatedExpression⟩ with rest := t.rest } := rfl
  rw [here, h.ended]
  rfl

/-- An item of a line is a declaration, or an expression at the end. -/
theorem promptItem_cases (r : Rules) (s : ParseState) :
    (promptItem r s = ({ statements := (recover (declaration r) s).1.toList },
      (recover (declaration r) s).2)) ∨
    ∃ e t, Trailing r s e t ∧ promptItem r s = ({ statements := [], trailing := some e }, t) := by
  unfold promptItem
  rw [total_ite]
  split
  · exact .inl rfl
  next other =>
    have other := Bool.eq_false_iff.mpr other
    -- Both parsers begin with the assignment, and part only where nothing is left after it.
    have item : (do
        let p ← recover (promptExpression r)
        pure (p.getD { statements := [] }) : Total Program) s =
        ((recover (promptExpression r) s).1.getD { statements := [] },
          (recover (promptExpression r) s).2) := rfl
    rw [item]
    unfold recover
    rw [declaration_eq other]
    cases read : assignment r s with
    | error e t =>
      have line : promptExpression r s = .error e t := bind_of_error read
      have program : expressionStatement (assignment r) s = .error e t := bind_of_error read
      rw [line, program]
      exact .inl rfl
    | ok e t =>
      by_cases ended : t.rest = []
      · refine .inr ⟨e, t, ⟨other, read, ended⟩, ?_⟩
        have line : promptExpression r s = .ok { statements := [], trailing := some e } t := by
          refine (bind_of_ok read).trans ?_
          rw [get_bind, if_pos (by rw [ParseState.atEnd, ended]; rfl)]
          rfl
        rw [line]
        rfl
      · refine .inl ?_
        have more : ¬ t.atEnd = true := fun h => ended (List.isEmpty_iff.mp h)
        have line : promptExpression r s = (do
            let _ ← expect .semicolon .unterminatedExpression
            pure { statements := [.expression e] } : Parse Program) t := by
          refine (bind_of_ok read).trans ?_
          rw [get_bind, if_neg more]
        have program : expressionStatement (assignment r) s = (do
            let _ ← expect .semicolon .unterminatedExpression
            pure (.expression e) : Parse Stmt) t := bind_of_ok read
        rw [line, program, bind_apply, bind_apply]
        cases expect .semicolon .unterminatedExpression t <;> rfl

end Rounds

/-! ### Rounds in a row -/

inductive Items (r : Rules) : ParseState → Program → ParseState → Prop
  | ended {s} : s.rest = [] → Items r s { statements := [] } s
  | trailing {s e t} : Trailing r s e t → Items r s { statements := [], trailing := some e } t
  | next {s} {p : Program} {t} : s.rest ≠ [] → Items r (recover (declaration r) s).2 p t →
    Items r s
      ⟨(recover (declaration r) s).1.toList ++ p.statements, p.trailing⟩ t

theorem promptItems_ended {r : Rules} {s : ParseState} (ended : s.rest = []) (rounds : Nat) :
    promptItems r rounds s = ({ statements := [] }, s) := by
  cases rounds with
  | zero => rfl
  | succ rounds =>
    unfold promptItems
    rw [total_ite, if_pos (by rw [ParseState.atEnd, ended]; rfl)]
    rfl

theorem promptItems_more {r : Rules} {s t : ParseState} {item : Program} (more : s.rest ≠ [])
    (first : promptItem r s = (item, t)) (rounds : Nat) :
    promptItems r (rounds + 1) s =
      (⟨item.statements ++ (promptItems r rounds t).1.statements,
        item.trailing <|> (promptItems r rounds t).1.trailing⟩, (promptItems r rounds t).2) := by
  have notEnded : ¬ s.atEnd = true := fun h => more (List.isEmpty_iff.mp h)
  conv => lhs; unfold promptItems
  rw [total_ite, if_neg notEnded]
  change (Program.mk
    ((promptItem r s).1.statements ++ (promptItems r rounds (promptItem r s).2).1.statements)
    ((promptItem r s).1.trailing <|> (promptItems r rounds (promptItem r s).2).1.trailing),
    (promptItems r rounds (promptItem r s).2).2) = _
  rw [first]

theorem items_promptItems {r : Rules} (hr : r.Advance) (rounds : Nat) {s : ParseState}
    (short : s.rest.length ≤ rounds) :
    Items r s (promptItems r rounds s).1 (promptItems r rounds s).2 := by
  induction rounds generalizing s with
  | zero => exact .ended (List.eq_nil_of_length_eq_zero (Nat.le_zero.mp short))
  | succ rounds ih =>
    by_cases ended : s.rest = []
    · rw [promptItems_ended ended]
      exact .ended ended
    obtain item | ⟨e, t, trailing, item⟩ := promptItem_cases r s
    · have less := recover_drops (onward.respects_declaration hr.respects)
        (advances_declaration hr) ended
      have rest := ih (s := (recover (declaration r) s).2) (by omega)
      rw [promptItems_more ended item]
      exact .next ended rest
    · rw [promptItems_more ended item, promptItems_ended trailing.ended]
      exact .trailing trailing

namespace Items

variable {n rounds : Nat} {s t : ParseState} {p : Program} {e : Expr}

theorem leads (h : Items (rules n) s p t) : s.Leads t := by
  have respects := (advance_rules n).respects
  induction h with
  | ended _ => exact onward.refl _
  | trailing last => exact (onward.respects_assignment respects).of_ok last.read
  | @next s p t _ _ ih =>
    exact onward.trans (onward.respects_recover (onward.respects_declaration respects) s) ih

/-- A program with the tokens of a line has its statements; for an expression at the end it misses a
semicolon there. -/
theorem declarations (h : Items (rules n) s p t) (short : s.rest.length ≤ rounds)
    (le : s.rest.length ≤ n) :
    declarations (rules n) ParseState.atEnd rounds s =
      (p.statements, match p.trailing with
        | none => t
        | some _ => t.report ⟨.eof t.endLine, .unterminatedExpression⟩) := by
  induction h generalizing rounds with
  | ended ended => exact declarations_ended ended rounds
  | @trailing s e t trailing =>
    have more := trailing.more (advance_rules n)
    obtain ⟨rounds, rfl⟩ :=
      Nat.exists_eq_add_of_le' (Nat.lt_of_lt_of_le (List.length_pos_iff.mpr more) short)
    rw [declarations_more more, ← recover_declaration le, trailing.recover,
      declarations_ended (s := t.report _) trailing.ended]
    rfl
  | @next s p t more _ ih =>
    have less := (advance_rules n).declaration s more
    obtain ⟨rounds, rfl⟩ :=
      Nat.exists_eq_add_of_le' (Nat.lt_of_lt_of_le (List.length_pos_iff.mpr more) short)
    rw [← recover_declaration le] at less
    rw [declarations_more more, ← recover_declaration le, ih (by omega) (by omega)]

/-- Where an item is left out at the end, something was there. -/
theorem more (h : Items (rules n) s p t) (trailing : p.trailing = some e) : s.rest ≠ [] := by
  cases h with
  | ended ended => cases trailing
  | trailing last => exact last.more (advance_rules n)
  | next more _ => exact more

end Items

/-! ### A semicolon at the end -/

section Closed

variable {s t : ParseState} {e : Expr} {n : Nat} {semicolon : Token}
  (type : semicolon.type = .semicolon) (endLine : Nat)

include type

theorem atStatement_closed (more : s.rest ≠ []) :
    (s.amid ⟨[], [semicolon], endLine⟩).atStatement = s.atStatement := by
  obtain ⟨word, rest, here⟩ := List.exists_cons_of_ne_nil more
  have there := s.amid_of_cons (c := ⟨[], [semicolon], endLine⟩) here
  unfold ParseState.atStatement ParseState.peek ParseState.secondIs
  rw [there, here]
  cases rest with
  | cons second rest => rfl
  | nil =>
    have second : (semicolon.type == TokenType.identifier) = false := by rw [type]; rfl
    simp [second]

theorem Trailing.read_closed (h : Trailing (rules n) s e t) (short : s.rest.length ≤ n) {m : Nat}
    (longer : s.rest.length ≤ m) :
    assignment (rules m) (s.amid ⟨[], [semicolon], endLine⟩) =
      .ok e (t.amid ⟨[], [semicolon], endLine⟩) := by
  have closing : Surroundings.Closing ⟨[], [semicolon], endLine⟩ := ⟨semicolon, [], rfl, type⟩
  -- The rules a level up, of which the expression is the assignment.
  have agree := (agree_rules (c := ⟨[], [semicolon], endLine⟩) (k := s.rest.length) (n + 1) (m + 1)
    (Nat.le_succ_of_le short) (Nat.le_succ_of_le longer)).expression.same s (Nat.le_refl _)
  have read := agree (by
    change Surroundings.Settled _ _ (assignment (rules n) s)
    rw [h.read]
    exact .inr (.inr closing))
  change assignment (rules m) _ = Surroundings.widen _ (assignment (rules n) s) at read
  rwa [h.read] at read

omit type in
theorem Trailing.rest_closed (h : Trailing (rules n) s e t) :
    (t.amid ⟨[], [semicolon], endLine⟩).rest = [semicolon] := by
  rw [ParseState.amid, h.ended]
  rfl

/-- With its semicolon, an expression at the end is a statement. -/
theorem Trailing.closed (h : Trailing (rules n) s e t) (short : s.rest.length ≤ n) {n' : Nat}
    (longer : s.rest.length < n') :
    (rules n').declaration (s.amid ⟨[], [semicolon], endLine⟩) =
      (some (.expression e), { t.amid ⟨[], [semicolon], endLine⟩ with rest := [] }) := by
  obtain ⟨m, rfl⟩ := Nat.exists_eq_add_of_le' (Nat.lt_of_le_of_lt (Nat.zero_le _) longer)
  have read := h.read_closed type endLine short (Nat.le_of_lt_succ longer)
  have statement : declaration (rules m) (s.amid ⟨[], [semicolon], endLine⟩) =
      .ok (.expression e) { t.amid ⟨[], [semicolon], endLine⟩ with rest := [] } := by
    rw [declaration_eq ((atStatement_closed type endLine (h.more (advance_rules n))).trans h.other)]
    exact (bind_of_ok read).trans (bind_of_ok (expect_of_some (h.rest_closed endLine) type _))
  exact recover_of_ok statement

theorem Items.closed {p : Program} (h : Items (rules n) s p t) (last : p.trailing = some e)
    (short : s.rest.length ≤ n) {n' rounds : Nat} (le : rounds ≤ n')
    (longer : s.rest.length < rounds) :
    Syntax.declarations (rules n') ParseState.atEnd rounds (s.amid ⟨[], [semicolon], endLine⟩) =
      (p.statements ++ [.expression e], { t.amid ⟨[], [semicolon], endLine⟩ with rest := [] }) := by
  induction h generalizing rounds with
  | ended ended => cases last
  | @trailing s e t trailing =>
    cases last
    obtain ⟨rounds, rfl⟩ := Nat.exists_eq_add_of_le' (Nat.lt_of_le_of_lt (Nat.zero_le _) longer)
    have there : (s.amid ⟨[], [semicolon], endLine⟩).rest ≠ [] :=
      List.append_ne_nil_of_right_ne_nil _ (List.cons_ne_nil _ _)
    rw [declarations_more there, trailing.closed type endLine short (by omega),
      declarations_ended rfl]
    rfl
  | @next s p t more rest ih =>
    have there : (s.amid ⟨[], [semicolon], endLine⟩).rest ≠ [] :=
      List.append_ne_nil_of_right_ne_nil _ (List.cons_ne_nil _ _)
    have less := (advance_rules n).declaration s more
    have after := rest.more last
    rw [recover_declaration short] at rest after ih ⊢
    obtain ⟨rounds, rfl⟩ := Nat.exists_eq_add_of_le' (Nat.lt_of_le_of_lt (Nat.zero_le _) longer)
    rw [declarations_more there, declaration_amid n' short (by omega) (.inl after),
      ih last (by omega) (by omega) (by omega), List.append_assoc]

end Closed

/-! ### Whole texts -/

section Texts

variable (ts : TokenStream) (i : Nat)

theorem items_parsePrompt :
    ∃ t, Items (rules ts.body.length) { rest := ts.body, endLine := ts.endLine, nextId := i }
        (parsePrompt ts i).result t ∧
      t.errors = (parsePrompt ts i).errors ∧ t.nextId = (parsePrompt ts i).nextId :=
  ⟨_, items_promptItems (advance_rules _) ts.body.length (Nat.le_refl _), rfl, rfl⟩

/-- The program with the tokens of a line. -/
theorem parse_line :
    (parse ts i).result = (parsePrompt ts i).result.statements ∧
      (parse ts i).errors = (parsePrompt ts i).errors ++
        match (parsePrompt ts i).result.trailing with
        | none => []
        | some _ => [⟨.eof ts.endLine, .unterminatedExpression⟩] := by
  obtain ⟨t, items, errors, -⟩ := items_parsePrompt ts i
  have endLine : t.endLine = ts.endLine := items.leads.endLine
  have read := items.declarations (Nat.le_refl _) (Nat.le_refl ts.body.length)
  refine ⟨congrArg Prod.fst read, (congrArg (fun read => read.2.errors) read).trans ?_⟩
  cases (parsePrompt ts i).result.trailing with
  | none => exact errors.trans (List.append_nil _).symm
  | some e =>
    change t.errors ++ [⟨.eof t.endLine, _⟩] = _
    rw [errors, endLine]

/-- The program with the tokens of a line that ends in an expression, and a semicolon. -/
theorem parse_closed {e : Expr} (trailing : (parsePrompt ts i).result.trailing = some e)
    {semicolon : Token} (type : semicolon.type = .semicolon) (endLine : Nat) :
    (parse ⟨ts.body ++ [semicolon], endLine⟩ i).result =
        (parsePrompt ts i).result.statements ++ [.expression e] ∧
      (parse ⟨ts.body ++ [semicolon], endLine⟩ i).errors = (parsePrompt ts i).errors := by
  obtain ⟨t, items, errors, -⟩ := items_parsePrompt ts i
  have longer : ts.body.length < (ts.body ++ [semicolon]).length := by
    rw [List.length_append]
    exact Nat.lt_succ_self _
  have read := items.closed type endLine trailing (Nat.le_refl _) (Nat.le_refl _) longer
  exact ⟨congrArg Prod.fst read, (congrArg (fun read => read.2.errors) read).trans errors⟩

end Texts

/-- A line is read as the program with its tokens. Where it ends in an expression, the program
misses a semicolon there; with that semicolon, it has the expression as its last statement. Only the
numbers of uses depend on where they begin. -/
theorem parsePrompt_agrees (ts : TokenStream) (i j k : Nat) :
    ((parsePrompt ts i).result.trailing = none ∧
      Stmt.AllAlike (.shift i j) .plain (parsePrompt ts i).result.statements (parse ts j).result ∧
      (parse ts j).errors = (parsePrompt ts i).errors) ∨
    ∃ e, (parsePrompt ts i).result.trailing = some e ∧
      Stmt.AllAlike (.shift i j) .plain (parsePrompt ts i).result.statements (parse ts j).result ∧
      (parse ts j).errors =
        (parsePrompt ts i).errors ++ [⟨.eof ts.endLine, .unterminatedExpression⟩] ∧
      ∀ (lexeme : String) (line endLine : Nat),
        let closed : TokenStream := ⟨ts.body ++ [⟨.semicolon, lexeme, line⟩], endLine⟩
        (parse closed k).errors = (parsePrompt ts i).errors ∧
        Stmt.AllAlike (.shift i k) .plain
          ((parsePrompt ts i).result.statements ++ [.expression e]) (parse closed k).result := by
  obtain ⟨statements, errors⟩ := parse_line ts i
  have shifted := parse_shift ts i j
  have alike : Stmt.AllAlike (.shift i j) .plain (parsePrompt ts i).result.statements
      (parse ts j).result := statements ▸ shifted.result
  rw [← shifted.errors_eq] at errors
  cases trailing : (parsePrompt ts i).result.trailing with
  | none =>
    rw [trailing] at errors
    exact .inl ⟨rfl, alike, errors.trans (List.append_nil _)⟩
  | some e =>
    rw [trailing] at errors
    refine .inr ⟨e, rfl, alike, errors, fun lexeme line endLine => ?_⟩
    let semicolon : Token := ⟨.semicolon, lexeme, line⟩
    have type : semicolon.type = .semicolon := rfl
    have shifted := parse_shift ⟨ts.body ++ [semicolon], endLine⟩ i k
    obtain ⟨statements, errors⟩ := parse_closed ts i trailing type endLine
    exact ⟨shifted.errors_eq.trans errors, statements ▸ shifted.result⟩

end Lox.Syntax
