import Lox.Proofs.Numbering.Rules

/-!
# Trees of whole texts

What is numbered in a program, in a prompt line and in an expression, with and without errors.
-/

namespace Lox

namespace Syntax

abbrev HoldsProgram (p : Program) (us : List Use) : Prop :=
  Made (p.statements.map .stmt ++ (p.trailing.map .expr).toList) p.uses us

variable {r : Rules}

/-! ### Prompt lines -/

theorem holds_statements {ss : List Stmt} {us : List Use} (h : HoldsStmts ss us) :
    HoldsProgram { statements := ss } us := by
  refine h.reorder ?_ ?_
  · simp [Program.uses]
  · simp

theorem numbers_promptExpression (hr : r.Count) (s : ParseState) :
    Numbers [] (promptExpression r) s HoldsProgram := by
  refine (numbers_assignment hr s).bind fun e us s made => .get ?_
  split
  · exact .pure made
  · exact .skip (onward.respects_expect _ _) fun _ s => .pure <|
      holds_statements (HoldsOptional.stmts (t := some _) (Made.stmt (.expression e) made))

theorem numbers_promptItem (hr : r.Count) (s : ParseState) :
    NumbersAll (promptItem r) s HoldsProgram := by
  change NumbersAll (if s.atStatement then do
      let t ← recover (declaration r)
      pure { statements := t.toList }
    else do
      let p ← recover (promptExpression r)
      pure (p.getD { statements := [] })) s HoldsProgram
  split
  · obtain ⟨us, taken, made⟩ := (numbers_declaration hr s).recover (S := HoldsOptional)
      (onward.respects_declaration hr.leads) .nil fun t us made => made
    exact ⟨us, taken, holds_statements (HoldsOptional.stmts made)⟩
  · have leads : Respects ParseState.Leads (promptExpression r) := by
      refine onward.respects_bind (onward.respects_assignment hr.leads) fun e => ?_
      refine onward.respects_bind onward.respects_get fun s => ?_
      split
      · exact onward.respects_pure _
      · exact onward.respects_bind (onward.respects_expect _ _) fun _ => onward.respects_pure _
    exact (numbers_promptExpression hr s).recover
      (S := fun p => HoldsProgram (p.getD { statements := [] })) leads .nil fun p us made => made

/-- Of two items in a row the first that ends in an expression gives the value of the line. -/
theorem holds_items {first others : Program} {us vs : List Use} (h : HoldsProgram first us)
    (h' : HoldsProgram others vs) :
    ∃ ws, ws.Sublist vs ∧ HoldsProgram
      ⟨first.statements ++ others.statements, first.trailing <|> others.trailing⟩ (us ++ ws) := by
  obtain ⟨statements, trailing⟩ := first
  obtain ⟨statements', trailing'⟩ := others
  cases trailing with
  | none =>
    refine ⟨vs, .refl vs, ?_⟩
    have both := h.append h'
    refine both.reorder ?_ ?_
    · simp [Program.uses, Stmt.usesAll_append]
    · simp
  | some e =>
    have kept : ((Stmt.usesAll statements').map Prod.snd).Sublist
        ((Program.uses ⟨statements', trailing'⟩).map Prod.snd) :=
      (List.sublist_append_left _ _).map _
    obtain ⟨ws, same, sub⟩ := List.exists_perm_sublist kept h'.uses
    refine ⟨ws, sub, ?_⟩
    have later : HoldsProgram { statements := statements' } ws := by
      refine holds_statements ⟨same.symm, fun c mem => h'.known c ?_⟩
      exact List.mem_append_left _ mem
    refine (h.append later).reorder ?_ ?_
    · simp only [Program.uses, Stmt.usesAll_append, Option.map_some, Option.getD_some,
        Option.map_none, Option.getD_none, List.append_nil, List.append_assoc]
      exact List.perm_append_comm.append_left _
    · simp [or_comm, or_left_comm]

theorem numbers_promptItems (hr : r.Count) (n : Nat) (s : ParseState) :
    NumbersAll (promptItems r n) s HoldsProgram := by
  induction n generalizing s with
  | zero => exact ⟨[], .refl s, .nil⟩
  | succ n ih =>
    change NumbersAll (if s.atEnd then pure { statements := [] } else do
      let first ← promptItem r
      let others ← promptItems r n
      pure ⟨first.statements ++ others.statements, first.trailing <|> others.trailing⟩) s
      HoldsProgram
    split
    · exact ⟨[], .refl s, .nil⟩
    · obtain ⟨us, taken, made⟩ := numbers_promptItem hr s
      obtain ⟨vs, taken', made'⟩ := ih (promptItem r s).2
      obtain ⟨ws, sub, both⟩ := holds_items made made'
      exact ⟨us ++ ws, taken.trans (taken'.drop sub), both⟩

end Syntax

/-! ### Requests -/

inductive Request where
  | program (ts : TokenStream)
  | line (ts : TokenStream)
  | expression (ts : TokenStream)

namespace Request

open Syntax

def tokens : Request → TokenStream
  | program ts | line ts | expression ts => ts

/-- What the parser returns, as a program; an expression that is not read leaves nothing. -/
def parsed (request : Request) (firstId : Nat) : Parsed Program :=
  match request with
  | program ts =>
    let p := Syntax.parse ts firstId
    { p with result := { statements := p.result } }
  | line ts => Syntax.parsePrompt ts firstId
  | expression ts =>
    let p := Syntax.parseExpression ts firstId
    { p with result := { statements := [], trailing := p.result.toOption } }

/-- The uses of a tree are numbered in the order of their tokens in the text, and the operators in
it have a meaning. -/
structure Numbered (request : Request) (firstId : Nat) : Prop where
  le : firstId ≤ (request.parsed firstId).nextId
  uses : ∃ us, ((request.parsed firstId).result.uses.map Prod.snd).Perm us ∧
    us.Pairwise (·.id < ·.id) ∧
    (∀ u ∈ us, firstId ≤ u.id ∧ u.id < (request.parsed firstId).nextId) ∧
    (us.map (·.name)).Sublist request.tokens.body
  known : ∀ c, (request.parsed firstId).result.Contains c → c.KnownOperators

theorem numbered_of_holds {request : Request} {firstId : Nat} {s after : ParseState} {us : List Use}
    (taken : Takes s after us) (holds : HoldsProgram (request.parsed firstId).result us)
    (start : s.rest = request.tokens.body) (first : s.nextId = firstId)
    (last : after.nextId = (request.parsed firstId).nextId) : request.Numbered firstId := by
  obtain ⟨read, split, names⟩ := taken.tokens
  subst first
  refine ⟨last ▸ taken.nextId, ⟨us, holds.uses, taken.ordered, ?_, ?_⟩, fun c contains => ?_⟩
  · rw [← last]
    exact taken.within
  · rw [← start, split]
    exact names.trans (List.sublist_append_left _ _)
  · induction contains with
    | statement mem => exact holds.known _ (List.mem_append_left _ (List.mem_map_of_mem mem))
    | trailing here => exact holds.known _ (List.mem_append_right _ (by rw [here]; simp))
    | part _ mem ih => exact ih.part mem

theorem numbered (request : Request) (firstId : Nat) : request.Numbered firstId := by
  have count (ts : TokenStream) := rules_count ts.body.length
  cases request with
  | program ts =>
    obtain ⟨us, taken, made⟩ := numbers_declarations (count ts) ParseState.atEnd ts.body.length
      { rest := ts.body, endLine := ts.endLine, nextId := firstId }
    exact numbered_of_holds taken (holds_statements made) rfl rfl rfl
  | line ts =>
    obtain ⟨us, taken, made⟩ := numbers_promptItems (count ts) ts.body.length
      { rest := ts.body, endLine := ts.endLine, nextId := firstId }
    exact numbered_of_holds taken made rfl rfl rfl
  | expression ts =>
    have taken := numbers_assignment (count ts)
      { rest := ts.body, endLine := ts.endLine, nextId := firstId }
    have leads := onward.respects_assignment (count ts).leads
      { rest := ts.body, endLine := ts.endLine, nextId := firstId }
    cases ran : assignment (rules ts.body.length)
      { rest := ts.body, endLine := ts.endLine, nextId := firstId } with
    | ok e after =>
      obtain ⟨us, taken, made⟩ := taken e after ran
      have same : (expression ts).parsed firstId =
          ⟨{ statements := [], trailing := some e }, after.errors, after.nextId⟩ := by
        simp [parsed, Syntax.parseExpression, Total.run, ran, Except.toOption]
      exact numbered_of_holds taken (by rw [same]; exact made) rfl rfl (by rw [same])
    | error e after =>
      rw [stateAfter_error ran] at leads
      have same : (expression ts).parsed firstId =
          ⟨{ statements := [] }, after.errors, after.nextId⟩ := by
        simp [parsed, Syntax.parseExpression, Total.run, ran, Except.toOption]
      exact numbered_of_holds (.none leads) (by rw [same]; exact .nil) rfl rfl (by rw [same])

end Request

end Lox
