import Lox.Proofs.Scripts

/-!
# The loops around a place

Every parse function leaves the loop depth as it found it, whether it succeeds or raises an error,
so at a `break` statement the depth says whether a loop body of the same function stands around it.
`stray_breaks` lists the statements that are reported, in the order in which they are read.
-/

namespace Lox.Syntax

/-- A `break` statement that is read: the state after its keyword, and whether a loop body of the
same function stands around it. -/
structure BreakRead where
  keyword : Token
  state : ParseState
  inLoop : Bool

/-- The `break` statements that are read from a state on, in order. A loop body stands around what
is read in it, and no loop stands around the body of a function. -/
def Script.breaks : {α : Type} → {p : Parse α} → Script p → Bool → ParseState → List BreakRead
  | _, _, .bind (p := p) first next, inLoop, s =>
    first.breaks inLoop s ++
      match p s with
      | .ok a t => (next a).breaks inLoop t
      | .error _ _ => []
  | _, _, .loopBody body, _, s => body.breaks true { s with loopDepth := s.loopDepth + 1 }
  | _, _, .functionBody body, _, s => body.breaks false { s with loopDepth := 0 }
  | _, _, .recover inner, inLoop, s => inner.breaks inLoop s
  | _, _, .breakLoop keyword, inLoop, s => [⟨keyword, s, inLoop⟩]
  | _, _, _, _, _ => []

/-- The keywords of the `break` statements that no loop encloses. -/
def outsideLoops (reads : List BreakRead) : List Token :=
  (reads.filter (!·.inLoop)).map (·.keyword)

/-- The `break` statements that are reported. -/
def strayBreaks (errors : List SyntaxError) : List Token :=
  (errors.filter (·.fault == .breakOutsideLoop)).map (·.token)

theorem outsideLoops_append (first others : List BreakRead) :
    outsideLoops (first ++ others) = outsideLoops first ++ outsideLoops others := by
  simp only [outsideLoops, List.filter_append, List.map_append]

theorem strayBreaks_report (s : ParseState) (token : Token) {fault : SyntaxFault}
    (other : fault ≠ .breakOutsideLoop) :
    strayBreaks (s.report ⟨token, fault⟩).errors = strayBreaks s.errors := by
  simp [ParseState.report, strayBreaks, List.filter_append, other]

/-! ### Steps that report nothing, and the one that does -/

theorem acceptIf_cases (test : TokenType → Bool) (s : ParseState) :
    ∃ word rest, acceptIf test s = .ok word { s with rest } := by
  cases here : s.rest with
  | nil => exact ⟨none, s.rest, Grammar.acceptIf_of_none (by rw [here]; nofun)⟩
  | cons t rest =>
    cases fits : test t.type with
    | true => exact ⟨some t, rest, Grammar.acceptIf_of_some here fits⟩
    | false =>
      refine ⟨none, s.rest, Grammar.acceptIf_of_none ?_⟩
      rw [here]
      rintro _ _ ⟨⟩
      exact fits

theorem expect_cases (type : TokenType) (fault : SyntaxFault) (s : ParseState) :
    (∃ word rest, expect type fault s = .ok word { s with rest }) ∨
      ∃ token rest, expect type fault s = .error ⟨token, fault⟩ { s with rest } := by
  obtain ⟨word, rest, first⟩ := acceptIf_cases (· == type) s
  unfold expect accept
  rw [bind_of_ok first]
  cases word with
  | none => exact .inr ⟨_, rest, rfl⟩
  | some word => exact .inl ⟨word, rest, rfl⟩

def ParseState.checked (s : ParseState) (keyword : Token) : ParseState :=
  if s.loopDepth = 0 then s.report ⟨keyword, .breakOutsideLoop⟩ else s

theorem breakStatement_cases (keyword : Token) (s : ParseState) :
    (∃ st rest, breakStatement keyword s = .ok st { s.checked keyword with rest }) ∨
      ∃ token rest, breakStatement keyword s =
        .error ⟨token, .unterminatedBreak⟩ { s.checked keyword with rest } := by
  have closing : breakStatement keyword s =
      (expect .semicolon .unterminatedBreak >>= fun _ => pure (.breakLoop keyword))
        (s.checked keyword) := by
    unfold breakStatement ParseState.checked
    rw [get_bind]
    split <;> rfl
  rw [closing]
  obtain ⟨word, rest, first⟩ | ⟨token, rest, first⟩ :=
    expect_cases .semicolon .unterminatedBreak (s.checked keyword)
  · exact .inl ⟨_, rest, bind_of_ok first⟩
  · exact .inr ⟨token, rest, bind_of_error first⟩

theorem errors_breakStatement (keyword : Token) (s : ParseState) :
    (stateAfter (breakStatement keyword) s).errors = (s.checked keyword).errors := by
  obtain ⟨st, rest, run⟩ | ⟨token, rest, run⟩ := breakStatement_cases keyword s
  · rw [stateAfter_ok run]
  · rw [stateAfter_error run]

/-! ### The depth and the loops around a place -/

/-- A stray `break` is reported and never raised. -/
theorem Script.raised {p : Parse α} (script : Script p) {s t : ParseState} {e : SyntaxError}
    (h : p s = .error e t) : e.fault ≠ .breakOutsideLoop := by
  induction script generalizing s t with
  | raise fault other =>
    cases h
    exact other
  | @bind _ _ p f first next firstIh nextIh =>
    cases run : p s with
    | ok a mid =>
      rw [bind_of_ok run] at h
      exact nextIh a h
    | error e' mid =>
      rw [bind_of_error run] at h
      cases h
      exact firstIh run
  | @loopBody _ p body ih =>
    unfold insideLoop at h
    cases run : p { s with loopDepth := s.loopDepth + 1 } with
    | ok a after => rw [run] at h; cases h
    | error e' after =>
      rw [run] at h
      cases h
      exact ih run
  | @functionBody _ p body ih =>
    unfold insideFunction at h
    cases run : p { s with loopDepth := 0 } with
    | ok a after => rw [run] at h; cases h
    | error e' after =>
      rw [run] at h
      cases h
      exact ih run
  | breakLoop keyword =>
    obtain ⟨st, rest, run⟩ | ⟨token, rest, run⟩ := breakStatement_cases keyword s
    · rw [run] at h
      cases h
    · rw [run] at h
      cases h
      nofun
  | acceptIf test =>
    obtain ⟨word, rest, run⟩ := acceptIf_cases test s
    rw [run] at h
    cases h
  | _ => cases h

theorem Script.loopDepth {p : Parse α} (script : Script p) (s : ParseState) :
    (stateAfter p s).loopDepth = s.loopDepth :=
  (script.respects onward s).loopDepth

/-- At every `break` statement the depth says whether a loop body stands around it. -/
theorem Script.depth_of_mem_breaks {p : Parse α} (script : Script p) {inLoop : Bool}
    {s : ParseState} (here : inLoop = true ↔ 0 < s.loopDepth) {b : BreakRead}
    (h : b ∈ script.breaks inLoop s) : b.inLoop = true ↔ 0 < b.state.loopDepth := by
  induction script generalizing inLoop s with
  | @bind _ _ p f first next firstIh nextIh =>
    unfold breaks at h
    obtain h | h := List.mem_append.mp h
    · exact firstIh here h
    · cases run : p s with
      | ok a t =>
        rw [run] at h
        have same := (first.respects onward).of_ok run
        rw [← same.loopDepth] at here
        exact nextIh a here h
      | error e t =>
        rw [run] at h
        cases h
  | loopBody body ih =>
    unfold breaks at h
    exact ih (iff_of_true rfl (Nat.succ_pos s.loopDepth)) h
  | functionBody body ih =>
    unfold breaks at h
    exact ih (iff_of_false Bool.false_ne_true (Nat.lt_irrefl 0)) h
  | recover inner ih =>
    unfold breaks at h
    exact ih here h
  | breakLoop keyword =>
    unfold breaks at h
    obtain rfl := List.mem_singleton.mp h
    exact here
  | _ => cases h

/-- The stray `break` statements that a parser reports are those that it reads outside loops. -/
theorem Script.strayBreaks_eq {p : Parse α} (script : Script p) {inLoop : Bool} {s : ParseState}
    (here : inLoop = true ↔ 0 < s.loopDepth) :
    strayBreaks (stateAfter p s).errors =
      strayBreaks s.errors ++ outsideLoops (script.breaks inLoop s) := by
  induction script generalizing inLoop s with
  | @bind _ _ p f first next firstIh nextIh =>
    have before := firstIh here
    unfold breaks
    rw [outsideLoops_append, ← List.append_assoc, ← before]
    cases run : p s with
    | ok a t =>
      -- The first step leaves the depth as it was, so the second begins in the same loops.
      have same := (first.respects onward).of_ok run
      rw [← same.loopDepth] at here
      have after := nextIh a here
      unfold stateAfter at after ⊢
      rw [bind_of_ok run, run]
      exact after
    | error e t =>
      rw [stateAfter_error run, stateAfter_error (bind_of_error run)]
      exact (List.append_nil _).symm
  | @loopBody _ p body ih =>
    have inside : true = true ↔ 0 < s.loopDepth + 1 := iff_of_true rfl (Nat.succ_pos _)
    have inner := ih (s := { s with loopDepth := s.loopDepth + 1 }) inside
    unfold breaks
    unfold stateAfter at inner ⊢
    unfold insideLoop
    cases run : p { s with loopDepth := s.loopDepth + 1 } <;> rw [run] at inner <;> exact inner
  | @functionBody _ p body ih =>
    -- A function begins outside of loops, whatever loop it stands in.
    have outside : false = true ↔ 0 < 0 := iff_of_false nofun (Nat.lt_irrefl 0)
    have inner := ih (s := { s with loopDepth := 0 }) outside
    unfold breaks
    unfold stateAfter at inner ⊢
    unfold insideFunction
    cases run : p { s with loopDepth := 0 } <;> rw [run] at inner <;> exact inner
  | @recover _ p inner ih =>
    have within := ih here
    unfold breaks
    rw [← within]
    cases run : p s with
    | ok a t =>
      have whole : (Syntax.recover p).toParse s = .ok (some a) t := by
        unfold Total.toParse Syntax.recover
        rw [run]
      rw [stateAfter_ok run, stateAfter_ok whole]
    | error e t =>
      have whole : (Syntax.recover p).toParse s =
          .ok none { t.report e with rest := synchronize t.rest } := by
        unfold Total.toParse Syntax.recover
        rw [run]
      rw [stateAfter_error run, stateAfter_ok whole]
      -- What is raised is reported here, and it is no stray `break`.
      exact strayBreaks_report t e.token (inner.raised run)
  | breakLoop keyword =>
    rw [errors_breakStatement]
    unfold breaks ParseState.checked
    by_cases outside : s.loopDepth = 0
    · obtain rfl : inLoop = false := by
        rw [outside] at here
        exact Bool.eq_false_iff.mpr fun h => Nat.lt_irrefl 0 (here.mp h)
      rw [if_pos outside]
      simp [ParseState.report, strayBreaks, outsideLoops]
    · obtain rfl : inLoop = true := here.mpr (Nat.pos_of_ne_zero outside)
      rw [if_neg outside]
      simp [outsideLoops]
  | acceptIf test =>
    obtain ⟨word, rest, run⟩ := acceptIf_cases test s
    rw [stateAfter_ok run]
    exact (List.append_nil _).symm
  | report token fault other =>
    exact (strayBreaks_report s token other).trans (List.append_nil _).symm
  | _ => exact (List.append_nil _).symm

/-! ### Whole texts -/

theorem start_outside (ts : TokenStream) (firstId : Nat) :
    false = true ↔ 0 < (ParseState.start ts firstId).loopDepth :=
  iff_of_false Bool.false_ne_true (Nat.lt_irrefl 0)

theorem errors_parseExpression (ts : TokenStream) (firstId : Nat) :
    (parseExpression ts firstId).errors =
      (stateAfter (assignment (rules ts.body.length)) (.start ts firstId)).errors := by
  unfold parseExpression Total.run stateAfter ParseState.start
  dsimp only
  cases assignment (rules ts.body.length) _ <;> rfl

/-- Every parse function leaves the loop depth as it found it, also when it raises an error, and
the depth after a loop body is not zero. So the `break` statements that are reported are those that
are read where no loop body of their function stands around them. -/
theorem stray_breaks :
    (∀ {α : Type} {p : Parse α}, ParseFunction p → ∀ s : ParseState,
      (stateAfter p s).loopDepth = s.loopDepth ∧
        0 < (stateAfter p { s with loopDepth := s.loopDepth + 1 }).loopDepth) ∧
    (∀ {α : Type} {p : Parse α} (script : Script p) (s : ParseState),
      strayBreaks (stateAfter p s).errors =
          strayBreaks s.errors ++ outsideLoops (script.breaks (0 < s.loopDepth) s) ∧
        ∀ b ∈ script.breaks (0 < s.loopDepth) s,
          (stateAfter (breakStatement b.keyword) b.state).errors = b.state.errors ++
            if b.inLoop then [] else [⟨b.keyword, .breakOutsideLoop⟩]) ∧
    ∀ (ts : TokenStream) (firstId : Nat),
      strayBreaks (parse ts firstId).errors =
          outsideLoops ((programScript ts).breaks false (.start ts firstId)) ∧
        strayBreaks (parsePrompt ts firstId).errors =
          outsideLoops ((promptScript ts).breaks false (.start ts firstId)) ∧
        strayBreaks (parseExpression ts firstId).errors =
          outsideLoops ((expressionScript ts).breaks false (.start ts firstId)) := by
  refine ⟨fun h s => ?_, fun script s => ⟨?_, fun b read => ?_⟩, fun ts firstId => ?_⟩
  · obtain ⟨script⟩ := h.scripted
    refine ⟨script.loopDepth s, ?_⟩
    rw [script.loopDepth]
    exact Nat.succ_pos s.loopDepth
  · exact script.strayBreaks_eq decide_eq_true_iff
  · have depth := script.depth_of_mem_breaks decide_eq_true_iff read
    rw [errors_breakStatement]
    unfold ParseState.checked
    cases inLoop : b.inLoop with
    | true =>
      rw [if_neg (Nat.pos_iff_ne_zero.mp (depth.mp inLoop))]
      exact (List.append_nil _).symm
    | false =>
      have outside : b.state.loopDepth = 0 := by
        by_contra inside
        exact Bool.eq_false_iff.mp inLoop (depth.mpr (Nat.pos_of_ne_zero inside))
      rw [if_pos outside]
      rfl
  · have outside := start_outside ts firstId
    have program := (programScript ts).strayBreaks_eq outside
    have line := (promptScript ts).strayBreaks_eq outside
    have expression := (expressionScript ts).strayBreaks_eq outside
    rw [← errors_parseExpression] at expression
    exact ⟨program, line, expression⟩

end Lox.Syntax
