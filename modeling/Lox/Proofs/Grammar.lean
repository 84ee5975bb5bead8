import Lox.Proofs.Grammar.NearestElse
import Lox.Proofs.Grammar.Sound.Statement
import Lox.Proofs.Grammar.Complete.Statement

/-!
# The parser and its grammar

`parse_iff_derives`: the parser reports nothing exactly where the tokens derive from `program`, and
then its result is the tree of the derivation in which each `else` belongs to the nearest `if`.
-/

namespace Lox.Grammar

open Syntax

/-- A derivation of the tokens from `program` that keeps to what the parser asks besides: lists that
are short enough, and each `break` in a loop of its function. -/
structure Derives (d : Phrase (.rule .program)) (ts : List Token) : Prop where
  tokens : d.tokens = ts
  arity : d.WithinArity
  breaks : d.BreaksInLoops false

variable {ts : TokenStream} {firstId : Nat} {d : Phrase (.rule .program)}

theorem parse_of_run {result : List Stmt} {later : ParseState}
    (run : (program ts.body.length).toParse
      { rest := ts.body, endLine := ts.endLine, nextId := firstId } = .ok result later) :
    parse ts firstId = { result, errors := later.errors, nextId := later.nextId } := by
  unfold Total.toParse at run
  cases run
  rfl

/-- What a parser without errors has read is derived. -/
theorem derives_of_parse (clean : (parse ts firstId).errors = []) :
    ∃ d, Derives d ts.body ∧ d.NearestElse := by
  obtain ⟨result, later, run⟩ : ∃ result later, (program ts.body.length).toParse
      { rest := ts.body, endLine := ts.endLine, nextId := firstId } = .ok result later :=
    ⟨_, _, rfl⟩
  rw [parse_of_run run] at clean
  obtain ⟨ps, spans, number, enough⟩ := (finds_declarations (sound_rules ts.body.length)
    ParseState.atEnd ts.body.length).found run (Nat.le_of_eq (congrArg List.length clean))
  have split : ts.body = ps.tokens ++ later.rest := spans.split
  -- Each round has read a token, so no token is left when the rounds are used up.
  have read := ps.repeats_le rfl
  have atEnd : later.rest = [] := by
    obtain stopped | all := enough
    · exact List.isEmpty_iff.mp stopped
    · have lengths := congrArg List.length split
      rw [List.length_append] at lengths
      exact List.length_eq_zero_iff.mp (by omega)
  rw [atEnd, List.append_nil] at split
  exact ⟨.rule ps, ⟨split.symm, ⟨nofun, spans.arity⟩, nofun, spans.breaks⟩, spans.nearest⟩

theorem parse_of_declarations {ps : Phrase (.many (.rule .declaration))}
    (spans : Spans false ps ts.body []) :
    parse ts firstId =
      { result := (inOrder ps.value firstId).1
        errors := []
        nextId := (inOrder ps.value firstId).2 } := by
  have tokens : ts.body = ps.tokens := by rw [spans.split, List.append_nil]
  have short : ps.tokens.length ≤ ts.body.length := Nat.le_of_eq (congrArg List.length tokens.symm)
  have few := ps.repeats_le rfl
  refine parse_of_run (completes_declarations (complete_rules ts.body.length) _ ts.body.length
    (fun split _ => ?_) (fun split => ?_) ps spans short (Nat.le_trans few short))
  · rw [ParseState.atEnd, split]
    rfl
  · rw [ParseState.atEnd, split]
    rfl

/-- A derivation in which each `else` belongs to the nearest `if` is what the parser reads. -/
theorem parse_of_derives (h : Derives d ts.body) (nearest : d.NearestElse) :
    parse ts firstId =
      { result := (d.value firstId).1, errors := [], nextId := (d.value firstId).2 } := by
  obtain _ | ⟨ps⟩ := d
  exact parse_of_declarations
    ⟨h.tokens.symm.trans (List.append_nil _).symm, h.arity.2, h.breaks.2, nearest, fun _ => rfl⟩

theorem exists_nearest_derivation (h : Derives d ts.body) :
    ∃ d, Derives d ts.body ∧ d.NearestElse := by
  obtain ⟨q, tokens, keeps, nearest⟩ := d.exists_nearestElse rfl
  exact ⟨q, ⟨tokens.trans h.tokens, keeps.arity h.arity, keeps.breaks _ h.breaks⟩, nearest⟩

/-- The parser reports no error exactly where the tokens derive from `program` with lists that are
short enough and each `break` in a loop. What it returns then is the tree of a derivation in which
each `else` belongs to the nearest `if`, and all such derivations have the same tree. -/
theorem parse_iff_derives (ts : TokenStream) (firstId : Nat) :
    ((parse ts firstId).errors = [] ↔ ∃ d, Derives d ts.body) ∧
    ((parse ts firstId).errors = [] → ∃ d, Derives d ts.body ∧ d.NearestElse) ∧
    ∀ d, Derives d ts.body → d.NearestElse →
      parse ts firstId =
        { result := (d.value firstId).1, errors := [], nextId := (d.value firstId).2 } := by
  refine ⟨⟨fun clean => ?_, fun ⟨d, h⟩ => ?_⟩, derives_of_parse, fun d => parse_of_derives⟩
  · obtain ⟨d, h, -⟩ := derives_of_parse clean
    exact ⟨d, h⟩
  · obtain ⟨d, h, nearest⟩ := exists_nearest_derivation h
    rw [parse_of_derives h nearest]

end Lox.Grammar
