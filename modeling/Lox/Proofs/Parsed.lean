import Lox.Proofs.Grammar
import Lox.Proofs.Grammar.Breaks
import Lox.Proofs.Grammar.Lawful
import Lox.Proofs.Grammar.Sound.Prompt
import Lox.Proofs.History

/-!
# Parsed programs are proper

A program that was read without an error is proper, and its uses have the numbers that were handed
out, each its own: `Session.Executes.lawful`.
-/

namespace Lox

/-- A proper program whose uses have different numbers from `i` to below `j`, and whose `break`s are
in loops. -/
structure Program.Lawful (p : Program) (i j : Nat) : Prop where
  statements : Stmt.ProperAll p.statements
  trailing : ∀ e ∈ p.trailing, e.Proper
  ids : Ids i j p.uses
  breaks : Stmt.AllBreaksInLoops false p.statements
  trailingBreaks : ∀ e ∈ p.trailing, e.BreaksInLoops

namespace Grammar

open Syntax

theorem lawful_parse {ts : TokenStream} {i : Nat} (spelled : ∀ word ∈ ts.body, word.Spelled)
    (clean : (parse ts i).errors = []) :
    Program.Lawful { statements := (parse ts i).result } i (parse ts i).nextId := by
  obtain ⟨d, derives, nearest⟩ := derives_of_parse clean
  rw [parse_of_derives derives nearest]
  have lawful := d.lawful (derives.tokens ▸ spelled) i
  refine ⟨lawful.1, nofun, ?_, d.keepsBreaks derives.breaks i, nofun⟩
  rw [Program.uses, Option.map_none, Option.getD_none, List.append_nil]
  exact lawful.2

theorem lawful_lineTree {parts : Form.line.Value} (lawful : Form.line.Lawful parts)
    (keeps : Form.line.KeepsBreaks false parts) (i : Nat) :
    (lineTree parts i).1.Lawful i (lineTree parts i).2 := by
  obtain ⟨declarations, trailing⟩ := parts
  have first := keeps_statements lawful.1 i
  have breaks := Numbered.Yields.inOrder keeps.1 i
  cases trailing with
  | none =>
    refine ⟨first.1, nofun, ?_, Stmt.allBreaksInLoops_iff.mpr breaks, nofun⟩
    exact first.2.append (.nil _)
  | some trailing =>
    have last := lawful.2 trailing rfl (inOrder declarations i).2
    have lastBreaks := keeps.2 trailing rfl (inOrder declarations i).2
    refine ⟨first.1, ?_, first.2.append last.2, Stmt.allBreaksInLoops_iff.mpr breaks, ?_⟩
    · rintro _ ⟨⟩
      exact last.1
    · rintro _ ⟨⟩
      exact lastBreaks

theorem lawful_parsePrompt {ts : TokenStream} {i : Nat} (spelled : ∀ word ∈ ts.body, word.Spelled)
    (clean : (parsePrompt ts i).errors = []) :
    (parsePrompt ts i).result.Lawful i (parsePrompt ts i).nextId := by
  have found := (finds_promptItems (sound_rules ts.body.length) ts.body.length).found
    (s := { rest := ts.body, endLine := ts.endLine, nextId := i }) rfl
    (Nat.le_of_eq (congrArg List.length clean))
  obtain ⟨⟨p, spans, number⟩, -⟩ := found
  have split : ts.body = p.tokens ++ _ := spans.split
  have lawful := p.lawful fun word mem => spelled word (split ▸ List.mem_append_left _ mem)
  have whole := lawful_lineTree lawful (p.keepsBreaks spans.breaks) i
  rwa [number] at whole

end Grammar

/-- Numbers are only handed out, also where a text has errors. -/
theorem Entry.le_nextId (entry : Entry) (i : Nat) : i ≤ (entry.parsed i).nextId := by
  cases entry with
  | program source =>
    have leads := (Grammar.finds_declarations (Grammar.sound_rules (scan source).tokens.body.length)
      Syntax.ParseState.atEnd (scan source).tokens.body.length).leads
    exact (leads { rest := (scan source).tokens.body, endLine := _, nextId := i }).nextId
  | line source =>
    have leads := (Grammar.finds_promptItems (Grammar.sound_rules (scan source).tokens.body.length)
      (scan source).tokens.body.length).leads
    exact (leads { rest := (scan source).tokens.body, endLine := _, nextId := i }).nextId

theorem Entry.lawful {entry : Entry} {i : Nat} (clean : (entry.parsed i).errors = []) :
    (entry.parsed i).result.Lawful i (entry.parsed i).nextId := by
  cases entry with
  | program source => exact Grammar.lawful_parse (spelled_scan source) clean
  | line source => exact Grammar.lawful_parsePrompt (spelled_scan source) clean

theorem Session.Executes.lawful {s : Session} {entry : Entry} {p : Program}
    (h : s.Executes entry p) : p.Lawful s.nextId (entry.parsed s.nextId).nextId := by
  obtain ⟨-, -, parsed, rfl, -⟩ := h
  exact Entry.lawful parsed

end Lox
