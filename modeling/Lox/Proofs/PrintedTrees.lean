import Lox.Proofs.Grammar.Worded
import Lox.Proofs.LongestMatch
import Lox.Proofs.Parsed
import Lox.Proofs.PrintedTrees.Reading

/-!
# Printed trees determine the trees

Where two texts are parsed without an error and no constant is a string or a number, what is printed
for them is the same only if the trees are the same, up to the numbers of uses and the lines of
tokens: `same_of_printed`.
-/

namespace Lox

namespace Grammar

open Syntax

theorem worded_parse {ts : TokenStream} {i : Nat}
    (lexemes : ∀ t ∈ ts.body, Lexeme t.type t.lexeme.toList) (clean : (parse ts i).errors = []) :
    Stmt.WordedAll (parse ts i).result := by
  obtain ⟨d, derives, nearest⟩ := derives_of_parse clean
  rw [parse_of_derives derives nearest]
  exact d.worded (derives.tokens ▸ lexemes) i

theorem worded_parsePrompt {ts : TokenStream} {i : Nat}
    (lexemes : ∀ t ∈ ts.body, Lexeme t.type t.lexeme.toList)
    (clean : (parsePrompt ts i).errors = []) :
    Stmt.WordedAll (parsePrompt ts i).result.statements := by
  have found := (finds_promptItems (sound_rules ts.body.length) ts.body.length).found
    (s := { rest := ts.body, endLine := ts.endLine, nextId := i }) rfl
    (Nat.le_of_eq (congrArg List.length clean))
  obtain ⟨⟨p, spans, number⟩, -⟩ := found
  have split : ts.body = p.tokens ++ _ := spans.split
  have worded := p.worded fun t mem => lexemes t (split ▸ List.mem_append_left _ mem)
  have statements := Stmt.wordedAll_iff.mpr (Numbered.Yields.inOrder worded.1 i)
  have whole : (lineTree p.value i).1.statements = (parsePrompt ts i).result.statements :=
    congrArg (fun r => r.1.statements) number
  rw [← whole]
  exact statements

end Grammar

/-- Each token of a parsed tree is of a kind that may stand in its place. -/
theorem Entry.worded {entry : Entry} {i : Nat} (clean : (entry.parsed i).errors = []) :
    Stmt.WordedAll (entry.parsed i).result.statements := by
  cases entry with
  | program source => exact Grammar.worded_parse (fun _ => lexeme_of_mem_body) clean
  | line source => exact Grammar.worded_parsePrompt (fun _ => lexeme_of_mem_body) clean

/-- Statements of words that print the same lines are the same. -/
theorem Stmt.bares_of_lines {ss ss' : List Stmt} (worded : Stmt.WordedAll ss)
    (worded' : Stmt.WordedAll ss') (symbolic : Stmt.SymbolicAll ss)
    (symbolic' : Stmt.SymbolicAll ss')
    (same : CommandLine.lines (ss.map Stmt.text) = CommandLine.lines (ss'.map Stmt.text)) :
    ss.map Stmt.bare = ss'.map Stmt.bare := by
  rw [← Stmt.texts_eq_map, ← Stmt.texts_eq_map, ← Stmt.texts_shapes, ← Stmt.texts_shapes] at same
  have shapes := Shape.lines_inj (Stmt.plain_shapes worded symbolic)
    (Stmt.plain_shapes worded' symbolic') same
  have read := Stmt.readings_shapes worded symbolic
  rw [shapes, Stmt.readings_shapes worded' symbolic'] at read
  rw [← Stmt.bares_eq_map, ← Stmt.bares_eq_map]
  exact (Option.some.inj read).symm

theorem CommandLine.parse_output (source : String) : (CommandLine.parse source).output =
    CommandLine.lines (((Entry.program source).parsed 0).result.statements.map Stmt.text) := rfl

/-- Two texts that are parsed without an error, and whose trees have no strings and no numbers, have
the same trees, up to the numbers of uses and the lines of tokens, where the statements print the
same one by one. So do two sources for which `parse` writes the same. -/
theorem same_of_printed {entry entry' : Entry} {i i' : Nat} {ss ss' : List Stmt}
    (parsed : (entry.parsed i).errors = [] ∧ (entry.parsed i).result.statements = ss)
    (parsed' : (entry'.parsed i').errors = [] ∧ (entry'.parsed i').result.statements = ss')
    (symbolic : Stmt.SymbolicAll ss) (symbolic' : Stmt.SymbolicAll ss') :
    (ss.map Stmt.text = ss'.map Stmt.text → ss.map Stmt.bare = ss'.map Stmt.bare) ∧
    (∀ source source', entry = .program source → i = 0 → entry' = .program source' → i' = 0 →
      (CommandLine.parse source).output = (CommandLine.parse source').output →
      ss.map Stmt.bare = ss'.map Stmt.bare) := by
  obtain ⟨clean, rfl⟩ := parsed
  obtain ⟨clean', rfl⟩ := parsed'
  have lines := Stmt.bares_of_lines (Entry.worded clean) (Entry.worded clean') symbolic symbolic'
  refine ⟨fun texts => lines (congrArg CommandLine.lines texts), ?_⟩
  rintro source source' rfl rfl rfl rfl same
  rw [CommandLine.parse_output, CommandLine.parse_output] at same
  exact lines same

/-- A blank and a line end more. -/
theorem same_of_printed_layouts :
    let ss := [Stmt.expression (.assign ⟨0, ⟨.identifier, "a", 1⟩⟩
      (.unary ⟨.bang, "!", 1⟩ (.variable ⟨1, ⟨.identifier, "b", 1⟩⟩)))]
    let ss' := [Stmt.expression (.assign ⟨4, ⟨.identifier, "a", 1⟩⟩
      (.unary ⟨.bang, "!", 2⟩ (.variable ⟨5, ⟨.identifier, "b", 2⟩⟩)))]
    ((Entry.program "a=!b;").parsed 0).result.statements = ss ∧
    ((Entry.line "a =\n!b;").parsed 4).result.statements = ss' ∧
    ss.map Stmt.bare = ss'.map Stmt.bare := by
  intro ss ss'
  have tokens : (scan "a=!b;").tokens = ⟨[⟨.identifier, "a", 1⟩, ⟨.equal, "=", 1⟩, ⟨.bang, "!", 1⟩,
    ⟨.identifier, "b", 1⟩, ⟨.semicolon, ";", 1⟩], 1⟩ := by decide +kernel
  have tokens' : (scan "a =\n!b;").tokens = ⟨[⟨.identifier, "a", 1⟩, ⟨.equal, "=", 1⟩,
    ⟨.bang, "!", 2⟩, ⟨.identifier, "b", 2⟩, ⟨.semicolon, ";", 2⟩], 2⟩ := by decide +kernel
  have parsed : ((Entry.program "a=!b;").parsed 0).errors = [] ∧
      ((Entry.program "a=!b;").parsed 0).result.statements = ss := by
    rw [Entry.parsed, tokens]
    exact ⟨rfl, rfl⟩
  have parsed' : ((Entry.line "a =\n!b;").parsed 4).errors = [] ∧
      ((Entry.line "a =\n!b;").parsed 4).result.statements = ss' := by
    rw [Entry.parsed, tokens']
    exact ⟨rfl, rfl⟩
  have same := (same_of_printed parsed parsed' ⟨trivial, trivial⟩ ⟨trivial, trivial⟩).1 rfl
  exact ⟨parsed.2, parsed'.2, same⟩

end Lox
