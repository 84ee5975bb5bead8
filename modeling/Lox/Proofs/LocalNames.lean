import Lox.Proofs.Alike.Self
import Lox.Proofs.Alike.Session
import Lox.Proofs.LocalNames.Alike
import Lox.Syntax.Printer

/-!
# The names of local variables do not matter

If a local variable or a parameter gets a new name, together with the uses that refer to it, then the
resolver finds the same distances and a run prints the same and ends the same way:
`local_names_hidden`.
-/

namespace Lox

namespace NameChange

variable {k : NameChange} {n : Nat} {ds : Distances}

theorem lawful_pairing (new : TokenType.keywords.lookup k.new = none) :
    (k.pairing n ds).Lawful := by
  have other {word : String} (keyword : (TokenType.keywords.lookup word).isSome = true) :
      word ≠ k.new := by
    rintro rfl
    rw [new] at keyword
    cases keyword
  exact ⟨.inl rfl, fun _ renames => apply_keyword renames rfl (other rfl),
    fun _ renames => apply_keyword renames rfl (other rfl)⟩

/-- Only the new name could be made the same as another, and it does not occur. -/
theorem distinct_pairing (new : TokenType.keywords.lookup k.new = none) :
    (k.pairing n ds).Distinct := by
  refine ⟨?_, ?_, ?_, ?_⟩
  · rintro i _ j _ ⟨rfl, -⟩ ⟨rfl, -⟩
    rfl
  · rintro ρ σ x y (rfl | ⟨rfl, -⟩) (rfl | ⟨rfl, -⟩) knownX knownY same
    · exact same
    · rw [Equiv.refl_apply, Equiv.swap_apply_def] at same
      split at same
      · exact absurd same knownX
      · rwa [if_neg knownY] at same
    · rw [Equiv.refl_apply, Equiv.swap_apply_def] at same
      split at same
      · exact absurd same.symm knownY
      · rwa [if_neg knownX] at same
    · exact (Equiv.swap k.old k.new).injective same
  · intro same
    rw [← same] at new
    cases new
  · intro same
    rw [← same] at new
    cases new

end NameChange

/-! ### Resolution -/

section Resolution

variable {entry : Entry} {n : Nat} {k : NameChange}

/-- A name that is not among the tokens does not occur in the program. -/
theorem Entry.parsed_avoids {y : String}
    (fresh : ∀ t ∈ (scan entry.source).tokens.body, t.lexeme ≠ y) :
    (entry.parsed n).result.Alike (.avoiding n y) (entry.parsed n).result := by
  have lawful : (Pairing.avoiding n y).Lawful := by
    refine ⟨rfl, ?_, ?_⟩
    · rintro ρ rfl
      rfl
    · rintro ρ rfl
      rfl
  have counted (i : Nat) : (Pairing.avoiding n y).ids (n + i) (n + i) :=
    ⟨rfl, Nat.le_add_right n i⟩
  have tokens : Syntax.TokenStream.Alike (.avoiding n y) (scan entry.source).tokens
      (scan entry.source).tokens :=
    ⟨List.forall₂_same.mpr fun t mem => ⟨⟨rfl, rfl, rfl⟩, fresh t mem⟩, rfl⟩
  cases entry with
  | program source => exact ⟨(Syntax.parse_alike lawful counted tokens).result, .none⟩
  | line source => exact (Syntax.parsePrompt_alike lawful counted tokens).result

variable {p : Program} {m : Nat} (lawful : p.Lawful n m) (clean : p.resolve.errors = [])

include lawful clean

/-- The walk begins outside of all local scopes, and comes back there before the last expression. -/
theorem Program.alike_changeName (known : p.Alike (.avoiding n k.new) p) :
    p.Alike (k.pairing n p.resolve.distances) (p.changeName k) := by
  obtain ⟨inStatements, inTrailing⟩ := known
  have plain := NameChange.around_none (k := k)
  have outside {r : Resolution} (scopes : r.scopes = []) : k.At {} [] r none :=
    ⟨scopes, trivial, .inl rfl⟩
  unfold Program.changeName
  generalize p.resolve.distances = ds
  have statements (before : (Stmt.resolveAllIn {} p.statements {}).errors = []) :
      Stmt.AllAlike (k.pairing n ds) .plain p.statements
        (Stmt.changeNameAll k ds [] none 0 p.statements) := by
    rw [← plain]
    exact Stmt.alike_changeNameAll p.statements lawful.statements (outside rfl) before inStatements
      nofun
  rw [Program.resolve_eq] at clean
  cases trailing : p.trailing with
  | none =>
    rw [trailing] at clean
    refine ⟨statements clean, ?_⟩
    dsimp only
    rw [trailing]
    exact .none
  | some e =>
    rw [trailing] at clean inTrailing
    obtain inTrailing | _ := inTrailing
    have before := e.clean_before clean
    have start : ({} : Resolution).scopes = ([] : Levels).map Level.scope := rfl
    have walked := Stmt.walkedAll (c := {}) p.statements lawful.statements start trivial before
    rw [Stmt.afterAll_nil] at walked
    refine ⟨statements before, ?_⟩
    dsimp only
    rw [trailing, ← plain]
    exact .some (e.alike_changeName (lawful.trailing e trailing) (outside walked.scopes) clean
      inTrailing)

theorem Program.resolve_changeName (new : TokenType.keywords.lookup k.new = none)
    (known : p.Alike (.avoiding n k.new) p) :
    (p.changeName k).resolve.errors = [] ∧
      ∀ id : Nat, (p.changeName k).resolve.distances[id]? = p.resolve.distances[id]? := by
  have larger : (k.pairing n p.resolve.distances).Le (k.pairing 0 p.resolve.distances) :=
    ⟨fun _ _ h => h, fun _ _ h => ⟨h.1, Nat.zero_le _⟩, fun _ _ _ _ h => h, fun _ h => h,
      fun _ h => h⟩
  have alike := (Program.alike_changeName lawful clean known).mono larger
  have resolved := alike.resolve (NameChange.lawful_pairing new) (NameChange.distinct_pairing new)
    lawful fun o mem => lawful.getElem?_distances clean mem
  refine ⟨?_, fun id => resolved.distances id id ⟨rfl, Nat.zero_le id⟩⟩
  have errors := resolved.errors
  rw [clean] at errors
  exact List.forall₂_nil_left_iff.mp errors

end Resolution

/-! ### Runs -/

/-- What a session answers to a program that is resolved without an error. -/
def Session.answer (s : Session) (p : Program) : Report :=
  ({ s with machine := s.machine.addDistances p.resolve.distances }.execute p).1

/-- The same answer, but for the name that a crash shows. -/
structure Report.AlikeBut (k : NameChange) (r r' : Report) : Prop where
  output : r'.output = r.output
  errors : r'.errors = r.errors
  runtimeError : r'.runtimeError = r.runtimeError
  crash : r'.crash = r.crash ∨ ∃ name d, r.crash = some (.unbound name d) ∧
    r'.crash = some (.unbound (Equiv.swap k.old k.new name) d)
  shown : r'.shown = r.shown

/-- How two runs of the programs may differ, on a machine with these distances. -/
def NameChange.running (k : NameChange) (ds : Distances) : Pairing :=
  { k.pairing 0 ds with ids := Eq, names := fun _ => True }

section Runs

variable {k : NameChange}

theorem NameChange.lawful_running (new : TokenType.keywords.lookup k.new = none)
    (ds : Distances) : (k.running ds).Lawful := by
  have pairing : (k.pairing 0 ds).Lawful := lawful_pairing new
  exact ⟨pairing.refl, pairing.this, pairing.super⟩

theorem Session.answer_alike {s : Session} {p p' : Program} {ds : Distances} {F : FrameRenamings}
    (new : TokenType.keywords.lookup k.new = none) (alike : p.Alike (k.running ds) p')
    (machines : Machine.Alike (k.running ds) F "" .global (s.start p) (s.start p')) :
    (s.answer p).AlikeBut k (s.answer p') := by
  have ends := alike.run (NameChange.lawful_running new ds) machines.store.global F
    List.prefix_rfl _ _ machines
  unfold Session.answer Session.execute
  unfold Session.start at ends
  dsimp only
  revert ends
  generalize p.run _ = r
  generalize p'.run _ = r'
  intro ends
  cases ends with
  | ok _ same later => exact ⟨later.output.trans String.empty_append, rfl, rfl, .inl rfl, same⟩
  | error _ stopped later =>
    have output := later.output.trans String.empty_append
    cases stopped with
    | error line =>
      cases line
      exact ⟨output, rfl, rfl, .inl rfl, rfl⟩
    | crash crash =>
      cases crash with
      | same => exact ⟨output, rfl, rfl, .inl rfl, rfl⟩
      | unbound renames =>
        obtain rfl | ⟨rfl, -⟩ := renames
        · exact ⟨output, rfl, rfl, .inl rfl, rfl⟩
        · exact ⟨output, rfl, rfl, .inr ⟨_, _, rfl, rfl⟩, rfl⟩

end Runs

/-- A program without static errors, in which the name of a local variable or a parameter is changed
to one that does not occur in it and is no keyword: it has no static errors either, its uses have the
same distances, and a session answers it the same way, but for the name that a crash may show. -/
theorem local_names_hidden (clock : Clock) (history : List Entry) (entry : Entry) (k : NameChange) :
    let s := (Session.initial clock).afterAll history
    let parsed := entry.parsed s.nextId
    let p := parsed.result
    parsed.errors = [] → p.resolve.errors = [] →
      TokenType.keywords.lookup k.new = none →
      (∀ t ∈ (scan entry.source).tokens.body, t.lexeme ≠ k.new) →
      (p.changeName k).resolve.errors = [] ∧
        (∀ id : Nat, (p.changeName k).resolve.distances[id]? = p.resolve.distances[id]?) ∧
        (s.answer p).AlikeBut k (s.answer (p.changeName k)) := by
  intro s parsed p parses clean new fresh
  have kept := Session.kept clock history
  have lawful : p.Lawful s.nextId parsed.nextId := Entry.lawful parses
  have known : p.Alike (.avoiding s.nextId k.new) p := Entry.parsed_avoids fresh
  obtain ⟨errors, distances⟩ := Program.resolve_changeName lawful clean new known
  refine ⟨errors, distances, ?_⟩
  have recorded (i : Nat) (new : s.nextId ≤ i) :
      (s.start p).distances[i]? = p.resolve.distances[i]? := by
    change (s.machine.distances ∪ p.resolve.distances)[i]? = _
    rw [Std.TreeMap.getElem?_union, kept.fresh i new, Option.or_none]
  have larger : (k.pairing s.nextId p.resolve.distances).Le (k.running (s.start p).distances) := by
    refine ⟨fun _ _ h => h, fun _ _ h => h.1.symm, ?_, fun _ _ => trivial, fun _ h => h⟩
    rintro _ i d ⟨rfl, new⟩ known
    exact (recorded i new).symm.trans known
  have keeps : (k.running (s.start p).distances).Keeps s.nextId :=
    ⟨.inl rfl, fun _ => rfl, fun _ => trivial, fun _ _ => rfl⟩
  have machines : Machine.Alike (k.running (s.start p).distances) s.machine.store.plainFrames ""
      .global (s.start p) (s.start (p.changeName k)) := by
    refine ⟨kept.heap.alike keeps kept.occurs, kept.current, kept.current, ?_, rfl, rfl⟩
    rintro i _ rfl
    refine ⟨?_, rfl⟩
    change (s.machine.distances ∪ (p.changeName k).resolve.distances)[i]? =
      (s.machine.distances ∪ p.resolve.distances)[i]?
    rw [Std.TreeMap.getElem?_union, Std.TreeMap.getElem?_union, distances i]
  exact Session.answer_alike new ((Program.alike_changeName lawful clean known).mono larger) machines

/-- The parameter `a` of a function, under another variable of the same name, becomes `b`. -/
theorem local_names_hidden_parameter :
    let s := Session.initial (0 : Float)
    let k : NameChange := ⟨[0], "a", "b"⟩
    let p := ((Entry.program "fun f(a) { { var a; print a; } return a; }").parsed 0).result
    (p.changeName k).resolve.errors = [] ∧
      (∀ id : Nat, (p.changeName k).resolve.distances[id]? = p.resolve.distances[id]?) ∧
      (s.answer p).AlikeBut k (s.answer (p.changeName k)) :=
  local_names_hidden (0 : Float) [] (.program "fun f(a) { { var a; print a; } return a; }") ⟨[0], "a", "b"⟩
    (by decide +kernel) (by decide +kernel) (by decide +kernel) (by decide +kernel)

example : Stmt.texts (((Entry.program "fun f(a) { { var a; print a; } return a; }").parsed
      0).result.changeName ⟨[0], "a", "b"⟩).statements =
    ["(fun f (b) (block (var a) (print a)) (return b))"] := by decide +kernel

end Lox
