import Lox.Proofs.Alike.Evaluation
import Lox.Proofs.Alike.Parsing
import Lox.Proofs.Alike.Resolving
import Lox.Proofs.Parsed

/-!
# Sessions that answer alike

Sessions that differ at most in the numbers of uses and in the lines of old code answer every later
entry alike: `Session.Alike.enter`.
-/

namespace Lox

/-- Nothing is renamed, and any use may have any distance. -/
def Pairing.plain (lines ids : Nat → Nat → Prop) : Pairing where
  lines := lines
  ids := ids
  distances := fun _ _ => True
  names := fun _ => True
  renames := fun ρ => ρ = Equiv.refl String

section Plain

variable {lines ids : Nat → Nat → Prop}

theorem Pairing.plain_lawful : (Pairing.plain lines ids).Lawful := by
  refine ⟨rfl, ?_, ?_⟩
  · rintro ρ rfl
    rfl
  · rintro ρ rfl
    rfl

theorem Pairing.plain_distinct
    (unique : ∀ {i i' j j'}, ids i i' → ids j j' → (i = j ↔ i' = j')) :
    (Pairing.plain lines ids).Distinct := by
  refine ⟨unique, ?_, trivial, trivial⟩
  rintro ρ σ x y rfl rfl - - same
  exact same

theorem Pairing.Tokens.eq {t t' : Token} (h : (Pairing.plain Eq ids).Tokens t t') : t' = t := by
  obtain ⟨type, lexeme, line⟩ := h
  cases t
  cases t'
  cases type
  cases lexeme
  cases line
  rfl

theorem Pairing.Mistakes.eq {e e' : SyntaxError} (h : (Pairing.plain Eq ids).Mistakes e e') :
    e = e' := by
  obtain ⟨token, fault⟩ := h
  cases e
  cases e'
  cases token.eq
  cases fault
  rfl

theorem Pairing.Complaints.eq {e e' : StaticError} (h : (Pairing.plain Eq ids).Complaints e e') :
    e = e' := by
  obtain ⟨fault, type, line, _, rfl, lexeme⟩ := h
  have tokens : (Pairing.plain Eq ids).Tokens e.token e'.token := ⟨type, lexeme, line⟩
  have token := tokens.eq
  cases e
  cases e'
  cases token
  cases fault
  rfl

theorem eq_of_forall₂ {α : Type} {R : α → α → Prop} (sub : ∀ a b, R a b → a = b) {as bs : List α}
    (h : List.Forall₂ R as bs) : bs = as := by
  induction h with
  | nil => rfl
  | cons first _ ih => rw [sub _ _ first, ih]

end Plain

structure RuntimeError.Alike (lines : Nat → Nat → Prop) (e e' : RuntimeError) : Prop where
  line : lines e.line e'.line
  fault : e'.fault = e.fault

structure Report.Alike (lines : Nat → Nat → Prop) (r r' : Report) : Prop where
  output : r'.output = r.output
  errors : r'.errors = r.errors
  runtimeError : Option.Rel (RuntimeError.Alike lines) r.runtimeError r'.runtimeError
  crash : r'.crash = r.crash
  shown : r'.shown = r.shown

inductive Diagnostic.Alike (lines : Nat → Nat → Prop) : Diagnostic → Diagnostic → Prop
  | same {d} : Diagnostic.Alike lines d d
  | runtime {e e' : RuntimeError} : RuntimeError.Alike lines e e' →
    Diagnostic.Alike lines e.diagnostic e'.diagnostic

theorem RuntimeError.Alike.eq {e e' : RuntimeError} (h : RuntimeError.Alike Eq e e') : e' = e := by
  obtain ⟨line, fault⟩ := h
  cases e
  cases e'
  cases line
  cases fault
  rfl

theorem Report.Alike.eq {r r' : Report} (h : Report.Alike Eq r r') : r' = r := by
  obtain ⟨output, errors, runtimeError, crash, shown⟩ := h
  have runtimeError : r'.runtimeError = r.runtimeError := by
    simpa using rel_map_eq (f := id) (g := id) (fun _ _ => RuntimeError.Alike.eq) runtimeError
  cases r
  cases r'
  cases output
  cases errors
  cases runtimeError
  cases crash
  cases shown
  rfl

theorem Diagnostic.Alike.eq {d d' : Diagnostic} (h : Diagnostic.Alike Eq d d') : d = d' := by
  cases h with
  | same => rfl
  | runtime same => rw [same.eq]

/-! ### Parsing -/

section Parsing

variable {lines ids : Nat → Nat → Prop} {n n' : Nat}

/-- A token of the entry is on this line, or the entry ends on it. -/
def Entry.HasLine (entry : Entry) (line : Nat) : Prop :=
  line = (scan entry.source).tokens.endLine ∨ ∃ t ∈ (scan entry.source).tokens.body, line = t.line

/-- Tokens that are alike are read alike, whatever number the uses begin with. -/
theorem Entry.parsed_withSource (counted : ∀ k, ids (n + k) (n' + k)) (entry : Entry)
    {source source' : String}
    (tokens : Syntax.TokenStream.Alike (.plain lines ids) (scan source).tokens
      (scan source').tokens) :
    Syntax.Parsed.Alike (.plain lines ids) n n' (Program.Alike (.plain lines ids))
      ((entry.withSource source).parsed n) ((entry.withSource source').parsed n') := by
  cases entry with
  | program =>
    have read := Syntax.parse_alike Pairing.plain_lawful counted tokens
    dsimp only [Entry.withSource, Entry.parsed, Entry.source] at read ⊢
    generalize Syntax.parse (scan source).tokens n = p at read ⊢
    generalize Syntax.parse (scan source').tokens n' = p' at read ⊢
    exact ⟨⟨read.result, .none⟩, read.errors, read.nextId⟩
  | line => exact Syntax.parsePrompt_alike Pairing.plain_lawful counted tokens

theorem Entry.tokens_alike (entry : Entry) (refl : ∀ line, entry.HasLine line → lines line line) :
    Syntax.TokenStream.Alike (.plain lines ids) (scan entry.source).tokens
      (scan entry.source).tokens := by
  refine ⟨List.forall₂_same.mpr fun t mem => ?_, refl _ (.inl rfl)⟩
  exact ⟨⟨rfl, rfl, refl _ (.inr ⟨t, mem, rfl⟩)⟩, trivial⟩

theorem Entry.parsed_alike (counted : ∀ k, ids (n + k) (n' + k)) (entry : Entry)
    (refl : ∀ line, entry.HasLine line → lines line line) :
    Syntax.Parsed.Alike (.plain lines ids) n n' (Program.Alike (.plain lines ids)) (entry.parsed n)
      (entry.parsed n') := by
  have read := entry.parsed_withSource counted (entry.tokens_alike refl)
  rwa [entry.withSource_source] at read

theorem Program.Alike.mono {P Q : Pairing} (le : P.Le Q) {p p' : Program} (h : p.Alike P p') :
    p.Alike Q p' :=
  ⟨h.statements.mono le, rel_imp (fun _ _ h => h.mono le) h.trailing⟩

end Parsing

namespace Session

/-- Sessions whose machines are alike but for what was printed, with the same static errors pending
and runtime errors that are alike. -/
structure Alike (lines ids : Nat → Nat → Prop) (s s' : Session) : Prop where
  machine : ∃ F, Machine.Alike (.plain lines ids) F "" .global { s.machine with output := "" }
    { s'.machine with output := "" }
  counted : ∀ k, ids (s.nextId + k) (s'.nextId + k)
  errors : s'.diagnostics.errors = s.diagnostics.errors
  runtimeErrors : List.Forall₂ (Diagnostic.Alike lines) s.diagnostics.runtimeErrors
    s'.diagnostics.runtimeErrors

/-- No code is known before the first entry. -/
theorem initial_alike (clock : Clock) {lines ids : Nat → Nat → Prop} (refl : ∀ id, ids id id) :
    (initial clock).Alike lines ids (initial clock) := by
  refine ⟨⟨[Equiv.refl String], .initial clock rfl, rfl, rfl, fun i i' _ => ⟨?_, trivial⟩, rfl, rfl⟩,
    fun k => refl _, rfl, .nil⟩
  show (∅ : Distances)[i']? = (∅ : Distances)[i]?
  rw [Std.TreeMap.getElem?_emptyc, Std.TreeMap.getElem?_emptyc]

namespace Alike

variable {lines ids : Nat → Nat → Prop} {s s' : Session} (h : s.Alike lines ids s')

include h

theorem diagnostics_eq (same : lines = Eq) : s'.diagnostics = s.diagnostics := by
  subst same
  have runtimeErrors := eq_of_forall₂ (fun _ _ => Diagnostic.Alike.eq) h.runtimeErrors
  have errors := h.errors
  revert errors runtimeErrors
  cases s.diagnostics
  cases s'.diagnostics
  rintro ⟨⟩ ⟨⟩
  rfl

theorem hadError : s'.diagnostics.hadError = s.diagnostics.hadError := by
  unfold Diagnostics.hadError
  rw [h.errors]

theorem reset : ({ s with diagnostics := s.diagnostics.reset } : Session).Alike lines ids
    { s' with diagnostics := s'.diagnostics.reset } :=
  ⟨h.machine, h.counted, rfl, h.runtimeErrors⟩

theorem note (errors : List Diagnostic) {n n' : Nat} (counted : ∀ k, ids (n + k) (n' + k)) :
    (s.note errors n).Alike lines ids (s'.note errors n') :=
  ⟨h.machine, counted, congrArg (· ++ errors) h.errors, h.runtimeErrors⟩

theorem execute {p p' : Program} (alike : p.Alike (.plain lines ids) p') :
    (s.execute p).1.Alike lines (s'.execute p').1 ∧
      (s.execute p).2.Alike lines ids (s'.execute p').2 := by
  obtain ⟨F, machine⟩ := h.machine
  have ends := alike.run Pairing.plain_lawful machine.store.global F List.prefix_rfl _ _ machine
  unfold Session.execute
  revert ends
  generalize p.run { s.machine with output := "" } = r
  generalize p'.run { s'.machine with output := "" } = r'
  intro ends
  cases ends with
  | @ok F' shown shown' m m' _ same later =>
    refine ⟨⟨?_, rfl, .none, rfl, same⟩, ⟨F', ?_⟩, h.counted, h.errors, h.runtimeErrors⟩
    · exact later.output.trans String.empty_append
    · exact ⟨later.store, later.current, later.current', later.distances, rfl, later.clock⟩
  | @error F' a a' m m' _ stopped later =>
    have output : m'.output = m.output := later.output.trans String.empty_append
    have machine : Machine.Alike (.plain lines ids) F' "" .global { m with output := "" }
        { m' with output := "" } :=
      ⟨later.store, later.current, later.current', later.distances, rfl, later.clock⟩
    cases stopped with
    | @error line line' fault paired =>
      have same : RuntimeError.Alike lines ⟨line, fault⟩ ⟨line', fault⟩ := ⟨paired, rfl⟩
      refine ⟨⟨output, rfl, .some same, rfl, rfl⟩, ⟨F', machine⟩, h.counted, h.errors, ?_⟩
      exact List.rel_append h.runtimeErrors (.cons (.runtime same) .nil)
    | crash crash =>
      refine ⟨⟨output, rfl, .none, ?_, rfl⟩, ⟨F', machine⟩, h.counted, h.errors, h.runtimeErrors⟩
      cases crash with
      | same => rfl
      | unbound plain =>
        cases plain
        rfl

variable (unique : ∀ {i i' j j'}, ids i i' → ids j j' → (i = j ↔ i' = j'))

include unique

theorem resolveAndExecute {p p' : Program} (errors : p'.resolve.errors = p.resolve.errors)
    (alike : p.Alike (.plain lines ids) p') {i j : Nat} (lawful : p.Lawful i j) :
    (s.resolveAndExecute p).1.Alike lines (s'.resolveAndExecute p').1 ∧
      (s.resolveAndExecute p).2.Alike lines ids (s'.resolveAndExecute p').2 := by
  have resolved := alike.resolve Pairing.plain_lawful (Pairing.plain_distinct unique) lawful
    fun _ _ => trivial
  have noted := h.note (p.resolve.errors.map StaticError.diagnostic) h.counted
  unfold Session.resolveAndExecute
  dsimp only
  rw [errors, noted.hadError]
  split
  · exact ⟨⟨rfl, rfl, .none, rfl, rfl⟩, noted⟩
  · obtain ⟨F, machine⟩ := noted.machine
    have added : Session.Alike lines ids
        { s.note (p.resolve.errors.map StaticError.diagnostic) s.nextId with
          machine := s.machine.addDistances p.resolve.distances }
        { s'.note (p.resolve.errors.map StaticError.diagnostic) s'.nextId with
          machine := s'.machine.addDistances p'.resolve.distances } := by
      refine ⟨⟨F, machine.store, machine.current, machine.current', fun i i' paired => ⟨?_, trivial⟩,
        rfl, machine.clock⟩, noted.counted, noted.errors, noted.runtimeErrors⟩
      have old : s'.machine.distances[i']? = s.machine.distances[i]? :=
        (machine.distances i i' paired).1
      change (s'.machine.distances ∪ p'.resolve.distances)[i']? =
        (s.machine.distances ∪ p.resolve.distances)[i]?
      rw [Std.TreeMap.getElem?_union, Std.TreeMap.getElem?_union, old,
        resolved.distances i i' paired]
    exact added.execute alike

section Sources

variable (entry : Entry) {source source' : String}
  (faults : (scan source').faults = (scan source).faults)
  (errors : ((entry.withSource source').parsed s'.nextId).errors =
    ((entry.withSource source).parsed s.nextId).errors)
  (complaints : ((entry.withSource source).parsed s.nextId).errors = [] →
    ((entry.withSource source').parsed s'.nextId).result.resolve.errors =
      ((entry.withSource source).parsed s.nextId).result.resolve.errors)
  (tokens : Syntax.TokenStream.Alike (.plain lines ids) (scan source).tokens
    (scan source').tokens)

include faults errors complaints tokens

theorem step :
    (s.step (fun _ => (entry.withSource source).parsed) source).1.Alike lines
        (s'.step (fun _ => (entry.withSource source').parsed) source').1 ∧
      (s.step (fun _ => (entry.withSource source).parsed) source).2.Alike lines ids
        (s'.step (fun _ => (entry.withSource source').parsed) source').2 := by
  have read := entry.parsed_withSource h.counted tokens
  obtain ⟨k, number, number'⟩ := read.nextId
  have counted (l : Nat) : ids (((entry.withSource source).parsed s.nextId).nextId + l)
      (((entry.withSource source').parsed s'.nextId).nextId + l) := by
    rw [number, number', Nat.add_assoc, Nat.add_assoc]
    exact h.counted (k + l)
  have noted := h.note ((scan source).faults.map LexicalFault.diagnostic ++
    ((entry.withSource source).parsed s.nextId).errors.map SyntaxError.diagnostic) counted
  unfold Session.step
  dsimp only
  rw [faults, errors, noted.hadError]
  split
  · exact ⟨⟨rfl, rfl, .none, rfl, rfl⟩, noted⟩
  next clean =>
    have parses : ((entry.withSource source).parsed s.nextId).errors = [] := by
      rw [Bool.not_eq_true, Session.note, Diagnostics.hadError_addErrors,
        Bool.or_eq_false_iff] at clean
      have clear : (scan source).faults = [] ∧
          ((entry.withSource source).parsed s.nextId).errors = [] := by
        simpa using clean.2
      exact clear.2
    exact noted.resolveAndExecute unique (complaints parses) read.result (Entry.lawful parses)

/-- Sources with the same static errors, whose tokens are alike, are answered alike. -/
theorem enter_withSource :
    (s.enter (entry.withSource source)).1.Alike lines (s'.enter (entry.withSource source')).1 ∧
      (s.enter (entry.withSource source)).2.Alike lines ids
        (s'.enter (entry.withSource source')).2 := by
  have stepped := h.step unique entry faults errors complaints tokens
  cases entry with
  | program =>
    rw [Entry.withSource, Entry.withSource, enter_program, enter_program]
    exact stepped
  | line =>
    rw [Entry.withSource, Entry.withSource, enter_line, enter_line]
    exact ⟨stepped.1, stepped.2.reset⟩

end Sources

/-- Sessions that are alike answer an entry alike, and are alike after it. -/
theorem enter (entry : Entry) (refl : ∀ line, entry.HasLine line → lines line line) :
    (s.enter entry).1.Alike lines (s'.enter entry).1 ∧
      (s.enter entry).2.Alike lines ids (s'.enter entry).2 := by
  have same : Syntax.Parsed.Alike (.plain Eq ids) s.nextId s'.nextId
      (Program.Alike (.plain Eq ids)) (entry.parsed s.nextId) (entry.parsed s'.nextId) :=
    entry.parsed_alike h.counted fun _ _ => rfl
  have errors : (entry.parsed s'.nextId).errors = (entry.parsed s.nextId).errors :=
    eq_of_forall₂ (fun _ _ => Pairing.Mistakes.eq) same.errors
  have complaints (parses : (entry.parsed s.nextId).errors = []) :
      (entry.parsed s'.nextId).result.resolve.errors =
        (entry.parsed s.nextId).result.resolve.errors :=
    eq_of_forall₂ (fun _ _ => Pairing.Complaints.eq)
      (same.result.resolve Pairing.plain_lawful (Pairing.plain_distinct unique)
        (Entry.lawful parses) fun _ _ => trivial).errors
  rw [← entry.withSource_source] at errors complaints
  have answered := h.enter_withSource unique entry rfl errors complaints (entry.tokens_alike refl)
  rwa [entry.withSource_source] at answered

theorem afterAll (later : List Entry)
    (refl : ∀ entry ∈ later, ∀ line, entry.HasLine line → lines line line) :
    (s.afterAll later).Alike lines ids (s'.afterAll later) := by
  induction later generalizing s s' with
  | nil => exact h
  | cons entry later ih =>
    obtain ⟨first, others⟩ := List.forall_mem_cons.mp refl
    exact ih (h.enter unique entry first).2 others

end Alike

end Session

end Lox
