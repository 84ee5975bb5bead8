import Lox.Proofs.Joining.Running
import Lox.Proofs.Joining.Scanning
import Lox.Proofs.StaticErrors

/-!
# Entries on other lines

Entries without static errors do the same below any numbers of empty lines, but for the line of a
runtime error. That line is one of the text of some entry and moves as this entry does, also where a
later entry runs into the error: `Session.reports_move` and `Session.answers_move`.
-/

namespace Lox

def Entry.below (k : Nat) (entry : Entry) : Entry := entry.withSource (Lox.below k entry.source)

/-- Each entry below so many empty lines. -/
def lowered (above : Nat → Nat) (entries : List Entry) : List Entry :=
  entries.mapIdx fun i entry => entry.below (above i)

def RuntimeError.later (k : Nat) (e : RuntimeError) : RuntimeError := { e with line := e.line + k }

/-- The same report with its runtime error `k` lines later. -/
def Report.later (k : Nat) (r : Report) : Report :=
  { r with runtimeError := r.runtimeError.map (.later k) }

/-- Of texts below other lines the same is said, and a runtime error stays in the same text: its
line moves as that text does, or not at all if it is in none of them. -/
def Report.MovesWith (r : Report) (said : (Nat → Nat) → Report) : Prop :=
  ∃ origin : Option Nat, ∀ above, said above = r.later (origin.elim 0 above)

/-! ### Lowered entries -/

section Lowered

variable {above : Nat → Nat} {entry : Entry} {entries : List Entry}

theorem lowered_cons :
    lowered above (entry :: entries) =
      entry.below (above 0) :: lowered (fun i => above (i + 1)) entries :=
  List.mapIdx_cons

theorem lowered_zero : lowered (fun _ => 0) entries = entries := by
  induction entries with
  | nil => rfl
  | cons entry entries ih =>
    rw [lowered_cons, ih]
    exact congrArg (· :: entries) entry.withSource_source

theorem source_below (k : Nat) (entry : Entry) :
    (entry.below k).source = Lox.below k entry.source := by
  cases entry <;> rfl

theorem map_source_lowered :
    (lowered above entries).map Entry.source = belowEach above (entries.map Entry.source) := by
  induction entries generalizing above with
  | nil => rfl
  | cons entry entries ih =>
    rw [lowered_cons, List.map_cons, List.map_cons, belowEach_cons, ih, source_below]

theorem exists_of_mem_lowered {entry : Entry} (mem : entry ∈ lowered above entries) :
    ∃ i, ∃ old ∈ entries, entry = old.below (above i) := by
  obtain ⟨i, within, rfl⟩ := List.mem_mapIdx.mp mem
  exact ⟨i, _, List.getElem_mem within, rfl⟩

end Lowered

/-! ### Static errors -/

section Clean

variable {lines ids : Nat → Nat → Prop} {n n' : Nat}

theorem IdsShifted.counted (n k : Nat) : IdsShifted n (0 + k) (n + k) := by
  unfold IdsShifted
  omega

/-- Where tokens are alike, one text has no static error if the other has none. -/
theorem Entry.clean_withSource
    (unique : ∀ {i i' j j'}, ids i i' → ids j j' → (i = j ↔ i' = j'))
    (counted : ∀ k, ids (n + k) (n' + k)) (entry : Entry) {source source' : String}
    (tokens : Syntax.TokenStream.Alike (.plain lines ids) (scan source).tokens
      (scan source').tokens)
    (faults : (scan source).faults = [] → (scan source').faults = [])
    (clean : ¬ (entry.withSource source).HasStaticError n) :
    ¬ (entry.withSource source').HasStaticError n' := by
  have text (source : String) : (entry.withSource source).source = source := by cases entry <;> rfl
  simp only [Entry.HasStaticError, not_or, not_not, text] at clean ⊢
  obtain ⟨scanned, parses, resolves⟩ := clean
  have read := entry.parsed_withSource counted tokens
  have resolved := read.result.resolve Pairing.plain_lawful (Pairing.plain_distinct unique)
    (Entry.lawful parses) fun _ _ => trivial
  have errors := read.errors
  have complaints := resolved.errors
  rw [parses] at errors
  rw [resolves] at complaints
  exact ⟨faults scanned, List.forall₂_nil_left_iff.mp errors,
    List.forall₂_nil_left_iff.mp complaints⟩

theorem Entry.clean_at {entry : Entry} (clean : ¬ entry.HasStaticError 0) (n : Nat) :
    ¬ entry.HasStaticError n := by
  rw [← entry.withSource_source] at clean ⊢
  have tokens : Syntax.TokenStream.Alike (.plain Eq (IdsShifted n)) _ _ :=
    entry.tokens_alike fun _ _ => rfl
  exact entry.clean_withSource IdsShifted.unique (IdsShifted.counted n) tokens id clean

theorem tokens_below_alike {source : String} {k k' : Nat}
    (paired : ∀ line ≤ linesOf source, lines (line + k) (line + k')) :
    Syntax.TokenStream.Alike (.plain lines ids) (scan (below k source)).tokens
      (scan (below k' source)).tokens := by
  rw [tokens_below, tokens_below]
  refine ⟨?_, paired _ (Nat.le_of_eq (endLine_scan _))⟩
  apply List.forall₂_map_left_iff.mpr
  apply List.forall₂_map_right_iff.mpr
  apply List.forall₂_same.mpr
  intro t mem
  exact ⟨⟨rfl, rfl, paired _ (line_le_linesOf mem)⟩, trivial⟩

theorem Entry.clean_below {entry : Entry} (clean : ¬ entry.HasStaticError n) (k : Nat) :
    ¬ (entry.below k).HasStaticError n := by
  have tokens : Syntax.TokenStream.Alike (.plain (fun _ _ => True) Eq)
      (scan (Lox.below 0 entry.source)).tokens (scan (Lox.below k entry.source)).tokens :=
    tokens_below_alike fun _ _ => trivial
  refine entry.clean_withSource eq_unique (fun _ => rfl) tokens (faults_below · k) ?_
  rwa [Lox.below, entry.withSource_source]

end Clean

/-! ### Entering lowered entries -/

/-- Answers one after the other that are alike are alike as one. -/
theorem Report.Alike.append {lines : Nat → Nat → Prop} {r r' q q' : Report}
    (h : r.Alike lines r') (h' : q.Alike lines q') :
    (r.append q).Alike lines (r'.append q') := by
  obtain ⟨output, errors, runtimeError, crash, shown⟩ := h
  refine ⟨?_, ?_, ?_, ?_, ?_⟩
  · exact congrArg₂ (· ++ ·) output h'.output
  · exact congrArg₂ (· ++ ·) errors h'.errors
  · show Option.Rel _ (r.runtimeError <|> q.runtimeError) (r'.runtimeError <|> q'.runtimeError)
    generalize r.runtimeError = e at runtimeError ⊢
    generalize r'.runtimeError = e' at runtimeError ⊢
    cases runtimeError with
    | none => exact h'.runtimeError
    | some alike => exact .some alike
  · exact congrArg₂ (· <|> ·) crash h'.crash
  · exact congrArg₂ (· <|> ·) shown h'.shown

def Report.concat (rs : List Report) : Report := rs.foldr .append {}

theorem Report.concat_alike {lines : Nat → Nat → Prop} {rs rs' : List Report}
    (h : List.Forall₂ (Report.Alike lines) rs rs') :
    (Report.concat rs).Alike lines (.concat rs') := by
  induction h with
  | nil => exact ⟨rfl, rfl, .none, rfl, rfl⟩
  | cons first _ ih => exact first.append ih

theorem Report.Alike.quiet {lines : Nat → Nat → Prop} {r r' : Report} (h : r.Alike lines r')
    (quiet : r.runtimeError = none ∧ r.crash = none) :
    r'.runtimeError = none ∧ r'.crash = none := by
  obtain ⟨error, crash⟩ := quiet
  have same := h.runtimeError
  rw [error] at same
  generalize r'.runtimeError = e at same ⊢
  cases same
  exact ⟨rfl, h.crash.trans crash⟩

/-- If all answers but the last are free of errors at run time, so are those that are alike. -/
theorem Report.quiet_of_alike {lines : Nat → Nat → Prop} {rs rs' : List Report}
    (h : List.Forall₂ (Report.Alike lines) rs rs')
    (quiet : ∀ r ∈ rs.dropLast, r.runtimeError = none ∧ r.crash = none) :
    ∀ r ∈ rs'.dropLast, r.runtimeError = none ∧ r.crash = none := by
  induction h with
  | nil => nofun
  | cons first others ih =>
    cases others with
    | nil => nofun
    | cons =>
      obtain ⟨here, quiet⟩ := List.forall_mem_cons.mp quiet
      exact List.forall_mem_cons.mpr ⟨first.quiet here, ih quiet⟩

namespace Session

def reports (s : Session) : List Entry → List Report
  | [] => []
  | entry :: entries => (s.enter entry).1 :: (s.enter entry).2.reports entries

section Alike

variable {lines : Nat → Nat → Prop} {s s' : Session} (h : s.Alike lines Eq s')

include h

theorem Alike.enter_below {entry : Entry} (clean : ¬ entry.HasStaticError 0) {k k' : Nat}
    (paired : ∀ line ≤ linesOf entry.source, lines (line + k) (line + k')) :
    (s.enter (entry.below k)).1.Alike lines (s'.enter (entry.below k')).1 ∧
      (s.enter (entry.below k)).2.Alike lines Eq (s'.enter (entry.below k')).2 := by
  have here := Entry.clean_below (Entry.clean_at clean s.nextId) k
  have there := Entry.clean_below (Entry.clean_at clean s'.nextId) k'
  simp only [Entry.HasStaticError, not_or, not_not, source_below] at here there
  obtain ⟨faults, errors, complaints⟩ := here
  obtain ⟨faults', errors', complaints'⟩ := there
  exact h.enter_withSource eq_unique entry (faults'.trans faults.symm)
    (errors'.trans errors.symm) (fun _ => complaints'.trans complaints.symm)
    (tokens_below_alike paired)

/-- Entries below some lines are answered like the same entries below others, if their lines are
paired. -/
theorem Alike.enter_lowered {entries : List Entry} {q q' : Nat → Nat}
    (clean : ∀ entry ∈ entries, ¬ entry.HasStaticError 0)
    (paired : ∀ entry ∈ entries, ∀ i, ∀ line ≤ linesOf entry.source,
      lines (line + q i) (line + q' i)) :
    List.Forall₂ (Report.Alike lines) (s.reports (lowered q entries))
        (s'.reports (lowered q' entries)) ∧
      (s.afterAll (lowered q entries)).Alike lines Eq (s'.afterAll (lowered q' entries)) := by
  induction entries generalizing s s' q q' with
  | nil => exact ⟨.nil, h⟩
  | cons entry entries ih =>
    obtain ⟨here, others⟩ := List.forall_mem_cons.mp clean
    obtain ⟨lined, pairedOthers⟩ := List.forall_mem_cons.mp paired
    obtain ⟨answer, after⟩ := h.enter_below here (lined 0)
    obtain ⟨answers, last⟩ := ih after others fun entry mem i => pairedOthers entry mem (i + 1)
    rw [lowered_cons, lowered_cons]
    exact ⟨.cons answer answers, last⟩

end Alike

end Session

/-! ### Origins -/

/-- Lines of one text, of at most `bound` lines, below other lines: of the text at some index, or of
one that does not move. -/
def MovedLines (bound : Nat) (q q' : Nat → Nat) (line line' : Nat) : Prop :=
  ∃ (origin : Option Nat) (inside : Nat), inside ≤ bound ∧
    line = inside + origin.elim 0 q ∧ line' = inside + origin.elim 0 q'

section Origins

variable {bound : Nat} {q q' : Nat → Nat}

theorem MovedLines.still {line : Nat} (within : line ≤ bound) : MovedLines bound q q' line line :=
  ⟨none, line, within, rfl, rfl⟩

theorem MovedLines.moved {line : Nat} (within : line ≤ bound) (i : Nat) :
    MovedLines bound q q' (line + q i) (line + q' i) :=
  ⟨some i, line, within, rfl, rfl⟩

/-- So many lines above each text that no two texts have a line in common. -/
def farApart (bound i : Nat) : Nat := (i + 1) * (bound + 1)

/-- Far apart, a line tells its text and where in the text it is. -/
theorem eq_of_farApart {o o' : Option Nat} {line line' : Nat} (within : line ≤ bound)
    (within' : line' ≤ bound)
    (same : line + o.elim 0 (farApart bound) = line' + o'.elim 0 (farApart bound)) :
    o = o' ∧ line = line' := by
  have rounds (o : Option Nat) :
      o.elim 0 (farApart bound) = (o.elim 0 (· + 1)) * (bound + 1) := by
    cases o with
    | none => exact (Nat.zero_mul _).symm
    | some i => rfl
  have quotient (o : Option Nat) {line : Nat} (within : line ≤ bound) :
      (line + o.elim 0 (farApart bound)) / (bound + 1) = o.elim 0 (· + 1) := by
    rw [rounds, Nat.add_mul_div_right _ _ (Nat.succ_pos bound),
      Nat.div_eq_of_lt (Nat.lt_succ_of_le within), Nat.zero_add]
  have text : o.elim 0 (· + 1) = o'.elim 0 (· + 1) := by
    rw [← quotient o within, ← quotient o' within', same]
  have origin : o = o' := by
    cases o <;> cases o' <;> simp_all
  subst origin
  exact ⟨rfl, Nat.add_right_cancel same⟩

/-- An error that is alike below any lines is in one text, which shows where texts are far apart. -/
theorem RuntimeError.exists_origin {errors : (Nat → Nat) → Option RuntimeError}
    (alike : ∀ q q', Option.Rel (RuntimeError.Alike (MovedLines bound q q')) (errors q)
      (errors q')) :
    ∃ origin : Option Nat, ∀ above,
      errors above = (errors fun _ => 0).map (.later (origin.elim 0 above)) := by
  have apart := alike (fun _ => 0) (farApart bound)
  generalize zero : errors (fun _ => 0) = e at apart
  generalize far : errors (farApart bound) = e' at apart
  cases apart with
  | none =>
    refine ⟨none, fun above => ?_⟩
    have here := alike (fun _ => 0) above
    rw [zero] at here
    generalize errors above = e at here ⊢
    cases here
    rfl
  | @some first last apart =>
    obtain ⟨⟨origin, inside, within, line, line'⟩, fault⟩ := apart
    refine ⟨origin, fun above => ?_⟩
    have here := alike above (farApart bound)
    rw [far] at here
    generalize errors above = e at here ⊢
    cases here with
    | @some e _ here =>
      obtain ⟨⟨origin', inside', within', line₁, line₂⟩, fault'⟩ := here
      obtain ⟨rfl, rfl⟩ := eq_of_farApart within within' (line'.symm.trans line₂)
      have still : origin.elim 0 (fun _ => 0) = 0 := by cases origin <;> rfl
      rw [still] at line
      obtain ⟨l, f⟩ := e
      obtain ⟨l₀, f₀⟩ := first
      obtain rfl : l₀ = inside := line
      obtain rfl : l = _ := line₁
      obtain rfl : f = f₀ := fault'.symm.trans fault
      rfl

/-- What is alike below any lines moves with one text. -/
theorem Report.movesWith_of_alike (bound : Nat) {said : (Nat → Nat) → Report}
    (alike : ∀ q q', (said q).Alike (MovedLines bound q q') (said q')) :
    (said fun _ => 0).MovesWith said := by
  obtain ⟨origin, moved⟩ := RuntimeError.exists_origin fun q q' => (alike q q').runtimeError
  refine ⟨origin, fun above => ?_⟩
  have error := moved above
  obtain ⟨output, errors, -, crash, shown⟩ := alike (fun _ => 0) above
  unfold later
  rw [← error, ← output, ← errors, ← crash, ← shown]

end Origins

/-! ### Sessions after lowered entries -/

theorem exists_bound (entries : List Entry) :
    ∃ bound, ∀ entry ∈ entries, linesOf entry.source ≤ bound := by
  induction entries with
  | nil => exact ⟨0, nofun⟩
  | cons entry entries ih =>
    obtain ⟨bound, within⟩ := ih
    refine ⟨max (linesOf entry.source) bound, List.forall_mem_cons.mpr ⟨le_max_left _ _, ?_⟩⟩
    exact fun entry mem => Nat.le_trans (within entry mem) (le_max_right _ _)

theorem Entry.HasLine.le {entry : Entry} {line : Nat} (h : entry.HasLine line) :
    line ≤ linesOf entry.source := by
  obtain rfl | ⟨t, mem, rfl⟩ := h
  · exact Nat.le_of_eq (endLine_scan _)
  · exact line_le_linesOf mem

namespace Session

theorem Alike.exitCode {lines : Nat → Nat → Prop} {s s' : Session} (h : s.Alike lines Eq s') :
    s'.exitCode = s.exitCode := by
  have runtime : s'.diagnostics.hadRuntimeError = s.diagnostics.hadRuntimeError := by
    have same := h.runtimeErrors.length_eq
    unfold Diagnostics.hadRuntimeError
    rw [Bool.eq_iff_iff]
    simp [← List.length_eq_zero_iff, same]
  unfold Session.exitCode Diagnostics.exitCode
  rw [h.hadError, runtime]

/-- Later entries are answered alike after texts below other lines, and runtime errors move with the
text that they are in: with one of those texts, or with the entry itself, which has the index `n`. -/
structure AnswersMoveWith (s : Session) (n : Nat) (moved : (Nat → Nat) → Session) : Prop where
  answers : ∀ (later : List Entry) (entry : Entry),
    ((s.afterAll later).enter entry).1.MovesWith fun above =>
      (((moved above).afterAll later).enter entry).1
  own : ∀ (later : List Entry) (entry : Entry), ¬ entry.HasStaticError 0 →
    ((s.afterAll later).enter entry).1.MovesWith fun above =>
      (((moved above).afterAll later).enter (entry.below (above n))).1
  exitCode : ∀ (later : List Entry) (above : Nat → Nat),
    ((moved above).afterAll later).exitCode = (s.afterAll later).exitCode

section Move

variable (clock : Clock) (history : List Entry) {entries : List Entry}
  (clean : ∀ entry ∈ entries, ¬ entry.HasStaticError 0)

include clean

/-- Entries without static errors are answered alike below any lines. -/
theorem alike_lowered {bound : Nat}
    (within : ∀ entry ∈ history ++ entries, linesOf entry.source ≤ bound) (q q' : Nat → Nat) :
    let s := (initial clock).afterAll history
    List.Forall₂ (Report.Alike (MovedLines bound q q')) (s.reports (lowered q entries))
        (s.reports (lowered q' entries)) ∧
      (s.afterAll (lowered q entries)).Alike (MovedLines bound q q') Eq
        (s.afterAll (lowered q' entries)) := by
  intro s
  obtain ⟨old, new⟩ := List.forall_mem_append.mp within
  have start : s.Alike (MovedLines bound q q') Eq s :=
    (initial_alike clock fun _ => rfl).afterAll eq_unique history fun entry mem _ has =>
      .still (has.le.trans (old entry mem))
  exact start.enter_lowered clean fun entry mem i _ inside =>
    .moved (inside.trans (new entry mem)) i

/-- What is said to entries without static errors moves with them. -/
theorem reports_move :
    let s := (initial clock).afterAll history
    (Report.concat (s.reports entries)).MovesWith fun above =>
      Report.concat (s.reports (lowered above entries)) := by
  intro s
  obtain ⟨bound, within⟩ := exists_bound (history ++ entries)
  have moves := Report.movesWith_of_alike bound fun q q' =>
    Report.concat_alike (alike_lowered clock history clean within q q').1
  rwa [lowered_zero] at moves

/-- What is said to later entries moves with the entries before them and with themselves. -/
theorem answers_move :
    let s := (initial clock).afterAll history
    (s.afterAll entries).AnswersMoveWith entries.length fun above =>
      s.afterAll (lowered above entries) := by
  intro s
  have alike (later : List Entry) {bound : Nat}
      (within : ∀ entry ∈ (history ++ entries) ++ later, linesOf entry.source ≤ bound)
      (q q' : Nat → Nat) :
      ((s.afterAll (lowered q entries)).afterAll later).Alike (MovedLines bound q q') Eq
        ((s.afterAll (lowered q' entries)).afterAll later) := by
    obtain ⟨old, new⟩ := List.forall_mem_append.mp within
    exact (alike_lowered clock history clean old q q').2.afterAll eq_unique later
      fun entry mem line has => .still (has.le.trans (new entry mem))
  refine ⟨fun later entry => ?_, fun later entry sound => ?_, fun later above => ?_⟩
  · obtain ⟨bound, within⟩ := exists_bound ((history ++ entries) ++ later ++ [entry])
    obtain ⟨old, new⟩ := List.forall_mem_append.mp within
    have moves := Report.movesWith_of_alike bound fun q q' =>
      ((alike later old q q').enter eq_unique entry fun line has =>
        .still (has.le.trans (new entry (List.mem_singleton.mpr rfl)))).1
    rwa [lowered_zero] at moves
  · obtain ⟨bound, within⟩ := exists_bound ((history ++ entries) ++ later ++ [entry])
    obtain ⟨old, new⟩ := List.forall_mem_append.mp within
    have moves := Report.movesWith_of_alike bound fun q q' =>
      ((alike later old q q').enter_below sound fun line inside =>
        .moved (inside.trans (new entry (List.mem_singleton.mpr rfl))) entries.length).1
    have still : entry.below 0 = entry := entry.withSource_source
    rwa [lowered_zero, still] at moves
  · obtain ⟨bound, within⟩ := exists_bound ((history ++ entries) ++ later)
    have same := (alike later within (fun _ => 0) above).exitCode
    rwa [lowered_zero] at same

end Move

end Session

end Lox
