import Lox.Proofs.Agreement.Sound

/-!
# Sessions keep the invariant

Every machine between two entries fits, and so every moment of a history is ready.
-/

namespace Lox

/-! ### Programs -/

theorem Stmt.occurrences_of_mem {s : Stmt} {ss : List Stmt} (mem : s ∈ ss) {o : Occurrence}
    (ho : o ∈ s.occurrences []) : o ∈ Stmt.occurrencesAll [] ss := by
  induction ss with
  | nil => cases mem
  | cons t ss ih =>
    rw [Stmt.occurrencesAll, t.after_nil]
    obtain rfl | mem := List.mem_cons.mp mem
    · exact List.mem_append_left _ ho
    · exact List.mem_append_right _ (ih mem)

namespace World

variable {w : World} {p : Program} {start : Machine}

structure Executes (w : World) (p : Program) (start : Machine) : Prop where
  turns : ∀ {a}, p.Turns start a → w.happens a
  holds : ∀ {c}, p.Contains c → w.holds c
  occurs : w.OccursIn p.occurrences
  outermost : start.current = .global
  heap : w.Heap start

namespace Executes

variable (h : w.Executes p start) {before : List Stmt} {m : Machine}

include h

theorem place_global {ss : List Stmt} (ran : interpret ss start = .ok () m) : w.Place m [] := by
  have current : m.current = .global :=
    ((keepsCurrent.respects_interpret ss).of_ok ran).trans h.outermost
  refine ⟨?_, .nil⟩
  rw [current]
  exact .global

theorem ready_statement {s : Stmt} {later : List Stmt} (split : p.statements = before ++ s :: later)
    (ran : interpret before start = .ok () m) (heap : w.Heap m) :
    w.Ready ⟨.execute limit s, m⟩ := by
  have mem : s ∈ p.statements := split ▸ List.mem_append_right _ List.mem_cons_self
  exact ⟨heap, Ready.code_single (h.holds (.statement mem)), [], h.place_global ran, .nil,
    fun o ho => h.occurs o (List.mem_append_left _ (Stmt.occurrences_of_mem mem ho))⟩

theorem safe_interpret (before ss later : List Stmt)
    (split : p.statements = before ++ (ss ++ later)) (ran : interpret before start = .ok () m)
    (heap : w.Heap m) : w.Safe (interpret ss) m fun _ _ => True := by
  induction ss generalizing before m with
  | nil => exact .pure heap trivial
  | cons s ss ih =>
    have ready := h.ready_statement split ran heap
    have safe := (sound_levels limit).2 s m (h.turns (.statement split ran)) ready
    refine safe.bind fun flow m' ended heap _ _ => ?_
    have further : interpret (before ++ [s]) start = .ok () m' :=
      (interpret_append ran [s]).trans (bind_of_ok ended)
    exact ih (before ++ [s]) (by rw [split, List.append_assoc]; rfl) further heap

theorem ready_trailing {e : Expr} (here : p.trailing = some e)
    (ran : interpret p.statements start = .ok () m) (heap : w.Heap m) :
    w.Ready ⟨.evaluate limit e, m⟩ := by
  refine ⟨heap, Ready.code_single (h.holds (.trailing here)), [], h.place_global ran,
    fun o ho => h.occurs o (List.mem_append_right _ ?_)⟩
  rw [here]
  exact ho

theorem safe_statements : w.Safe (interpret p.statements) start fun _ _ => True :=
  h.safe_interpret [] p.statements [] (List.append_nil _).symm rfl h.heap

theorem safe_program : w.Safe p.run start fun _ _ => True := by
  refine h.safe_statements.bind fun _ m ran heap _ _ => ?_
  split
  · exact .pure heap trivial
  next e here =>
    have safe := (sound_levels limit).1 e m (h.turns (.trailing here ran))
      (h.ready_trailing here ran heap)
    exact safe.bind fun v m' _ heap _ _ => .get (.pure heap trivial)

theorem ready_turn {a : Moment} (turns : p.Turns start a) : w.Ready a := by
  cases turns with
  | @statement before s later m split ran =>
    have safe := h.safe_interpret [] before (s :: later) split rfl h.heap
    exact h.ready_statement split ran (safe.heap_ok ran)
  | trailing here ran => exact h.ready_trailing here ran (h.safe_statements.heap_ok ran)

end Executes

end World

/-! ### Histories -/

namespace Session

variable {s : Session} {history : List Entry} {start : Machine} {p : Program} {a : Moment}

theorem Runs.later (h : s.Runs history start p) (more : List Entry) :
    s.Runs (history ++ more) start p := by
  obtain ⟨before, entry, later, rfl, executes, rfl⟩ := h
  exact ⟨before, entry, later ++ more, by rw [List.append_assoc, List.cons_append], executes, rfl⟩

theorem Runs.earlier {more : List Entry} (h : (s.afterAll history).Runs more start p) :
    s.Runs (history ++ more) start p := by
  obtain ⟨before, entry, later, rfl, executes, rfl⟩ := h
  rw [← afterAll_append] at executes ⊢
  exact ⟨history ++ before, entry, later, (List.append_assoc _ _ _).symm, executes, rfl⟩

theorem Happens.later (h : s.Happens history a) (more : List Entry) :
    s.Happens (history ++ more) a := by
  induction h with
  | turn runs turns => exact .turn (runs.later more) turns
  | step _ begins ih => exact .step ih begins

theorem Happens.earlier {more : List Entry} (h : (s.afterAll history).Happens more a) :
    s.Happens (history ++ more) a := by
  induction h with
  | turn runs turns => exact .turn runs.earlier turns
  | step _ begins ih => exact .step ih begins

/-- A program of the last entry, or an earlier one. -/
theorem Runs.of_concat {entry : Entry} (h : s.Runs (history ++ [entry]) start p) :
    s.Runs history start p ∨
      ((s.afterAll history).Executes entry p ∧ start = (s.afterAll history).start p) := by
  obtain ⟨before, entry', later, split, executes, rfl⟩ := h
  obtain rfl | ⟨later, last, rfl⟩ := List.eq_nil_or_concat later
  · obtain ⟨rfl, same⟩ := List.append_inj' split rfl
    cases same
    exact .inr ⟨executes, rfl⟩
  · rw [List.concat_eq_append, ← List.cons_append, ← List.append_assoc] at split
    obtain ⟨rfl, -⟩ := List.append_inj' split rfl
    exact .inl ⟨before, entry', later, rfl, executes, rfl⟩

theorem Executes.runs {entry : Entry} (h : s.Executes entry p) : s.Runs [entry] (s.start p) p :=
  ⟨[], entry, [], rfl, h, rfl⟩

def Occurs (s : Session) (history : List Entry) (o : Occurrence) : Prop :=
  ∃ start p, s.Runs history start p ∧ o ∈ p.occurrences

def Holds (s : Session) (history : List Entry) (c : Code) : Prop :=
  ∃ start p, s.Runs history start p ∧ p.Contains c

theorem Holds.proper {c : Code} (h : s.Holds history c) : c.Proper := by
  obtain ⟨start, p, ⟨before, entry, later, -, executes, -⟩, contains⟩ := h
  exact executes.lawful.proper contains

theorem Holds.part {c d : Code} (h : s.Holds history c) (mem : d ∈ c.parts) :
    s.Holds history d := by
  obtain ⟨start, p, runs, contains⟩ := h
  exact ⟨start, p, runs, contains.part mem⟩

theorem Holds.later {c : Code} (h : s.Holds history c) (more : List Entry) :
    s.Holds (history ++ more) c := by
  obtain ⟨start, p, runs, contains⟩ := h
  exact ⟨start, p, runs.later more, contains⟩

theorem Occurs.later {o : Occurrence} (h : s.Occurs history o) (more : List Entry) :
    s.Occurs (history ++ more) o := by
  obtain ⟨start, p, runs, mem⟩ := h
  exact ⟨start, p, runs.later more, mem⟩

def world (s : Session) (history : List Entry) : World where
  happened := s.Happens history
  happens := s.Happens history
  occurs := s.Occurs history
  holds := s.Holds history
  past := id
  step := .step
  part := Holds.part
  proper := Holds.proper

/-- What happened in a history before and in the course of an entry, the latter as what happens. -/
def worldOf (s : Session) (history : List Entry) (entry : Entry) : World where
  happened := s.Happens (history ++ [entry])
  happens := (s.afterAll history).Happens [entry]
  occurs := s.Occurs (history ++ [entry])
  holds := s.Holds (history ++ [entry])
  past := Happens.earlier
  step := .step
  part := Holds.part
  proper := Holds.proper

structure Kept (s : Session) (history : List Entry) : Prop where
  heap : (s.world history).Heap (s.afterAll history).machine
  current : (s.afterAll history).machine.current = .global
  occurs : ∀ o, s.Occurs history o → o.use.id < (s.afterAll history).nextId
  fresh : ∀ id, (s.afterAll history).nextId ≤ id →
    (s.afterAll history).machine.distances[id]? = none

/-- An entry begins on a machine that fits. -/
theorem Kept.executes {entry : Entry} (h : s.Kept history)
    (executes : (s.afterAll history).Executes entry p) :
    (s.worldOf history entry).Executes p ((s.afterAll history).start p) := by
  have lawful := executes.lawful
  have old : (s.world history).Within (s.worldOf history entry) :=
    ⟨fun _ happened => happened.later [entry], fun _ occurs => occurs.later [entry],
      fun _ holds => holds.later [entry]⟩
  refine ⟨fun turns => .turn executes.runs turns,
    fun contains => ⟨_, p, executes.runs.earlier, contains⟩, ?_, h.current, ?_⟩
  · exact fun o ho => ⟨_, p, executes.runs.earlier, ho⟩
  refine h.heap.larger old rfl ?_
  rintro o ⟨start, q, runs, mem⟩
  have union : ((s.afterAll history).start p).distances[o.use.id]? =
      (p.resolve.distances[o.use.id]?).or ((s.afterAll history).machine.distances[o.use.id]?) :=
    Std.TreeMap.getElem?_union
  obtain runs | ⟨same, -⟩ := runs.of_concat
  · have occurs : s.Occurs history o := ⟨start, q, runs, mem⟩
    rw [union, lawful.getElem?_distances_outside executes.resolved (.inl (h.occurs o occurs))]
    exact h.heap.known o occurs
  · obtain rfl : q = p := same.program.trans executes.program.symm
    rw [union, lawful.getElem?_distances executes.resolved mem,
      h.fresh _ (lawful.within_occurrences mem).1, Option.or_none]
    exact ⟨rfl, (lawful.walked executes.resolved).legal o mem⟩

theorem Kept.concat_of_executes (h : s.Kept history) {entry : Entry} {p : Program}
    (executes : (s.afterAll history).Executes entry p) : s.Kept (history ++ [entry]) := by
  have more := entry.le_nextId (s.afterAll history).nextId
  have lawful := executes.lawful
  have safe := (h.executes executes).safe_program
  have machine : (s.afterAll (history ++ [entry])).machine =
      stateAfter p.run ((s.afterAll history).start p) := by
    rw [afterAll_concat, enter_machine executes]
  have distances : (s.afterAll (history ++ [entry])).machine.distances =
      (s.afterAll history).machine.distances ∪ p.resolve.distances := by
    rw [machine]
    exact (grows.respects_program p _).distances
  refine ⟨?_, ?_, ?_, ?_⟩
  · rw [machine]
    have same : (s.worldOf history entry).Within (s.world (history ++ [entry])) :=
      ⟨fun _ happened => happened, fun _ occurs => occurs, fun _ holds => holds⟩
    exact safe.heap.larger same rfl safe.heap.known
  · rw [machine]
    exact (keepsCurrent.respects_program p _).trans h.current
  -- A use of the new program has one of the numbers that were handed out for it.
  · rintro o ⟨start, q, runs, mem⟩
    rw [afterAll_concat, nextId_enter]
    obtain runs | ⟨same, -⟩ := runs.of_concat
    · exact Nat.lt_of_lt_of_le (h.occurs o ⟨start, q, runs, mem⟩) more
    · obtain rfl : q = p := same.program.trans executes.program.symm
      exact (lawful.within_occurrences mem).2
  -- No number that is still free has a distance, neither from the program nor from before.
  · intro id above
    rw [afterAll_concat, nextId_enter] at above
    rw [distances, Std.TreeMap.getElem?_union,
      lawful.getElem?_distances_outside executes.resolved (.inr above),
      h.fresh id (Nat.le_trans more above), Option.or_none]

theorem Kept.concat_of_idle (h : s.Kept history) {entry : Entry}
    (idle : ∀ p, ¬ (s.afterAll history).Executes entry p) : s.Kept (history ++ [entry]) := by
  have more := entry.le_nextId (s.afterAll history).nextId
  have machine : (s.afterAll (history ++ [entry])).machine = (s.afterAll history).machine := by
    rw [afterAll_concat, enter_machine_idle idle]
  have same : ∀ o, s.Occurs (history ++ [entry]) o → s.Occurs history o := by
    rintro o ⟨start, q, runs, mem⟩
    obtain runs | ⟨executes, -⟩ := runs.of_concat
    · exact ⟨start, q, runs, mem⟩
    · exact absurd executes (idle q)
  refine ⟨?_, ?_, ?_, ?_⟩
  · rw [machine]
    have old : (s.world history).Within (s.world (history ++ [entry])) :=
      ⟨fun _ happened => happened.later [entry], fun _ occurs => occurs.later [entry],
        fun _ holds => holds.later [entry]⟩
    exact h.heap.larger old rfl fun o occurs => h.heap.known o (same o occurs)
  · rw [machine]
    exact h.current
  · intro o occurs
    rw [afterAll_concat, nextId_enter]
    exact Nat.lt_of_lt_of_le (h.occurs o (same o occurs)) more
  · intro id above
    rw [afterAll_concat, nextId_enter] at above
    rw [machine]
    exact h.fresh id (Nat.le_trans more above)

theorem Kept.concat (h : s.Kept history) (entry : Entry) : s.Kept (history ++ [entry]) := by
  by_cases runs : ∃ p, (s.afterAll history).Executes entry p
  · obtain ⟨p, executes⟩ := runs
    exact h.concat_of_executes executes
  · exact h.concat_of_idle (not_exists.mp runs)

theorem kept_initial (clock : Clock) : (initial clock).Kept [] := by
  have nothing {start : Machine} {p : Program} : ¬ (initial clock).Runs [] start p := by
    rintro ⟨before, entry, later, split, -⟩
    cases before <;> cases split
  refine ⟨⟨?_, ?_, ?_, Nat.one_pos, ?_⟩, rfl, ?_, fun _ _ => rfl⟩
  · intro frame x v bound
    have builtin : v = .clock := by
      cases frame with
      | zero =>
        have bound : ((∅ : Bindings).insert "clock" .clock)[x]? = some v := bound
        rw [Std.TreeMap.getElem?_insert] at bound
        split at bound
        · exact (Option.some.inj bound).symm
        · simp at bound
      | succ frame =>
        have bound : (∅ : Bindings)[x]? = some v := bound
        simp at bound
    subst builtin
    trivial
  · intro id i here
    cases here
  · intro id i here
    cases here
  · rintro o ⟨start, p, runs, -⟩
    exact absurd runs nothing
  · rintro o ⟨start, p, runs, -⟩
    exact absurd runs nothing

theorem kept (clock : Clock) (history : List Entry) : (initial clock).Kept history := by
  have further (later before : List Entry) (h : (initial clock).Kept before) :
      (initial clock).Kept (before ++ later) := by
    induction later generalizing before with
    | nil => exact (List.append_nil before).symm ▸ h
    | cons entry later ih =>
      rw [List.append_cons]
      exact ih _ (h.concat entry)
  exact further history [] (kept_initial clock)

/-- Every moment of a history is ready, in the world of its entry. -/
theorem ready (clock : Clock) {history : List Entry} {a : Moment}
    (happens : (initial clock).Happens history a) :
    ∃ before entry later, history = before ++ [entry] ++ later ∧
      ((initial clock).worldOf before entry).happens a ∧
      ((initial clock).worldOf before entry).Ready a := by
  induction happens with
  | turn runs turns =>
    obtain ⟨before, entry, later, rfl, executes, rfl⟩ := runs
    exact ⟨before, entry, later, List.append_cons before entry later, .turn executes.runs turns,
      ((kept clock before).executes executes).ready_turn turns⟩
  | step _ begins ih =>
    obtain ⟨before, entry, later, split, happens, ready⟩ := ih
    exact ⟨before, entry, later, split, .step happens begins, ready.begins happens begins⟩

end Session

end Lox
