import Lox.Proofs.Alike.Self
import Lox.Proofs.Alike.Session
import Lox.Proofs.Run

/-!
# Programs that run in a row

The resolver carries nothing from one top-level statement to the next but distances, so a program of
two parts has the distances of both: `Program.Sound.append`. A run of it does what runs of the parts
do one after the other: `Session.perform_append`.
-/

namespace Lox

abbrev Program.of (ss : List Stmt) : Program := { statements := ss }

/-! ### Resolving -/

def IdsFrom (n i i' : Nat) : Prop := i = i' ∧ n ≤ i

def IdsBelow (n i i' : Nat) : Prop := i = i' ∧ i < n

def IdsShifted (n i i' : Nat) : Prop := i' = i + n

theorem IdsShifted.unique {n i i' j j' : Nat} (h : IdsShifted n i i') (h' : IdsShifted n j j') :
    i = j ↔ i' = j' := by
  unfold IdsShifted at h h'
  omega

theorem IdsFrom.unique {n i i' j j' : Nat} (h : IdsFrom n i i') (h' : IdsFrom n j j') :
    i = j ↔ i' = j' := by
  obtain ⟨rfl, -⟩ := h
  obtain ⟨rfl, -⟩ := h'
  rfl

theorem eq_unique {i i' j j' : Nat} (h : i = i') (h' : j = j') : i = j ↔ i' = j' := by
  rw [h, h']

/-- Statements without static errors whose uses have the numbers from `i` to below `j`. -/
structure Program.Sound (ss : List Stmt) (i j : Nat) : Prop where
  lawful : (Program.of ss).Lawful i j
  clean : (Program.of ss).resolve.errors = []
  new : Stmt.AllAlike (.plain Eq (IdsFrom i)) .plain ss ss

namespace Program

variable {ss ts : List Stmt} {i j k : Nat}

theorem Lawful.append (h : (Program.of ss).Lawful i j) (h' : (Program.of ts).Lawful j k) :
    (Program.of (ss ++ ts)).Lawful i k := by
  refine ⟨?_, nofun, ?_, ?_, nofun⟩
  · have first := h.statements
    show Stmt.ProperAll (ss ++ ts)
    clear h
    induction ss with
    | nil => exact h'.statements
    | cons s ss ih => exact ⟨first.1, ih first.2⟩
  · have ids := h.ids
    have ids' := h'.ids
    simp only [Program.uses, Option.map_none, Option.getD_none, List.append_nil] at ids ids' ⊢
    rw [Stmt.usesAll_append]
    exact ids.append ids'
  · have breaks := Stmt.allBreaksInLoops_iff.mp h.breaks
    have breaks' := Stmt.allBreaksInLoops_iff.mp h'.breaks
    apply Stmt.allBreaksInLoops_iff.mpr
    intro s mem
    rcases List.mem_append.mp mem with mem | mem
    · exact breaks s mem
    · exact breaks' s mem

namespace Sound

theorem nil (i : Nat) : Sound [] i i :=
  ⟨⟨trivial, nofun, .nil i, trivial, nofun⟩, rfl, .nil⟩

variable (h : Sound ss i j) (h' : Sound ts j k)

include h

theorem scopes : (Program.of ss).resolve.scopes = [] := (h.lawful.walked h.clean).scopes

theorem le : i ≤ j := h.lawful.ids.le

include h'

/-- After the first part the second is resolved as by itself. -/
theorem resolve_after :
    Resolution.Alike (.plain Eq (IdsFrom j)) .plain (Program.of ts).resolve
      (Program.of (ss ++ ts)).resolve := by
  have start : Resolution.AlikeAt (.plain Eq (IdsFrom j)) .plain [] {} (Program.of ss).resolve := by
    refine ⟨⟨fun _ => rfl, ?_, ?_, ?_⟩, rfl⟩
    · rw [h.scopes]
      exact .nil
    · rintro id _ ⟨rfl, above⟩
      exact h.lawful.getElem?_distances_outside h.clean (.inr above)
    · rw [h.clean]
      exact .nil
  have walked := Stmt.resolveAll_alike (c := {}) Pairing.plain_lawful
    (Pairing.plain_distinct IdsFrom.unique) ts h'.new h'.lawful.statements start fun _ _ => trivial
  have both : (Program.of (ss ++ ts)).resolve =
      Stmt.resolveAllIn {} ts (Program.of ss).resolve := by
    rw [Program.resolve_eq, Program.resolve_eq]
    exact Stmt.resolveAllIn_append {} ss ts {}
  rw [both, Program.resolve_eq]
  exact walked.alike

theorem clean_append : (Program.of (ss ++ ts)).resolve.errors = [] := by
  have errors := (h.resolve_after h').errors
  rw [h'.clean] at errors
  exact List.forall₂_nil_left_iff.mp errors

theorem getElem?_second {id : Nat} (above : j ≤ id) :
    (Program.of (ss ++ ts)).resolve.distances[id]? = (Program.of ts).resolve.distances[id]? :=
  (h.resolve_after h').distances id id ⟨rfl, above⟩

/-- The second part leaves the distances of the first alone. -/
theorem getElem?_first {id : Nat} (below : id < j) :
    (Program.of (ss ++ ts)).resolve.distances[id]? = (Program.of ss).resolve.distances[id]? := by
  have clean := h.clean_append h'
  have both : (Program.of (ss ++ ts)).resolve =
      Stmt.resolveAllIn {} ts (Program.of ss).resolve := by
    rw [Program.resolve_eq, Program.resolve_eq]
    exact Stmt.resolveAllIn_append {} ss ts {}
  rw [both] at clean ⊢
  have scopes : (Program.of ss).resolve.scopes = ([] : Levels).map Level.scope := h.scopes
  have walked := Stmt.walkedAll (c := {}) ts h'.lawful.statements scopes trivial clean
  rw [walked.distances]
  apply Occurrence.getElem?_recordAll
  intro o mem same
  have within := h'.lawful.within_occurrences (List.mem_append_left _ mem)
  omega

theorem append : Sound (ss ++ ts) i k := by
  refine ⟨h.lawful.append h'.lawful, h.clean_append h', ?_⟩
  have le : (Pairing.plain Eq (IdsFrom j)).Le (.plain Eq (IdsFrom i)) :=
    ⟨fun _ _ same => same, fun _ _ from' => ⟨from'.1, Nat.le_trans h.le from'.2⟩,
      fun _ _ _ _ _ => trivial, fun _ known => known, fun _ renames => renames⟩
  exact h.new.append (h'.new.mono le)

end Sound

end Program

/-! ### Running -/

def Report.append (r r' : Report) : Report where
  output := r.output ++ r'.output
  errors := r.errors ++ r'.errors
  runtimeError := r.runtimeError <|> r'.runtimeError
  crash := r.crash <|> r'.crash
  shown := r.shown <|> r'.shown

theorem Report.append_empty (r : Report) : r.append {} = r := by
  simp [append]

namespace Session

/-- What comes of a session by the end of a run of statements. -/
def conclude (s : Session) : EStateM.Result Abort Machine Unit → Report × Session
  | .ok _ m => ({ output := m.output }, { s with machine := m })
  | .error (.error e) m =>
    ({ output := m.output, runtimeError := some e },
      { s with machine := m, diagnostics := s.diagnostics.addRuntimeError e.diagnostic })
  | .error (.crash c) m => ({ output := m.output, crash := some c }, { s with machine := m })

/-- Runs statements without static errors; `nextId` is the number of the next use after them. -/
def perform (s : Session) (ss : List Stmt) (nextId : Nat) : Report × Session :=
  conclude { s with nextId } (interpret ss (s.start (.of ss)))

theorem step_eq_perform {s : Session} {entry : Entry} {ss : List Stmt}
    (h : s.Executes entry (.of ss)) :
    s.step (fun _ => entry.parsed) entry.source =
      s.perform ss (entry.parsed s.nextId).nextId := by
  rw [step_of_executes h]
  unfold execute perform start
  have run (m : Machine) : (Program.of ss).run m = (interpret ss >>= fun _ => pure none) m := rfl
  rw [run, bind_apply]
  cases interpret ss { s.machine.addDistances (Program.of ss).resolve.distances with output := "" }
  case ok => rfl
  case error a m => cases a <;> rfl

section Conclude

variable {s : Session} {r r' : EStateM.Result Abort Machine Unit}

theorem conclude_ok (quiet : (s.conclude r).1.runtimeError = none)
    (sound : (s.conclude r).1.crash = none) : ∃ m, r = .ok () m := by
  cases r with
  | ok _ m => exact ⟨m, rfl⟩
  | error a m =>
    cases a with
    | error e => cases quiet
    | crash c => cases sound

theorem conclude_machine (s : Session) (m : Machine)
    (r : EStateM.Result Abort Machine Unit) :
    conclude { s with machine := m } r = s.conclude r := by
  cases r with
  | ok => rfl
  | error a => cases a <;> rfl

theorem errors_conclude (s : Session) (r : EStateM.Result Abort Machine Unit) :
    (s.conclude r).2.diagnostics.errors = s.diagnostics.errors := by
  cases r with
  | ok => rfl
  | error a => cases a <;> rfl

theorem clean_perform (s : Session) (ss : List Stmt) (nextId : Nat) :
    (s.perform ss nextId).1.errors = [] := by
  unfold perform
  cases interpret ss (s.start (.of ss)) with
  | ok => rfl
  | error a => cases a <;> rfl

theorem errors_perform (s : Session) (ss : List Stmt) (nextId : Nat) :
    (s.perform ss nextId).2.diagnostics.errors = s.diagnostics.errors :=
  errors_conclude { s with nextId } _

theorem nextId_perform (s : Session) (ss : List Stmt) (nextId : Nat) :
    (s.perform ss nextId).2.nextId = nextId := by
  unfold perform
  cases interpret ss (s.start (.of ss)) with
  | ok => rfl
  | error a => cases a <;> rfl

/-- Runs that end alike come to the same, where the second has printed something before. -/
theorem conclude_alike {lines : Nat → Nat → Prop} {before : String} {F : FrameRenamings}
    {R : FrameRenamings → Unit → Unit → Prop}
    (ends : EndsAlike (.plain lines Eq) before .global F R r r') :
    Report.Alike lines (.append { output := before } (s.conclude r).1) (s.conclude r').1 ∧
      (s.conclude r).2.Alike lines Eq (s.conclude r').2 := by
  have same : List.Forall₂ (Diagnostic.Alike lines) s.diagnostics.runtimeErrors
      s.diagnostics.runtimeErrors := List.forall₂_same.mpr fun _ _ => .same
  have silent {F : FrameRenamings} {m m' : Machine}
      (alike : Machine.Alike (.plain lines Eq) F before .global m m') :
      ∃ F, Machine.Alike (.plain lines Eq) F "" .global { m with output := "" }
        { m' with output := "" } :=
    ⟨F, alike.store, alike.current, alike.current', alike.distances, rfl, alike.clock⟩
  cases ends with
  | ok _ _ later =>
    exact ⟨⟨later.output, rfl, .none, rfl, rfl⟩, silent later, fun _ => rfl, rfl, same⟩
  | error _ stopped later =>
    cases stopped with
    | @error line line' fault paired =>
      have alike : RuntimeError.Alike lines ⟨line, fault⟩ ⟨line', fault⟩ := ⟨paired, rfl⟩
      refine ⟨⟨later.output, rfl, .some alike, rfl, rfl⟩, silent later, fun _ => rfl, rfl, ?_⟩
      exact List.rel_append same (.cons (.runtime alike) .nil)
    | crash crash =>
      refine ⟨⟨later.output, rfl, .none, ?_, rfl⟩, silent later, fun _ => rfl, rfl, same⟩
      cases crash with
      | same => rfl
      | unbound plain =>
        cases plain
        rfl

end Conclude

section Start

variable {lines ids : Nat → Nat → Prop} {F : FrameRenamings} {s : Session}

/-- Programs that have the same distances, as far as uses are paired, begin to run on machines that
are alike. -/
theorem start_alike (h : s.machine.Alike (.plain lines ids) F "" .global s.machine)
    (sub : ∀ i i', ids i i' → i = i') {p p' : Program}
    (same : ∀ i : Nat, ids i i → p'.resolve.distances[i]? = p.resolve.distances[i]?) :
    Machine.Alike (.plain lines ids) F "" .global (s.start p) (s.start p') := by
  refine ⟨h.store, h.current, h.current', ?_, rfl, rfl⟩
  intro i i' paired
  obtain rfl := sub i i' paired
  refine ⟨?_, trivial⟩
  show (s.machine.distances ∪ p'.resolve.distances)[i]? =
    (s.machine.distances ∪ p.resolve.distances)[i]?
  rw [Std.TreeMap.getElem?_union, Std.TreeMap.getElem?_union, same i paired]

end Start

section Perform

variable {s : Session} {history : List Entry} (kept : s.Kept history)

include kept

theorem Kept.alike_self {ids : Nat → Nat → Prop} (sub : ∀ i i', ids i i' → i = i')
    (old : ∀ i, i < (s.afterAll history).nextId → ids i i) :
    (s.afterAll history).machine.Alike (.plain Eq ids)
      (s.afterAll history).machine.store.plainFrames "" .global (s.afterAll history).machine := by
  have keeps : (Pairing.plain Eq ids).Keeps (s.afterAll history).nextId :=
    ⟨rfl, fun _ => rfl, fun _ => trivial, old⟩
  refine kept.alike keeps fun i i' paired => ⟨?_, trivial⟩
  obtain rfl := sub i i' paired
  rfl

theorem Kept.perform_nil :
    (s.afterAll history).Alike Eq Eq
      ((s.afterAll history).perform [] (s.afterAll history).nextId).2 := by
  have machine := kept.alike_self (fun _ _ same => same) fun _ _ => rfl
  refine ⟨⟨_, machine.store, machine.current, machine.current', ?_, rfl, rfl⟩, fun _ => rfl, rfl,
    List.forall₂_same.mpr fun _ _ => .same⟩
  rintro i _ rfl
  refine ⟨?_, trivial⟩
  show ((s.afterAll history).machine.distances ∪ (∅ : Distances))[i]? = _
  rw [Std.TreeMap.getElem?_union, Std.TreeMap.getElem?_emptyc, Option.none_or]

variable {ss ts : List Stmt} {j k : Nat} (h : Program.Sound ss (s.afterAll history).nextId j)
  (h' : Program.Sound ts j k)

include h h'

/-- After the first part of a run, its machine is like that on which the second part begins. -/
theorem Kept.second_alike {mid : Machine}
    (ran : interpret ss ((s.afterAll history).start (.of ss)) = .ok () mid) :
    ∃ F mid', interpret ss ((s.afterAll history).start (.of (ss ++ ts))) = .ok () mid' ∧
      Machine.Alike (.plain Eq Eq) F mid.output .global
        { mid.addDistances (Program.of ts).resolve.distances with output := "" } mid' := by
  have paired_eq (i i' : Nat) (paired : IdsBelow j i i') : i = i' := paired.1
  have machine := kept.alike_self paired_eq fun _ below =>
    ⟨rfl, Nat.lt_of_lt_of_le below h.le⟩
  have start : Machine.Alike (.plain Eq (IdsBelow j)) _ "" .global
      ((s.afterAll history).start (.of ss)) ((s.afterAll history).start (.of (ss ++ ts))) :=
    start_alike machine paired_eq fun _ paired => h.getElem?_first h' paired.2
  have keeps : (Pairing.plain Eq (IdsBelow j)).Keeps j :=
    ⟨rfl, fun _ => rfl, fun _ => trivial, fun _ below => ⟨rfl, below⟩⟩
  have self : Stmt.AllAlike (.plain Eq (IdsBelow j)) .plain ss ss := by
    apply Stmt.allAlike_self keeps
    intro u mem
    exact (h.lawful.ids.within u (List.mem_append_left _ mem)).2
  have ends := interpret_alike Pairing.plain_lawful (.global start.store.global) self
    _ List.prefix_rfl _ _ start
  rw [ran] at ends
  generalize ran' : interpret ss ((s.afterAll history).start (.of (ss ++ ts))) = r' at ends
  cases ends with
  | @ok F _ _ _ mid' _ _ later =>
    have le : (Pairing.plain Eq (IdsBelow j)).Le (.plain Eq Eq) :=
      ⟨fun _ _ same => same, fun _ _ paired => paired.1, fun _ _ _ _ _ => trivial,
        fun _ known => known, fun _ renames => renames⟩
    refine ⟨F, mid', rfl, later.store.mono le, later.current, later.current', ?_, ?_, later.clock⟩
    · rintro id _ rfl
      refine ⟨?_, trivial⟩
      have distances : mid.distances = ((s.afterAll history).start (.of ss)).distances :=
        ((grows.respects_interpret ss).of_ok ran).distances
      have distances' : mid'.distances = ((s.afterAll history).start (.of (ss ++ ts))).distances :=
        ((grows.respects_interpret ss).of_ok ran').distances
      show mid'.distances[id]? = (mid.distances ∪ (Program.of ts).resolve.distances)[id]?
      rw [distances', distances, Std.TreeMap.getElem?_union]
      show ((s.afterAll history).machine.distances ∪
          (Program.of (ss ++ ts)).resolve.distances)[id]? =
        (((Program.of ts).resolve.distances)[id]?).or
          (((s.afterAll history).machine.distances ∪ (Program.of ss).resolve.distances)[id]?)
      rw [Std.TreeMap.getElem?_union, Std.TreeMap.getElem?_union]
      by_cases below : id < j
      · rw [h.getElem?_first h' below, h'.lawful.getElem?_distances_outside h'.clean (.inl below),
          Option.none_or]
      · rw [Nat.not_lt] at below
        rw [h.getElem?_second h' below, h.lawful.getElem?_distances_outside h.clean (.inr below),
          kept.fresh id (Nat.le_trans h.le below), Option.none_or]
    · rw [later.output]
      show "" ++ mid.output = mid.output ++ ""
      rw [String.empty_append, String.append_empty]

/-- Statements in a row do what the parts do one after the other, if the first part ends. -/
theorem Kept.perform_append
    (quiet : ((s.afterAll history).perform ss j).1.runtimeError = none)
    (sound : ((s.afterAll history).perform ss j).1.crash = none) :
    let first := (s.afterAll history).perform ss j
    let second := first.2.perform ts k
    let whole := (s.afterAll history).perform (ss ++ ts) k
    whole.1 = first.1.append second.1 ∧ second.2.Alike Eq Eq whole.2 := by
  intro first second whole
  obtain ⟨mid, ran⟩ := conclude_ok quiet sound
  obtain ⟨F, mid', ran', alike⟩ := kept.second_alike h h' ran
  have keeps : (Pairing.plain Eq Eq).Keeps k :=
    ⟨rfl, fun _ => rfl, fun _ => trivial, fun _ _ => rfl⟩
  have self : Stmt.AllAlike (.plain Eq Eq) .plain ts ts := by
    apply Stmt.allAlike_self keeps
    intro u mem
    exact (h'.lawful.ids.within u (List.mem_append_left _ mem)).2
  have ends := interpret_alike Pairing.plain_lawful (.global alike.store.global) self
    _ List.prefix_rfl _ _ alike
  have both := conclude_alike (s := { s.afterAll history with nextId := k }) ends
  have first_eq : first = ({ output := mid.output },
      { s.afterAll history with machine := mid, nextId := j }) := by
    show conclude _ _ = _
    rw [ran]
    rfl
  have second_eq : second = conclude { s.afterAll history with nextId := k }
      (interpret ts { mid.addDistances (Program.of ts).resolve.distances with output := "" }) := by
    show first.2.perform ts k = _
    rw [first_eq]
    exact conclude_machine { s.afterAll history with nextId := k } mid _
  have whole_eq : whole = conclude { s.afterAll history with nextId := k } (interpret ts mid') := by
    show conclude _ _ = _
    rw [interpret_append ran']
  rw [whole_eq, second_eq, first_eq]
  exact ⟨both.1.eq, both.2⟩

end Perform

end Session

end Lox
