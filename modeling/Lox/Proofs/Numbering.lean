import Mathlib.Logic.Relation
import Lox.Proofs.Agreement.Session
import Lox.Proofs.Numbering.Requests

/-!
# Numbers of uses

No two uses have the same number, in one text or in several, and so the distances of one program
never replace those of another: `ids_never_collide`.
-/

namespace Lox

/-! ### Targets of assignments -/

def Expr.IsNoAssignment : Expr → Prop
  | .assign _ _ => False
  | _ => True

namespace Syntax

def Returns (P : α → Prop) (p : Parse α) : Prop := ∀ s a after, p s = .ok a after → P a

namespace Returns

variable {P : α → Prop} {Q : β → Prop} {p : Parse α} {f : α → Parse β}

theorem pure {a : α} (h : P a) : Returns P (pure a) := by
  intro s b after ran
  cases ran
  exact h

theorem bind (hp : Returns P p) (hf : ∀ a, P a → Returns Q (f a)) : Returns Q (p >>= f) := by
  intro s b after ran
  obtain ⟨a, mid, first, second⟩ := bind_ok ran
  exact hf a (hp s a mid first) mid b after second

theorem skip (hf : ∀ a, Returns Q (f a)) : Returns Q (p >>= f) :=
  bind (P := fun _ => True) (fun _ _ _ _ => trivial) fun a _ => hf a

theorem map {g : α → β} (h : Returns (fun a => Q (g a)) p) : Returns Q (g <$> p) := by
  intro s b after ran
  obtain ⟨a, first, rfl⟩ := map_ok ran
  exact h s a after first

theorem mono (h : Returns P p) {R : α → Prop} (sub : ∀ a, P a → R a) : Returns R p :=
  fun s a after ran => sub a (h s a after ran)

theorem insideLoop (h : Returns P p) : Returns P (insideLoop p) := by
  intro s a after ran
  unfold Syntax.insideLoop at ran
  cases inner : p { s with loopDepth := s.loopDepth + 1 } with
  | ok b mid =>
    rw [inner] at ran
    cases ran
    exact h _ _ mid inner
  | error e mid =>
    rw [inner] at ran
    cases ran

end Returns

theorem returns_single {e : Expr} (h : e.IsNoAssignment) :
    Returns Expr.IsNoAssignment (single e) := by
  intro s a after ran
  cases ran
  exact h

theorem returns_leftAssociative (operators : TokenType → Bool)
    {join : Expr → Token → Expr → Expr} (joined : ∀ l t r, (join l t r).IsNoAssignment)
    {operand : Parse Expr} (h : Returns Expr.IsNoAssignment operand) (n : Nat) :
    Returns Expr.IsNoAssignment (leftAssociative operators join operand n) := by
  have more (n : Nat) (left : Expr) (first : left.IsNoAssignment) :
      Returns Expr.IsNoAssignment (moreOperands operators join operand n left) := by
    induction n generalizing left with
    | zero => exact .pure first
    | succ n ih =>
      refine .skip fun operator => ?_
      cases operator with
      | none => exact .pure first
      | some operator => exact .skip fun right => ih _ (joined left operator right)
  exact h.bind fun first => more n first

variable (r : Rules)

theorem returns_primary : Returns Expr.IsNoAssignment (primary r) := by
  refine .skip fun s => ?_
  dsimp only
  split
  iterate 5 exact returns_single trivial
  · exact .skip fun use => returns_single trivial
  · exact .skip fun use => returns_single trivial
  · exact .skip fun _ => .skip fun _ => .skip fun _ => .skip fun use => .pure trivial
  · exact .skip fun _ => .skip fun _ => .pure trivial
  · exact .skip fun _ => .skip fun _ => .skip fun _ => .pure trivial
  · nofun

theorem returns_callRest (n : Nat) {e : Expr} (h : e.IsNoAssignment) :
    Returns Expr.IsNoAssignment (callRest r n e) := by
  induction n generalizing e with
  | zero => exact .pure h
  | succ n ih =>
    refine .skip fun mark => ?_
    cases mark with
    | none => exact .pure h
    | some mark =>
      dsimp only
      split
      · exact .skip fun arguments => .skip fun paren => ih trivial
      · exact .skip fun name => ih trivial

theorem returns_call : Returns Expr.IsNoAssignment (call r) :=
  (returns_primary r).bind fun _ first => returns_callRest r r.rounds first

theorem returns_unaryUpTo (n : Nat) : Returns Expr.IsNoAssignment (unaryUpTo r n) := by
  cases n with
  | zero => exact returns_call r
  | succ n =>
    refine .skip fun operator => ?_
    cases operator with
    | none => exact returns_call r
    | some operator => exact .skip fun operand => .pure trivial

theorem returns_logicalOr : Returns Expr.IsNoAssignment (logicalOr r) := by
  have binary : ∀ l t r, (Expr.binary l t r).IsNoAssignment := fun _ _ _ => trivial
  have logical : ∀ l t r, (Expr.logical l t r).IsNoAssignment := fun _ _ _ => trivial
  have factor := returns_leftAssociative (fun type => type == .star || type == .slash) binary
    (returns_unaryUpTo r r.rounds) r.rounds
  have term := returns_leftAssociative (fun type => type == .minus || type == .plus) binary
    factor r.rounds
  have comparison := returns_leftAssociative isComparison binary term r.rounds
  have equality := returns_leftAssociative (fun type => type == .bangEqual || type == .equalEqual)
    binary comparison r.rounds
  have both := returns_leftAssociative (· == .kwAnd) logical equality r.rounds
  exact returns_leftAssociative (· == .kwOr) logical both r.rounds

/-- An assignment has the use of the variable that was read as its target. -/
theorem target_of_assignment {s after : ParseState} {target : Use} {value : Expr}
    (h : assignment r s = .ok (.assign target value) after) :
    ∃ mid, logicalOr r s = .ok (.variable target) mid := by
  obtain ⟨e, mid, first, h⟩ := bind_ok h
  have other := returns_logicalOr r s e mid first
  obtain ⟨equals, mid', -, h⟩ := bind_ok h
  cases equals with
  | none =>
    cases h
    exact other.elim
  | some equals =>
    obtain ⟨value', mid'', -, h⟩ := bind_ok h
    cases assigned : assignTo? value' e with
    | none =>
      rw [assigned] at h
      obtain ⟨_, reported, -, h⟩ := bind_ok h
      cases h
      exact other.elim
    | some e' =>
      rw [assigned] at h
      cases h
      cases e with
      | «variable» use =>
        cases assigned
        exact ⟨mid, first⟩
      | _ => cases assigned

end Syntax

/-! ### Parses in a row -/

namespace Request

/-- The trees with which a parser answers one request after another. -/
def answers : Nat → List Request → List Program
  | _, [] => []
  | firstId, request :: later =>
    (request.parsed firstId).result :: answers (request.parsed firstId).nextId later

theorem ids_answers (firstId : Nat) (requests : List Request) :
    (∀ u ∈ (answers firstId requests).flatMap Program.uses, firstId ≤ u.2.id) ∧
      (((answers firstId requests).flatMap Program.uses).map (·.2.id)).Nodup := by
  induction requests generalizing firstId with
  | nil => exact ⟨nofun, List.nodup_nil⟩
  | cons request later ih =>
    obtain ⟨le, ⟨us, same, ordered, within, -⟩, -⟩ := request.numbered firstId
    obtain ⟨above, distinct⟩ := ih (request.parsed firstId).nextId
    have here : ∀ u ∈ (request.parsed firstId).result.uses,
        firstId ≤ u.2.id ∧ u.2.id < (request.parsed firstId).nextId :=
      fun u mem => within u.2 (same.mem_iff.mp (List.mem_map_of_mem mem))
    rw [answers, List.flatMap_cons]
    constructor
    · intro u mem
      rcases List.mem_append.mp mem with mem | mem
      · exact (here u mem).1
      · exact Nat.le_trans le (above u mem)
    · rw [List.map_append, List.nodup_append]
      refine ⟨?_, distinct, ?_⟩
      · have ids : (us.map (·.id)).Nodup :=
          List.pairwise_map.mpr (ordered.imp fun lt => Nat.ne_of_lt lt)
        have perm := same.map (·.id)
        rw [List.map_map] at perm
        exact perm.nodup_iff.mpr ids
      · intro a ha b hb
        obtain ⟨u, hu, rfl⟩ := List.mem_map.mp ha
        obtain ⟨v, hv, rfl⟩ := List.mem_map.mp hb
        have := (here u hu).2
        have := above v hv
        omega

end Request

/-! ### Distances through a session -/

def Program.Reaches (p : Program) (start : Machine) (a : Moment) : Prop :=
  ∃ first, p.Turns start first ∧ Relation.ReflTransGen Begins first a

theorem Begins.distances {a b : Moment} (h : Begins a b) :
    b.machine.distances = a.machine.distances := by
  have evaluated {n : Nat} {e : Expr} {m after : Machine} {v : Value}
      (ran : evaluate n e m = .ok v after) : after.distances = m.distances :=
    ((grows.respects_evaluate n e).of_ok ran).distances
  have executed {n : Nat} {s : Stmt} {m after : Machine} {flow : Flow}
      (ran : execute n s m = .ok flow after) : after.distances = m.distances :=
    ((grows.respects_execute n s).of_ok ran).distances
  cases h with
  | right ran | undecided ran | field ran | arguments ran | property ran | tail ran | branch ran
  | body ran => exact evaluated ran
  | invoke callee arguments =>
    have listed := (grows.respects_evaluateAll (grows.respects_evaluate _) _).of_ok arguments
    exact listed.distances.trans (evaluated callee)
  | next ran => exact executed ran
  | again condition _ ran => exact (executed ran).trans (evaluated condition)
  | callInitializer _ bound => exact ((grows.respects_bindMethod _ _).of_ok bound).distances
  | _ => rfl

theorem Program.Reaches.distances {p : Program} {start : Machine} {a : Moment}
    (h : p.Reaches start a) : a.machine.distances = start.distances := by
  obtain ⟨first, turns, course⟩ := h
  have begun : first.machine.distances = start.distances := by
    cases turns with
    | statement _ ran => exact ((grows.respects_interpret _).of_ok ran).distances
    | trailing _ ran => exact ((grows.respects_interpret _).of_ok ran).distances
  induction course with
  | refl => exact begun
  | tail _ step ih => exact step.distances.trans ih

namespace Session

variable {clock : Clock} {before : List Entry} {entry : Entry} {p : Program}

theorem le_nextId_later (s : Session) (later : List Entry) :
    s.nextId ≤ (s.afterAll later).nextId := by
  induction later generalizing s with
  | nil => exact Nat.le_refl _
  | cons entry later ih =>
    refine Nat.le_trans ?_ (ih (s.enter entry).2)
    rw [nextId_enter]
    exact entry.le_nextId s.nextId

/-- A program gets no distance for a number that was handed out before. -/
theorem getElem?_start (executes : ((initial clock).afterAll before).Executes entry p) {id : Nat}
    (old : id < ((initial clock).afterAll before).nextId) :
    (((initial clock).afterAll before).start p).distances[id]? =
      ((initial clock).afterAll before).machine.distances[id]? := by
  have union : (((initial clock).afterAll before).start p).distances[id]? =
      (p.resolve.distances[id]?).or ((initial clock).afterAll before).machine.distances[id]? :=
    Std.TreeMap.getElem?_union
  rw [union, executes.lawful.getElem?_distances_outside executes.resolved (.inl old),
    Option.none_or]

/-- A number that is handed out keeps its distance, or stays without one. -/
theorem getElem?_enter {id : Nat} (old : id < ((initial clock).afterAll before).nextId) :
    (((initial clock).afterAll before).enter entry).2.machine.distances[id]? =
      ((initial clock).afterAll before).machine.distances[id]? := by
  by_cases runs : ∃ p, ((initial clock).afterAll before).Executes entry p
  · obtain ⟨p, executes⟩ := runs
    rw [enter_machine executes, (grows.respects_program p _).distances]
    exact getElem?_start executes old
  · rw [enter_machine_idle (not_exists.mp runs)]

theorem getElem?_later (later : List Entry) {id : Nat}
    (old : id < ((initial clock).afterAll before).nextId) :
    ((initial clock).afterAll (before ++ later)).machine.distances[id]? =
      ((initial clock).afterAll before).machine.distances[id]? := by
  induction later generalizing before with
  | nil => rw [List.append_nil]
  | cons entry later ih =>
    have more : id < ((initial clock).afterAll (before ++ [entry])).nextId := by
      rw [afterAll_append]
      exact Nat.lt_of_lt_of_le old (le_nextId_later _ _)
    rw [List.append_cons, ih more, afterAll_concat, getElem?_enter old]

/-- A number with a distance was handed out. -/
theorem lt_nextId_of_getElem? {id d : Nat}
    (known : ((initial clock).afterAll before).machine.distances[id]? = some d) :
    id < ((initial clock).afterAll before).nextId := by
  refine Nat.lt_of_not_le fun above => ?_
  rw [(kept clock before).fresh id above] at known
  cases known

/-- What the resolver said of a use stays so. -/
theorem getElem?_executed (executes : ((initial clock).afterAll before).Executes entry p)
    {u : UseKind × Use} (mem : u ∈ p.uses) (later : List Entry) :
    u.2.id < ((initial clock).afterAll (before ++ entry :: later)).nextId ∧
      ((initial clock).afterAll (before ++ entry :: later)).machine.distances[u.2.id]? =
        p.resolve.distances[u.2.id]? := by
  have within := executes.lawful.ids.within u mem
  have here : u.2.id < ((initial clock).afterAll (before ++ [entry])).nextId := by
    rw [afterAll_concat, nextId_enter]
    exact within.2
  rw [List.append_cons]
  constructor
  · rw [afterAll_append]
    exact Nat.lt_of_lt_of_le here (le_nextId_later _ _)
  · rw [getElem?_later later here, afterAll_concat, enter_machine executes,
      (grows.respects_program p _).distances]
    change (((initial clock).afterAll before).machine.distances ∪ p.resolve.distances)[u.2.id]? = _
    rw [Std.TreeMap.getElem?_union, (kept clock before).fresh _ within.1, Option.or_none]

end Session

/-- The uses in the trees of any texts, parsed one after another, have different numbers, which in
each text rise in the order of the tokens, and an assignment has the use of the variable that is its
target. So no program replaces a distance that an earlier one has put down, and each use has what
the resolver said of it for good: between two entries of a session and at each moment of a later
run. -/
theorem ids_never_collide :
    (∀ firstId requests,
      (((Request.answers firstId requests).flatMap Program.uses).map (·.2.id)).Nodup) ∧
    (∀ (request : Request) firstId, ∃ us,
      ((request.parsed firstId).result.uses.map Prod.snd).Perm us ∧
      us.Pairwise (·.id < ·.id) ∧ (us.map (·.name)).Sublist request.tokens.body) ∧
    (∀ n s after target value, Syntax.assignment (Syntax.rules n) s = .ok (.assign target value) after →
      ∃ mid, Syntax.logicalOr (Syntax.rules n) s = .ok (.variable target) mid) ∧
    ∀ clock before, let s := (Session.initial clock).afterAll before
      (∀ later (id d : Nat), s.machine.distances[id]? = some d →
        (s.afterAll later).machine.distances[id]? = some d) ∧
      ∀ entry p, s.Executes entry p →
        (∀ id d : Nat, s.machine.distances[id]? = some d → p.resolve.distances[id]? = none) ∧
        ∀ later, ∀ u ∈ p.uses, let t := s.afterAll (entry :: later)
          t.machine.distances[u.2.id]? = p.resolve.distances[u.2.id]? ∧
          ∀ entry' q a, t.Executes entry' q → q.Reaches (t.start q) a →
            a.machine.distances[u.2.id]? = p.resolve.distances[u.2.id]? := by
  refine ⟨fun firstId requests => (Request.ids_answers firstId requests).2,
    fun request firstId => ?_, fun n s after target value => Syntax.target_of_assignment _, ?_⟩
  · obtain ⟨us, same, ordered, -, names⟩ := (request.numbered firstId).uses
    exact ⟨us, same, ordered, names⟩
  intro clock before s
  refine ⟨fun later id d known => ?_, fun entry p executes => ⟨fun id d known => ?_, ?_⟩⟩
  · rw [← Session.afterAll_append, Session.getElem?_later later (Session.lt_nextId_of_getElem? known)]
    exact known
  · have old := Session.lt_nextId_of_getElem? known
    exact executes.lawful.getElem?_distances_outside executes.resolved (.inl old)
  · intro later u mem
    obtain ⟨old, known⟩ := Session.getElem?_executed executes mem later
    dsimp only
    rw [← Session.afterAll_append]
    refine ⟨known, fun entry' q a executes' reaches => ?_⟩
    rw [reaches.distances, Session.getElem?_start executes' old]
    exact known

end Lox
