import Lox.Proofs.Code
import Lox.Proofs.ParseRelation

/-!
# What parsers number

`Numbers` says which uses a parser leaves in its tree: each with a number that it handed out, in the
order in which their tokens were read. It holds of every text, also where an error drops a tree.
-/

namespace Lox

/-! ### Operators that have a meaning -/

/-- The operators that are read between two operands, but for `and` and `or`. -/
def isBinary : TokenType → Bool
  | .star | .slash | .minus | .plus | .greater | .greaterEqual | .less | .lessEqual
  | .bangEqual | .equalEqual => true
  | _ => false

/-- An operator in front of this piece of code, if there is one, has a meaning. -/
def Code.KnownOperator : Code → Prop
  | .expr (.unary operator _) => Syntax.isUnary operator.type
  | .expr (.binary _ operator _) => isBinary operator.type
  | .expr (.logical _ operator _) => operator.type = .kwAnd ∨ operator.type = .kwOr
  | _ => True

inductive Code.KnownOperators : Code → Prop
  | intro {c} : c.KnownOperator → (∀ d ∈ c.parts, KnownOperators d) → KnownOperators c

theorem Code.KnownOperators.here {c : Code} (h : c.KnownOperators) : c.KnownOperator := by
  cases h with
  | intro here _ => exact here

theorem Code.KnownOperators.part {c d : Code} (h : c.KnownOperators) (mem : d ∈ c.parts) :
    d.KnownOperators := by
  cases h with
  | intro _ parts => exact parts d mem

/-- Pieces of code with known operators, whose uses were numbered in this order. -/
structure Made (codes : List Code) (uses : List (UseKind × Use)) (us : List Use) : Prop where
  uses : (uses.map Prod.snd).Perm us
  known : ∀ c ∈ codes, c.KnownOperators

namespace Made

variable {codes codes' : List Code} {kinds kinds' : List (UseKind × Use)} {us vs : List Use}

theorem nil : Made [] [] [] := ⟨.nil, nofun⟩

theorem append (h : Made codes kinds us) (h' : Made codes' kinds' vs) :
    Made (codes ++ codes') (kinds ++ kinds') (us ++ vs) := by
  constructor
  · rw [List.map_append]
    exact h.uses.append h'.uses
  · intro c mem
    rcases List.mem_append.mp mem with mem | mem
    · exact h.known c mem
    · exact h'.known c mem

theorem code {c : Code} (h : Made c.parts kinds us) (known : c.KnownOperator) :
    Made [c] kinds us := by
  refine ⟨h.uses, fun d mem => ?_⟩
  rw [List.mem_singleton.mp mem]
  exact .intro known h.known

theorem expr (e : Expr) (known : Code.KnownOperator (.expr e)) (h : Made e.parts e.uses us) :
    Made [.expr e] e.uses us := Made.code (c := .expr e) h known

theorem stmt (t : Stmt) (h : Made t.parts t.uses us) : Made [.stmt t] t.uses us :=
  Made.code (c := .stmt t) h trivial

/-- A tree may hold its uses in another order than that of the text. -/
theorem reorder (h : Made codes kinds us) (same : kinds.Perm kinds')
    (sub : ∀ c ∈ codes', c ∈ codes) : Made codes' kinds' us :=
  ⟨(same.map _).symm.trans h.uses, fun c mem => h.known c (sub c mem)⟩

end Made

namespace Syntax

/-! ### States along a text -/

/-- From one state to a later one these uses were numbered, in the order of their tokens. -/
structure Takes (s after : ParseState) (us : List Use) : Prop where
  nextId : s.nextId ≤ after.nextId
  within : ∀ u ∈ us, s.nextId ≤ u.id ∧ u.id < after.nextId
  ordered : us.Pairwise (·.id < ·.id)
  tokens : ∃ read, s.rest = read ++ after.rest ∧ (us.map (·.name)).Sublist read

namespace Takes

variable {s mid after : ParseState} {us vs : List Use}

theorem none (h : s.Leads after) : Takes s after [] := by
  obtain ⟨read, split⟩ := h.rest
  exact ⟨h.nextId, nofun, .nil, read, split.symm, List.nil_sublist _⟩

theorem refl (s : ParseState) : Takes s s [] := none (onward.refl s)

theorem trans (h : Takes s mid us) (h' : Takes mid after vs) : Takes s after (us ++ vs) := by
  obtain ⟨read, split, sub⟩ := h.tokens
  obtain ⟨read', split', sub'⟩ := h'.tokens
  have first := h.nextId
  have second := h'.nextId
  refine ⟨Nat.le_trans first second, ?_, ?_, read ++ read', ?_, ?_⟩
  · intro u mem
    rcases List.mem_append.mp mem with mem | mem
    · have := h.within u mem
      omega
    · have := h'.within u mem
      omega
  · refine List.pairwise_append.mpr ⟨h.ordered, h'.ordered, fun u hu v hv => ?_⟩
    have := h.within u hu
    have := h'.within v hv
    omega
  · rw [split, split', List.append_assoc]
  · rw [List.map_append]
    exact sub.append sub'

/-- A tree that is dropped takes its uses along. -/
theorem drop (h : Takes s after us) (sub : vs.Sublist us) : Takes s after vs := by
  obtain ⟨read, split, names⟩ := h.tokens
  exact ⟨h.nextId, fun u mem => h.within u (sub.subset mem), h.ordered.sublist sub, read, split,
    (sub.map _).trans names⟩

/-- The loops around a place and the errors do not matter. -/
theorem congr {s' after' : ParseState} (h : Takes s after us) (rest : s'.rest = s.rest)
    (nextId : s'.nextId = s.nextId) (rest' : after'.rest = after.rest)
    (nextId' : after'.nextId = after.nextId) : Takes s' after' us := by
  obtain ⟨read, split, names⟩ := h.tokens
  refine ⟨?_, ?_, h.ordered, read, ?_, names⟩
  · rw [nextId, nextId']
    exact h.nextId
  · rw [nextId, nextId']
    exact h.within
  · rw [rest, rest']
    exact split

/-- A use is numbered after its token is read. -/
theorem number {t : Token} {rest : List Token} (split : s.rest = t :: rest)
    (h : Takes { s with rest } after []) :
    Takes s { after with nextId := after.nextId + 1 } [⟨after.nextId, t⟩] := by
  obtain ⟨read, later, -⟩ := h.tokens
  refine ⟨Nat.le_succ_of_le h.nextId, ?_, List.pairwise_singleton _ _, t :: read, ?_, ?_⟩
  · intro u mem
    obtain rfl := List.mem_singleton.mp mem
    exact ⟨h.nextId, Nat.lt_succ_self _⟩
  · rw [split]
    exact congrArg (t :: ·) later
  · exact (List.nil_sublist read).cons_cons t

end Takes

/-! ### Parsers -/

/-- After the uses `us`, a parser adds those that it numbers. -/
def Numbers (us : List Use) (p : Parse α) (s : ParseState) (Q : α → List Use → Prop) : Prop :=
  ∀ a after, p s = .ok a after → ∃ vs, Takes s after vs ∧ Q a (us ++ vs)

def NumbersAll (p : Total α) (s : ParseState) (Q : α → List Use → Prop) : Prop :=
  ∃ us, Takes s (p s).2 us ∧ Q (p s).1 us

namespace Numbers

variable {us : List Use} {p : Parse α} {f : α → Parse β} {s : ParseState}
  {Q : α → List Use → Prop} {S : β → List Use → Prop}

theorem pure {a : α} (h : Q a us) : Numbers us (pure a) s Q := by
  intro b after ran
  cases ran
  exact ⟨[], .refl s, by rwa [List.append_nil]⟩

theorem raise (fault : SyntaxFault) : Numbers us (raise fault : Parse α) s Q := nofun

theorem bind (hp : Numbers [] p s Q)
    (hf : ∀ a vs after, Q a vs → Numbers (us ++ vs) (f a) after S) : Numbers us (p >>= f) s S := by
  intro b after ran
  obtain ⟨a, mid, first, second⟩ := bind_ok ran
  obtain ⟨vs, taken, result⟩ := hp a mid first
  obtain ⟨ws, taken', result'⟩ := hf a vs mid result b after second
  exact ⟨vs ++ ws, taken.trans taken', by rwa [← List.append_assoc]⟩

theorem map {g : α → β} (hp : Numbers [] p s Q) (sub : ∀ a vs, Q a vs → S (g a) (us ++ vs)) :
    Numbers us (g <$> p) s S := by
  rw [map_eq_pure_bind]
  exact hp.bind fun a vs after result => .pure (sub a vs result)

theorem skip (hp : Respects ParseState.Leads p) (hf : ∀ a after, Numbers us (f a) after S) :
    Numbers us (p >>= f) s S := by
  intro b after ran
  obtain ⟨a, mid, first, second⟩ := bind_ok ran
  obtain ⟨ws, taken, result⟩ := hf a mid b after second
  exact ⟨ws, (Takes.none (hp.of_ok first)).trans taken, result⟩

theorem get {g : ParseState → Parse β} (h : Numbers us (g s) s S) :
    Numbers us (MonadState.get >>= g) s S := h

theorem insideLoop (h : ∀ s, Numbers us p s Q) : Numbers us (insideLoop p) s Q := by
  intro a after ran
  unfold Syntax.insideLoop at ran
  split at ran <;> cases ran
  next ran =>
    obtain ⟨vs, taken, result⟩ := h _ _ _ ran
    exact ⟨vs, taken.congr rfl rfl rfl rfl, result⟩

theorem insideFunction (h : ∀ s, Numbers us p s Q) : Numbers us (insideFunction p) s Q := by
  intro a after ran
  unfold Syntax.insideFunction at ran
  split at ran <;> cases ran
  next ran =>
    obtain ⟨vs, taken, result⟩ := h _ _ _ ran
    exact ⟨vs, taken.congr rfl rfl rfl rfl, result⟩

theorem toParse {p : Total α} (h : NumbersAll p s Q) : Numbers [] p.toParse s Q := by
  intro a after ran
  cases ran
  exact h

/-- What is not read without an error is dropped. -/
theorem recover {S : Option α → List Use → Prop} (h : Numbers [] p s Q)
    (leads : Respects ParseState.Leads p) (none : S none [])
    (some : ∀ a vs, Q a vs → S (some a) vs) : NumbersAll (recover p) s S := by
  have whole := onward.respects_recover leads s
  unfold NumbersAll
  unfold Syntax.recover at whole ⊢
  cases ran : p s with
  | ok a after =>
    obtain ⟨vs, taken, result⟩ := h a after ran
    exact ⟨vs, taken, some a vs result⟩
  | error e after =>
    rw [ran] at whole
    exact ⟨[], .none whole, none⟩

end Numbers

end Syntax

end Lox
