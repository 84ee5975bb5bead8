import Lox.Proofs.Grammar.Reading

/-!
# Parsers that report nothing

What holds of a parser whenever it succeeds and adds no error, built up along the parser.
-/

namespace Lox.Grammar

open Syntax

/-- Where the parser succeeds and adds no error, `Q` holds of the state that it found, of its result
and of the state that it left. -/
structure Finds (p : Parse α) (Q : ParseState → α → ParseState → Prop) : Prop where
  leads : Respects ParseState.Leads p
  found : ∀ {s a t}, p s = .ok a t → t.errors.length ≤ s.errors.length → Q s a t

namespace Finds

variable {p : Parse α} {f : α → Parse β} {Q Q' : ParseState → α → ParseState → Prop}
  {R R' : ParseState → β → ParseState → Prop}

theorem mono (h : Finds p Q) (sub : ∀ s a t, Q s a t → Q' s a t) : Finds p Q' :=
  ⟨h.leads, fun run clean => sub _ _ _ (h.found run clean)⟩

theorem pure (a : α) : Finds (pure a) fun s b t => b = a ∧ t = s :=
  ⟨onward.respects_pure a, fun run _ => by cases run; exact ⟨rfl, rfl⟩⟩

theorem raise (fault : SyntaxFault) : Finds (raise fault : Parse α) Q :=
  ⟨onward.respects_raise fault, fun run _ => by cases run⟩

theorem bind {R : α → ParseState → β → ParseState → Prop} (hp : Finds p Q)
    (hf : ∀ a, Finds (f a) (R a)) :
    Finds (p >>= f) fun s b t => ∃ a mid, Q s a mid ∧ mid.loopDepth = s.loopDepth ∧ R a mid b t := by
  refine ⟨onward.respects_bind hp.leads fun a => (hf a).leads, fun {s b t} run clean => ?_⟩
  obtain ⟨a, mid, first, second⟩ := bind_ok run
  have toMid := hp.leads.of_ok first
  have fromMid := (hf a).leads.of_ok second
  have := toMid.errors.length_le
  have := fromMid.errors.length_le
  exact ⟨a, mid, hp.found first (by omega), toMid.loopDepth, (hf a).found second (by omega)⟩

theorem map (g : α → β) (hp : Finds p Q) : Finds (g <$> p) fun s b t => ∃ a, Q s a t ∧ b = g a := by
  refine ⟨onward.respects_map g hp.leads, fun run clean => ?_⟩
  obtain ⟨a, first, rfl⟩ := map_ok run
  exact ⟨a, hp.found first clean, rfl⟩

theorem get {f : ParseState → Parse β} (hf : ∀ now, Finds (f now) fun s b t => s = now → R s b t) :
    Finds (get >>= f) R :=
  ⟨onward.respects_bind onward.respects_get fun s => (hf s).leads,
    fun run clean => (hf _).found run clean rfl⟩

theorem report {token : Token} {fault : SyntaxFault} :
    Finds (Syntax.report token fault) fun _ _ _ => False := by
  refine ⟨onward.respects_report token fault, fun run clean => ?_⟩
  cases run
  simp only [ParseState.report, List.length_append, List.length_singleton] at clean
  omega

def Next (test : TokenType → Bool) (s : ParseState) (word : Token) (t : ParseState) : Prop :=
  s.rest = word :: t.rest ∧ test word.type = true ∧ t.nextId = s.nextId

theorem acceptIf {test : TokenType → Bool} {f : Option Token → Parse β}
    {S : Token → ParseState → β → ParseState → Prop} (no : Finds (f none) R)
    (yes : ∀ word, Finds (f (some word)) (S word)) :
    Finds (acceptIf test >>= f) fun s b t =>
      ((∀ word rest, s.rest = word :: rest → test word.type = false) ∧ R s b t) ∨
        ∃ word mid, Next test s word mid ∧ mid.loopDepth = s.loopDepth ∧ S word mid b t := by
  refine ⟨onward.respects_bind (onward.respects_acceptIf test) fun word => ?_, ?_⟩
  · cases word with
    | none => exact no.leads
    | some word => exact (yes word).leads
  · intro s b t run clean
    obtain ⟨found, mid, read, second⟩ := bind_ok run
    cases found with
    | none =>
      obtain ⟨rfl, other⟩ := acceptIf_none read
      exact .inl ⟨other, no.found second clean⟩
    | some word =>
      obtain ⟨rest, split, fits, rfl⟩ := acceptIf_some read
      exact .inr ⟨word, { s with rest }, ⟨split, fits, rfl⟩, rfl, (yes word).found second clean⟩

theorem accept {type : TokenType} {f : Option Token → Parse β}
    {S : Token → ParseState → β → ParseState → Prop} (no : Finds (f none) R)
    (yes : ∀ word, Finds (f (some word)) (S word)) :
    Finds (accept type >>= f) fun s b t =>
      ((∀ word rest, s.rest = word :: rest → word.type ≠ type) ∧ R s b t) ∨
        ∃ word mid, (s.rest = word :: mid.rest ∧ word.type = type ∧ mid.nextId = s.nextId) ∧
          mid.loopDepth = s.loopDepth ∧ S word mid b t := by
  refine (acceptIf no yes).mono ?_
  rintro s b t (⟨other, found⟩ | ⟨word, mid, ⟨split, fits, same⟩, found⟩)
  · exact .inl ⟨fun word rest split => by simpa using other word rest split, found⟩
  · exact .inr ⟨word, mid, ⟨split, by simpa using fits, same⟩, found⟩

theorem expect (type : TokenType) (fault : SyntaxFault) :
    Finds (expect type fault) fun s word t =>
      s.rest = word :: t.rest ∧ word.type = type ∧ t.nextId = s.nextId := by
  refine ⟨onward.respects_expect type fault, fun run _ => ?_⟩
  obtain ⟨rest, split, fits, rfl⟩ := expect_ok run
  exact ⟨split, fits, rfl⟩

theorem newUse (name : Token) :
    Finds (newUse name) fun s u t =>
      u = ⟨s.nextId, name⟩ ∧ t.rest = s.rest ∧ t.nextId = s.nextId + 1 :=
  ⟨onward.respects_newUse name, fun run _ => by cases run; exact ⟨rfl, rfl, rfl⟩⟩

theorem insideLoop (hp : Finds p Q) :
    Finds (insideLoop p) fun s a t => ∃ after, Q { s with loopDepth := s.loopDepth + 1 } a after ∧
      t.rest = after.rest ∧ t.nextId = after.nextId := by
  refine ⟨onward.respects_insideLoop hp.leads, fun {s a t} run clean => ?_⟩
  unfold Syntax.insideLoop at run
  cases inner : p { s with loopDepth := s.loopDepth + 1 } with
  | ok b after => rw [inner] at run; cases run; exact ⟨after, hp.found inner clean, rfl, rfl⟩
  | error e after => rw [inner] at run; cases run

theorem insideFunction (hp : Finds p Q) :
    Finds (insideFunction p) fun s a t => ∃ after, Q { s with loopDepth := 0 } a after ∧
      t.rest = after.rest ∧ t.nextId = after.nextId := by
  refine ⟨onward.respects_insideFunction hp.leads, fun {s a t} run clean => ?_⟩
  unfold Syntax.insideFunction at run
  cases inner : p { s with loopDepth := 0 } with
  | ok b after => rw [inner] at run; cases run; exact ⟨after, hp.found inner clean, rfl, rfl⟩
  | error e after => rw [inner] at run; cases run

/-- What recovers from an error has reported it. -/
theorem recover (hp : Finds p Q) :
    Finds (recover p).toParse fun s found t => ∃ a, found = some a ∧ Q s a t := by
  refine ⟨onward.respects_recover hp.leads, fun {s found t} run clean => ?_⟩
  unfold Total.toParse Syntax.recover at run
  cases inner : p s with
  | ok a after => rw [inner] at run; cases run; exact ⟨a, rfl, hp.found inner clean⟩
  | error e after =>
    rw [inner] at run
    cases run
    have := hp.leads s
    rw [stateAfter_error inner] at this
    have := this.errors.length_le
    simp only [ParseState.report, List.length_append, List.length_singleton] at clean
    omega

end Finds

end Lox.Grammar
