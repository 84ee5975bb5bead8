import Lox.Proofs.Progress

/-!
# A text within a longer one

A parser that ends before the text does cannot see what stands after the text, and no parser looks
at the errors that were reported before. `Agree` says it of two parsers, one for the text and one
for the longer text, and is built up along the parsers.
-/

namespace Lox.Syntax

open Grammar

/-- What stands around a text: the errors before it, the tokens after it, and the line where these
end. -/
structure Surroundings where
  errors : List SyntaxError
  more : List Token
  endLine : Nat

/-- The place in a longer text that corresponds to a place in a part of it. -/
def ParseState.amid (s : ParseState) (c : Surroundings) : ParseState :=
  { s with rest := s.rest ++ c.more, endLine := c.endLine, errors := c.errors ++ s.errors }

namespace Surroundings

variable {c : Surroundings} {q q' : Prop} {s t : ParseState} {e : SyntaxError}

def Last (c : Surroundings) (s : ParseState) : Prop := c.more = [] ∧ c.endLine = s.endLine

/-- The next token, if there is one, is read as the end of the text is: where `q` holds, the token
after the text is such a token. -/
def Hidden (c : Surroundings) (q : Prop) (s : ParseState) : Prop :=
  s.rest ≠ [] ∨ c.Last s ∨ q

/-- What follows the text has no part in the result; in an error it has none only if it is not
next. -/
def Settled (c : Surroundings) (q : Prop) : EStateM.Result SyntaxError ParseState α → Prop
  | .ok _ t => c.Hidden q t
  | .error _ t => c.Hidden False t

def widen (c : Surroundings) :
    EStateM.Result SyntaxError ParseState α → EStateM.Result SyntaxError ParseState α
  | .ok a t => .ok a (t.amid c)
  | .error e t => .error e (t.amid c)

def Quiet (c : Surroundings) (test : TokenType → Bool) : Prop :=
  ∀ word rest, c.more = word :: rest → test word.type = false

def Closing (c : Surroundings) : Prop := ∃ word rest, c.more = word :: rest ∧ word.type = .semicolon

def Apart (c : Surroundings) : Prop := c.Quiet (· == .kwElse)

theorem Closing.quiet (h : c.Closing) {test : TokenType → Bool} (other : test .semicolon = false) :
    c.Quiet test := by
  obtain ⟨word, rest, split, type⟩ := h
  intro word' rest' split'
  rw [split] at split'
  cases split'
  rw [type]
  exact other

theorem Last.quiet (h : c.Last s) (test : TokenType → Bool) : c.Quiet test := by
  intro word rest split
  rw [h.1] at split
  cases split

theorem Last.of_leads (h : c.Last t) (leads : s.Leads t) : c.Last s :=
  ⟨h.1, h.2.trans leads.endLine⟩

theorem Hidden.mono (h : c.Hidden q s) (sub : q → q') : c.Hidden q' s := h.imp id (Or.imp id sub)

theorem Hidden.of_leads (h : c.Hidden q t) (leads : s.Leads t) : c.Hidden q s := by
  obtain more | last | holds := h
  · refine .inl fun ended => more ?_
    have := leads.rest
    rw [ended] at this
    exact List.eq_nil_of_suffix_nil this
  · exact .inr (.inl (last.of_leads leads))
  · exact .inr (.inr holds)

theorem Settled.hidden {p : Parse α} (h : c.Settled q (p s)) (leads : Respects ParseState.Leads p) :
    c.Hidden q s := by
  cases run : p s with
  | ok a t =>
    rw [run] at h
    exact Hidden.of_leads h (leads.of_ok run)
  | error e t =>
    rw [run] at h
    have toEnd := leads s
    rw [stateAfter_error run] at toEnd
    exact (Hidden.of_leads h toEnd).mono False.elim

/-- A parser that reads a token ends after the place where it began. -/
theorem Settled.hidden_of_advances {p : Parse α} (h : c.Settled q (p s))
    (leads : Respects ParseState.Leads p) (advances : Advances p) : c.Hidden False s := by
  by_cases ended : s.rest = []
  · refine Settled.hidden (q := False) ?_ leads
    cases run : p s with
    | ok a t => exact absurd run (advances.at_end ended)
    | error e t => rwa [run] at h
  · exact .inl ended

/-- Where a token is asked for at the end of the text, what follows it passes no such test. -/
theorem Settled.quiet {p : Parse α} {test : TokenType → Bool} (h : c.Settled q (p s))
    (ended : s.rest = []) (leads : Respects ParseState.Leads p)
    (asked : (q → c.Quiet test) ∨ Advances p) : c.Quiet test := by
  obtain sub | advances := asked
  · obtain more | last | holds := h.hidden leads
    · exact absurd ended more
    · exact last.quiet test
    · exact sub holds
  · obtain more | last | none := h.hidden_of_advances leads advances
    · exact absurd ended more
    · exact last.quiet test
    · exact none.elim

theorem Settled.mono {result : EStateM.Result SyntaxError ParseState α}
    (h : c.Settled q result) (sub : q → q') : c.Settled q' result := by
  cases result with
  | ok a t => exact Hidden.mono h sub
  | error e t => exact h

end Surroundings

namespace ParseState

variable {c : Surroundings} {q : Prop} {s : ParseState}

theorem amid_report (s : ParseState) (e : SyntaxError) :
    (s.report e).amid c = (s.amid c).report e := by
  simp only [report, amid, List.append_assoc]

theorem amid_of_cons {word : Token} {rest : List Token} (here : s.rest = word :: rest) :
    (s.amid c).rest = word :: (rest ++ c.more) := by
  rw [amid, here]
  rfl

theorem amid_of_last (last : c.Last s) : (s.amid c).rest = s.rest := by
  rw [amid, last.1]
  exact List.append_nil _

@[simp] theorem amid_loopDepth (s : ParseState) : (s.amid c).loopDepth = s.loopDepth := rfl

theorem peek_amid (h : c.Hidden False s) : (s.amid c).peek = s.peek := by
  obtain more | last | none := h
  · obtain ⟨word, rest, here⟩ := List.exists_cons_of_ne_nil more
    rw [peek, amid_of_cons here, peek, here]
    rfl
  · rw [peek, amid_of_last last, peek]
    exact congrArg (fun line => s.rest.headD (.eof line)) last.2
  · exact none.elim

theorem head?_amid (h : c.Hidden False s) : (s.amid c).rest.head? = s.rest.head? := by
  obtain more | last | none := h
  · obtain ⟨word, rest, here⟩ := List.exists_cons_of_ne_nil more
    rw [amid_of_cons here, here]
    rfl
  · rw [amid_of_last last]
  · exact none.elim

theorem nextIs_amid (h : c.Hidden False s) (type : TokenType) :
    (s.amid c).nextIs type = s.nextIs type := by
  rw [nextIs, head?_amid h]
  rfl

theorem atEnd_amid (h : c.Hidden False s) : (s.amid c).atEnd = s.atEnd := by
  have ends (s : ParseState) : s.atEnd = true ↔ s.rest.head? = none :=
    List.isEmpty_iff.trans List.head?_eq_none_iff.symm
  rw [Bool.eq_iff_iff, ends, ends, head?_amid h]

end ParseState

/-! ### What is skipped -/

theorem toBoundary_append {previous : Token} {ts : List Token} (more : List Token)
    (stops : toBoundary previous ts ≠ []) :
    toBoundary previous (ts ++ more) = toBoundary previous ts ++ more := by
  induction ts generalizing previous with
  | nil => exact absurd rfl stops
  | cons t rest ih =>
    rw [List.cons_append]
    unfold toBoundary at stops ⊢
    split
    · rfl
    next notHere => exact ih (by rwa [if_neg notHere] at stops)

/-- Where skipping stops within a text, it stops there in a longer text. -/
theorem synchronize_append {ts : List Token} (more : List Token) (stops : synchronize ts ≠ []) :
    synchronize (ts ++ more) = synchronize ts ++ more := by
  cases ts with
  | nil => exact absurd rfl stops
  | cons t rest => exact toBoundary_append more stops

/-! ### Parsers that agree -/

open Surroundings

/-- What `p` does at a place of the text, `p'` does there in the longer text, if the result is
settled. -/
def AgreeAt (c : Surroundings) (q : Prop) (p p' : Parse α) (s : ParseState) : Prop :=
  c.Settled q (p s) → p' (s.amid c) = c.widen (p s)

/-- Two parsers agree wherever at most `k` tokens of the text are left. -/
structure Agree (c : Surroundings) (q : Prop) (k : Nat) (p p' : Parse α) : Prop where
  onward : Respects ParseState.Leads p
  same : ∀ s : ParseState, s.rest.length ≤ k → AgreeAt c q p p' s

namespace AgreeAt

variable {c : Surroundings} {q q₁ : Prop} {p p' : Parse α} {f f' : α → Parse β} {s : ParseState}

theorem bind (hp : AgreeAt c q₁ p p' s) (leads : ∀ a, Respects ParseState.Leads (f a))
    (hf : ∀ a t, p s = .ok a t → AgreeAt c q (f a) (f' a) t)
    (ends : (q → q₁) ∨ ∀ a, Advances (f a)) : AgreeAt c q (p >>= f) (p' >>= f') s := by
  intro settled
  cases first : p s with
  | error e t =>
    rw [bind_of_error first] at settled ⊢
    have same := hp (by rw [first]; exact settled)
    rw [first] at same
    exact bind_of_error same
  | ok a t =>
    rw [bind_of_ok first] at settled ⊢
    have hidden : c.Hidden q₁ t := by
      obtain sub | advances := ends
      · exact (settled.hidden (leads a)).mono sub
      · exact (settled.hidden_of_advances (leads a) (advances a)).mono False.elim
    have same := hp (by rw [first]; exact hidden)
    rw [first] at same
    rw [bind_of_ok same]
    exact hf a t first settled

/-- Where nothing is left, both parsers miss the same. -/
theorem ended {fault : SyntaxFault} (here : s.rest = [])
    (first : p s = .error ⟨s.peek, fault⟩ s)
    (second : (s.amid c).rest = [] → p' (s.amid c) = .error ⟨(s.amid c).peek, fault⟩ (s.amid c)) :
    AgreeAt c q p p' s := by
  intro settled
  rw [first] at settled ⊢
  obtain more | last | none := settled
  · exact absurd here more
  · have there : (s.amid c).rest = [] := by rw [ParseState.amid_of_last last, here]
    rw [second there, ParseState.peek_amid (.inr (.inl last))]
    rfl
  · exact none.elim

theorem read {test : TokenType → Bool} {f f' : Option Token → Parse β} {word : Token}
    {rest : List Token} (here : s.rest = word :: rest) (fits : test word.type = true)
    (hf : AgreeAt c q (f (some word)) (f' (some word)) { s with rest }) :
    AgreeAt c q (acceptIf test >>= f) (acceptIf test >>= f') s := by
  intro settled
  rw [bind_of_ok (acceptIf_of_some here fits)] at settled ⊢
  rw [bind_of_ok (acceptIf_of_some (ParseState.amid_of_cons here) fits)]
  exact hf settled

end AgreeAt

namespace Agree

variable {c : Surroundings} {q q₁ : Prop} {j k : Nat} {p p' : Parse α} {f f' : α → Parse β}

theorem mono (h : Agree c q k p p') (le : j ≤ k) (sub : q₁ → q) : Agree c q₁ j p p' :=
  ⟨h.onward, fun s short settled => h.same s (Nat.le_trans short le) (settled.mono sub)⟩

/-- What does not end with the text cannot see what follows it. -/
theorem hide (h : Agree c q k p p') : Agree c False k p p' := h.mono (Nat.le_refl k) False.elim

theorem pure (a : α) : Agree c q k (pure a : Parse α) (pure a) :=
  ⟨Syntax.onward.respects_pure a, fun _ _ _ => rfl⟩

theorem raise (fault : SyntaxFault) : Agree c q k (raise fault : Parse α) (raise fault) := by
  refine ⟨Syntax.onward.respects_raise fault, fun s _ settled => ?_⟩
  change EStateM.Result.error (⟨(s.amid c).peek, fault⟩ : SyntaxError) (s.amid c) = _
  rw [ParseState.peek_amid settled]
  rfl

theorem report (token : Token) (fault : SyntaxFault) :
    Agree c q k (report token fault) (report token fault) :=
  ⟨Syntax.onward.respects_report token fault, fun s _ _ =>
    congrArg (EStateM.Result.ok ()) (ParseState.amid_report s ⟨token, fault⟩).symm⟩

theorem newUse (name : Token) : Agree c q k (newUse name) (newUse name) :=
  ⟨Syntax.onward.respects_newUse name, fun _ _ _ => rfl⟩

/-- The continuation is entered with at most `j` tokens left. -/
theorem bindTo (hp : Agree c q₁ k p p') (hf : ∀ a, Agree c q j (f a) (f' a))
    (shrinks : ∀ s t a, s.rest.length ≤ k → p s = .ok a t → t.rest.length ≤ j)
    (ends : (q → q₁) ∨ ∀ a, Advances (f a)) : Agree c q k (p >>= f) (p' >>= f') :=
  ⟨Syntax.onward.respects_bind hp.onward fun a => (hf a).onward, fun s short =>
    (hp.same s short).bind (fun a => (hf a).onward)
      (fun a t first => (hf a).same t (shrinks s t a short first)) ends⟩

theorem length_of_ok (hp : Agree c q k p p') (s t : ParseState) (a : α) (short : s.rest.length ≤ k)
    (read : p s = .ok a t) : t.rest.length ≤ k :=
  Nat.le_trans (hp.onward.of_ok read).length short

/-- The first parser sees of what follows the text no more than the second. -/
theorem bind (hp : Agree c q₁ k p p') (hf : ∀ a, Agree c q k (f a) (f' a)) (sub : q → q₁) :
    Agree c q k (p >>= f) (p' >>= f') :=
  hp.bindTo hf hp.length_of_ok (.inl sub)

/-- The second parser reads a token, so the first ends before the text does. -/
theorem before (hp : Agree c q₁ k p p') (hf : ∀ a, Agree c q k (f a) (f' a))
    (advances : ∀ a, Advances (f a)) : Agree c q k (p >>= f) (p' >>= f') :=
  hp.bindTo hf hp.length_of_ok (.inr advances)

theorem map (g : α → β) (hp : Agree c q k p p') : Agree c q k (g <$> p) (g <$> p') := by
  rw [map_eq_pure_bind, map_eq_pure_bind]
  exact hp.bind (fun a => .pure (g a)) id

/-- A parser that looks at the next token; once it has read one, a token less is left. -/
theorem accepting {test : TokenType → Bool} {f f' : Option Token → Parse β}
    (leads : Respects ParseState.Leads (acceptIf test >>= f))
    (no : Agree c q k (f none) (f' none))
    (yes : ∀ word i, i < k → Agree c q i (f (some word)) (f' (some word)))
    (quiet : (q → c.Quiet test) ∨ Advances (f none)) :
    Agree c q k (acceptIf test >>= f) (acceptIf test >>= f') := by
  refine ⟨leads, fun s short => ?_⟩
  have stays (first : acceptIf test s = .ok none s)
      (second : acceptIf test (s.amid c) = .ok none (s.amid c)) :
      AgreeAt c q (acceptIf test >>= f) (acceptIf test >>= f') s := by
    intro settled
    rw [bind_of_ok first] at settled ⊢
    rw [bind_of_ok second]
    exact no.same s short settled
  cases here : s.rest with
  | cons word rest =>
    cases fits : test word.type with
    | true =>
      rw [here] at short
      exact .read here fits ((yes word rest.length short).same _ (Nat.le_refl _))
    | false =>
      refine stays (acceptIf_of_none ?_) (acceptIf_of_none ?_)
      · rw [here]
        rintro _ _ ⟨⟩
        exact fits
      · rw [ParseState.amid_of_cons here]
        rintro _ _ ⟨⟩
        exact fits
  | nil =>
    have first : acceptIf test s = .ok none s := acceptIf_of_none (by rw [here]; nofun)
    -- At the end of the text what follows it is asked; where that is settled, the answer is no.
    intro settled
    have after : c.Settled q (f none s) := by rwa [bind_of_ok first] at settled
    refine stays first (acceptIf_of_none ?_) settled
    intro word rest split
    rw [ParseState.amid, here] at split
    exact after.quiet here no.onward quiet word rest split

theorem onward_accepting {test : TokenType → Bool} {f : Option Token → Parse β}
    (no : Respects ParseState.Leads (f none))
    (yes : ∀ word, Respects ParseState.Leads (f (some word))) :
    Respects ParseState.Leads (acceptIf test >>= f) := by
  refine Syntax.onward.respects_bind (Syntax.onward.respects_acceptIf test) fun word => ?_
  cases word with
  | none => exact no
  | some word => exact yes word

/-- What is entered through a token need agree only where a token less is left. -/
theorem entering {test : TokenType → Bool} {f f' : Option Token → Parse β}
    (no : Agree c q (k + 1) (f none) (f' none))
    (yes : ∀ word, Agree c q k (f (some word)) (f' (some word)))
    (quiet : (q → c.Quiet test) ∨ Advances (f none)) :
    Agree c q (k + 1) (acceptIf test >>= f) (acceptIf test >>= f') := by
  refine accepting ?_ no (fun word i less => (yes word).mono (Nat.le_of_lt_succ less) id) quiet
  exact onward_accepting no.onward fun word => (yes word).onward

/-- The same where what is entered agrees no less than what is entered without a token. -/
theorem choosing {test : TokenType → Bool} {f f' : Option Token → Parse β}
    (no : Agree c q k (f none) (f' none))
    (yes : ∀ word, Agree c q k (f (some word)) (f' (some word)))
    (quiet : (q → c.Quiet test) ∨ Advances (f none)) :
    Agree c q k (acceptIf test >>= f) (acceptIf test >>= f') := by
  refine accepting ?_ no (fun word i less => (yes word).mono (Nat.le_of_lt less) id) quiet
  exact onward_accepting no.onward fun word => (yes word).onward

theorem expect (type : TokenType) (fault : SyntaxFault) :
    Agree c q k (expect type fault) (expect type fault) :=
  choosing (.raise fault) .pure (.inr (.raise fault))

/-- The second parser begins with a token of this kind, so the first ends before the text does. -/
theorem upTo {type : TokenType} {fault : SyntaxFault} {f f' : α → Token → Parse β}
    (hp : Agree c q₁ k p p') (hf : ∀ a word, Agree c q k (f a word) (f' a word)) :
    Agree c q k (p >>= fun a => Syntax.expect type fault >>= f a)
      (p' >>= fun a => Syntax.expect type fault >>= f' a) :=
  hp.before (fun a => (expect type fault).bind (hf a) id) fun a =>
    (Advances.expect type fault).bind fun word => (hf a word).onward

theorem get {f f' : ParseState → Parse β} (leads : Respects ParseState.Leads (MonadState.get >>= f))
    (h : ∀ s : ParseState, s.rest.length ≤ k → c.Hidden q s →
      AgreeAt c q (f s) (f' (s.amid c)) s) :
    Agree c q k (MonadState.get >>= f) (MonadState.get >>= f') :=
  ⟨leads, fun s short settled => h s short (settled.hidden leads) settled⟩

section Totals

variable {p p' : Total α}

/-- Parsers that raise nothing agree where the state that is left cannot see what follows. -/
theorem total (leads : Respects ParseState.Leads p.toParse)
    (h : ∀ s : ParseState, s.rest.length ≤ k → c.Hidden q (p s).2 →
      p' (s.amid c) = ((p s).1, (p s).2.amid c)) :
    Agree c q k p.toParse p'.toParse := by
  refine ⟨leads, fun s short settled => ?_⟩
  unfold Total.toParse
  rw [h s short settled]
  rfl

theorem of_total (h : Agree c q k p.toParse p'.toParse) {s : ParseState}
    (short : s.rest.length ≤ k) (hidden : c.Hidden q (p s).2) :
    p' (s.amid c) = ((p s).1, (p s).2.amid c) := by
  have same := h.same s short hidden
  unfold Total.toParse at same
  dsimp only [widen] at same
  injection same with result state
  exact Prod.ext result state

end Totals

end Agree

end Lox.Syntax
