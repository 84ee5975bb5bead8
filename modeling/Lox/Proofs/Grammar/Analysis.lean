import Lox.Proofs.Grammar.Rules

/-!
# What a form says of its phrases

Which phrases have a token, which cannot end in an open `if`, and which cannot begin with `else`:
each is read off the form, symbol by symbol.
-/

namespace Lox.Grammar

namespace Form

/-- Each phrase has a token. -/
def nonempty : Form → Bool
  | .token _ => true
  | .rule n => n != .program
  | .seq f g => f.nonempty || g.nonempty
  | .either f g => f.nonempty && g.nonempty
  | .optional _ => false
  | .many _ => false

/-- The symbols whose phrases may end in an open `if`. -/
def mayEndOpen : Symbol → Bool
  | .program | .declaration | .statement | .forStmt | .ifStmt | .whileStmt => true
  | _ => false

def closed : Form → Bool
  | .token _ => true
  | .rule n => !mayEndOpen n
  | .seq f g => g.closed && (f.closed || g.nonempty)
  | .either f g => f.closed && g.closed
  | .optional f => f.closed && !f.isElse
  | .many f => f.closed

/-- Statements stand only inside functions. -/
def sheltered : Form → Bool
  | .token _ => true
  | .rule n => match n with
    | .expr _ | .arguments | .parameters | .function | .varDecl | .exprStmt => true
    | _ => false
  | .seq f g => f.sheltered && g.sheltered
  | .either f g => f.sheltered && g.sheltered
  | .optional f => f.sheltered
  | .many f => f.sheltered

def mayBeginElse : Form → Bool
  | .token fits => fits .kwElse
  | .rule _ => false
  | .seq f g => f.mayBeginElse || (!f.nonempty && g.mayBeginElse)
  | .either f g => f.mayBeginElse || g.mayBeginElse
  | .optional f => f.mayBeginElse
  | .many f => f.mayBeginElse

end Form

theorem Symbol.form_nonempty {n : Symbol} (h : n ≠ .program) : n.form.nonempty = true := by
  cases n with
  | program => exact absurd rfl h
  | expr n => cases n <;> rfl
  | _ => rfl

theorem Symbol.form_closed {n : Symbol} (h : Form.mayEndOpen n = false) :
    n.form.closed = true := by
  cases n with
  | expr n => cases n <;> rfl
  | _ => first | rfl | cases h

theorem Symbol.form_mayBeginElse (n : Symbol) : n.form.mayBeginElse = false := by
  cases n with
  | expr n => cases n <;> rfl
  | _ => rfl

/-- A symbol with statements only inside functions is made of such symbols, or is one that begins a
function itself. -/
theorem Symbol.form_sheltered {n : Symbol} (h : (Form.rule n).sheltered = true) :
    n ≠ .breakStmt ∧
      (n.form.sheltered = true ∨ ∀ around wider, n.inLoop around = n.inLoop wider) := by
  cases n with
  | expr n => cases n <;> first | exact ⟨nofun, .inl rfl⟩ | exact ⟨nofun, .inr fun _ _ => rfl⟩
  | arguments | parameters | varDecl | exprStmt => exact ⟨nofun, .inl rfl⟩
  | function => exact ⟨nofun, .inr fun _ _ => rfl⟩
  | _ => cases h

theorem beginsElse_append {ts : List Token} (h : ts ≠ []) (us : List Token) :
    beginsElse (ts ++ us) = beginsElse ts := by
  cases ts with
  | nil => exact absurd rfl h
  | cons t ts => rfl

namespace Phrase

@[simp] theorem repeats_rule {n : Symbol} (p : Phrase (.rule n)) : p.repeats = 0 := by
  cases p
  rfl

theorem tokens_ne_nil {f : Form} (p : Phrase f) (h : f.nonempty = true) : p.tokens ≠ [] := by
  induction p with
  | token t _ => exact List.cons_ne_nil _ _
  | @rule n p ih => exact ih (Symbol.form_nonempty (by simpa [Form.nonempty] using h))
  | seq p q ihp ihq =>
    simp only [Form.nonempty, Bool.or_eq_true] at h
    rw [tokens, ne_eq, List.append_eq_nil_iff]
    rintro ⟨emptyFirst, emptySecond⟩
    exact h.elim (fun full => ihp full emptyFirst) fun full => ihq full emptySecond
  | left p ih => exact ih (by simp only [Form.nonempty, Bool.and_eq_true] at h; exact h.1)
  | right q ih => exact ih (by simp only [Form.nonempty, Bool.and_eq_true] at h; exact h.2)
  | none | some p | nil | cons p ps => cases h

theorem not_endsOpen {f : Form} (p : Phrase f) (h : f.closed = true) : ¬ p.EndsOpen := by
  induction p with
  | token t _ => exact id
  | @rule n p ih => exact ih (Symbol.form_closed (by simpa [Form.closed] using h))
  | seq p q ihp ihq =>
    simp only [Form.closed, Bool.and_eq_true, Bool.or_eq_true] at h
    rintro (openEnd | ⟨empty, openEnd⟩)
    · exact ihq h.1 openEnd
    · obtain closed | full := h.2
      · exact ihp closed openEnd
      · exact q.tokens_ne_nil full empty
  | left p ih => exact ih (by simp only [Form.closed, Bool.and_eq_true] at h; exact h.1)
  | right q ih => exact ih (by simp only [Form.closed, Bool.and_eq_true] at h; exact h.2)
  | none =>
    simp only [Form.closed, Bool.and_eq_true, Bool.not_eq_true'] at h
    simp [EndsOpen, h.2]
  | some p ih => exact ih (by simp only [Form.closed, Bool.and_eq_true] at h; exact h.1)
  | nil => exact id
  | cons p ps ihp ihps =>
    rintro (openEnd | ⟨-, openEnd⟩)
    · exact ihps h openEnd
    · exact ihp h openEnd

/-- Loops around a phrase do not matter to functions inside it. -/
theorem breaks_of_sheltered {f : Form} (p : Phrase f) (h : f.sheltered = true) {around : Bool}
    (hp : p.BreaksInLoops around) (wider : Bool) : p.BreaksInLoops wider := by
  induction p generalizing around wider with
  | token _ _ | none | nil => trivial
  | @rule n p ih =>
    obtain ⟨notBreak, inner | same⟩ := Symbol.form_sheltered h
    · exact ⟨fun isBreak => absurd isBreak notBreak, ih inner hp.2 _⟩
    · exact ⟨fun isBreak => absurd isBreak notBreak, same around wider ▸ hp.2⟩
  | seq p q ihp ihq =>
    simp only [Form.sheltered, Bool.and_eq_true] at h
    exact ⟨ihp h.1 hp.1 _, ihq h.2 hp.2 _⟩
  | left p ih => exact ih (by simp only [Form.sheltered, Bool.and_eq_true] at h; exact h.1) hp _
  | right q ih => exact ih (by simp only [Form.sheltered, Bool.and_eq_true] at h; exact h.2) hp _
  | some p ih => exact ih h hp _
  | cons p ps ihp ihps => exact ⟨ihp h hp.1 _, ihps h hp.2 _⟩

theorem mayBeginElse_of_begins {f : Form} (p : Phrase f) (h : beginsElse p.tokens = true) :
    f.mayBeginElse = true := by
  induction p with
  | token t fits =>
    have : t.type = .kwElse := by simpa [beginsElse, tokens] using h
    simpa [Form.mayBeginElse, this] using fits
  | @rule n p ih => rw [n.form_mayBeginElse] at ih; exact absurd (ih h) Bool.false_ne_true
  | @seq f g p q ihp ihq =>
    simp only [Form.mayBeginElse, Bool.or_eq_true, Bool.and_eq_true, Bool.not_eq_true']
    by_cases empty : p.tokens = []
    · refine .inr ⟨?_, ihq (by simpa [tokens, empty] using h)⟩
      exact Bool.eq_false_iff.mpr fun full => p.tokens_ne_nil full empty
    · refine .inl (ihp ?_)
      rwa [tokens, beginsElse_append empty] at h
  | left p ih => simp only [Form.mayBeginElse, ih h, Bool.true_or]
  | right q ih => simp only [Form.mayBeginElse, ih h, Bool.or_true]
  | none => cases h
  | some p ih => exact ih h
  | nil => cases h
  | cons p ps ihp ihps =>
    by_cases empty : p.tokens = []
    · exact ihps (by simpa [tokens, empty] using h)
    · exact ihp (by rwa [tokens, beginsElse_append empty] at h)

end Phrase

end Lox.Grammar
