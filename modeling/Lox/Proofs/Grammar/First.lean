import Lox.Proofs.Grammar.Analysis

/-!
# First tokens

The kinds of token with which the phrases of each symbol may begin, and what may follow a `fun` that
comes first.
-/

namespace Lox.Grammar

def startsPrimary (type : TokenType) : Bool :=
  isNumber type || isString type ||
    [.kwTrue, .kwFalse, .kwNil, .kwThis, .identifier, .leftParen, .kwSuper, .kwFun].contains type

def startsExpression (type : TokenType) : Bool :=
  startsPrimary type || [.bang, .minus].contains type

def startsStatement (type : TokenType) : Bool :=
  [.kwFor, .kwIf, .kwPrint, .kwReturn, .kwWhile, .kwBreak, .leftBrace].contains type

def Symbol.first : Symbol → TokenType → Bool
  | .program, type | .declaration, type =>
    startsExpression type || startsStatement type || [.kwClass, .kwFun, .kwVar].contains type
  | .statement, type => startsExpression type || startsStatement type
  | .classDecl, type => type == .kwClass
  | .funDecl, type => type == .kwFun
  | .varDecl, type => type == .kwVar
  | .exprStmt, type | .arguments, type => startsExpression type
  | .forStmt, type => type == .kwFor
  | .ifStmt, type => type == .kwIf
  | .printStmt, type => type == .kwPrint
  | .returnStmt, type => type == .kwReturn
  | .whileStmt, type => type == .kwWhile
  | .breakStmt, type => type == .kwBreak
  | .function, type | .parameters, type => type == .identifier
  | .block, type => type == .leftBrace
  | .expr .primary, type | .expr .call, type => startsPrimary type
  | .expr _, type => startsExpression type

def Form.first : Form → TokenType → Bool
  | .token fits, type => fits type
  | .rule n, type => n.first type
  | .seq f g, type => f.first type || (!f.nonempty && g.first type)
  | .either f g, type => f.first type || g.first type
  | .optional f, type => f.first type
  | .many f, type => f.first type

theorem Symbol.first_of_form (n : Symbol) (type : TokenType) (h : n.form.first type = true) :
    n.first type = true := by
  cases n with
  | expr n => cases n <;> cases type <;> first | rfl | cases h
  | _ => cases type <;> first | rfl | cases h

namespace Phrase

theorem first_token {f : Form} (p : Phrase f) {t : Token} {ts : List Token}
    (h : p.tokens = t :: ts) : f.first t.type = true := by
  induction p generalizing ts with
  | token word fits => cases h; exact fits
  | @rule n p ih => exact n.first_of_form _ (ih h)
  | @seq f g p q ihp ihq =>
    simp only [Form.first, Bool.or_eq_true, Bool.and_eq_true, Bool.not_eq_true']
    cases hp : p.tokens with
    | nil =>
      rw [tokens, hp] at h
      exact .inr ⟨Bool.eq_false_iff.mpr fun full => p.tokens_ne_nil full hp, ihq h⟩
    | cons t' ts' =>
      rw [tokens, hp] at h
      cases h
      exact .inl (ihp hp)
  | left p ih => simp only [Form.first, ih h, Bool.true_or]
  | right q ih => simp only [Form.first, ih h, Bool.or_true]
  | none => cases h
  | some p ih => exact ih h
  | nil => cases h
  | cons p ps ihp ihps =>
    cases hp : p.tokens with
    | nil =>
      rw [tokens, hp] at h
      exact ihps h
    | cons t' ts' =>
      rw [tokens, hp] at h
      cases h
      exact ihp hp

/-- A phrase that has a token begins with one of the first tokens of its form. -/
theorem exists_first {f : Form} (full : f.nonempty = true) (p : Phrase f) :
    ∃ t ts, p.tokens = t :: ts ∧ f.first t.type = true := by
  cases hp : p.tokens with
  | nil => exact absurd hp (p.tokens_ne_nil full)
  | cons t ts => exact ⟨t, ts, rfl, p.first_token hp⟩

end Phrase

/-! ### A function without a name -/

/-- Whether `fun` comes first and no token other than a name follows it. -/
def beginsFunction : List Token → Bool
  | [] => false
  | [t] => t.type == .kwFun
  | t :: u :: _ => t.type == .kwFun && u.type == .identifier

theorem beginsFunction_append {ts : List Token} (full : ts ≠ []) (h : beginsFunction ts = false)
    (us : List Token) : beginsFunction (ts ++ us) = false := by
  match ts, us, full, h with
  | [t], [], _, h => exact h
  | [t], u :: us, _, h => simp only [beginsFunction] at h; simp [beginsFunction, h]
  | t :: u :: ts, us, _, h => exact h

def Form.nameless : Form → Bool
  | .token fits => !fits .kwFun
  | .rule n => n != .program && n != .declaration && n != .funDecl
  | .seq (.token fits) (.seq (.token next) _) => !fits .kwFun || !next .identifier
  | .seq f g => f.nameless && (f.nonempty || g.nameless)
  | .either f g => f.nameless && g.nameless
  | .optional f => f.nameless
  | .many f => f.nameless

theorem Symbol.form_nameless {n : Symbol} (h : (Form.rule n).nameless = true) :
    n.form.nameless = true := by
  cases n with
  | expr n => cases n <;> rfl
  | _ => first | rfl | cases h

theorem Phrase.not_beginsFunction {f : Form} (p : Phrase f) (h : f.nameless = true) :
    beginsFunction p.tokens = false := by
  induction p with
  | token t fits =>
    simp only [Form.nameless, Bool.not_eq_true'] at h
    refine Bool.eq_false_iff.mpr fun begins => ?_
    rw [show t.type = .kwFun by simpa [tokens, beginsFunction] using begins, h] at fits
    cases fits
  | rule p ih => exact ih (Symbol.form_nameless h)
  | @seq f g p q ihp ihq =>
    have apart (hf : f.nameless = true) (hg : f.nonempty = true ∨ g.nameless = true) :
        beginsFunction (p.tokens ++ q.tokens) = false := by
      by_cases empty : p.tokens = []
      · rw [empty]
        exact ihq (hg.resolve_left fun full => p.tokens_ne_nil full empty)
      · exact beginsFunction_append empty (ihp hf) _
    unfold Form.nameless at h
    split at h
    next same => cases same
    next same => cases same
    next same =>
      cases same
      obtain ⟨t, ht⟩ := p
      obtain _ | _ | ⟨⟨u, hu⟩, q⟩ := q
      refine Bool.eq_false_iff.mpr fun begins => ?_
      simp only [tokens, List.cons_append, List.nil_append, beginsFunction, Bool.and_eq_true,
        beq_iff_eq] at begins
      simp [← begins.1, ← begins.2, ht, hu] at h
    next same =>
      cases same
      simp only [Bool.and_eq_true, Bool.or_eq_true] at h
      exact apart h.1 h.2
    all_goals next same => cases same
  | left p ih => exact ih (by simp only [Form.nameless, Bool.and_eq_true] at h; exact h.1)
  | right q ih => exact ih (by simp only [Form.nameless, Bool.and_eq_true] at h; exact h.2)
  | none | nil => rfl
  | some p ih => exact ih h
  | cons p ps ihp ihps =>
    by_cases empty : p.tokens = []
    · rw [tokens, empty]
      exact ihps h
    · exact beginsFunction_append empty (ihp h) _

end Lox.Grammar
