import Lox.Proofs.Joining.Scanning
import Lox.Proofs.Parsed

/-!
# Texts that are read in a row

The parser reads the declarations of one text after those of another as it reads each text by
itself: `parse_append`. A line that is a program is read like one: `parsePrompt_of_parse`.
-/

namespace Lox.Grammar

open Syntax

/-! ### Declarations in a row -/

theorem inOrder_append (xs ys : List (Numbered α)) :
    inOrder (xs ++ ys) = (do
      let first ← inOrder xs
      let second ← inOrder ys
      return first ++ second) := by
  induction xs with
  | nil => rfl
  | cons x xs ih =>
    rw [List.cons_append, inOrder, ih]
    rfl

section Declarations

variable {around : Bool} {text mid after : List Token}

/-- A phrase that is a whole text may stand before what does not begin with `else`. -/
theorem Spans.followed {f : Form} {p : Phrase f} (h : Spans around p text [])
    (apart : beginsElse after = false) : Spans around p (text ++ after) after := by
  refine ⟨?_, h.arity, h.breaks, h.nearest, fun _ => apart⟩
  rw [h.split, List.append_nil]

theorem Spans.append {f : Form} (apart : f.mayBeginElse = false) {qs : Phrase (.many f)}
    (hqs : Spans around qs mid after) {text : List Token} :
    (ps : Phrase (.many f)) → Spans around ps text mid →
      ∃ rs : Phrase (.many f), Spans around rs text after ∧ rs.value = ps.value ++ qs.value
  | .nil, hps => by
    obtain rfl : text = mid := hps.split
    exact ⟨qs, hqs, rfl⟩
  | .cons p ps, hps => by
    obtain ⟨first, others⟩ := hps.of_cons (.inr apart)
    obtain ⟨rs, whole, value⟩ := Spans.append apart hqs ps others
    exact ⟨.cons p rs, .cons first whole, congrArg (p.value :: ·) value⟩

theorem declarations_of_parse {ts : TokenStream} {firstId : Nat}
    (clean : (parse ts firstId).errors = []) :
    ∃ ps : Phrase (.many (.rule .declaration)), Spans false ps ts.body [] := by
  obtain ⟨_ | ⟨ps⟩, h, nearest⟩ := derives_of_parse clean
  exact ⟨ps, h.tokens.symm.trans (List.append_nil _).symm, h.arity.2, h.breaks.2, nearest,
    fun _ => rfl⟩

theorem parse_append {ts us whole : TokenStream} {firstId : Nat}
    (split : whole.body = ts.body ++ us.body) (clean : (parse ts firstId).errors = [])
    (clean' : (parse us (parse ts firstId).nextId).errors = []) :
    parse whole firstId =
      { result := (parse ts firstId).result ++ (parse us (parse ts firstId).nextId).result
        errors := []
        nextId := (parse us (parse ts firstId).nextId).nextId } := by
  obtain ⟨ps, first⟩ := declarations_of_parse clean
  obtain ⟨qs, second⟩ := declarations_of_parse clean'
  have apart : beginsElse us.body = false := by
    rw [second.split, List.append_nil]
    refine Bool.eq_false_iff.mpr fun begins => ?_
    cases qs.mayBeginElse_of_begins begins
  obtain ⟨rs, both, value⟩ := Spans.append rfl second ps (first.followed apart)
  rw [← split] at both
  rw [parse_of_declarations first, parse_of_declarations second, parse_of_declarations both, value,
    inOrder_append]
  rfl

end Declarations

/-! ### Lines that are programs -/

section Lines

variable {r : Rules} {s t : ParseState} {st : Stmt}

theorem total_ite (test : ParseState → Bool) (p q : Syntax.Total α) (s : ParseState) :
    (do if test (← get) then p else q : Syntax.Total α) s = if test s then p s else q s := by
  change (if test s then p else q) s = _
  split <;> rfl

/-- Where no other statement begins, a declaration is an expression and its semicolon. -/
theorem declaration_eq (other : s.atStatement = false) :
    declaration r s = expressionStatement (assignment r) s := by
  simp only [ParseState.atStatement_eq, Bool.or_eq_false_iff] at other
  obtain ⟨⟨⟨notFunction, notClass⟩, notVar⟩, notOpen⟩ := other
  have none {test : TokenType → Bool} (h : s.rest.head?.any (test ·.type) = false) :
      acceptIf test s = .ok none s :=
    acceptIf_of_none fun t rest split => by simpa [split] using h
  unfold declaration
  rw [get_bind, if_neg (Bool.eq_false_iff.mp notFunction)]
  refine (bind_of_ok (none ?_)).trans (bind_of_ok (none notOpen))
  unfold ParseState.nextIs at notClass notVar
  cases here : s.rest.head? <;> simp_all

/-- What is read as a declaration is an item of a line. -/
theorem promptItem_of_declaration (read : declaration r s = .ok st t) :
    promptItem r s = ({ statements := [st] }, t) := by
  unfold promptItem
  rw [total_ite]
  split
  · change (Program.mk (recover (declaration r) s).1.toList none, (recover (declaration r) s).2) = _
    rw [recover, read]
    rfl
  next other =>
    rw [declaration_eq (Bool.eq_false_iff.mpr other)] at read
    obtain ⟨e, mid, expression, rest⟩ := bind_ok read
    obtain ⟨word, _, semicolon, same⟩ := bind_ok rest
    cases same
    obtain ⟨text, split, -, -⟩ := expect_ok semicolon
    have more : mid.atEnd = false := by rw [ParseState.atEnd, split]; rfl
    have item : promptExpression r s = .ok { statements := [.expression e] } t := by
      refine (bind_of_ok expression).trans ?_
      rw [get_bind, if_neg (Bool.eq_false_iff.mp more)]
      exact (bind_of_ok semicolon).trans rfl
    change ((recover (promptExpression r) s).1.getD { statements := [] },
      (recover (promptExpression r) s).2) = _
    rw [recover, item]
    rfl

theorem promptItems_of_declarations {k : Nat} (hr : CompleteRules k r) (rounds : Nat)
    {s : ParseState} : (ps : Phrase (.many (.rule .declaration))) →
    Spans (decide (s.loopDepth ≠ 0)) ps s.rest [] → ps.tokens.length ≤ k → ps.repeats ≤ rounds →
    promptItems r rounds s =
      ({ statements := (inOrder ps.value s.nextId).1 },
        { s with rest := [], nextId := (inOrder ps.value s.nextId).2 })
  | .nil, spans, _, _ => by
    have here : s.rest = [] := spans.split
    have same : s = { s with rest := [] } := by rw [← here]
    have none : promptItems r rounds s = ({ statements := [] }, s) := by
      cases rounds with
      | zero => rfl
      | succ rounds =>
        unfold promptItems
        rw [total_ite, ParseState.atEnd, here]
        rfl
    exact none.trans (congrArg (Prod.mk (Program.mk [] Option.none)) same)
  | .cons p ps, spans, short, few => by
    obtain ⟨first, others⟩ := spans.of_cons (.inr rfl)
    obtain ⟨t, ts, begin, -⟩ := first.exists_first rfl
    simp only [Phrase.tokens, List.length_append] at short
    obtain _ | rounds := rounds
    · exact absurd few (Nat.not_succ_le_zero _)
    have more : s.atEnd = false := by rw [ParseState.atEnd, begin]; rfl
    have item := promptItem_of_declaration
      (completes_declaration hr first (by omega) (begins_nil _))
    have items := promptItems_of_declarations hr rounds
      (s := { s with rest := ps.tokens ++ [], nextId := (p.value s.nextId).2 }) ps others (by omega)
      (Nat.le_of_succ_le_succ few)
    unfold promptItems
    rw [total_ite, if_neg (Bool.eq_false_iff.mp more)]
    have others := (congrArg (promptItems r rounds ·.2) item).trans items
    change (Program.mk
      ((promptItem r s).1.statements ++ (promptItems r rounds (promptItem r s).2).1.statements)
      ((promptItem r s).1.trailing <|> (promptItems r rounds (promptItem r s).2).1.trailing),
      (promptItems r rounds (promptItem r s).2).2) = _
    rw [others, item]
    rfl

/-- A line that is a program is read as that program. -/
theorem parsePrompt_of_parse {ts : TokenStream} {firstId : Nat}
    (clean : (parse ts firstId).errors = []) :
    parsePrompt ts firstId =
      { parse ts firstId with result := { statements := (parse ts firstId).result } } := by
  obtain ⟨ps, spans⟩ := declarations_of_parse clean
  have short : ps.tokens.length ≤ ts.body.length := by
    rw [spans.split, List.append_nil]
  have few := ps.repeats_le rfl
  have items := promptItems_of_declarations (complete_rules ts.body.length) ts.body.length
    (s := { rest := ts.body, endLine := ts.endLine, nextId := firstId }) ps spans short
    (Nat.le_trans few short)
  rw [parse_of_declarations spans]
  unfold parsePrompt Syntax.Total.run
  rw [items]

end Lines

end Lox.Grammar
