import Lox.Proofs.Alike
import Lox.Proofs.Resolved

/-!
# Names that are resolved alike

On programs that are alike the resolver notes the same distances and finds the same errors, as long
as no two known names are made the same by the renamings: `Program.Alike.resolve`.
-/

namespace Lox

/-- A pairing that keeps uses apart, and known names also where scopes are renamed differently. -/
structure Pairing.Distinct (P : Pairing) : Prop where
  ids : ∀ {i i' j j'}, P.ids i i' → P.ids j j' → (i = j ↔ i' = j')
  names : ∀ {ρ σ : Renaming} {x y}, P.renames ρ → P.renames σ → P.names x → P.names y →
    ρ x = σ y → x = y
  this : P.names "this"
  super : P.names "super"

structure Pairing.Complaints (P : Pairing) (e e' : StaticError) : Prop where
  fault : e'.fault = e.fault
  type : e'.token.type = e.token.type
  line : P.lines e.token.line e'.token.line
  lexeme : ∃ ρ, P.renames ρ ∧ e'.token.lexeme = ρ e.token.lexeme

/-- A scope whose names are known, and the scope with their new names. -/
structure Scope.Alike (P : Pairing) (ρ : Renaming) (s s' : Scope) : Prop where
  renamed : ∀ x : String, s'[ρ x]? = s[x]?
  known : ∀ x, s.contains x = true → P.names x

inductive Scopes.Alike (P : Pairing) : Renamings → List Scope → List Scope → Prop
  | nil {Γ} : Scopes.Alike P Γ [] []
  | cons {Γ : Renamings} {s s' outer outer'} : Scope.Alike P (Γ 0) s s' →
    Scopes.Alike P Γ.tail outer outer' → Scopes.Alike P Γ (s :: outer) (s' :: outer')

structure Resolution.Alike (P : Pairing) (Γ : Renamings) (r r' : Resolution) : Prop where
  renames : ∀ d, P.renames (Γ d)
  scopes : Scopes.Alike P Γ r.scopes r'.scopes
  distances : ∀ i i', P.ids i i' → r'.distances[i']? = r.distances[i]?
  errors : List.Forall₂ P.Complaints r.errors r'.errors

section Scopes

variable {P : Pairing} {ρ : Renaming} {s s' : Scope}

namespace Scope.Alike

theorem contains (h : Scope.Alike P ρ s s') (x : String) : s'.contains (ρ x) = s.contains x := by
  rw [Std.TreeMap.contains_eq_isSome_getElem?, Std.TreeMap.contains_eq_isSome_getElem?, h.renamed]

theorem empty (ρ : Renaming) : Scope.Alike P ρ ∅ ∅ := by
  refine ⟨fun x => ?_, fun x inside => ?_⟩
  · rw [Std.TreeMap.getElem?_emptyc, Std.TreeMap.getElem?_emptyc]
  · rw [Std.TreeMap.contains_emptyc] at inside
    cases inside

theorem insert (h : Scope.Alike P ρ s s') {x : String} (known : P.names x) (complete : Bool) :
    Scope.Alike P ρ (s.insert x complete) (s'.insert (ρ x) complete) := by
  refine ⟨fun y => ?_, fun y inside => ?_⟩
  · rw [Std.TreeMap.getElem?_insert, Std.TreeMap.getElem?_insert]
    by_cases same : x = y
    · simp [same]
    · simpa [same] using h.renamed y
  · rw [Std.TreeMap.contains_insert] at inside
    by_cases same : x = y
    · exact same ▸ known
    · exact h.known y (by simpa [same] using inside)

/-- A name that another scope renames is in the second scope only if it is in the first. -/
theorem contains_other (h : Scope.Alike P ρ s s') (distinct : P.Distinct) (allowed : P.renames ρ)
    {σ : Renaming} (other : P.renames σ) {x : String} (known : P.names x)
    (outside : s.contains x = false) : s'.contains (σ x) = false := by
  rw [← ρ.apply_symm_apply (σ x), h.contains]
  by_contra inside
  rw [Bool.not_eq_false] at inside
  have same := distinct.names allowed other (h.known _ inside) known (ρ.apply_symm_apply (σ x))
  rw [same, outside] at inside
  cases inside

end Scope.Alike

variable {Γ : Renamings} {ss ss' : List Scope}

/-- The first scope that holds a name holds its new name, and no scope before it does. -/
theorem Scopes.Alike.findIdx? (h : Scopes.Alike P Γ ss ss') (distinct : P.Distinct)
    (renames : ∀ d, P.renames (Γ d)) (plain : P.renames (Equiv.refl String)) {x : String}
    (known : P.names x) : ss'.findIdx? (·.contains (Γ.at? (ss.findIdx? (·.contains x)) x)) =
      ss.findIdx? (·.contains x) := by
  induction h with
  | nil => rfl
  | @cons Γ s s' outer outer' scope _ ih =>
    have inner := ih fun d => renames (d + 1)
    rw [List.findIdx?_cons, List.findIdx?_cons]
    cases inside : s.contains x with
    | true =>
      have here : s'.contains (Γ 0 x) = true := (scope.contains x).trans inside
      simp [Renamings.at?, here]
    | false =>
      rw [if_neg Bool.false_ne_true]
      have absent {σ : Renaming} (other : P.renames σ) : s'.contains (σ x) = false :=
        scope.contains_other distinct (renames 0) other known inside
      cases found : outer.findIdx? (·.contains x) with
      | none =>
        rw [found] at inner
        have here : s'.contains x = false := absent plain
        simpa [Renamings.at?, here] using inner
      | some d =>
        rw [found] at inner
        have here : s'.contains (Γ (d + 1) x) = false := absent (renames (d + 1))
        simpa [Renamings.at?, Renamings.tail, here] using inner

end Scopes

/-! ### Steps of the resolver -/

section Steps

variable {P : Pairing} {Γ : Renamings} {r r' : Resolution}

theorem Pairing.Tokens.complaints {t t' : Token} (h : P.Tokens t t') (lawful : P.Lawful)
    (fault : StaticFault) : P.Complaints ⟨t, fault⟩ ⟨t', fault⟩ :=
  ⟨rfl, h.type, h.line, Equiv.refl String, lawful.refl, h.lexeme⟩

theorem Pairing.Named.complaints {ρ : Renaming} {t t' : Token} (h : P.Named ρ t t')
    (allowed : P.renames ρ) (fault : StaticFault) : P.Complaints ⟨t, fault⟩ ⟨t', fault⟩ :=
  ⟨rfl, h.type, h.line, ρ, allowed, h.lexeme⟩

namespace Resolution.Alike

variable (h : r.Alike P Γ r')

include h

theorem report {e e' : StaticError} (complaints : P.Complaints e e') :
    (r.report e.token e.fault).Alike P Γ (r'.report e'.token e'.fault) :=
  ⟨h.renames, h.scopes, h.distances, List.rel_append h.errors (.cons complaints .nil)⟩

theorem reportIf (bad : Bool) {t t' : Token} {fault : StaticFault}
    (complaints : P.Complaints ⟨t, fault⟩ ⟨t', fault⟩) :
    (r.reportIf bad t fault).Alike P Γ (r'.reportIf bad t' fault) := by
  unfold Resolution.reportIf
  split
  · exact h.report complaints
  · exact h

theorem put {x : String} (known : P.names x) (complete : Bool) :
    (r.put x complete).Alike P Γ (r'.put (Γ 0 x) complete) := by
  refine ⟨h.renames, ?_, ?_, ?_⟩
  · have scopes := h.scopes
    unfold Resolution.put
    revert scopes
    cases r.scopes <;> cases r'.scopes <;> intro scopes
    · exact h.scopes
    · cases scopes
    · cases scopes
    · obtain _ | ⟨scope, outer⟩ := scopes
      exact .cons (scope.insert known complete) outer
  · rw [distances_put, distances_put]
    exact h.distances
  · rw [errors_put, errors_put]
    exact h.errors

theorem innermost? (x : String) : r'.innermost? (Γ 0 x) = r.innermost? x := by
  have scopes := h.scopes
  unfold Resolution.innermost?
  revert scopes
  cases r.scopes <;> cases r'.scopes <;> intro scopes
  · rfl
  · cases scopes
  · cases scopes
  · obtain _ | ⟨scope, outer⟩ := scopes
    exact scope.renamed x

theorem declare {t t' : Token} (named : P.Named (Γ 0) t t') :
    (r.declare t).Alike P Γ (r'.declare t') := by
  unfold Resolution.declare
  rw [named.lexeme, h.innermost?]
  exact (h.put named.known false).reportIf _ (named.complaints (h.renames 0) _)

theorem define {t t' : Token} (named : P.Named (Γ 0) t t') :
    (r.define t).Alike P Γ (r'.define t') := by
  unfold Resolution.define
  rw [named.lexeme]
  exact h.put named.known true

theorem introduce {t t' : Token} (named : P.Named (Γ 0) t t') :
    (r.introduce t).Alike P Γ (r'.introduce t') := (h.declare named).define named

theorem enter {ρ : Renaming} (allowed : P.renames ρ) :
    r.enter.Alike P (Γ.push ρ) r'.enter := by
  refine ⟨fun d => ?_, .cons (.empty ρ) h.scopes, h.distances, h.errors⟩
  cases d with
  | zero => exact allowed
  | succ d => exact h.renames d

theorem introduceAll {ts ts' : List Token} (named : List.Forall₂ (P.Named (Γ 0)) ts ts') :
    (ts.foldl Resolution.introduce r).Alike P Γ (ts'.foldl Resolution.introduce r') := by
  induction named generalizing r r' with
  | nil => exact h
  | cons first _ ih => exact ih (h.introduce first)

theorem enterFunction {ρ : Renaming} (allowed : P.renames ρ) {ts ts' : List Token}
    (named : List.Forall₂ (P.Named ρ) ts ts') :
    (r.enterFunction ts).Alike P (Γ.push ρ) (r'.enterFunction ts') :=
  (h.enter allowed).introduceAll named

theorem leave {outer : Renamings} (inner : Γ.tail = outer) :
    r.leave.Alike P outer r'.leave := by
  subst inner
  refine ⟨fun d => h.renames (d + 1), ?_, h.distances, h.errors⟩
  have scopes := h.scopes
  unfold Resolution.leave
  revert scopes
  cases r.scopes <;> cases r'.scopes <;> intro scopes
  · exact .nil
  · cases scopes
  · cases scopes
  · obtain _ | ⟨scope, outer⟩ := scopes
    exact outer

theorem checkReturnIn (c : Context) {t t' : Token} (lawful : P.Lawful) (tokens : P.Tokens t t')
    (hasValue : Bool) :
    (r.checkReturnIn c t hasValue).Alike P Γ (r'.checkReturnIn c t' hasValue) :=
  (h.reportIf _ (tokens.complaints lawful _)).reportIf _ (tokens.complaints lawful _)

variable (lawful : P.Lawful)

include lawful

theorem at?_renames (d : Option Nat) : P.renames (Γ.at? d) := by
  cases d with
  | none => exact lawful.refl
  | some d => exact h.renames d

theorem complaints {u u' : Use} (uses : P.Uses Γ u u') {d : Option Nat}
    (reached : P.distances u.id d) (fault : StaticFault) :
    P.Complaints ⟨u.name, fault⟩ ⟨u'.name, fault⟩ :=
  ⟨rfl, uses.type, uses.line, _, h.at?_renames lawful d, uses.lexeme d reached⟩

variable (distinct : P.Distinct)

include distinct

theorem enterClass :
    r.enterClass.Alike P (Γ.push (Equiv.refl String)) r'.enterClass :=
  (h.enter lawful.refl).put distinct.this true

theorem innermost?_at (x : String) (known : P.names x) :
    r'.innermost? (Γ.at? (r.distance? x) x) = r.innermost? x := by
  have scopes := h.scopes
  have allowed := h.at?_renames lawful (r.distance? x)
  revert allowed
  unfold Resolution.innermost? Resolution.distance?
  revert scopes
  cases r.scopes <;> cases r'.scopes <;> intro scopes allowed
  · rfl
  · cases scopes
  · cases scopes
  rename_i s outer s' outer'
  obtain _ | ⟨scope, -⟩ := scopes
  rw [List.findIdx?_cons] at allowed ⊢
  cases inside : s.contains x with
  | true => exact scope.renamed x
  | false =>
    rw [inside] at allowed
    have absent := scope.contains_other distinct (h.renames 0) allowed known inside
    rw [Std.TreeMap.contains_eq_isSome_getElem?, Option.isSome_eq_false_iff,
      Option.isNone_iff_eq_none] at inside absent
    exact absent.trans inside.symm

variable {u u' : Use} (uses : P.Uses Γ u u') (reached : P.distances u.id (r.distance? u.name.lexeme))

include uses reached

theorem record : (r.record u).Alike P Γ (r'.record u') := by
  have same : r'.distance? u'.name.lexeme = r.distance? u.name.lexeme := by
    rw [uses.lexeme _ reached]
    exact h.scopes.findIdx? distinct h.renames lawful.refl uses.known
  unfold Resolution.record
  rw [same]
  cases r.distance? u.name.lexeme with
  | none => exact h
  | some d =>
    refine ⟨h.renames, h.scopes, fun i i' ids => ?_, h.errors⟩
    dsimp only
    rw [Std.TreeMap.getElem?_insert, Std.TreeMap.getElem?_insert]
    have both := distinct.ids uses.ids ids
    by_cases here : u.id = i
    · simp [here, both.mp here]
    · have there : u'.id ≠ i' := fun h => here (both.mpr h)
      simpa [here, there] using h.distances i i' ids

theorem read : (r.read u).Alike P Γ (r'.read u') := by
  unfold Resolution.read
  have same := h.innermost?_at lawful distinct u.name.lexeme uses.known
  rw [← uses.lexeme _ reached] at same
  rw [same]
  refine (h.reportIf _ (h.complaints lawful uses reached _)).record lawful distinct uses ?_
  rw [Resolution.distance?, Resolution.scopes_reportIf]
  exact reached

theorem readThisIn (c : Context) : (r.readThisIn c u).Alike P Γ (r'.readThisIn c u') := by
  unfold Resolution.readThisIn
  split
  · exact h.report (h.complaints lawful uses reached _)
  · exact h.record lawful distinct uses reached

theorem readSuperIn (c : Context) : (r.readSuperIn c u).Alike P Γ (r'.readSuperIn c u') := by
  unfold Resolution.readSuperIn
  split
  · exact (h.report (h.complaints lawful uses reached _)).record lawful distinct uses reached
  · exact (h.report (h.complaints lawful uses reached _)).record lawful distinct uses reached
  · exact h.record lawful distinct uses reached

theorem enterDerived {t t' : Token} (tokens : P.Tokens t t') (known : P.names t.lexeme)
    (kept : Γ.at? (r.distance? t.lexeme) t.lexeme = t.lexeme) :
    (r.enterDerived t u).Alike P (Γ.push (Equiv.refl String)) (r'.enterDerived t' u') := by
  have same : (u'.name.lexeme == t'.lexeme) = (u.name.lexeme == t.lexeme) := by
    rw [uses.lexeme _ reached, tokens.lexeme, Bool.eq_iff_iff, beq_iff_eq, beq_iff_eq]
    constructor
    · exact distinct.names (h.at?_renames lawful _) lawful.refl uses.known known
    · intro equal
      rw [equal]
      exact kept
  unfold Resolution.enterDerived
  rw [same]
  have checked := h.reportIf (u.name.lexeme == t.lexeme)
    (h.complaints lawful uses reached .selfInheritance)
  refine ((checked.read lawful distinct uses ?_).enter lawful.refl).put distinct.super true
  rw [Resolution.distance?, Resolution.scopes_reportIf]
  exact reached

end Resolution.Alike

end Steps

/-! ### Programs -/

/-- What is known at the same place of two programs, whose scopes in the first are `ls`. -/
structure Resolution.AlikeAt (P : Pairing) (Γ : Renamings) (ls : Levels) (r r' : Resolution) :
    Prop where
  alike : r.Alike P Γ r'
  scopes : r.scopes = ls.map Level.scope

namespace Resolution

variable {P : Pairing} {Γ : Renamings} {ls : Levels} {r r' : Resolution}

theorem distance?_eq (scopes : r.scopes = ls.map Level.scope) (name : String) :
    r.distance? name = ls.distance? name := by
  rw [distance?, scopes, List.findIdx?_map]
  rfl

/-- A name that is declared just now is in the innermost scope. -/
theorem distance?_introduce (r : Resolution) (name : Token) :
    (r.introduce name).distance? name.lexeme = none ∨
      (r.introduce name).distance? name.lexeme = some 0 := by
  unfold introduce define put
  split
  next none =>
    rw [distance?, none]
    exact .inl rfl
  next scope outer _ =>
    right
    rw [distance?, List.findIdx?_cons, Std.TreeMap.contains_insert_self]
    rfl

namespace AlikeAt

variable (h : r.AlikeAt P Γ ls r')

include h

theorem introduce {t t' : Token} (named : P.Named (Γ 0) t t') :
    AlikeAt P Γ (ls.introduce t.lexeme) (r.introduce t) (r'.introduce t') :=
  ⟨h.alike.introduce named, scopes_introduce h.scopes t⟩

theorem inInitializer {t t' : Token} (named : P.Named (Γ 0) t t') (e : Expr) :
    AlikeAt P Γ (ls.modifyHead (·.inInitializer t e)) (r.declare t) (r'.declare t') := by
  have scopes := scopes_declare h.scopes t
  refine ⟨h.alike.declare named, ?_⟩
  cases ls <;> exact scopes

theorem enter {ρ : Renaming} (allowed : P.renames ρ) (body : List Stmt) :
    AlikeAt P (Γ.push ρ) (.block body :: ls) r.enter r'.enter :=
  ⟨h.alike.enter allowed, congrArg (∅ :: ·) h.scopes⟩

theorem enterFunction {ρ : Renaming} (allowed : P.renames ρ) {ts ts' : List Token}
    (named : List.Forall₂ (P.Named ρ) ts ts') (body : List Stmt) :
    AlikeAt P (Γ.push ρ) (.function ts body :: ls) (r.enterFunction ts) (r'.enterFunction ts') :=
  ⟨h.alike.enterFunction allowed named, scopes_enterFunction h.scopes ts body⟩

omit h in
theorem leave {ρ : Renaming} {l : Level} {ss : List Stmt}
    (h : r.AlikeAt P (Γ.push ρ) (ss.foldl Stmt.after (l :: ls)) r') :
    r.leave.AlikeAt P Γ ls r'.leave := by
  refine ⟨h.alike.leave rfl, ?_⟩
  change List.tail _ = _
  rw [h.scopes, ← List.map_tail, Stmt.tail_afterAll]

theorem checkReturnIn (c : Context) {t t' : Token} (lawful : P.Lawful) (tokens : P.Tokens t t')
    (hasValue : Bool) :
    AlikeAt P Γ ls (r.checkReturnIn c t hasValue) (r'.checkReturnIn c t' hasValue) :=
  ⟨h.alike.checkReturnIn c lawful tokens hasValue, (r.scopes_checkReturn c t hasValue).trans h.scopes⟩

variable (lawful : P.Lawful) (distinct : P.Distinct)

include lawful distinct

theorem enterClass (methods : List FunctionDecl) :
    AlikeAt P (Γ.push (Equiv.refl String)) (.methods methods :: ls) r.enterClass r'.enterClass :=
  ⟨h.alike.enterClass lawful distinct, congrArg ((∅ : Scope).insert "this" true :: ·) h.scopes⟩

theorem enterDerived {t t' : Token} {u u' : Use} (methods : List FunctionDecl)
    (uses : P.Uses Γ u u') (reached : P.distances u.id (ls.distance? u.name.lexeme))
    (tokens : P.Tokens t t') (known : P.names t.lexeme)
    (kept : Γ.at? (r.distance? t.lexeme) t.lexeme = t.lexeme) :
    AlikeAt P (Γ.push (Equiv.refl String)) (.superclass u methods :: ls) (r.enterDerived t u)
      (r'.enterDerived t' u') := by
  rw [← distance?_eq h.scopes] at reached
  refine ⟨h.alike.enterDerived lawful distinct uses reached tokens known kept, ?_⟩
  have read : ((r.reportIf (u.name.lexeme == t.lexeme) u.name .selfInheritance).read u).scopes =
      ls.map Level.scope := by
    rw [scopes_read, scopes_reportIf]
    exact h.scopes
  exact congrArg ((∅ : Scope).insert "super" true :: ·) read

end AlikeAt

/-- The name of a class keeps its spelling where it is renamed as declared. -/
theorem at?_introduce (r : Resolution) {t t' : Token} (tokens : P.Tokens t t')
    (named : P.Named (Γ 0) t t') :
    Γ.at? ((r.introduce t).distance? t.lexeme) t.lexeme = t.lexeme := by
  obtain none | some := r.distance?_introduce t
  · rw [none]
    rfl
  · rw [some]
    exact named.lexeme.symm.trans tokens.lexeme

end Resolution

section Programs

variable {P : Pairing} (lawful : P.Lawful) (distinct : P.Distinct)

include lawful distinct

-- The theorems of the block use both variables, some of them only through the others.
set_option linter.unusedSectionVars false

mutual

theorem Expr.resolve_alike {Γ : Renamings} {ls : Levels} {c : Context} (e : Expr) {e' : Expr}
    (alike : e.Alike P Γ e') (proper : e.Proper) {r r' : Resolution}
    (h : r.AlikeAt P Γ ls r')
    (reached : ∀ o ∈ e.occurrences ls, P.distances o.use.id o.distance?) :
    (e.resolveIn c r).AlikeAt P Γ ls (e'.resolveIn c r') := by
  cases e with
  | literal value =>
    cases alike
    exact h
  | grouping inner =>
    obtain _ | ⟨alike⟩ := alike
    exact inner.resolve_alike alike proper h reached
  | unary operator operand =>
    cases alike with
    | unary _ alike => exact operand.resolve_alike alike proper h reached
  | binary left operator right =>
    cases alike with
    | binary first _ second =>
      obtain ⟨inLeft, inRight⟩ := List.forall_mem_append.mp reached
      exact right.resolve_alike second proper.2 (left.resolve_alike first proper.1 h inLeft) inRight
  | logical left operator right =>
    cases alike with
    | logical first _ second =>
      obtain ⟨inLeft, inRight⟩ := List.forall_mem_append.mp reached
      exact right.resolve_alike second proper.2 (left.resolve_alike first proper.1 h inLeft) inRight
  | «variable» use =>
    cases alike with
    | «variable» uses =>
      have here := reached _ List.mem_cons_self
      rw [Occurrence.distance?, ← Resolution.distance?_eq h.scopes] at here
      exact ⟨h.alike.read lawful distinct uses here, (r.scopes_read use).trans h.scopes⟩
  | assign target value =>
    cases alike with
    | assign uses alike =>
      obtain ⟨inValue, here⟩ := List.forall_mem_append.mp reached
      have first := value.resolve_alike (c := c) alike proper.2 h inValue
      have here := here _ List.mem_cons_self
      rw [Occurrence.distance?, ← Resolution.distance?_eq first.scopes] at here
      exact ⟨first.alike.record lawful distinct uses here,
        (Resolution.scopes_record _ target).trans first.scopes⟩
  | this use =>
    cases alike with
    | this uses =>
      have here := reached _ List.mem_cons_self
      rw [Occurrence.distance?, ← Resolution.distance?_eq h.scopes] at here
      exact ⟨h.alike.readThisIn lawful distinct uses here c,
        (r.scopes_readThis c use).trans h.scopes⟩
  | super use method =>
    cases alike with
    | super uses _ =>
      have here := reached _ List.mem_cons_self
      rw [Occurrence.distance?, ← Resolution.distance?_eq h.scopes] at here
      exact ⟨h.alike.readSuperIn lawful distinct uses here c,
        (r.scopes_readSuper c use).trans h.scopes⟩
  | call callee paren arguments =>
    cases alike with
    | call first _ rest =>
      obtain ⟨inCallee, inArguments⟩ := List.forall_mem_append.mp reached
      exact Expr.resolveAll_alike arguments rest proper.2
        (callee.resolve_alike first proper.1 h inCallee) inArguments
  | get object name =>
    cases alike with
    | get alike _ => exact object.resolve_alike alike proper h reached
  | set object name value =>
    cases alike with
    | set first _ second =>
      obtain ⟨inValue, inObject⟩ := List.forall_mem_append.mp reached
      exact object.resolve_alike first proper.1 (value.resolve_alike second proper.2 h inValue)
        inObject
  | lambda params body =>
    cases alike with
    | lambda allowed named alike =>
      have entered := h.enterFunction allowed named body
      have walked := Stmt.resolveAll_alike (c := { c with function := .function }) body alike
        proper.2 entered reached
      exact walked.leave
termination_by structural e

theorem Expr.resolveAll_alike {Γ : Renamings} {ls : Levels} {c : Context} (es : List Expr)
    {es' : List Expr} (alike : Expr.AllAlike P Γ es es') (proper : Expr.ProperAll es)
    {r r' : Resolution} (h : r.AlikeAt P Γ ls r')
    (reached : ∀ o ∈ Expr.occurrencesAll ls es, P.distances o.use.id o.distance?) :
    (Expr.resolveAllIn c es r).AlikeAt P Γ ls (Expr.resolveAllIn c es' r') := by
  cases es with
  | nil =>
    cases alike
    exact h
  | cons e es =>
    obtain _ | ⟨first, rest⟩ := alike
    obtain ⟨inFirst, inRest⟩ := List.forall_mem_append.mp reached
    exact Expr.resolveAll_alike es rest proper.2 (e.resolve_alike first proper.1 h inFirst) inRest
termination_by structural es

theorem FunctionDecl.resolve_alike {Γ : Renamings} {ls : Levels} {c : Context} (f : FunctionDecl)
    {f' : FunctionDecl} (alike : f.Alike P Γ f') (proper : f.Proper) {r r' : Resolution}
    (h : r.AlikeAt P Γ ls r')
    (reached : ∀ o ∈ f.occurrences ls, P.distances o.use.id o.distance?) :
    (f.resolveIn c r).AlikeAt P Γ ls (f'.resolveIn c r') := by
  cases f with
  | mk name params body =>
    cases alike with
    | mk _ allowed named alike =>
      have entered := h.enterFunction allowed named body
      have walked := Stmt.resolveAll_alike (c := c) body alike proper.2.2 entered reached
      exact walked.leave
termination_by structural f

theorem FunctionDecl.resolveAll_alike {Γ : Renamings} {ls : Levels} {c : Context}
    (fs : List FunctionDecl) {fs' : List FunctionDecl} (alike : FunctionDecl.AllAlike P Γ fs fs')
    (proper : FunctionDecl.ProperAll fs) {r r' : Resolution} (h : r.AlikeAt P Γ ls r')
    (reached : ∀ o ∈ FunctionDecl.occurrencesAll ls fs, P.distances o.use.id o.distance?) :
    (FunctionDecl.resolveAllIn c fs r).AlikeAt P Γ ls (FunctionDecl.resolveAllIn c fs' r') := by
  cases fs with
  | nil =>
    cases alike
    exact h
  | cons f fs =>
    obtain _ | ⟨first, rest⟩ := alike
    rename_i f' fs'
    obtain ⟨inFirst, inRest⟩ := List.forall_mem_append.mp reached
    have same : c.ofMethod f' = c.ofMethod f := by
      rw [Context.ofMethod, FunctionDecl.methodContext, first.isInitializer]
      rfl
    rw [FunctionDecl.resolveAllIn, FunctionDecl.resolveAllIn, same]
    exact FunctionDecl.resolveAll_alike fs rest proper.2
      (f.resolve_alike (c := c.ofMethod f) first proper.1 h inFirst) inRest
termination_by structural fs

theorem Stmt.resolve_alike {Γ : Renamings} {ls : Levels} {c : Context} (s : Stmt) {s' : Stmt}
    (alike : s.Alike P Γ s') (proper : s.Proper) {r r' : Resolution} (h : r.AlikeAt P Γ ls r')
    (reached : ∀ o ∈ s.occurrences ls, P.distances o.use.id o.distance?) :
    (s.resolveIn c r).AlikeAt P Γ (s.after ls) (s'.resolveIn c r') := by
  cases s with
  | expression e =>
    cases alike with
    | expression alike => exact e.resolve_alike alike proper h reached
  | print e =>
    cases alike with
    | print alike => exact e.resolve_alike alike proper h reached
  | var name initializer =>
    cases initializer with
    | none =>
      cases alike with
      | var named => exact h.introduce named
    | some e =>
      cases alike with
      | varWith named alike =>
        have walked := e.resolve_alike (c := c) alike proper.2 (h.inInitializer named e) reached
        -- The initializer has left the scopes alone, so only the name is marked as complete.
        refine ⟨walked.alike.define named, ?_⟩
        rw [Stmt.resolveIn, Resolution.define, Resolution.scopes_put walked.scopes]
        cases ls <;> rfl
  | block body =>
    cases alike with
    | block allowed alike =>
      have walked := Stmt.resolveAll_alike (c := c) body alike proper (h.enter allowed body) reached
      exact walked.leave
  | ifElse condition thenBranch elseBranch =>
    cases elseBranch with
    | none =>
      cases alike with
      | ifThen first second =>
        obtain ⟨inCondition, inThen⟩ := List.forall_mem_append.mp reached
        have tested := condition.resolve_alike (c := c) first proper.1 h inCondition
        have chosen := thenBranch.resolve_alike (c := c) second proper.2.1 tested inThen
        rw [Stmt.after, proper.2.2] at chosen
        exact chosen
    | some elseBranch =>
      cases alike with
      | ifElse first second third =>
        obtain ⟨inBoth, inElse⟩ := List.forall_mem_append.mp reached
        obtain ⟨inCondition, inThen⟩ := List.forall_mem_append.mp inBoth
        have tested := condition.resolve_alike (c := c) first proper.1 h inCondition
        have chosen := thenBranch.resolve_alike (c := c) second proper.2.1.1 tested inThen
        rw [Stmt.after, proper.2.1.2] at chosen
        have other := elseBranch.resolve_alike (c := c) third proper.2.2.1 chosen inElse
        rw [Stmt.after, proper.2.2.2] at other
        exact other
  | whileLoop condition body =>
    cases alike with
    | whileLoop first second =>
      obtain ⟨inCondition, inBody⟩ := List.forall_mem_append.mp reached
      have tested := condition.resolve_alike (c := c) first proper.1 h inCondition
      have round := body.resolve_alike (c := c) second proper.2.1 tested inBody
      rw [Stmt.after, proper.2.2] at round
      exact round
  | breakLoop keyword =>
    cases alike
    exact h
  | returnFrom keyword value =>
    cases value with
    | none =>
      cases alike with
      | returnFrom tokens => exact h.checkReturnIn c lawful tokens false
    | some e =>
      cases alike with
      | returnWith tokens alike =>
        exact e.resolve_alike alike proper (h.checkReturnIn c lawful tokens true) reached
  | function declaration =>
    cases alike with
    | function named alike =>
      exact declaration.resolve_alike (c := { c with function := .function }) alike proper
        (h.introduce named) reached
  | classDecl name superclass methods =>
    cases alike with
    | base tokens named alike =>
      have entered := (h.introduce named).enterClass lawful distinct methods
      have walked := FunctionDecl.resolveAll_alike (c := { c with cls := .plain }) methods alike
        proper.2 entered reached
      exact ⟨walked.alike.leave rfl, congrArg List.tail walked.scopes⟩
    | derived tokens named uses alike =>
      obtain ⟨here, inMethods⟩ := List.forall_mem_cons.mp reached
      have inner := (h.introduce named).enterDerived lawful distinct methods uses here tokens
        named.known (r.at?_introduce tokens named)
      have walked := FunctionDecl.resolveAll_alike (c := { c with cls := .derived }) methods alike
        proper.2.2 (inner.enterClass lawful distinct methods) inMethods
      -- Both scopes are left, that of `this` and that of `super`.
      exact ⟨(walked.alike.leave rfl).leave rfl,
        congrArg (fun scopes => (List.tail scopes).tail) walked.scopes⟩
termination_by structural s

theorem Stmt.resolveAll_alike {Γ : Renamings} {ls : Levels} {c : Context} (ss : List Stmt)
    {ss' : List Stmt} (alike : Stmt.AllAlike P Γ ss ss') (proper : Stmt.ProperAll ss)
    {r r' : Resolution} (h : r.AlikeAt P Γ ls r')
    (reached : ∀ o ∈ Stmt.occurrencesAll ls ss, P.distances o.use.id o.distance?) :
    (Stmt.resolveAllIn c ss r).AlikeAt P Γ (ss.foldl Stmt.after ls) (Stmt.resolveAllIn c ss' r') := by
  cases ss with
  | nil =>
    cases alike
    exact h
  | cons s ss =>
    obtain _ | ⟨first, rest⟩ := alike
    obtain ⟨inFirst, inRest⟩ := List.forall_mem_append.mp reached
    exact Stmt.resolveAll_alike ss rest proper.2 (s.resolve_alike first proper.1 h inFirst) inRest
termination_by structural ss

end

/-- Programs that are alike have the same distances and errors, if each use has a distance that its
new name allows for. -/
theorem Program.Alike.resolve {p p' : Program} (alike : p.Alike P p') {i j : Nat}
    (proper : p.Lawful i j) (reached : ∀ o ∈ p.occurrences, P.distances o.use.id o.distance?) :
    p.resolve.Alike P .plain p'.resolve := by
  obtain ⟨inStatements, inTrailing⟩ := List.forall_mem_append.mp reached
  have start : Resolution.AlikeAt P .plain [] {} {} :=
    ⟨⟨fun _ => lawful.refl, .nil, fun _ _ _ => rfl, .nil⟩, rfl⟩
  have first := Stmt.resolveAll_alike (c := {}) lawful distinct p.statements alike.statements
    proper.statements start inStatements
  have trailing := alike.trailing
  rw [Program.resolve_eq, Program.resolve_eq]
  revert inTrailing trailing
  cases here : p.trailing <;> cases p'.trailing <;> intro inTrailing trailing
  · exact first.alike
  · cases trailing
  · cases trailing
  · obtain trailing | _ := trailing
    rw [Stmt.afterAll_nil] at first
    exact (Expr.resolve_alike lawful distinct _ trailing (proper.trailing _ here) first
      inTrailing).alike

end Programs

end Lox
