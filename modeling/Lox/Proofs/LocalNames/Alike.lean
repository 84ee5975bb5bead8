import Lox.Proofs.Alike
import Lox.Proofs.Code
import Lox.Proofs.LocalNames.Change
import Lox.Proofs.Resolved

/-!
# A changed program is alike

The program after the change of a name is alike to the program before, with the two names swapped in
the one scope. The new name must not occur, and a scope must not declare a name twice: this the
resolver has checked.
-/

namespace Lox

/-! ### Names are declared once -/

/-- What the resolver introduces without an error is new to the innermost scope. -/
theorem Resolution.new_of_declare {r : Resolution} {name : Token}
    (clean : (r.declare name).errors = []) : r.innermost? name.lexeme = none := by
  simpa using (Resolution.of_reportIf clean).1

theorem Resolution.new_of_introduce {r : Resolution} {name : Token}
    (clean : (r.introduce name).errors = []) : r.innermost? name.lexeme = none := by
  rw [introduce, define, errors_put] at clean
  exact new_of_declare clean

theorem Stmt.new_of_clean {c : Context} {s : Stmt} {r : Resolution}
    (clean : (s.resolveIn c r).errors = []) {x : String} (declares : s.declared? = some x) :
    r.innermost? x = none := by
  cases s with
  | var name initializer =>
    obtain rfl := Option.some.inj declares
    cases initializer with
    | none => exact Resolution.new_of_introduce clean
    | some e =>
      rw [Stmt.resolveIn, Resolution.define, Resolution.errors_put] at clean
      exact Resolution.new_of_declare (e.clean_before clean)
  | function declaration =>
    obtain rfl := Option.some.inj declares
    exact Resolution.new_of_introduce (declaration.clean_before clean)
  | classDecl name superclass methods =>
    obtain rfl := Option.some.inj declares
    cases superclass with
    | none =>
      have entered := FunctionDecl.clean_before_all methods clean
      rw [Resolution.enterClass, Resolution.errors_put] at entered
      exact Resolution.new_of_introduce entered
    | some superclass =>
      have entered := FunctionDecl.clean_before_all methods clean
      rw [Resolution.enterClass, Resolution.errors_put] at entered
      change (Resolution.enterDerived _ name superclass).errors = [] at entered
      rw [Resolution.enterDerived, Resolution.errors_put] at entered
      exact Resolution.new_of_introduce
        (Resolution.of_reportIf (Resolution.of_read entered).2).2
  | _ => cases declares

section Once

variable {c : Context} {l : Level} {ls : Levels} {ss : List Stmt} {r : Resolution}

theorem Level.contains_introduce {name x : String} (inside : l.scope.contains x = true) :
    (l.introduce name).scope.contains x = true := by
  simp [Level.introduce, Level.put, Std.TreeMap.contains_insert, inside]

theorem Level.contains_introduce_self (l : Level) (x : String) :
    (l.introduce x).scope.contains x = true := by
  simp [Level.introduce, Level.put]

/-- A name that the innermost scope holds is not declared again. -/
theorem Stmt.not_declared (proper : Stmt.ProperAll ss)
    (scopes : r.scopes = (l :: ls).map Level.scope) (around : c.cls.Around (l :: ls))
    (clean : (Stmt.resolveAllIn c ss r).errors = []) {x : String}
    (inside : l.scope.contains x = true) {s : Stmt} (mem : s ∈ ss) : s.declared? ≠ some x := by
  induction ss generalizing l r with
  | nil => cases mem
  | cons t ss ih =>
    have first := Stmt.clean_before_all ss clean
    rcases List.mem_cons.mp mem with rfl | mem
    · intro declares
      have new := Stmt.new_of_clean first declares
      rw [Resolution.innermost?, scopes] at new
      rw [Std.TreeMap.contains_eq_isSome_getElem?] at inside
      rw [show l.scope[x]? = none from new] at inside
      cases inside
    · have walked := t.walked proper.1 scopes around first
      have around' := around.after proper.1
      unfold Stmt.after at walked around'
      cases declares : t.declared? with
      | none =>
        rw [declares] at walked around'
        exact ih proper.2 walked.scopes around' clean inside mem
      | some name =>
        rw [declares] at walked around'
        exact ih proper.2 walked.scopes around' clean (Level.contains_introduce inside) mem

/-- Two statements of a scope that declare the same name are the same. -/
theorem Stmt.eq_of_declared (proper : Stmt.ProperAll ss)
    (scopes : r.scopes = (l :: ls).map Level.scope) (around : c.cls.Around (l :: ls))
    (clean : (Stmt.resolveAllIn c ss r).errors = []) {x : String} {s t : Stmt} (hs : s ∈ ss)
    (ht : t ∈ ss) (first : s.declared? = some x) (second : t.declared? = some x) : s = t := by
  induction ss generalizing l r with
  | nil => cases hs
  | cons u ss ih =>
    have before := Stmt.clean_before_all ss clean
    have walked := u.walked proper.1 scopes around before
    have around' := around.after proper.1
    unfold Stmt.after at walked around'
    have later {v : Stmt} (here : u.declared? = some x) (mem : v ∈ ss) :
        v.declared? ≠ some x := by
      rw [here] at walked around'
      exact Stmt.not_declared proper.2 walked.scopes around' clean
        (Level.contains_introduce_self l x) mem
    rcases List.mem_cons.mp hs with rfl | inS <;> rcases List.mem_cons.mp ht with rfl | inT
    · rfl
    · exact absurd second (later first inT)
    · exact absurd first (later second inS)
    · cases declares : u.declared? with
      | none =>
        rw [declares] at walked around'
        exact ih proper.2 walked.scopes around' clean inS inT
      | some name =>
        rw [declares] at walked around'
        exact ih proper.2 walked.scopes around' clean inS inT

end Once

namespace NameChange

variable (k : NameChange)

def around (depth : Option Nat) : Renamings := fun d =>
  if depth = some d then Equiv.swap k.old k.new else Equiv.refl String

/-- How the programs before and after the change may differ, with the numbers of their uses from `n`
on. -/
def pairing (n : Nat) (ds : Distances) : Pairing where
  lines := Eq
  ids i i' := i' = i ∧ n ≤ i
  distances i d := ds[i]? = d
  names x := x ≠ k.new
  renames ρ :=
    ρ = Equiv.refl String ∨ (ρ = Equiv.swap k.old k.new ∧ TokenType.keywords.lookup k.old = none)

variable {k}

theorem around_none : k.around none = .plain := by
  funext d
  exact if_neg nofun

theorem around_enter (p : Place) (outside : Option Nat) (params : List Token)
    (body : List Stmt) : k.around (k.enter p outside params body) =
      (k.around outside).push (k.around (k.enter p outside params body) 0) := by
  funext d
  cases d with
  | zero => rfl
  | succ d =>
    cases outside with
    | some e => simp [around, enter, Renamings.push]
    | none =>
      unfold enter
      dsimp only
      split <;> simp [around, Renamings.push]

theorem around_succ (depth : Option Nat) :
    k.around (depth.map (· + 1)) = (k.around depth).push (Equiv.refl String) := by
  funext d
  cases d with
  | zero => cases depth <;> simp [around, Renamings.push]
  | succ d => cases depth <;> simp [around, Renamings.push]

theorem around_succ_succ (depth : Option Nat) : k.around (depth.map (· + 2)) =
    ((k.around depth).push (Equiv.refl String)).push (Equiv.refl String) := by
  have twice : depth.map (· + 2) = (depth.map (· + 1)).map (· + 1) := by cases depth <;> rfl
  rw [twice, around_succ, around_succ]

variable {n : Nat} {ds : Distances} {depth : Option Nat}

/-! ### Names and uses -/

theorem lexeme_declare {name : Token} (known : name.lexeme ≠ k.new) :
    (k.declare depth name).lexeme = k.around depth 0 name.lexeme := by
  unfold declare around
  by_cases here : depth = some 0
  · by_cases same : name.lexeme = k.old
    · simp [here, same]
    · simp [here, same, Equiv.swap_apply_of_ne_of_ne same known]
  · simp [here]

theorem named_declare {name : Token} (known : name.lexeme ≠ k.new) :
    (k.pairing n ds).Named (k.around depth 0) name (k.declare depth name) := by
  refine ⟨?_, lexeme_declare known, known, ?_⟩
  · unfold declare
    split <;> rfl
  · unfold declare
    split <;> rfl

/-- A name that is not changed, since the variable has another name or another scope. -/
theorem named_self {name : Token} (known : name.lexeme ≠ k.new)
    (other : depth = some 0 → name.lexeme ≠ k.old) :
    (k.pairing n ds).Named (k.around depth 0) name name := by
  refine ⟨rfl, ?_, known, rfl⟩
  unfold around
  by_cases here : depth = some 0
  · simp [here, Equiv.swap_apply_of_ne_of_ne (other here) known]
  · simp [here]

theorem uses_refer {use : Use} (known : use.name.lexeme ≠ k.new) (new : n ≤ use.id) :
    (k.pairing n ds).Uses (k.around depth) use (k.refer ds depth use) := by
  refine ⟨⟨?_, new⟩, ?_, ?_, known, ?_⟩
  · unfold refer
    split <;> rfl
  · unfold refer
    split <;> rfl
  · rintro _ rfl
    unfold refer around
    cases recorded : ds[use.id]? with
    | none => cases depth <;> simp [Renamings.at?]
    | some d =>
      by_cases here : depth = some d
      · by_cases same : use.name.lexeme = k.old
        · simp [here, same, Renamings.at?]
        · simp [here, same, Renamings.at?, Equiv.swap_apply_of_ne_of_ne same known]
      · have other : ¬ some d = depth := fun same => here same.symm
        simp [here, other, Renamings.at?]
  · unfold refer
    split <;> rfl

theorem renames_around (allowed : depth = none ∨ TokenType.keywords.lookup k.old = none) (d : Nat) :
    (k.pairing n ds).renames (k.around depth d) := by
  unfold around
  split
  next here =>
    rw [here] at allowed
    exact .inr ⟨rfl, allowed.resolve_left nofun⟩
  · exact .inl rfl

/-- Keywords are no names of variables. -/
theorem apply_keyword {ρ : Renaming} (renames : (k.pairing n ds).renames ρ) {word : String}
    (keyword : (TokenType.keywords.lookup word).isSome = true) (known : word ≠ k.new) :
    ρ word = word := by
  obtain rfl | ⟨rfl, old⟩ := renames
  · rfl
  · refine Equiv.swap_apply_of_ne_of_ne ?_ known
    rintro rfl
    rw [old] at keyword
    cases keyword

theorem uses_keyword (allowed : depth = none ∨ TokenType.keywords.lookup k.old = none) {use : Use}
    {word : String} (spelled : use.name.lexeme = word)
    (keyword : (TokenType.keywords.lookup word).isSome = true) (known : use.name.lexeme ≠ k.new)
    (le : n ≤ use.id) : (k.pairing n ds).Uses (k.around depth) use use := by
  subst spelled
  refine ⟨⟨rfl, le⟩, rfl, fun d _ => ?_, known, rfl⟩
  cases d with
  | none => rfl
  | some d =>
    have renames : (k.pairing n ds).renames (k.around depth d) := renames_around allowed d
    exact (apply_keyword renames keyword known).symm

end NameChange

/-! ### Scopes -/

/-- How a program is like itself if the name does not occur in it. -/
def Pairing.avoiding (n : Nat) (y : String) : Pairing where
  lines := Eq
  ids i i' := i' = i ∧ n ≤ i
  distances _ _ := True
  names x := x ≠ y
  renames ρ := ρ = Equiv.refl String

namespace NameChange

variable {k : NameChange} {n : Nat} {ds : Distances} {c : Context} {ls : Levels} {r : Resolution}
  {p : Place} {outside : Option Nat} {params : List Token} {body : List Stmt}

/-- The scope of the variable declares no function and no class of the same name. -/
theorem isVar_of_enter (k : NameChange) (p : Place) (outside : Option Nat) {l : Level}
    (proper : Stmt.ProperAll body) (scopes : r.scopes = (l :: ls).map Level.scope)
    (around : c.cls.Around (l :: ls))
    (clean : (Stmt.resolveAllIn c body r).errors = [])
    (inside : ∀ p ∈ params, l.scope.contains p.lexeme = true)
    (here : k.enter p outside params body = some 0) {s : Stmt} (mem : s ∈ body)
    (declares : s.declared? = some k.old) : s.isVar k.old = true := by
  have declared : k.declaredBy params body = true := by
    unfold enter at here
    split at here
    · cases here
    · split at here
      next both => exact both.2
      · cases here
  rcases Bool.or_eq_true .. ▸ declared with found | found
  · obtain ⟨p, isParam, same⟩ := List.any_eq_true.mp found
    have held := inside p isParam
    rw [eq_of_beq same] at held
    exact absurd declares (Stmt.not_declared proper scopes around clean held mem)
  · obtain ⟨t, other, isVar⟩ := List.any_eq_true.mp found
    have names : t.declared? = some k.old := by
      cases t with
      | var name initializer => exact congrArg some (eq_of_beq isVar)
      | _ => cases isVar
    rwa [Stmt.eq_of_declared proper scopes around clean mem other declares names]

/-- The old name is no keyword if the scope declares it. -/
theorem allowed_enter (proper : Stmt.ProperAll body) (names : ∀ p ∈ params, p.IsName)
    (allowed : outside = none ∨ TokenType.keywords.lookup k.old = none) :
    k.enter p outside params body = none ∨ TokenType.keywords.lookup k.old = none := by
  unfold enter
  cases outside with
  | some d => exact .inr (allowed.resolve_left nofun)
  | none =>
    by_cases both : p = k.scope ∧ k.declaredBy params body = true
    · right
      rcases Bool.or_eq_true .. ▸ both.2 with found | found
      · obtain ⟨p, isParam, same⟩ := List.any_eq_true.mp found
        exact eq_of_beq same ▸ names p isParam
      · obtain ⟨t, mem, isVar⟩ := List.any_eq_true.mp found
        cases t with
        | var name initializer =>
          have isName : name.IsName := by
            have whole := proper.of_mem mem
            cases initializer with
            | none => exact whole
            | some e => exact whole.1
          exact eq_of_beq isVar ▸ isName
        | _ => cases isVar
    · exact .inl (if_neg both)

theorem named_params (known : ∀ p ∈ params, p.lexeme ≠ k.new) (depth : Option Nat) :
    List.Forall₂ ((k.pairing n ds).Named (k.around depth 0)) params
      (params.map (k.declare depth)) := by
  induction params with
  | nil => exact .nil
  | cons p params ih =>
    obtain ⟨first, rest⟩ := List.forall_mem_cons.mp known
    exact .cons (named_declare first) (ih rest)

end NameChange

theorem Level.contains_introduceAll {l : Level} {params : List Token} {x : String}
    (inside : l.scope.contains x = true) :
    (params.foldl (fun l p => l.introduce p.lexeme) l).scope.contains x = true := by
  induction params generalizing l with
  | nil => exact inside
  | cons p params ih => exact ih (contains_introduce inside)

theorem Level.contains_param {params : List Token} (body : List Stmt) {p : Token}
    (mem : p ∈ params) : (Level.function params body).scope.contains p.lexeme = true := by
  unfold Level.function
  generalize ({ site := .function params body } : Level) = l
  induction params generalizing l with
  | nil => cases mem
  | cons q params ih =>
    rw [List.foldl_cons]
    rcases List.mem_cons.mp mem with rfl | mem
    · exact contains_introduceAll (contains_introduce_self l p.lexeme)
    · exact ih mem _

/-! ### Programs -/

section Programs

open NameChange

variable {k : NameChange} {n : Nat} {ds : Distances}

/-- Each parameter is known to the pairing. -/
theorem Pairing.avoids_params {y : String} {ρ : Renaming} {params params' : List Token}
    (known : List.Forall₂ ((Pairing.avoiding n y).Named ρ) params params') :
    ∀ p ∈ params, p.lexeme ≠ y := by
  induction known with
  | nil => nofun
  | cons first _ ih => exact List.forall_mem_cons.mpr ⟨first.known, ih⟩

structure NameChange.At (k : NameChange) (c : Context) (ls : Levels) (r : Resolution)
    (depth : Option Nat) : Prop where
  scopes : r.scopes = ls.map Level.scope
  around : c.cls.Around ls
  allowed : depth = none ∨ TokenType.keywords.lookup k.old = none

namespace NameChange.At

variable {c : Context} {ls : Levels} {r : Resolution} {p : Place} {depth : Option Nat}
  (h : k.At c ls r depth)

include h

/-- Only the class around is looked at. -/
theorem context {c' : Context} (same : c'.cls = c.cls) : k.At c' ls r depth :=
  ⟨h.scopes, same ▸ h.around, h.allowed⟩

theorem expr {e : Expr} (proper : e.Proper) (clean : (e.resolveIn c r).errors = []) :
    k.At c ls (e.resolveIn c r) depth :=
  ⟨(e.walked proper h.scopes h.around clean).scopes, h.around, h.allowed⟩

theorem stmt {s : Stmt} (proper : s.Proper) (clean : (s.resolveIn c r).errors = []) :
    k.At c (s.after ls) (s.resolveIn c r) depth :=
  ⟨(s.walked proper h.scopes h.around clean).scopes, h.around.after proper, h.allowed⟩

theorem enter {body : List Stmt} (proper : Stmt.ProperAll body) :
    k.At c (.block body :: ls) r.enter (k.enter p depth [] body) :=
  ⟨congrArg (∅ :: ·) h.scopes, h.around.block body,
    allowed_enter proper (List.forall_mem_nil _) h.allowed⟩

theorem enterFunction {params : List Token} {body : List Stmt} (names : ∀ t ∈ params, t.IsName)
    (proper : Stmt.ProperAll body) :
    k.At c (.function params body :: ls) (r.enterFunction params) (k.enter p depth params body) :=
  ⟨Resolution.scopes_enterFunction h.scopes params body, h.around.function names body,
    allowed_enter proper names h.allowed⟩

theorem inInitializer {name : Token} (isName : name.IsName) (e : Expr) :
    k.At c (ls.modifyHead (·.inInitializer name e)) (r.declare name) depth := by
  have declared := Resolution.scopes_declare h.scopes name
  have scopes : (r.declare name).scopes =
      (ls.modifyHead (·.inInitializer name e)).map Level.scope := by
    cases ls <;> exact declared
  exact ⟨scopes, h.around.inInitializer isName e, h.allowed⟩

theorem introduce {name : Token} (isName : name.IsName) :
    k.At c (ls.introduce name.lexeme) (r.introduce name) depth :=
  ⟨Resolution.scopes_introduce h.scopes name, h.around.introduce isName, h.allowed⟩

theorem further (more : Nat) :
    depth.map (· + more) = none ∨ TokenType.keywords.lookup k.old = none :=
  h.allowed.imp_left fun none => by rw [none]; rfl

theorem enterClass (name : Token) (methods : List FunctionDecl) :
    k.At { c with cls := .plain } (.methods methods :: ls.introduce name.lexeme)
      (r.introduce name).enterClass (depth.map (· + 1)) :=
  ⟨congrArg ((∅ : Scope).insert "this" true :: ·) (Resolution.scopes_introduce h.scopes name),
    ⟨0, Levels.reach_methods _ _⟩, h.further 1⟩

theorem enterDerived {name : Token} {superclass : Use} (methods : List FunctionDecl)
    (clean : ((r.introduce name).enterDerived name superclass).errors = []) :
    k.At { c with cls := .derived }
      (.methods methods :: .superclass superclass methods :: ls.introduce name.lexeme)
      ((r.introduce name).enterDerived name superclass).enterClass (depth.map (· + 2)) := by
  have introduced := Resolution.scopes_introduce h.scopes name
  rw [Resolution.enterDerived, Resolution.errors_put] at clean
  have checked := (Resolution.scopes_reportIf (r.introduce name)
    (superclass.name.lexeme == name.lexeme) superclass.name .selfInheritance).trans introduced
  have scopes : ((r.introduce name).enterDerived name superclass).enterClass.scopes =
      (Level.methods methods :: .superclass superclass methods ::
        ls.introduce name.lexeme).map Level.scope :=
    congrArg (fun scopes => (∅ : Scope).insert "this" true ::
      (∅ : Scope).insert "super" true :: scopes) (Walked.read checked clean).scopes
  exact ⟨scopes, ⟨0, Levels.reach_methods _ _, Levels.reach_superclass _ _ _⟩, h.further 2⟩

end NameChange.At

mutual

theorem Expr.alike_changeName {c : Context} {ls : Levels} {Γ : Renamings} (e : Expr)
    {r : Resolution} {p : Place} {depth : Option Nat} (proper : e.Proper)
    (h : k.At c ls r depth) (clean : (e.resolveIn c r).errors = [])
    (known : e.Alike (.avoiding n k.new) Γ e) :
    e.Alike (k.pairing n ds) (k.around depth) (e.changeName k ds p depth) := by
  cases e with
  | literal value => exact .literal
  | grouping inner =>
    obtain _ | ⟨known⟩ := known
    exact .grouping (inner.alike_changeName proper h clean known)
  | unary operator operand =>
    cases known with
    | unary _ known => exact .unary ⟨rfl, rfl, rfl⟩ (operand.alike_changeName proper h clean known)
  | binary left operator right =>
    cases known with
    | binary first _ second =>
      have before := right.clean_before clean
      exact .binary (left.alike_changeName proper.1 h before first) ⟨rfl, rfl, rfl⟩
        (right.alike_changeName proper.2 (h.expr proper.1 before) clean second)
  | logical left operator right =>
    cases known with
    | logical first _ second =>
      have before := right.clean_before clean
      exact .logical (left.alike_changeName proper.1 h before first) ⟨rfl, rfl, rfl⟩
        (right.alike_changeName proper.2 (h.expr proper.1 before) clean second)
  | «variable» use =>
    cases known with
    | «variable» uses => exact .variable (uses_refer uses.known uses.ids.2)
  | assign target value =>
    cases known with
    | assign uses known =>
      rw [Expr.resolveIn, Resolution.errors_record] at clean
      exact .assign (uses_refer uses.known uses.ids.2)
        (value.alike_changeName proper.2 h clean known)
  | this use =>
    cases known with
    | this uses => exact .this (uses_keyword h.allowed proper rfl uses.known uses.ids.2)
  | super use method =>
    cases known with
    | super uses _ =>
      exact .super (uses_keyword h.allowed proper rfl uses.known uses.ids.2) ⟨rfl, rfl, rfl⟩
  | call callee paren arguments =>
    cases known with
    | call first _ rest =>
      have before := Expr.clean_before_all arguments clean
      exact .call (callee.alike_changeName proper.1 h before first) ⟨rfl, rfl, rfl⟩
        (Expr.alike_changeNameAll arguments proper.2 (h.expr proper.1 before) clean rest)
  | get object name =>
    cases known with
    | get known _ => exact .get (object.alike_changeName proper h clean known) ⟨rfl, rfl, rfl⟩
  | set object name value =>
    cases known with
    | set first _ second =>
      have before := object.clean_before clean
      exact .set (object.alike_changeName proper.1 (h.expr proper.2 before) clean first)
        ⟨rfl, rfl, rfl⟩ (value.alike_changeName proper.2 h before second)
  | lambda params body =>
    cases known with
    | lambda _ named known =>
      have inside : k.At { c with function := .function } ls r depth := h.context rfl
      have entered := inside.enterFunction (p := p) proper.1 proper.2
      have clean : (Stmt.resolveAllIn { c with function := .function } body
        (r.enterFunction params)).errors = [] := clean
      have isVar := isVar_of_enter k p depth proper.2 entered.scopes entered.around clean
        fun p => Level.contains_param body
      have inner := Stmt.alike_changeNameAll (p := p) (i := 0) body proper.2 entered clean known
        fun here s => isVar here
      rw [around_enter] at inner
      exact .lambda (renames_around entered.allowed 0)
        (named_params (Pairing.avoids_params named) _) inner
termination_by structural e

theorem Expr.alike_changeNameAll {c : Context} {ls : Levels} {Γ : Renamings} (es : List Expr)
    {r : Resolution} {p : Place} {depth : Option Nat} {i : Nat} (proper : Expr.ProperAll es)
    (h : k.At c ls r depth) (clean : (Expr.resolveAllIn c es r).errors = [])
    (known : Expr.AllAlike (.avoiding n k.new) Γ es es) :
    Expr.AllAlike (k.pairing n ds) (k.around depth) es
      (Expr.changeNameAll k ds p depth i es) := by
  cases es with
  | nil => exact .nil
  | cons e es =>
    obtain _ | ⟨first, rest⟩ := known
    have before := Expr.clean_before_all es clean
    exact .cons (e.alike_changeName proper.1 h before first)
      (Expr.alike_changeNameAll es proper.2 (h.expr proper.1 before) clean rest)
termination_by structural es

theorem FunctionDecl.alike_changeName {c : Context} {ls : Levels} {Γ : Renamings}
    (f : FunctionDecl) {r : Resolution} {p : Place} {depth : Option Nat} (proper : f.Proper)
    (h : k.At c ls r depth) (clean : (f.resolveIn c r).errors = [])
    (known : f.Alike (.avoiding n k.new) Γ f) :
    f.Alike (k.pairing n ds) (k.around depth) (f.changeName k ds p depth) := by
  cases f with
  | mk name params body =>
    cases known with
    | mk _ _ named known =>
      have entered := h.enterFunction (p := p) proper.2.1 proper.2.2
      have clean : (Stmt.resolveAllIn c body (r.enterFunction params)).errors = [] := clean
      have isVar := isVar_of_enter k p depth proper.2.2 entered.scopes entered.around clean
        fun p => Level.contains_param body
      have inner := Stmt.alike_changeNameAll (p := p) (i := 0) body proper.2.2 entered clean known
        fun here s => isVar here
      rw [around_enter] at inner
      exact .mk ⟨rfl, rfl, rfl⟩ (renames_around entered.allowed 0)
        (named_params (Pairing.avoids_params named) _) inner
termination_by structural f

theorem FunctionDecl.alike_changeNameAll {c : Context} {ls : Levels} {Γ : Renamings}
    (fs : List FunctionDecl) {r : Resolution} {p : Place} {depth : Option Nat} {i : Nat}
    (proper : FunctionDecl.ProperAll fs) (h : k.At c ls r depth)
    (clean : (FunctionDecl.resolveAllIn c fs r).errors = [])
    (known : FunctionDecl.AllAlike (.avoiding n k.new) Γ fs fs) :
    FunctionDecl.AllAlike (k.pairing n ds) (k.around depth) fs
      (FunctionDecl.changeNameAll k ds p depth i fs) := by
  cases fs with
  | nil => exact .nil
  | cons f fs =>
    obtain _ | ⟨first, rest⟩ := known
    have before := FunctionDecl.clean_before_all fs clean
    have scopes := (f.walked (c := c.ofMethod f) proper.1 h.scopes h.around before).scopes
    exact .cons
      (f.alike_changeName (c := c.ofMethod f) proper.1 (h.context rfl) before first)
      (FunctionDecl.alike_changeNameAll fs proper.2 ⟨scopes, h.around, h.allowed⟩ clean rest)
termination_by structural fs

theorem Stmt.alike_changeName {c : Context} {ls : Levels} {Γ : Renamings} (s : Stmt)
    {r : Resolution} {p : Place} {depth : Option Nat} (proper : s.Proper)
    (h : k.At c ls r depth) (clean : (s.resolveIn c r).errors = [])
    (known : s.Alike (.avoiding n k.new) Γ s)
    (isVar : depth = some 0 → s.declared? = some k.old → s.isVar k.old = true) :
    s.Alike (k.pairing n ds) (k.around depth) (s.changeName k ds p depth) := by
  cases s with
  | expression e =>
    cases known with
    | expression known => exact .expression (e.alike_changeName proper h clean known)
  | print e =>
    cases known with
    | print known => exact .print (e.alike_changeName proper h clean known)
  | var name initializer =>
    cases initializer with
    | none =>
      cases known with
      | var named => exact .var (named_declare named.known)
    | some e =>
      cases known with
      | varWith named known =>
        rw [Stmt.resolveIn, Resolution.define, Resolution.errors_put] at clean
        exact .varWith (named_declare named.known)
          (e.alike_changeName proper.2 (h.inInitializer proper.1 e) clean known)
  | block body =>
    cases known with
    | block _ known =>
      -- Inside, the variable is one of the block, or it is one scope further away.
      have entered := h.enter (p := p) proper
      have clean : (Stmt.resolveAllIn c body r.enter).errors = [] := clean
      have isVar := isVar_of_enter k p depth proper entered.scopes entered.around clean
        (List.forall_mem_nil _)
      have inner := Stmt.alike_changeNameAll (p := p) (i := 0) body proper entered clean known
        fun here s => isVar here
      rw [around_enter] at inner
      exact .block (renames_around entered.allowed 0) inner
  | ifElse condition thenBranch elseBranch =>
    cases elseBranch with
    | none =>
      cases known with
      | ifThen first second =>
        have before := thenBranch.clean_before clean
        -- A branch declares nothing, so its name cannot be the one that changes.
        refine .ifThen (condition.alike_changeName proper.1 h before first)
          (thenBranch.alike_changeName proper.2.1 (h.expr proper.1 before) clean second ?_)
        rw [proper.2.2]
        nofun
    | some elseBranch =>
      cases known with
      | ifElse first second third =>
        have before₂ := elseBranch.clean_before clean
        have before := thenBranch.clean_before before₂
        have chosen := h.expr proper.1 before
        have other := chosen.stmt proper.2.1.1 before₂
        rw [Stmt.after, proper.2.1.2] at other
        refine .ifElse (condition.alike_changeName proper.1 h before first)
          (thenBranch.alike_changeName proper.2.1.1 chosen before₂ second ?_)
          (elseBranch.alike_changeName proper.2.2.1 other clean third ?_)
        · rw [proper.2.1.2]
          nofun
        · rw [proper.2.2.2]
          nofun
  | whileLoop condition body =>
    cases known with
    | whileLoop first second =>
      have before := body.clean_before clean
      refine .whileLoop (condition.alike_changeName proper.1 h before first)
        (body.alike_changeName proper.2.1 (h.expr proper.1 before) clean second ?_)
      rw [proper.2.2]
      nofun
  | breakLoop keyword => exact .breakLoop ⟨rfl, rfl, rfl⟩
  | returnFrom keyword value =>
    cases value with
    | none => exact .returnFrom ⟨rfl, rfl, rfl⟩
    | some e =>
      cases known with
      | returnWith _ known =>
        -- Where `return` is not allowed an error was reported, so here it is.
        have checked := Resolution.of_checkReturn (e.clean_before clean)
        rw [Stmt.resolveIn, checked] at clean
        exact .returnWith ⟨rfl, rfl, rfl⟩ (e.alike_changeName proper h clean known)
  | function declaration =>
    cases known with
    | function named known =>
      have isName : declaration.name.IsName := by
        cases declaration
        exact proper.1
      have inner := declaration.alike_changeName (c := { c with function := .function })
        (p := p) proper ((h.introduce isName).context rfl) clean known
      -- Inside the function the name may change; the name of the function does not.
      have kept : (declaration.changeName k ds p depth).name = declaration.name := by
        cases declaration
        rfl
      refine .function ?_ inner
      rw [kept]
      exact named_self named.known fun here same =>
        Bool.false_ne_true (isVar here (congrArg some same))
  | classDecl name superclass methods =>
    have other : depth = some 0 → name.lexeme ≠ k.old := fun here same =>
      Bool.false_ne_true (isVar here (congrArg some same))
    cases superclass with
    | none =>
      cases known with
      | base _ named known =>
        have inner := FunctionDecl.alike_changeNameAll (p := p) (i := 0) methods proper.2
          (h.enterClass name methods) clean known
        rw [around_succ] at inner
        exact .base ⟨rfl, rfl, rfl⟩ (named_self named.known other) inner
    | some superclass =>
      cases known with
      | derived _ named uses known =>
        have unopened : ((r.introduce name).enterDerived name superclass).errors = [] := by
          have := FunctionDecl.clean_before_all methods clean
          rwa [Resolution.enterClass, Resolution.errors_put] at this
        have inner := FunctionDecl.alike_changeNameAll (p := p) (i := 0) methods proper.2.2
          (h.enterDerived methods unopened) clean known
        rw [around_succ_succ] at inner
        exact .derived ⟨rfl, rfl, rfl⟩ (named_self named.known other)
          (uses_refer uses.known uses.ids.2) inner
termination_by structural s

theorem Stmt.alike_changeNameAll {c : Context} {ls : Levels} {Γ : Renamings} (ss : List Stmt)
    {r : Resolution} {p : Place} {depth : Option Nat} {i : Nat} (proper : Stmt.ProperAll ss)
    (h : k.At c ls r depth) (clean : (Stmt.resolveAllIn c ss r).errors = [])
    (known : Stmt.AllAlike (.avoiding n k.new) Γ ss ss)
    (isVar : depth = some 0 → ∀ s ∈ ss, s.declared? = some k.old → s.isVar k.old = true) :
    Stmt.AllAlike (k.pairing n ds) (k.around depth) ss
      (Stmt.changeNameAll k ds p depth i ss) := by
  cases ss with
  | nil => exact .nil
  | cons s ss =>
    obtain _ | ⟨first, rest⟩ := known
    have before := Stmt.clean_before_all ss clean
    exact .cons
      (s.alike_changeName proper.1 h before first fun here => isVar here s List.mem_cons_self)
      (Stmt.alike_changeNameAll ss proper.2 (h.stmt proper.1 before) clean rest
        fun here t mem => isVar here t (List.mem_cons_of_mem _ mem))
termination_by structural ss

end

end Programs

end Lox
