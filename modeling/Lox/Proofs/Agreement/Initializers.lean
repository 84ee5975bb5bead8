import Lox.Proofs.Occurrences

/-!
# Uses in initializers

A use for which the initializer of a variable is under way, in a scope that is not its innermost,
stands in a function without a name: `Program.deferred_of_initializing`.
-/

namespace Lox

mutual

/-- The uses in the functions without a name of an expression; they wait for a call. -/
def Expr.deferred : Expr → List (UseKind × Use)
  | .literal _ => []
  | .grouping inner => inner.deferred
  | .unary _ operand => operand.deferred
  | .binary left _ right => left.deferred ++ right.deferred
  | .logical left _ right => left.deferred ++ right.deferred
  | .variable _ => []
  | .assign _ value => value.deferred
  | .this _ => []
  | .super _ _ => []
  | .call callee _ arguments => callee.deferred ++ Expr.deferredAll arguments
  | .get object _ => object.deferred
  | .set object _ value => object.deferred ++ value.deferred
  | .lambda _ body => Stmt.usesAll body
termination_by structural e => e

def Expr.deferredAll : List Expr → List (UseKind × Use)
  | [] => []
  | e :: es => e.deferred ++ Expr.deferredAll es
termination_by structural es => es

end

namespace Levels

/-- Around these uses, each initializer that is under way outside the innermost scope defers
them. -/
def Defers (ls : Levels) (us : List (UseKind × Use)) : Prop :=
  ∀ l ∈ ls.tail, ∀ name value, l.initializing = some (name, value) → ∀ u ∈ us, u ∈ value.deferred

/-- The initializer that is under way in the innermost scope has these uses in its functions. -/
def Holds (ls : Levels) (us : List (UseKind × Use)) : Prop :=
  ∀ l, ls.head? = some l → ∀ name value, l.initializing = some (name, value) →
    ∀ u ∈ us, u ∈ value.deferred

def Idle (ls : Levels) : Prop := ∀ l, ls.head? = some l → l.initializing = none

variable {ls : Levels} {us vs : List (UseKind × Use)}

theorem Defers.sub (h : ls.Defers us) (sub : ∀ u ∈ vs, u ∈ us) : ls.Defers vs :=
  fun l hl name value here u hu => h l hl name value here u (sub u hu)

theorem Holds.sub (h : ls.Holds us) (sub : ∀ u ∈ vs, u ∈ us) : ls.Holds vs :=
  fun l hl name value here u hu => h l hl name value here u (sub u hu)

theorem Idle.nil : Idle [] := by
  intro l here
  cases here

theorem Idle.modifyHead (h : ls.Idle) {f : Level → Level}
    (same : ∀ l, (f l).initializing = l.initializing) : Idle (ls.modifyHead f) := by
  cases ls with
  | nil => exact .nil
  | cons l outer =>
    intro l' here
    obtain rfl := Option.some.inj here
    exact (same l).trans (h l rfl)

theorem Idle.introduce (h : ls.Idle) (x : String) : (ls.introduce x).Idle :=
  h.modifyHead fun _ => rfl

theorem Idle.after (h : ls.Idle) (s : Stmt) : Idle (s.after ls) := by
  unfold Stmt.after
  cases s.declared? with
  | none => exact h
  | some x => exact h.introduce x

theorem tail_modifyHead (ls : Levels) (f : Level → Level) :
    (ls.modifyHead f).tail = ls.tail := by
  cases ls <;> rfl

theorem Defers.modifyHead (h : ls.Defers us) (f : Level → Level) :
    Defers (ls.modifyHead f) us := by
  unfold Defers
  rw [tail_modifyHead]
  exact h

theorem Defers.after (h : ls.Defers us) (s : Stmt) : Defers (s.after ls) us := by
  unfold Stmt.after
  cases s.declared? with
  | none => exact h
  | some x => exact h.modifyHead _

/-- Inside a new scope the scope around it is no longer the innermost. -/
theorem Defers.enter (h : ls.Defers us) (held : ls.Holds us) (l : Level) : Defers (l :: ls) us := by
  intro l' hl'
  cases ls with
  | nil => cases hl'
  | cons head outer =>
    obtain rfl | hl' := List.mem_cons.mp hl'
    · exact held _ rfl
    · exact h l' hl'

theorem Idle.holds (h : ls.Idle) : ls.Holds us := by
  intro l hl name value here
  rw [h l hl] at here
  cases here

theorem Defers.push (h : ls.Defers us) (idle : ls.Idle) (l : Level) : Defers (l :: ls) us :=
  h.enter idle.holds l

end Levels

theorem Level.initializing_function (params : List Token) (body : List Stmt) :
    (Level.function params body).initializing = none := by
  have fold (l : Level) : (params.foldl (fun l p => l.introduce p.lexeme) l).initializing =
      l.initializing := by
    induction params generalizing l with
    | nil => rfl
    | cons p params ih => exact ih _
  exact fold _

theorem Levels.Idle.cons {l : Level} {ls : Levels} (h : l.initializing = none) :
    Idle (l :: ls) := by
  intro l' here
  obtain rfl := Option.some.inj here
  exact h

def Occurrence.Deferred (o : Occurrence) : Prop := o.levels.Defers [o.plain]

theorem Occurrence.Deferred.of_mem {ls : Levels} {us : List (UseKind × Use)} (h : ls.Defers us)
    {kind : UseKind} {use : Use} (mem : (kind, use) ∈ us) :
    Deferred ⟨kind, use, ls⟩ :=
  h.sub fun _ hu => List.mem_singleton.mp hu ▸ mem

theorem Occurrence.deferred_nil : ∀ o ∈ ([] : List Occurrence), o.Deferred :=
  fun _ ho => absurd ho List.not_mem_nil

mutual

theorem Expr.deferred_occurrences (e : Expr) {ls : Levels} (defers : ls.Defers e.uses)
    (held : ls.Holds e.deferred) : ∀ o ∈ e.occurrences ls, o.Deferred := by
  cases e with
  | literal value => exact Occurrence.deferred_nil
  | grouping inner => exact inner.deferred_occurrences defers held
  | unary operator operand => exact operand.deferred_occurrences defers held
  | binary left operator right =>
    refine fun o ho => (List.mem_append.mp ho).elim ?_ ?_
    · exact left.deferred_occurrences (defers.sub fun u => List.mem_append_left _)
        (held.sub fun u => List.mem_append_left _) o
    · exact right.deferred_occurrences (defers.sub fun u => List.mem_append_right _)
        (held.sub fun u => List.mem_append_right _) o
  | logical left operator right =>
    refine fun o ho => (List.mem_append.mp ho).elim ?_ ?_
    · exact left.deferred_occurrences (defers.sub fun u => List.mem_append_left _)
        (held.sub fun u => List.mem_append_left _) o
    · exact right.deferred_occurrences (defers.sub fun u => List.mem_append_right _)
        (held.sub fun u => List.mem_append_right _) o
  | «variable» use =>
    intro o ho
    obtain rfl := List.mem_singleton.mp ho
    exact .of_mem defers List.mem_cons_self
  | assign target value =>
    refine fun o ho => (List.mem_append.mp ho).elim ?_ fun ho => ?_
    · exact value.deferred_occurrences (defers.sub fun u => List.mem_cons_of_mem _) held o
    · obtain rfl := List.mem_singleton.mp ho
      exact .of_mem defers List.mem_cons_self
  | this use =>
    intro o ho
    obtain rfl := List.mem_singleton.mp ho
    exact .of_mem defers List.mem_cons_self
  | super use method =>
    intro o ho
    obtain rfl := List.mem_singleton.mp ho
    exact .of_mem defers List.mem_cons_self
  | call callee paren arguments =>
    refine fun o ho => (List.mem_append.mp ho).elim ?_ ?_
    · exact callee.deferred_occurrences (defers.sub fun u => List.mem_append_left _)
        (held.sub fun u => List.mem_append_left _) o
    · exact Expr.deferred_occurrencesAll arguments (defers.sub fun u => List.mem_append_right _)
        (held.sub fun u => List.mem_append_right _) o
  | get object name => exact object.deferred_occurrences defers held
  | set object name value =>
    refine fun o ho => (List.mem_append.mp ho).elim ?_ ?_
    · exact value.deferred_occurrences (defers.sub fun u => List.mem_append_right _)
        (held.sub fun u => List.mem_append_right _) o
    · exact object.deferred_occurrences (defers.sub fun u => List.mem_append_left _)
        (held.sub fun u => List.mem_append_left _) o
  | lambda params body =>
    exact Stmt.deferred_occurrencesAll body (defers.enter held _)
      (.cons (Level.initializing_function params body))
termination_by structural e

theorem Expr.deferred_occurrencesAll (es : List Expr) {ls : Levels}
    (defers : ls.Defers (Expr.usesAll es)) (held : ls.Holds (Expr.deferredAll es)) :
    ∀ o ∈ Expr.occurrencesAll ls es, o.Deferred := by
  cases es with
  | nil => exact Occurrence.deferred_nil
  | cons e es =>
    refine fun o ho => (List.mem_append.mp ho).elim ?_ ?_
    · exact e.deferred_occurrences (defers.sub fun u => List.mem_append_left _)
        (held.sub fun u => List.mem_append_left _) o
    · exact Expr.deferred_occurrencesAll es (defers.sub fun u => List.mem_append_right _)
        (held.sub fun u => List.mem_append_right _) o
termination_by structural es

theorem FunctionDecl.deferred_occurrences (f : FunctionDecl) {ls : Levels}
    (defers : ls.Defers f.uses) (idle : ls.Idle) : ∀ o ∈ f.occurrences ls, o.Deferred := by
  cases f with
  | mk name params body =>
    exact Stmt.deferred_occurrencesAll body (Levels.Defers.push defers idle _)
      (.cons (Level.initializing_function params body))
termination_by structural f

theorem FunctionDecl.deferred_occurrencesAll (fs : List FunctionDecl) {ls : Levels}
    (defers : ls.Defers (FunctionDecl.usesAll fs)) (idle : ls.Idle) :
    ∀ o ∈ FunctionDecl.occurrencesAll ls fs, o.Deferred := by
  cases fs with
  | nil => exact Occurrence.deferred_nil
  | cons f fs =>
    refine fun o ho => (List.mem_append.mp ho).elim ?_ ?_
    · exact f.deferred_occurrences (defers.sub fun u => List.mem_append_left _) idle o
    · exact FunctionDecl.deferred_occurrencesAll fs
        (defers.sub fun u => List.mem_append_right _) idle o
termination_by structural fs

theorem Stmt.deferred_occurrences (s : Stmt) {ls : Levels} (defers : ls.Defers s.uses)
    (idle : ls.Idle) : ∀ o ∈ s.occurrences ls, o.Deferred := by
  cases s with
  | expression e => exact e.deferred_occurrences defers idle.holds
  | print e => exact e.deferred_occurrences defers idle.holds
  | var name initializer =>
    cases initializer with
    | none => exact Occurrence.deferred_nil
    | some e =>
      refine e.deferred_occurrences (defers.modifyHead _) fun l here name' value initializing => ?_
      cases ls with
      | nil => cases here
      | cons head outer =>
        obtain rfl := Option.some.inj here
        obtain ⟨rfl, rfl⟩ := Prod.mk.inj (Option.some.inj initializing)
        exact fun u hu => hu
  | block body => exact Stmt.deferred_occurrencesAll body (defers.push idle _) (.cons rfl)
  | ifElse condition thenBranch elseBranch =>
    cases elseBranch with
    | none =>
      refine fun o ho => (List.mem_append.mp ho).elim ?_ ?_
      · exact condition.deferred_occurrences (defers.sub fun u => List.mem_append_left _)
          idle.holds o
      · exact thenBranch.deferred_occurrences (defers.sub fun u => List.mem_append_right _) idle o
    | some elseBranch =>
      refine fun o ho => (List.mem_append.mp ho).elim (fun ho => (List.mem_append.mp ho).elim ?_ ?_) ?_
      · exact condition.deferred_occurrences
          (defers.sub fun u hu => List.mem_append_left _ (List.mem_append_left _ hu)) idle.holds o
      · exact thenBranch.deferred_occurrences
          (defers.sub fun u hu => List.mem_append_left _ (List.mem_append_right _ hu)) idle o
      · exact elseBranch.deferred_occurrences (defers.sub fun u => List.mem_append_right _) idle o
  | whileLoop condition body =>
    refine fun o ho => (List.mem_append.mp ho).elim ?_ ?_
    · exact condition.deferred_occurrences (defers.sub fun u => List.mem_append_left _)
        idle.holds o
    · exact body.deferred_occurrences (defers.sub fun u => List.mem_append_right _) idle o
  | breakLoop keyword => exact Occurrence.deferred_nil
  | returnFrom keyword value =>
    cases value with
    | none => exact Occurrence.deferred_nil
    | some e => exact e.deferred_occurrences defers idle.holds
  | function declaration =>
    exact declaration.deferred_occurrences (Levels.Defers.modifyHead defers _) (idle.introduce _)
  | classDecl name superclass methods =>
    have named : (ls.introduce name.lexeme).Idle := idle.introduce _
    cases superclass with
    | none =>
      exact FunctionDecl.deferred_occurrencesAll methods
        (Levels.Defers.push (Levels.Defers.modifyHead defers _) named _) (.cons rfl)
    | some superclass =>
      intro o ho
      obtain rfl | ho := List.mem_cons.mp ho
      · exact .of_mem (Levels.Defers.modifyHead defers _) List.mem_cons_self
      · have inside : Levels.Defers (.superclass superclass methods :: ls.introduce name.lexeme)
            (FunctionDecl.usesAll methods) :=
          Levels.Defers.push ((Levels.Defers.modifyHead defers _).sub fun u =>
            List.mem_cons_of_mem _) named _
        exact FunctionDecl.deferred_occurrencesAll methods
          (inside.push (.cons rfl) (.methods methods)) (.cons rfl) o ho
termination_by structural s

theorem Stmt.deferred_occurrencesAll (ss : List Stmt) {ls : Levels}
    (defers : ls.Defers (Stmt.usesAll ss)) (idle : ls.Idle) :
    ∀ o ∈ Stmt.occurrencesAll ls ss, o.Deferred := by
  cases ss with
  | nil => exact Occurrence.deferred_nil
  | cons s ss =>
    refine fun o ho => (List.mem_append.mp ho).elim ?_ ?_
    · exact s.deferred_occurrences (defers.sub fun u => List.mem_append_left _) idle o
    · exact Stmt.deferred_occurrencesAll ss
        ((defers.sub fun u => List.mem_append_right _).after s) (idle.after s) o
termination_by structural ss

end

/-- A use in the initializer of a variable, outside the scope of the variable itself, stands in a
function without a name. -/
theorem Program.deferred_of_initializing {p : Program} {o : Occurrence} (ho : o ∈ p.occurrences)
    {d : Nat} {l : Level} (here : o.levels[d]? = some l) (outer : d ≠ 0) {name : Token}
    {value : Expr} (initializing : l.initializing = some (name, value)) :
    o.plain ∈ value.deferred := by
  have nothing (us : List (UseKind × Use)) : Levels.Defers [] us :=
    fun l hl => absurd hl List.not_mem_nil
  have all : o.Deferred := by
    obtain ho | ho := List.mem_append.mp ho
    · exact Stmt.deferred_occurrencesAll _ (nothing _) .nil o ho
    · cases trailing : p.trailing with
      | none =>
        rw [trailing] at ho
        cases ho
      | some e =>
        rw [trailing] at ho
        exact e.deferred_occurrences (nothing _) Levels.Idle.nil.holds o ho
  refine all l ?_ name value initializing _ List.mem_cons_self
  obtain ⟨d, rfl⟩ := Nat.exists_eq_succ_of_ne_zero outer
  rw [← List.getElem?_tail] at here
  exact List.mem_of_getElem? here

end Lox
