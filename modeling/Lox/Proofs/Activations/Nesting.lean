import Mathlib.Data.List.Induction
import Mathlib.Data.List.Nodup
import Lox.Proofs.Agreement.Initializers
import Lox.Proofs.Agreement.Session
import Lox.Proofs.Points

/-!
# Scopes around a use

The scopes around a use are all different, since each stands inside the next, and the names that the
resolver finds in them are declared there: `occurs_nested`. The scopes around the body of a function
are the outer ones of each use in it: `Stmt.suffix_of_mem`. And a use in a session stands at one place
only, for uses have numbers of their own: `occurs_unique`.
-/

namespace Lox

/-! ### Scopes inside scopes -/

noncomputable def Site.size : Site → Nat
  | .block body => 1 + sizeOf body
  | .function _ body => 1 + sizeOf body
  | .methods decls => 1 + sizeOf decls
  | .superclass _ decls => 2 + sizeOf decls

def Site.names : Site → List String
  | .block body => (body.flatMap Stmt.declares).map Token.lexeme
  | .function params body => (params ++ body.flatMap Stmt.declares).map Token.lexeme
  | .methods _ => ["this"]
  | .superclass _ _ => ["super"]

def Level.Declares (l : Level) : Prop := ∀ x, l.scope.contains x = true → x ∈ l.site.names

namespace Level.Declares

variable {l : Level}

theorem put (h : l.Declares) {x : String} (declared : x ∈ l.site.names) (complete : Bool) :
    (l.put x complete).Declares := by
  intro y contains
  rw [Level.put, Std.TreeMap.contains_insert, Bool.or_eq_true] at contains
  rcases contains with same | contains
  · obtain rfl : x = y := by simpa using same
    exact declared
  · exact h y contains

theorem introduce (h : l.Declares) {x : String} (declared : x ∈ l.site.names) :
    (l.introduce x).Declares := (h.put declared false).put declared true

theorem inInitializer (h : l.Declares) {name : Token} (declared : name.lexeme ∈ l.site.names)
    (e : Expr) : (l.inInitializer name e).Declares := h.put declared false

theorem block (body : List Stmt) : (Level.block body).Declares := by
  intro x contains
  simp [Level.block] at contains

theorem function (params : List Token) (body : List Stmt) :
    (Level.function params body).Declares := by
  intro x contains
  rw [Std.TreeMap.contains_eq_isSome_getElem?, World.getElem?_function] at contains
  rw [World.site_function]
  split at contains
  next found =>
    obtain ⟨p, mem, rfl⟩ := found
    exact List.mem_map_of_mem (List.mem_append_left _ mem)
  · cases contains

theorem methods (methods : List FunctionDecl) : (Level.methods methods).Declares := by
  intro x contains
  rw [Level.methods, Std.TreeMap.contains_insert, Bool.or_eq_true] at contains
  obtain rfl : "this" = x := by simpa using contains
  exact List.mem_singleton_self _

theorem superclass (use : Use) (methods : List FunctionDecl) :
    (Level.superclass use methods).Declares := by
  intro x contains
  rw [Level.superclass, Std.TreeMap.contains_insert, Bool.or_eq_true] at contains
  obtain rfl : "super" = x := by simpa using contains
  exact List.mem_singleton_self _

end Level.Declares

namespace Levels

/-- Each scope is greater than those inside it, and the names found in it are declared there. -/
structure Nested (ls : Levels) : Prop where
  outwards : ls.Pairwise fun l l' => l.site.size < l'.site.size
  declared : ∀ l ∈ ls, l.Declares

/-- Code of this size stands inside, and declares these names in the innermost scope. -/
structure Enclose (ls : Levels) (size : Nat) (names : List Token) : Prop extends ls.Nested where
  inside : ∀ l ∈ ls, size < l.site.size
  here : ∀ l, ls.head? = some l → ∀ t ∈ names, t.lexeme ∈ l.site.names

namespace Enclose

variable {ls : Levels} {n k : Nat} {names names' : List Token}

theorem part (h : ls.Enclose n names) (le : k ≤ n) : ls.Enclose k [] :=
  ⟨h.toNested, fun l mem => Nat.lt_of_le_of_lt le (h.inside l mem),
    fun _ _ => List.forall_mem_nil _⟩

theorem branch (h : ls.Enclose n names) (le : k ≤ n) (sub : names' ⊆ names) : ls.Enclose k names' :=
  ⟨h.toNested, fun l mem => Nat.lt_of_le_of_lt le (h.inside l mem),
    fun l first t mem => h.here l first t (sub mem)⟩

theorem cons (h : ls.Enclose n names) {l : Level} (le : l.site.size ≤ n) (lt : k < l.site.size)
    (declared : l.Declares) (here : ∀ t ∈ names', t.lexeme ∈ l.site.names) :
    Enclose (l :: ls) k names' := by
  refine ⟨⟨.cons (fun l' mem => ?_) h.outwards, List.forall_mem_cons.mpr ⟨declared, h.declared⟩⟩,
    List.forall_mem_cons.mpr ⟨lt, fun l' mem => ?_⟩, fun l' first t mem => ?_⟩
  · exact Nat.lt_of_le_of_lt le (h.inside l' mem)
  · exact Nat.lt_trans lt (Nat.lt_of_le_of_lt le (h.inside l' mem))
  · obtain rfl := Option.some.inj first
    exact here t mem

/-- One of the names is found in the innermost scope. -/
theorem modifyHead (h : ls.Enclose n names) {f : Level → Level} (same : ∀ l, (f l).site = l.site)
    {t : Token} (mem : t ∈ names)
    (declares : ∀ l : Level, l.Declares → t.lexeme ∈ l.site.names → (f l).Declares) :
    (ls.modifyHead f).Enclose n names := by
  cases ls with
  | nil => exact h
  | cons l ls =>
    obtain ⟨⟨outwards, declared⟩, inside, here⟩ := h
    obtain ⟨first, outwards⟩ := List.pairwise_cons.mp outwards
    obtain ⟨own, declared⟩ := List.forall_mem_cons.mp declared
    obtain ⟨lt, inside⟩ := List.forall_mem_cons.mp inside
    refine ⟨⟨.cons ?_ outwards, List.forall_mem_cons.mpr ⟨?_, declared⟩⟩,
      List.forall_mem_cons.mpr ⟨?_, inside⟩, fun l' head t' mem' => ?_⟩
    · rw [same]
      exact first
    · exact declares l own (here l rfl t mem)
    · rw [same]
      exact lt
    · obtain rfl := Option.some.inj head
      rw [same]
      exact here l rfl t' mem'

theorem introduce (h : ls.Enclose n names) {t : Token} (mem : t ∈ names) :
    (ls.introduce t.lexeme).Enclose n names :=
  h.modifyHead (fun _ => rfl) mem fun _ declares => declares.introduce

theorem after (h : ls.Enclose n names) {s : Stmt} (sub : s.declares ⊆ names) :
    (s.after ls).Enclose n names := by
  cases s with
  | var name | function declaration | classDecl name => exact h.introduce (sub List.mem_cons_self)
  | _ => exact h

theorem function (h : ls.Enclose n names) {params : List Token} {body : List Stmt}
    (le : 1 + sizeOf body ≤ n) :
    Enclose (.function params body :: ls) (sizeOf body) (body.flatMap Stmt.declares) := by
  have size : (Level.function params body).site.size = 1 + sizeOf body := by
    rw [World.site_function]
    rfl
  refine h.cons (size ▸ le) (by omega) (.function params body) fun t mem => ?_
  rw [World.site_function]
  exact List.mem_map_of_mem (List.mem_append_right _ mem)

theorem block (h : ls.Enclose n names) {body : List Stmt} (le : 1 + sizeOf body ≤ n) :
    Enclose (.block body :: ls) (sizeOf body) (body.flatMap Stmt.declares) :=
  h.cons (l := .block body) le (Nat.lt_one_add_iff.mpr (Nat.le_refl _)) (.block body)
    fun _ mem => List.mem_map_of_mem mem

theorem methods (h : ls.Enclose n names) {methods : List FunctionDecl}
    (le : 1 + sizeOf methods ≤ n) : Enclose (.methods methods :: ls) (sizeOf methods) [] :=
  h.cons (l := .methods methods) le (Nat.lt_one_add_iff.mpr (Nat.le_refl _)) (.methods methods)
    (List.forall_mem_nil _)

theorem superclass (h : ls.Enclose n names) {use : Use} {methods : List FunctionDecl}
    (le : 2 + sizeOf methods ≤ n) :
    Enclose (.superclass use methods :: ls) (1 + sizeOf methods) [] :=
  h.cons (l := .superclass use methods) le (by simp +arith [Level.superclass, Site.size])
    (.superclass use methods) (List.forall_mem_nil _)

end Enclose

end Levels

/-! ### Scopes around uses -/

mutual

theorem Expr.nested_occurrences {ls : Levels} (e : Expr) (h : ls.Enclose (sizeOf e) []) :
    ∀ o ∈ e.occurrences ls, o.levels.Nested := by
  cases e with
  | literal value => exact List.forall_mem_nil _
  | grouping inner => exact inner.nested_occurrences (h.part (by simp +arith))
  | unary operator operand => exact operand.nested_occurrences (h.part (by simp +arith))
  | binary left operator right =>
    rw [Expr.occurrences]
    exact List.forall_mem_append.mpr ⟨left.nested_occurrences (h.part (by simp +arith)),
      right.nested_occurrences (h.part (by simp +arith))⟩
  | logical left operator right =>
    rw [Expr.occurrences]
    exact List.forall_mem_append.mpr ⟨left.nested_occurrences (h.part (by simp +arith)),
      right.nested_occurrences (h.part (by simp +arith))⟩
  | «variable» use | this use | super use => exact List.forall_mem_singleton.mpr h.toNested
  | assign target value =>
    rw [Expr.occurrences]
    exact List.forall_mem_append.mpr ⟨value.nested_occurrences (h.part (by simp +arith)),
      List.forall_mem_singleton.mpr h.toNested⟩
  | call callee paren arguments =>
    rw [Expr.occurrences]
    exact List.forall_mem_append.mpr ⟨callee.nested_occurrences (h.part (by simp +arith)),
      Expr.nested_occurrencesAll arguments (h.part (by simp +arith))⟩
  | get object name => exact object.nested_occurrences (h.part (by simp +arith))
  | set object name value =>
    rw [Expr.occurrences]
    exact List.forall_mem_append.mpr ⟨value.nested_occurrences (h.part (by simp +arith)),
      object.nested_occurrences (h.part (by simp +arith))⟩
  | lambda params body => exact Stmt.nested_occurrencesAll body (h.function (by simp +arith))
termination_by structural e

theorem Expr.nested_occurrencesAll {ls : Levels} (es : List Expr) (h : ls.Enclose (sizeOf es) []) :
    ∀ o ∈ Expr.occurrencesAll ls es, o.levels.Nested := by
  cases es with
  | nil => exact List.forall_mem_nil _
  | cons e es =>
    rw [Expr.occurrencesAll]
    exact List.forall_mem_append.mpr ⟨e.nested_occurrences (h.part (by simp +arith)),
      Expr.nested_occurrencesAll es (h.part (by simp +arith))⟩
termination_by structural es

theorem FunctionDecl.nested_occurrences {ls : Levels} (f : FunctionDecl)
    (h : ls.Enclose (sizeOf f) []) : ∀ o ∈ f.occurrences ls, o.levels.Nested := by
  cases f with
  | mk name params body => exact Stmt.nested_occurrencesAll body (h.function (by simp +arith))
termination_by structural f

theorem FunctionDecl.nested_occurrencesAll {ls : Levels} (fs : List FunctionDecl)
    (h : ls.Enclose (sizeOf fs) []) :
    ∀ o ∈ FunctionDecl.occurrencesAll ls fs, o.levels.Nested := by
  cases fs with
  | nil => exact List.forall_mem_nil _
  | cons f fs =>
    rw [FunctionDecl.occurrencesAll]
    exact List.forall_mem_append.mpr ⟨f.nested_occurrences (h.part (by simp +arith)),
      FunctionDecl.nested_occurrencesAll fs (h.part (by simp +arith))⟩
termination_by structural fs

theorem Stmt.nested_occurrences {ls : Levels} (s : Stmt) (h : ls.Enclose (sizeOf s) s.declares) :
    ∀ o ∈ s.occurrences ls, o.levels.Nested := by
  cases s with
  | expression e => exact e.nested_occurrences (h.part (by simp +arith))
  | print e => exact e.nested_occurrences (h.part (by simp +arith))
  | var name initializer =>
    cases initializer with
    | none => exact List.forall_mem_nil _
    | some e =>
      have initializing := h.modifyHead (f := (·.inInitializer name e)) (fun _ => rfl)
        List.mem_cons_self fun _ declares here => declares.inInitializer here e
      exact e.nested_occurrences (initializing.part (by simp +arith))
  | block body => exact Stmt.nested_occurrencesAll body (h.block (by simp +arith))
  | ifElse condition thenBranch elseBranch =>
    have first := condition.nested_occurrences (h.part (by simp +arith))
    cases elseBranch with
    | none =>
      rw [Stmt.occurrences]
      exact List.forall_mem_append.mpr ⟨first, thenBranch.nested_occurrences
        (h.branch (by simp +arith) (List.Subset.refl _))⟩
    | some elseBranch =>
      rw [Stmt.occurrences]
      refine List.forall_mem_append.mpr ⟨List.forall_mem_append.mpr ⟨first, ?_⟩, ?_⟩
      · exact thenBranch.nested_occurrences
          (h.branch (by simp +arith) (List.subset_append_left _ _))
      · exact elseBranch.nested_occurrences
          (h.branch (by simp +arith) (List.subset_append_right _ _))
  | whileLoop condition body =>
    rw [Stmt.occurrences]
    exact List.forall_mem_append.mpr ⟨condition.nested_occurrences (h.part (by simp +arith)),
      body.nested_occurrences (h.branch (by simp +arith) (List.Subset.refl _))⟩
  | breakLoop keyword => exact List.forall_mem_nil _
  | returnFrom keyword value =>
    cases value with
    | none => exact List.forall_mem_nil _
    | some e => exact e.nested_occurrences (h.part (by simp +arith))
  | function declaration =>
    have inner := h.introduce List.mem_cons_self
    exact declaration.nested_occurrences (inner.part (by simp +arith))
  | classDecl name superclass methods =>
    have inner := h.introduce List.mem_cons_self
    cases superclass with
    | none =>
      exact FunctionDecl.nested_occurrencesAll methods (inner.methods (by simp +arith))
    | some use =>
      have derived : Levels.Enclose (.superclass use methods :: _) _ _ :=
        inner.superclass (by simp +arith)
      rw [Stmt.occurrences]
      exact List.forall_mem_cons.mpr ⟨inner.toNested,
        FunctionDecl.nested_occurrencesAll methods (derived.methods (Nat.le_refl _))⟩
termination_by structural s

theorem Stmt.nested_occurrencesAll {ls : Levels} (ss : List Stmt)
    (h : ls.Enclose (sizeOf ss) (ss.flatMap Stmt.declares)) :
    ∀ o ∈ Stmt.occurrencesAll ls ss, o.levels.Nested := by
  cases ss with
  | nil => exact List.forall_mem_nil _
  | cons s ss =>
    have own : s.declares ⊆ (s :: ss).flatMap Stmt.declares := by
      rw [List.flatMap_cons]
      exact List.subset_append_left _ _
    have rest : ss.flatMap Stmt.declares ⊆ (s :: ss).flatMap Stmt.declares := by
      rw [List.flatMap_cons]
      exact List.subset_append_right _ _
    rw [Stmt.occurrencesAll]
    exact List.forall_mem_append.mpr ⟨s.nested_occurrences (h.branch (by simp +arith) own),
      Stmt.nested_occurrencesAll ss ((h.after own).branch (by simp +arith) rest)⟩
termination_by structural ss

end

theorem Program.nested_occurrences (p : Program) : ∀ o ∈ p.occurrences, o.levels.Nested := by
  have outermost (n : Nat) (names : List Token) : Levels.Enclose [] n names :=
    ⟨⟨.nil, List.forall_mem_nil _⟩, List.forall_mem_nil _, fun _ first => nomatch first⟩
  rw [Program.occurrences]
  refine List.forall_mem_append.mpr ⟨Stmt.nested_occurrencesAll p.statements (outermost _ _), ?_⟩
  cases p.trailing with
  | none => exact List.forall_mem_nil _
  | some e => exact e.nested_occurrences (outermost _ _)

/-! ### Scopes around code are around its uses -/

namespace Levels

variable {outer ls : Levels}

/-- Nothing but the innermost scope changes where a name is declared. -/
theorem suffix_modifyHead (h : outer <:+ ls.tail) (f : Level → Level) :
    outer <:+ (ls.modifyHead f).tail := by
  rwa [tail_modifyHead]

theorem suffix_cons (h : outer <:+ ls.tail) (l : Level) : outer <:+ List.tail (l :: ls) :=
  h.trans (List.tail_suffix ls)

theorem suffix_after (h : outer <:+ ls.tail) (s : Stmt) : outer <:+ (s.after ls).tail := by
  unfold Stmt.after
  split
  · exact suffix_modifyHead h _
  · exact h

end Levels

open Levels

mutual

theorem Expr.suffix_occurrences {outer ls : Levels} (e : Expr) (h : outer <:+ ls.tail) :
    ∀ o ∈ e.occurrences ls, outer <:+ o.levels.tail := by
  cases e with
  | literal value => exact List.forall_mem_nil _
  | grouping inner => exact inner.suffix_occurrences h
  | unary operator operand => exact operand.suffix_occurrences h
  | binary left operator right =>
    rw [Expr.occurrences]
    exact List.forall_mem_append.mpr ⟨left.suffix_occurrences h, right.suffix_occurrences h⟩
  | logical left operator right =>
    rw [Expr.occurrences]
    exact List.forall_mem_append.mpr ⟨left.suffix_occurrences h, right.suffix_occurrences h⟩
  | «variable» use | this use | super use => exact List.forall_mem_singleton.mpr h
  | assign target value =>
    rw [Expr.occurrences]
    exact List.forall_mem_append.mpr
      ⟨value.suffix_occurrences h, List.forall_mem_singleton.mpr h⟩
  | call callee paren arguments =>
    rw [Expr.occurrences]
    exact List.forall_mem_append.mpr
      ⟨callee.suffix_occurrences h, Expr.suffix_occurrencesAll arguments h⟩
  | get object name => exact object.suffix_occurrences h
  | set object name value =>
    rw [Expr.occurrences]
    exact List.forall_mem_append.mpr ⟨value.suffix_occurrences h, object.suffix_occurrences h⟩
  | lambda params body => exact Stmt.suffix_occurrencesAll body (suffix_cons h _)
termination_by structural e

theorem Expr.suffix_occurrencesAll {outer ls : Levels} (es : List Expr) (h : outer <:+ ls.tail) :
    ∀ o ∈ Expr.occurrencesAll ls es, outer <:+ o.levels.tail := by
  cases es with
  | nil => exact List.forall_mem_nil _
  | cons e es =>
    rw [Expr.occurrencesAll]
    exact List.forall_mem_append.mpr ⟨e.suffix_occurrences h, Expr.suffix_occurrencesAll es h⟩
termination_by structural es

theorem FunctionDecl.suffix_occurrences {outer ls : Levels} (f : FunctionDecl)
    (h : outer <:+ ls.tail) : ∀ o ∈ f.occurrences ls, outer <:+ o.levels.tail := by
  cases f with
  | mk name params body => exact Stmt.suffix_occurrencesAll body (suffix_cons h _)
termination_by structural f

theorem FunctionDecl.suffix_occurrencesAll {outer ls : Levels} (fs : List FunctionDecl)
    (h : outer <:+ ls.tail) :
    ∀ o ∈ FunctionDecl.occurrencesAll ls fs, outer <:+ o.levels.tail := by
  cases fs with
  | nil => exact List.forall_mem_nil _
  | cons f fs =>
    rw [FunctionDecl.occurrencesAll]
    exact List.forall_mem_append.mpr
      ⟨f.suffix_occurrences h, FunctionDecl.suffix_occurrencesAll fs h⟩
termination_by structural fs

theorem Stmt.suffix_occurrences {outer ls : Levels} (s : Stmt) (h : outer <:+ ls.tail) :
    ∀ o ∈ s.occurrences ls, outer <:+ o.levels.tail := by
  cases s with
  | expression e => exact e.suffix_occurrences h
  | print e => exact e.suffix_occurrences h
  | var name initializer =>
    cases initializer with
    | none => exact List.forall_mem_nil _
    | some e => exact e.suffix_occurrences (suffix_modifyHead h _)
  | block body => exact Stmt.suffix_occurrencesAll body (suffix_cons h _)
  | ifElse condition thenBranch elseBranch =>
    have first := List.forall_mem_append.mpr
      ⟨condition.suffix_occurrences h, thenBranch.suffix_occurrences h⟩
    cases elseBranch with
    | none =>
      rw [Stmt.occurrences]
      exact first
    | some elseBranch =>
      rw [Stmt.occurrences]
      exact List.forall_mem_append.mpr ⟨first, elseBranch.suffix_occurrences h⟩
  | whileLoop condition body =>
    rw [Stmt.occurrences]
    exact List.forall_mem_append.mpr ⟨condition.suffix_occurrences h, body.suffix_occurrences h⟩
  | breakLoop keyword => exact List.forall_mem_nil _
  | returnFrom keyword value =>
    cases value with
    | none => exact List.forall_mem_nil _
    | some e => exact e.suffix_occurrences h
  | function declaration => exact declaration.suffix_occurrences (suffix_modifyHead h _)
  | classDecl name superclass methods =>
    have inner := suffix_modifyHead h (·.introduce name.lexeme)
    cases superclass with
    | none => exact FunctionDecl.suffix_occurrencesAll methods (suffix_cons inner _)
    | some use =>
      rw [Stmt.occurrences]
      exact List.forall_mem_cons.mpr ⟨inner,
        FunctionDecl.suffix_occurrencesAll methods (suffix_cons (suffix_cons inner _) _)⟩
termination_by structural s

theorem Stmt.suffix_occurrencesAll {outer ls : Levels} (ss : List Stmt) (h : outer <:+ ls.tail) :
    ∀ o ∈ Stmt.occurrencesAll ls ss, outer <:+ o.levels.tail := by
  cases ss with
  | nil => exact List.forall_mem_nil _
  | cons s ss =>
    rw [Stmt.occurrencesAll]
    exact List.forall_mem_append.mpr
      ⟨s.suffix_occurrences h, Stmt.suffix_occurrencesAll ss (suffix_after h s)⟩
termination_by structural ss

end

theorem Stmt.suffix_of_mem {l : Level} {ls : Levels} {body : List Stmt} {o : Occurrence}
    (mem : o ∈ Stmt.occurrencesAll (l :: ls) body) : ls <:+ o.levels :=
  (Stmt.suffix_occurrencesAll body (List.suffix_refl ls) o mem).trans (List.tail_suffix _)

namespace Levels.Nested

variable {ls : Levels}

theorem of_suffix (h : ls.Nested) {outer : Levels} (suffix : outer <:+ ls) : outer.Nested :=
  ⟨h.outwards.sublist suffix.sublist, fun l mem => h.declared l (suffix.subset mem)⟩

/-- No scope around a use stands inside itself. -/
theorem unique (h : ls.Nested) {i j : Nat} {l l' : Level} (here : ls[i]? = some l)
    (there : ls[j]? = some l') (same : l.site = l'.site) : i = j := by
  obtain ⟨bound, rfl⟩ := List.getElem?_eq_some_iff.mp here
  obtain ⟨bound', rfl⟩ := List.getElem?_eq_some_iff.mp there
  have outwards := List.pairwise_iff_getElem.mp h.outwards
  rcases Nat.lt_trichotomy i j with inner | rfl | outer
  · have less := outwards i j bound bound' inner
    rw [same] at less
    exact absurd less (Nat.lt_irrefl _)
  · rfl
  · have less := outwards j i bound' bound outer
    rw [same] at less
    exact absurd less (Nat.lt_irrefl _)

/-- The scope at the distance of a name declares it. -/
theorem mem_names (h : ls.Nested) {x : String} {d : Nat} {l : Level}
    (distance : ls.distance? x = some d) (here : ls[d]? = some l) : x ∈ l.site.names := by
  obtain ⟨inside, contains, -⟩ := List.findIdx?_eq_some_iff_getElem.mp distance
  obtain rfl : ls[d] = l := Option.some.inj ((List.getElem?_eq_getElem inside).symm.trans here)
  exact h.declared _ (List.getElem_mem inside) x contains

end Levels.Nested

namespace Session

variable {clock : Clock} {history : List Entry} {o o' : Occurrence}

theorem occurs_nested {s : Session} (h : s.Occurs history o) : o.levels.Nested := by
  obtain ⟨start, p, -, mem⟩ := h
  exact p.nested_occurrences o mem

/-- Each use of a session occurs once. -/
theorem occurs_unique (h : (initial clock).Occurs history o) (h' : (initial clock).Occurs history o')
    (same : o.use.id = o'.use.id) : o = o' := by
  induction history using List.reverseRecOn with
  | nil =>
    obtain ⟨_, _, ⟨before, entry, later, split, -⟩, -⟩ := h
    cases before <;> cases split
  | append_singleton history entry ih =>
    have before (o : Occurrence) (h : (initial clock).Occurs history o) :=
      (kept clock history).occurs o h
    have within {p : Program} (executes : ((initial clock).afterAll history).Executes entry p)
        (o : Occurrence) (mem : o ∈ p.occurrences) := (executes.lawful.within_occurrences mem).1
    obtain ⟨start, p, runs, mem⟩ := h
    obtain ⟨start', p', runs', mem'⟩ := h'
    rcases runs.of_concat with runs | ⟨executes, -⟩ <;>
      rcases runs'.of_concat with runs' | ⟨executes', -⟩
    · exact ih ⟨start, p, runs, mem⟩ ⟨start', p', runs', mem'⟩
    · have earlier := before o ⟨start, p, runs, mem⟩
      have later := within executes' o' mem'
      omega
    · have earlier := before o' ⟨start', p', runs', mem'⟩
      have later := within executes o mem
      omega
    · obtain rfl : p = p' := executes.program.trans executes'.program.symm
      exact List.inj_on_of_nodup_map executes.lawful.distinct_occurrences mem mem' same

end Session

end Lox
