import Lox.Proofs.Points.Walk

/-!
# Lexical distances

The distance of a use is the number of scopes between it and the first scope on the way out that holds
its name, whatever static errors the program has: `distances_lexical`.
-/

namespace Lox

variable {path : Path} {x : String} {d : Nat}

theorem Path.distance?_eq_some : path.distance? x = some d ↔ path.Holds x d := by
  unfold distance? Holds
  rw [List.findIdx?_eq_some_iff_getElem]
  constructor
  · rintro ⟨inside, here, before⟩
    refine ⟨⟨path.scopes[d], List.getElem?_eq_getElem inside, by simpa using here⟩, ?_⟩
    intro i less scope nearer
    obtain ⟨_, rfl⟩ := List.getElem?_eq_some_iff.mp nearer
    simpa using before i less
  · rintro ⟨⟨scope, here, mem⟩, before⟩
    obtain ⟨inside, rfl⟩ := List.getElem?_eq_some_iff.mp here
    refine ⟨inside, by simpa using mem, fun i less => ?_⟩
    have nearer := before i less path.scopes[i] (List.getElem?_eq_getElem (Nat.lt_trans less inside))
    simpa using nearer

/-! ### All uses are points -/

def Point.used? (point : Point) : Option (UseKind × Use) :=
  match point.construct with
  | .use kind use => some (kind, use)
  | _ => none

theorem Point.filterMap_params (path : Path) (params : List Token) :
    (Point.params path params).filterMap Point.used? = [] := by
  induction params generalizing path with
  | nil => rfl
  | cons t params ih => exact ih _

mutual

theorem Expr.points_perm (path : Path) (e : Expr) :
    ((e.points path).filterMap Point.used?).Perm e.uses := by
  cases e with
  | literal value => exact .refl _
  | grouping inner => exact inner.points_perm path
  | unary operator operand => exact operand.points_perm path
  | binary left operator right =>
    rw [Expr.points, List.filterMap_append]
    exact (left.points_perm path).append (right.points_perm path)
  | logical left operator right =>
    rw [Expr.points, List.filterMap_append]
    exact (left.points_perm path).append (right.points_perm path)
  | «variable» use => exact .refl _
  | assign target value =>
    rw [Expr.points, List.filterMap_append]
    exact ((value.points_perm path).append_right _).trans List.perm_append_comm
  | this use => exact .refl _
  | super use method => exact .refl _
  | call callee paren arguments =>
    rw [Expr.points, List.filterMap_append]
    exact (callee.points_perm path).append (Expr.pointsAll_perm path arguments)
  | get object name => exact object.points_perm path
  | set object name value =>
    rw [Expr.points, List.filterMap_append]
    exact ((value.points_perm path).append (object.points_perm path)).trans List.perm_append_comm
  | lambda params body =>
    rw [Expr.points, List.filterMap_append, Point.filterMap_params]
    exact Stmt.pointsAll_perm _ body
termination_by structural e

theorem Expr.pointsAll_perm (path : Path) (es : List Expr) :
    ((Expr.pointsAll path es).filterMap Point.used?).Perm (Expr.usesAll es) := by
  cases es with
  | nil => exact .refl _
  | cons e es =>
    rw [Expr.pointsAll, List.filterMap_append]
    exact (e.points_perm path).append (Expr.pointsAll_perm path es)
termination_by structural es

theorem FunctionDecl.points_perm (path : Path) (f : FunctionDecl) :
    ((f.points path).filterMap Point.used?).Perm f.uses := by
  cases f with
  | mk name params body =>
    rw [FunctionDecl.points, List.filterMap_append, Point.filterMap_params]
    exact Stmt.pointsAll_perm _ body
termination_by structural f

theorem FunctionDecl.pointsAll_perm (path : Path) (fs : List FunctionDecl) :
    ((FunctionDecl.pointsAll path fs).filterMap Point.used?).Perm (FunctionDecl.usesAll fs) := by
  cases fs with
  | nil => exact .refl _
  | cons f fs =>
    rw [FunctionDecl.pointsAll, List.filterMap_append]
    exact (f.points_perm _).append (FunctionDecl.pointsAll_perm path fs)
termination_by structural fs

theorem Stmt.points_perm (path : Path) (s : Stmt) :
    ((s.points path).filterMap Point.used?).Perm s.uses := by
  cases s with
  | expression e => exact e.points_perm path
  | print e => exact e.points_perm path
  | var name initializer =>
    cases initializer with
    | none => exact .refl _
    | some e => exact e.points_perm _
  | block body => exact Stmt.pointsAll_perm _ body
  | ifElse condition thenBranch elseBranch =>
    have both := (condition.points_perm path).append (thenBranch.points_perm path)
    cases elseBranch with
    | none =>
      rw [Stmt.points, List.filterMap_append]
      exact both
    | some elseBranch =>
      rw [Stmt.points, List.filterMap_append, List.filterMap_append]
      exact both.append (elseBranch.points_perm _)
  | whileLoop condition body =>
    rw [Stmt.points, List.filterMap_append]
    exact (condition.points_perm path).append (body.points_perm path)
  | breakLoop keyword => exact .refl _
  | returnFrom keyword value =>
    cases value with
    | none => exact .refl _
    | some e => exact e.points_perm path
  | function declaration => exact declaration.points_perm _
  | classDecl name superclass methods =>
    cases superclass with
    | none => exact FunctionDecl.pointsAll_perm _ methods
    | some superclass => exact (FunctionDecl.pointsAll_perm _ methods).cons _
termination_by structural s

theorem Stmt.pointsAll_perm (path : Path) (ss : List Stmt) :
    ((Stmt.pointsAll path ss).filterMap Point.used?).Perm (Stmt.usesAll ss) := by
  cases ss with
  | nil => exact .refl _
  | cons s ss =>
    rw [Stmt.pointsAll, List.filterMap_append]
    exact (s.points_perm path).append (Stmt.pointsAll_perm _ ss)
termination_by structural ss

end

theorem Program.points_perm (p : Program) : (p.points.filterMap Point.used?).Perm p.uses := by
  rw [Program.points, List.filterMap_append]
  refine (Stmt.pointsAll_perm [] p.statements).append ?_
  cases p.trailing with
  | none => exact .refl _
  | some e => exact e.points_perm _

/-! ### The table -/

namespace Point

variable {points : List Point} {ds : Distances} {id : Nat}

theorem getElem?_record {point : Point}
    (other : ∀ used, point.used? = some used → used.2.id ≠ id) :
    (point.record ds)[id]? = ds[id]? := by
  unfold record use?
  unfold used? at other
  cases construct : point.construct with
  | use kind use =>
    rw [construct] at other
    have different : use.id ≠ id := other _ rfl
    dsimp only
    split
    next found =>
      split at found
      · cases found
      · obtain rfl := Option.some.inj found
        split
        · rw [Std.TreeMap.getElem?_insert, if_neg]
          simpa using different
        · rfl
    · rfl
  | _ => rfl

theorem getElem?_recordAll
    (others : ∀ used ∈ points.filterMap used?, used.2.id ≠ id) :
    (points.foldl record ds)[id]? = ds[id]? := by
  induction points generalizing ds with
  | nil => rfl
  | cons point points ih =>
    have here : ∀ used, point.used? = some used → used.2.id ≠ id := fun used found =>
      others used (List.mem_filterMap.mpr ⟨point, List.mem_cons_self, found⟩)
    have rest : ∀ used ∈ points.filterMap used?, used.2.id ≠ id := by
      intro used mem
      obtain ⟨other, mem, found⟩ := List.mem_filterMap.mp mem
      exact others used (List.mem_filterMap.mpr ⟨other, List.mem_cons_of_mem _ mem, found⟩)
    rw [List.foldl_cons, ih rest, getElem?_record here]

/-- A use with a number of its own keeps the distance that is noted for it. -/
theorem recorded {kind : UseKind} {use : Use}
    (distinct : ((points.filterMap used?).map (·.2.id)).Nodup)
    (mem : ⟨path, .use kind use⟩ ∈ points) (fresh : ds[use.id]? = none) :
    (points.foldl record ds)[use.id]? =
      if kind = .this ∧ path.cls = .none then none else path.distance? use.name.lexeme := by
  induction points generalizing ds with
  | nil => cases mem
  | cons point points ih =>
    rw [List.foldl_cons]
    rcases List.mem_cons.mp mem with rfl | mem
    · have others : ∀ used ∈ points.filterMap used?, used.2.id ≠ use.id := by
        intro used mem same
        rw [List.filterMap_cons_some (by rfl : used? _ = some (kind, use)), List.map_cons,
          List.nodup_cons] at distinct
        exact distinct.1 (List.mem_map.mpr ⟨used, mem, same⟩)
      rw [getElem?_recordAll others]
      unfold record use?
      by_cases outside : kind = .this ∧ path.cls = .none
      · simp only [outside, and_self, if_true, fresh]
      · simp only [outside, if_false]
        cases path.distance? use.name.lexeme with
        | none => exact fresh
        | some d => exact Std.TreeMap.getElem?_insert_self
    · have found : (kind, use) ∈ points.filterMap used? :=
        List.mem_filterMap.mpr ⟨_, mem, rfl⟩
      cases here : point.used? with
      | none =>
        rw [List.filterMap_cons_none here] at distinct
        apply ih distinct mem
        rw [getElem?_record (by simp [here])]
        exact fresh
      | some used =>
        rw [List.filterMap_cons_some here, List.map_cons, List.nodup_cons] at distinct
        have different : used.2.id ≠ use.id := fun same =>
          distinct.1 (List.mem_map.mpr ⟨(kind, use), found, same.symm⟩)
        apply ih distinct.2 mem
        rw [getElem?_record (by simpa [here] using different)]
        exact fresh

end Point

namespace Program

variable {p : Program} (distinct : (p.uses.map (·.2.id)).Nodup)

include distinct in
theorem getElem?_distances {kind : UseKind} {use : Use}
    (mem : ⟨path, .use kind use⟩ ∈ p.points) :
    p.resolve.distances[use.id]? =
      if kind = .this ∧ path.cls = .none then none else path.distance? use.name.lexeme := by
  rw [p.walk.distances]
  apply Point.recorded ?_ mem rfl
  exact (p.points_perm.map _).nodup_iff.mpr distinct

theorem mem_uses_of_mem_distances {id : Nat} (mem : id ∈ p.resolve.distances) :
    ∃ used ∈ p.uses, used.2.id = id := by
  by_contra none
  have others : ∀ used ∈ p.points.filterMap Point.used?, used.2.id ≠ id := fun used mem same =>
    none ⟨used, p.points_perm.mem_iff.mp mem, same⟩
  have absent : p.resolve.distances[id]? = Option.none := by
    rw [p.walk.distances, Point.getElem?_recordAll others]
    rfl
  rw [Std.TreeMap.mem_iff_isSome_getElem?, absent] at mem
  cases mem

end Program

theorem Expr.resolveAll_append (es fs : List Expr) (r : Resolution) :
    Expr.resolveAll (es ++ fs) r = Expr.resolveAll fs (Expr.resolveAll es r) := by
  induction es generalizing r with
  | nil => rfl
  | cons e es ih => simp only [List.cons_append, Expr.resolveAll, ih]

theorem FunctionDecl.resolveAll_append (fs gs : List FunctionDecl) (r : Resolution) :
    FunctionDecl.resolveAll (fs ++ gs) r =
      FunctionDecl.resolveAll gs (FunctionDecl.resolveAll fs r) := by
  induction fs generalizing r with
  | nil => rfl
  | cons f fs ih => simp only [List.cons_append, FunctionDecl.resolveAll, ih]

theorem Stmt.resolveAll_append (ss ts : List Stmt) (r : Resolution) :
    Stmt.resolveAll (ss ++ ts) r = Stmt.resolveAll ts (Stmt.resolveAll ss r) := by
  induction ss generalizing r with
  | nil => rfl
  | cons s ss ih => simp only [List.cons_append, Stmt.resolveAll, ih]

/-- The statements may be any, as long as no two uses have the same number. A use has the distance `d`
exactly if the first scope on its way out that holds its name has the number `d`; a `this` outside
classes has none. Nothing else has a distance, and each use of the program is at some point of it.
Wherever the walk stands, expressions and functions leave the scopes as they were, statements declare
their names in the innermost one, and each leaves the kinds of function and class as they were; what
comes next is resolved from there. -/
theorem distances_lexical (p : Program) (distinct : (p.uses.map (·.2.id)).Nodup) :
    (∀ path kind use, ⟨path, .use kind use⟩ ∈ p.points → ∀ d,
      p.resolve.distances[use.id]? = some d ↔
        (kind = .this → path.cls ≠ .none) ∧ path.Holds use.name.lexeme d) ∧
    (∀ id ∈ p.resolve.distances, ∃ used ∈ p.uses, used.2.id = id) ∧
    (p.points.filterMap Point.used?).Perm p.uses ∧
    (∀ r : Resolution,
      (∀ e : Expr, (e.resolve r).scopes = r.scopes ∧ (e.resolve r).context = r.context) ∧
      (∀ kind (f : FunctionDecl),
        (f.resolve kind r).scopes = r.scopes ∧ (f.resolve kind r).context = r.context) ∧
      ∀ s : Stmt, (s.resolve r).scopes = (s.declares.foldl Resolution.introduce r).scopes ∧
        (s.resolve r).scopes.tail = r.scopes.tail ∧ (s.resolve r).context = r.context) ∧
    ∀ r : Resolution,
      (∀ es e fs, Expr.resolveAll (es ++ e :: fs) r =
        Expr.resolveAll fs (e.resolve (Expr.resolveAll es r))) ∧
      (∀ fs f gs, FunctionDecl.resolveAll (fs ++ f :: gs) r =
        FunctionDecl.resolveAll gs (f.resolve f.methodContext (FunctionDecl.resolveAll fs r))) ∧
      ∀ ss s ts, Stmt.resolveAll (ss ++ s :: ts) r =
        Stmt.resolveAll ts (s.resolve (Stmt.resolveAll ss r)) := by
  refine ⟨fun path kind use mem d => ?_, fun id mem => p.mem_uses_of_mem_distances mem,
    p.points_perm, fun r => ⟨fun e => ⟨?_, e.context_resolve r⟩,
      fun kind f => ⟨?_, f.context_resolve kind r⟩, fun s => ?_⟩,
    fun r => ⟨fun es e fs => ?_, fun fs f gs => ?_, fun ss s ts => ?_⟩⟩
  · rw [p.getElem?_distances distinct mem]
    split
    next outside =>
      refine iff_of_false nofun ?_
      rintro ⟨inside, -⟩
      exact inside outside.1 outside.2
    next looked =>
      rw [Path.distance?_eq_some]
      constructor
      · intro holds
        exact ⟨fun this outside => looked ⟨this, outside⟩, holds⟩
      · exact And.right
  · rw [e.resolve_eq, e.scopes_resolve]
  · rw [f.resolve_eq, f.scopes_resolve]
  · have scopes : (s.resolve r).scopes = (s.declares.foldl Resolution.introduce r).scopes := by
      rw [s.resolve_eq, s.scopes_resolve]
    exact ⟨scopes, by rw [scopes, Resolution.tail_scopes_introduceAll], s.context_resolve r⟩
  · rw [Expr.resolveAll_append, Expr.resolveAll]
  · rw [FunctionDecl.resolveAll_append, FunctionDecl.resolveAll]
  · rw [Stmt.resolveAll_append, Stmt.resolveAll]

/-- `{ var a; fun f() { a; } }` -/
def Program.nested : Program :=
  let a := { type := .identifier, lexeme := "a", line := 1 }
  let f := { type := .identifier, lexeme := "f", line := 1 }
  { statements := [.block [.var a none, .function ⟨f, [], [.expression (.variable ⟨0, a⟩)]⟩]] }

theorem distances_lexical_nested :
    (Program.nested.uses.map (·.2.id)).Nodup ∧ Program.nested.resolve.distances[0]? = some 1 := by
  have distinct : (Program.nested.uses.map (·.2.id)).Nodup := by decide
  have lexical := (distances_lexical Program.nested distinct).1
  -- The point of the use is the last one, behind the declarations of the two names.
  have last := List.getLast_mem (l := Program.nested.points) nofun
  refine ⟨distinct, (lexical _ .variable ⟨0, _⟩ last 1).mpr ⟨nofun, ?_⟩⟩
  rw [← Path.distance?_eq_some]
  decide

end Lox
