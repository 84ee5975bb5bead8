import Lox.Proofs.Agreement.Session
import Lox.Proofs.Alike.Machine

/-!
# Programs and machines are like themselves

A program is alike to itself if its uses are paired with themselves, and so is the machine between
two entries of a history: `Session.Kept.alike`.
-/

namespace Lox

/-- A pairing in which nothing needs to differ, as far as uses have numbers below `n`. -/
structure Pairing.Keeps (P : Pairing) (n : Nat) : Prop where
  renames : P.renames (Equiv.refl String)
  lines : ∀ line, P.lines line line
  names : ∀ x, P.names x
  ids : ∀ i, i < n → P.ids i i

section Code

variable {P : Pairing} {n : Nat}

namespace Pairing.Keeps

variable (h : P.Keeps n)

include h

theorem tokens (t : Token) : P.Tokens t t := ⟨rfl, rfl, h.lines _⟩

theorem named (t : Token) : P.Named (Equiv.refl String) t t := ⟨rfl, rfl, h.names _, h.lines _⟩

theorem allNamed (ts : List Token) : List.Forall₂ (P.Named (Equiv.refl String)) ts ts :=
  List.forall₂_same.mpr fun t _ => h.named t

theorem uses {u : Use} (below : u.id < n) : P.Uses .plain u u :=
  ⟨h.ids _ below, rfl, fun d _ => by rw [Renamings.at?_plain]; rfl, h.names _, h.lines _⟩

end Pairing.Keeps

def Below (n : Nat) (us : List (UseKind × Use)) : Prop := ∀ u ∈ us, u.2.id < n

theorem Below.append {n : Nat} {us vs : List (UseKind × Use)} :
    Below n (us ++ vs) ↔ Below n us ∧ Below n vs := List.forall_mem_append

mutual

theorem Expr.alike_self (h : P.Keeps n) (e : Expr) (below : Below n e.uses) :
    e.Alike P .plain e := by
  cases e with
  | literal value => exact .literal
  | grouping inner => exact .grouping (inner.alike_self h below)
  | unary operator operand => exact .unary (h.tokens _) (operand.alike_self h below)
  | binary left operator right =>
    obtain ⟨first, second⟩ := Below.append.mp below
    exact .binary (left.alike_self h first) (h.tokens _) (right.alike_self h second)
  | logical left operator right =>
    obtain ⟨first, second⟩ := Below.append.mp below
    exact .logical (left.alike_self h first) (h.tokens _) (right.alike_self h second)
  | «variable» use => exact .variable (h.uses (below _ List.mem_cons_self))
  | assign target value =>
    obtain ⟨first, second⟩ := List.forall_mem_cons.mp below
    exact .assign (h.uses first) (value.alike_self h second)
  | this use => exact .this (h.uses (below _ List.mem_cons_self))
  | super use method => exact .super (h.uses (below _ List.mem_cons_self)) (h.tokens _)
  | call callee paren arguments =>
    obtain ⟨first, second⟩ := Below.append.mp below
    exact .call (callee.alike_self h first) (h.tokens _) (Expr.allAlike_self h arguments second)
  | get object name => exact .get (object.alike_self h below) (h.tokens _)
  | set object name value =>
    obtain ⟨first, second⟩ := Below.append.mp below
    exact .set (object.alike_self h first) (h.tokens _) (value.alike_self h second)
  | lambda params body =>
    have inner := Stmt.allAlike_self h body below
    rw [← Renamings.push_plain] at inner
    exact .lambda h.renames (h.allNamed params) inner
termination_by structural e

theorem Expr.allAlike_self (h : P.Keeps n) (es : List Expr) (below : Below n (Expr.usesAll es)) :
    Expr.AllAlike P .plain es es := by
  cases es with
  | nil => exact .nil
  | cons e es =>
    obtain ⟨first, rest⟩ := Below.append.mp below
    exact .cons (e.alike_self h first) (Expr.allAlike_self h es rest)
termination_by structural es

theorem FunctionDecl.alike_self (h : P.Keeps n) (f : FunctionDecl) (below : Below n f.uses) :
    f.Alike P .plain f := by
  cases f with
  | mk name params body =>
    have inner := Stmt.allAlike_self h body below
    rw [← Renamings.push_plain] at inner
    exact .mk (h.tokens name) h.renames (h.allNamed params) inner
termination_by structural f

theorem FunctionDecl.allAlike_self (h : P.Keeps n) (fs : List FunctionDecl)
    (below : Below n (FunctionDecl.usesAll fs)) : FunctionDecl.AllAlike P .plain fs fs := by
  cases fs with
  | nil => exact .nil
  | cons f fs =>
    obtain ⟨first, rest⟩ := Below.append.mp below
    exact .cons (f.alike_self h first) (FunctionDecl.allAlike_self h fs rest)
termination_by structural fs

theorem Stmt.alike_self (h : P.Keeps n) (s : Stmt) (below : Below n s.uses) :
    s.Alike P .plain s := by
  cases s with
  | expression e => exact .expression (e.alike_self h below)
  | print e => exact .print (e.alike_self h below)
  | var name initializer =>
    cases initializer with
    | none => exact .var (h.named name)
    | some e => exact .varWith (h.named name) (e.alike_self h below)
  | block body =>
    have inner := Stmt.allAlike_self h body below
    rw [← Renamings.push_plain] at inner
    exact .block h.renames inner
  | ifElse condition thenBranch elseBranch =>
    cases elseBranch with
    | none =>
      obtain ⟨first, second⟩ := Below.append.mp below
      exact .ifThen (condition.alike_self h first) (thenBranch.alike_self h second)
    | some elseBranch =>
      obtain ⟨both, third⟩ := Below.append.mp below
      obtain ⟨first, second⟩ := Below.append.mp both
      exact .ifElse (condition.alike_self h first) (thenBranch.alike_self h second)
        (elseBranch.alike_self h third)
  | whileLoop condition body =>
    obtain ⟨first, second⟩ := Below.append.mp below
    exact .whileLoop (condition.alike_self h first) (body.alike_self h second)
  | breakLoop keyword => exact .breakLoop (h.tokens _)
  | returnFrom keyword value =>
    cases value with
    | none => exact .returnFrom (h.tokens _)
    | some e => exact .returnWith (h.tokens _) (e.alike_self h below)
  | function declaration => exact .function (h.named _) (declaration.alike_self h below)
  | classDecl name superclass methods =>
    cases superclass with
    | none =>
      have members := FunctionDecl.allAlike_self h methods below
      rw [← Renamings.push_plain] at members
      exact .base (h.tokens _) (h.named _) members
    | some superclass =>
      obtain ⟨first, second⟩ := List.forall_mem_cons.mp below
      have members := FunctionDecl.allAlike_self h methods second
      rw [← Renamings.push_plain, ← Renamings.push_plain] at members
      exact .derived (h.tokens _) (h.named _) (h.uses first) members
termination_by structural s

theorem Stmt.allAlike_self (h : P.Keeps n) (ss : List Stmt) (below : Below n (Stmt.usesAll ss)) :
    Stmt.AllAlike P .plain ss ss := by
  cases ss with
  | nil => exact .nil
  | cons s ss =>
    obtain ⟨first, rest⟩ := Below.append.mp below
    exact .cons (s.alike_self h first) (Stmt.allAlike_self h ss rest)
termination_by structural ss

end

end Code

/-! ### Machines -/

def Store.plainFrames (s : Store) : FrameRenamings := List.replicate s.frames.size (Equiv.refl String)

section Machines

variable {P : Pairing} {n : Nat} {w : World} {s : Store}

theorem World.Fits.renames {e : Environment} {ls : Levels} (fits : w.Fits s e ls)
    (positive : 0 < s.frames.size) : e.Renames s.plainFrames .plain := by
  have plain {frame : Nat} (bound : frame < s.frames.size) :
      s.plainFrames[frame]? = some (Equiv.refl String) := List.getElem?_replicate_of_lt bound
  induction fits with
  | global => exact .global (plain positive)
  | child _ made ih =>
    intro d frame here
    rw [Environment.frames, made.enclosing] at here
    cases d with
    | zero =>
      obtain rfl := Option.some.inj here
      exact plain made.bound
    | succ d => exact ih d frame here

variable (h : P.Keeps n) (numbers : ∀ o, w.occurs o → o.use.id < n)

include h numbers

theorem World.OccursIn.alike {ls : Levels} {body : List Stmt}
    (occurs : w.OccursIn (Stmt.occurrencesAll ls body)) : Stmt.AllAlike P .plain body body := by
  refine Stmt.allAlike_self h body fun u mem => ?_
  obtain ⟨o, ho, rfl⟩ := List.mem_map.mp ((Stmt.occurrencesAll_perm ls body).mem_iff.mpr mem)
  exact numbers o (occurs o ho)

theorem World.ClosureFits.alike {f : Closure} (fits : w.ClosureFits s f)
    (positive : 0 < s.frames.size) : f.Alike P s.plainFrames f := by
  obtain ⟨ls, around, -, occurs⟩ := fits.place
  have body := World.OccursIn.alike h numbers occurs
  rw [← Renamings.push_plain] at body
  exact ⟨.plain, around.renames positive, rfl, rfl, rfl, _, h.renames, h.allNamed _, body⟩

theorem World.MethodFits.alike {c : Class} {f : Closure} (fits : w.MethodFits s c f)
    (positive : 0 < s.frames.size) : f.AlikeMethod P s.plainFrames f := by
  obtain ⟨ls, methods, -, -, -, around, -, occurs⟩ := fits.place
  have body := World.OccursIn.alike h numbers occurs
  rw [← Renamings.push_plain, ← Renamings.push_plain] at body
  exact ⟨.plain, around.renames positive, rfl, rfl, rfl, _, h.renames, h.allNamed _, body⟩

theorem World.ClassFits.alike {c : Class} (fits : w.ClassFits s c)
    (positive : 0 < s.frames.size) : c.Alike P s.plainFrames c := by
  have own {d : Class} (mem : d ∈ c.lineage) : MethodTable.Alike P s.plainFrames d.own d.own := by
    intro x
    cases found : d.own[x]? with
    | none => exact .none
    | some f => exact .some ((fits d mem x f found).alike h numbers positive)
  induction c with
  | base => exact .base (own (Class.mem_lineage_self _))
  | derived _ _ _ above ih =>
    refine .derived (own (Class.mem_lineage_self _)) (ih ?_ ?_)
    · exact fun d mem => fits d (List.mem_cons_of_mem _ mem)
    · exact fun mem => own (List.mem_cons_of_mem _ mem)

theorem World.ValueFits.alike {v : Value} (fits : w.ValueFits s v)
    (positive : 0 < s.frames.size) : v.Alike P s.plainFrames v := by
  cases v with
  | function id f => exact .function (World.ClosureFits.alike h numbers fits positive)
  | cls c => exact .cls (World.ClassFits.alike h numbers fits positive)
  | nil => exact .nil
  | bool => exact .bool
  | number => exact .number
  | string => exact .string
  | clock => exact .clock
  | «instance» => exact .instance

theorem World.Heap.alike {m : Machine} (heap : w.Heap m) :
    m.store.Alike P m.store.plainFrames m.store := by
  have positive := heap.positive
  have bindings {bs : Bindings} (fits : ∀ (x : String) v, bs[x]? = some v → w.ValueFits m.store v) :
      Bindings.Alike P m.store.plainFrames (Equiv.refl String) bs bs := by
    intro x
    change Option.Rel _ bs[x]? bs[x]?
    cases found : bs[x]? with
    | none => exact .none
    | some v => exact .some ((fits x v found).alike h numbers positive)
  have unrenamed {frame : Nat} {ρ : Renaming} (here : m.store.plainFrames[frame]? = some ρ) :
      ρ = Equiv.refl String := List.eq_of_mem_replicate (List.mem_of_getElem? here)
  refine ⟨List.length_replicate.symm, List.length_replicate.symm,
    List.getElem?_replicate_of_lt positive, ?_, ?_, rfl, fun id => ?_, rfl⟩
  · intro ρ mem
    obtain rfl := List.eq_of_mem_replicate mem
    exact h.renames
  · intro frame ρ here
    obtain rfl := unrenamed here
    exact bindings (heap.values frame)
  · cases found : m.store.instances[id]? with
    | none => exact .none
    | some i => exact .some ⟨World.ClassFits.alike h numbers (heap.classes id i found) positive,
        bindings (heap.fields id i found)⟩

end Machines

/-- Between two entries of a history the machine is alike to itself, if its distances are. -/
theorem Session.Kept.alike {s : Session} {history : List Entry} (kept : s.Kept history) {P : Pairing}
    (h : P.Keeps (s.afterAll history).nextId) (distances : ∀ i i', P.ids i i' →
      (s.afterAll history).machine.distances[i']? = (s.afterAll history).machine.distances[i]? ∧
        P.distances i (s.afterAll history).machine.distances[i]?) :
    (s.afterAll history).machine.Alike P (s.afterAll history).machine.store.plainFrames "" .global
      (s.afterAll history).machine :=
  ⟨kept.heap.alike h kept.occurs, kept.current, kept.current, distances, String.empty_append.symm,
    rfl⟩

end Lox
