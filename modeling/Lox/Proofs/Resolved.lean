import Lox.Proofs.Contexts
import Lox.Proofs.Occurrences

/-!
# What the resolver records

In a program without static errors each use has the distance of the first scope around it that holds
its name, and `this` and `super` are in scopes that hold them: `Program.Lawful.walked`.
-/

namespace Lox

/-! ### Errors stay -/

namespace Resolution

variable {r : Resolution}

theorem of_report {token : Token} {fault : StaticFault} (h : (r.report token fault).errors = []) :
    False := by simp [report] at h

theorem of_reportIf {bad : Bool} {token : Token} {fault : StaticFault}
    (h : (r.reportIf bad token fault).errors = []) : bad = false ∧ r.errors = [] := by
  cases bad with
  | true => exact (of_report h).elim
  | false => exact ⟨rfl, h⟩

theorem errors_put (r : Resolution) (name : String) (complete : Bool) :
    (r.put name complete).errors = r.errors := by
  unfold put
  split <;> rfl

theorem errors_record (r : Resolution) (use : Use) : (r.record use).errors = r.errors := by
  unfold record
  split <;> rfl

theorem of_declare {name : Token} (h : (r.declare name).errors = []) : r.errors = [] := by
  have := (of_reportIf h).2
  rwa [errors_put] at this

theorem of_introduce {name : Token} (h : (r.introduce name).errors = []) : r.errors = [] := by
  rw [introduce, define, errors_put] at h
  exact of_declare h

theorem of_introduceAll {params : List Token} (h : (params.foldl introduce r).errors = []) :
    r.errors = [] := by
  induction params generalizing r with
  | nil => exact h
  | cons p params ih => exact of_introduce (ih h)

theorem of_enterFunction {params : List Token} (h : (r.enterFunction params).errors = []) :
    r.errors = [] := of_introduceAll (r := r.enter) h

theorem of_read {use : Use} (h : (r.read use).errors = []) :
    r.innermost? use.name.lexeme ≠ some false ∧ r.errors = [] := by
  rw [read, errors_record] at h
  have := of_reportIf h
  exact ⟨by simpa using this.1, this.2⟩

theorem of_readThis {c : Context} {use : Use} (h : (r.readThisIn c use).errors = []) :
    c.cls ≠ .none ∧ r.readThisIn c use = r.record use ∧ r.errors = [] := by
  unfold readThisIn at h ⊢
  split at h
  · exact (of_report h).elim
  · rename_i inside
    rw [errors_record] at h
    exact ⟨inside, if_neg inside, h⟩

theorem of_readSuper {c : Context} {use : Use} (h : (r.readSuperIn c use).errors = []) :
    c.cls = .derived ∧ r.readSuperIn c use = r.record use ∧ r.errors = [] := by
  unfold readSuperIn at h ⊢
  cases hc : c.cls <;> rw [hc] at h <;> dsimp only at h <;> rw [errors_record] at h
  · exact (of_report h).elim
  · exact (of_report h).elim
  · exact ⟨rfl, rfl, h⟩

theorem of_checkReturn {c : Context} {keyword : Token} {hasValue : Bool}
    (h : (r.checkReturnIn c keyword hasValue).errors = []) :
    r.checkReturnIn c keyword hasValue = r := by
  unfold checkReturnIn at h ⊢
  have second := of_reportIf h
  have first := of_reportIf second.2
  rw [second.1, first.1]
  rfl

end Resolution

mutual

theorem Expr.clean_before {c : Context} (e : Expr) {r : Resolution}
    (h : (e.resolveIn c r).errors = []) : r.errors = [] := by
  cases e with
  | literal value => exact h
  | grouping inner => exact inner.clean_before h
  | unary operator operand => exact operand.clean_before h
  | binary left operator right => exact left.clean_before (right.clean_before h)
  | logical left operator right => exact left.clean_before (right.clean_before h)
  | «variable» use => exact (Resolution.of_read h).2
  | assign target value =>
    rw [Expr.resolveIn, Resolution.errors_record] at h
    exact value.clean_before h
  | this use => exact (Resolution.of_readThis h).2.2
  | super use method => exact (Resolution.of_readSuper h).2.2
  | call callee paren arguments => exact callee.clean_before (Expr.clean_before_all arguments h)
  | get object name => exact object.clean_before h
  | set object name value => exact value.clean_before (object.clean_before h)
  | lambda params body => exact Resolution.of_enterFunction (Stmt.clean_before_all body h)
termination_by structural e

theorem Expr.clean_before_all {c : Context} (es : List Expr) {r : Resolution}
    (h : (Expr.resolveAllIn c es r).errors = []) : r.errors = [] := by
  cases es with
  | nil => exact h
  | cons e es => exact e.clean_before (Expr.clean_before_all es h)
termination_by structural es

theorem FunctionDecl.clean_before {c : Context} (f : FunctionDecl) {r : Resolution}
    (h : (f.resolveIn c r).errors = []) : r.errors = [] := by
  cases f with
  | mk name params body => exact Resolution.of_enterFunction (Stmt.clean_before_all body h)
termination_by structural f

theorem FunctionDecl.clean_before_all {c : Context} (fs : List FunctionDecl) {r : Resolution}
    (h : (FunctionDecl.resolveAllIn c fs r).errors = []) : r.errors = [] := by
  cases fs with
  | nil => exact h
  | cons f fs => exact f.clean_before (FunctionDecl.clean_before_all fs h)
termination_by structural fs

theorem Stmt.clean_before {c : Context} (s : Stmt) {r : Resolution}
    (h : (s.resolveIn c r).errors = []) : r.errors = [] := by
  cases s with
  | expression e => exact e.clean_before h
  | print e => exact e.clean_before h
  | var name initializer =>
    cases initializer with
    | none => exact Resolution.of_introduce h
    | some e =>
      rw [Stmt.resolveIn, Resolution.define, Resolution.errors_put] at h
      exact Resolution.of_declare (e.clean_before h)
  | block body => exact Stmt.clean_before_all (r := r.enter) body h
  | ifElse condition thenBranch elseBranch =>
    cases elseBranch with
    | none => exact condition.clean_before (thenBranch.clean_before h)
    | some elseBranch =>
      exact condition.clean_before (thenBranch.clean_before (elseBranch.clean_before h))
  | whileLoop condition body => exact condition.clean_before (body.clean_before h)
  | breakLoop keyword => exact h
  | returnFrom keyword value =>
    cases value with
    | none => exact Resolution.of_checkReturn h ▸ h
    | some e =>
      have checked := e.clean_before h
      exact Resolution.of_checkReturn checked ▸ checked
  | function declaration => exact Resolution.of_introduce (declaration.clean_before h)
  | classDecl name superclass methods =>
    cases superclass with
    | none =>
      have entered := FunctionDecl.clean_before_all methods h
      rw [Resolution.enterClass, Resolution.errors_put] at entered
      exact Resolution.of_introduce entered
    | some superclass =>
      have entered := FunctionDecl.clean_before_all methods h
      rw [Resolution.enterClass, Resolution.errors_put] at entered
      change (Resolution.enterDerived _ name superclass).errors = [] at entered
      rw [Resolution.enterDerived, Resolution.errors_put] at entered
      exact Resolution.of_introduce (Resolution.of_reportIf (Resolution.of_read entered).2).2
termination_by structural s

theorem Stmt.clean_before_all {c : Context} (ss : List Stmt) {r : Resolution}
    (h : (Stmt.resolveAllIn c ss r).errors = []) : r.errors = [] := by
  cases ss with
  | nil => exact h
  | cons s ss => exact s.clean_before (Stmt.clean_before_all ss h)
termination_by structural ss

end

/-! ### Scopes -/

/-- The first scope that holds a name is at this distance, and the name is complete there. -/
def Levels.Reach (ls : Levels) (name : String) (d : Nat) : Prop :=
  ls.distance? name = some d ∧ ∃ l, ls[d]? = some l ∧ l.scope[name]? = some true

def ClassContext.Around (ls : Levels) : ClassContext → Prop
  | .none => True
  | .plain => ∃ d, ls.Reach "this" d
  | .derived => ∃ d, ls.Reach "this" d ∧ ls.Reach "super" (d + 1)

def Occurrence.Legal (o : Occurrence) : Prop :=
  match o.kind with
  | .variable => ∀ l, o.levels.head? = some l → l.scope[o.use.name.lexeme]? ≠ some false
  | .assign => True
  | .this => o.use.name.lexeme = "this" ∧ ∃ d, o.levels.Reach "this" d
  | .super => o.use.name.lexeme = "super" ∧
      ∃ d, o.levels.Reach "this" d ∧ o.levels.Reach "super" (d + 1)

namespace Levels

variable {ls : Levels} {name : String} {d : Nat}

theorem Reach.cons (h : ls.Reach name d) {l : Level} (other : l.scope.contains name = false) :
    Reach (l :: ls) name (d + 1) := by
  obtain ⟨found, l', here, complete⟩ := h
  refine ⟨?_, l', here, complete⟩
  rw [distance?, List.findIdx?_cons, other]
  unfold distance? at found
  simp [found]

/-- A change to other names of the innermost scope. -/
theorem Reach.modifyHead (h : ls.Reach name d) {f : Level → Level}
    (same : ∀ l, (f l).scope[name]? = l.scope[name]?) : Reach (ls.modifyHead f) name d := by
  have contains (l : Level) : (f l).scope.contains name = l.scope.contains name := by
    rw [Std.TreeMap.contains_eq_isSome_getElem?, same, Std.TreeMap.contains_eq_isSome_getElem?]
  obtain ⟨found, l, here, complete⟩ := h
  cases ls with
  | nil => cases here
  | cons head outer =>
    refine ⟨?_, ?_⟩
    · unfold distance? at found ⊢
      rw [Levels.modifyHead, List.findIdx?_cons, contains]
      rwa [List.findIdx?_cons] at found
    · cases d with
      | zero =>
        obtain rfl := Option.some.inj here
        exact ⟨f head, rfl, (same head).trans complete⟩
      | succ d => exact ⟨l, here, complete⟩

end Levels

theorem Level.getElem?_put {l : Level} {name other : String} {complete : Bool}
    (different : other ≠ name) : (l.put other complete).scope[name]? = l.scope[name]? := by
  rw [put, Std.TreeMap.getElem?_insert, if_neg]
  simpa using different

theorem Level.getElem?_introduce {l : Level} {name other : String} (different : other ≠ name) :
    (l.introduce other).scope[name]? = l.scope[name]? :=
  (getElem?_put different).trans (getElem?_put different)

theorem Level.getElem?_introduceAll {params : List Token} {l : Level} {name : String}
    (different : ∀ p ∈ params, p.lexeme ≠ name) :
    (params.foldl (fun l p => l.introduce p.lexeme) l).scope[name]? = l.scope[name]? := by
  induction params generalizing l with
  | nil => rfl
  | cons p params ih =>
    exact (ih fun p hp => different p (List.mem_cons_of_mem _ hp)).trans
      (getElem?_introduce (different p List.mem_cons_self))

theorem Level.contains_function {params : List Token} {body : List Stmt} {name : String}
    (different : ∀ p ∈ params, p.lexeme ≠ name) :
    (Level.function params body).scope.contains name = false := by
  rw [Std.TreeMap.contains_eq_isSome_getElem?, function, getElem?_introduceAll different]
  rfl

namespace ClassContext.Around

variable {cls : ClassContext} {ls : Levels} (h : cls.Around ls)

include h

theorem cons {l : Level} (this : l.scope.contains "this" = false)
    (super : l.scope.contains "super" = false) : cls.Around (l :: ls) := by
  cases cls with
  | none => trivial
  | plain =>
    obtain ⟨d, reach⟩ := h
    exact ⟨d + 1, reach.cons this⟩
  | derived =>
    obtain ⟨d, reachThis, reachSuper⟩ := h
    exact ⟨d + 1, reachThis.cons this, reachSuper.cons super⟩

theorem modifyHead {f : Level → Level}
    (this : ∀ l, (f l).scope["this"]? = l.scope["this"]?)
    (super : ∀ l, (f l).scope["super"]? = l.scope["super"]?) :
    cls.Around (ls.modifyHead f) := by
  cases cls with
  | none => trivial
  | plain =>
    obtain ⟨d, reach⟩ := h
    exact ⟨d, reach.modifyHead this⟩
  | derived =>
    obtain ⟨d, reachThis, reachSuper⟩ := h
    exact ⟨d, reachThis.modifyHead this, reachSuper.modifyHead super⟩

theorem introduce {name : Token} (isName : name.IsName) : cls.Around (ls.introduce name.lexeme) :=
  h.modifyHead (fun _ => Level.getElem?_introduce (isName.ne rfl))
    fun _ => Level.getElem?_introduce (isName.ne rfl)

theorem inInitializer {name : Token} (isName : name.IsName) (e : Expr) :
    cls.Around (ls.modifyHead (·.inInitializer name e)) :=
  h.modifyHead (fun _ => Level.getElem?_put (isName.ne rfl))
    fun _ => Level.getElem?_put (isName.ne rfl)

theorem block (body : List Stmt) : cls.Around (.block body :: ls) := h.cons rfl rfl

theorem function {params : List Token} (names : ∀ p ∈ params, p.IsName) (body : List Stmt) :
    cls.Around (.function params body :: ls) :=
  h.cons (Level.contains_function fun p hp => (names p hp).ne rfl)
    (Level.contains_function fun p hp => (names p hp).ne rfl)

end ClassContext.Around

/-! ### Walks -/

/-- What the resolver did on a part with these uses, after which the scopes are `ls`. -/
structure Walked (ls : Levels) (os : List Occurrence) (r r' : Resolution) : Prop where
  scopes : r'.scopes = ls.map Level.scope
  distances : r'.distances = os.foldl Occurrence.record r.distances
  legal : ∀ o ∈ os, o.Legal

namespace Walked

variable {ls ls' : Levels} {os os' : List Occurrence} {r mid r' : Resolution}

theorem nothing (scopes : r.scopes = ls.map Level.scope) : Walked ls [] r r := ⟨scopes, rfl, nofun⟩

theorem trans (h : Walked ls os r mid) (h' : Walked ls' os' mid r') :
    Walked ls' (os ++ os') r r' := by
  refine ⟨h'.scopes, ?_, fun o ho => ?_⟩
  · rw [h'.distances, h.distances, List.foldl_append]
  · obtain ho | ho := List.mem_append.mp ho
    · exact h.legal o ho
    · exact h'.legal o ho

theorem start (h : Walked ls os mid r') (same : mid.distances = r.distances) :
    Walked ls os r r' := ⟨h.scopes, same ▸ h.distances, h.legal⟩

theorem leave (h : Walked ls os r r') : Walked ls.tail os r r'.leave :=
  ⟨by rw [Resolution.leave, h.scopes, List.map_tail], h.distances, h.legal⟩

theorem record {kind : UseKind} {use : Use} (scopes : r.scopes = ls.map Level.scope)
    (legal : Occurrence.Legal ⟨kind, use, ls⟩) :
    Walked ls [⟨kind, use, ls⟩] r (r.record use) := by
  have same : r.distance? use.name.lexeme = ls.distance? use.name.lexeme := by
    rw [Resolution.distance?, scopes, List.findIdx?_map]
    rfl
  refine ⟨?_, ?_, fun o ho => List.mem_singleton.mp ho ▸ legal⟩
  · unfold Resolution.record
    split <;> exact scopes
  · rw [List.foldl_cons, List.foldl_nil, Occurrence.record, Occurrence.distance?]
    unfold Resolution.record
    rw [same]
    cases ls.distance? use.name.lexeme <;> rfl

end Walked

namespace Resolution

variable {r : Resolution} {ls : Levels}

theorem distances_put (r : Resolution) (name : String) (complete : Bool) :
    (r.put name complete).distances = r.distances := by
  unfold put
  split <;> rfl

theorem distances_reportIf (r : Resolution) (bad : Bool) (token : Token) (fault : StaticFault) :
    (r.reportIf bad token fault).distances = r.distances := by
  unfold reportIf
  split <;> rfl

theorem distances_declare (r : Resolution) (name : Token) :
    (r.declare name).distances = r.distances := by
  rw [declare, distances_reportIf, distances_put]

theorem distances_introduce (r : Resolution) (name : Token) :
    (r.introduce name).distances = r.distances := by
  rw [introduce, define, distances_put, distances_declare]

theorem distances_enterFunction (r : Resolution) (params : List Token) :
    (r.enterFunction params).distances = r.distances := by
  have fold (r : Resolution) : (params.foldl introduce r).distances = r.distances := by
    induction params generalizing r with
    | nil => rfl
    | cons p params ih => exact (ih _).trans (distances_introduce r p)
  exact fold r.enter

theorem scopes_put (scopes : r.scopes = ls.map Level.scope) (name : String) (complete : Bool) :
    (r.put name complete).scopes = (ls.modifyHead (·.put name complete)).map Level.scope := by
  unfold put
  cases ls with
  | nil => rw [show r.scopes = [] from scopes, Levels.modifyHead]; exact scopes
  | cons l outer => rw [show r.scopes = l.scope :: outer.map Level.scope from scopes]; rfl

theorem scopes_declare (scopes : r.scopes = ls.map Level.scope) (name : Token) :
    (r.declare name).scopes = (ls.modifyHead (·.put name.lexeme false)).map Level.scope := by
  rw [declare, scopes_reportIf]
  exact scopes_put scopes _ _

theorem scopes_introduce (scopes : r.scopes = ls.map Level.scope) (name : Token) :
    (r.introduce name).scopes = (ls.introduce name.lexeme).map Level.scope := by
  rw [introduce, define, scopes_put (scopes_declare scopes name)]
  cases ls <;> rfl

theorem scopes_enterFunction (scopes : r.scopes = ls.map Level.scope) (params : List Token)
    (body : List Stmt) :
    (r.enterFunction params).scopes = (Level.function params body :: ls).map Level.scope := by
  have fold (r : Resolution) (l : Level) (scopes : r.scopes = (l :: ls).map Level.scope) :
      (params.foldl introduce r).scopes =
        (params.foldl (fun l p => l.introduce p.lexeme) l :: ls).map Level.scope := by
    induction params generalizing r l with
    | nil => exact scopes
    | cons p params ih => exact ih _ _ (scopes_introduce scopes p)
  exact fold r.enter { site := .function params body } (congrArg (∅ :: ·) scopes)

theorem scopes_record (r : Resolution) (use : Use) : (r.record use).scopes = r.scopes := by
  unfold record
  split <;> rfl

theorem scopes_read (r : Resolution) (use : Use) : (r.read use).scopes = r.scopes := by
  rw [read, scopes_record, scopes_reportIf]

theorem scopes_readThis (r : Resolution) (c : Context) (use : Use) :
    (r.readThisIn c use).scopes = r.scopes := by
  unfold readThisIn
  split
  · rfl
  · exact scopes_record r use

theorem scopes_readSuper (r : Resolution) (c : Context) (use : Use) :
    (r.readSuperIn c use).scopes = r.scopes := by
  unfold readSuperIn
  split <;> exact scopes_record _ use

theorem scopes_checkReturn (r : Resolution) (c : Context) (keyword : Token) (hasValue : Bool) :
    (r.checkReturnIn c keyword hasValue).scopes = r.scopes := by
  rw [checkReturnIn, scopes_reportIf, scopes_reportIf]

theorem innermost_ne {use : Use} (scopes : r.scopes = ls.map Level.scope)
    (h : r.innermost? use.name.lexeme ≠ some false) :
    Occurrence.Legal ⟨.variable, use, ls⟩ := by
  intro l here
  rw [innermost?, scopes, List.head?_map, show ls.head? = some l from here] at h
  exact h

end Resolution

theorem Walked.read {ls : Levels} {r : Resolution} {use : Use}
    (scopes : r.scopes = ls.map Level.scope) (clean : (r.read use).errors = []) :
    Walked ls [⟨.variable, use, ls⟩] r (r.read use) := by
  have checked : (r.reportIf (r.innermost? use.name.lexeme == some false) use.name
      .ownInitializer).scopes = ls.map Level.scope := by
    rw [Resolution.scopes_reportIf]
    exact scopes
  have legal := Resolution.innermost_ne scopes (Resolution.of_read clean).1
  exact (Walked.record checked legal).start (r.distances_reportIf _ _ _)

theorem Stmt.Proper.isName_declared {s : Stmt} (proper : s.Proper) {x : String}
    (declares : s.declared? = some x) : ∃ name : Token, name.IsName ∧ name.lexeme = x := by
  cases s with
  | var name initializer =>
    obtain rfl := Option.some.inj declares
    cases initializer with
    | none => exact ⟨name, proper, rfl⟩
    | some e => exact ⟨name, proper.1, rfl⟩
  | function declaration =>
    obtain rfl := Option.some.inj declares
    cases declaration with
    | mk name params body => exact ⟨name, proper.1, rfl⟩
  | classDecl name superclass methods =>
    obtain rfl := Option.some.inj declares
    cases superclass <;> exact ⟨name, proper.1, rfl⟩
  | _ => cases declares

theorem ClassContext.Around.after {cls : ClassContext} {ls : Levels} (h : cls.Around ls) {s : Stmt}
    (proper : s.Proper) : cls.Around (s.after ls) := by
  unfold Stmt.after
  cases declares : s.declared? with
  | none => exact h
  | some x =>
    obtain ⟨name, isName, rfl⟩ := proper.isName_declared declares
    exact h.introduce isName

theorem Levels.reach_methods (methods : List FunctionDecl) (ls : Levels) :
    Reach (.methods methods :: ls) "this" 0 := by
  refine ⟨?_, _, rfl, ?_⟩
  · rw [distance?, List.findIdx?_cons]
    simp [Level.methods]
  · simp [Level.methods]

theorem Levels.reach_superclass (superclass : Use) (methods : List FunctionDecl) (ls : Levels) :
    Reach (.methods methods :: .superclass superclass methods :: ls) "super" 1 := by
  have here : Reach (.superclass superclass methods :: ls) "super" 0 := by
    refine ⟨?_, _, rfl, ?_⟩
    · rw [distance?, List.findIdx?_cons]
      simp [Level.superclass]
    · simp [Level.superclass]
  refine here.cons ?_
  simp [Level.methods, Std.TreeMap.contains_insert]

theorem Stmt.tail_after (l : Level) (ls : Levels) (s : Stmt) :
    (s.after (l :: ls)).tail = ls ∧ s.after (l :: ls) ≠ [] := by
  unfold Stmt.after
  cases s.declared? with
  | none => exact ⟨rfl, nofun⟩
  | some name => exact ⟨rfl, nofun⟩

theorem Stmt.tail_afterAll (l : Level) (ls : Levels) (ss : List Stmt) :
    (ss.foldl Stmt.after (l :: ls)).tail = ls := by
  induction ss generalizing l with
  | nil => rfl
  | cons s ss ih =>
    rw [List.foldl_cons]
    have head := s.tail_after l ls
    cases after : s.after (l :: ls) with
    | nil => exact absurd after head.2
    | cons l' ls' =>
      rw [after] at head
      obtain rfl : ls' = ls := head.1
      exact ih l'

theorem Stmt.after_nil (s : Stmt) : s.after [] = [] := by
  unfold after
  cases s.declared? <;> rfl

theorem Stmt.afterAll_nil (ss : List Stmt) : ss.foldl Stmt.after [] = [] := by
  induction ss with
  | nil => rfl
  | cons s ss ih => rw [List.foldl_cons, s.after_nil, ih]

mutual

theorem Expr.walked {c : Context} {ls : Levels} (e : Expr) {r : Resolution} (proper : e.Proper)
    (scopes : r.scopes = ls.map Level.scope) (around : c.cls.Around ls)
    (clean : (e.resolveIn c r).errors = []) :
    Walked ls (e.occurrences ls) r (e.resolveIn c r) := by
  cases e with
  | literal value => exact .nothing scopes
  | grouping inner => exact inner.walked proper scopes around clean
  | unary operator operand => exact operand.walked proper scopes around clean
  | binary left operator right =>
    have first := left.walked proper.1 scopes around (right.clean_before clean)
    exact first.trans (right.walked proper.2 first.scopes around clean)
  | logical left operator right =>
    have first := left.walked proper.1 scopes around (right.clean_before clean)
    exact first.trans (right.walked proper.2 first.scopes around clean)
  | «variable» use => exact .read scopes clean
  | assign target value =>
    rw [Expr.resolveIn, Resolution.errors_record] at clean
    have first := value.walked proper.2 scopes around clean
    exact first.trans (.record first.scopes trivial)
  | this use =>
    obtain ⟨inside, same, -⟩ := Resolution.of_readThis clean
    rw [Expr.resolveIn, same]
    refine .record scopes ⟨proper, ?_⟩
    cases hc : c.cls with
    | none => exact absurd hc inside
    | plain =>
      rw [hc] at around
      exact around
    | derived =>
      rw [hc] at around
      obtain ⟨d, reach, -⟩ := around
      exact ⟨d, reach⟩
  | super use method =>
    obtain ⟨inside, same, -⟩ := Resolution.of_readSuper clean
    rw [Expr.resolveIn, same]
    rw [inside] at around
    exact .record scopes ⟨proper, around⟩
  | call callee paren arguments =>
    have first := callee.walked proper.1 scopes around (Expr.clean_before_all arguments clean)
    exact first.trans (Expr.walkedAll arguments proper.2 first.scopes around clean)
  | get object name => exact object.walked proper scopes around clean
  | set object name value =>
    have first := value.walked proper.2 scopes around (object.clean_before clean)
    exact first.trans (object.walked proper.1 first.scopes around clean)
  | lambda params body =>
    have entered := Resolution.scopes_enterFunction scopes params body
    have walked := Stmt.walkedAll (c := { c with function := .function }) body proper.2 entered
      (around.function proper.1 body) clean
    have left := (walked.start (r.distances_enterFunction params)).leave
    rwa [Stmt.tail_afterAll] at left
termination_by structural e

theorem Expr.walkedAll {c : Context} {ls : Levels} (es : List Expr) {r : Resolution}
    (proper : Expr.ProperAll es) (scopes : r.scopes = ls.map Level.scope)
    (around : c.cls.Around ls) (clean : (Expr.resolveAllIn c es r).errors = []) :
    Walked ls (Expr.occurrencesAll ls es) r (Expr.resolveAllIn c es r) := by
  cases es with
  | nil => exact .nothing scopes
  | cons e es =>
    have first := e.walked proper.1 scopes around (Expr.clean_before_all es clean)
    exact first.trans (Expr.walkedAll es proper.2 first.scopes around clean)
termination_by structural es

theorem FunctionDecl.walked {c : Context} {ls : Levels} (f : FunctionDecl) {r : Resolution}
    (proper : f.Proper) (scopes : r.scopes = ls.map Level.scope) (around : c.cls.Around ls)
    (clean : (f.resolveIn c r).errors = []) :
    Walked ls (f.occurrences ls) r (f.resolveIn c r) := by
  cases f with
  | mk name params body =>
    have entered := Resolution.scopes_enterFunction scopes params body
    have walked := Stmt.walkedAll body proper.2.2 entered (around.function proper.2.1 body) clean
    have left := (walked.start (r.distances_enterFunction params)).leave
    rwa [Stmt.tail_afterAll] at left
termination_by structural f

theorem FunctionDecl.walkedAll {c : Context} {ls : Levels} (fs : List FunctionDecl)
    {r : Resolution} (proper : FunctionDecl.ProperAll fs) (scopes : r.scopes = ls.map Level.scope)
    (around : c.cls.Around ls) (clean : (FunctionDecl.resolveAllIn c fs r).errors = []) :
    Walked ls (FunctionDecl.occurrencesAll ls fs) r (FunctionDecl.resolveAllIn c fs r) := by
  cases fs with
  | nil => exact .nothing scopes
  | cons f fs =>
    have first := f.walked (c := c.ofMethod f) proper.1 scopes around
      (FunctionDecl.clean_before_all fs clean)
    exact first.trans (FunctionDecl.walkedAll fs proper.2 first.scopes around clean)
termination_by structural fs

theorem Stmt.walked {c : Context} {ls : Levels} (s : Stmt) {r : Resolution} (proper : s.Proper)
    (scopes : r.scopes = ls.map Level.scope) (around : c.cls.Around ls)
    (clean : (s.resolveIn c r).errors = []) :
    Walked (s.after ls) (s.occurrences ls) r (s.resolveIn c r) := by
  cases s with
  | expression e => exact e.walked proper scopes around clean
  | print e => exact e.walked proper scopes around clean
  | var name initializer =>
    cases initializer with
    | none =>
      have introduced := Walked.nothing (Resolution.scopes_introduce scopes name)
      exact introduced.start (r.distances_introduce name)
    | some e =>
      rw [Stmt.resolveIn, Resolution.define, Resolution.errors_put] at clean
      have declared := Resolution.scopes_declare scopes name
      -- Between the two steps of its definition the variable is there, but not complete.
      have entered : (r.declare name).scopes =
          (ls.modifyHead (·.inInitializer name e)).map Level.scope := by
        cases ls <;> exact declared
      have walked := e.walked proper.2 entered (around.inInitializer proper.1 e) clean
      have inside := walked.start (r.distances_declare name)
      refine ⟨?_, (Resolution.distances_put _ _ _).trans inside.distances, inside.legal⟩
      rw [Stmt.resolveIn, Resolution.define, Resolution.scopes_put inside.scopes]
      cases ls <;> rfl
  | block body =>
    have entered : r.enter.scopes = (Level.block body :: ls).map Level.scope :=
      congrArg (∅ :: ·) scopes
    have walked := Stmt.walkedAll (r := r.enter) body proper entered (around.block body) clean
    have left := (walked.start (r := r) rfl).leave
    rwa [Stmt.tail_afterAll] at left
  | ifElse condition thenBranch elseBranch =>
    cases elseBranch with
    | none =>
      have first := condition.walked proper.1 scopes around (thenBranch.clean_before clean)
      have second := thenBranch.walked proper.2.1 first.scopes around clean
      rw [Stmt.after, proper.2.2] at second
      exact first.trans second
    | some elseBranch =>
      have clean₂ := elseBranch.clean_before clean
      have first := condition.walked proper.1 scopes around (thenBranch.clean_before clean₂)
      have second := thenBranch.walked proper.2.1.1 first.scopes around clean₂
      rw [Stmt.after, proper.2.1.2] at second
      have third := elseBranch.walked proper.2.2.1 second.scopes around clean
      rw [Stmt.after, proper.2.2.2] at third
      exact (first.trans second).trans third
  | whileLoop condition body =>
    have first := condition.walked proper.1 scopes around (body.clean_before clean)
    have second := body.walked proper.2.1 first.scopes around clean
    rw [Stmt.after, proper.2.2] at second
    exact first.trans second
  | breakLoop keyword => exact .nothing scopes
  | returnFrom keyword value =>
    cases value with
    | none =>
      rw [Stmt.resolveIn, Resolution.of_checkReturn clean]
      exact .nothing scopes
    | some e =>
      have checked := Resolution.of_checkReturn (e.clean_before clean)
      rw [Stmt.resolveIn, checked] at clean ⊢
      exact e.walked proper scopes around clean
  | function declaration =>
    have introduced := Resolution.scopes_introduce scopes declaration.name
    have isName : declaration.name.IsName := by
      cases declaration
      exact proper.1
    have walked := declaration.walked (c := { c with function := .function }) proper introduced
      (around.introduce isName) clean
    exact walked.start (r.distances_introduce _)
  | classDecl name superclass methods =>
    have introduced := Resolution.scopes_introduce scopes name
    cases superclass with
    | none =>
      have entered : (r.introduce name).enterClass.scopes =
          (Level.methods methods :: ls.introduce name.lexeme).map Level.scope :=
        congrArg ((∅ : Scope).insert "this" true :: ·) introduced
      have walked := FunctionDecl.walkedAll (c := { c with cls := .plain }) methods proper.2 entered
        ⟨0, Levels.reach_methods _ _⟩ clean
      exact (walked.start (r.distances_introduce name)).leave
    | some superclass =>
      -- The superclass is read before the scopes of `super` and `this` are entered.
      have unopened : ((r.introduce name).enterDerived name superclass).errors = [] := by
        have := FunctionDecl.clean_before_all methods clean
        rwa [Resolution.enterClass, Resolution.errors_put] at this
      rw [Resolution.enterDerived, Resolution.errors_put] at unopened
      have checked := (Resolution.scopes_reportIf (r.introduce name)
        (superclass.name.lexeme == name.lexeme) superclass.name .selfInheritance).trans introduced
      have read := Walked.read checked unopened
      have entered : ((r.introduce name).enterDerived name superclass).enterClass.scopes =
          (Level.methods methods :: .superclass superclass methods ::
            ls.introduce name.lexeme).map Level.scope :=
        congrArg (fun scopes => (∅ : Scope).insert "this" true :: (∅ : Scope).insert "super" true ::
          scopes) read.scopes
      have walked := FunctionDecl.walkedAll (c := { c with cls := .derived }) methods proper.2.2
        entered ⟨0, Levels.reach_methods _ _, Levels.reach_superclass _ _ _⟩ clean
      have both := read.trans (walked.start rfl)
      have started := both.start ((Resolution.distances_reportIf _ _ _ _).trans
        (r.distances_introduce name))
      exact started.leave.leave
termination_by structural s

theorem Stmt.walkedAll {c : Context} {ls : Levels} (ss : List Stmt) {r : Resolution}
    (proper : Stmt.ProperAll ss) (scopes : r.scopes = ls.map Level.scope)
    (around : c.cls.Around ls) (clean : (Stmt.resolveAllIn c ss r).errors = []) :
    Walked (ss.foldl Stmt.after ls) (Stmt.occurrencesAll ls ss) r (Stmt.resolveAllIn c ss r) := by
  cases ss with
  | nil => exact .nothing scopes
  | cons s ss =>
    have first := s.walked proper.1 scopes around (Stmt.clean_before_all ss clean)
    have others := Stmt.walkedAll ss proper.2 first.scopes (around.after proper.1) clean
    exact first.trans others
termination_by structural ss

end

/-! ### Distances -/

theorem Occurrence.getElem?_record {ds : Distances} {o : Occurrence} {id : Nat}
    (different : o.use.id ≠ id) : (o.record ds)[id]? = ds[id]? := by
  unfold record
  split
  · rw [Std.TreeMap.getElem?_insert, if_neg]
    simpa using different
  · rfl

theorem Occurrence.getElem?_recordAll {os : List Occurrence} {ds : Distances} {id : Nat}
    (different : ∀ o ∈ os, o.use.id ≠ id) : (os.foldl record ds)[id]? = ds[id]? := by
  induction os generalizing ds with
  | nil => rfl
  | cons o os ih =>
    exact (ih fun o ho => different o (List.mem_cons_of_mem _ ho)).trans
      (getElem?_record (different o List.mem_cons_self))

theorem Occurrence.recorded {os : List Occurrence} {ds : Distances}
    (distinct : (os.map (·.use.id)).Nodup) {o : Occurrence} (ho : o ∈ os)
    (fresh : ds[o.use.id]? = none) : (os.foldl record ds)[o.use.id]? = o.distance? := by
  induction os generalizing ds with
  | nil => cases ho
  | cons first os ih =>
    rw [List.map_cons, List.nodup_cons] at distinct
    obtain rfl | ho := List.mem_cons.mp ho
    · have others : ∀ other ∈ os, other.use.id ≠ o.use.id := fun other hother same =>
        distinct.1 (same ▸ List.mem_map_of_mem hother)
      rw [List.foldl_cons, getElem?_recordAll others]
      unfold record
      cases o.distance? with
      | none => exact fresh
      | some d => exact Std.TreeMap.getElem?_insert_self
    · refine ih distinct.2 ho ?_
      have different : first.use.id ≠ o.use.id := fun same =>
        distinct.1 (same ▸ List.mem_map_of_mem ho)
      rw [getElem?_record different]
      exact fresh

namespace Program.Lawful

variable {p : Program} {i j : Nat} (h : p.Lawful i j)

include h

theorem distinct_occurrences : (p.occurrences.map (·.use.id)).Nodup := by
  have ids := (p.occurrences_perm.map (·.2.id)).nodup_iff.mpr h.ids.distinct
  rwa [List.map_map] at ids

theorem within_occurrences {o : Occurrence} (ho : o ∈ p.occurrences) :
    i ≤ o.use.id ∧ o.use.id < j :=
  h.ids.within _ (p.occurrences_perm.mem_iff.mp (List.mem_map_of_mem (f := Occurrence.plain) ho))

theorem walked (clean : p.resolve.errors = []) : Walked [] p.occurrences {} p.resolve := by
  have start : ({} : Resolution).scopes = ([] : Levels).map Level.scope := rfl
  rw [Program.resolve_eq] at clean ⊢
  unfold Program.occurrences
  cases trailing : p.trailing with
  | none =>
    rw [trailing] at clean
    have walked := Stmt.walkedAll (c := {}) p.statements h.statements start trivial clean
    rw [Stmt.afterAll_nil] at walked
    exact walked.trans (.nothing walked.scopes)
  | some e =>
    rw [trailing] at clean
    have walked := Stmt.walkedAll (c := {}) p.statements h.statements start trivial
      (e.clean_before clean)
    rw [Stmt.afterAll_nil] at walked
    exact walked.trans (e.walked (h.trailing e trailing) walked.scopes trivial clean)

theorem getElem?_distances (clean : p.resolve.errors = []) {o : Occurrence}
    (ho : o ∈ p.occurrences) : p.resolve.distances[o.use.id]? = o.distance? := by
  rw [(h.walked clean).distances]
  exact Occurrence.recorded h.distinct_occurrences ho rfl

theorem getElem?_distances_outside (clean : p.resolve.errors = []) {id : Nat}
    (outside : id < i ∨ j ≤ id) : p.resolve.distances[id]? = none := by
  rw [(h.walked clean).distances]
  refine (Occurrence.getElem?_recordAll fun o ho same => ?_).trans rfl
  have := h.within_occurrences ho
  omega

end Program.Lawful

end Lox
