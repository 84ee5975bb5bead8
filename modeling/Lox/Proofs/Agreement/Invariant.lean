import Lox.Proofs.Code
import Lox.Proofs.Methods
import Lox.Proofs.Moments
import Lox.Proofs.Restoration

/-!
# Frames for scopes

The invariant of runs: each environment has one frame for each scope around the place where it is
used, made for that scope, and the frames bind the names whose declarations are complete. It holds
of the current environment and of the environments of all closures that can be reached.
-/

namespace Lox

/-- What has happened, what of it happens now, and the code of the programs with its uses. -/
structure World where
  happened : Moment → Prop
  happens : Moment → Prop
  occurs : Occurrence → Prop
  holds : Code → Prop
  past : ∀ {a}, happens a → happened a
  step : ∀ {a b}, happens a → Begins a b → happens b
  part : ∀ {c d}, holds c → d ∈ c.parts → holds d
  proper : ∀ {c}, holds c → c.Proper

/-! ### Later stores -/

/-- A later store: frames and instances stay, bound names stay bound, and a bound keyword has the
same value. -/
structure Store.Extends (s later : Store) : Prop where
  frames : s.frames.size ≤ later.frames.size
  names : ∀ frame name, (s.bindings frame).contains name = true →
    (later.bindings frame).contains name = true
  instances : ∀ (id : Nat) i, s.instances[id]? = some i →
    ∃ j, later.instances[id]? = some j ∧ j.cls = i.cls
  keywords : ∀ frame (word : String) v, (TokenType.keywords.lookup word).isSome = true →
    (s.bindings frame)[word]? = some v → (later.bindings frame)[word]? = some v

theorem Store.Extends.trans {s₁ s₂ s₃ : Store} (h : s₁.Extends s₂) (h' : s₂.Extends s₃) :
    s₁.Extends s₃ := by
  refine ⟨Nat.le_trans h.frames h'.frames, fun f x bound => h'.names f x (h.names f x bound), ?_,
    fun f x v word bound => h'.keywords f x v word (h.keywords f x v word bound)⟩
  intro id i here
  obtain ⟨j, there, same⟩ := h.instances id i here
  obtain ⟨k, last, same'⟩ := h'.instances id j there
  exact ⟨k, last, same'.trans same⟩

structure Machine.Extends (m later : Machine) : Prop where
  store : m.store.Extends later.store
  distances : later.distances = m.distances

namespace Machine.Extends

theorem trans {m₁ m₂ m₃ : Machine} (h : m₁.Extends m₂) (h' : m₂.Extends m₃) : m₁.Extends m₃ :=
  ⟨h.store.trans h'.store, h'.distances.trans h.distances⟩

theorem of_grows {m later : Machine} (h : m.Grows later)
    (keywords : ∀ frame (word : String) v, (TokenType.keywords.lookup word).isSome = true →
      (m.store.bindings frame)[word]? = some v → (later.store.bindings frame)[word]? = some v) :
    m.Extends later :=
  ⟨⟨h.frames, h.names, h.instances, keywords⟩, h.distances⟩

/-- Neither the current environment nor the output matters. -/
theorem of_same {m later : Machine} (store : later.store = m.store)
    (distances : later.distances = m.distances) : m.Extends later := by
  refine ⟨?_, distances⟩
  rw [store]
  exact ⟨Nat.le_refl _, fun _ _ h => h, fun _ i h => ⟨i, h, rfl⟩, fun _ _ _ _ h => h⟩

theorem refl (m : Machine) : m.Extends m := of_same rfl rfl

theorem define (m : Machine) (frame : Nat) {name : Token} (isName : name.IsName) (value : Value) :
    m.Extends { m with store := m.store.define frame name.lexeme value } := by
  apply of_grows (grows.define m frame name.lexeme value)
  intro other word v keyword bound
  change ((m.store.define frame name.lexeme value).bindings other)[word]? = some v
  rw [Store.bindings_define]
  split
  · rw [Std.TreeMap.getElem?_insert, if_neg (by simpa using isName.ne keyword)]
    exact bound
  · exact bound

theorem push (m : Machine) (outer : Environment) (bindings : Bindings) :
    m.Extends (m.push outer bindings) := by
  apply of_grows (grows.newChild m outer bindings)
  intro frame word v _ bound
  rw [Store.bindings_newChild, if_neg]
  · exact bound
  · rintro rfl
    rw [Store.bindings_of_size_le (Nat.le_refl _)] at bound
    simp at bound

theorem newId (m : Machine) : m.Extends { m with store := m.store.newId.2 } :=
  of_grows (grows.newId m) fun _ _ _ _ h => h

theorem withInstance (m : Machine) (c : Class) : m.Extends (m.withInstance c) :=
  of_grows (grows.newInstance m c) fun _ _ _ _ h => h

theorem setField (m : Machine) (id : Nat) (name : String) (value : Value) :
    m.Extends { m with store := m.store.setField id name value } :=
  of_grows (grows.setField m id name value) fun _ _ _ _ h => h

end Machine.Extends

theorem Binding.mono {s later : Store} (h : s.Extends later) {e : Environment} {method : Closure}
    {c : Class} {id : Nat} (binding : Binding s e method c id) :
    Binding later e method c id := by
  obtain ⟨i, here, mem⟩ := binding.descends
  obtain ⟨j, there, same⟩ := h.instances id i here
  exact ⟨binding.enclosing, h.keywords _ _ _ rfl binding.this, ⟨j, there, same ▸ mem⟩,
    binding.declared, fun above declared => h.keywords _ _ _ rfl (binding.super above declared)⟩

/-! ### Places -/

def Site.isBody : Site → Bool
  | .block _ | .function _ _ => true
  | _ => false

/-- Code stands here: the innermost scope is a block or a function, or there is none. -/
def Levels.AtBody (ls : Levels) : Prop := ∀ l : Level, ls.head? = some l → l.site.isBody = true

def Levels.AtSuperclass (ls : Levels) : Prop :=
  ∃ l use methods, ls.head? = some l ∧ l.site = .superclass use methods

theorem Levels.AtBody.nil : Levels.AtBody [] := by
  intro l here
  cases here

theorem Levels.AtBody.cons {l : Level} (body : l.site.isBody = true) (ls : Levels) :
    Levels.AtBody (l :: ls) := by
  intro l' here
  obtain rfl := Option.some.inj here
  exact body

theorem Levels.AtBody.modifyHead {ls : Levels} (h : ls.AtBody) {f : Level → Level}
    (same : ∀ l, (f l).site = l.site) : (ls.modifyHead f).AtBody := by
  cases ls with
  | nil => exact h
  | cons l ls => exact .cons ((congrArg Site.isBody (same l)).trans (h l rfl)) ls

/-- Only the scopes of classes hold `this` and `super`. -/
structure Level.KeepsWords (l : Level) : Prop where
  this : l.scope.contains "this" = true → ∃ methods, l.site = .methods methods
  super : l.scope.contains "super" = true → ∃ use methods, l.site = .superclass use methods

namespace Level.KeepsWords

variable {l : Level}

theorem of_not_contains (this : l.scope.contains "this" = false)
    (super : l.scope.contains "super" = false) : l.KeepsWords :=
  ⟨fun h => absurd h (by simp [this]), fun h => absurd h (by simp [super])⟩

theorem put (h : l.KeepsWords) {name : Token} (isName : name.IsName) (complete : Bool) :
    (l.put name.lexeme complete).KeepsWords := by
  have same (word : String) (keyword : (TokenType.keywords.lookup word).isSome = true) :
      (l.put name.lexeme complete).scope.contains word = l.scope.contains word := by
    rw [Std.TreeMap.contains_eq_isSome_getElem?, Level.getElem?_put (isName.ne keyword),
      ← Std.TreeMap.contains_eq_isSome_getElem?]
  exact ⟨fun this => h.this ((same "this" rfl).symm.trans this),
    fun super => h.super ((same "super" rfl).symm.trans super)⟩

theorem introduce (h : l.KeepsWords) {name : Token} (isName : name.IsName) :
    (l.introduce name.lexeme).KeepsWords := (h.put isName false).put isName true

theorem inInitializer (h : l.KeepsWords) {name : Token} (isName : name.IsName) (e : Expr) :
    (l.inInitializer name e).KeepsWords := by
  have put := h.put isName false
  exact ⟨put.this, put.super⟩

theorem block (body : List Stmt) : (Level.block body).KeepsWords := of_not_contains rfl rfl

theorem function {params : List Token} (names : ∀ p ∈ params, p.IsName) (body : List Stmt) :
    (Level.function params body).KeepsWords :=
  of_not_contains (contains_function fun p hp => (names p hp).ne rfl)
    (contains_function fun p hp => (names p hp).ne rfl)

theorem methods (methods : List FunctionDecl) : (Level.methods methods).KeepsWords := by
  refine ⟨fun _ => ⟨methods, rfl⟩, fun super => ?_⟩
  simp [Level.methods, Std.TreeMap.contains_insert] at super

theorem superclass (use : Use) (methods : List FunctionDecl) :
    (Level.superclass use methods).KeepsWords := by
  refine ⟨fun this => ?_, fun _ => ⟨use, methods, rfl⟩⟩
  simp [Level.superclass, Std.TreeMap.contains_insert] at this

end Level.KeepsWords

/-- The methods of the class stand here, and the environment of a derived class begins with the
frame of `super`. -/
def Class.Place (s : Store) (e : Environment) (ls : Levels) (c : Class) : Prop :=
  match c.superclass? with
  | none => ls.AtBody
  | some above => ls.AtSuperclass ∧ (s.bindings e.frame)["super"]? = some (.cls above)

theorem Class.Place.mono {s later : Store} (h : s.Extends later) {e : Environment} {ls : Levels}
    {c : Class} (place : c.Place s e ls) : c.Place later e ls := by
  unfold Place at place ⊢
  cases declared : c.superclass? with
  | none =>
    rw [declared] at place
    exact place
  | some above =>
    rw [declared] at place
    exact ⟨place.1, h.keywords _ _ _ rfl place.2⟩

structure BoundAt (s : Store) (e : Environment) (ls : Levels) (method : Closure) (c : Class)
    (id : Nat) : Prop where
  binding : Binding s e method c id
  place : ∃ l outer methods, ls = l :: outer ∧ l.site = .methods methods ∧
    (∃ decl ∈ methods, method = decl.close method.environment decl.isInitializer) ∧
    c.Place s method.environment outer

theorem BoundAt.mono {s later : Store} (h : s.Extends later) {e : Environment} {ls : Levels}
    {method : Closure} {c : Class} {id : Nat} (bound : BoundAt s e ls method c id) :
    BoundAt later e ls method c id := by
  obtain ⟨binding, l, outer, methods, split, site, closed, place⟩ := bound
  exact ⟨binding.mono h, l, outer, methods, split, site, closed, place.mono h⟩

namespace World

variable (w : World)

/-! ### Frames -/

/-- The frame of an environment binds the names of a scope. A name that is not complete belongs to a
variable whose declaration began before, in the environment. -/
structure Binds (s : Store) (e : Environment) (l : Level) : Prop where
  complete : ∀ x, l.scope[x]? = some true → (s.bindings e.frame).contains x = true
  pending : ∀ x, l.scope[x]? = some false → ∃ (name : Token) (value : Expr) (n : Nat) (m : Machine),
    l.initializing = some (name, value) ∧ name.lexeme = x ∧
    w.happened ⟨.execute n (.var name (some value)), m⟩ ∧ m.current = e ∧ m.store.Extends s
  words : l.KeepsWords

/-- Where a function comes from: it was made where it stands, or by binding a method. -/
def Origin (s : Store) (f : Closure) (ls : Levels) : Prop :=
  (f.isInitializer = false ∧ ls.AtBody ∧ ∃ a, w.happened a ∧ Declares a f) ∨
  ∃ method c id m, w.happened ⟨.bind method id, m⟩ ∧
    f = { method with environment := m.child method.environment } ∧
    (∃ a, w.happened a ∧ DeclaresClass a c) ∧ BoundAt s f.environment ls method c id

/-- What a frame was made for, besides its scope. -/
def Anchors (s : Store) (a : Moment) (outer e : Environment) (l : Level) (ls : Levels) : Prop :=
  match l.site with
  | .block _ => ls.AtBody
  | .superclass _ _ => ls.AtBody
  | .function _ _ => ∃ n f arguments m, a = ⟨.call n f arguments, m⟩ ∧ f.environment = outer ∧
      w.Origin s f ls
  | .methods _ => ∃ method c id m, a = ⟨.bind method id, m⟩ ∧ method.environment = outer ∧
      Binding s e method c id ∧ c.Place s outer ls

structure FrameFor (s : Store) (a : Moment) (outer e : Environment) (l : Level) (ls : Levels) :
    Prop where
  happened : w.happened a
  opens : Opens a l.site e
  enclosing : e.enclosing = outer.frames
  positive : 0 < e.frame
  bound : e.frame < s.frames.size
  binds : w.Binds s e l
  anchors : w.Anchors s a outer e l ls

/-- An environment of a place with these scopes around it. -/
inductive Fits (s : Store) : Environment → Levels → Prop
  | global : Fits s .global []
  | child {a outer e l ls} : Fits s outer ls → w.FrameFor s a outer e l ls → Fits s e (l :: ls)

def OccursIn (os : List Occurrence) : Prop := ∀ o ∈ os, w.occurs o

/-! ### Values -/

structure ClosureFits (s : Store) (f : Closure) : Prop where
  code : w.holds f.code
  place : ∃ ls, w.Fits s f.environment ls ∧ w.Origin s f ls ∧
    w.OccursIn (Stmt.occurrencesAll (.function f.params f.body :: ls) f.body)

structure MethodFits (s : Store) (c : Class) (f : Closure) : Prop where
  code : w.holds f.code
  declared : ∃ a, w.happened a ∧ DeclaresClass a c
  place : ∃ ls methods, ∃ decl ∈ methods, f = decl.close f.environment decl.isInitializer ∧
    w.Fits s f.environment ls ∧ c.Place s f.environment ls ∧
    w.OccursIn (Stmt.occurrencesAll (.function f.params f.body :: .methods methods :: ls) f.body)

def ClassFits (s : Store) (c : Class) : Prop :=
  ∀ d ∈ c.lineage, ∀ (name : String) f, d.own[name]? = some f → w.MethodFits s d f

def ValueFits (s : Store) : Value → Prop
  | .function _ f => w.ClosureFits s f
  | .cls c => w.ClassFits s c
  | _ => True

structure Heap (m : Machine) : Prop where
  values : ∀ frame (x : String) v, (m.store.bindings frame)[x]? = some v → w.ValueFits m.store v
  classes : ∀ (id : Nat) i, m.store.instances[id]? = some i → w.ClassFits m.store i.cls
  fields : ∀ (id : Nat) i, m.store.instances[id]? = some i →
    ∀ (x : String) v, i.fields[x]? = some v → w.ValueFits m.store v
  positive : 0 < m.store.frames.size
  known : ∀ o, w.occurs o → m.distances[o.use.id]? = o.distance? ∧ o.Legal

section Later

variable {w} {s s' : Store} (h : s.Extends s')

include h

theorem Binds.mono {e : Environment} {l : Level} (binds : w.Binds s e l) : w.Binds s' e l := by
  refine ⟨fun x complete => h.names _ x (binds.complete x complete), fun x pending => ?_,
    binds.words⟩
  obtain ⟨name, value, n, m, initializing, same, happened, current, began⟩ := binds.pending x pending
  exact ⟨name, value, n, m, initializing, same, happened, current, began.trans h⟩

theorem Origin.mono {f : Closure} {ls : Levels} (origin : w.Origin s f ls) : w.Origin s' f ls := by
  obtain plain | ⟨method, c, id, m, happened, same, declared, bound⟩ := origin
  · exact .inl plain
  · exact .inr ⟨method, c, id, m, happened, same, declared, bound.mono h⟩

theorem Anchors.mono {a : Moment} {outer e : Environment} {l : Level} {ls : Levels}
    (anchors : w.Anchors s a outer e l ls) : w.Anchors s' a outer e l ls := by
  unfold Anchors at anchors ⊢
  cases site : l.site with
  | block | superclass =>
    rw [site] at anchors
    exact anchors
  | function =>
    rw [site] at anchors
    obtain ⟨n, f, arguments, m, call, inside, origin⟩ := anchors
    exact ⟨n, f, arguments, m, call, inside, origin.mono h⟩
  | methods =>
    rw [site] at anchors
    obtain ⟨method, c, id, m, bind, inside, binding, place⟩ := anchors
    exact ⟨method, c, id, m, bind, inside, binding.mono h, place.mono h⟩

theorem FrameFor.mono {a : Moment} {outer e : Environment} {l : Level} {ls : Levels}
    (made : w.FrameFor s a outer e l ls) : w.FrameFor s' a outer e l ls :=
  ⟨made.happened, made.opens, made.enclosing, made.positive, Nat.lt_of_lt_of_le made.bound h.frames,
    made.binds.mono h, made.anchors.mono h⟩

theorem Fits.mono {e : Environment} {ls : Levels} (fits : w.Fits s e ls) :
    w.Fits s' e ls := by
  induction fits with
  | global => exact .global
  | child _ made ih => exact .child ih (made.mono h)

theorem ClosureFits.mono {f : Closure} (fits : w.ClosureFits s f) : w.ClosureFits s' f := by
  obtain ⟨code, ls, place, origin, occurs⟩ := fits
  exact ⟨code, ls, place.mono h, origin.mono h, occurs⟩

theorem MethodFits.mono {c : Class} {f : Closure} (fits : w.MethodFits s c f) :
    w.MethodFits s' c f := by
  obtain ⟨code, declared, ls, methods, decl, mem, closed, inside, place, occurs⟩ := fits
  exact ⟨code, declared, ls, methods, decl, mem, closed, inside.mono h, place.mono h, occurs⟩

theorem ClassFits.mono {c : Class} (fits : w.ClassFits s c) : w.ClassFits s' c :=
  fun d mem name f found => (fits d mem name f found).mono h

theorem ValueFits.mono {v : Value} (fits : w.ValueFits s v) : w.ValueFits s' v := by
  cases v with
  | function id f => exact ClosureFits.mono h fits
  | cls c => exact ClassFits.mono h fits
  | _ => trivial

end Later

/-! ### Larger worlds -/

structure Within (other : World) : Prop where
  happened : ∀ a, w.happened a → other.happened a
  occurs : ∀ o, w.occurs o → other.occurs o
  holds : ∀ c, w.holds c → other.holds c

section Larger

variable {w} {other : World} (h : w.Within other) {s : Store}

include h

theorem Binds.larger {e : Environment} {l : Level} (binds : w.Binds s e l) : other.Binds s e l := by
  refine ⟨binds.complete, fun x pending => ?_, binds.words⟩
  obtain ⟨name, value, n, m, initializing, same, happened, current⟩ := binds.pending x pending
  exact ⟨name, value, n, m, initializing, same, h.happened _ happened, current⟩

theorem Origin.larger {f : Closure} {ls : Levels} (origin : w.Origin s f ls) :
    other.Origin s f ls := by
  obtain ⟨plain, body, a, happened, declares⟩ |
    ⟨method, c, id, m, happened, same, ⟨a, declared, declares⟩, bound⟩ := origin
  · exact .inl ⟨plain, body, a, h.happened a happened, declares⟩
  · exact .inr ⟨method, c, id, m, h.happened _ happened, same, ⟨a, h.happened a declared, declares⟩,
      bound⟩

theorem Anchors.larger {a : Moment} {outer e : Environment} {l : Level} {ls : Levels}
    (anchors : w.Anchors s a outer e l ls) : other.Anchors s a outer e l ls := by
  unfold Anchors at anchors ⊢
  cases site : l.site with
  | function =>
    rw [site] at anchors
    obtain ⟨n, f, arguments, m, call, inside, origin⟩ := anchors
    exact ⟨n, f, arguments, m, call, inside, origin.larger h⟩
  | _ =>
    rw [site] at anchors
    exact anchors

theorem Fits.larger {e : Environment} {ls : Levels} (fits : w.Fits s e ls) :
    other.Fits s e ls := by
  induction fits with
  | global => exact .global
  | child _ made ih =>
    exact .child ih ⟨h.happened _ made.happened, made.opens, made.enclosing, made.positive,
      made.bound, made.binds.larger h, made.anchors.larger h⟩

theorem OccursIn.larger {os : List Occurrence} (occurs : w.OccursIn os) : other.OccursIn os :=
  fun o ho => h.occurs o (occurs o ho)

theorem ClosureFits.larger {f : Closure} (fits : w.ClosureFits s f) : other.ClosureFits s f := by
  obtain ⟨code, ls, place, origin, occurs⟩ := fits
  exact ⟨h.holds _ code, ls, place.larger h, origin.larger h, occurs.larger h⟩

theorem MethodFits.larger {c : Class} {f : Closure} (fits : w.MethodFits s c f) :
    other.MethodFits s c f := by
  obtain ⟨code, ⟨a, happened, declares⟩, ls, methods, decl, mem, closed, inside, place, occurs⟩ :=
    fits
  exact ⟨h.holds _ code, ⟨a, h.happened a happened, declares⟩, ls, methods, decl, mem, closed,
    inside.larger h, place, occurs.larger h⟩

theorem ClassFits.larger {c : Class} (fits : w.ClassFits s c) : other.ClassFits s c :=
  fun d mem name f found => (fits d mem name f found).larger h

theorem ValueFits.larger {v : Value} (fits : w.ValueFits s v) : other.ValueFits s v := by
  cases v with
  | function id f => exact ClosureFits.larger h fits
  | cls c => exact ClassFits.larger h fits
  | _ => trivial

theorem Heap.larger {m m' : Machine} (heap : w.Heap m) (store : m'.store = m.store)
    (known : ∀ o, other.occurs o → m'.distances[o.use.id]? = o.distance? ∧ o.Legal) :
    other.Heap m' := by
  refine ⟨?_, ?_, ?_, ?_, known⟩
  · rw [store]
    exact fun frame x v bound => (heap.values frame x v bound).larger h
  · rw [store]
    exact fun id i here => (heap.classes id i here).larger h
  · rw [store]
    exact fun id i here x v field => (heap.fields id i here x v field).larger h
  · rw [store]
    exact heap.positive

end Larger

/-! ### Changes of the heap -/

namespace Heap

variable {w} {m m' : Machine} (h : w.Heap m)

include h

/-- A change that binds and sets only values that fit. -/
theorem change (later : m.Extends m')
    (values : ∀ frame (x : String) v, (m'.store.bindings frame)[x]? = some v →
      (m.store.bindings frame)[x]? = some v ∨ w.ValueFits m'.store v)
    (instances : ∀ (id : Nat) i, m'.store.instances[id]? = some i →
      w.ClassFits m'.store i.cls ∧
        ∀ (x : String) v, i.fields[x]? = some v → w.ValueFits m'.store v) : w.Heap m' := by
  refine ⟨fun frame x v bound => ?_, fun id i here => (instances id i here).1,
    fun id i here => (instances id i here).2, Nat.lt_of_lt_of_le h.positive later.store.frames,
    fun o occurs => later.distances ▸ h.known o occurs⟩
  obtain old | fits := values frame x v bound
  · exact (h.values frame x v old).mono later.store
  · exact fits

theorem bind (later : m.Extends m') (same : m'.store.instances = m.store.instances)
    (values : ∀ frame (x : String) v, (m'.store.bindings frame)[x]? = some v →
      (m.store.bindings frame)[x]? = some v ∨ w.ValueFits m'.store v) : w.Heap m' := by
  refine h.change later values fun id i here => ?_
  rw [same] at here
  exact ⟨(h.classes id i here).mono later.store,
    fun x v field => (h.fields id i here x v field).mono later.store⟩

theorem define {frame : Nat} {name : Token} (isName : name.IsName) {value : Value}
    (fits : w.ValueFits (m.store.define frame name.lexeme value) value) :
    w.Heap { m with store := m.store.define frame name.lexeme value } := by
  refine h.bind (.define m frame isName value) rfl fun other x v bound => ?_
  rw [Store.bindings_define] at bound
  split at bound
  · rw [Std.TreeMap.getElem?_insert] at bound
    split at bound
    · obtain rfl := Option.some.inj bound
      exact .inr fits
    · exact .inl bound
  · exact .inl bound

theorem push {outer : Environment} {bindings : Bindings}
    (fits : ∀ (x : String) v, bindings[x]? = some v → w.ValueFits m.store v) :
    w.Heap (m.push outer bindings) := by
  have later := Machine.Extends.push m outer bindings
  refine h.bind later rfl fun other x v bound => ?_
  change ((m.store.newChild outer bindings).2.bindings other)[x]? = some v at bound
  rw [Store.bindings_newChild] at bound
  split at bound
  · exact .inr ((fits x v bound).mono later.store)
  · exact .inl bound

theorem newId : w.Heap { m with store := m.store.newId.2 } :=
  h.bind (.newId m) rfl fun _ _ _ => .inl

theorem withInstance {c : Class} (fits : w.ClassFits m.store c) : w.Heap (m.withInstance c) := by
  have later := Machine.Extends.withInstance m c
  refine h.change later (fun _ _ _ => .inl) fun id i here => ?_
  change (m.store.instances.push { cls := c })[id]? = some i at here
  rw [Array.getElem?_push] at here
  split at here
  · cases here
    refine ⟨ClassFits.mono later.store fits, fun x v field => ?_⟩
    rw [show ({ cls := c } : Instance).fields = ∅ from rfl] at field
    simp at field
  · exact ⟨(h.classes id i here).mono later.store,
      fun x v field => (h.fields id i here x v field).mono later.store⟩

theorem setField {id : Nat} {name : String} {value : Value} (fits : w.ValueFits m.store value) :
    w.Heap { m with store := m.store.setField id name value } := by
  have later := Machine.Extends.setField m id name value
  refine h.change later (fun _ _ _ => .inl) fun other i here => ?_
  simp only [Store.setField, Array.getElem?_modify] at here
  split at here
  · obtain ⟨old, there, rfl⟩ := Option.map_eq_some_iff.mp here
    refine ⟨(h.classes other old there).mono later.store, fun x v field => ?_⟩
    rw [Std.TreeMap.getElem?_insert] at field
    split at field
    · obtain rfl := Option.some.inj field
      exact fits.mono later.store
    · exact (h.fields other old there x v field).mono later.store
  · exact ⟨(h.classes other i here).mono later.store,
      fun x v field => (h.fields other i here x v field).mono later.store⟩

theorem same (store : m'.store = m.store) (distances : m'.distances = m.distances) :
    w.Heap m' := by
  refine ⟨?_, ?_, ?_, ?_, ?_⟩
  · rw [store]
    exact h.values
  · rw [store]
    exact h.classes
  · rw [store]
    exact h.fields
  · rw [store]
    exact h.positive
  · rw [distances]
    exact h.known

end Heap

end World

end Lox
