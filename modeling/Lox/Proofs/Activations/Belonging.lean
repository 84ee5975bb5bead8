import Lox.Proofs.Activations.Nesting
import Lox.Proofs.Course.Frames
import Lox.Proofs.MethodBinding

/-!
# Functions and the activations to which they belong

An execution of a block or a call of a function makes a frame, and a function value belongs to the
frames of its environment. Whatever a function value goes through, it belongs to those activations in
which it was declared: `Session.Stems.belongs_iff`. Where its body runs, it belongs to the activation
of each scope that stands around it: `Session.Framed.belongs_iff`.
-/

namespace Lox

def Closure.BelongsTo (f : Closure) (frame : Nat) : Prop := frame ∈ f.environment.frames

/-- The function values in a value: the value itself, or the methods of a class and of the classes
above it. -/
inductive Value.Holds : Value → Closure → Prop
  | function {id f} : Holds (.function id f) f
  | method {c d : Class} {name : String} {f} : d ∈ c.lineage → d.own[name]? = some f →
    Holds (.cls c) f

def Moment.use? (a : Moment) : Option (UseKind × Use) :=
  match a.task with
  | .evaluate (_ + 1) e => e.use?
  | _ => none

theorem Moment.use?_eq_some {a : Moment} {used : UseKind × Use} (h : a.use? = some used) :
    ∃ n e m, a = ⟨.evaluate (n + 1) e, m⟩ ∧ e.use? = some used := by
  obtain ⟨task, m⟩ := a
  cases task with
  | evaluate n e =>
    cases n with
    | zero => cases h
    | succ n => exact ⟨n, e, m, rfl, h⟩
  | _ => cases h

namespace World.Fits

variable {w : World} {s : Store} {m : Machine} {e : Environment} {ls : Levels}

theorem last (fits : w.Fits s e ls) : e.frames[ls.length]? = some Environment.global.frame := by
  induction fits with
  | global => rfl
  | child _ made ih =>
    rw [Environment.frames, made.enclosing]
    exact ih

theorem frames_lt (fits : w.Fits m.store e ls) (heap : w.Heap m) :
    ∀ frame ∈ e.frames, frame < m.store.frames.size := by
  induction fits with
  | global => exact List.forall_mem_singleton.mpr heap.positive
  | child _ made ih =>
    rw [Environment.frames, made.enclosing]
    exact List.forall_mem_cons.mpr ⟨made.bound, ih⟩

end World.Fits

def World.FunctionFits (w : World) (store : Store) (f : Closure) : Prop :=
  w.ClosureFits store f ∨
    ∃ (c : Class) (name : String), c.own[name]? = some f ∧ w.MethodFits store c f

theorem World.FunctionFits.of_holds {w : World} {store : Store} {v : Value} {f : Closure}
    (fits : w.ValueFits store v) (holds : v.Holds f) : w.FunctionFits store f := by
  cases holds with
  | function => exact .inl fits
  | method mem found => exact .inr ⟨_, _, found, fits _ mem _ _ found⟩

namespace Session

/-- An execution of a block or a call of a function made this frame for its scope. -/
structure Activation (s : Session) (history : List Entry) (site : Site) (frame : Nat) : Prop where
  body : site.isBody = true
  made : ∃ a e, s.Happens history a ∧ Opens a site e ∧ e.frame = frame

/-- The function value comes from this moment, at which a function or a class is declared; a method
may have been bound since. -/
inductive Stems (s : Session) (history : List Entry) (a : Moment) : Closure → Prop
  | declared {f} : Declares a f → Stems s history a f
  | method {c f} {name : String} : DeclaresClass a c → c.own[name]? = some f → Stems s history a f
  | bound {method id before} : Stems s history a method →
    s.Happens history ⟨.bind method id, before⟩ →
    Stems s history a { method with environment := before.child method.environment }

/-- A function value that there is in the course of a history or at its end. -/
inductive Arises (s : Session) (history : List Entry) : Closure → Prop
  | left {v f} : (s.afterAll history).machine.Has v → v.Holds f → Arises s history f
  | held {a v f} : s.Happens history a → a.machine.Has v ∨ a.task.Passes v → v.Holds f →
    Arises s history f
  | yielded {n e m v after f} : s.Happens history ⟨.evaluate n e, m⟩ →
    evaluate n e m = .ok v after → v.Holds f → Arises s history f
  | called {n f arguments m} : s.Happens history ⟨.call n f arguments, m⟩ → Arises s history f

/-- At this level the environment runs the body of the function value, for one call of it. -/
def Inside (s : Session) (history : List Entry) (e : Environment) (k : Nat) (f : Closure) : Prop :=
  ∃ n arguments before, s.Happens history ⟨.call n f arguments, before⟩ ∧
    e.frames.drop k = (before.child f.environment).frames

/-- The environment has a frame for each scope, and behind them the global one; the frame of a
function was made by a call of a value of it. -/
structure Framed (s : Session) (history : List Entry) (e : Environment) (ls : Levels) : Prop where
  made : ∀ d l, ls[d]? = some l → s.MadeFor history e d l.site
  called : ∀ k l params body, ls[k]? = some l → l.site = .function params body →
    ∃ f, s.Inside history e k f ∧ f.params = params ∧ f.body = body
  last : e.frames[ls.length]? = some Environment.global.frame
  length : e.frames.length = ls.length + 1

variable {clock : Clock} {history : List Entry} {a : Moment} {f : Closure} {site site' : Site}
  {e : Environment} {φ ψ : Nat} {ls : Levels} {l : Level} {d k : Nat}

/-! ### Activations -/

namespace Activation

variable (act : (initial clock).Activation history site φ)

include act

theorem site_eq (h : (initial clock).Happens history a) (opens : Opens a site' e)
    (here : e.frame = φ) : site' = site := by
  obtain ⟨b, e', happens, opens', rfl⟩ := act.made
  obtain rfl := opens_unique h happens opens opens' here
  exact ((opens'.same opens).2 act.body).symm

theorem pos : 0 < φ := by
  obtain ⟨a, e, happens, opens, rfl⟩ := act.made
  obtain ⟨_, _, _, -, -, ready⟩ := Session.ready clock happens
  rw [opens.frame]
  exact ready.1.positive

end Activation

theorem Happens.opens_bind {method : Closure} {id : Nat} {m : Machine}
    (h : (initial clock).Happens history ⟨.bind method id, m⟩) :
    ∃ methods, Opens ⟨.bind method id, m⟩ (.methods methods) (m.child method.environment) := by
  obtain ⟨_, _, _, -, -, -, -, bindable⟩ := Session.ready clock h
  obtain ⟨c, i, name, -, -, -, fits⟩ := bindable
  obtain ⟨ls, methods, decl, mem, closed, -⟩ := fits.place
  exact ⟨methods, .bind mem closed⟩

/-! ### Where functions come from -/

/-- A frame that is not that of a block or a function is no activation. -/
theorem mem_child_iff {m : Machine} {outer : Environment}
    (act : (initial clock).Activation history site φ) (h : (initial clock).Happens history a)
    (opens : Opens a site' (m.child outer)) (other : site'.isBody = false) :
    φ ∈ (m.child outer).frames ↔ φ ∈ outer.frames := by
  have different : φ ≠ m.store.frames.size := by
    rintro rfl
    obtain rfl := act.site_eq h opens rfl
    exact absurd act.body (by simp [other])
  rw [Environment.frames, List.mem_cons]
  exact or_iff_right different

/-- A function value belongs to the activations in which it was declared. -/
theorem Stems.belongs_iff (stems : (initial clock).Stems history a f)
    (h : (initial clock).Happens history a) (act : (initial clock).Activation history site φ) :
    f.BelongsTo φ ↔ φ ∈ a.machine.current.frames := by
  induction stems with
  | declared declares => cases declares <;> exact Iff.rfl
  | method declares found =>
    cases declares with
    | base =>
      obtain ⟨decl, -, rfl⟩ := mem_methodTable found
      exact Iff.rfl
    | derived ran =>
      obtain ⟨decl, -, rfl⟩ := mem_methodTable found
      exact mem_child_iff act h (.superclass ran) rfl
  | bound _ bind ih =>
    obtain ⟨methods, opens⟩ := bind.opens_bind
    exact (mem_child_iff act bind opens rfl).trans ih

theorem worldOf_within (s : Session) (before : List Entry) (entry : Entry) (later : List Entry) :
    (s.worldOf before entry).Within (s.world (before ++ [entry] ++ later)) :=
  ⟨fun _ happened => Happens.later happened later, fun _ occurs => Occurs.later occurs later,
    fun _ holds => Holds.later holds later⟩

theorem Arises.fits (arises : (initial clock).Arises history f) :
    ∃ (w : World) (store : Store), w.Within ((initial clock).world history) ∧
      w.FunctionFits store f := by
  cases arises with
  | left has holds =>
    exact ⟨(initial clock).world history, _, ⟨fun _ h => h, fun _ h => h, fun _ h => h⟩,
      .of_holds ((kept clock history).heap.valueFits has) holds⟩
  | @held a v f happens has holds =>
    obtain ⟨before, entry, later, rfl, -, ready⟩ := Session.ready clock happens
    refine ⟨_, a.machine.store, worldOf_within _ before entry later, .of_holds ?_ holds⟩
    rcases has with has | passes
    · exact ready.1.valueFits has
    · exact ready.valueFits passes
  | yielded happens ran holds =>
    obtain ⟨before, entry, later, rfl, here, ready⟩ := Session.ready clock happens
    exact ⟨_, _, worldOf_within _ before entry later,
      .of_holds (((World.sound_levels _).1 _ _ here ready).ok ran) holds⟩
  | called happens =>
    obtain ⟨before, entry, later, rfl, -, ready⟩ := Session.ready clock happens
    exact ⟨_, _, worldOf_within _ before entry later, .inl ready.2.2.1⟩

theorem Arises.stems (arises : (initial clock).Arises history f) :
    ∃ a, (initial clock).Happens history a ∧ (initial clock).Stems history a f := by
  obtain ⟨w, store, within, fits | ⟨c, name, found, fits⟩⟩ := arises.fits
  · cases Made.of_fits within.happened fits with
    | plain happens declares => exact ⟨_, happens, .declared declares⟩
    | bound bind same happens declares binding =>
      obtain ⟨name, found⟩ := binding.declared
      exact ⟨_, happens, same ▸ .bound (.method declares found) bind⟩
  · obtain ⟨a, happens, declares⟩ := fits.declared
    exact ⟨a, within.happened a happens, .method declares found⟩

/-! ### Where functions run -/

/-- What lies behind the frame of a call are the frames of the function value. -/
theorem Inside.getElem? (inside : (initial clock).Inside history e k f) (i : Nat) :
    f.environment.frames[i]? = e.frames[k + 1 + i]? := by
  obtain ⟨n, arguments, before, -, frames⟩ := inside
  have tail : (e.frames.drop k).tail = f.environment.frames := by
    rw [frames]
    rfl
  rw [← tail, List.tail_drop, List.getElem?_drop]

/-- The frame at the level is that of a call of the function value. -/
theorem Inside.activation (inside : (initial clock).Inside history e k f) :
    ∃ φ, e.frames[k]? = some φ ∧
      (initial clock).Activation history (.function f.params f.body) φ := by
  obtain ⟨n, arguments, before, happens, frames⟩ := inside
  have first : (e.frames.drop k)[0]? = some (before.child f.environment).frame := by
    rw [frames]
    rfl
  rw [List.getElem?_drop] at first
  exact ⟨_, first, rfl, _, _, happens, .call, rfl⟩

theorem Framed.of_fits {w : World} {s : Store}
    (within : w.Within ((initial clock).world history)) (fits : w.Fits s e ls) :
    (initial clock).Framed history e ls := by
  refine ⟨fun d l level => ?_, fun k l params body level site => ?_, fits.last, fits.length⟩
  · obtain ⟨frame, a, outer, found, -, made⟩ := fits.level level
    exact ⟨frame, a, found, Nat.ne_of_gt made.positive, within.happened a made.happened, made.opens⟩
  · obtain ⟨frame, a, outer, found, -, made⟩ := fits.level level
    have anchors := made.anchors
    have opens := made.opens
    rw [World.Anchors, site] at anchors
    rw [site] at opens
    obtain ⟨n, f, arguments, m, rfl, -, -⟩ := anchors
    obtain ⟨same, code⟩ := Opens.call.same opens
    obtain ⟨params, body⟩ := Site.function.inj (code rfl)
    obtain ⟨bound, here⟩ := List.getElem?_eq_some_iff.mp found
    refine ⟨f, ⟨n, arguments, m, within.happened _ made.happened, ?_⟩, params, body⟩
    rw [same, List.drop_eq_getElem_cons bound, here]
    rfl

/-- The environment at a use has the frames of the scopes around it. -/
theorem framed_of_use {o : Occurrence} (happens : (initial clock).Happens history a)
    (used : a.use? = some o.plain) (occurs : (initial clock).Occurs history o) :
    (initial clock).Framed history a.machine.current o.levels ∧
      a.machine.distances[o.use.id]? = o.distance? ∧
      ∀ frame ∈ a.machine.current.frames, frame < a.machine.store.frames.size := by
  obtain ⟨n, e, m, rfl, here⟩ := Moment.use?_eq_some used
  obtain ⟨before, entry, later, rfl, -, ⟨heap, -, ls, place, inside⟩⟩ := Session.ready clock happens
  have inside := inside _ (e.mem_occurrences_of_use? here ls)
  obtain ⟨kind, use, levels⟩ := o
  obtain rfl : levels = ls :=
    congrArg Occurrence.levels (occurs_unique occurs (inside.later later) rfl)
  exact ⟨.of_fits (worldOf_within _ before entry later) place.fits, (heap.known _ inside).1,
    place.fits.frames_lt heap⟩

namespace Framed

variable (framed : (initial clock).Framed history e ls)

include framed

theorem level_of_activation (found : e.frames[d]? = some φ)
    (act : (initial clock).Activation history site φ) : ∃ l, ls[d]? = some l ∧ l.site = site := by
  cases here : ls[d]? with
  | some l =>
    obtain ⟨frame, a, found', -, happens, opens⟩ := framed.made d l here
    obtain rfl := Option.some.inj (found'.symm.trans found)
    exact ⟨l, rfl, act.site_eq happens opens rfl⟩
  | none =>
    have bound := (List.getElem?_eq_some_iff.mp found).1
    have outside := List.getElem?_eq_none_iff.mp here
    have length := framed.length
    obtain rfl : d = ls.length := by omega
    obtain rfl := Option.some.inj (framed.last.symm.trans found)
    exact absurd act.pos (Nat.lt_irrefl _)

theorem activation (level : ls[d]? = some l) (body : l.site.isBody = true) :
    ∃ φ, e.frames[d]? = some φ ∧ (initial clock).Activation history l.site φ := by
  obtain ⟨frame, a, found, -, happens, opens⟩ := framed.made d l level
  exact ⟨frame, found, body, a, _, happens, opens, rfl⟩

theorem level_of_inside (inside : (initial clock).Inside history e k f) :
    ∃ l, ls[k]? = some l ∧ l.site = .function f.params f.body := by
  obtain ⟨φ, found, act⟩ := inside.activation
  exact framed.level_of_activation found act

/-- There is just one activation of a scope in the environment. -/
theorem eq_of_activation (nested : ls.Nested) (level : ls[d]? = some l)
    (found : e.frames[d]? = some φ) {i : Nat} (there : e.frames[i]? = some ψ)
    (act : (initial clock).Activation history l.site ψ) : ψ = φ := by
  obtain ⟨l', level', same⟩ := framed.level_of_activation there act
  obtain rfl := nested.unique level' level same
  exact Option.some.inj (there.symm.trans found)

/-- In its body, a function value belongs to just one activation of a scope around it. -/
theorem belongs_iff (nested : ls.Nested) (inside : (initial clock).Inside history e k f) (lt : k < d)
    (level : ls[d]? = some l) (found : e.frames[d]? = some φ)
    (act : (initial clock).Activation history l.site ψ) : f.BelongsTo ψ ↔ ψ = φ := by
  constructor
  · intro belongs
    obtain ⟨i, there⟩ := List.mem_iff_getElem?.mp belongs
    rw [inside.getElem?] at there
    exact framed.eq_of_activation nested level found there act
  · rintro rfl
    refine List.mem_iff_getElem?.mpr ⟨d - (k + 1), ?_⟩
    rw [inside.getElem?, Nat.add_sub_cancel' lt, found]

end Framed

/-- In an environment with the frames of these scopes, a function value belongs to just one
activation of each block and function around its code. -/
theorem Framed.belongs (framed : (initial clock).Framed history f.environment ls)
    (nested : ls.Nested) (mem : l ∈ ls) (body : l.site.isBody = true) :
    ∃ φ, (initial clock).Activation history l.site φ ∧
      ∀ ψ, (initial clock).Activation history l.site ψ → (f.BelongsTo ψ ↔ ψ = φ) := by
  obtain ⟨d, level⟩ := List.mem_iff_getElem?.mp mem
  obtain ⟨φ, found, act⟩ := framed.activation level body
  refine ⟨φ, act, fun ψ act' => ⟨fun belongs => ?_, ?_⟩⟩
  · obtain ⟨i, there⟩ := List.mem_iff_getElem?.mp belongs
    exact framed.eq_of_activation nested level found there act'
  · rintro rfl
    exact List.mem_of_getElem? found

/-- A function value belongs to just one activation of each block and function around its code. -/
theorem Arises.belongs (arises : (initial clock).Arises history f) :
    ∃ ls : Levels, ∀ o ∈ Stmt.occurrencesAll (.function f.params f.body :: ls) f.body,
      (initial clock).Occurs history o ∧ ls <:+ o.levels ∧
      ∀ l ∈ ls, l.site.isBody = true → ∃ φ, (initial clock).Activation history l.site φ ∧
        ∀ ψ, (initial clock).Activation history l.site ψ → (f.BelongsTo ψ ↔ ψ = φ) := by
  obtain ⟨w, store, within, fits | ⟨c, name, -, fits⟩⟩ := arises.fits
  · obtain ⟨-, ls, place, -, uses⟩ := fits
    refine ⟨ls, fun o mem => ?_⟩
    have occurs : (initial clock).Occurs history o := within.occurs o (uses o mem)
    have around := Stmt.suffix_of_mem mem
    exact ⟨occurs, around, fun l => (Framed.of_fits within place).belongs
      ((occurs_nested occurs).of_suffix around)⟩
  · obtain ⟨-, -, ls, methods, decl, -, -, place, -, uses⟩ := fits
    refine ⟨.methods methods :: ls, fun o mem => ?_⟩
    have occurs : (initial clock).Occurs history o := within.occurs o (uses o mem)
    have around := Stmt.suffix_of_mem mem
    refine ⟨occurs, around, fun l inside body => ?_⟩
    -- The scope around the methods gets its frame when one of them is bound.
    rcases List.mem_cons.mp inside with rfl | inside
    · cases body
    · exact (Framed.of_fits within place).belongs
        ((occurs_nested occurs).of_suffix ((List.suffix_cons _ ls).trans around)) inside body

end Session

end Lox
