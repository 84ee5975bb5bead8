import Lox.Proofs.Course.Order

/-!
# Frames and the moments that make them

Each frame of a scope is made at one moment: `Session.opens_unique`. For the number of frames grows
in the course of a moment that makes one, and never gets less.
-/

namespace Lox

open Relation

theorem Machine.size_enter (m : Machine) (outer : Environment) (bindings : Bindings) :
    (m.enter outer bindings).store.frames.size = m.store.frames.size + 1 :=
  Store.size_newChild m.store outer bindings

/-- The declaration of a derived class goes on from the frame of `super`. -/
theorem grows_declareDerived {m m' : Machine} {name : Token} {use : Use}
    {methods : List FunctionDecl} {above : Class}
    (ran : evaluateSuperclass use (m.announce name) = .ok above m') :
    ((m.announce name).push m.current ((∅ : Bindings).insert "super" (.cls above))).Grows
      (stateAfter (declareClass name (some use) methods) m) := by
  have looked := stateAfter_evaluateSuperclass (m.announce name) use
  rw [stateAfter_ok ran] at looked
  subst looked
  let env := (m.announce name).child m.current
  have start : declareClass name (some use) methods m = (do
      let id ← Run.update Store.newId
      Run.assignIn m.current name
        (.cls (.derived id name.lexeme (methodTable env methods) above)))
      ((m.announce name).push m.current ((∅ : Bindings).insert "super" (.cls above))) :=
    (declareClass_derived name use methods m).trans (bind_of_ok ran)
  rw [stateAfter, start]
  exact grows.respects_bind grows.respects_newId (fun _ => grows.respects_assignIn _ _ _) _

/-! ### Moments that make frames -/

namespace Opens

variable {a b : Moment} {site site' : Site} {e e' : Environment}

theorem frame (opens : Opens a site e) : e.frame = a.machine.store.frames.size := by
  cases opens <;> rfl

/-- A moment makes one frame, and a body is not mistaken for another scope. -/
theorem same (opens : Opens a site e) (opens' : Opens a site' e') :
    e = e' ∧ (site.isBody = true → site = site') := by
  cases opens <;> cases opens' <;> simp [Site.isBody]

/-- What comes in the course of a moment that makes a frame comes after it is made, but for the
look-up of a superclass. -/
theorem of_begins (opens : Opens a site e) (begins : Begins a b) :
    a.machine.store.frames.size < b.machine.store.frames.size ∨
      (∀ c, ¬ Begins b c) ∧ ∀ site e, ¬ Opens b site e := by
  cases opens with
  | @block n m body =>
    cases begins with
    | expression first => cases first
    | block =>
      rw [Machine.size_enter]
      exact .inl (Nat.lt_succ_self _)
  | call =>
    cases begins
    rw [Machine.size_enter]
    exact .inl (Nat.lt_succ_self _)
  | bind => cases begins
  | superclass =>
    cases begins with
    | expression first => cases first
    | superclass =>
      refine .inr ⟨fun c begins => ?_, fun site e opens => nomatch opens⟩
      cases begins with
      | part first => cases first

theorem size_lt (opens : Opens a site e)
    (course : ∀ b, Begins a b → b.machine.store.frames.size ≤ a.after.store.frames.size) :
    a.machine.store.frames.size < a.after.store.frames.size := by
  cases opens with
  | @block n m body =>
    have inner := course _ .block
    rw [Machine.size_enter] at inner
    exact inner
  | call =>
    have inner := course _ .called
    rw [Machine.size_enter] at inner
    exact inner
  | @bind m method id =>
    exact Nat.lt_of_lt_of_eq (Nat.lt_succ_self _)
      (Store.size_newChild m.store method.environment _).symm
  | @superclass n m name use methods c m' ran =>
    have grows : Machine.Grows _ (stateAfter (declareClass name (some use) methods) m) :=
      grows_declareDerived ran
    have size := grows.frames
    change _ < (stateAfter (declareClass name (some use) methods >>= fun _ => pure Flow.normal)
      m).store.frames.size
    rw [stateAfter_bind_pure]
    rw [Machine.push, Store.size_newChild, Machine.announce, Store.size_frames_define] at size
    exact size

end Opens

namespace Session

variable {clock : Clock} {history : List Entry} {a b : Moment} {site site' : Site}
  {e e' : Environment}

/-- What comes in the course of a moment lies between its beginning and its end. -/
theorem Happens.within (h : (initial clock).Happens history a) (course : ReflTransGen Begins a b) :
    a.machine.store.frames.size ≤ b.machine.store.frames.size ∧
      b.after.store.frames.size ≤ a.after.store.frames.size := by
  induction course with
  | refl => exact ⟨Nat.le_refl _, Nat.le_refl _⟩
  | @tail b c course begins ih =>
    have happens := h.course course
    have each (d : Moment) (mem : d ∈ b.children) := (happens_of_mem_children happens mem).changes
    have mem := Moment.mem_children.mpr begins
    exact ⟨Nat.le_trans ih.1 (happens.leads.changes_to each mem).size_le,
      Nat.le_trans (happens.leads.changes_from each mem).size_le ih.2⟩

theorem Happens.size_lt (h : (initial clock).Happens history a) (opens : Opens a site e) :
    a.machine.store.frames.size < a.after.store.frames.size := by
  refine opens.size_lt fun b begins => ?_
  exact Nat.le_trans (Happens.step h begins).changes.size_le (h.within (.single begins)).2

/-- A frame that is made in the course of a moment comes after the frame of that moment. -/
theorem frame_lt_inside (h : (initial clock).Happens history a) (opens : Opens a site e)
    (course : TransGen Begins a b) (opens' : Opens b site' e') : e.frame < e'.frame := by
  rw [opens.frame, opens'.frame]
  obtain ⟨c, begins, course⟩ := TransGen.head'_iff.mp course
  rcases opens.of_begins begins with later | ⟨childless, opensNothing⟩
  · exact Nat.lt_of_lt_of_le later ((Happens.step h begins).within course).1
  · rcases course.cases_head with rfl | ⟨d, begins', -⟩
    · exact absurd opens' (opensNothing _ _)
    · exact absurd begins' (childless d)

/-- A frame that is made after a moment has ended comes after the frame of that moment. -/
theorem Before.frame_lt (earlier : (initial clock).Before history a b) (opens : Opens a site e)
    (opens' : Opens b site' e') : e.frame < e'.frame := by
  rw [opens.frame, opens'.frame]
  exact Nat.lt_of_lt_of_le (earlier.happens.1.size_lt opens) earlier.changes.size_le

/-- Each frame is made for one scope at one moment. -/
theorem opens_unique (ha : (initial clock).Happens history a)
    (hb : (initial clock).Happens history b) (opens : Opens a site e) (opens' : Opens b site' e')
    (same : e.frame = e'.frame) : a = b := by
  rcases comparable ha hb with course | course | earlier | earlier
  · rcases reflTransGen_iff_eq_or_transGen.mp course with rfl | inside
    · rfl
    · exact absurd same (Nat.ne_of_lt (frame_lt_inside ha opens inside opens'))
  · rcases reflTransGen_iff_eq_or_transGen.mp course with rfl | inside
    · rfl
    · exact absurd same.symm (Nat.ne_of_lt (frame_lt_inside hb opens' inside opens))
  · exact absurd same (Nat.ne_of_lt (earlier.frame_lt opens opens'))
  · exact absurd same.symm (Nat.ne_of_lt (earlier.frame_lt opens' opens))

end Session

end Lox
