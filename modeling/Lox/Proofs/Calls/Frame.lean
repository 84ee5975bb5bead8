import Lox.Proofs.Agreement.Ready
import Lox.Proofs.Approximation

/-!
# Frames of calls

Arguments fit parameters if there is one for each and no two parameters have one name. Then the frame
of a call binds each parameter to the argument in its place and nothing else, and in it the body
begins: `Closure.enters` and `Closure.call_eq`.
-/

namespace Lox

/-- There is one argument for each parameter, and no two parameters have the same name. -/
structure ArgumentsFit (params : List Token) (arguments : List Value) : Prop where
  length : arguments.length = params.length
  distinct : (params.map Token.lexeme).Nodup

instance (params : List Token) (arguments : List Value) :
    Decidable (ArgumentsFit params arguments) :=
  decidable_of_iff (arguments.length = params.length ∧ (params.map Token.lexeme).Nodup)
    ⟨fun h => ⟨h.1, h.2⟩, fun h => ⟨h.length, h.distinct⟩⟩

namespace Closure

variable {f : Closure} {arguments : List Value}

theorem getElem?_frame (fit : ArgumentsFit f.params arguments) {i : Nat} {p : Token}
    (param : f.params[i]? = some p) : (f.frame arguments)[p.lexeme]? = arguments[i]? := by
  have bound : i < arguments.length := by
    rw [fit.length]
    exact (List.getElem?_eq_some_iff.mp param).1
  have argument : arguments[i]? = some arguments[i] := List.getElem?_eq_getElem bound
  have named : (f.params.map Token.lexeme)[i]? = some p.lexeme := by
    rw [List.getElem?_map, param]
    rfl
  have pair : (p.lexeme, arguments[i]) ∈ (f.params.map Token.lexeme).zip arguments :=
    List.mem_of_getElem? (List.getElem?_zip_eq_some.mpr ⟨named, argument⟩)
  -- The keys of the table are the names, which are all different.
  have keys : ((f.params.map Token.lexeme).zip arguments).map Prod.fst =
      f.params.map Token.lexeme := by
    refine List.map_fst_zip ?_
    rw [List.length_map, fit.length]
  have distinct := List.pairwise_map.mp (keys ▸ fit.distinct)
  rw [frame_eq_ofList, argument]
  exact Std.TreeMap.getElem?_ofList_of_mem Std.ReflCmp.compare_self
    (distinct.imp fun different same => different (Std.LawfulEqCmp.compare_eq_iff_eq.mp same)) pair

/-! ### Where the body begins -/

/-- On `inner` the body of the function begins, which is called with the arguments on `m`. -/
structure Enters (f : Closure) (arguments : List Value) (m inner : Machine) : Prop where
  /-- Around a frame that there was not are those that the function has captured. -/
  current : inner.current = ⟨m.store.frames.size, f.environment.frames⟩
  /-- Everything else is as it was. -/
  rest : inner = { m with
    current := inner.current
    store := { m.store with
      frames := m.store.frames.push (inner.store.bindings inner.current.frame) } }
  bound : ∀ (i : Nat) (p : Token), f.params[i]? = some p →
    (inner.store.bindings inner.current.frame)[p.lexeme]? = arguments[i]?
  only : ∀ x : String, (inner.store.bindings inner.current.frame).contains x = true ↔
    ∃ p ∈ f.params, p.lexeme = x

theorem enters (fit : ArgumentsFit f.params arguments) (m : Machine) :
    f.Enters arguments m (m.enter f.environment (f.frame arguments)) := by
  have bindings : (m.enter f.environment (f.frame arguments)).store.bindings
      (m.enter f.environment (f.frame arguments)).current.frame = f.frame arguments :=
    m.bindings_push f.environment (f.frame arguments)
  refine ⟨rfl, ?_, fun i p param => ?_, fun x => ?_⟩
  · rw [bindings]
    rfl
  · rw [bindings]
    exact getElem?_frame fit param
  · rw [bindings]
    exact contains_frame_iff fit.length x

def result (f : Closure) : Ending Flow → Ending Value
  | .ok flow m =>
    if f.isInitializer then Run.ofExcept (m.store.getAt f.environment 0 "this") m
    else
      match flow with
      | .returning value => .ok value m
      | _ => .ok .nil m
  | .error a m => .error a m

/-- A call runs the body in the new frame and goes back. -/
theorem call_eq (f : Closure) (exec : Stmt → Run Flow) (arguments : List Value) (m : Machine) :
    f.call exec arguments m = f.result (Ending.back m.current
      (executeAll exec f.body (m.enter f.environment (f.frame arguments)))) := by
  have body : Run.within (m.child f.environment) (executeAll exec f.body)
      (m.push f.environment (f.frame arguments)) = Ending.back m.current
        (executeAll exec f.body (m.enter f.environment (f.frame arguments))) :=
    Run.within_eq _ _ _
  unfold Closure.call
  change (Run.within (m.child f.environment) (executeAll exec f.body) >>= _)
    (m.push f.environment (f.frame arguments)) = _
  rw [bind_apply, body]
  cases executeAll exec f.body (m.enter f.environment (f.frame arguments)) with
  | ok flow inner =>
    simp only [Ending.back, result]
    split
    · rfl
    · cases flow <;> rfl
  | error a inner => rfl

end Closure

end Lox
