import Lox.Proofs.Points.Walk

/-!
# Static violations

The rules that a program can break beyond the grammar, each as a condition on a point of the program
and the path from it. The resolver reports every broken rule once, where it is broken, and nothing
else: `violations_reported`.
-/

namespace Lox

namespace Point

inductive Violates : Point → StaticFault → Prop
  | returnAtTopLevel {path keyword hasValue} : path.function = .none →
    Violates ⟨path, .returnFrom keyword hasValue⟩ .returnAtTopLevel
  | valueFromInitializer {path keyword} : path.function = .initializer →
    Violates ⟨path, .returnFrom keyword true⟩ .valueFromInitializer
  | thisOutsideClass {path use} : path.cls = .none →
    Violates ⟨path, .use .this use⟩ .thisOutsideClass
  | superOutsideClass {path use} : path.cls = .none →
    Violates ⟨path, .use .super use⟩ .superOutsideClass
  | superWithoutSuperclass {path use} : path.cls = .plain →
    Violates ⟨path, .use .super use⟩ .superWithoutSuperclass
  | selfInheritance {path cls use} : use.name.lexeme = cls.lexeme →
    Violates ⟨path, .superclass cls use⟩ .selfInheritance
  | duplicateName {path name} : path.Declared name.lexeme →
    Violates ⟨path, .declaration name⟩ .duplicateName
  | ownInitializer {path use} : path.Initializes use.name.lexeme →
    Violates ⟨path, .use .variable use⟩ .ownInitializer

theorem mem_faults {point : Point} {fault : StaticFault} :
    fault ∈ point.faults ↔ point.Violates fault := by
  constructor
  · intro found
    obtain ⟨path, construct⟩ := point
    unfold faults at found
    dsimp only at found
    split at found
    · split at found <;> simp only [List.mem_singleton, List.not_mem_nil] at found
      next initializes => exact found ▸ .ownInitializer initializes
    · cases found
    · split at found <;> simp only [List.mem_singleton, List.not_mem_nil] at found
      next outside => exact found ▸ .thisOutsideClass outside
    · split at found <;> simp only [List.mem_singleton, List.not_mem_nil] at found
      next outside => exact found ▸ .superOutsideClass outside
      next plain => exact found ▸ .superWithoutSuperclass plain
    · split at found <;> simp only [List.mem_singleton, List.not_mem_nil] at found
      next declared => exact found ▸ .duplicateName declared
    · split at found <;> simp only [List.mem_singleton, List.not_mem_nil] at found
      next same => exact found ▸ .selfInheritance same
    · split at found
      next outside => exact List.mem_singleton.mp found ▸ .returnAtTopLevel outside
      next initializer =>
        split at found <;> simp only [List.mem_singleton, List.not_mem_nil] at found
        next hasValue =>
          obtain rfl := hasValue
          exact found ▸ .valueFromInitializer initializer
      · cases found
  · intro violates
    cases violates with
    | returnAtTopLevel outside => simp [faults, outside]
    | valueFromInitializer initializer => simp [faults, initializer]
    | thisOutsideClass outside => simp [faults, outside]
    | superOutsideClass outside => simp [faults, outside]
    | superWithoutSuperclass plain => simp [faults, plain]
    | selfInheritance same => simp [faults, same]
    | duplicateName declared => simp [faults, declared]
    | ownInitializer initializes => simp [faults, initializes]

/-- No construct breaks two rules. -/
theorem Violates.unique {point : Point} {fault fault' : StaticFault} (h : point.Violates fault)
    (h' : point.Violates fault') : fault = fault' := by
  cases h <;> cases h' <;> simp_all

theorem length_faults (point : Point) : point.faults.length ≤ 1 := by
  unfold faults
  split <;> try split
  all_goals try split
  all_goals decide

end Point

theorem Program.faults_eq_nil {p : Program} (clean : p.resolve.errors = []) {point : Point}
    (mem : point ∈ p.points) : point.faults = [] := by
  have errors : p.points.flatMap Point.errors = [] := by
    rw [← clean, p.walk.errors]
    rfl
  exact List.map_eq_nil_iff.mp (List.flatMap_eq_nil_iff.mp errors point mem)

/-- The errors of a program are those of its points, in the order of the walk, and at each point there
is one error for each rule that its construct breaks where it stands. The statements may be any. -/
theorem violations_reported (p : Program) :
    p.resolve.errors = p.points.flatMap (fun point =>
      point.faults.map fun fault => ⟨point.construct.token, fault⟩) ∧
    ∀ point : Point, point.faults.Nodup ∧ ∀ fault, fault ∈ point.faults ↔ point.Violates fault := by
  constructor
  · have errors := p.walk.errors
    rwa [List.nil_append] at errors
  · intro point
    refine ⟨?_, fun fault => Point.mem_faults⟩
    have short := point.length_faults
    rcases faults : point.faults with _ | ⟨fault, _ | ⟨fault', others⟩⟩
    · exact .nil
    · simp
    · rw [faults] at short
      simp at short

end Lox
