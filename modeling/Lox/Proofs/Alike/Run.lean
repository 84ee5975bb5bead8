import Lox.Proofs.Alike.Machine
import Lox.Proofs.Methods
import Lox.Proofs.Restoration

/-!
# Steps that are alike

On machines that are alike, steps that are alike yield what is alike or stop at the same error, and
leave machines that are alike. Steps in a row are alike if each of them is, and so are the basic
steps.
-/

namespace Lox

inductive Crash.Alike (P : Pairing) : Crash → Crash → Prop
  | same {c} : Crash.Alike P c c
  | unbound {name d ρ} : P.renames ρ → Crash.Alike P (.unbound name d) (.unbound (ρ name) d)

inductive Abort.Alike (P : Pairing) : Abort → Abort → Prop
  | error {line line' fault} : P.lines line line' →
    Abort.Alike P (.error ⟨line, fault⟩) (.error ⟨line', fault⟩)
  | crash {c c'} : c.Alike P c' → Abort.Alike P (.crash c) (.crash c')

inductive Flow.Alike (P : Pairing) (F : FrameRenamings) : Flow → Flow → Prop
  | normal : Flow.Alike P F .normal .normal
  | breaking : Flow.Alike P F .breaking .breaking
  | returning {v v'} : v.Alike P F v' → Flow.Alike P F (.returning v) (.returning v')

/-- What two runs end with: results that are related, or errors that are alike. -/
inductive EndsAlike (P : Pairing) (before : String) (e : Environment) (F : FrameRenamings)
    {α β : Type} (R : FrameRenamings → α → β → Prop) :
    EStateM.Result Abort Machine α → EStateM.Result Abort Machine β → Prop
  | ok {F' a b m m'} : F <+: F' → R F' a b → m.Alike P F' before e m' →
    EndsAlike P before e F R (.ok a m) (.ok b m')
  | error {F' a a' m m'} : F <+: F' → a.Alike P a' → m.Alike P F' before e m' →
    EndsAlike P before e F R (.error a m) (.error a' m')

/-- Steps that end alike wherever they begin alike, with these frames or more. -/
def RunsAlike (P : Pairing) (before : String) (e : Environment) (F : FrameRenamings) {α β : Type}
    (R : FrameRenamings → α → β → Prop) (p : Run α) (p' : Run β) : Prop :=
  ∀ F', F <+: F' → ∀ m m', m.Alike P F' before e m' → EndsAlike P before e F' R (p m) (p' m')

section Steps

variable {P : Pairing} {before : String} {e : Environment} {F : FrameRenamings}
  {α β γ δ : Type} {R : FrameRenamings → α → β → Prop} {S : FrameRenamings → γ → δ → Prop}

theorem EndsAlike.grown {F' : FrameRenamings} (grown : F <+: F')
    {r : EStateM.Result Abort Machine α} {r' : EStateM.Result Abort Machine β}
    (h : EndsAlike P before e F' R r r') : EndsAlike P before e F R r r' := by
  cases h with
  | ok more related alike => exact .ok (grown.trans more) related alike
  | error more related alike => exact .error (grown.trans more) related alike

/-- The rest may make use of what the first run has done so far. -/
theorem EndsAlike.bind {p : Run α} {p' : Run β} {f : α → Run γ} {f' : β → Run δ} {m m' : Machine}
    (hp : EndsAlike P before e F R (p m) (p' m'))
    (hf : ∀ F' a b mid mid', F <+: F' → R F' a b → p m = .ok a mid →
      mid.Alike P F' before e mid' → EndsAlike P before e F' S (f a mid) (f' b mid')) :
    EndsAlike P before e F S ((p >>= f) m) ((p' >>= f') m') := by
  rw [bind_apply, bind_apply]
  revert hf hp
  cases p m <;> cases p' m' <;> intro hp hf
  · obtain ⟨more, related, later⟩ | _ := hp
    exact (hf _ _ _ _ _ more related rfl later).grown more
  · cases hp
  · cases hp
  · obtain _ | ⟨more, related, later⟩ := hp
    exact .error more related later

namespace RunsAlike

theorem mono {p : Run α} {p' : Run β} (h : RunsAlike P before e F R p p') {F' : FrameRenamings}
    (grown : F <+: F') : RunsAlike P before e F' R p p' :=
  fun F'' more m m' alike => h F'' (grown.trans more) m m' alike

theorem pure {a : α} {b : β} (h : ∀ F', F <+: F' → R F' a b) :
    RunsAlike P before e F R (pure a) (pure b) :=
  fun F' grown _ _ alike => .ok List.prefix_rfl (h F' grown) alike

theorem throw {a a' : Abort} (h : a.Alike P a') :
    RunsAlike P before e F R (throw a : Run α) (throw a' : Run β) :=
  fun _ _ _ _ alike => .error List.prefix_rfl h alike

theorem bind {p : Run α} {p' : Run β} {f : α → Run γ} {f' : β → Run δ}
    (hp : RunsAlike P before e F R p p')
    (hf : ∀ F', F <+: F' → ∀ a b, R F' a b → RunsAlike P before e F' S (f a) (f' b)) :
    RunsAlike P before e F S (p >>= f) (p' >>= f') := by
  intro F' grown m m' alike
  exact (hp F' grown m m' alike).bind fun F'' a b mid mid' more related _ later =>
    hf F'' (grown.trans more) a b related F'' List.prefix_rfl mid mid' later

theorem get {f : Machine → Run α} {f' : Machine → Run β}
    (h : ∀ F', F <+: F' → ∀ m m', m.Alike P F' before e m' →
      RunsAlike P before e F' R (f m) (f' m')) :
    RunsAlike P before e F R (get >>= f) (get >>= f') :=
  fun F' grown m m' alike => h F' grown m m' alike F' List.prefix_rfl m m' alike

theorem fail {t t' : Token} (line : P.lines t.line t'.line) (fault : RuntimeFault) :
    RunsAlike P before e F R (Run.fail t fault : Run α) (Run.fail t' fault : Run β) :=
  throw (.error line)

theorem unfinished :
    RunsAlike P before e F R (Run.unfinished : Run α) (Run.unfinished : Run β) :=
  throw (.crash .same)

/-- A step that changes only the stores. -/
theorem of_store {f : Machine → α × Store} {g : Machine → β × Store}
    (h : ∀ F', F <+: F' → ∀ m m', m.Alike P F' before e m' → ∃ F'', F' <+: F'' ∧
      R F'' (f m).1 (g m').1 ∧ (f m).2.Alike P F'' (g m').2) :
    RunsAlike P before e F R (fun m => .ok (f m).1 { m with store := (f m).2 })
      (fun m => .ok (g m).1 { m with store := (g m).2 }) := by
  intro F' grown m m' alike
  obtain ⟨F'', more, related, store⟩ := h F' grown m m' alike
  exact .ok more related
    ⟨store, alike.current, alike.current', alike.distances, alike.output, alike.clock⟩

theorem newChild {outer : Environment} {Γ : Renamings} (renames : outer.Renames F Γ) {ρ : Renaming}
    (allowed : P.renames ρ) {bs bs' : Bindings} (alike : Bindings.Alike P F ρ bs bs') :
    RunsAlike P before e F (fun F' a b => a = b ∧ a.Renames F' (Γ.push ρ))
      (Run.update (·.newChild outer bs)) (Run.update (·.newChild outer bs')) := by
  refine of_store (f := fun m => m.store.newChild outer bs)
    (g := fun m => m.store.newChild outer bs') fun F' grown m m' h => ?_
  refine ⟨F' ++ [ρ], List.prefix_append F' [ρ], ⟨?_, ?_⟩,
    h.store.newChild outer allowed (alike.mono (.refl P) grown)⟩
  · simp [Store.newChild, h.store.size, h.store.size']
  · have pushed := (renames.mono grown).push ρ
    rwa [← h.store.size] at pushed

theorem newId : RunsAlike P before e F (fun _ a b => a = b) (Run.update Store.newId)
    (Run.update Store.newId) :=
  of_store fun F' _ _ _ h => ⟨F', List.prefix_rfl, h.store.nextId.symm, h.store.newId⟩

theorem newInstance {c c' : Class} (alike : c.Alike P F c') :
    RunsAlike P before e F (fun _ a b => a = b) (Run.update (·.newInstance c))
      (Run.update (·.newInstance c')) := by
  refine of_store (f := fun m => m.store.newInstance c) (g := fun m => m.store.newInstance c')
    fun F' grown m m' h => ?_
  exact ⟨F', List.prefix_rfl, h.store.count.symm, h.store.newInstance (alike.mono (.refl P) grown)⟩

theorem defineIn {frame : Nat} {ρ : Renaming} (here : F[frame]? = some ρ) (name : String)
    {v v' : Value} (alike : v.Alike P F v') :
    RunsAlike P before e F (fun _ _ _ => True) (Run.defineIn frame name v)
      (Run.defineIn frame (ρ name) v') := by
  refine of_store (f := fun m => ((), m.store.define frame name v))
    (g := fun m => ((), m.store.define frame (ρ name) v')) fun F' grown m m' h => ?_
  exact ⟨F', List.prefix_rfl, trivial, h.store.define
    (FrameRenamings.getElem?_of_prefix grown here) name (alike.mono (.refl P) grown)⟩

theorem setField (id : Nat) (name : String) {v v' : Value} (alike : v.Alike P F v') :
    RunsAlike P before e F (fun _ _ _ => True) (Run.setField id name v)
      (Run.setField id name v') := by
  refine of_store (f := fun m => ((), m.store.setField id name v))
    (g := fun m => ((), m.store.setField id name v')) fun F' grown m m' h => ?_
  exact ⟨F', List.prefix_rfl, trivial,
    h.store.setField id name (alike.mono (.refl P) grown)⟩

theorem print (text : String) :
    RunsAlike P before e F (fun _ _ _ => True) (Run.print text) (Run.print text) := by
  intro F' _ m m' h
  refine .ok List.prefix_rfl trivial
    ⟨h.store, h.current, h.current', h.distances, ?_, h.clock⟩
  dsimp only
  rw [h.output, String.append_assoc, String.append_assoc, String.append_assoc]

theorem readClock : RunsAlike P before e F (fun _ => Eq) Run.readClock Run.readClock := by
  intro F' _ m m' h
  unfold Run.readClock
  rw [h.clock]
  exact .ok List.prefix_rfl rfl ⟨h.store, h.current, h.current', h.distances, h.output, rfl⟩

theorem within {inner : Environment} {p : Run α} {p' : Run β}
    (h : RunsAlike P before inner F R p p') :
    RunsAlike P before e F R (Run.within inner p) (Run.within inner p') := by
  intro F' grown m m' alike
  have ends := h F' grown { m with current := inner } { m' with current := inner }
    ⟨alike.store, rfl, rfl, alike.distances, alike.output, alike.clock⟩
  unfold Run.within
  revert ends
  cases p { m with current := inner } <;> cases p' { m' with current := inner } <;> intro ends
  · obtain ⟨more, related, later⟩ | _ := ends
    exact .ok more related ⟨later.store, alike.current, alike.current', later.distances,
      later.output, later.clock⟩
  · cases ends
  · cases ends
  · obtain _ | ⟨more, related, later⟩ := ends
    exact .error more related ⟨later.store, alike.current, alike.current', later.distances,
      later.output, later.clock⟩

/-! ### Variables -/

variable {Γ : Renamings}

theorem value {v v' : Value} (h : v.Alike P F v') :
    RunsAlike P before e F (Value.Alike P) (Pure.pure v) (Pure.pure v') :=
  pure fun _ grown => h.mono (.refl P) grown

theorem getAt {s s' : Store} (h : s.Alike P F s') {inner : Environment}
    (renames : inner.Renames F Γ) (d : Nat) (name : String) :
    RunsAlike P before e F (Value.Alike P) (Run.ofExcept (s.getAt inner d name))
      (Run.ofExcept (s'.getAt inner d (Γ d name))) := by
  cases here : inner.frames[d]? with
  | none =>
    rw [Store.getAt_outside name here, Store.getAt_outside _ here]
    exact throw (.crash .same)
  | some frame =>
    have frameRenames := renames d frame here
    rw [Store.getAt_eq name here, Store.getAt_eq _ here]
    have bound := h.bindings frame _ frameRenames name
    revert bound
    cases (s.bindings frame)[name]? <;> cases (s'.bindings frame)[Γ d name]? <;> intro bound
    · exact throw (.crash (.unbound (h.renames _ (List.mem_of_getElem? frameRenames))))
    · cases bound
    · cases bound
    · obtain alike | _ := bound
      exact value alike

theorem lookup {use use' : Use} (renames : e.Renames F Γ) (u : P.Uses Γ use use') :
    RunsAlike P before e F (Value.Alike P) (Run.lookup use) (Run.lookup use') := by
  refine get fun F' grown m m' h => ?_
  obtain ⟨same, known⟩ := h.distances _ _ u.ids
  have lexeme := u.lexeme _ known
  dsimp only
  rw [same, h.current, h.current']
  cases distance : m.distances[use.id]? with
  | some d =>
    rw [distance] at lexeme
    rw [lexeme]
    exact getAt h.store (renames.mono grown) d _
  | none =>
    rw [distance] at lexeme
    rw [lexeme]
    have found := h.store.lookup?_global use.name.lexeme
    dsimp only [Renamings.at?, Equiv.refl_apply]
    revert found
    cases m.store.lookup? .global use.name.lexeme <;>
      cases m'.store.lookup? .global use.name.lexeme <;> intro found
    · exact fail u.line _
    · cases found
    · cases found
    · obtain alike | _ := found
      exact value alike

/-- A keyword is not renamed. -/
theorem getAt_keyword {s s' : Store} (h : s.Alike P F s') {inner : Environment}
    (renames : inner.Renames F Γ) (d : Nat) {word : String}
    (kept : ∀ ρ, P.renames ρ → ρ word = word) :
    RunsAlike P before e F (Value.Alike P) (Run.ofExcept (s.getAt inner d word))
      (Run.ofExcept (s'.getAt inner d word)) := by
  cases here : inner.frames[d]? with
  | none =>
    rw [Store.getAt_outside word here, Store.getAt_outside word here]
    exact throw (.crash .same)
  | some frame =>
    have got : RunsAlike P before e F (Value.Alike P) _ _ := getAt h renames d word
    rwa [kept _ (h.renames _ (List.mem_of_getElem? (renames d frame here)))] at got

theorem define (renames : e.Renames F Γ) (name : String) {v v' : Value} (alike : v.Alike P F v') :
    RunsAlike P before e F (fun _ _ _ => True) (Run.define name v) (Run.define (Γ 0 name) v') := by
  refine get fun F' grown m m' h => ?_
  rw [h.current, h.current']
  exact defineIn (renames.mono grown 0 e.frame rfl) name (alike.mono (.refl P) grown)

theorem assignIn_global {t t' : Token} (lexeme : t'.lexeme = t.lexeme)
    (line : P.lines t.line t'.line) {v v' : Value} (alike : v.Alike P F v') :
    RunsAlike P before e F (fun _ _ _ => True) (Run.assignIn .global t v)
      (Run.assignIn .global t' v') := by
  refine get fun F' grown m m' h => ?_
  rw [Store.binder?_global, Store.binder?_global, lexeme,
    show (m'.store.bindings 0).contains t.lexeme = _ from
      (h.store.bindings 0 _ h.store.global).contains t.lexeme]
  cases (m.store.bindings 0).contains t.lexeme with
  | false => exact fail line _
  | true => exact defineIn h.store.global _ (alike.mono (.refl P) grown)

theorem assign {use use' : Use} (renames : e.Renames F Γ) (u : P.Uses Γ use use') {v v' : Value}
    (alike : v.Alike P F v') :
    RunsAlike P before e F (fun _ _ _ => True) (Run.assign use v) (Run.assign use' v') := by
  have distance : RunsAlike P before e F (fun _ d d' => d' = d ∧ P.distances use.id d)
      (Run.distance? use) (Run.distance? use') :=
    get fun F' _ m m' h => pure fun _ _ => h.distances _ _ u.ids
  refine distance.bind fun F' grown d d' ⟨same, known⟩ => ?_
  subst same
  have lexeme := u.lexeme _ known
  cases d' with
  | none => exact assignIn_global lexeme u.line (alike.mono (.refl P) grown)
  | some d =>
    refine get fun F'' more m m' h => ?_
    rw [h.current, h.current', lexeme]
    unfold Store.ancestor
    cases here : e.ancestor? d with
    | none =>
      have stops : RunsAlike P before e F'' (fun _ _ _ => False)
          (Run.ofExcept (.error (.chainEnded e.enclosing.length d)) : Run Nat)
          (Run.ofExcept (.error (.chainEnded e.enclosing.length d)) : Run Nat) :=
        throw (.crash .same)
      exact stops.bind fun _ _ _ _ impossible => impossible.elim
    | some frame =>
      refine (pure (R := fun _ a b => a = frame ∧ b = frame) fun _ _ => ⟨rfl, rfl⟩).bind ?_
      rintro G further _ _ ⟨rfl, rfl⟩
      have all : F <+: G := (grown.trans more).trans further
      exact defineIn (renames.mono all d _ here) _ (alike.mono (.refl P) all)

end RunsAlike

end Steps

end Lox
