import Lox.Proofs.Course.Order
import Lox.Proofs.Transfer

/-!
# Moments that succeed

An error ends all moments in whose course it comes. So what comes in the course of a moment that
succeeds succeeds, and so does a moment that has another after it: `Moment.Earlier.succeeds`.
-/

namespace Lox

open Relation

def Moment.Succeeds : Moment → Prop
  | ⟨.evaluate n e, m⟩ => ∃ v m', Lox.evaluate n e m = .ok v m'
  | ⟨.evaluateAll n es, m⟩ => ∃ vs m', Lox.evaluateAll (Lox.evaluate n) es m = .ok vs m'
  | ⟨.execute n s, m⟩ => ∃ flow m', Lox.execute n s m = .ok flow m'
  | ⟨.executeAll n ss, m⟩ => ∃ flow m', Lox.executeAll (Lox.execute n) ss m = .ok flow m'
  | ⟨.repeatWhile n condition body rounds, m⟩ => ∃ flow m',
    Lox.repeatWhile (Lox.evaluate (n + 1) condition) (Lox.execute n body) rounds m = .ok flow m'
  | ⟨.invoke n callee arguments, m⟩ =>
    ∃ v m', callee.invoke (Lox.execute n) arguments m = .ok v m'
  | ⟨.call n f arguments, m⟩ => ∃ v m', f.call (Lox.execute n) arguments m = .ok v m'
  | ⟨.bind method id, m⟩ => ∃ f m', Run.bind method id m = .ok f m'

variable {a b c : Moment}

/-! ### Parts of a moment -/

section Parts

variable {n : Nat} {m m' mid : Machine}

theorem first_of_bind {α β : Type} {p : Run α} {f : α → Run β}
    (ran : ∃ b m', (p >>= f) m = .ok b m') : ∃ a mid, p m = .ok a mid := by
  obtain ⟨_, _, ran⟩ := ran
  obtain ⟨a, mid, first, -⟩ := bind_ok ran
  exact ⟨a, mid, first⟩

theorem rest_of_bind {α β : Type} {p : Run α} {f : α → Run β} {a : α} (first : p m = .ok a mid)
    (ran : ∃ b m', (p >>= f) m = .ok b m') : ∃ b m', f a mid = .ok b m' := by
  obtain ⟨b, m', ran⟩ := ran
  exact ⟨b, m', (bind_of_ok first).symm.trans ran⟩

theorem evaluate_first {e part : Expr} (first : e.first? = some part)
    (ran : ∃ v m', evaluate (n + 1) e m = .ok v m') : ∃ v m', evaluate n part m = .ok v m' := by
  cases e <;> cases first
  case grouping => exact ran
  all_goals exact first_of_bind ran

theorem execute_first {s : Stmt} {e : Expr} (first : s.first? = some e)
    (ran : ∃ flow m', execute (n + 1) s m = .ok flow m') :
    ∃ v m', evaluate (n + 1) e m = .ok v m' := by
  cases s with
  | var _ initializer =>
    obtain rfl : initializer = some e := first
    exact first_of_bind ran
  | returnFrom _ value =>
    obtain rfl : value = some e := first
    exact first_of_bind ran
  | expression | print | ifElse =>
    cases first
    exact first_of_bind ran
  | _ => cases first

end Parts

/-- An error in the course of a moment is an error of the moment. -/
theorem Begins.succeeds (begins : Begins a b) (h : a.Succeeds) : b.Succeeds := by
  cases begins with
  | part first => exact evaluate_first first h
  | right left =>
    have rest := rest_of_bind left h
    exact first_of_bind rest
  | @undecided n m left operator right value mid ran undecided =>
    have rest := rest_of_bind ran h
    rw [if_neg (Bool.eq_false_iff.mp undecided)] at rest
    exact rest
  | field holder =>
    have rest := rest_of_bind holder h
    exact first_of_bind rest
  | arguments callee =>
    have rest := rest_of_bind callee h
    exact first_of_bind rest
  | @invoke n m callee paren arguments f mid values mid' called passed arity =>
    have rest := rest_of_bind called h
    obtain ⟨v, m', ran⟩ := rest_of_bind passed rest
    rw [Value.call, arity] at ran
    dsimp only at ran
    rw [if_pos rfl] at ran
    exact ⟨v, m', ran⟩
  | property | super | bindInitializer => exact ⟨_, _, rfl⟩
  | head => exact first_of_bind h
  | tail head =>
    have rest := rest_of_bind head h
    exact first_of_bind rest
  | expression first => exact execute_first first h
  | block =>
    obtain ⟨_, _, ran⟩ := h
    obtain ⟨_, ran, -⟩ := execute_block_iff.mp ran
    exact ⟨_, _, ran⟩
  | branch tested chose =>
    obtain ⟨_, _, ran⟩ := h
    rw [execute_ifElse tested, chose] at ran
    exact ⟨_, _, ran⟩
  | loop => exact h
  | @superclass n m name superclass methods =>
    obtain ⟨_, _, declared⟩ := first_of_bind h
    -- Once the name is announced, the superclass is the first step.
    rw [declareClass_derived] at declared
    have found := first_of_bind ⟨_, _, declared⟩
    exact first_of_bind found
  | first => exact first_of_bind h
  | next first =>
    have rest := rest_of_bind first h
    exact rest
  | condition => exact first_of_bind h
  | body tested holds =>
    have rest := rest_of_bind tested h
    rw [if_pos holds] at rest
    exact first_of_bind rest
  | again tested holds round =>
    obtain ⟨_, _, ran⟩ := h
    rw [repeatWhile_again tested holds round] at ran
    exact ⟨_, _, ran⟩
  | function => exact h
  | @callInitializer n m c arguments method bound mid found bind =>
    obtain ⟨v, m', ran⟩ := h
    -- What is left once the instance is made.
    have start : c.construct (execute n) arguments m = (do
        let bound ← Run.bind method m.store.instances.size
        let _ ← bound.call (execute n) arguments
        pure (Value.instance m.store.instances.size)) (m.withInstance c) := by
      rw [Class.construct, found]
      rfl
    have rest := rest_of_bind bind ⟨v, m', start.symm.trans ran⟩
    exact first_of_bind rest
  | @called n m f arguments =>
    obtain ⟨v, m', ran⟩ := h
    obtain ⟨e, pushed, made, ran⟩ := bind_ok ran
    cases made
    obtain ⟨flow, ended, ran, -⟩ := bind_ok ran
    obtain ⟨inner, ran, -⟩ := Run.within_ok_iff.mp ran
    exact ⟨_, _, ran⟩

theorem succeeds_of_course (course : ReflTransGen Begins a b) (h : a.Succeeds) : b.Succeeds := by
  induction course with
  | refl => exact h
  | tail _ begins ih => exact begins.succeeds ih

/-! ### Moments with another after them -/

/-- After the first of some moments the others come if it succeeds. -/
theorem sublist_cons_whenOk {α : Type} {r : EStateM.Result Abort Machine α}
    {next : α → Machine → List Moment} (h : [b, c].Sublist (a :: whenOk r next)) :
    (b = a ∧ ∃ v m, r = .ok v m) ∨ ∃ v m, r = .ok v m ∧ [b, c].Sublist (next v m) := by
  cases r with
  | error e m => exact absurd h.length_le (by simp [whenOk])
  | ok v m =>
    cases h with
    | cons _ h => exact .inr ⟨v, m, rfl, h⟩
    | cons_cons _ _ => exact .inl ⟨rfl, v, m, rfl⟩

theorem not_sublist_singleton : ¬ [b, c].Sublist [a] := fun h => absurd h.length_le (by simp)

theorem not_sublist_toList {o : Option Moment} : ¬ [b, c].Sublist o.toList := by
  intro h
  have := h.length_le
  cases o <;> simp at this

theorem succeeds_of_sublist_ofExpr {n : Nat} {m : Machine} {e : Expr}
    (h : [b, c].Sublist (Moment.ofExpr n m e)) : b.Succeeds := by
  cases e with
  | literal | «variable» | this | lambda => cases h
  | grouping | unary | assign => exact (not_sublist_singleton h).elim
  | super => exact (not_sublist_toList h).elim
  | binary left operator right =>
    rcases sublist_cons_whenOk h with ⟨rfl, ran⟩ | ⟨_, _, -, h⟩
    · exact ran
    · exact (not_sublist_singleton h).elim
  | logical left operator right =>
    rcases sublist_cons_whenOk h with ⟨rfl, ran⟩ | ⟨_, _, -, h⟩
    · exact ran
    · split at h
      · cases h
      · exact (not_sublist_singleton h).elim
  | call callee paren arguments =>
    rcases sublist_cons_whenOk h with ⟨rfl, ran⟩ | ⟨_, _, -, h⟩
    · exact ran
    rcases sublist_cons_whenOk h with ⟨rfl, ran⟩ | ⟨_, _, -, h⟩
    · exact ran
    · split at h
      · exact (not_sublist_singleton h).elim
      · cases h
  | get object name =>
    rcases sublist_cons_whenOk h with ⟨rfl, ran⟩ | ⟨_, _, -, h⟩
    · exact ran
    · split at h
      · exact (not_sublist_toList h).elim
      · cases h
  | set object name value =>
    rcases sublist_cons_whenOk h with ⟨rfl, ran⟩ | ⟨_, _, -, h⟩
    · exact ran
    · split at h
      · exact (not_sublist_singleton h).elim
      · cases h

theorem succeeds_of_sublist_ofStmt {n : Nat} {m : Machine} {s : Stmt}
    (h : [b, c].Sublist (Moment.ofStmt n m s)) : b.Succeeds := by
  cases s with
  | expression | print | block | whileLoop => exact (not_sublist_singleton h).elim
  | var _ initializer | returnFrom _ initializer =>
    cases initializer with
    | none => cases h
    | some e => exact (not_sublist_singleton h).elim
  | breakLoop | function => cases h
  | classDecl name superclass methods =>
    cases superclass with
    | none => cases h
    | some use => exact (not_sublist_singleton h).elim
  | ifElse condition thenBranch elseBranch =>
    rcases sublist_cons_whenOk h with ⟨rfl, ran⟩ | ⟨_, _, -, h⟩
    · exact ran
    · exact (not_sublist_toList h).elim

/-- A moment that has another after it, in the course of a third, succeeds. -/
theorem succeeds_of_sublist (h : [b, c].Sublist a.children) : b.Succeeds := by
  obtain ⟨task, m⟩ := a
  cases task with
  | evaluate n e =>
    cases n with
    | zero => cases h
    | succ n => exact succeeds_of_sublist_ofExpr h
  | evaluateAll n es =>
    cases es with
    | nil => cases h
    | cons e es =>
      -- Of two moments the second is among what comes after the first, if that succeeds.
      rcases sublist_cons_whenOk h with ⟨rfl, ran⟩ | ⟨_, _, -, h⟩
      · exact ran
      · exact (not_sublist_singleton h).elim
  | execute n s =>
    cases n with
    | zero => cases h
    | succ n => exact succeeds_of_sublist_ofStmt h
  | executeAll n ss =>
    cases ss with
    | nil => cases h
    | cons s ss =>
      rcases sublist_cons_whenOk h with ⟨rfl, ran⟩ | ⟨flow, _, -, h⟩
      · exact ran
      · cases flow with
        | normal => exact (not_sublist_singleton h).elim
        | _ => cases h
  | repeatWhile n condition body rounds =>
    cases rounds with
    | zero => cases h
    | succ rounds =>
      rcases sublist_cons_whenOk h with ⟨rfl, ran⟩ | ⟨_, _, -, h⟩
      · exact ran
      split at h
      · rcases sublist_cons_whenOk h with ⟨rfl, ran⟩ | ⟨flow, _, -, h⟩
        · exact ran
        · cases flow with
          | normal => exact (not_sublist_singleton h).elim
          | _ => cases h
      · cases h
  | invoke n callee arguments =>
    cases callee with
    | function => exact (not_sublist_singleton h).elim
    | cls d =>
      cases found : d.initializer? with
      | none =>
        rw [Moment.children, found] at h
        cases h
      | some method =>
        rw [Moment.children, found] at h
        rcases sublist_cons_whenOk h with ⟨rfl, ran⟩ | ⟨_, _, -, h⟩
        · exact ran
        · exact (not_sublist_singleton h).elim
    | _ => cases h
  | call => exact (not_sublist_singleton h).elim
  | bind => cases h

namespace Moment

/-- In the course of a third moment, the first has ended when the second begins. -/
def Earlier (o a b : Moment) : Prop := ∃ p a' b', ReflTransGen Begins o p ∧
  [a', b'].Sublist p.children ∧ ReflTransGen Begins a' a ∧ ReflTransGen Begins b' b

variable {o : Moment}

theorem Earlier.succeeds (h : o.Earlier a b) : a.Succeeds := by
  obtain ⟨p, a', b', -, sub, course, -⟩ := h
  exact succeeds_of_course course (succeeds_of_sublist sub)

theorem Earlier.before {s : Session} {history : List Entry} (h : o.Earlier a b)
    (happens : s.Happens history o) : s.Before history a b := by
  obtain ⟨p, a', b', inside, sub, left, right⟩ := h
  exact ((Session.Before.children (happens.course inside) sub).left_course left).right_course right

/-- Of two moments in the course of a third one comes in the course of the other, or one has ended
when the other begins. -/
theorem order_of_course (ha : ReflTransGen Begins o a) (hb : ReflTransGen Begins o b) :
    ReflTransGen Begins a b ∨ ReflTransGen Begins b a ∨ o.Earlier a b ∨ o.Earlier b a := by
  suffices ∀ p, ReflTransGen Begins o p → ReflTransGen Begins p a → ReflTransGen Begins p b →
      ReflTransGen Begins a b ∨ ReflTransGen Begins b a ∨ o.Earlier a b ∨ o.Earlier b a from
    this o .refl ha hb
  intro p inside ha hb
  induction ha using ReflTransGen.head_induction_on with
  | refl => exact .inl hb
  | @head p a' begins ha ih =>
    rcases hb.cases_head with rfl | ⟨b', begins', hb⟩
    · exact .inr (.inl (ha.head begins))
    rcases eq_or_sublist (Moment.mem_children.mpr begins) (Moment.mem_children.mpr begins') with
      rfl | first | last
    · exact ih (inside.tail begins) hb
    · exact .inr (.inr (.inl ⟨p, a', b', inside, first, ha, hb⟩))
    · exact .inr (.inr (.inr ⟨p, b', a', inside, last, hb, ha⟩))

end Moment

end Lox
