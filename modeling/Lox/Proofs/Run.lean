import Lox.Proofs.Steps
import Lox.Session

/-!
# Runs

What a run of statements did before it stopped.
-/

namespace Lox

theorem interpret_append_ok {ss ts : List Stmt} {m after : Machine}
    (h : interpret (ss ++ ts) m = .ok () after) :
    ∃ mid, interpret ss m = .ok () mid ∧ interpret ts mid = .ok () after := by
  induction ss generalizing m with
  | nil => exact ⟨m, rfl, h⟩
  | cons s ss ih =>
    obtain ⟨flow, next, first, h⟩ := bind_ok h
    obtain ⟨mid, ran, rest⟩ := ih h
    exact ⟨mid, (bind_of_ok first).trans ran, rest⟩

theorem interpret_append {ss : List Stmt} {m mid : Machine} (h : interpret ss m = .ok () mid)
    (ts : List Stmt) : interpret (ss ++ ts) m = interpret ts mid := by
  induction ss generalizing m with
  | nil =>
    cases h
    rfl
  | cons s ss ih =>
    obtain ⟨flow, next, first, rest⟩ := bind_ok h
    exact (bind_of_ok first).trans (ih rest)

/-- Statements run up to the end, or up to one that stops with an error. -/
theorem interpret_split (ss : List Stmt) (m : Machine) :
    ∃ done rest mid, ss = done ++ rest ∧ interpret done m = .ok () mid ∧
      ((rest = [] ∧ interpret ss m = .ok () mid) ∨
        ∃ s rest' a after, rest = s :: rest' ∧ s.execute mid = .error a after ∧
          interpret ss m = .error a after) := by
  induction ss generalizing m with
  | nil => exact ⟨[], [], m, rfl, rfl, .inl ⟨rfl, rfl⟩⟩
  | cons s ss ih =>
    cases first : s.execute m with
    | error a after =>
      refine ⟨[], s :: ss, m, rfl, rfl, .inr ⟨s, ss, a, after, rfl, first, ?_⟩⟩
      exact bind_of_error first
    | ok flow next =>
      have whole (ts : List Stmt) : interpret (s :: ts) m = interpret ts next :=
        bind_of_ok first
      obtain ⟨done, rest, mid, rfl, ran, ends⟩ := ih next
      exact ⟨s :: done, rest, mid, rfl, by rw [whole, ran], by rw [whole]; exact ends⟩

end Lox
