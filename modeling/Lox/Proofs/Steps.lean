/-!
# Steps in a row

How a step with state and errors ends when it is made of two.
-/

namespace Lox

variable {ε σ α β : Type} {p : EStateM ε σ α} {f : α → EStateM ε σ β} {s mid after : σ}

theorem bind_apply (p : EStateM ε σ α) (f : α → EStateM ε σ β) (s : σ) :
    (p >>= f) s = match p s with
      | .ok a after => f a after
      | .error e after => .error e after := by
  change EStateM.bind p f s = _
  unfold EStateM.bind
  cases p s <;> rfl

theorem get_bind (f : σ → EStateM ε σ β) (s : σ) : (get >>= f) s = f s s := rfl

theorem bind_of_ok {a : α} (h : p s = .ok a mid) : (p >>= f) s = f a mid := by rw [bind_apply, h]

theorem bind_of_error {e : ε} (h : p s = .error e mid) : (p >>= f) s = .error e mid := by
  rw [bind_apply, h]

theorem bind_ok {b : β} (h : (p >>= f) s = .ok b after) :
    ∃ a mid, p s = .ok a mid ∧ f a mid = .ok b after := by
  rw [bind_apply] at h
  cases hp : p s with
  | ok a mid => exact ⟨a, mid, rfl, by rwa [hp] at h⟩
  | error e mid => rw [hp] at h; cases h

/-- Two steps in a row do what two others do that go the same way. -/
theorem bind_eq_bind {p' : EStateM ε σ α} {f' : α → EStateM ε σ β} (first : p' s = p s)
    (rest : ∀ a mid, p s = .ok a mid → f' a mid = f a mid) : (p' >>= f') s = (p >>= f) s := by
  rw [bind_apply, bind_apply, first]
  cases h : p s with
  | ok a mid => exact rest a mid h
  | error e mid => rfl

theorem map_ok {g : α → β} {b : β} (h : (g <$> p) s = .ok b after) :
    ∃ a, p s = .ok a after ∧ g a = b := by
  change EStateM.map g p s = _ at h
  unfold EStateM.map at h
  cases hp : p s with
  | ok a mid => rw [hp] at h; cases h; exact ⟨a, rfl, rfl⟩
  | error e mid => rw [hp] at h; cases h

theorem map_of_ok {g : α → β} {a : α} (h : p s = .ok a after) : (g <$> p) s = .ok (g a) after := by
  change EStateM.map g p s = _
  rw [EStateM.map, h]

/-- The state that a step leaves behind, whichever way the step ends. -/
def stateAfter (p : EStateM ε σ α) (s : σ) : σ :=
  match p s with
  | .ok _ s => s
  | .error _ s => s

theorem stateAfter_ok {a : α} (h : p s = .ok a after) : stateAfter p s = after := by
  simp only [stateAfter, h]

theorem stateAfter_error {e : ε} (h : p s = .error e after) : stateAfter p s = after := by
  simp only [stateAfter, h]

/-- Wherever a step begins, what it leaves behind is related to what it found. -/
def Respects (R : σ → σ → Prop) (p : EStateM ε σ α) : Prop := ∀ s, R s (stateAfter p s)

variable {R : σ → σ → Prop}

theorem Respects.bind (trans : ∀ {s₁ s₂ s₃}, R s₁ s₂ → R s₂ s₃ → R s₁ s₃) (hp : Respects R p)
    (hf : ∀ a, Respects R (f a)) : Respects R (p >>= f) := by
  intro s
  have first := hp s
  unfold stateAfter at first ⊢
  rw [bind_apply]
  cases hps : p s with
  | ok a after =>
    rw [hps] at first
    exact trans first (hf a after)
  | error e after =>
    rw [hps] at first
    exact first

theorem Respects.of_ok (hp : Respects R p) {a : α} (h : p s = .ok a after) : R s after := by
  have := hp s
  rwa [stateAfter_ok h] at this

end Lox
