import Bourse.Attempt

/-!
# Running attempts

An attempt is opened by running it: lemmas such as `run_bind` and `run_focus` say what
each of its parts comes to from a given state, at a fault as much as without one. The
operations of books, desks and engines are opened with them once, each into an equation of
its own, and after that nobody looks at their text again. What only matters in both
outcomes alike is said of the `outcome` of an attempt.
-/

namespace Bourse

namespace Attempt

variable {σ τ α β : Type}

theorem run_bind (act : Attempt σ α) (next : α → Attempt σ β) (s : σ) :
    (act >>= next) s =
      match act s with
      | .ok a s' => next a s'
      | .error f s' => .error f s' := by
  change EStateM.bind act next s = _
  unfold EStateM.bind
  cases act s <;> rfl

@[simp] theorem run_pure (a : α) (s : σ) : (pure a : Attempt σ α) s = .ok a s := rfl

@[simp] theorem run_get (s : σ) : (get : Attempt σ σ) s = .ok s s := rfl

@[simp] theorem run_modify (change : σ → σ) (s : σ) :
    (modify change : Attempt σ PUnit) s = .ok ⟨⟩ (change s) := rfl

@[simp] theorem run_modifyGet (change : σ → α × σ) (s : σ) :
    (modifyGet change : Attempt σ α) s = .ok (change s).1 (change s).2 := rfl

@[simp] theorem run_lift_ok (a : α) (s : σ) : (lift (.ok a) : Attempt σ α) s = .ok a s := rfl

theorem run_focus (part : σ) (put : σ → τ) (act : Attempt σ α) (t : τ) :
    focus part put act t =
      match act part with
      | .ok a s => .ok a (put s)
      | .error f s => .error f (put s) := rfl

theorem outcome_ok {act : Attempt σ α} {a : α} {s s' : σ} (h : act s = .ok a s') :
    outcome act s = (.ok a, s') := by
  rw [outcome, h]

theorem outcome_error {act : Attempt σ α} {f : Fault} {s s' : σ} (h : act s = .error f s') :
    outcome act s = (.error f, s') := by
  rw [outcome, h]

/-- What holds of the state in both outcomes holds of the state in `outcome`. -/
theorem outcome_state {P : σ → Prop} {act : Attempt σ α} {s : σ}
    (h : match act s with
      | .error _ s' | .ok _ s' => P s') : P (outcome act s).2 := by
  unfold outcome
  cases hrun : act s with
  | error f s' =>
      rw [hrun] at h
      exact h
  | ok a s' =>
      rw [hrun] at h
      exact h

/-! ## What an attempt keeps -/

/-- What holds of the state before the attempt holds afterwards, also if it stops at a fault;
`keeps_bind` puts it together. -/
def Keeps (P : σ → Prop) (act : Attempt σ α) : Prop := ∀ s, P s → P (outcome act s).2

section Keeps

variable {P : σ → Prop}

theorem keeps_pure (a : α) : Keeps P (pure a : Attempt σ α) := fun _ h => h

theorem keeps_get : Keeps P (get : Attempt σ σ) := fun _ h => h

theorem keeps_violate (v : Violation) : Keeps P (violate v : Attempt σ α) := fun _ h => h

theorem keeps_modify {change : σ → σ} (h : ∀ s, P s → P (change s)) :
    Keeps P (modify change : Attempt σ PUnit) := h

theorem keeps_bind {act : Attempt σ α} {next : α → Attempt σ β} (h : Keeps P act)
    (hnext : ∀ a, Keeps P (next a)) : Keeps P (act >>= next) := by
  intro s hs
  have hact := h s hs
  unfold outcome
  rw [run_bind]
  cases hrun : act s with
  | error f s' =>
      rw [outcome_error hrun] at hact
      exact hact
  | ok a s' =>
      rw [outcome_ok hrun] at hact
      exact hnext a s' hact

end Keeps

end Attempt

section Map

variable {ε α β : Type} {r : Except ε α} {g : α → β}

theorem map_eq_ok {b : β} : r.map g = .ok b ↔ ∃ a, r = .ok a ∧ g a = b := by
  cases r <;> simp [Except.map]

theorem map_eq_error {x : ε} : r.map g = .error x ↔ r = .error x := by
  cases r <;> simp [Except.map]

end Map

theorem orFault_eq_ok {α : Type} {r : Except ArithmeticError α} {a : α} :
    orFault r = .ok a ↔ r = .ok a := by
  cases r <;> simp [orFault]

end Bourse
