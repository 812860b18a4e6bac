import Bourse.Violation

/-!
# Attempts

An attempt works on a state and may stop at a fault. A fault does not undo
anything: whatever the attempt had changed by then stays changed, and who runs
it decides what to do about that. `focus` runs an attempt on a part of a larger
state and keeps this property.
-/

namespace Bourse

/-- A computation on a state `σ` that may stop at a fault, keeping the state it had reached. -/
abbrev Attempt (σ α : Type) := EStateM Fault σ α

namespace Attempt

variable {σ τ α : Type}

/-- Runs an attempt on `part`; `put` makes the whole state of what it leaves. -/
def focus (part : σ) (put : σ → τ) (act : Attempt σ α) : Attempt τ α := fun _ =>
  match act part with
  | .ok a s => .ok a (put s)
  | .error e s => .error e (put s)

/-- Stops at a `Violation`. -/
def violate (v : Violation) : Attempt σ α := throw (.violation v)

/-- Takes a result that needs no state, or stops at its fault. -/
def lift : Except Fault α → Attempt σ α
  | .ok a => pure a
  | .error e => throw e

/-- What came out: the answer or the fault, and the state either way. -/
def outcome (act : Attempt σ α) (s : σ) : Except Fault α × σ :=
  match act s with
  | .ok a s' => (.ok a, s')
  | .error e s' => (.error e, s')

theorem focus_ok {part s : σ} {put : σ → τ} {act : Attempt σ α} {a : α}
    (h : act part = .ok a s) (t : τ) : focus part put act t = .ok a (put s) := by
  simp [focus, h]

end Attempt

end Bourse
