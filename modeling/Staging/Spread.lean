import Staging.Handle

/-! # Spreading over handles and shrinking states

Two loops that end for a reason in their data. A search along a step finds new
handles in each round, of which there are finitely many. A reduction is
repeated for as long as it makes its state smaller.
-/

namespace Staging

/-- What is seen, the frontier, and what `step` reaches from the frontier in at
most `rounds` steps. -/
def spread {role : Role} (step : Handle role → HandleSet role) :
    (rounds : Nat) → (seen frontier : HandleSet role) → HandleSet role
  | 0, seen, frontier => seen ∪ frontier
  | rounds + 1, seen, frontier =>
    if frontier.isEmpty then seen
    else
      let known := seen ∪ frontier
      spread step rounds known (HandleSet.gather frontier.toList step \ known)

def total {α : Type} (measure : α → Nat) (items : List α) : Nat :=
  items.foldr (fun item sum => measure item + sum) 0

/-- Repeats a step for as long as it makes the state smaller. -/
def shrink {σ : Type} (size : σ → Nat) (step : σ → σ) (state : σ) : σ :=
  let next := step state
  if size next < size state then shrink size step next else state
termination_by size state

/-- Repeats a step that can fail for as long as it makes the state smaller. -/
def shrinkM {ε σ : Type} (size : σ → Nat) (step : σ → Except ε σ) (state : σ) : Except ε σ :=
  match step state with
  | .error fault => .error fault
  | .ok next => if size next < size state then shrinkM size step next else .ok state
termination_by size state

/-- A step that ends a repetition does not make the state smaller. -/
theorem size_step_shrink {σ : Type} (size : σ → Nat) (step : σ → σ) (state : σ) :
    ¬ size (step (shrink size step state)) < size (shrink size step state) := by
  fun_induction shrink size step state with
  | case1 _ _ _ ih => exact ih
  | case2 _ _ stable => exact stable

/-- Repetition never makes the state larger. -/
theorem size_shrink_le {σ : Type} (size : σ → Nat) (step : σ → σ) (state : σ) :
    size (shrink size step state) ≤ size state := by
  fun_induction shrink size step state with
  | case1 _ _ smaller ih => exact Nat.le_trans ih (Nat.le_of_lt smaller)
  | case2 => exact Nat.le_refl _

end Staging
