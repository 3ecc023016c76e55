import Staging.Fault

/-! # Dependencies between stages

Stages are given by their places in a list, and for each the places of the
stages that feed it. The distance of a stage is the length of the longest chain
of stages that leads to it, and it is found after those of the stages that feed
it. Stages run in an order in which those that feed a stage come before it.
-/

namespace Staging

/-- For each stage the places of the stages that feed it, in ascending order. -/
abbrev Dependencies := List (List Nat)

namespace Dependencies

def feeding (dependencies : Dependencies) (stage : Nat) : List Nat :=
  dependencies.getD stage []

/-- One more than the largest of the distances, or zero if there are none. -/
def beyond (distances : List Nat) : Nat :=
  distances.foldl (fun longest distance => max longest (distance + 1)) 0

/-- Looks at the waiting stages in turn. A stage whose feeding stages all have
distances gets its own; any other goes back to the end of the line. If all that
wait have gone back since a distance was found, they wait for each other. -/
def settle (dependencies : Dependencies) (known : List (Option Nat)) (idle : Nat) :
    (waiting : List Nat) → Except Fault (List (Option Nat))
  | [] => .ok known
  | stage :: waiting =>
    let feeding := (dependencies.feeding stage).map (known.getD · none)
    if feeding.all Option.isSome then
      dependencies.settle (known.set stage (some (beyond (feeding.filterMap id)))) 0 waiting
    else if idle ≤ waiting.length then dependencies.settle known (idle + 1) (waiting ++ [stage])
    else .error .cyclicStages
termination_by waiting => waiting.length * (waiting.length + 2) + (waiting.length + 1 - idle)
decreasing_by
  · simp only [List.length_cons, Nat.succ_mul, Nat.mul_add]
    omega
  · rw [List.length_append, List.length_singleton, List.length_cons]
    omega

def distances (dependencies : Dependencies) : Except Fault (List Nat) := do
  let places := dependencies.length
  return (← dependencies.settle (List.replicate places none) 0 (List.range places)).filterMap id

/-- The stages met so far, and those of them that are done, in the order in
which they were done. -/
structure Visit where
  met : List Nat := []
  done : List Nat := []

/-- Visits a stage after the stages that feed it, of which the last is visited
first. -/
def visit (dependencies : Dependencies) : (depth : Nat) → Visit → Nat → Visit
  | 0, state, _ => state
  | depth + 1, state, stage =>
    if stage ∈ state.met then state
    else
      let after := (dependencies.feeding stage).reverse.foldl (visit dependencies depth)
        { state with met := stage :: state.met }
      { after with done := after.done ++ [stage] }

/-- All stages, each after the stages that feed it. No visit goes deeper than
there are stages. -/
def order (dependencies : Dependencies) : List Nat :=
  ((List.range dependencies.length).foldl (dependencies.visit (dependencies.length + 1)) {}).done

end Dependencies

end Staging
