import Staging.Block.Merge
import Staging.Block.Unification
import Staging.Plan.Dependency
import Staging.Stage

/-! # Merging and numbering stages

Stages with the same distance do not wait for each other. If they also agree in
having reduce blocks or not, they can be merged into one stage, in which each
node is planned once. In the end stages are numbered in the order in which they
run.
-/

namespace Staging

namespace Stage

/-- For each stage the places of the other stages that feed it. -/
def dependencies (stages : List Stage) (wiring : Wiring) : Except Fault Dependencies := do
  let feeding ← stages.mapM fun stage => stage.predecessorBlocks wiring
  return feeding.zipIdx.map fun (blocks, place) =>
    (List.range stages.length).filter fun other =>
      other ≠ place && (stages[other]?).any fun stage => blocks.toList.any stage.contains

/-- Merges blocks into one, in which each node is planned once; no blocks give
no block. -/
def mergeBlocks (blocks : List Block) (site : Site) : Except Fault (List Block × Site) :=
  if blocks.isEmpty then .ok ([], site)
  else do
    let (block, _, wiring) ← Block.merge site blocks
    let unified ← Placed.unify ⟨site.graph, wiring, block⟩
    let placed ← unified.compact
    return ([placed.block], ⟨placed.graph, placed.wiring⟩)

/-- Merges stages into one; a stage alone stays as it is. -/
def mergeStages (stages : List Stage) (site : Site) : Except Fault (List Stage × Site) :=
  match stages with
  | [] => .ok ([], site)
  | [stage] => .ok ([stage], site)
  | stages => do
      let (maps, site) ← mergeBlocks (stages.flatMap Stage.maps) site
      let (reduces, site) ← mergeBlocks (stages.flatMap Stage.reduces) site
      return ([{ maps, reduces }], site)

/-- The stages of one kind and one distance together, first those without
reduce blocks, and of one kind by distance. -/
def buckets (stages : List Stage) (distances : List Nat) : List (List Stage) :=
  [false, true].flatMap fun kind => (List.range stages.length).map fun distance =>
    ((stages.zip distances).filter fun (stage, away) =>
      stage.hasReduce == kind && away == distance).map Prod.fst

/-- Merges the stages of one kind and one distance. -/
def mergeAll (stages : List Stage) (site : Site) : Except Fault (List Stage × Site) := do
  let distances ← (← dependencies stages site.wiring).distances
  (buckets stages distances).foldlM (fun (merged, site) bucket => do
    let (stages, site) ← mergeStages bucket site
    return (merged ++ stages, site)) ([], site)

/-- The stages in the order in which they run, numbered from one. -/
def ordered (stages : List Stage) (wiring : Wiring) : Except Fault (List Stage) := do
  let order := (← dependencies stages wiring).order
  return (order.filterMap (stages[·]?)).zipIdx.map fun (stage, place) =>
    { stage with number := some (place + 1) }

end Stage

end Staging
