import Staging.Stage

/-! # Grouping blocks into stages

Reduce blocks that are fed by a common map block run in one stage with all map
blocks that feed them. Every other map block is a stage of its own.
-/

namespace Staging

/-- Reduce blocks, and the map blocks that feed any of them. -/
structure ReduceGroup where
  feeders : BlockSet
  members : List Block

namespace ReduceGroup

/-- Adds a reduce block to groups that share no map block: those that share one
with it become one group with it. -/
def absorb (groups : List ReduceGroup) (group : ReduceGroup) : List ReduceGroup :=
  let (touching, apart) := groups.partition fun other =>
    !HandleSet.disjoint other.feeders group.feeders
  apart ++ [touching.foldl (fun united other =>
    ⟨united.feeders ∪ other.feeders, united.members ++ other.members⟩) group]

/-- The stage of a group; its map blocks come in the order of their handles. -/
def stage (feeding : HandleMap .block Block) (group : ReduceGroup) : Stage :=
  { maps := group.feeders.toList.filterMap (feeding[·]?), reduces := group.members }

end ReduceGroup

namespace Block

/-- Divides blocks into those that pass a test and the others. -/
def divide (test : Block → Except Fault Bool) (blocks : List Block) :
    Except Fault (List Block × List Block) :=
  blocks.foldlM (fun (passing, others) block => do
    if ← test block then return (passing ++ [block], others)
    else return (passing, others ++ [block])) ([], [])

/-- The stages of blocks: first the map blocks that feed no reduce block, each
alone, then the groups, and then what is left. -/
def group (blocks : List Block) (site : Site) : Except Fault (List Stage) := do
  let (reduces, maps) ← divide (fun block => block.isReduce site) blocks
  let (feeding, plain) ← divide (fun block => block.feedsReduce site) maps
  let feeding : HandleMap .block Block := .ofList (feeding.map fun block => (block.id, block))
  let groups ← reduces.foldlM (fun groups block => do
    let feeders := (← block.predecessors site.wiring).filter fun id => feeding.contains id
    return ReduceGroup.absorb groups ⟨feeders, [block]⟩) []
  let used := HandleSet.gather groups ReduceGroup.feeders
  let left := feeding.toList.filter fun (id, _) => id ∉ used
  return (plain.map fun block => { maps := [block], reduces := [] }) ++
    groups.map (ReduceGroup.stage feeding) ++
    left.map fun (_, block) => { maps := [block], reduces := [] }

end Block

end Staging
