import Staging.Block.Bypass

/-! # Stages

A stage is one unit of execution: map blocks and, if the stage shuffles, the
reduce blocks that they feed. Stages are numbered from one in the order in
which they run.
-/

namespace Staging

/-- Map blocks, and the reduce blocks that they shuffle into. -/
structure Stage where
  maps : List Block
  reduces : List Block
  number : Option Nat := none

namespace Stage

/-- The map blocks and then the reduce blocks. -/
def blocks (stage : Stage) : List Block :=
  stage.maps ++ stage.reduces

/-- A block of the stage has this handle. -/
def contains (stage : Stage) (id : BlockId) : Bool :=
  stage.blocks.any fun block => block.id == id

def hasReduce (stage : Stage) : Bool :=
  !stage.reduces.isEmpty

/-- There is nothing to run. -/
def isEmpty (stage : Stage) : Bool :=
  stage.reduces.isEmpty && stage.maps.all fun block => block.isEmpty

/-- The number of a stage that has been ordered. -/
def checkedNumber (stage : Stage) : Except Fault Nat :=
  match stage.number with
  | some number => .ok number
  | none => .error .unnumberedStage

/-- The blocks of other stages, and outside of all stages, that feed a stage. -/
def predecessorBlocks (stage : Stage) (wiring : Wiring) : Except Fault BlockSet := do
  let fed ← stage.blocks.mapM fun block => block.predecessors wiring
  return (HandleSet.gather fed id).filter fun block => !stage.contains block

/-- The number of map blocks, and of all their nodes and block ports. -/
def size (stage : Stage) : Nat :=
  Block.totalSize stage.maps

/-- Something has been taken out of a stage, which tells whether compaction
changed anything. -/
def hasShrunk (before after : Stage) : Bool :=
  after.size < before.size

/-- Bypasses identities in map blocks, and drops the blocks that end up empty. -/
def bypassRound (state : List Block × Site) : Except Fault (List Block × Site) := do
  let (blocks, site) ← state.2.changeEach Placed.bypass state.1
  return (blocks.filter fun block => !block.isEmpty, site)

/-- Compacts a stage without reduce blocks, until nothing can be bypassed. A
stage with reduce blocks stays as it is. -/
def compact (stage : Stage) (site : Site) : Except Fault (Stage × Site) :=
  if stage.hasReduce then .ok (stage, site)
  else do
    let (maps, site) ← shrinkM (fun (blocks, _) => Block.totalSize blocks) bypassRound
      (stage.maps, site)
    return ({ stage with maps }, site)

/-- Compacts a stage, and tells whether anything has been taken out of it. -/
def compaction (stage : Stage) (site : Site) : Except Fault (Bool × Stage × Site) := do
  let (after, site) ← stage.compact site
  return (stage.hasShrunk after, after, site)

def compactRound (state : List Stage × Site) : Except Fault (List Stage × Site) :=
  state.1.foldlM (fun (done, site) stage => do
    let (stage, site) ← stage.compact site
    return (done ++ [stage], site)) ([], state.2)

/-- Compacts stages in turn until none of them gets smaller, and drops those in
which there is nothing to run. -/
def compactAll (stages : List Stage) (site : Site) : Except Fault (List Stage × Site) := do
  let (stages, site) ← shrinkM (fun (stages, _) => total size stages) compactRound
    (stages, site)
  return (stages.filter fun stage => !stage.isEmpty, site)

end Stage

end Staging
