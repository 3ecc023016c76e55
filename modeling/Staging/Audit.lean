import Staging.Plan.Basic

/-! # Audits

Properties that plans and normalized graphs are checked for. For each of them a
function gives the first violation it finds. Not every plan is free of violations.
-/

namespace Staging

namespace Plan

/-- A link that does not go to a later stage, though it leaves a stage. -/
def linkViolation? (plan : Plan) (link : BlockOutputId × BlockInputId) : Option Violation := do
  let source ← plan.wiring.outputs[link.1]?
  let target ← plan.wiring.inputs[link.2]?
  let before ← plan.stageIndex? source.block
  let after ← plan.stageIndex? target.block
  let earlier ← (← plan.stages[before]?).number
  let later ← (← plan.stages[after]?).number
  if before = after ∨ earlier < later then none
  else some (.backwardLink link.1 link.2 earlier later)

/-- Links between stages go to later stages. -/
def stageOrderViolation? (plan : Plan) : Option Violation :=
  plan.wiring.links.findSome? plan.linkViolation?

/-- No node is in two blocks. -/
def sharingViolation? (plan : Plan) : Option Violation :=
  let owned := plan.blocks.flatMap fun block => block.nodes.toList.map fun node => (node, block.id)
  owned.zipIdx.findSome? fun ((node, block), place) => do
    return .sharedNode node (← (owned.take place).lookup node) block

/-- A block input of a reduce block that does not belong to a shuffle. -/
def plainEntryViolation? (plan : Plan) (block : Block) : Option Violation :=
  block.inputs.findSome? fun entry => do
    let port ← plan.wiring.inputPort? entry
    let owner ← plan.graph.inputOwner? port
    let node ← plan.graph.nodes[owner]?
    if node.isShuffleBoundary then none else some (.plainEntry block.id node.name)

/-- A map block that is a reduce block. -/
def misplacedViolation? (plan : Plan) (stage : Stage) (block : Block) : Option Violation :=
  match block.isReduce plan.site with
  | .ok true => some (.misplacedReduce (stage.number.getD 0) block.id)
  | _ => none

/-- Reduce blocks are fed through shuffles only and kept apart from map blocks. -/
def reducePurityViolation? (plan : Plan) : Option Violation :=
  plan.stages.findSome? fun stage =>
    (stage.reduces.findSome? plan.plainEntryViolation?).or
      (stage.maps.findSome? (plan.misplacedViolation? stage))

/-- Every operator of the root scope of a graph is in some block of the plan,
by its name. -/
def operatorsViolation? (plan : Plan) (source : Graph) : Except Fault (Option Violation) := do
  let planned := (plan.blocks.flatMap fun block => block.nodes.toList).filterMap fun id =>
    plan.graph.nodes[id]?.map Node.name
  let operators := (((← source.rootMembers).toList.filterMap (source.nodes[·]?)).filter
    Node.isOperator).map Node.name
  let lost := operators.filter fun name => !planned.contains name
  return if lost.isEmpty then none else some (.lostOperators lost)

end Plan

namespace Graph

/-- No shuffle feeds another one directly. -/
def shuffleViolation? (graph : Graph) : Except Fault (Option Violation) := do
  let shuffles := (← graph.rootMembers).toList.filter graph.isShuffleBoundary
  return shuffles.findSome? fun first => do
    let second ← (graph.successors first).toList.find? graph.isShuffleBoundary
    return .shuffleChain (← graph.nodes[first]?).name (← graph.nodes[second]?).name

/-- Every identity has one connection on each side. -/
def identityViolation? (graph : Graph) : Except Fault (Option Violation) := do
  let identities := (← graph.rootMembers).toList.filter graph.isIdentity
  return identities.findSome? fun id => do
    let node ← graph.nodes[id]?
    let sources := (graph.sources (← node.inputs.head?)).size
    let targets := (graph.targets (← node.outputs.head?)).size
    if sources = 1 ∧ targets = 1 then none else some (.fannedIdentity id sources targets)

end Graph

end Staging
