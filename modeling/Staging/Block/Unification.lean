import Staging.Block.Compaction

/-! # Unification of copies

Blocks that were detached one by one can hold copies of one node. Once they are
merged, the first copy takes over the connections and the block ports of the
others.
-/

namespace Staging

namespace Placed

/-- Moves what feeds an input port, from inside and from outside of the block,
to another port. -/
def moveInput (placed : Placed) (ports : InputId × InputId) : Placed :=
  { placed with
    graph := (placed.graph.sources ports.1).toList.foldl (·.insertConnection · ports.2)
      placed.graph
    wiring := (placed.block.entriesOf placed.wiring ports.1).foldl (·.repointInput · ports.2)
      placed.wiring }

/-- Moves what an output port feeds, inside and outside of the block, to another
port. -/
def moveOutput (placed : Placed) (ports : OutputId × OutputId) : Placed :=
  { placed with
    graph := (placed.graph.targets ports.1).toList.foldl (·.insertConnection ports.2 ·)
      placed.graph
    wiring := (placed.block.exitsOf placed.wiring ports.1).foldl (·.repointOutput · ports.2)
      placed.wiring }

/-- Lets a node take over the ports of a copy, port by port, and drops the copy. -/
def foldCopy (placed : Placed) (kept : Node) (copy : NodeId) (node : Node) : Placed :=
  let moved := (node.outputs.zip kept.outputs).foldl moveOutput
    ((node.inputs.zip kept.inputs).foldl moveInput placed)
  { moved with
    graph := moved.graph.drop copy node
    block := { moved.block with
      nodes := moved.block.nodes.erase copy, origins := moved.block.origins.erase copy } }

/-- Looks at a copy: the first one of a node is kept, and a later one is folded
into it. -/
def unifyCopy (state : HandleMap .node NodeId × Placed) (entry : NodeId × NodeId) :
    Except Fault (HandleMap .node NodeId × Placed) := do
  let (firsts, placed) := state
  let (copy, origin) := entry
  if copy ∉ placed.block.nodes then return state
  match firsts[origin]? with
  | none => return (firsts.insert origin copy, placed)
  | some first =>
    let kept ← placed.graph.node first
    let node ← placed.graph.node copy
    if !(node.inputs.zip kept.inputs).isEmpty then placed.wiring.checkInputs placed.block.inputs
    if !(node.outputs.zip kept.outputs).isEmpty then
      placed.wiring.checkOutputs placed.block.outputs
    return (firsts, placed.foldCopy kept copy node)

/-- Folds the copies of each node into one, and merges the block ports that then
wrap one port. -/
def unify (placed : Placed) : Except Fault Placed := do
  let (_, placed) ← placed.block.origins.toList.foldlM unifyCopy (∅, placed)
  placed.wiring.checkInputs placed.block.inputs
  placed.wiring.checkOutputs placed.block.outputs
  return placed.mergeInputs.mergeOutputs

/-- Folds copies, and tells whether anything has been taken out of the block. -/
def unification (placed : Placed) : Except Fault (Bool × Placed) := do
  let after ← placed.unify
  return (placed.block.hasShrunk after.block.toBlockFrame, after)

end Placed

end Staging
