import Staging.Block.Basic

/-! # Compaction of blocks

A block is compacted by removing what does nothing: block ports that repeat another one,
that have no link or that wrap a port of no node of the block, nodes that get no data or
whose data nobody uses, and identities that do what another one does. The steps are repeated
for as long as the block gets smaller.
-/

namespace Staging

open Std

/-- A block, and the graph and the wiring it lies in. -/
structure Placed where
  graph : Graph
  wiring : Wiring
  block : Block

namespace Placed

def size (placed : Placed) : Nat :=
  placed.block.size

/-- The wiring has all ports of the block, and the graph all of its nodes. -/
def check (placed : Placed) : Except Fault Unit := do
  placed.wiring.checkInputs placed.block.inputs
  placed.wiring.checkOutputs placed.block.outputs
  placed.graph.checkNodes placed.block.nodes.toList

def removeInput (placed : Placed) (entry : BlockInputId) : Placed :=
  { placed with
    wiring := placed.wiring.eraseInput entry
    block := { placed.block with
      inputs := placed.block.inputs.filter fun other => other ≠ entry } }

def removeOutput (placed : Placed) (exit : BlockOutputId) : Placed :=
  { placed with
    wiring := placed.wiring.eraseOutput exit
    block := { placed.block with
      outputs := placed.block.outputs.filter fun other => other ≠ exit } }

def removePorts (placed : Placed) (entries : List BlockInputId) (exits : List BlockOutputId) :
    Placed :=
  exits.foldl removeOutput (entries.foldl removeInput placed)

/-- Removes a node and the block ports that wrap its ports. -/
def removeNode (placed : Placed) (id : NodeId) : Placed :=
  match placed.graph.nodes[id]? with
  | none => placed
  | some node =>
    let bare := placed.removePorts
      (node.inputs.flatMap (placed.block.entriesOf placed.wiring))
      (node.outputs.flatMap (placed.block.exitsOf placed.wiring))
    { bare with
      graph := bare.graph.drop id node
      block := { bare.block with
        nodes := bare.block.nodes.erase id, origins := bare.block.origins.erase id } }

/-- Adds the sources of a block input to another one. -/
def moveSources (placed : Placed) (source target : BlockInputId) : Placed :=
  { placed with
    wiring := placed.wiring.insertLinks (placed.wiring.sources source).toList [target] }

def moveTargets (placed : Placed) (source target : BlockOutputId) : Placed :=
  { placed with
    wiring := placed.wiring.insertLinks [target] (placed.wiring.targets source).toList }

/-- Of the block inputs that wrap one port, the first takes over the others. -/
def mergeInputs (placed : Placed) : Placed :=
  (placed.block.inputs.foldl (fun (firsts, placed) entry =>
    match placed.wiring.inputPort? entry with
    | none => (firsts, placed)
    | some port =>
      match firsts[port]? with
      | none => (firsts.insert port entry, placed)
      | some first => (firsts, (placed.moveSources entry first).removeInput entry))
    ((∅ : HandleMap .input BlockInputId), placed)).2

def mergeOutputs (placed : Placed) : Placed :=
  (placed.block.outputs.foldl (fun (firsts, placed) exit =>
    match placed.wiring.outputPort? exit with
    | none => (firsts, placed)
    | some port =>
      match firsts[port]? with
      | none => (firsts.insert port exit, placed)
      | some first => (firsts, (placed.moveTargets exit first).removeOutput exit))
    ((∅ : HandleMap .output BlockOutputId), placed)).2

def removeUnlinked (placed : Placed) : Placed :=
  placed.removePorts
    (placed.block.inputs.filter fun entry => (placed.wiring.sources entry).isEmpty)
    (placed.block.outputs.filter fun exit => (placed.wiring.targets exit).isEmpty)

/-- The input port is neither connected nor wrapped. -/
def isLooseInput (placed : Placed) (wrapped : InputSet) (port : InputId) : Bool :=
  (placed.graph.sources port).isEmpty && !wrapped.contains port

def isLooseOutput (placed : Placed) (wrapped : OutputSet) (port : OutputId) : Bool :=
  (placed.graph.targets port).isEmpty && !wrapped.contains port

/-- The ports that the inputs of the block wrap. -/
def wrappedInputs (placed : Placed) : InputSet :=
  .of (placed.block.inputs.filterMap placed.wiring.inputPort?)

def wrappedOutputs (placed : Placed) : OutputSet :=
  .of (placed.block.outputs.filterMap placed.wiring.outputPort?)

/-- No data gets into the node: none of its inputs is used, or it is a source
that produces nothing. -/
def isUnfed (placed : Placed) (wrapped : InputSet) (node : Node) : Bool :=
  if node.inputs.isEmpty then node.kind == .pseudo .empty
  else node.inputs.all (placed.isLooseInput wrapped)

/-- Nobody uses what the node does. -/
def isUnused (placed : Placed) (wrapped : OutputSet) (node : Node) : Bool :=
  !node.hasMandatoryEffect && node.outputs.all (placed.isLooseOutput wrapped)

/-- The nodes of the block that are no boundaries and get no data or are of no use. -/
def deadNodes (placed : Placed) : List NodeId :=
  let inputs := placed.wrappedInputs
  let outputs := placed.wrappedOutputs
  placed.block.nodes.toList.filter fun id =>
    placed.graph.nodes[id]?.any fun node =>
      !node.isBoundary && (placed.isUnfed inputs node || placed.isUnused outputs node)

/-- Removes dead nodes, and then those that are dead without them. -/
def removeDead (placed : Placed) : Placed :=
  shrink size (fun placed => placed.deadNodes.foldl removeNode placed) placed

/-- Removes the block ports that wrap no port of a node of the block. -/
def removeOrphans (placed : Placed) : Placed :=
  let owns (owner : Option NodeId) : Bool := owner.any fun id => id ∈ placed.block.nodes
  placed.removePorts
    (placed.block.inputs.filter fun entry =>
      !owns ((placed.wiring.inputPort? entry).bind placed.graph.inputOwner?))
    (placed.block.outputs.filter fun exit =>
      !owns ((placed.wiring.outputPort? exit).bind placed.graph.outputOwner?))

/-- An identity that gets data from outside of the block only and feeds nodes of
the block only: its block inputs and the ports that it feeds. -/
def entryIdentity? (placed : Placed) (id : NodeId) :
    Option (NodeId × List BlockInputId × InputSet) := do
  let node ← placed.graph.nodes[id]?
  let input ← node.inputs.head?
  let output ← node.outputs.head?
  let entries := placed.block.entriesOf placed.wiring input
  let targets := placed.graph.targets output
  if node.isIdentity && (placed.graph.sources input).isEmpty && !entries.isEmpty &&
      (placed.block.exitsOf placed.wiring output).isEmpty && !targets.isEmpty then
    return (id, entries, targets)
  else none

/-- Of the identities at the entry of the block that feed the same ports, the
first takes over the others. -/
def mergeIdentities (placed : Placed) : Placed :=
  ((placed.block.nodes.toList.filterMap placed.entryIdentity?).foldl
    (fun (firsts, placed) (id, entries, targets) =>
      match firsts.find? fun (fed, _) => fed == targets, entries with
      | some (_, first), _ =>
        (firsts, (entries.foldl (fun placed entry => placed.moveSources entry first)
          placed).removeNode id)
      | none, first :: _ => (firsts ++ [(targets, first)], placed)
      | none, [] => (firsts, placed))
    (([] : List (InputSet × BlockInputId)), placed)).2

def compactRound (placed : Placed) : Placed :=
  placed.mergeInputs.mergeOutputs.removeUnlinked.removeDead.removeOrphans.mergeIdentities

/-- The nodes of the block all of whose ports are loose. -/
def disconnectedNodes (placed : Placed) : List NodeId :=
  let inputs := placed.wrappedInputs
  let outputs := placed.wrappedOutputs
  placed.block.nodes.toList.filter fun id =>
    placed.graph.nodes[id]?.any fun node =>
      node.inputs.all (placed.isLooseInput inputs) &&
        node.outputs.all (placed.isLooseOutput outputs)

/-- Compacts a block all of whose parts exist. Nodes that are not connected with
anything go with whatever else is removed. -/
def compacted (placed : Placed) : Placed :=
  let reduced := shrink size compactRound placed
  if reduced.size < placed.size then reduced.disconnectedNodes.foldl removeNode reduced
  else placed

def compact (placed : Placed) : Except Fault Placed := do
  placed.check
  return placed.compacted

/-- Compacts a block, and tells whether anything has been taken out of it. -/
def compaction (placed : Placed) : Except Fault (Bool × Placed) := do
  let after ← placed.compact
  return (placed.block.hasShrunk after.block.toBlockFrame, after)

end Placed

namespace Site

/-- Changes blocks of a site one after the other. -/
def changeEach (change : Placed → Except Fault Placed) (site : Site) (blocks : List Block) :
    Except Fault (List Block × Site) :=
  blocks.foldlM (fun (done, site) block => do
    let placed ← change ⟨site.graph, site.wiring, block⟩
    return (done ++ [placed.block], ⟨placed.graph, placed.wiring⟩)) ([], site)

end Site

namespace Block

/-- The number of blocks, and of all their nodes and block ports. -/
def totalSize (blocks : List Block) : Nat :=
  total (fun block => block.size + 1) blocks

/-- Compacts blocks in turn until none of them gets smaller. -/
def compactAll (blocks : List Block) (site : Site) : Except Fault (List Block × Site) :=
  shrinkM (fun (blocks, _) => totalSize blocks)
    (fun (blocks, site) => site.changeEach Placed.compact blocks) (blocks, site)

end Block

end Staging
