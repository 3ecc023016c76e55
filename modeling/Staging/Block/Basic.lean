import Staging.Graph.Copy
import Staging.Wiring

/-! # Regions and blocks

A region is a selection of nodes of the working graph with the ports through
which data enters and leaves it. Regions may overlap. A block has nodes of its
own: detaching a region copies its nodes and lets its block ports wrap the
ports of the copies, and the block remembers what each copy was made of.
-/

namespace Staging

open Std

/-- What regions and blocks have in common: nodes and block ports in order. -/
structure BlockFrame where
  id : BlockId
  nodes : NodeSet
  inputs : List BlockInputId
  outputs : List BlockOutputId

/-- Nodes of the working graph. Each block output knows the input ports that it
is meant to feed, because overlapping regions wrap one port more than once. -/
structure Region extends BlockFrame where
  targets : HandleMap .blockOutput InputSet

/-- Nodes that belong to no other block, each with the node it is a copy of. -/
structure Block extends BlockFrame where
  origins : HandleMap .node NodeId

/-- A graph and a wiring over its ports. -/
structure Site where
  graph : Graph
  wiring : Wiring := {}

namespace Site

/-- The block input exists and wraps a port of a shuffle. -/
def isShuffled (site : Site) (entry : BlockInputId) : Except Fault Bool := do
  let wrapped ← site.wiring.input entry
  let port ← site.graph.input wrapped.port
  return site.graph.isShuffleBoundary port.owner

end Site

namespace BlockFrame

def isEmpty (frame : BlockFrame) : Bool :=
  frame.nodes.isEmpty

def size (frame : BlockFrame) : Nat :=
  frame.nodes.size + frame.inputs.length + frame.outputs.length

/-- Something has been taken out of it. Compaction and unification only take
out, so this tells whether they changed anything. -/
def hasShrunk (before after : BlockFrame) : Bool :=
  after.size < before.size

/-- It runs on the reduce side of a shuffle. Its first input tells, because all
of its inputs agree. -/
def isReduce (frame : BlockFrame) (site : Site) : Except Fault Bool :=
  match frame.inputs with
  | [] => .ok false
  | entry :: _ => site.isShuffled entry

/-- The block inputs that wrap a port. -/
def entriesOf (frame : BlockFrame) (wiring : Wiring) (port : InputId) : List BlockInputId :=
  frame.inputs.filter fun entry => wiring.inputPort? entry == some port

def exitsOf (frame : BlockFrame) (wiring : Wiring) (port : OutputId) : List BlockOutputId :=
  frame.outputs.filter fun exit => wiring.outputPort? exit == some port

end BlockFrame

namespace Region

/-- The input ports all belong to shuffles, or none of them does. -/
def checkUniform (graph : Graph) (ports : InputSet) : Except Fault Unit := do
  let shuffled ← ports.toList.mapM fun port => do
    return graph.isShuffleBoundary (← graph.input port).owner
  if shuffled.all id || shuffled.all not then return
  else .error (.mixedEntries ports)

/-- A region of the given nodes that is entered and left through the given
ports. Block ports are made for the input ports and then for the output ports,
in ascending order. -/
def ofPorts (site : Site) (nodes : NodeSet) (inputs : InputSet)
    (outputs : HandleMap .output InputSet) : Except Fault (Region × Wiring) := do
  checkUniform site.graph inputs
  let (id, wiring) := site.wiring.newBlock
  let (entries, wiring) := wiring.addInputs id inputs.toList
  let (exits, wiring) := wiring.addOutputs id outputs.keys
  return ({ id, nodes, inputs := entries, outputs := exits,
            targets := ExtTreeMap.ofList (exits.zip (outputs.toList.map Prod.snd)) }, wiring)

/-- Gives the nodes of a region to a block of their copies. Links stay, and
every block port wraps the copy of the port that it wrapped. -/
def detach (region : Region) (site : Site) : Except Fault (Block × Site) := do
  let (map, graph) ← site.graph.copy region.nodes
  let wiring ← region.inputs.foldlM (fun wiring entry => do
    let port := (← wiring.input entry).port
    match map.inputs[port]? with
    | some copy => return wiring.repointInput entry copy
    | none => .error (.strayInput entry port region.id)) site.wiring
  let wiring ← region.outputs.foldlM (fun wiring exit => do
    let port := (← wiring.output exit).port
    match map.outputs[port]? with
    | some copy => return wiring.repointOutput exit copy
    | none => .error (.strayOutput exit port region.id)) wiring
  let block : Block :=
    { id := region.id, nodes := .of (map.nodes.toList.map Prod.snd), inputs := region.inputs,
      outputs := region.outputs,
      origins := ExtTreeMap.ofList (map.nodes.toList.map fun (node, copy) => (copy, node)) }
  return (block, ⟨graph, wiring⟩)

end Region

namespace Block

def predecessors (block : Block) (wiring : Wiring) : Except Fault BlockSet := do
  wiring.checkInputs block.inputs
  return HandleSet.gather block.inputs fun entry =>
    .of ((wiring.sources entry).toList.filterMap fun exit =>
      wiring.outputs[exit]?.map BlockOutput.block)

def successors (block : Block) (wiring : Wiring) : Except Fault BlockSet := do
  wiring.checkOutputs block.outputs
  return HandleSet.gather block.outputs fun exit =>
    .of ((wiring.targets exit).toList.filterMap fun entry =>
      wiring.inputs[entry]?.map BlockInput.block)

/-- Some block input that a block feeds belongs to a shuffle. Block outputs are
looked at in order, up to the first one that tells. -/
def feedsReduce (block : Block) (site : Site) : Except Fault Bool :=
  block.outputs.anyM fun exit => do
    (← site.wiring.output exit).links.toList.anyM site.isShuffled

end Block

end Staging
