import Staging.Graph.Basic
import Staging.Spread

/-! # Neighbours and reachability

One step along connections, and all that any number of steps reaches. The nodes
of a scope are those reached from its endpoints along connections in either
direction.
-/

namespace Staging

namespace Graph

def successors (graph : Graph) (id : NodeId) : NodeSet :=
  match graph.nodes[id]? with
  | some node => HandleSet.gather node.outputs fun output =>
    .of ((graph.targets output).toList.filterMap graph.inputOwner?)
  | none => ∅

def predecessors (graph : Graph) (id : NodeId) : NodeSet :=
  match graph.nodes[id]? with
  | some node => HandleSet.gather node.inputs fun input =>
    .of ((graph.sources input).toList.filterMap graph.outputOwner?)
  | none => ∅

/-- The output ports of a node that feed something. -/
def connectedOutputs (graph : Graph) (node : Node) : List OutputId :=
  node.outputs.filter fun output => !(graph.targets output).isEmpty

/-- What surrounds a node. -/
structure Neighbours where
  successors : NodeSet
  predecessors : NodeSet
  connectedOutputs : List OutputId

/-- What surrounds a node that exists. -/
def neighbours (graph : Graph) (id : NodeId) : Except Fault Neighbours := do
  let node ← graph.node id
  return ⟨graph.successors id, graph.predecessors id, graph.connectedOutputs node⟩

/-- The node exists and is a stage or shuffle boundary. -/
def isBoundary (graph : Graph) (id : NodeId) : Bool :=
  graph.nodes[id]?.any Node.isBoundary

def isStageBoundary (graph : Graph) (id : NodeId) : Bool :=
  graph.nodes[id]?.any Node.isStageBoundary

def isShuffleBoundary (graph : Graph) (id : NodeId) : Bool :=
  graph.nodes[id]?.any Node.isShuffleBoundary

def isIdentity (graph : Graph) (id : NodeId) : Bool :=
  graph.nodes[id]?.any Node.isIdentity

/-- The start and all that `step` reaches from it. Each round finds a new node
of the graph or is the last one. -/
def reach (graph : Graph) (step : NodeId → NodeSet) (start : NodeSet) : NodeSet :=
  spread step graph.nodes.size ∅ start

/-- The nodes of a scope whose endpoints exist. -/
def members (graph : Graph) (scope : Scope) : Except Fault NodeSet := do
  graph.checkNodes scope.endpoints
  return graph.reach (fun id => graph.successors id ∪ graph.predecessors id)
    (.of scope.endpoints)

def rootMembers (graph : Graph) : Except Fault NodeSet :=
  graph.members graph.root

def boundariesOf (graph : Graph) (ids : NodeSet) : NodeSet :=
  ids.filter graph.isBoundary

/-- The flow parts among the nodes, each with its scope. -/
def flowPartsOf (graph : Graph) (ids : NodeSet) : List (NodeId × Scope) :=
  ids.toList.filterMap fun id =>
    match graph.nodes[id]?.map Node.kind with
    | some (.flowPart scope) => some (id, scope)
    | _ => none

/-- The scope of a flow part; any other node has none. -/
def scopeOf (graph : Graph) (id : NodeId) : Except Fault Scope := do
  match (← graph.node id).kind with
  | .flowPart scope => return scope
  | _ => return {}

end Graph

end Staging
