import Staging.Fault
import Staging.Node

/-! # Graphs

A graph holds all nodes and ports ever created for it and not removed since,
with the connections between the ports. All handles come from one counter, so
that a handle is never used twice. What belongs together is told by scopes: the
root scope and those of the flow parts list endpoints, and the nodes of a scope
are those that can be reached from its endpoints.

Connections are kept at both ends. Every operation here keeps the two ends in
agreement.
-/

namespace Staging

open Std

/-- Nodes and ports with their connections. -/
structure Graph where
  /-- The number of the next handle. -/
  next : Nat := 0
  nodes : HandleMap .node Node := ∅
  inputs : HandleMap .input InputPort := ∅
  outputs : HandleMap .output OutputPort := ∅
  root : Scope := {}

namespace Graph

def node (graph : Graph) (id : NodeId) : Except Fault Node :=
  match graph.nodes[id]? with
  | some node => .ok node
  | none => .error (.absentNode id)

def input (graph : Graph) (port : InputId) : Except Fault InputPort :=
  match graph.inputs[port]? with
  | some record => .ok record
  | none => .error (.absentInput port)

def output (graph : Graph) (port : OutputId) : Except Fault OutputPort :=
  match graph.outputs[port]? with
  | some record => .ok record
  | none => .error (.absentOutput port)

def firstInput (graph : Graph) (id : NodeId) : Except Fault InputId := do
  match (← graph.node id).inputs with
  | port :: _ => .ok port
  | [] => .error (.portless id)

def firstOutput (graph : Graph) (id : NodeId) : Except Fault OutputId := do
  match (← graph.node id).outputs with
  | port :: _ => .ok port
  | [] => .error (.portless id)

/-- The first of the listed nodes that the graph does not have is a fault. -/
def checkNodes (graph : Graph) (ids : List NodeId) : Except Fault Unit :=
  ids.forM fun id => discard (graph.node id)

/-- The output ports that feed an input port. -/
def sources (graph : Graph) (port : InputId) : OutputSet :=
  match graph.inputs[port]? with
  | some record => record.connected
  | none => ∅

def targets (graph : Graph) (port : OutputId) : InputSet :=
  match graph.outputs[port]? with
  | some record => record.connected
  | none => ∅

def inputOwner? (graph : Graph) (port : InputId) : Option NodeId :=
  graph.inputs[port]?.map InputPort.owner

def outputOwner? (graph : Graph) (port : OutputId) : Option NodeId :=
  graph.outputs[port]?.map OutputPort.owner

/-- A new node with the declared ports: its handle is the next one, followed by
those of its inputs and then those of its outputs. -/
def create (graph : Graph) (decl : NodeDecl) : NodeId × Graph :=
  let id : NodeId := ⟨graph.next⟩
  let inputs : List InputId := Handle.consecutive (graph.next + 1) decl.inputs.length
  let outputs : List OutputId :=
    Handle.consecutive (graph.next + 1 + decl.inputs.length) decl.outputs.length
  (id, { graph with
    next := graph.next + 1 + decl.inputs.length + decl.outputs.length
    nodes := graph.nodes.insert id
      { name := decl.name, kind := decl.kind, boundary := decl.boundary,
        observation := decl.observation, inputs, outputs }
    inputs := graph.inputs.insertMany <| inputs.zip <| decl.inputs.map fun port =>
      { owner := id, name := port.name, dataType := port.dataType, key := port.key,
        connected := ∅ }
    outputs := graph.outputs.insertMany <| outputs.zip <| decl.outputs.map fun port =>
      { owner := id, name := port.name, dataType := port.dataType,
        connectivity := port.connectivity, connected := ∅ } })

def insertConnection (graph : Graph) (output : OutputId) (input : InputId) : Graph :=
  { graph with
    outputs := graph.outputs.modify output fun port =>
      { port with connected := port.connected.insert input }
    inputs := graph.inputs.modify input fun port =>
      { port with connected := port.connected.insert output } }

def eraseConnection (graph : Graph) (output : OutputId) (input : InputId) : Graph :=
  { graph with
    outputs := graph.outputs.modify output fun port =>
      { port with connected := port.connected.erase input }
    inputs := graph.inputs.modify input fun port =>
      { port with connected := port.connected.erase output } }

/-- Connects two ports that exist. -/
def link (graph : Graph) (output : OutputId) (input : InputId) : Except Fault Graph := do
  discard (graph.output output)
  discard (graph.input input)
  return graph.insertConnection output input

/-- Connects each of the output ports with each of the input ports. -/
def linkAll (graph : Graph) (outputs : List OutputId) (inputs : List InputId) :
    Except Fault Graph :=
  outputs.foldlM (fun graph output => inputs.foldlM (·.link output ·) graph) graph

/-- The graph without the connections of the listed input ports. -/
def disconnectInputs (graph : Graph) (ports : List InputId) : Graph :=
  ports.foldl (fun graph port =>
    (graph.sources port).toList.foldl (fun graph source => graph.eraseConnection source port)
      graph) graph

def disconnectOutputs (graph : Graph) (ports : List OutputId) : Graph :=
  ports.foldl (fun graph port =>
    (graph.targets port).toList.foldl (fun graph target => graph.eraseConnection port target)
      graph) graph

/-- The graph without a node, its ports and their connections. -/
def drop (graph : Graph) (id : NodeId) (node : Node) : Graph :=
  let loose := (graph.disconnectInputs node.inputs).disconnectOutputs node.outputs
  { loose with
    nodes := loose.nodes.erase id
    inputs := node.inputs.foldl (·.erase ·) loose.inputs
    outputs := node.outputs.foldl (·.erase ·) loose.outputs }

def remove (graph : Graph) (id : NodeId) : Except Fault Graph := do
  return graph.drop id (← graph.node id)

/-- The declaration that creates a node with the same attributes and ports. -/
def declaration (graph : Graph) (node : Node) : NodeDecl :=
  { name := node.name
    kind := node.kind
    boundary := node.boundary
    observation := node.observation
    inputs := node.inputs.filterMap fun port => graph.inputs[port]?.map fun record =>
      { name := record.name, dataType := record.dataType, key := record.key }
    outputs := node.outputs.filterMap fun port => graph.outputs[port]?.map fun record =>
      { name := record.name, dataType := record.dataType, connectivity := record.connectivity } }

end Graph

end Staging
