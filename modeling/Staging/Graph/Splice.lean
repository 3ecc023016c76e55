import Staging.Graph.Reach

/-! # Splices

Nodes without logic of the user are put on connections, split and taken out
again, and flow parts are replaced by what is in them. The types at both ends
of a new connection are those of the connections that it replaces.
-/

namespace Staging

namespace Graph

/-- Declares a node that passes records of one type on. -/
def passage (name : String) (pseudo : Pseudo) (boundary : Boundary) (dataType : DataType) :
    NodeDecl :=
  { name, kind := .pseudo pseudo, boundary, inputs := [{ name := "in", dataType }],
    outputs := [{ name := "out", dataType }] }

/-- Declares a node that swallows records of one type. -/
def sink (name : String) (dataType : DataType) : NodeDecl :=
  { name, kind := .pseudo .implicitSink, inputs := [{ name := "in", dataType }] }

/-- A node with one input port and one output port. -/
structure Passage where
  node : NodeId
  input : InputId
  output : OutputId

/-- Creates a node that is declared with one input and one output. -/
def createPassage (graph : Graph) (decl : NodeDecl) : Passage × Graph :=
  let (node, grown) := graph.create decl
  (⟨node, ⟨graph.next + 1⟩, ⟨graph.next + 2⟩⟩, grown)

/-- The name of a node, and of one of its ports after a hyphen. -/
def portName (graph : Graph) (owner : NodeId) (port : String) : String :=
  (graph.nodes[owner]?.map Node.name).getD "" ++ "-" ++ port

/-- Puts a new node between an output port and some of its targets. -/
def insertPassage (graph : Graph) (output : OutputId) (port : OutputPort) (moved : List InputId)
    (pseudo : Pseudo) (boundary : Boundary) : NodeId × Graph :=
  let name := graph.portName port.owner port.name
  let (between, grown) := graph.createPassage (passage name pseudo boundary port.dataType)
  let moved := moved.foldl (fun graph target =>
    (graph.eraseConnection output target).insertConnection between.output target) grown
  (between.node, moved.insertConnection output between.input)

def insertCheckpoint (graph : Graph) (output : OutputId) : Except Fault (NodeId × Graph) := do
  let port ← graph.output output
  return graph.insertPassage output port port.connected.toList .checkpoint .stage

def insertIdentity (graph : Graph) (output : OutputId) : Except Fault (NodeId × Graph) := do
  let port ← graph.output output
  return graph.insertPassage output port port.connected.toList .identity .none

def insertIdentityBetween (graph : Graph) (output : OutputId) (input : InputId) :
    Except Fault (NodeId × Graph) := do
  let port ← graph.output output
  if input ∈ port.connected then return graph.insertPassage output port [input] .identity .none
  else .error (.unconnected output input)

def insertSink (graph : Graph) (output : OutputId) (port : OutputPort) : NodeId × Graph :=
  let name := graph.portName port.owner port.name ++ "-sink"
  let (node, grown) := graph.create (sink name port.dataType)
  (node, grown.insertConnection output ⟨graph.next + 1⟩)

/-- Ends an output port in a sink. -/
def stop (graph : Graph) (output : OutputId) : Except Fault (NodeId × Graph) := do
  return graph.insertSink output (← graph.output output)

/-- Replaces an identity with several connections on a side by one identity for
each pair of a source and a target. An identity with at most one connection on
each side stays, and nothing is created. -/
def splitIdentity (graph : Graph) (id : NodeId) : Except Fault (List NodeId × Graph) := do
  let node ← graph.node id
  match node.isIdentity, node.inputs, node.outputs with
  | true, input :: _, output :: _ =>
    let port ← graph.input input
    let sources := port.connected.toList
    let targets := (graph.targets output).toList
    if sources.length ≤ 1 ∧ targets.length ≤ 1 then return ([], graph)
    let decl := { passage node.name .identity .none port.dataType with
      observation := node.observation }
    let pairs := sources.flatMap fun source => targets.map fun target => (source, target)
    let (copies, grown) := pairs.foldl (fun (copies, graph) (source, target) =>
      let (copy, grown) := graph.createPassage decl
      (copies ++ [copy.node],
        (grown.insertConnection source copy.input).insertConnection copy.output target))
      (([] : List NodeId), graph)
    return (copies, ← grown.remove id)
  | _, _, _ => .error (.notIdentity id)

/-- Removes a node and connects each of its sources with each of its targets. -/
def skip (graph : Graph) (id : NodeId) : Except Fault Graph := do
  let node ← graph.node id
  let sources := node.inputs.flatMap fun input => (graph.sources input).toList
  let targets := node.outputs.flatMap fun output => (graph.targets output).toList
  (graph.drop id node).linkAll sources targets

/-- Replaces an inner endpoint of a flow part by a node between what feeds and
what is fed across that end. -/
def seam (graph : Graph) (name : String) (dataType : DataType) (boundary : Boundary)
    (sources : OutputSet) (targets : InputSet) (inner : NodeId) :
    Except Fault (NodeId × Graph) := do
  let pseudo := if boundary = .stage then .checkpoint else .identity
  let (between, grown) := graph.createPassage (passage name pseudo boundary dataType)
  let fed := sources.toList.foldl (·.insertConnection · between.input) grown
  let joined := targets.toList.foldl (·.insertConnection between.output ·) fed
  return (between.node, ← joined.remove inner)

def inputSeam (graph : Graph) (part : Node) (boundary : Boundary) (port : InputId)
    (inner : NodeId) : Except Fault (NodeId × Graph) := do
  let outer ← graph.input port
  let output ← graph.firstOutput inner
  graph.seam (part.name ++ "." ++ outer.name) outer.dataType boundary outer.connected
    (graph.targets output) inner

def outputSeam (graph : Graph) (part : Node) (boundary : Boundary) (port : OutputId)
    (inner : NodeId) : Except Fault (NodeId × Graph) := do
  let outer ← graph.output port
  let input ← graph.firstInput inner
  graph.seam (part.name ++ "." ++ outer.name) outer.dataType boundary (graph.sources input)
    outer.connected inner

/-- Replaces a flow part by the content of its scope, with a seam for each of
its ports. Seams that are stage boundaries are kept and returned; others are
skipped. -/
def inlineFlowPart (graph : Graph) (id : NodeId) (boundary : Boundary) :
    Except Fault (List NodeId × Graph) := do
  if boundary = .shuffle then .error .shufflingSeam
  let part ← graph.node id
  match part.kind with
  | .flowPart scope =>
    let (entries, graph) ← (part.inputs.zip scope.inputs).foldlM
      (fun (seams, graph) (port, inner) => do
        let (seam, graph) ← graph.inputSeam part boundary port inner
        return (seams ++ [seam], graph)) (([] : List NodeId), graph)
    let (exits, graph) ← (part.outputs.zip scope.outputs).foldlM
      (fun (seams, graph) (port, inner) => do
        let (seam, graph) ← graph.outputSeam part boundary port inner
        return (seams ++ [seam], graph)) (([] : List NodeId), graph)
    let graph ← graph.remove id
    if boundary = .none then return ([], ← (entries ++ exits).foldlM skip graph)
    return (entries ++ exits, graph)
  | _ => .error (.notFlowPart id)

end Graph

end Staging
