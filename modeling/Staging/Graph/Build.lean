import Staging.Graph.Basic

/-! # Building graphs

Users add inputs, outputs, operators and flow parts to a graph and connect
their ports. A step that is refused leaves the graph as it was.
-/

namespace Staging

/-- Why a step of building a graph is refused. -/
inductive BuildError where
  | unsuitedKind (name : String) (kind : Kind)
  | notFlowPart (name : String)
  | unknownOutput (port : OutputId)
  | unknownInput (port : InputId)
  | unlikeTypes (output : OutputId) (given : DataType) (input : InputId) (wanted : DataType)
  | noOutputAt (node : NodeId) (index : Nat)
  | noInputAt (node : NodeId) (index : Nat)
  | inputless (name : String)
  | outputless (name : String)
deriving DecidableEq

def BuildError.message : BuildError → String
  | .unsuitedKind name kind =>
    "node " ++ Text.quoted name ++ " of kind " ++ kind.describe ++
      " cannot be added with add_node"
  | .notFlowPart name => "node " ++ Text.quoted name ++ " is not a flow part"
  | .unknownOutput port => "output port " ++ port.text ++ " not found"
  | .unknownInput port => "input port " ++ port.text ++ " not found"
  | .unlikeTypes output given input wanted =>
    "type mismatch connecting " ++ output.text ++ " (" ++ given.name ++ ") to " ++ input.text ++
      " (" ++ wanted.name ++ ")"
  | .noOutputAt node index => "node " ++ node.text ++ " has no output port #" ++ toString index
  | .noInputAt node index => "node " ++ node.text ++ " has no input port #" ++ toString index
  | .inputless name => "node " ++ Text.quoted name ++ " has no input"
  | .outputless name => "node " ++ Text.quoted name ++ " has no output"

namespace Graph

/-- An endpoint where data enters, with the output port `out`. -/
def entry (name : String) (dataType : DataType) : NodeDecl :=
  { name, kind := .input, outputs := [{ name := "out", dataType }] }

/-- An endpoint where data leaves, with the input port `in`. -/
def exit (name : String) (dataType : DataType) : NodeDecl :=
  { name, kind := .output, inputs := [{ name := "in", dataType }] }

def addInput (graph : Graph) (name : String) (dataType : DataType) : NodeId × Graph :=
  let (id, grown) := graph.create (entry name dataType)
  (id, { grown with root := { grown.root with inputs := grown.root.inputs ++ [id] } })

def addOutput (graph : Graph) (name : String) (dataType : DataType) : NodeId × Graph :=
  let (id, grown) := graph.create (exit name dataType)
  (id, { grown with root := { grown.root with outputs := grown.root.outputs ++ [id] } })

def createAll (graph : Graph) (decls : List NodeDecl) : List NodeId × Graph :=
  decls.foldl (fun (ids, graph) decl =>
    let (id, grown) := graph.create decl
    (ids ++ [id], grown)) ([], graph)

end Graph

/-- A step of building: it has a result or is refused, and leaves a graph either way. -/
def Edit (α : Type) : Type :=
  Graph → Except BuildError α × Graph

namespace Edit

/-- The result with the graph that is left, unless the step is refused. -/
def build {α : Type} (edit : Edit α) (graph : Graph) : Except BuildError (α × Graph) :=
  let answer := edit graph
  answer.1.map (·, answer.2)

/-- Why the step is refused, if it is, and the graph that is left. -/
def attempt {α : Type} (edit : Edit α) (graph : Graph) : Option BuildError × Graph :=
  match edit graph with
  | (.ok _, left) => (none, left)
  | (.error reason, left) => (some reason, left)

/-- Adds an operator or a pseudo node. -/
def addNode (decl : NodeDecl) : Edit NodeId := fun graph =>
  match decl.kind with
  | .operator _ | .pseudo _ =>
    let (id, graph) := graph.create decl
    (.ok id, graph)
  | kind => (.error (.unsuitedKind decl.name kind), graph)

/-- Adds a flow part together with the endpoints of its scope, one for each of
its ports, with the name and the type of that port. -/
def addFlowPart (decl : NodeDecl) : Edit NodeId := fun graph =>
  match decl.kind with
  | .flowPart _ =>
    let (inputs, graph) := graph.createAll
      (decl.inputs.map fun port => Graph.entry port.name port.dataType)
    let (outputs, graph) := graph.createAll
      (decl.outputs.map fun port => Graph.exit port.name port.dataType)
    let (id, graph) := graph.create { decl with kind := .flowPart { inputs, outputs } }
    (.ok id, graph)
  | _ => (.error (.notFlowPart decl.name), graph)

/-- Connects an output port with an input port of the same type. -/
def connect (output : OutputId) (input : InputId) : Edit Unit := fun graph =>
  match graph.outputs[output]?, graph.inputs[input]? with
  | none, _ => (.error (.unknownOutput output), graph)
  | some _, none => (.error (.unknownInput input), graph)
  | some source, some target =>
    if source.dataType = target.dataType then (.ok (), graph.insertConnection output input)
    else (.error (.unlikeTypes output source.dataType input target.dataType), graph)

/-- Connects an output of one node with an input of another, each by its place. -/
def connectNodes (source : NodeId) (outputIndex : Nat) (target : NodeId) (inputIndex : Nat) :
    Edit Unit := fun graph =>
  let output? := graph.nodes[source]?.bind fun node => node.outputs[outputIndex]?
  let input? := graph.nodes[target]?.bind fun node => node.inputs[inputIndex]?
  match output?, input? with
  | none, _ => (.error (.noOutputAt source outputIndex), graph)
  | some _, none => (.error (.noInputAt target inputIndex), graph)
  | some output, some input => connect output input graph

end Edit

namespace Graph

def addNode (graph : Graph) (decl : NodeDecl) : Except BuildError (NodeId × Graph) :=
  (Edit.addNode decl).build graph

def addFlowPart (graph : Graph) (decl : NodeDecl) : Except BuildError (NodeId × Graph) :=
  (Edit.addFlowPart decl).build graph

def connect (graph : Graph) (output : OutputId) (input : InputId) : Except BuildError Graph :=
  ((Edit.connect output input).build graph).map Prod.snd

def connectNodes (graph : Graph) (source : NodeId) (outputIndex : Nat) (target : NodeId)
    (inputIndex : Nat) : Except BuildError Graph :=
  ((Edit.connectNodes source outputIndex target inputIndex).build graph).map Prod.snd

variable {G grown : Graph} {decl : NodeDecl} {id : NodeId}

/-- What adding a node creates. -/
theorem of_addNode (added : G.addNode decl = .ok (id, grown)) : decl.kind ≠ .input ∧
    decl.kind ≠ .output ∧ (∀ scope, decl.kind ≠ .flowPart scope) ∧
      G.create decl = (id, grown) := by
  simp only [addNode, Edit.build, Edit.addNode] at added
  split at added
  · next kind =>
    cases added
    simp [kind]
  · next kind =>
    cases added
    simp [kind]
  · cases added

/-- What adding a flow part creates. -/
theorem of_addFlowPart (added : G.addFlowPart decl = .ok (id, grown)) :
    let entries := G.createAll (decl.inputs.map fun port => entry port.name port.dataType)
    let exits := entries.2.createAll (decl.outputs.map fun port => exit port.name port.dataType)
    exits.2.create { decl with kind := .flowPart ⟨entries.1, exits.1⟩ } = (id, grown) := by
  simp only [addFlowPart, Edit.build, Edit.addFlowPart] at added
  split at added
  · cases added
    rfl
  · cases added

/-- Connected ports belong to nodes. -/
theorem of_connect {output : OutputId} {input : InputId}
    (connected : G.connect output input = .ok grown) : ∃ source target,
      G.outputOwner? output = some source ∧ G.inputOwner? input = some target ∧
        grown = G.insertConnection output input := by
  simp only [connect, Edit.build, Edit.connect] at connected
  split at connected
  · cases connected
  · cases connected
  · next source target got got' =>
    refine ⟨source.owner, target.owner, by simp [outputOwner?, got],
      by simp [inputOwner?, got'], ?_⟩
    split at connected
    · cases connected
      rfl
    · cases connected

/-- Nodes are connected by ports of theirs. -/
theorem of_connectNodes {source target : NodeId} {outputIndex inputIndex : Nat}
    (connected : G.connectNodes source outputIndex target inputIndex = .ok grown) :
    ∃ output input, G.connect output input = .ok grown := by
  simp only [connectNodes, Edit.build, Edit.connectNodes] at connected
  split at connected
  · cases connected
  · cases connected
  · next output input _ _ => exact ⟨output, input, connected⟩

end Graph

end Staging
