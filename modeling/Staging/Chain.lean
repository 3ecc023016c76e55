import Staging.Graph.Build

/-! # Chains

A chain is a graph from one input to one output in which each node feeds the
first input of the next one.
-/

namespace Staging

/-- A chain under construction: its last node, and the type that node produces. -/
structure Chain where
  graph : Graph
  tail : NodeId
  dataType : DataType

namespace Chain

/-- What is appended to a chain. -/
inductive Element where
  /-- A map operator that produces records of a type. -/
  | map (name : String) (produced : DataType)
  /-- A fold of the records with equal keys. -/
  | group (name : String) (keys : List String) (produced : DataType)
  /-- Any node with an input and an output. -/
  | node (decl : NodeDecl)

def start (input : String) (dataType : DataType) : Chain :=
  let (tail, graph) := ({} : Graph).addInput input dataType
  { graph, tail, dataType }

def append (chain : Chain) (decl : NodeDecl) : Except BuildError Chain :=
  match decl.inputs, decl.outputs with
  | [], _ => .error (.inputless decl.name)
  | _ :: _, [] => .error (.outputless decl.name)
  | _ :: _, output :: _ => do
      let (node, graph) ← chain.graph.addNode decl
      let graph ← graph.connectNodes chain.tail 0 node 0
      return { graph, tail := node, dataType := output.dataType }

/-- The node that an element stands for, behind records of a type. -/
def Element.decl (consumed : DataType) : Element → NodeDecl
  | .map name produced =>
    { name, kind := .operator .map, inputs := [{ name := "in", dataType := consumed }],
      outputs := [{ name := "out", dataType := produced }] }
  | .group name keys produced =>
    { name, kind := .operator .fold, boundary := .shuffle,
      inputs := [{ name := "in", dataType := consumed, key := some ⟨keys, []⟩ }],
      outputs := [{ name := "out", dataType := produced }] }
  | .node decl => decl

def add (chain : Chain) (element : Element) : Except BuildError Chain :=
  chain.append (element.decl chain.dataType)

def finish (chain : Chain) (output : String) : Except BuildError Graph :=
  let (sink, graph) := chain.graph.addOutput output chain.dataType
  graph.connectNodes chain.tail 0 sink 0

/-- The graph of a chain of elements between an input and an output. -/
def build (input : String) (dataType : DataType) (elements : List Element) (output : String) :
    Except BuildError Graph := do
  let chain ← elements.foldlM add (start input dataType)
  chain.finish output

end Chain

end Staging
