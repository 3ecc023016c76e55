import Staging.Diagnostic
import Staging.Graph.Splice

/-! # Validation

A graph can be planned if, in the root scope and in all nested scopes, every
input and every mandatory output is connected and no node feeds itself through
others. Validation lists what is wrong, scope by scope, and closes all other
loose outputs with sinks. The sinks change nothing that is checked.
-/

namespace Staging

/-- The nodes of a scope, and the flow part that has it unless it is the root. -/
structure ScopeMembers where
  owner : Option NodeId
  members : NodeSet

namespace Graph

/-- A scope and all scopes nested in it, each before those nested in it, down
to the given number of levels. -/
def scopesWithin (graph : Graph) :
    (levels : Nat) → Option NodeId → Scope → Except Fault (List ScopeMembers)
  | 0, _, _ => .error .endlessNesting
  | levels + 1, owner, scope => do
      let members ← graph.members scope
      let nested ← (graph.flowPartsOf members).mapM fun (part, inner) =>
        graph.scopesWithin levels (some part) inner
      return ⟨owner, members⟩ :: nested.flatten

/-- The root scope and all nested scopes. No nesting is deeper than there are nodes. -/
def scopes (graph : Graph) : Except Fault (List ScopeMembers) :=
  graph.scopesWithin (graph.nodes.size + 1) none graph.root

/-- The unconnected inputs of a node, and then its unconnected mandatory outputs. -/
def portProblems (graph : Graph) (owner : Option NodeId) (id : NodeId) : List Diagnostic :=
  match graph.nodes[id]? with
  | none => []
  | some node =>
    let inputs := (node.inputs.filterMap (graph.inputs[·]?)).filter fun port =>
      port.connected.isEmpty
    let outputs := (node.outputs.filterMap (graph.outputs[·]?)).filter fun port =>
      port.connected.isEmpty && port.connectivity == .mandatory
    (inputs.map fun port =>
      ⟨owner, [id], "unconnected input `" ++ port.name ++ "` of `" ++ node.name ++ "`"⟩) ++
    (outputs.map fun port =>
      ⟨owner, [id],
        "mandatory output `" ++ port.name ++ "` of `" ++ node.name ++ "` is not connected"⟩)

/-- The nodes that a node feeds, directly or through others. -/
def ahead (graph : Graph) (id : NodeId) : NodeSet :=
  graph.reach graph.successors (graph.successors id)

/-- The nodes that feed a node, directly or through others. -/
def behind (graph : Graph) (id : NodeId) : NodeSet :=
  graph.reach graph.predecessors (graph.predecessors id)

/-- The nodes that a node feeds and that feed it, directly or through others. -/
def circuit (graph : Graph) (id : NodeId) : NodeSet :=
  graph.ahead id ∩ graph.behind id

/-- The circuits among the nodes, each by its nodes in ascending order; first
comes the circuit with the smallest node. -/
def circuits (graph : Graph) (members : NodeSet) : List (List NodeId) :=
  members.toList.filterMap fun id =>
    match (graph.circuit id).toList with
    | first :: rest => if first = id then some (first :: rest) else none
    | [] => none

def circuitProblem (graph : Graph) (owner : Option NodeId) (nodes : List NodeId) : Diagnostic :=
  let names := nodes.filterMap fun id => graph.nodes[id]?.map Node.name
  ⟨owner, nodes, "circuit detected: " ++ String.intercalate " -> " names⟩

/-- What is wrong in one scope: loose ports by node, and then circuits. -/
def scopeProblems (graph : Graph) (scope : ScopeMembers) : List Diagnostic :=
  scope.members.toList.flatMap (graph.portProblems scope.owner) ++
    (graph.circuits scope.members).map (graph.circuitProblem scope.owner)

/-- Puts a sink behind an output port that is loose and may be. -/
def closeOutput (graph : Graph) (output : OutputId) : Graph :=
  match graph.outputs[output]? with
  | some port =>
    if port.connected.isEmpty && port.connectivity == .optional then
      (graph.insertSink output port).2
    else graph
  | none => graph

def closeNode (graph : Graph) (id : NodeId) : Graph :=
  match graph.nodes[id]? with
  | some node => node.outputs.foldl closeOutput graph
  | none => graph

/-- What is wrong with a graph, and the graph with its loose optional outputs
closed. -/
def validate (graph : Graph) : Except Fault (List Diagnostic × Graph) := do
  let scopes ← graph.scopes
  return (scopes.flatMap graph.scopeProblems,
    (scopes.flatMap fun scope => scope.members.toList).foldl closeNode graph)

end Graph

end Staging
