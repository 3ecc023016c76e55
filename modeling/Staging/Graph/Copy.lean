import Staging.Graph.Reach

/-! # Copies

Nodes are copied together with the scopes of the flow parts among them. The
copies are connected with each other as the copied nodes were; connections that
leave the copied nodes are left out. A nested scope is copied before the flow
part that owns it, so that the scope of the copied part lists copies.
-/

namespace Staging

open Std

/-- Which handle has been copied to which. -/
structure CopyMap where
  nodes : HandleMap .node NodeId := ∅
  inputs : HandleMap .input InputId := ∅
  outputs : HandleMap .output OutputId := ∅

namespace Graph

/-- The groups of nodes to copy for a group, innermost scopes first and the
group itself last. Nesting ends within as many levels as there are nodes. -/
def copyGroups (graph : Graph) : (levels : Nat) → NodeSet → Except Fault (List NodeSet)
  | 0, _ => .error .endlessNesting
  | levels + 1, group => do
      graph.checkNodes group.toList
      let scopes ← (graph.flowPartsOf group).mapM fun (_, scope) => graph.members scope
      let nested ← scopes.reverse.mapM (graph.copyGroups levels)
      return nested.reverse.flatten ++ [group]

/-- The scope with its endpoints replaced by their copies. -/
def copiedScope (copies : HandleMap .node NodeId) (scope : Scope) : Scope :=
  { inputs := scope.inputs.filterMap (copies[·]?), outputs := scope.outputs.filterMap (copies[·]?) }

def copiedKind (copies : HandleMap .node NodeId) : Kind → Kind
  | .flowPart scope => .flowPart (copiedScope copies scope)
  | kind => kind

/-- Copies one node without its connections. -/
def copyNode (state : CopyMap × Graph) (id : NodeId) : CopyMap × Graph :=
  let (map, graph) := state
  match graph.nodes[id]? with
  | none => state
  | some node =>
    let decl := graph.declaration node
    let (copy, grown) := graph.create { decl with kind := copiedKind map.nodes decl.kind }
    match grown.nodes[copy]? with
    | none => state
    | some copied =>
      ({ nodes := map.nodes.insert id copy
         inputs := map.inputs.insertMany (node.inputs.zip copied.inputs)
         outputs := map.outputs.insertMany (node.outputs.zip copied.outputs) }, grown)

/-- Connects the copies of one output port with the copies of its targets. -/
def copyConnections (map : CopyMap) (graph : Graph) (ports : OutputId × OutputId) : Graph :=
  (graph.targets ports.1).toList.foldl (fun graph target =>
    match map.inputs[target]? with
    | some input => graph.insertConnection ports.2 input
    | none => graph) graph

/-- Copies the nodes of the groups, group by group, and then their connections. -/
def copyAll (graph : Graph) (groups : List NodeSet) : CopyMap × Graph :=
  let (map, grown) := (groups.flatMap ExtTreeSet.toList).foldl copyNode ({}, graph)
  (map, map.outputs.toList.foldl (copyConnections map) grown)

/-- Copies nodes that exist, with all that is nested in them. -/
def copy (graph : Graph) (ids : NodeSet) : Except Fault (CopyMap × Graph) := do
  return graph.copyAll (← graph.copyGroups (graph.nodes.size + 1) ids)

end Graph

end Staging
