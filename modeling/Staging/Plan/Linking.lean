import Staging.Plan.Regions

/-! # Linking regions

A block input is linked with the block outputs that feed it in the graph. Where
the port that feeds it belongs to a boundary that no region wraps, the search
goes on behind that boundary.
-/

namespace Staging

/-- For each output port the block outputs that wrap it, each with the input
ports that it is meant to feed. -/
abbrev Producers := HandleMap .output (List (BlockOutputId × InputSet))

namespace Regions

/-- The block outputs of all regions by the ports that they wrap. -/
def producers (regions : Regions) (wiring : Wiring) : Producers :=
  (regions.all.flatMap fun region => region.outputs.filterMap fun exit => do
    let port ← wiring.outputPort? exit
    let targets ← region.targets[exit]?
    return (port, exit, targets)).foldl
      (fun producers (port, exit, targets) =>
        producers.insert port (producers.getD port [] ++ [(exit, targets)])) ∅

end Regions

namespace Producers

/-- The block outputs that carry data from an output port to an input port. -/
def between (producers : Producers) (output : OutputId) (input : InputId) : List BlockOutputId :=
  (producers.getD output []).filterMap fun (exit, targets) =>
    if targets.contains input then some exit else none

/-- The input ports of unwrapped boundaries that feed an input port. -/
def behind (producers : Producers) (graph : Graph) (input : InputId) : InputSet :=
  HandleSet.gather (graph.sources input).toList fun output =>
    if (producers.between output input).isEmpty then
      match (graph.outputOwner? output).bind (graph.nodes[·]?) with
      | some node => if node.isBoundary then .of node.inputs else ∅
      | none => ∅
    else ∅

/-- The block outputs that feed an input port, directly or across unwrapped
boundaries. -/
def feeding (producers : Producers) (graph : Graph) (input : InputId) : List BlockOutputId :=
  (spread (producers.behind graph) graph.inputs.size ∅ (.of [input])).toList.flatMap fun port =>
    (graph.sources port).toList.flatMap fun output => producers.between output port

end Producers

namespace Regions

/-- Links every block input of the regions with the block outputs that feed it. -/
def link (regions : Regions) (graph : Graph) (wiring : Wiring) : Wiring :=
  let producers := regions.producers wiring
  let entries := regions.all.flatMap fun region => region.inputs
  let links := entries.flatMap fun entry =>
    match wiring.inputPort? entry with
    | some port => (Producers.feeding producers graph port).map fun exit => (exit, entry)
    | none => []
  links.foldl (fun wiring (exit, entry) => wiring.insertLink exit entry) wiring

end Regions

end Staging
