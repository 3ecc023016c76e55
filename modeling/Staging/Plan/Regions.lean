import Staging.Block.Cut

/-! # Cutting a graph into regions

A normalized graph is cut at its boundaries. Each shuffle starts a reduce region, which goes
on to the next boundaries. Map regions lie between stage boundaries, or between a stage
boundary and a shuffle; where two of them share a node they become one region. Two more
regions hold the inputs and the outputs of the whole graph.

Nodes behind a stage boundary that lead to no boundary at all belong to the region of that
boundary. Nodes that no boundary leads to belong to every region that they feed.
-/

namespace Staging

structure Regions where
  input : Region
  output : Region
  reduces : List Region
  maps : List Region

namespace Regions

/-- The regions of the stages: first those of the reduce side. -/
def computing (regions : Regions) : List Region :=
  regions.reduces ++ regions.maps

/-- All regions: the one of the inputs first, the one of the outputs last. -/
def all (regions : Regions) : List Region :=
  regions.input :: regions.computing ++ [regions.output]

end Regions

namespace Graph

/-- The nodes that no boundary leads to without another boundary between. -/
def freeNodes (graph : Graph) (members : NodeSet) : NodeSet :=
  let led := (graph.walkFrom .forward (graph.boundariesOf members)).passings
  members.filter fun id => !graph.isBoundary id && id ∉ led

/-- A span with the free nodes that feed it. -/
def withFree (graph : Graph) (free : NodeSet) (span : Span) : Span :=
  { span with
    passings := span.passings ∪ ((graph.walkFrom .backward span.passings).passings ∩ free) }

/-- What lies between a stage boundary and the next stage boundaries, and what
leads from it to no boundary at all. -/
def stageSpan (graph : Graph) (origin : NodeId) : Span :=
  let forward := graph.walkFrom .forward (.of [origin])
  let stages := forward.arrivals.filter graph.isStageBoundary
  let dangling := forward.passings \ (graph.walkFrom .backward forward.arrivals).passings
  let deadEnds :=
    ((graph.walkFrom .backward dangling).passings ∩ forward.passings) ∪ dangling
  (forward.meet (graph.walkFrom .backward stages)).join
    ⟨.forward, .of [origin], deadEnds, ∅⟩

/-- The spans behind stage boundaries that pass any node. -/
def stageSpans (graph : Graph) (free origins : NodeSet) : List Span :=
  ((origins.toList.map graph.stageSpan).filter fun span => !span.passings.isEmpty).map
    (graph.withFree free)

/-- The spans between stage boundaries and a shuffle that pass any node. -/
def shuffleSpans (graph : Graph) (free : NodeSet) (shuffle : NodeId) : List Span :=
  let backward := graph.walkFrom .backward (.of [shuffle])
  let origins := backward.arrivals.toList.filter graph.isStageBoundary
  let spans := origins.map fun origin => (graph.walkFrom .forward (.of [origin])).meet backward
  (spans.filter fun span => !span.passings.isEmpty).map (graph.withFree free)

/-- The spans of the map regions: first those between stage boundaries. -/
def mapSpans (graph : Graph) (members : NodeSet) : List Span :=
  let free := graph.freeNodes members
  let boundaries := graph.boundariesOf members
  let shuffles := boundaries.filter graph.isShuffleBoundary
  let stages := boundaries.filter fun id => !graph.isShuffleBoundary id
  Span.mergeOverlapping (graph.stageSpans free stages) ++
    shuffles.toList.flatMap fun shuffle =>
      Span.mergeOverlapping (graph.shuffleSpans free shuffle)

def reduceSpans (graph : Graph) (members : NodeSet) : List Span :=
  ((graph.boundariesOf members).filter graph.isShuffleBoundary).toList.map fun shuffle =>
    graph.walkFrom .forward (.of [shuffle])

/-- The output ports of the listed nodes, each with the ports that it feeds. -/
def outgoing (graph : Graph) (ids : List NodeId) : HandleMap .output InputSet :=
  Std.ExtTreeMap.ofList <| (ids.filterMap (graph.nodes[·]?)).flatMap fun node =>
    node.outputs.map fun output => (output, graph.targets output)

/-- The input ports of the listed nodes. -/
def incoming (graph : Graph) (ids : List NodeId) : InputSet :=
  .of ((ids.filterMap (graph.nodes[·]?)).flatMap Node.inputs)

end Graph

namespace Span

def cutEach (spans : List Span) (site : Site) (withStartings : Bool) :
    Except Fault (List Region × Site) :=
  spans.foldlM (fun (regions, site) span => do
    let (region, wiring) ← span.cut site withStartings false
    return (regions ++ [region], { site with wiring })) ([], site)

end Span

/-- Cuts a normalized graph into regions without links between them. -/
def Graph.cut (graph : Graph) : Except Fault (Regions × Wiring) := do
  let members ← graph.rootMembers
  let (reduces, site) ← Span.cutEach (graph.reduceSpans members) { graph } true
  let (maps, site) ← Span.cutEach (graph.mapSpans members) site false
  let (input, wiring) ← Region.ofPorts site (.of graph.root.inputs) ∅
    (graph.outgoing graph.root.inputs)
  let (output, wiring) ← Region.ofPorts ⟨graph, wiring⟩ (.of graph.root.outputs)
    (graph.incoming graph.root.outputs) ∅
  return (⟨input, output, reduces, maps⟩, wiring)

end Staging
