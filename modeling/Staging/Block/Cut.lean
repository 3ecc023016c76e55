import Staging.Block.Basic
import Staging.Span

/-! # Regions along spans

A region is cut out of the graph along a forward span. It holds the nodes that
the span passes and, if wanted, the nodes at which the span starts or arrives.
-/

namespace Staging

namespace Span

/-- The nodes of a region along a span. -/
def content (span : Span) (withStartings withArrivals : Bool) : NodeSet :=
  span.passings ∪ (if withStartings then span.startings else ∅) ∪
    (if withArrivals then span.arrivals else ∅)

/-- The ports through which data enters the content behind a starting node: the
node's own inputs if it is part of the content, and otherwise the ports of the
content that it feeds. -/
def entryPorts (graph : Graph) (content : NodeSet) (included : Bool) (start : NodeId) : InputSet :=
  match graph.nodes[start]? with
  | none => ∅
  | some node =>
    if included then .of node.inputs
    else HandleSet.gather node.outputs fun output =>
      (graph.targets output).filter fun input =>
        (graph.inputOwner? input).any fun owner => owner ∈ content

/-- The ports through which data leaves the content for an arrival node, each
with a set of ports that it feeds: the node's own outputs if it is part of the
content, and otherwise the ports of the content that feed it. -/
def exitPorts (graph : Graph) (content : NodeSet) (included : Bool) (arrival : NodeId) :
    List (OutputId × InputSet) :=
  match graph.nodes[arrival]? with
  | none => []
  | some node =>
    if included then node.outputs.map fun output => (output, graph.targets output)
    else node.inputs.flatMap fun input =>
      ((graph.sources input).toList.filter fun output =>
        (graph.outputOwner? output).any fun owner => owner ∈ content).map fun output =>
          (output, .of [input])

def addTargets (outputs : HandleMap .output InputSet) (entry : OutputId × InputSet) :
    HandleMap .output InputSet :=
  outputs.insert entry.1 (outputs.getD entry.1 ∅ ∪ entry.2)

/-- The region along a forward span, which must have some content. -/
def cut (span : Span) (site : Site) (withStartings withArrivals : Bool) :
    Except Fault (Region × Wiring) := do
  if span.direction = .backward then .error .backwardCut
  if !withStartings && !withArrivals && span.passings.isEmpty then
    .error (.emptyCut span.startings span.arrivals)
  site.graph.checkNodes span.startings.toList
  site.graph.checkNodes span.arrivals.toList
  let content := span.content withStartings withArrivals
  let inputs := HandleSet.gather span.startings.toList
    (entryPorts site.graph content withStartings)
  let outputs := (span.arrivals.toList.flatMap
    (exitPorts site.graph content withArrivals)).foldl addTargets ∅
  Region.ofPorts site content inputs outputs

end Span

end Staging
