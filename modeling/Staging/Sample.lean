import Staging.Chain

/-! # Sample graphs

Small graphs that each show one feature of planning.
-/

namespace Staging.Sample

/-- An input connected straight with an output. -/
def trivial : Except BuildError Graph :=
  Chain.build "in" ⟨"Record"⟩ [] "out"

/-- Two operators in a row without a boundary between them. -/
def linearMap : Except BuildError Graph :=
  Chain.build "in" ⟨"Line"⟩
    [.map "parse" ⟨"Record"⟩,
      .node { name := "clean", kind := .operator .filter,
              inputs := [{ name := "in", dataType := ⟨"Record"⟩ }],
              outputs := [{ name := "out", dataType := ⟨"Record"⟩ }] }]
    "out"

/-- Lines are split into words, and the words are counted. -/
def wordCount : Except BuildError Graph :=
  Chain.build "lines" ⟨"Line"⟩
    [.map "split" ⟨"Word"⟩, .group "count" ["word"] ⟨"WordCount"⟩] "counts"

/-- Two folds in a row, which need two stages. -/
def twoShuffles : Except BuildError Graph :=
  Chain.build "lines" ⟨"Line"⟩
    [.map "split" ⟨"Word"⟩, .group "count" ["word"] ⟨"WordCount"⟩,
      .map "bucket" ⟨"Bucket"⟩, .group "histogram" ["count"] ⟨"Histogram"⟩]
    "histogram"

/-- Two inputs joined on a common key, with a second output that is left loose. -/
def join : Except BuildError Graph := do
  let (customers, graph) := ({} : Graph).addInput "customers" ⟨"Customer"⟩
  let (orders, graph) := graph.addInput "orders" ⟨"Order"⟩
  let (join, graph) ← graph.addNode
    { name := "join", kind := .operator .masterJoin, boundary := .shuffle,
      inputs := [
        { name := "master", dataType := ⟨"Customer"⟩, key := some ⟨["customer_id"], []⟩ },
        { name := "tx", dataType := ⟨"Order"⟩,
          key := some ⟨["customer_id"], ["ordered_at"]⟩ }],
      outputs := [{ name := "joined", dataType := ⟨"CustomerOrder"⟩ },
        { name := "missed", dataType := ⟨"Order"⟩ }] }
  let (joined, graph) := graph.addOutput "joined" ⟨"CustomerOrder"⟩
  let graph ← graph.connectNodes customers 0 join 0
  let graph ← graph.connectNodes orders 0 join 1
  graph.connectNodes join 0 joined 0

/-- Two nodes that feed each other, which cannot be planned. -/
def cycle : Except BuildError Graph := do
  let record : DataType := ⟨"Record"⟩
  let (input, graph) := ({} : Graph).addInput "in" record
  let (a, graph) ← graph.addNode
    { name := "a", kind := .operator .confluent,
      inputs := [{ name := "first", dataType := record }, { name := "loop", dataType := record }],
      outputs := [{ name := "out", dataType := record }] }
  let (b, graph) ← graph.addNode
    { name := "b", kind := .operator .map, inputs := [{ name := "in", dataType := record }],
      outputs := [{ name := "out", dataType := record }] }
  let (output, graph) := graph.addOutput "out" record
  let graph ← graph.connectNodes input 0 a 0
  let graph ← graph.connectNodes a 0 b 0
  let graph ← graph.connectNodes b 0 a 1
  graph.connectNodes b 0 output 0

/-- Adds a fold behind a node, and an output behind the fold. -/
def addFold (graph : Graph) (source : NodeId) (name key : String) : Except BuildError Graph := do
  let (fold, graph) ← graph.addNode
    { name, kind := .operator .fold, boundary := .shuffle,
      inputs := [{ name := "in", dataType := ⟨"Event"⟩, key := some ⟨[key], []⟩ }],
      outputs := [{ name := "out", dataType := ⟨"Total"⟩ }] }
  let (output, graph) := graph.addOutput (name ++ "-out") ⟨"Total"⟩
  let graph ← graph.connectNodes source 0 fold 0
  graph.connectNodes fold 0 output 0

/-- One operator that feeds two folds at the same distance from the input. -/
def sharedBranch : Except BuildError Graph := do
  let event : DataType := ⟨"Event"⟩
  let (input, graph) := ({} : Graph).addInput "events" event
  let (normalize, graph) ← graph.addNode
    { name := "normalize", kind := .operator .map, inputs := [{ name := "in", dataType := event }],
      outputs := [{ name := "out", dataType := event }] }
  let graph ← addFold graph normalize "by_user" "user"
  let graph ← addFold graph normalize "by_page" "page"
  graph.connectNodes input 0 normalize 0

/-- An operator inside of a flow part. -/
def nestedFlowPart : Except BuildError Graph := do
  let record : DataType := ⟨"Record"⟩
  let (input, graph) := ({} : Graph).addInput "in" record
  let (part, graph) ← graph.addFlowPart
    { name := "part", kind := .flowPart {}, inputs := [{ name := "x", dataType := record }],
      outputs := [{ name := "y", dataType := record }] }
  match graph.nodes[part]?.map Node.kind with
  | some (.flowPart { inputs := [entry], outputs := [exit] }) =>
    let (enrich, graph) ← graph.addNode
      { name := "enrich", kind := .operator .map,
        inputs := [{ name := "in", dataType := record }],
        outputs := [{ name := "out", dataType := record }] }
    let graph ← graph.connectNodes entry 0 enrich 0
    let graph ← graph.connectNodes enrich 0 exit 0
    let (output, graph) := graph.addOutput "out" record
    let graph ← graph.connectNodes input 0 part 0
    graph.connectNodes part 0 output 0
  | _ => .error (.notFlowPart "part")

end Staging.Sample
