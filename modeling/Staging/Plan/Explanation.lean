import Staging.Json.Value
import Staging.Plan.Basic

/-! # Explaining plans

A plan is summed up for people and for tools: the names of the nodes of each
block, the number of its ports and the blocks before and after it, stage by
stage. The summary can be written as JSON or as a boxed text.
-/

namespace Staging

structure BlockSummary where
  id : BlockId
  /-- The names of its nodes, in the order of their handles. -/
  nodes : List String
  inputs : Nat
  outputs : Nat
  /-- The blocks that feed it. -/
  before : List BlockId
  /-- The blocks that it feeds. -/
  after : List BlockId

structure StageSummary where
  number : Nat
  maps : List BlockSummary
  reduces : List BlockSummary

structure Explanation where
  input : BlockSummary
  output : BlockSummary
  stages : List StageSummary
  /-- The number of links between blocks. -/
  links : Nat

namespace Plan

def summary (plan : Plan) (block : Block) : Except Fault BlockSummary := do
  let nodes ← block.nodes.toList.mapM plan.graph.node
  return {
    id := block.id
    nodes := nodes.map Node.name
    inputs := block.inputs.length
    outputs := block.outputs.length
    before := (← block.predecessors plan.wiring).toList
    after := (← block.successors plan.wiring).toList }

def stageSummary (plan : Plan) (stage : Stage) : Except Fault StageSummary := do
  return {
    number := ← stage.checkedNumber
    maps := ← stage.maps.mapM plan.summary
    reduces := ← stage.reduces.mapM plan.summary }

def explain (plan : Plan) : Except Fault Explanation := do
  return {
    input := ← plan.summary plan.input
    output := ← plan.summary plan.output
    stages := ← plan.stages.mapM plan.stageSummary
    links := plan.wiring.links.length }

end Plan

namespace BlockSummary

def toJson (summary : BlockSummary) : Json :=
  .object [("id", .text summary.id.text),
    ("nodes", .arr (summary.nodes.map Json.text)),
    ("inputs", .nat summary.inputs),
    ("outputs", .nat summary.outputs),
    ("upstream", .arr (summary.before.map fun id => .text id.text)),
    ("downstream", .arr (summary.after.map fun id => .text id.text))]

/-- The lines about a block; the lines about its neighbours are left out if it
has none. -/
def lines (label : String) (summary : BlockSummary) : List String :=
  let names (ids : List BlockId) : String := String.intercalate ", " (ids.map Handle.text)
  ["│ " ++ label ++ " " ++ summary.id.text ++ " [" ++ String.intercalate ", " summary.nodes ++ "]",
    "│   ports: " ++ toString summary.inputs ++ " in / " ++ toString summary.outputs ++ " out"] ++
    (if summary.before.isEmpty then [] else ["│   from:  " ++ names summary.before]) ++
    (if summary.after.isEmpty then [] else ["│   to:    " ++ names summary.after])

end BlockSummary

namespace StageSummary

def toJson (summary : StageSummary) : Json :=
  .object [("number", .nat summary.number),
    ("map_blocks", .arr (summary.maps.map BlockSummary.toJson)),
    ("reduce_blocks", .arr (summary.reduces.map BlockSummary.toJson))]

def lines (summary : StageSummary) : List String :=
  let mark := if summary.reduces.isEmpty then "" else " [SHUFFLE]"
  ["│", "│ Stage " ++ toString summary.number ++ mark] ++
    summary.maps.flatMap (BlockSummary.lines "  Map") ++
    summary.reduces.flatMap (BlockSummary.lines "  Reduce")

end StageSummary

namespace Explanation

def toJson (explanation : Explanation) : Json :=
  .object [("input", explanation.input.toJson),
    ("output", explanation.output.toJson),
    ("stages", .arr (explanation.stages.map StageSummary.toJson)),
    ("links", .nat explanation.links)]

/-- A number at the right end of ten columns. -/
def column (number : Nat) : String :=
  let digits := toString number
  String.ofList (List.replicate (10 - digits.length) ' ') ++ digits

def boxEnd : String := "└──────────────────────────────────────────────────────────────┘"

def lines (explanation : Explanation) : List String :=
  let shuffles := explanation.stages.filter fun stage => !stage.reduces.isEmpty
  ["╔═══════════════════════════════════════════════════════════════╗",
    "║                    STAGE PLAN EXPLANATION                     ║",
    "╚═══════════════════════════════════════════════════════════════╝",
    "",
    "┌─ SUMMARY ────────────────────────────────────────────────────┐",
    "│ Stages:            " ++ column explanation.stages.length,
    "│ Shuffle Stages:    " ++ column shuffles.length,
    "│ Block Links:       " ++ column explanation.links,
    boxEnd,
    "",
    "┌─ STAGES ─────────────────────────────────────────────────────┐"] ++
    explanation.input.lines "Input" ++
    explanation.stages.flatMap StageSummary.lines ++
    ["│"] ++ explanation.output.lines "Output" ++ [boxEnd]

/-- The boxed text, each line of which ends in a line break. -/
def text (explanation : Explanation) : String :=
  String.join (explanation.lines.map (· ++ "\n"))

end Explanation

end Staging
