import Staging.Json.Codec
import Staging.Normalization

/-! # Planning events

Planning reports each of its steps as an event. An event has a line of text, a
level of importance and a JSON form.
-/

namespace Staging

/-- Something that happened during planning. -/
inductive Event where
  | validated (diagnostics : Nat)
  | passApplied (name : String) (phase : Phase) (changed : Bool)
  | normalized (summary : NormalizeSummary)
  | blocksExtracted (maps reduces : Nat)
  | blocksCompacted (remaining dropped : Nat)
  | stageGroupsBuilt (groups : Nat)
  | stageGroupsMerged (before after : Nat)
  | stagesOrdered (stages : Nat)
  | diagnostic (problem : Diagnostic)
  | invalidOption (key value : String)
deriving DecidableEq

inductive Level where
  | warning
  | debug
  | trace
deriving DecidableEq

def Level.name : Level → String
  | .warning => "WARN"
  | .debug => "DEBUG"
  | .trace => "TRACE"

namespace Event

def text : Event → String
  | .validated diagnostics =>
    "validation finished with " ++ toString diagnostics ++ " diagnostic(s)"
  | .passApplied name phase changed =>
    "rewriter " ++ name ++ " (" ++ phase.name ++ ") changed graph: " ++
      (if changed then "true" else "false")
  | .normalized summary => "normalized graph: " ++ summary.text
  | .blocksExtracted maps reduces =>
    "extracted " ++ toString maps ++ " map block(s) and " ++ toString reduces ++
      " reduce block(s)"
  | .blocksCompacted remaining dropped =>
    "compacted blocks: " ++ toString remaining ++ " left, " ++ toString dropped ++ " dropped"
  | .stageGroupsBuilt groups => "built " ++ toString groups ++ " stage group(s)"
  | .stageGroupsMerged before after =>
    "merged stage groups: " ++ toString before ++ " -> " ++ toString after
  | .stagesOrdered stages => "ordered " ++ toString stages ++ " stage(s)"
  | .diagnostic problem => problem.text
  | .invalidOption key value =>
    "unknown value " ++ Text.quoted value ++ " for option " ++ key ++ ", using default"

/-- Problems are warnings, and what happens once for many things is a detail. -/
def level : Event → Level
  | .diagnostic _ | .invalidOption _ _ => .warning
  | .passApplied _ _ _ | .blocksCompacted _ _ => .trace
  | _ => .debug

end Event

def NormalizeSummary.toJson (summary : NormalizeSummary) : Json :=
  .object [("flow_parts_inlined", .nat summary.flowPartsInlined),
    ("checkpoints_inserted", .nat summary.checkpointsInserted),
    ("identities_inserted", .nat summary.identitiesInserted),
    ("identities_split", .nat summary.identitiesSplit),
    ("identities_removed", .nat summary.identitiesRemoved)]

/-- An event as an object whose only member names it. -/
def Event.toJson : Event → Json
  | .validated diagnostics =>
    .object [("Validated", .object [("diagnostics", .nat diagnostics)])]
  | .passApplied name phase changed =>
    .object [("RewriterApplied",
      .object [("name", .text name), ("phase", phase.toJson), ("changed", .bool changed)])]
  | .normalized summary => .object [("Normalized", summary.toJson)]
  | .blocksExtracted maps reduces =>
    .object [("BlocksExtracted", .object [("map", .nat maps), ("reduce", .nat reduces)])]
  | .blocksCompacted remaining dropped =>
    .object [("BlocksCompacted",
      .object [("remaining", .nat remaining), ("dropped", .nat dropped)])]
  | .stageGroupsBuilt groups => .object [("StageGroupsBuilt", .object [("groups", .nat groups)])]
  | .stageGroupsMerged before after =>
    .object [("StageGroupsMerged", .object [("before", .nat before), ("after", .nat after)])]
  | .stagesOrdered stages => .object [("StagesOrdered", .object [("stages", .nat stages)])]
  | .diagnostic problem => .object [("Diagnostic", problem.toJson)]
  | .invalidOption key value =>
    .object [("InvalidOption", .object [("key", .text key), ("value", .text value)])]

end Staging
