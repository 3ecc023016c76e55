import Staging.Diagnostic
import Staging.Json.Value
import Staging.Node
import Staging.Options
import Staging.Phase

/-! # Values as JSON

How handles, attributes of nodes, diagnostics and options are written as JSON
and read back. What is written is always read back as the same value.
-/

namespace Staging

namespace Handle

variable {role : Role}

def toJson (handle : Handle role) : Json := .nat handle.raw

/-- A handle has a number of at most 64 bits. -/
def ofJson? : Json → Option (Handle role)
  | .nat raw => if raw < UInt64.size then some ⟨raw⟩ else none
  | _ => none

end Handle

namespace DataType

def toJson (dataType : DataType) : Json := .text dataType.name

def ofJson? (json : Json) : Option DataType := json.text?.map DataType.mk

end DataType

def Boundary.toJson (boundary : Boundary) : Json := .text boundary.name

def Boundary.ofJson? : Json → Option Boundary := Json.choice? Boundary.all Boundary.name

def Observation.toJson (observation : Observation) : Json := .text observation.name

def Observation.ofJson? : Json → Option Observation :=
  Json.choice? Observation.all Observation.name

def Connectivity.toJson (connectivity : Connectivity) : Json := .text connectivity.name

def Connectivity.ofJson? : Json → Option Connectivity :=
  Json.choice? Connectivity.all Connectivity.name

def Operator.toJson (operator : Operator) : Json := .text operator.name

def Operator.ofJson? : Json → Option Operator := Json.choice? Operator.all Operator.name

def Pseudo.toJson (pseudo : Pseudo) : Json := .text pseudo.name

def Pseudo.ofJson? : Json → Option Pseudo := Json.choice? Pseudo.all Pseudo.name

def Phase.toJson (phase : Phase) : Json := .text phase.name

def Phase.ofJson? : Json → Option Phase := Json.choice? Phase.all Phase.name

def FlowPartMode.toJson (mode : FlowPartMode) : Json := .text mode.name

def FlowPartMode.ofJson? : Json → Option FlowPartMode :=
  Json.choice? FlowPartMode.all FlowPartMode.name

namespace ShuffleKey

def toJson (key : ShuffleKey) : Json :=
  .object [("grouping", .arr (key.grouping.map Json.text)),
    ("ordering", .arr (key.ordering.map Json.text))]

def ofJson? (json : Json) : Option ShuffleKey := do
  match ← json.fields? ["grouping", "ordering"] false with
  | [some grouping, some ordering] =>
    return ⟨← grouping.list? Json.text?, ← ordering.list? Json.text?⟩
  | _ => none

end ShuffleKey

namespace Diagnostic

def toJson (diagnostic : Diagnostic) : Json :=
  .object [("scope", (diagnostic.scope.map Handle.toJson).getD .null),
    ("nodes", .arr (diagnostic.nodes.map Handle.toJson)),
    ("message", .text diagnostic.message)]

/-- An object may leave out the scope. -/
def ofJson? (json : Json) : Option Diagnostic := do
  match ← json.fields? ["scope", "nodes", "message"] false with
  | [scope, some nodes, some message] =>
    return ⟨← (scope.getD .null).optional? Handle.ofJson?, ← nodes.list? Handle.ofJson?,
      ← message.text?⟩
  | _ => none

end Diagnostic

namespace Report

def itemsJson (report : Report) : Json := .arr (report.items.map Diagnostic.toJson)

def toJson (report : Report) : Json := .object [("items", report.itemsJson)]

def ofJson? (json : Json) : Option Report := do
  match ← json.fields? ["items"] false with
  | [some items] => return ⟨← items.list? Diagnostic.ofJson?⟩
  | _ => none

end Report

namespace Options

def toJson (options : Options) : Json :=
  .object [("flow_parts", options.flowParts.toJson),
    ("compress_flow_block_group", (options.compress.map Json.bool).getD .null),
    ("extra_attributes",
      .object (options.attributes.toList.map fun (name, value) => (name, Json.text value)))]

/-- Whether stages are merged, if that is said. -/
def compressOfJson? : Json → Option (Option Bool)
  | .null => some none
  | .bool value => some (some value)
  | _ => none

/-- Of members with one name the last counts. -/
def attributesOfJson? : Json → Option (Std.ExtTreeMap String String)
  | .obj members =>
    members.foldlM (fun attributes (name, value) => do
      return attributes.insert (← name) (← value.text?)) ∅
  | _ => none

/-- Options that are not given have their usual values. -/
def ofJson? (json : Json) : Option Options := do
  match ← json.fields? ["flow_parts", "compress_flow_block_group", "extra_attributes"] true with
  | [flowParts, compress, attributes] =>
    return {
      flowParts := ← (flowParts.map FlowPartMode.ofJson?).getD (some .segregate)
      compress := ← (compress.map compressOfJson?).getD (some none)
      attributes := ← (attributes.map attributesOfJson?).getD (some ∅) }
  | _ => none

def parse? (text : String) : Option Options := do
  ofJson? (← Json.parse? text)

/-- What is said of a text that gives no options. -/
def refusal : String := "invalid planner options"

end Options

end Staging
