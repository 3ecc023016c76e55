import Staging.Violation

/-! # Faults

A fault says which rule of use a call has broken: a handle that names nothing,
an operation on the wrong kind of thing, blocks that do not fit together. A
call that ends in a fault has no result. The wording of all faults is here.
-/

namespace Staging

/-- Which way connections are followed. -/
inductive Direction where
  | forward
  | backward
deriving DecidableEq

namespace Direction

def name : Direction → String
  | .forward => "Forward"
  | .backward => "Backward"

def opposite : Direction → Direction
  | .forward => .backward
  | .backward => .forward

end Direction

/-- The rules of use that a call can break. -/
inductive Fault where
  | absentNode (node : NodeId)
  | absentInput (port : InputId)
  | absentOutput (port : OutputId)
  | portless (node : NodeId)
  | unconnected (output : OutputId) (input : InputId)
  | notIdentity (node : NodeId)
  | notFlowPart (node : NodeId)
  | shufflingSeam
  | endlessNesting
  | unsettled
  | unlikeDirections (first second : Direction)
  | likeDirections (first second : Direction)
  | backwardCut
  | emptyCut (startings arrivals : NodeSet)
  | mixedEntries (ports : InputSet)
  | unwiredInput (port : BlockInputId)
  | unwiredOutput (port : BlockOutputId)
  | strayInput (entry : BlockInputId) (port : InputId) (block : BlockId)
  | strayOutput (exit : BlockOutputId) (port : OutputId) (block : BlockId)
  | nothingToMerge
  | mixedBlocks
  | unnumberedStage
  | cyclicStages
  | violated (violation : Violation)

namespace Fault

/-- How two values are shown that ought to be equal. -/
def comparison (relation rule left right : String) : String :=
  "assertion `left " ++ relation ++ " right` failed: " ++ rule ++ "\n  left: " ++ left ++
    "\n right: " ++ right

def message : Fault → String
  | .absentNode node => "node " ++ node.text ++ " is not in the graph"
  | .absentInput port => "input port " ++ port.text ++ " is not in the graph"
  | .absentOutput port => "output port " ++ port.text ++ " is not in the graph"
  | .portless node => "node " ++ node.text ++ " has no such port"
  | .unconnected output input => output.text ++ " is not connected to " ++ input.text
  | .notIdentity node => node.text ++ " is not an identity"
  | .notFlowPart node => node.text ++ " is not a flow part"
  | .shufflingSeam => comparison "!=" "flow part seams cannot shuffle" "Shuffle" "Shuffle"
  | .endlessNesting => "a flow part is nested in itself"
  | .unsettled => "the graph has no normal form"
  | .unlikeDirections first second =>
    comparison "==" "union requires paths of the same direction" first.name second.name
  | .likeDirections first second =>
    comparison "==" "transpose_intersect requires paths of opposite directions" first.name
      second.name
  | .backwardCut =>
    comparison "==" "blocks can only be created from forward paths" Direction.backward.name
      Direction.forward.name
  | .emptyCut startings arrivals =>
    "path from " ++ HandleSet.text startings ++ " to " ++ HandleSet.text arrivals ++
      " has no content"
  | .mixedEntries ports =>
    "block inputs mix shuffle and non-shuffle destinations: " ++ HandleSet.text ports
  | .unwiredInput port => "block input " ++ port.text ++ " is not wired"
  | .unwiredOutput port => "block output " ++ port.text ++ " is not wired"
  | .strayInput entry port block =>
    "block input " ++ entry.text ++ " wraps " ++ port.text ++ " outside of block " ++ block.text
  | .strayOutput exit port block =>
    "block output " ++ exit.text ++ " wraps " ++ port.text ++ " outside of block " ++ block.text
  | .nothingToMerge => "nothing to merge"
  | .mixedBlocks => "cannot merge map blocks with reduce blocks"
  | .unnumberedStage => "stage number has not been assigned yet"
  | .cyclicStages => "stage groups depend on each other cyclically"
  | .violated violation => violation.message

end Fault

/-- A violation of a property that is required is a fault. -/
def Violation.raise : Option Violation → Except Fault Unit
  | some violation => .error (.violated violation)
  | none => .ok ()

end Staging
