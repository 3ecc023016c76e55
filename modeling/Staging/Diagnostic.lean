import Staging.Handle

/-! # Diagnostics

Problems with the graph of a user are collected and reported together. Each
names the flow part in whose scope it lies, if any, and the nodes involved.
-/

namespace Staging

/-- One problem found in a graph. -/
structure Diagnostic where
  /-- The flow part whose nested scope has the problem. -/
  scope : Option NodeId
  nodes : List NodeId
  message : String
deriving DecidableEq

def Diagnostic.text (diagnostic : Diagnostic) : String :=
  let place := match diagnostic.scope with
    | some part => "[in " ++ part.text ++ "] "
    | none => ""
  let nodes := match diagnostic.nodes with
    | [] => ""
    | nodes => " (" ++ String.intercalate ", " (nodes.map Handle.text) ++ ")"
  place ++ diagnostic.message ++ nodes

/-- All problems found, in the order in which they were found. -/
structure Report where
  items : List Diagnostic := []
deriving DecidableEq

/-- A heading and a line for each problem. -/
def Report.text (report : Report) : String :=
  "planning failed with " ++ toString report.items.length ++ " diagnostic(s)" ++
    String.join (report.items.map fun diagnostic => "\n  - " ++ diagnostic.text)

end Staging
