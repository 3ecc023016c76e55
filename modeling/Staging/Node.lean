import Staging.Handle

/-! # Nodes and ports

A node is one processing step. Its kind says what it is, its boundary where it
splits execution and its observation how often its effects may be seen. Data
enters and leaves through ports, each of which carries one type of record.
-/

namespace Staging

/-- The name of the type of the records that pass a port. -/
structure DataType where
  name : String
deriving DecidableEq

/-- Where a node splits execution. -/
inductive Boundary where
  /-- An ordinary node, fused with its surroundings. -/
  | none
  /-- Data is materialized here, and the next stage reads it back. -/
  | stage
  /-- Data is redistributed by key here, and the node runs on the reduce side. -/
  | shuffle
deriving DecidableEq

namespace Boundary

def name : Boundary → String
  | .none => "None"
  | .stage => "Stage"
  | .shuffle => "Shuffle"

def all : List Boundary := [.none, .stage, .shuffle]

end Boundary

/-- How often the side effects of a node may be observed. -/
inductive Observation where
  /-- There is no effect to observe. -/
  | dontCare
  /-- The node runs even if nothing consumes its output. -/
  | atLeastOnce
  /-- The node is not run again by a repeated stage. -/
  | atMostOnce
  /-- Both of the two before. -/
  | exactlyOnce
deriving DecidableEq

namespace Observation

def name : Observation → String
  | .dontCare => "DontCare"
  | .atLeastOnce => "AtLeastOnce"
  | .atMostOnce => "AtMostOnce"
  | .exactlyOnce => "ExactlyOnce"

def all : List Observation := [.dontCare, .atLeastOnce, .atMostOnce, .exactlyOnce]

/-- The node survives the removal of dead nodes. -/
def isMandatory : Observation → Bool
  | .atLeastOnce | .exactlyOnce => true
  | .dontCare | .atMostOnce => false

/-- The output of the node is checkpointed before it is used again. -/
def isGlobal : Observation → Bool
  | .atMostOnce | .exactlyOnce => true
  | .dontCare | .atLeastOnce => false

end Observation

/-- Whether an output port may be left without connections. -/
inductive Connectivity where
  /-- A loose output is closed by a sink. -/
  | optional
  /-- A loose output is a mistake of the user. -/
  | mandatory
deriving DecidableEq

namespace Connectivity

def name : Connectivity → String
  | .optional => "Optional"
  | .mandatory => "Mandatory"

def all : List Connectivity := [.optional, .mandatory]

end Connectivity

/-- The properties by which a shuffled input is grouped and then ordered. -/
structure ShuffleKey where
  grouping : List String
  ordering : List String
deriving DecidableEq

/-- The families of operators that planning tells apart. -/
inductive Operator where
  | map
  | filter
  | branch
  | logging
  | project
  | confluent
  | fold
  | coGroup
  | masterJoin
  | custom
deriving DecidableEq

namespace Operator

def name : Operator → String
  | .map => "Map"
  | .filter => "Filter"
  | .branch => "Branch"
  | .logging => "Logging"
  | .project => "Project"
  | .confluent => "Confluent"
  | .fold => "Fold"
  | .coGroup => "CoGroup"
  | .masterJoin => "MasterJoin"
  | .custom => "Custom"

def all : List Operator :=
  [.map, .filter, .branch, .logging, .project, .confluent, .fold, .coGroup, .masterJoin, .custom]

end Operator

/-- Nodes without logic of the user. -/
inductive Pseudo where
  | identity
  | checkpoint
  | implicitSink
  | empty
deriving DecidableEq

namespace Pseudo

def name : Pseudo → String
  | .identity => "Identity"
  | .checkpoint => "Checkpoint"
  | .implicitSink => "ImplicitSink"
  | .empty => "Empty"

def all : List Pseudo := [.identity, .checkpoint, .implicitSink, .empty]

end Pseudo

/-- The endpoints of a graph or of a graph nested in a flow part. The `k`-th
inner input receives what arrives at the `k`-th outer input port, and the
`k`-th inner output feeds the `k`-th outer output port. -/
structure Scope where
  inputs : List NodeId := []
  outputs : List NodeId := []
deriving DecidableEq

/-- The inputs of a scope and then its outputs. -/
def Scope.endpoints (scope : Scope) : List NodeId :=
  scope.inputs ++ scope.outputs

inductive Kind where
  /-- Where data enters a graph or a nested scope. -/
  | input
  /-- Where data leaves a graph or a nested scope. -/
  | output
  | operator (operator : Operator)
  | pseudo (pseudo : Pseudo)
  | flowPart (scope : Scope)
deriving DecidableEq

namespace Kind

def describe : Kind → String
  | .input => "input"
  | .output => "output"
  | .operator _ => "operator"
  | .pseudo .identity => "identity"
  | .pseudo .checkpoint => "checkpoint"
  | .pseudo .implicitSink => "implicit-sink"
  | .pseudo .empty => "empty"
  | .flowPart _ => "flow-part"

/-- The boundary of a node that declares none: a checkpoint ends a stage. -/
def usualBoundary : Kind → Boundary
  | .pseudo .checkpoint => .stage
  | _ => .none

end Kind

/-- An input port and the output ports that feed it. -/
structure InputPort where
  owner : NodeId
  name : String
  dataType : DataType
  key : Option ShuffleKey
  connected : OutputSet

/-- An output port and the input ports that it feeds. -/
structure OutputPort where
  owner : NodeId
  name : String
  dataType : DataType
  connectivity : Connectivity
  connected : InputSet

/-- A processing step, with its ports in order. -/
structure Node where
  name : String
  kind : Kind
  boundary : Boundary
  observation : Observation
  inputs : List InputId
  outputs : List OutputId
deriving DecidableEq

namespace Node

def isShuffleBoundary (node : Node) : Bool :=
  node.boundary == .shuffle

/-- The node materializes data; the endpoints of a scope count as such. -/
def isStageBoundary (node : Node) : Bool :=
  node.boundary == .stage || node.kind == .input || node.kind == .output

def isBoundary (node : Node) : Bool :=
  node.isStageBoundary || node.isShuffleBoundary

def isPseudo (node : Node) : Bool :=
  match node.kind with
  | .pseudo _ => true
  | _ => false

def isOperator (node : Node) : Bool :=
  match node.kind with
  | .operator _ => true
  | _ => false

/-- The node passes records on and is no boundary. -/
def isIdentity (node : Node) : Bool :=
  node.isPseudo && node.boundary == .none && node.inputs.length == 1 && node.outputs.length == 1

/-- A checkpoint after a shuffle may move below the node. -/
def isPushDownTarget (node : Node) : Bool :=
  node.isIdentity ||
    (node.boundary == .none &&
      (node.kind == .operator .branch || node.kind == .operator .logging))

def hasMandatoryEffect (node : Node) : Bool :=
  node.observation.isMandatory

def hasGlobalEffect (node : Node) : Bool :=
  node.observation.isGlobal

end Node

/-- What an input port is declared to be. -/
structure InputDecl where
  name : String
  dataType : DataType
  key : Option ShuffleKey := none
deriving DecidableEq

structure OutputDecl where
  name : String
  dataType : DataType
  connectivity : Connectivity := .optional
deriving DecidableEq

/-- What a node is declared to be before it has handles. -/
structure NodeDecl where
  name : String
  kind : Kind
  boundary : Boundary := .none
  observation : Observation := .dontCare
  inputs : List InputDecl := []
  outputs : List OutputDecl := []
deriving DecidableEq

end Staging
