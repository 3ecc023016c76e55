import Staging.Graph.Splice
import Staging.Options

/-! # Normalization

Before blocks are cut, every boundary is made explicit: flow parts are inlined,
the outputs of nodes that run at most once are checkpointed, a checkpoint
follows each shuffle, and each hop from a stage boundary straight into another
boundary carries exactly one identity. All other identities are taken out.
-/

namespace Staging

structure NormalizeSummary where
  flowPartsInlined : Nat
  checkpointsInserted : Nat
  identitiesInserted : Nat
  identitiesSplit : Nat
  identitiesRemoved : Nat
deriving DecidableEq

def NormalizeSummary.text (summary : NormalizeSummary) : String :=
  toString summary.flowPartsInlined ++ " flow part(s) inlined, " ++
    toString summary.checkpointsInserted ++ " checkpoint(s), " ++
    toString summary.identitiesInserted ++ " identit(ies) inserted, " ++
    toString summary.identitiesSplit ++ " split, " ++
    toString summary.identitiesRemoved ++ " removed"

/-- The boundary at the seams of an inlined flow part. -/
def FlowPartMode.seam : FlowPartMode → Boundary
  | .aggregate => .none
  | .segregate => .stage

namespace Graph

/-- A count of changes, and the changed graph. -/
abbrev Changed := Except Fault (Nat × Graph)

/-- Does `change` for each element in turn and adds the counts. -/
def changeEach {α : Type} (graph : Graph) (elements : List α) (change : Graph → α → Changed) :
    Changed :=
  elements.foldlM (fun (count, graph) element => do
    let (more, changed) ← change graph element
    return (count + more, changed)) (0, graph)

/-- Inlines the flow parts of a scope, innermost first, down to the given
number of levels. -/
def inlineScope (boundary : Boundary) : (levels : Nat) → Graph → Scope → Changed
  | 0, _, _ => .error .endlessNesting
  | levels + 1, graph, scope => do
      let members ← graph.members scope
      graph.changeEach (graph.flowPartsOf members) fun graph (part, inner) => do
        let (count, graph) ← inlineScope boundary levels graph inner
        let (_, graph) ← graph.inlineFlowPart part boundary
        return (count + 1, graph)

def checkpointEach (graph : Graph) (outputs : List OutputId) : Changed :=
  graph.changeEach outputs fun graph output => do
    let (_, graph) ← graph.insertCheckpoint output
    return (1, graph)

/-- Checkpoints the outputs of nodes that run at most once. -/
def checkpointGlobalEffects (graph : Graph) : Changed := do
  let members ← graph.rootMembers
  graph.changeEach members.toList fun graph id => do
    let node ← graph.node id
    if node.hasGlobalEffect then graph.checkpointEach (graph.connectedOutputs node)
    else return (0, graph)

/-- Follows single connections from an output through nodes that a checkpoint
may move below, and checkpoints the first output that fans out or reaches
anything else. A stage boundary needs no checkpoint before it. -/
def pushDown : (levels : Nat) → Graph → OutputId → Changed
  | 0, _, _ => .error .unsettled
  | levels + 1, graph, output =>
    match (graph.targets output).toList with
    | [] => .ok (0, graph)
    | [target] =>
      match (graph.inputOwner? target).bind (graph.nodes[·]?) with
      | none => .ok (0, graph)
      | some next =>
        if next.isStageBoundary then .ok (0, graph)
        else if next.isPushDownTarget then
          graph.changeEach next.outputs (pushDown levels)
        else graph.checkpointEach [output]
    | _ => graph.checkpointEach [output]

/-- Makes every shuffle end in checkpoints. No chain of single connections is
longer than there are nodes. -/
def pushDownShuffleCheckpoints (graph : Graph) : Changed := do
  let members ← graph.rootMembers
  graph.changeEach members.toList fun graph id => do
    let node ← graph.node id
    if node.isShuffleBoundary then
      graph.changeEach node.outputs (pushDown (graph.nodes.size + 1))
    else return (0, graph)

/-- The targets of an output port that belong to boundaries. -/
def boundaryTargets (graph : Graph) (output : OutputId) : List InputId :=
  (graph.targets output).toList.filter fun target =>
    (graph.inputOwner? target).any graph.isBoundary

/-- Puts an identity on each hop from a stage boundary straight into a boundary. -/
def insertBoundaryIdentities (graph : Graph) : Changed := do
  let members ← graph.rootMembers
  graph.changeEach members.toList fun graph id => do
    let node ← graph.node id
    if node.isStageBoundary then
      graph.changeEach node.outputs fun graph output =>
        graph.changeEach (graph.boundaryTargets output) fun graph input => do
          let (_, graph) ← graph.insertIdentityBetween output input
          return (1, graph)
    else return (0, graph)

/-- Repeats a round until it changes nothing. -/
def settle (round : Graph → Changed) : (rounds : Nat) → Graph → Changed
  | 0, _ => .error .unsettled
  | rounds + 1, graph => do
      let (count, graph) ← round graph
      if count = 0 then return (0, graph)
      let (more, graph) ← settle round rounds graph
      return (count + more, graph)

/-- Splits each identity of the root scope that has several connections on a side. -/
def splitRound (graph : Graph) : Changed := do
  let members ← graph.rootMembers
  graph.changeEach members.toList fun graph id =>
    if graph.isIdentity id then do
      let (copies, graph) ← graph.splitIdentity id
      return (if copies.isEmpty then 0 else 1, graph)
    else .ok (0, graph)

def connectionCount (graph : Graph) : Nat :=
  total (fun (_, port) => port.connected.size) graph.outputs.toList

/-- Without circuits there are at most this many walks through identities, and
each round separates some of them. -/
def splitBound (graph : Graph) : Nat :=
  graph.nodes.size * Nat.pow (graph.connectionCount + 1) (2 * graph.nodes.size) + 1

/-- Splits identities until each has one connection on each side. -/
def splitIdentities (graph : Graph) : Changed :=
  settle splitRound graph.splitBound graph

/-- The identity is all there is between a stage boundary and a boundary. -/
def isNeeded (graph : Graph) (id : NodeId) : Bool :=
  let before := graph.predecessors id
  let after := graph.successors id
  !before.isEmpty && !after.isEmpty && before.toList.all graph.isStageBoundary &&
    after.toList.all graph.isBoundary

/-- Takes out each identity of the root scope that is not needed. -/
def reduceRound (graph : Graph) : Changed := do
  let members ← graph.rootMembers
  graph.changeEach members.toList fun graph id =>
    if graph.isIdentity id && !graph.isNeeded id then do
      return (1, ← graph.skip id)
    else .ok (0, graph)

/-- Takes out identities until all that are left are needed. Each round but the
last removes a node. -/
def reduceIdentities (graph : Graph) : Changed :=
  settle reduceRound (graph.nodes.size + 1) graph

def normalize (graph : Graph) (mode : FlowPartMode) : Except Fault (NormalizeSummary × Graph) := do
  let (inlined, graph) ← inlineScope mode.seam (graph.nodes.size + 1) graph graph.root
  let (effects, graph) ← graph.checkpointGlobalEffects
  let (shuffles, graph) ← graph.pushDownShuffleCheckpoints
  let (inserted, graph) ← graph.insertBoundaryIdentities
  let (split, graph) ← graph.splitIdentities
  let (removed, graph) ← graph.reduceIdentities
  return (⟨inlined, effects + shuffles, inserted, split, removed⟩, graph)

end Graph

end Staging
