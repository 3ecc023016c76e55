import Staging.Block.Compaction

/-! # Bypassing identities

An identity that gets data only from outside of its block and gives it only to
the outside does nothing there: its links are joined, and its block ports are
removed.
-/

namespace Staging

namespace Placed

/-- Joins the links of block inputs with those of block outputs, and removes
these block ports. -/
def joinAcross (placed : Placed) (entries : List BlockInputId) (exits : List BlockOutputId) :
    Placed :=
  let sources := HandleSet.gather entries placed.wiring.sources
  let targets := HandleSet.gather exits placed.wiring.targets
  { placed with wiring := placed.wiring.insertLinks sources.toList targets.toList }.removePorts
    entries exits

/-- Bypasses the identity behind a block input, if there is one that is
connected with nothing inside of the block and wrapped by a block output. -/
def bypassAt (placed : Placed) (entry : BlockInputId) : Except Fault Placed := do
  let some wrapped := placed.wiring.inputs[entry]? | return placed
  let port ← placed.graph.input wrapped.port
  let some node := placed.graph.nodes[port.owner]? | return placed
  let some output := node.outputs.head? | return placed
  if node.isIdentity && port.connected.isEmpty && (placed.graph.targets output).isEmpty then
    placed.wiring.checkOutputs placed.block.outputs
    let exits := placed.block.exitsOf placed.wiring output
    if exits.isEmpty then return placed
    placed.wiring.checkInputs placed.block.inputs
    return placed.joinAcross (placed.block.entriesOf placed.wiring wrapped.port) exits
  else return placed

/-- Bypasses identities, and compacts the block if there were any. -/
def bypass (placed : Placed) : Except Fault Placed := do
  let bypassed ← placed.block.inputs.foldlM bypassAt placed
  if bypassed.size < placed.size then bypassed.compact else return placed

end Placed

end Staging
