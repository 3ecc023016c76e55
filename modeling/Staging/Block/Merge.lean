import Staging.Block.Basic

/-! # Merging blocks

Blocks of one kind become one block with all of their nodes. Every block port
gets a counterpart that wraps the same port and takes over its links; where a
link joins two of the merged blocks, both of its ends are replaced.
-/

namespace Staging

open Std

/-- Which block port has been replaced by which. -/
structure PortMapping where
  inputs : HandleMap .blockInput BlockInputId := ∅
  outputs : HandleMap .blockOutput BlockOutputId := ∅

/-- A merged block whose ports have no links yet. -/
structure MergeState where
  wiring : Wiring
  mapping : PortMapping := {}
  inputs : List BlockInputId := []
  outputs : List BlockOutputId := []

namespace MergeState

/-- Makes the counterpart of a block input. -/
def addInput (id : BlockId) (state : MergeState) (old : BlockInputId) :
    Except Fault MergeState := do
  let (new, wiring) := state.wiring.addInput id (← state.wiring.input old).port
  return { state with
    wiring
    mapping := { state.mapping with inputs := state.mapping.inputs.insert old new }
    inputs := state.inputs ++ [new] }

def addOutput (id : BlockId) (state : MergeState) (old : BlockOutputId) :
    Except Fault MergeState := do
  let (new, wiring) := state.wiring.addOutput id (← state.wiring.output old).port
  return { state with
    wiring
    mapping := { state.mapping with outputs := state.mapping.outputs.insert old new }
    outputs := state.outputs ++ [new] }

/-- Makes the counterparts of the ports of a block. -/
def addBlock (id : BlockId) (state : MergeState) (block : Block) : Except Fault MergeState := do
  let state ← block.inputs.foldlM (addInput id) state
  block.outputs.foldlM (addOutput id) state

end MergeState

namespace PortMapping

/-- Gives the links of a block input to its counterpart. -/
def moveInput (mapping : PortMapping) (wiring : Wiring) (entry : BlockInputId × BlockInputId) :
    Wiring :=
  (wiring.sources entry.1).toList.foldl
    (fun wiring source => wiring.insertLink (mapping.outputs.getD source source) entry.2) wiring

/-- Gives the links of a block output that leave the merged blocks to its counterpart. -/
def moveOutput (mapping : PortMapping) (wiring : Wiring)
    (exit : BlockOutputId × BlockOutputId) : Wiring :=
  ((wiring.targets exit.1).toList.filter fun target => !mapping.inputs.contains target).foldl
    (fun wiring target => wiring.insertLink exit.2 target) wiring

/-- Replaces all ports by their counterparts. -/
def apply (mapping : PortMapping) (wiring : Wiring) : Wiring :=
  let linked := mapping.outputs.toList.foldl (moveOutput mapping)
    (mapping.inputs.toList.foldl (moveInput mapping) wiring)
  mapping.outputs.keys.foldl Wiring.eraseOutput (mapping.inputs.keys.foldl Wiring.eraseInput linked)

end PortMapping

namespace Block

/-- The blocks with inputs are all reduce blocks, or none of them is. -/
def checkAlike (site : Site) (blocks : List Block) : Except Fault Unit := do
  let kinds ← (blocks.filter fun block => !block.inputs.isEmpty).mapM fun block =>
    block.isReduce site
  if kinds.all id || kinds.all not then return
  else .error .mixedBlocks

/-- Merges blocks of one kind into one. -/
def merge (site : Site) (blocks : List Block) :
    Except Fault (Block × PortMapping × Wiring) := do
  if blocks.isEmpty then .error .nothingToMerge
  checkAlike site blocks
  let (id, wiring) := site.wiring.newBlock
  let state ← blocks.foldlM (MergeState.addBlock id) { wiring }
  let merged : Block :=
    { id
      nodes := HandleSet.gather blocks fun block => block.nodes
      inputs := state.inputs
      outputs := state.outputs
      origins := blocks.foldl (fun origins block => origins.insertMany block.origins.toList) ∅ }
  return (merged, state.mapping, state.mapping.apply state.wiring)

end Block

end Staging
