import Staging.Fault

/-! # Wiring

A block input wraps one input port of a node, and a block output one output
port. Links lead from block outputs to block inputs. They are kept at both ends
in one table, so that blocks need not know each other. Block handles and the
handles of block ports come from one counter.
-/

namespace Staging

open Std

/-- A wrapped input port and the block outputs that feed it. -/
structure BlockInput where
  block : BlockId
  port : InputId
  links : BlockOutputSet

/-- A wrapped output port and the block inputs that it feeds. -/
structure BlockOutput where
  block : BlockId
  port : OutputId
  links : BlockInputSet

/-- Block ports with the links between them. -/
structure Wiring where
  /-- The number of the next handle. -/
  next : Nat := 0
  inputs : HandleMap .blockInput BlockInput := ∅
  outputs : HandleMap .blockOutput BlockOutput := ∅

namespace Wiring

def input (wiring : Wiring) (entry : BlockInputId) : Except Fault BlockInput :=
  match wiring.inputs[entry]? with
  | some record => .ok record
  | none => .error (.unwiredInput entry)

def output (wiring : Wiring) (exit : BlockOutputId) : Except Fault BlockOutput :=
  match wiring.outputs[exit]? with
  | some record => .ok record
  | none => .error (.unwiredOutput exit)

/-- The first of the listed block inputs that is not wired is a fault. -/
def checkInputs (wiring : Wiring) (entries : List BlockInputId) : Except Fault Unit :=
  entries.forM fun entry => discard (wiring.input entry)

def checkOutputs (wiring : Wiring) (exits : List BlockOutputId) : Except Fault Unit :=
  exits.forM fun exit => discard (wiring.output exit)

/-- The block outputs that feed a block input. -/
def sources (wiring : Wiring) (entry : BlockInputId) : BlockOutputSet :=
  match wiring.inputs[entry]? with
  | some record => record.links
  | none => ∅

def targets (wiring : Wiring) (exit : BlockOutputId) : BlockInputSet :=
  match wiring.outputs[exit]? with
  | some record => record.links
  | none => ∅

/-- The port that a block input wraps. -/
def inputPort? (wiring : Wiring) (entry : BlockInputId) : Option InputId :=
  wiring.inputs[entry]?.map BlockInput.port

def outputPort? (wiring : Wiring) (exit : BlockOutputId) : Option OutputId :=
  wiring.outputs[exit]?.map BlockOutput.port

/-- All links, ordered by the block output and then by the block input. -/
def links (wiring : Wiring) : List (BlockOutputId × BlockInputId) :=
  wiring.outputs.toList.flatMap fun (exit, record) =>
    record.links.toList.map fun entry => (exit, entry)

def newBlock (wiring : Wiring) : BlockId × Wiring :=
  (⟨wiring.next⟩, { wiring with next := wiring.next + 1 })

def addInput (wiring : Wiring) (block : BlockId) (port : InputId) : BlockInputId × Wiring :=
  (⟨wiring.next⟩, { wiring with
    next := wiring.next + 1
    inputs := wiring.inputs.insert ⟨wiring.next⟩ ⟨block, port, ∅⟩ })

def addOutput (wiring : Wiring) (block : BlockId) (port : OutputId) : BlockOutputId × Wiring :=
  (⟨wiring.next⟩, { wiring with
    next := wiring.next + 1
    outputs := wiring.outputs.insert ⟨wiring.next⟩ ⟨block, port, ∅⟩ })

def addInputs (wiring : Wiring) (block : BlockId) (ports : List InputId) :
    List BlockInputId × Wiring :=
  ports.foldl (fun (entries, wiring) port =>
    let (entry, grown) := wiring.addInput block port
    (entries ++ [entry], grown)) ([], wiring)

def addOutputs (wiring : Wiring) (block : BlockId) (ports : List OutputId) :
    List BlockOutputId × Wiring :=
  ports.foldl (fun (exits, wiring) port =>
    let (exit, grown) := wiring.addOutput block port
    (exits ++ [exit], grown)) ([], wiring)

def insertLink (wiring : Wiring) (exit : BlockOutputId) (entry : BlockInputId) : Wiring :=
  { wiring with
    outputs := wiring.outputs.modify exit fun record =>
      { record with links := record.links.insert entry }
    inputs := wiring.inputs.modify entry fun record =>
      { record with links := record.links.insert exit } }

/-- The wiring with links from each of the block outputs to each of the block inputs. -/
def insertLinks (wiring : Wiring) (exits : List BlockOutputId) (entries : List BlockInputId) :
    Wiring :=
  exits.foldl (fun wiring exit => entries.foldl (·.insertLink exit ·) wiring) wiring

def eraseInput (wiring : Wiring) (entry : BlockInputId) : Wiring :=
  { wiring with
    inputs := wiring.inputs.erase entry
    outputs := (wiring.sources entry).toList.foldl (fun outputs exit =>
      outputs.modify exit fun record => { record with links := record.links.erase entry })
      wiring.outputs }

def eraseOutput (wiring : Wiring) (exit : BlockOutputId) : Wiring :=
  { wiring with
    outputs := wiring.outputs.erase exit
    inputs := (wiring.targets exit).toList.foldl (fun inputs entry =>
      inputs.modify entry fun record => { record with links := record.links.erase exit })
      wiring.inputs }

def repointInput (wiring : Wiring) (entry : BlockInputId) (port : InputId) : Wiring :=
  { wiring with inputs := wiring.inputs.modify entry fun record => { record with port } }

def repointOutput (wiring : Wiring) (exit : BlockOutputId) (port : OutputId) : Wiring :=
  { wiring with outputs := wiring.outputs.modify exit fun record => { record with port } }

end Wiring

end Staging
