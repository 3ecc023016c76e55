import Staging.Event
import Staging.Plan.Basic
import Staging.Plan.Grouping
import Staging.Plan.Linking
import Staging.Plan.Staged
import Staging.Validation

/-! # Planning

A planner checks a graph, lets the registered passes go over it, brings it into
normal form, cuts it into regions, makes blocks of them and arranges the blocks
in stages. It works on a graph of its own and reports each step.
-/

namespace Staging

/-- A registered change of the graph. It says whether it changed anything, or
why it failed, with the outermost reason first. -/
structure Pass where
  name : String
  phase : Phase
  run : Graph → Except Fault (Except (List String) (Bool × Graph))

namespace Pass

/-- A pass runs before another one of a later phase or, within a phase, of a
larger name. -/
def runsBefore (first second : Pass) : Bool :=
  first.phase.rank < second.phase.rank ||
    (first.phase.rank == second.phase.rank && first.name ≤ second.name)

def sorted (passes : List Pass) : List Pass :=
  passes.mergeSort runsBefore

def failure (pass : Pass) (reasons : List String) : Diagnostic :=
  ⟨none, [], "rewriter `" ++ pass.name ++ "` failed: " ++ String.intercalate ": " reasons⟩

end Pass

/-- A result of planning or a report of problems, with the events up to there. -/
structure Outcome (α : Type) where
  events : List Event
  result : Except Report α

namespace Outcome

/-- Goes on with a result and keeps the events. -/
def andThen {α β : Type} (outcome : Outcome α) (next : α → Except Fault (Outcome β)) :
    Except Fault (Outcome β) :=
  match outcome.result with
  | .error report => .ok ⟨outcome.events, .error report⟩
  | .ok value => do
      let after ← next value
      return { after with events := outcome.events ++ after.events }

end Outcome

/-- Options, and passes in the order in which they were registered. -/
structure Planner where
  options : Options := {}
  passes : List Pass := []

namespace Planner

/-- Checks a graph and closes its loose optional outputs. -/
def check (graph : Graph) : Except Fault (Outcome Graph) := do
  let (problems, closed) ← graph.validate
  let events := .validated problems.length :: problems.map Event.diagnostic
  return ⟨events, if problems.isEmpty then .ok closed else .error ⟨problems⟩⟩

/-- Lets passes go over a graph until one fails, and says whether any of them
changed it. -/
def applyPasses : List Pass → Bool → Graph → Except Fault (Outcome (Bool × Graph))
  | [], changed, graph => .ok ⟨[], .ok (changed, graph)⟩
  | pass :: passes, changed, graph => do
      match ← pass.run graph with
      | .error reasons =>
        let problem := pass.failure reasons
        return ⟨[.diagnostic problem], .error ⟨[problem]⟩⟩
      | .ok (changedHere, graph) =>
        let rest ← applyPasses passes (changed || changedHere) graph
        return { rest with
          events := .passApplied pass.name pass.phase changedHere :: rest.events }

/-- Lets the passes go over a graph, and checks it again if it was changed. -/
def transform (planner : Planner) (graph : Graph) : Except Fault (Outcome Graph) := do
  let passed ← applyPasses (Pass.sorted planner.passes) false graph
  passed.andThen fun (changed, graph) =>
    if changed then check graph else .ok ⟨[], .ok graph⟩

def detachEach (regions : List Region) (site : Site) : Except Fault (List Block × Site) :=
  regions.foldlM (fun (blocks, site) region => do
    let (block, site) ← region.detach site
    return (blocks ++ [block], site)) ([], site)

def withoutNodes (graph : Graph) (ids : List NodeId) : Except Fault Graph :=
  ids.foldlM Graph.remove graph

/-- Cuts a normalized graph into blocks, links them and gives each its own nodes. -/
def blocks (graph : Graph) : Except Fault (List Event × Block × Block × List Block × Site) := do
  let (regions, wiring) ← graph.cut
  let events := [.blocksExtracted regions.maps.length regions.reduces.length]
  let site : Site := ⟨graph, regions.link graph wiring⟩
  let (input, site) ← regions.input.detach site
  let (output, site) ← regions.output.detach site
  let (blocks, site) ← detachEach regions.computing site
  let owned ← withoutNodes site.graph graph.nodes.keys
  return (events, input, output, blocks, { site with graph := owned })

/-- Compacts blocks and drops those that have no nodes left. -/
def compactBlocks (blocks : List Block) (site : Site) :
    Except Fault (List Event × List Block × Site) := do
  let (blocks, site) ← Block.compactAll blocks site
  let remaining := blocks.filter fun block => !block.isEmpty
  return ([.blocksCompacted remaining.length (blocks.length - remaining.length)], remaining, site)

/-- Merges stages at equal distance, if that is wanted. -/
def mergeStages (compress : Bool) (stages : List Stage) (site : Site) :
    Except Fault (List Event × List Stage × Site) :=
  if compress then do
    let (merged, site) ← Stage.mergeAll stages site
    let (compacted, site) ← Stage.compactAll merged site
    return ([.stageGroupsMerged stages.length merged.length], compacted, site)
  else .ok ([], stages, site)

/-- Groups the blocks of a normalized graph into stages, beside the block of its
inputs and that of its outputs. -/
def stages (graph : Graph) : Except Fault (List Event × Block × Block × List Stage × Site) := do
  let (extracted, input, output, blocks, site) ← blocks graph
  let (compacted, blocks, site) ← compactBlocks blocks site
  let groups ← Block.group blocks site
  let (stages, site) ← Stage.compactAll groups site
  return (extracted ++ compacted ++ [.stageGroupsBuilt groups.length], input, output, stages, site)

def assemble (graph : Graph) (compress : Bool) : Except Fault (List Event × Plan) := do
  let (grouped, input, output, stages, site) ← stages graph
  let (merged, stages, site) ← mergeStages compress stages site
  let stages ← Stage.ordered stages site.wiring
  return (grouped ++ merged ++ [.stagesOrdered stages.length],
    { graph := site.graph, wiring := site.wiring, input, output, stages })

def optionEvents (compression : Compression) : List Event :=
  match compression.rejected with
  | some value => [.invalidOption Options.compressAttribute value]
  | none => []

/-- Normalizes and plans a graph that has been checked. -/
def planChecked (planner : Planner) (graph : Graph) : Except Fault (Outcome Plan) := do
  let (summary, graph) ← graph.normalize planner.options.flowParts
  let compression := planner.options.compression
  let (events, plan) ← assemble graph compression.enabled
  return ⟨.normalized summary :: optionEvents compression ++ events, .ok plan⟩

def plan (planner : Planner) (source : Graph) : Except Fault (Outcome Plan) := do
  let checked ← check source
  checked.andThen fun graph => do
    let transformed ← planner.transform graph
    transformed.andThen planner.planChecked

end Planner

end Staging
