import Staging.Stage

/-! # Plans

A plan has stages in order, a block around the inputs of the whole graph and a
block around its outputs. All blocks have their nodes in one graph and their
ports in one wiring.
-/

namespace Staging

structure Plan where
  graph : Graph
  wiring : Wiring
  input : Block
  output : Block
  stages : List Stage

namespace Plan

def site (plan : Plan) : Site :=
  ⟨plan.graph, plan.wiring⟩

/-- The input block, the blocks of the stages in order, and the output block. -/
def blocks (plan : Plan) : List Block :=
  plan.input :: plan.stages.flatMap Stage.blocks ++ [plan.output]

def block? (plan : Plan) (id : BlockId) : Option Block :=
  plan.blocks.find? fun block => block.id == id

/-- The place in the plan of the stage that contains a block. -/
def stageIndex? (plan : Plan) (id : BlockId) : Option Nat :=
  plan.stages.findIdx? fun stage => stage.contains id

/-- The stage that contains a block; the input and the output block are in none. -/
def stageOf? (plan : Plan) (id : BlockId) : Option Stage :=
  plan.stages.find? fun stage => stage.contains id

end Plan

end Staging
