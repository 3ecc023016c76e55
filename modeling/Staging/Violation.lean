import Staging.Handle
import Staging.Text.Quoted

/-! # Violations

What an audit can find wrong with a plan or with a normalized graph.
-/

namespace Staging

/-- A property that does not hold, with what breaks it. -/
inductive Violation where
  | backwardLink (exit : BlockOutputId) (entry : BlockInputId) (source target : Nat)
  | sharedNode (node : NodeId) (first second : BlockId)
  | plainEntry (block : BlockId) (node : String)
  | misplacedReduce (stage : Nat) (block : BlockId)
  | shuffleChain (first second : String)
  | fannedIdentity (node : NodeId) (sources targets : Nat)
  | lostOperators (names : List String)
deriving DecidableEq

def Violation.message : Violation → String
  | .backwardLink exit entry source target =>
    "link " ++ exit.text ++ " -> " ++ entry.text ++ " goes from stage " ++ toString source ++
      " to stage " ++ toString target
  | .sharedNode node first second =>
    "node " ++ node.text ++ " is in both " ++ first.text ++ " and " ++ second.text
  | .plainEntry block node =>
    "reduce block " ++ block.text ++ " is fed through `" ++ node ++ "`, which does not shuffle"
  | .misplacedReduce stage block =>
    "stage " ++ toString stage ++ " lists reduce block " ++ block.text ++
      " among its map blocks"
  | .shuffleChain first second =>
    "shuffle `" ++ first ++ "` feeds shuffle `" ++ second ++ "` directly"
  | .fannedIdentity node sources targets =>
    "identity " ++ node.text ++ " has " ++ toString sources ++ " upstream and " ++
      toString targets ++ " downstream connection(s)"
  | .lostOperators names => "operators missing from the plan: " ++ Text.quotedList names

end Staging
