/-! # Phases

Passes over the graph run phase by phase, in the order of the phases.
-/

namespace Staging

/-- When a pass runs relative to the others. -/
inductive Phase where
  | earlyDebug
  | earlyOptimize
  | laterDebug
  | laterOptimize
deriving DecidableEq

namespace Phase

def name : Phase → String
  | .earlyDebug => "EarlyDebug"
  | .earlyOptimize => "EarlyOptimize"
  | .laterDebug => "LaterDebug"
  | .laterOptimize => "LaterOptimize"

def all : List Phase := [.earlyDebug, .earlyOptimize, .laterDebug, .laterOptimize]

/-- The place of a phase in the order of phases. -/
def rank : Phase → Nat
  | .earlyDebug => 0
  | .earlyOptimize => 1
  | .laterDebug => 2
  | .laterOptimize => 3

end Phase

end Staging
