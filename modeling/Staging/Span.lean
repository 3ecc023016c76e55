import Staging.Graph.Reach

/-! # Spans

A walk from some nodes goes on until it meets boundaries. It is kept as a span:
the nodes it started from, the nodes it passed, none of which is a boundary,
and the boundaries at which it arrived. What lies between two boundaries is
where a forward walk from the one and a backward walk from the other meet.
-/

namespace Staging

/-- The nodes of walks in one direction. -/
structure Span where
  direction : Direction
  startings : NodeSet
  passings : NodeSet
  arrivals : NodeSet
deriving BEq

namespace Graph

/-- The nodes one step away from a node. -/
def step (graph : Graph) : Direction → NodeId → NodeSet
  | .forward => graph.successors
  | .backward => graph.predecessors

/-- One step on from a node that is no boundary. -/
def stepOn (graph : Graph) (direction : Direction) (id : NodeId) : NodeSet :=
  if graph.isBoundary id then ∅ else graph.step direction id

/-- The span of the walks from the given nodes. -/
def walkFrom (graph : Graph) (direction : Direction) (startings : NodeSet) : Span :=
  let visited := graph.reach (graph.stepOn direction)
    (HandleSet.gather startings.toList (graph.step direction))
  { direction
    startings
    passings := visited.filter fun id => !graph.isBoundary id
    arrivals := visited.filter graph.isBoundary }

/-- The span of the walks from nodes that exist. -/
def walk (graph : Graph) (direction : Direction) (startings : NodeSet) : Except Fault Span := do
  graph.checkNodes startings.toList
  return graph.walkFrom direction startings

end Graph

namespace Span

def join (first second : Span) : Span :=
  { direction := first.direction
    startings := first.startings ∪ second.startings
    passings := first.passings ∪ second.passings
    arrivals := first.arrivals ∪ second.arrivals }

/-- The nodes that two spans share when the second is read against its direction. -/
def meet (first second : Span) : Span :=
  { direction := first.direction
    startings := first.startings ∩ second.arrivals
    passings := first.passings ∩ second.passings
    arrivals := first.arrivals ∩ second.startings }

def union (first second : Span) : Except Fault Span :=
  if first.direction = second.direction then .ok (first.join second)
  else .error (.unlikeDirections first.direction second.direction)

/-- The nodes that two spans of opposite directions share. -/
def between (first second : Span) : Except Fault Span :=
  if first.direction = second.direction.opposite then .ok (first.meet second)
  else .error (.likeDirections first.direction second.direction.opposite)

/-- The spans pass a common node. -/
def touches (first second : Span) : Bool :=
  !HandleSet.disjoint first.passings second.passings

/-- Adds a span to others. As long as it passes a common node with one of them,
the first such span is taken out and joined with it. -/
def absorb (spans : List Span) (span : Span) : List Span :=
  match found : spans.find? (·.touches span) with
  | none => spans ++ [span]
  | some other =>
    have : (spans.eraseP (·.touches span)).length < spans.length := by
      have has := List.mem_of_find?_eq_some found
      rw [List.length_eraseP_of_mem has (List.find?_some found)]
      exact Nat.sub_one_lt_of_lt (List.length_pos_of_mem has)
    absorb (spans.eraseP (·.touches span)) (other.join span)
termination_by spans.length

/-- The unions of the spans that pass common nodes, directly or through others. -/
def mergeOverlapping (spans : List Span) : List Span :=
  spans.foldl absorb []

end Span

end Staging
