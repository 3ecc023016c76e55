import Staging.Planner
import Staging.Proofs.Building

/-! # Sketches of graphs

A sketch lists nodes with at most one port on each side and says which of them
are connected. The graph that is drawn from it was built step by step and has
no nested scopes.
-/

namespace Staging

open Std

variable {G graph joined : Graph} {decl : NodeDecl} {sketch : Sketch}

namespace Graph

/-- The graph has no flow parts. -/
def Partless (graph : Graph) : Prop :=
  ∀ (id : NodeId) node scope, graph.nodes[id]? = some node → node.kind ≠ .flowPart scope

private theorem Partless.create (partless : G.Partless)
    (plain : ∀ scope, decl.kind ≠ .flowPart scope) : (G.create decl).2.Partless := by
  intro id node scope got
  rw [create_nodes] at got
  split at got
  · cases got
    exact plain scope
  · exact partless id node scope got

private theorem Partless.addNode {grown : Graph} (partless : G.Partless)
    {id : NodeId} (added : G.addNode decl = .ok (id, grown)) : grown.Partless := by
  obtain ⟨-, -, plain, eq⟩ := of_addNode added
  have grows := partless.create plain
  rwa [eq] at grows

private theorem Partless.connect (partless : G.Partless) {out : OutputId}
    {input : InputId} (connected : G.connect out input = .ok joined) : joined.Partless := by
  obtain ⟨_, _, -, -, rfl⟩ := of_connect connected
  exact partless

private theorem Partless.connectNodes (partless : G.Partless)
    {source target : NodeId} {outputIndex inputIndex : Nat}
    (connected : G.connectNodes source outputIndex target inputIndex = .ok joined) :
    joined.Partless := by
  obtain ⟨out, input, connected⟩ := of_connectNodes connected
  exact partless.connect connected

end Graph

/-- A node of a sketch. -/
inductive Figure where
  | input (name : String)
  | output (name : String)
  | node (name : String) (kind : Kind) (boundary : Boundary)
  | effect (name : String) (operator : Operator) (observation : Observation)
  | empty (name : String)

/-- Nodes, and the places of those that are connected. -/
structure Sketch where
  figures : List Figure
  arrows : List (Nat × Nat)

/-- The type of all data in sketches. -/
def Figure.dataType : DataType := ⟨"T"⟩

/-- Adds a node to a graph. -/
def Figure.add (graph : Graph) : Figure → Except BuildError (NodeId × Graph)
  | .input name => .ok (graph.addInput name dataType)
  | .output name => .ok (graph.addOutput name dataType)
  | .node name kind boundary => graph.addNode
      { name, kind, boundary, inputs := [{ name := "in", dataType }],
        outputs := [{ name := "out", dataType }] }
  | .effect name operator observation => graph.addNode
      { name, kind := .operator operator, observation, inputs := [{ name := "in", dataType }],
        outputs := [{ name := "out", dataType }] }
  | .empty name => graph.addNode
      { name, kind := .pseudo .empty, inputs := [], outputs := [{ name := "out", dataType }] }

namespace Sketch

/-- Adds the nodes of a sketch. -/
def drawFigures (sketch : Sketch) : Except BuildError (List NodeId × Graph) :=
  sketch.figures.foldlM (fun (ids, graph) figure => do
    let (id, graph) ← figure.add graph
    return (ids ++ [id], graph)) ([], {})

/-- Connects two of the nodes. -/
def drawArrow (ids : List NodeId) (graph : Graph) (arrow : Nat × Nat) : Except BuildError Graph :=
  match ids[arrow.1]?, ids[arrow.2]? with
  | some source, some target => graph.connectNodes source 0 target 0
  | _, _ => .ok graph

/-- The graph of a sketch. -/
def draw (sketch : Sketch) : Except BuildError Graph := do
  let (ids, graph) ← sketch.drawFigures
  sketch.arrows.foldlM (drawArrow ids) graph

theorem built_of_draw (drawn : sketch.draw = .ok G) : G.Built ∧ G.Partless := by
  obtain ⟨⟨ids, grown⟩, figures, drawn⟩ := of_bind drawn
  have start : Graph.Built {} ∧ Graph.Partless {} := ⟨.empty, fun _ _ _ got => by simp at got⟩
  have base := foldlM_carries (fun _ state => state.2.Built ∧ state.2.Partless) ?_ start figures
  · refine foldlM_carries (fun _ G => G.Built ∧ G.Partless) ?_ base drawn
    rintro ⟨source, target⟩ _ G joined ⟨built, partless⟩ arrow
    simp only [drawArrow] at arrow
    split at arrow
    · exact ⟨built.connectNodes arrow, partless.connectNodes arrow⟩
    · cases arrow
      exact ⟨built, partless⟩
  · rintro figure _ ⟨ids, G⟩ _ ⟨built, partless⟩ step
    obtain ⟨⟨id, grown⟩, added, ⟨⟩⟩ := of_bind step
    cases figure with
    | input name =>
      cases added
      exact ⟨.addInput name _ built, partless.create (fun _ => nofun)⟩
    | output name =>
      cases added
      exact ⟨.addOutput name _ built, partless.create (fun _ => nofun)⟩
    | node name kind boundary => exact ⟨built.addNode added, partless.addNode added⟩
    | effect name operator observation =>
      rw [Figure.add] at added
      exact ⟨built.addNode added, partless.addNode added⟩
    | empty name =>
      rw [Figure.add] at added
      exact ⟨built.addNode added, partless.addNode added⟩

/-- A planner plans the sketch in a way that passes a test. -/
def plans (sketch : Sketch) (planner : Planner) (test : Graph → Plan → Bool) : Bool :=
  match sketch.draw with
  | .error _ => false
  | .ok graph =>
    match planner.plan graph with
    | .ok ⟨_, .ok plan⟩ => test graph plan
    | _ => false

theorem exists_of_plans {planner : Planner} {test : Graph → Plan → Bool}
    (planned : sketch.plans planner test) :
    ∃ source events plan, sketch.draw = .ok source ∧ source.Built ∧ source.Isolated ∧
      planner.plan source = .ok ⟨events, .ok plan⟩ ∧ test source plan := by
  rw [plans] at planned
  split at planned
  · cases planned
  · next source drawn =>
    obtain ⟨built, partless⟩ := built_of_draw drawn
    split at planned
    · next events plan returned =>
      exact ⟨source, events, plan, drawn, built, Graph.isolated_of_flat partless, returned, planned⟩
    · cases planned

/-! ## Some sketches -/

/-- A shuffle between two operators. -/
def shuffled : Sketch where
  figures := [.input "a", .node "x" (.operator .map) .none, .node "s" (.operator .fold) .shuffle,
    .node "y" (.operator .map) .none, .output "b"]
  arrows := [(0, 1), (1, 2), (2, 3), (3, 4)]

/-- A shuffle and an input feed the same port of a branch. -/
def leaking : Sketch where
  figures := [.input "a", .input "e", .node "x" (.operator .map) .none,
    .node "s" (.operator .fold) .shuffle, .node "y" (.operator .branch) .none, .output "b"]
  arrows := [(0, 2), (2, 3), (3, 4), (1, 4), (4, 5)]

/-- One operator feeds two shuffles. -/
def forked : Sketch where
  figures := [.input "a", .node "x" (.operator .map) .none, .node "s" (.operator .fold) .shuffle,
    .node "t" (.operator .fold) .shuffle, .output "b", .output "c"]
  arrows := [(0, 1), (1, 2), (1, 3), (2, 4), (3, 5)]

/-- One operator, which runs exactly once, feeds two shuffles. -/
def counted : Sketch where
  figures := [.input "a", .effect "x" .map .exactlyOnce, .node "s" (.operator .fold) .shuffle,
    .node "t" (.operator .fold) .shuffle, .output "b", .output "c"]
  arrows := [(0, 1), (1, 2), (1, 3), (2, 4), (3, 5)]

/-- An operator feeds the output, and so does a shuffle that no data reaches. -/
def hollow : Sketch where
  figures := [.input "a", .node "x" (.operator .map) .none, .empty "e",
    .node "s" (.operator .fold) .shuffle, .output "b"]
  arrows := [(0, 1), (1, 4), (2, 3), (3, 4)]

/-- An operator is a stage boundary. -/
def staged : Sketch where
  figures := [.input "a", .node "x" (.operator .map) .stage, .output "b"]
  arrows := [(0, 1), (1, 2)]

end Sketch

end Staging
