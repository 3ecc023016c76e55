import Staging.Proofs.Sketches

/-! # What spans hold

The span of the walks from some nodes passes and meets exactly the nodes that
walks reach, on graphs with circuits too. Where a forward span from boundaries
and a backward span from boundaries meet, single walks lead from the one to the
other.
-/

namespace Staging

open Std List

variable {G graph : Graph} {id : NodeId} {starts stops : NodeSet} {direction : Direction}

namespace Graph

/-- The span passes the nodes that are no boundaries, and arrives at the
boundaries, to which walks lead from its startings. -/
structure Spans (graph : Graph) (direction : Direction) (starts : NodeSet) (span : Span) :
    Prop where
  startings : span.startings = starts
  passings : ∀ id, id ∈ span.passings ↔ graph.isBoundary id = false ∧
    ∃ start ∈ starts, ∃ between, graph.Walk direction start between id
  arrivals : ∀ id, id ∈ span.arrivals ↔ graph.isBoundary id = true ∧
    ∃ start ∈ starts, ∃ between, graph.Walk direction start between id

/-- The span holds the nodes of the walks from the first nodes to the second ones. -/
structure Bridges (graph : Graph) (starts stops : NodeSet) (span : Span) : Prop where
  startings : ∀ id, id ∈ span.startings ↔ id ∈ starts ∧
    ∃ stop ∈ stops, ∃ between, graph.Walk .forward id between stop
  passings : ∀ id, id ∈ span.passings ↔ ∃ start ∈ starts, ∃ stop ∈ stops,
    ∃ between, graph.Walk .forward start between stop ∧ id ∈ between
  arrivals : ∀ id, id ∈ span.arrivals ↔ id ∈ stops ∧
    ∃ start ∈ starts, ∃ between, graph.Walk .forward start between id

theorem Consistent.walkFrom_spans (wf : G.Consistent) :
    G.Spans direction starts (G.walkFrom direction starts) :=
  ⟨rfl, fun _ => mem_passings wf, fun _ => mem_arrivals wf⟩

/-- The nodes of a walk are the ends of two walks that meet in them. -/
theorem exists_walk_through {first last : NodeId} :
    (∃ between, G.Walk .forward first between last ∧ id ∈ between) ↔
      G.isBoundary id = false ∧ G.Passes first id ∧ G.Passes id last := by
  rw [passes_iff, passes_iff]
  constructor
  · rintro ⟨between, walk, mem⟩
    obtain ⟨one, two, rfl⟩ := append_of_mem mem
    obtain ⟨walked, clear, walk⟩ := walk_append.mp walk
    exact ⟨clear, ⟨one, walked⟩, two, walk⟩
  · rintro ⟨clear, ⟨one, walked⟩, two, walk⟩
    exact ⟨one ++ id :: two, walk_append.mpr ⟨walked, clear, walk⟩, by simp⟩

/-- Two spans against each other meet on the walks between their boundaries. -/
theorem Consistent.meet_bridges (wf : G.Consistent) (edge : ∀ id ∈ starts, G.isBoundary id)
    (edge' : ∀ id ∈ stops, G.isBoundary id) : G.Bridges starts stops
      ((G.walkFrom .forward starts).meet (G.walkFrom .backward stops)) where
  startings id := by
    simp only [Span.meet, ExtTreeSet.mem_inter_iff, mem_arrivals_backward wf, ← passes_iff]
    constructor
    · rintro ⟨mem, -, reached⟩
      exact ⟨mem, reached⟩
    · rintro ⟨mem, reached⟩
      exact ⟨mem, edge id mem, reached⟩
  passings id := by
    simp only [Span.meet, ExtTreeSet.mem_inter_iff, mem_passings_forward wf,
      mem_passings_backward wf, exists_walk_through]
    constructor
    · rintro ⟨⟨clear, start, mem, walked⟩, -, stop, mem', walk⟩
      exact ⟨start, mem, stop, mem', clear, walked, walk⟩
    · rintro ⟨start, mem, stop, mem', clear, walked, walk⟩
      exact ⟨⟨clear, start, mem, walked⟩, clear, stop, mem', walk⟩
  arrivals id := by
    simp only [Span.meet, ExtTreeSet.mem_inter_iff, mem_arrivals_forward wf, ← passes_iff]
    constructor
    · rintro ⟨⟨-, reached⟩, mem⟩
      exact ⟨mem, reached⟩
    · rintro ⟨mem, reached⟩
      exact ⟨⟨edge' id mem, reached⟩, mem⟩

/-- Walks from nodes that exist end, hold exactly the nodes that walks along or
against the connections reach, and meet on single walks from boundaries to boundaries. -/
theorem Consistent.walk_exact (wf : graph.Consistent)
    (has : ∀ id ∈ starts, ∃ node, graph.nodes[id]? = some node)
    (has' : ∀ id ∈ stops, ∃ node, graph.nodes[id]? = some node) :
    ∃ ahead behind, graph.walk .forward starts = .ok ahead ∧
      graph.walk .backward stops = .ok behind ∧
      graph.Spans .forward starts ahead ∧ graph.Spans .backward stops behind ∧
      ((∀ id ∈ starts, graph.isBoundary id = true) → (∀ id ∈ stops, graph.isBoundary id = true) →
        ∃ span, ahead.between behind = .ok span ∧ graph.Bridges starts stops span) := by
  have walked : ∀ {direction : Direction} {ids : NodeSet},
      (∀ id ∈ ids, ∃ node, graph.nodes[id]? = some node) →
      graph.walk direction ids = .ok (graph.walkFrom direction ids) := by
    intro direction ids has
    rw [walk, checkNodes_eq_ok fun id mem => has id (ExtTreeSet.mem_toList.mp mem)]
    rfl
  refine ⟨_, _, walked has, walked has', wf.walkFrom_spans, wf.walkFrom_spans,
    fun edge edge' => ⟨_, ?_, wf.meet_bridges edge edge'⟩⟩
  rfl

/-- Two operators in a circuit between two checkpoints. -/
def circling : Sketch where
  figures := [.node "from" (.pseudo .checkpoint) .stage, .node "one" (.operator .map) .none,
    .node "two" (.operator .map) .none, .node "to" (.pseudo .checkpoint) .stage]
  arrows := [(0, 1), (1, 2), (2, 1), (2, 3)]

/-- The operators of the circuit lie between the checkpoints. -/
theorem walk_exact_circling : ∃ graph : Graph, circling.draw = .ok graph ∧
    graph.Precedes ⟨3⟩ ⟨6⟩ ∧ graph.Precedes ⟨6⟩ ⟨3⟩ ∧ ∃ ahead behind span,
      graph.walk .forward (HandleSet.of [⟨0⟩]) = .ok ahead ∧
      graph.walk .backward (HandleSet.of [⟨9⟩]) = .ok behind ∧
      ahead.between behind = .ok span ∧
      graph.Bridges (HandleSet.of [⟨0⟩]) (HandleSet.of [⟨9⟩]) span := by
  have drawn : circling.draw.toOption.any (fun graph =>
      graph.isBoundary ⟨0⟩ && graph.isBoundary ⟨9⟩ && (graph.successors ⟨3⟩).contains ⟨6⟩ &&
        (graph.successors ⟨6⟩).contains ⟨3⟩) = true := by
    decide +kernel
  simp only [any_toOption, Bool.and_eq_true, ExtTreeSet.contains_iff_mem] at drawn
  obtain ⟨graph, drawn, ⟨⟨edge, edge'⟩, there⟩, back⟩ := drawn
  have wf := (Sketch.built_of_draw drawn).1.founded.wf
  have only : ∀ {tip : NodeId}, graph.isBoundary tip = true →
      ∀ id ∈ HandleSet.of [tip], graph.isBoundary id = true := by
    intro tip edge id mem
    rw [HandleSet.mem_of, mem_singleton] at mem
    rwa [mem]
  have has : ∀ {ids : NodeSet}, (∀ id ∈ ids, graph.isBoundary id = true) →
      ∀ id ∈ ids, ∃ node, graph.nodes[id]? = some node := by
    intro ids edges id mem
    obtain ⟨node, got, -⟩ := (Option.any_eq_true ..).mp (edges id mem)
    exact ⟨node, got⟩
  obtain ⟨ahead, behind, forth, back', -, -, meet⟩ :=
    wf.walk_exact (has (only edge)) (has (only edge'))
  obtain ⟨span, met, bridges⟩ := meet (only edge) (only edge')
  exact ⟨graph, drawn, wf.mem_successors.mp there, wf.mem_successors.mp back, ahead, behind, span,
    forth, back', met, bridges⟩

end Graph

end Staging
