import Staging.Proofs.Scoping
import Staging.Proofs.Seclusion

/-! # What compaction leaves of a block

Compaction of a secluded block without circuits is complete. Data gets to every
node that is left and from there to where it is of use, block ports wrap
different ports and have links, and there is nothing left for a second
compaction.
-/

namespace Staging

open Std Relation List

namespace Placed

variable {B placed post : Placed} {id : NodeId}

/-- Data starts at the node: it is a boundary or a source that produces something, or a
block input with links wraps one of its ports. -/
def IsFed (placed : Placed) (id : NodeId) : Prop :=
  ∃ node, placed.graph.nodes[id]? = some node ∧ (node.isBoundary = true ∨
    node.inputs = [] ∧ node.kind ≠ .pseudo .empty ∨
    ∃ port ∈ node.inputs, ∃ entry ∈ placed.block.inputs, ∃ exit,
      placed.wiring.inputPort? entry = some port ∧ placed.wiring.Linked exit entry)

/-- Data is of use at the node: it is a boundary or has a mandatory effect, or a block
output with links wraps one of its ports. -/
def IsUsed (placed : Placed) (id : NodeId) : Prop :=
  ∃ node, placed.graph.nodes[id]? = some node ∧ (node.isBoundary = true ∨
    node.hasMandatoryEffect = true ∨
    ∃ port ∈ node.outputs, ∃ exit ∈ placed.block.outputs, ∃ entry,
      placed.wiring.outputPort? exit = some port ∧ placed.wiring.Linked exit entry)

section Dense

variable (dense : B.Dense) (secluded : B.Secluded)
  (acyclic : ∀ id ∈ B.block.nodes, ¬ TransGen B.graph.Precedes id id)

include dense secluded acyclic

/-- Behind what feeds a node there is a node at which data starts. -/
theorem Dense.exists_isFed (own : id ∈ B.block.nodes) :
    ∃ first ∈ B.block.nodes, ReflTransGen B.graph.Precedes first id ∧
      B.IsFed first := by
  induction rank : B.graph.rank id using Nat.strong_induction_on generalizing id with
  | h _ ih =>
    obtain ⟨node, got⟩ := secluded.nodes id own
    cases clear : node.isBoundary with
    | true => exact ⟨id, own, .refl, node, got, .inl clear⟩
    | false =>
      rcases (dense.busy secluded.graph own got clear).1 with
        start | ⟨port, mem, ⟨out, fed⟩ | entered⟩
      · exact ⟨id, own, .refl, node, got, .inr (.inl start)⟩
      · obtain ⟨pre, owned⟩ := Graph.exists_outputOwner_of_feeds fed
        have prec : B.graph.Precedes pre id :=
          ⟨out, port, owned, secluded.graph.input_of_mem got mem, fed⟩
        have own' := (secluded.inside pre id prec).mpr own
        obtain ⟨first, inside, path, starts⟩ := ih _
          (rank ▸ Graph.rank_lt secluded.graph prec (acyclic pre own')) own' rfl
        exact ⟨first, inside, path.tail prec, starts⟩
      · exact ⟨id, own, .refl, node, got, .inr (.inr ⟨port, mem, entered⟩)⟩

/-- Ahead of what a node feeds there is a node at which data is of use. -/
theorem Dense.exists_isUsed (own : id ∈ B.block.nodes) :
    ∃ last ∈ B.block.nodes, ReflTransGen B.graph.Precedes id last ∧
      B.IsUsed last := by
  induction rest : B.graph.nodes.size - B.graph.rank id using Nat.strong_induction_on
    generalizing id with
  | h _ ih =>
    obtain ⟨node, got⟩ := secluded.nodes id own
    cases clear : node.isBoundary with
    | true => exact ⟨id, own, .refl, node, got, .inl clear⟩
    | false =>
      rcases (dense.busy secluded.graph own got clear).2 with
        stop | ⟨port, mem, ⟨input, fed⟩ | left⟩
      · exact ⟨id, own, .refl, node, got, .inr (.inl stop)⟩
      · obtain ⟨next, owned⟩ := secluded.graph.exists_inputOwner fed
        have prec : B.graph.Precedes id next :=
          ⟨port, input, secluded.graph.output_of_mem got mem, owned, fed⟩
        have own' := (secluded.inside id next prec).mp own
        have higher := Graph.rank_lt secluded.graph prec (acyclic id own)
        have bound := B.graph.rank_le next
        obtain ⟨last, inside, path, stops⟩ := ih _ (by omega) own' rfl
        exact ⟨last, inside, path.head prec, stops⟩
      · exact ⟨id, own, .refl, node, got, .inr (.inr ⟨port, mem, left⟩)⟩

end Dense

/-- Compaction of a secluded block without circuits is complete, and a second one changes
nothing. -/
theorem compact_complete (secluded : placed.Secluded)
    (acyclic : ∀ id ∈ placed.block.nodes, ¬ TransGen placed.graph.Precedes id id) :
    ∃ after, placed.compact = .ok after ∧ (∀ id ∈ after.block.nodes,
        (∃ first ∈ after.block.nodes, ReflTransGen after.graph.Precedes first id ∧
          after.IsFed first) ∧
        ∃ last ∈ after.block.nodes, ReflTransGen after.graph.Precedes id last ∧ after.IsUsed last) ∧
      (∀ entry ∈ after.block.inputs, (∃ exit, after.wiring.Linked exit entry) ∧
        ∀ other ∈ after.block.inputs,
          after.wiring.inputPort? entry = after.wiring.inputPort? other → entry = other) ∧
      (∀ exit ∈ after.block.outputs, (∃ entry, after.wiring.Linked exit entry) ∧
        ∀ other ∈ after.block.outputs,
          after.wiring.outputPort? exit = after.wiring.outputPort? other → exit = other) ∧
      after.compaction = .ok (false, after) := by
  have steps := steps_compacted secluded.toSeated
  have secluded' := secluded.of_steps steps
  have dense := dense_compacted secluded.toSeated
  have acyclic' : ∀ id ∈ placed.compacted.block.nodes,
      ¬ TransGen placed.compacted.graph.Precedes id id := fun id own circuit =>
    acyclic id ((fewer_of_steps secluded.toSeated steps).nodes id own)
      (TransGen.mono (fun _ _ => precedes_of_steps secluded.toSeated steps) _ _ circuit)
  refine ⟨placed.compacted, secluded.compact_eq_ok, fun id own =>
    ⟨dense.exists_isFed secluded' acyclic' own, dense.exists_isUsed secluded' acyclic' own⟩,
    fun entry own => ⟨dense.linked entry own, fun other own' eq => ?_⟩,
    fun exit own => ⟨dense.linked' exit own, fun other own' eq => ?_⟩,
    compaction_eq_self (dense.compact_eq_self secluded')⟩
  · obtain ⟨port, entered⟩ := secluded'.entries entry own
    obtain ⟨port', entered'⟩ := secluded'.entries other own'
    rw [Wiring.inputPort?_eq, Wiring.inputPort?_eq, entered, entered'] at eq
    cases eq
    exact dense.entries entry own other own' (entered.trans entered'.symm)
  · obtain ⟨port, left⟩ := secluded'.exits exit own
    obtain ⟨port', left'⟩ := secluded'.exits other own'
    rw [Wiring.outputPort?_eq, Wiring.outputPort?_eq, left, left'] at eq
    cases eq
    exact dense.exits exit own other own' (left.trans left'.symm)

theorem compact_complete_isthmus : ⟨3⟩ ∈ isthmus.block.nodes ∧
    ∃ after, isthmus.compact = .ok after ∧ after.compaction = .ok (false, after) := by
  obtain ⟨after, run, -, -, -, again⟩ := compact_complete secluded_isthmus
    fun id _ circuit => not_precedes_isthmus _ _ (TransGen.head'_iff.mp circuit).choose_spec.1
  exact ⟨by decide +kernel, after, run, again⟩

end Placed

end Staging
