import Staging.Proofs.Numbering

/-! # Sides of stages

The block inputs of a reduce block wrap inputs of shuffles, and those of a map block wrap
none, whatever graph is planned and whether stages are merged or not. A block that has lost
all of its block inputs is taken for a map block and is merged with others.
-/

namespace Staging

open Std List

/-- Each block input of a stage wraps an input of a node of its block, which is a
shuffle exactly if the block is listed among the reduce blocks. -/
def Plan.EnteredBySide (plan : Plan) : Prop :=
  ∀ stage ∈ plan.stages, ∀ block ∈ stage.blocks, ∀ entry ∈ block.inputs,
    ∃ input owner node, plan.wiring.inputs[entry]? = some input ∧ input.block = block.id ∧
      owner ∈ block.nodes ∧ plan.graph.nodes[owner]? = some node ∧ input.port ∈ node.inputs ∧
      (node.isShuffleBoundary = true ↔ block ∈ stage.reduces)

/-- Stages on their sides are entered by them, in whatever order they are listed. -/
theorem Facing.enteredBySide {side : BlockId → Option Bool} {input out : Block}
    {stages ordered : List Stage} {site : Site}
    (facing : Facing side [input, out] (stages.flatMap Stage.blocks) site)
    (stands : ∀ stage ∈ stages, stage.At side id)
    (run : Stage.ordered stages site.wiring = .ok ordered) :
    Plan.EnteredBySide ⟨site.graph, site.wiring, input, out, ordered⟩ := by
  obtain ⟨_, run', spec, -⟩ := Stage.ordered_eq_ok facing.roster
  cases run.symm.trans run'
  intro stage mem block own entry has
  obtain ⟨other, mem', maps, reduces⟩ := spec.mem stage mem
  have stands : stage.At side id := by
    have stands := stands other mem'
    rwa [Stage.At, maps, reduces] at stands
  have inside : block ∈ stages.flatMap Stage.blocks :=
    spec.blocks.mem_iff.mp (mem_flatMap.mpr ⟨stage, mem, own⟩)
  obtain ⟨port, entered⟩ := (facing.roster.entries block (mem_append_right _ inside) entry).mp has
  obtain ⟨reduce, known⟩ := facing.known block inside
  obtain ⟨_, faced⟩ := facing.faces
  obtain ⟨owner, ⟨within, shuffles⟩, owned⟩ := (faced block inside reduce known).entered entry port
    entered
  obtain ⟨node, got, owns⟩ := facing.graph.node_of_input owned
  obtain ⟨wraps, stored, eq⟩ := Option.map_eq_some_iff.mp entered
  obtain ⟨block', rfl⟩ := Prod.mk.inj eq
  refine ⟨wraps, owner, node, stored, block', within, got, owns, ?_⟩
  have kind : node.isShuffleBoundary = reduce := by
    rwa [Graph.isShuffleBoundary, got] at shuffles
  rw [kind]
  constructor
  · rintro rfl
    rcases mem_append.mp own with map | mem
    · cases known.symm.trans (stands.1 block map)
    · exact mem
  · intro mem
    exact Option.mem_unique known (stands.2 block mem)

namespace Planner

variable {planner : Planner} {source : Graph} {plan : Plan} {events : List Event}

/-- Merged stages are on their sides. -/
theorem enteredBySide_of_assemble {G : Graph} (wf : G.Consistent)
    {compress : Bool} (run : assemble G compress = .ok (events, plan)) :
    plan.EnteredBySide := by
  obtain ⟨⟨grouped, input, out, stages, site⟩, gathered, run⟩ := of_bind run
  obtain ⟨⟨merged, stages', site'⟩, merges, run⟩ := of_bind run
  obtain ⟨ordered, orders, ⟨⟩⟩ := of_bind run
  obtain ⟨side, facing, stands⟩ := facing_stages wf gathered
  cases compress with
  | false =>
    cases merges
    exact facing.enteredBySide stands orders
  | true =>
    obtain ⟨⟨stages₁, site₁⟩, buckets, merges⟩ := of_bind merges
    obtain ⟨⟨stages₂, site₂⟩, compacts, ⟨⟩⟩ := of_bind merges
    obtain ⟨side', facing₁, stands₁⟩ := facing.mergeAll stands buckets
    obtain ⟨facing₂, stands₂⟩ := facing₁.compactStages stands₁ compacts
    exact facing₂.enteredBySide stands₂ orders

/-- Block inputs are on the sides of their blocks in every plan. -/
theorem plan_enteredBySide (built : source.Built)
    (keep : ∀ pass ∈ planner.passes, pass.KeepsConsistent)
    (returned : planner.plan source = .ok ⟨events, .ok plan⟩) : plan.EnteredBySide := by
  obtain ⟨working, events', wf, assembled⟩ := exists_assemble_of_plan built.founded.wf keep returned
  exact enteredBySide_of_assemble wf assembled

set_option maxRecDepth 100000 in
theorem plan_enteredBySide_shuffled : ∃ source events plan,
    ({} : Planner).plan source = .ok ⟨events, .ok plan⟩ ∧
      (∃ stage ∈ plan.stages, ∃ block ∈ stage.reduces, block.inputs ≠ []) ∧
      plan.EnteredBySide := by
  have planned : Sketch.shuffled.plans {} (fun _ plan => plan.stages.any fun stage =>
      stage.reduces.any fun block => !block.inputs.isEmpty) = true := by decide +kernel
  obtain ⟨source, events, plan, -, built, -, returned, reduced⟩ := Sketch.exists_of_plans planned
  simp only [any_eq_true, Bool.not_eq_true', isEmpty_eq_false_iff] at reduced
  exact ⟨source, events, plan, returned, reduced, plan_enteredBySide built (by simp) returned⟩

set_option maxRecDepth 100000 in
/-- A shuffle that only an empty source feeds ends up in a map block, together with a node
that the input feeds. -/
theorem hollow_plan_mixes_sides : ∃ source events plan, source.Built ∧ source.Isolated ∧
    ({} : Planner).plan source = .ok ⟨events, .ok plan⟩ ∧ ∃ stage ∈ plan.stages,
      ∃ block ∈ stage.maps, block.inputs ≠ [] ∧ (∃ id ∈ block.nodes,
        plan.graph.isShuffleBoundary id = true) ∧ ∃ id ∈ block.nodes,
          plan.graph.isShuffleBoundary id = false := by
  have planned : Sketch.hollow.plans {} (fun _ plan => plan.stages.any fun stage =>
      stage.maps.any fun block => !block.inputs.isEmpty &&
        (block.nodes.toList.any plan.graph.isShuffleBoundary &&
          block.nodes.toList.any fun id => !plan.graph.isShuffleBoundary id)) = true := by
    decide +kernel
  obtain ⟨source, events, plan, -, built, isolated, returned, mixed⟩ :=
    Sketch.exists_of_plans planned
  simp only [any_eq_true, Bool.and_eq_true, Bool.not_eq_true', isEmpty_eq_false_iff,
    ExtTreeSet.mem_toList] at mixed
  exact ⟨source, events, plan, built, isolated, returned, mixed⟩

end Planner

end Staging
