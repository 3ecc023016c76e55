import Staging.Proofs.Planning
import Staging.Proofs.Sketches

/-! # Plans that cannot be compacted further

Blocks are compacted before they are grouped, and from then on blocks are bypassed
and merged while others stay as they are. A plan is fully compacted in the end: neither its
blocks nor its stages can be compacted further.
-/

namespace Staging

open List

/-- Each block port of a stage has a link, and compaction of a block or of a stage finds
nothing to take out and changes nothing. -/
structure Plan.Compacted (plan : Plan) : Prop where
  entered : ∀ stage ∈ plan.stages, ∀ block ∈ stage.blocks, ∀ entry ∈ block.inputs,
    ∃ exit, exit ∈ plan.wiring.sources entry
  left : ∀ stage ∈ plan.stages, ∀ block ∈ stage.blocks, ∀ exit ∈ block.outputs,
    ∃ entry, entry ∈ plan.wiring.targets exit
  blocks : ∀ stage ∈ plan.stages, ∀ block ∈ stage.blocks,
    Placed.compaction ⟨plan.graph, plan.wiring, block⟩ =
      .ok (false, ⟨plan.graph, plan.wiring, block⟩)
  stages : ∀ stage ∈ plan.stages,
    stage.compaction plan.site = .ok (false, stage, plan.site)

namespace Taut

variable {G : Graph} {origins : Origins} {kind : BlockId → Bool} {place : Places}
  {plan : Plan}
  (taut : Taut G origins kind place plan.input plan.output (plan.stages.flatMap Stage.blocks)
    plan.site)

include taut

/-- A plan whose blocks are taut is fully compacted if its stages are. -/
theorem compacted
    (still : ∀ stage ∈ plan.stages, stage.compact plan.site = .ok (stage, plan.site)) :
    plan.Compacted := by
  have inner : ∀ stage ∈ plan.stages, ∀ block ∈ stage.blocks,
      block ∈ plan.stages.flatMap Stage.blocks := fun stage mem block own =>
    mem_flatMap.mpr ⟨stage, mem, own⟩
  refine ⟨fun stage mem block own entry has => ?_, fun stage mem block own exit => ?_,
    fun stage mem block own => ?_, fun stage mem => ?_⟩
  · obtain ⟨exit, link⟩ := (taut.tight block (inner stage mem block own)).entered entry has
    exact ⟨exit, (taut.arranged.wf.agree exit entry).mp link⟩
  · exact (taut.tight block (inner stage mem block own)).left exit
  · obtain ⟨early, late, eq⟩ := mem_iff_append.mp (inner stage mem block own)
    have front : Arranged G origins kind place plan.site
        (block :: ([plan.input, plan.output] ++ early ++ late)) := by
      refine taut.arranged.perm ?_
      rw [eq, ← append_assoc]
      exact perm_middle
    exact Placed.compaction_eq_self
      (Placed.compact_eq_self front (taut.tight block (inner stage mem block own)))
  · rw [Stage.compaction, bind_of_ok (still stage mem)]
    simp only [Stage.hasShrunk, Nat.lt_irrefl, decide_false]
    rfl

end Taut

namespace Planner

variable {planner : Planner} {source : Graph} {plan : Plan} {events : List Event}

/-- Every plan is fully compacted. -/
theorem plan_compacted (built : source.Built) (isolated : source.Isolated)
    (bare : planner.passes = []) (returned : planner.plan source = .ok ⟨events, .ok plan⟩) :
    plan.Compacted := by
  obtain ⟨working, events', works, assembled⟩ := (plan_eq_ok_iff bare).mp ⟨_, returned⟩
  obtain ⟨origins, kind, place, taut, -, still⟩ :=
    taut_of_assemble (works.normal built isolated).1 assembled
  exact taut.compacted still

set_option maxRecDepth 100000 in
theorem plan_compacted_forked : ∃ source events plan,
    ({} : Planner).plan source = .ok ⟨events, .ok plan⟩ ∧
      (∃ stage ∈ plan.stages, stage.hasReduce = true) ∧ plan.Compacted := by
  have planned : Sketch.forked.plans {} (fun _ plan => plan.stages.any Stage.hasReduce) = true := by
    decide +kernel
  obtain ⟨source, events, plan, -, built, isolated, returned, shuffles⟩ :=
    Sketch.exists_of_plans planned
  exact ⟨source, events, plan, returned, any_eq_true.mp shuffles,
    plan_compacted built isolated rfl returned⟩

end Planner

end Staging
