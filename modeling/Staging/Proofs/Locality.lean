import Staging.Proofs.Delivery
import Staging.Proofs.Sketches

/-! # Shuffles stay in their stage

What a reduce block reads is produced in its own stage: the blocks that feed it
are map blocks of the stage. In a stage with reduce blocks no map block is idle.
-/

namespace Staging

open Std List

/-- A block output of the one block is linked with a block input of the other. -/
def Block.Feeds (wiring : Wiring) (block other : Block) : Prop :=
  ∃ exit ∈ block.outputs, ∃ entry ∈ other.inputs, exit ∈ wiring.sources entry

private theorem Roster.feeds_iff {W : Wiring} {blocks : List Block} (roster : Roster W blocks)
    {block other : Block} (mem : block ∈ blocks) (mem' : other ∈ blocks) :
    block.Feeds W other ↔ W.Leads block.id other.id := by
  constructor
  · rintro ⟨exit, left, entry, entered, linked⟩
    obtain ⟨out, left⟩ := (roster.exits block mem exit).mp left
    obtain ⟨input, entered⟩ := (roster.entries other mem' entry).mp entered
    exact ⟨exit, entry, out, input, left, entered, (roster.wf.agree exit entry).mpr linked⟩
  · rintro ⟨exit, entry, out, input, left, entered, linked⟩
    exact ⟨exit, (roster.exits block mem exit).mpr ⟨out, left⟩, entry,
      (roster.entries other mem' entry).mpr ⟨input, entered⟩,
      (roster.wf.agree exit entry).mp linked⟩

/-- Shuffles of the plan stay in their stage. -/
structure Plan.ShufflesLocally (plan : Plan) : Prop where
  /-- Whatever is linked with an input of a reduce block leaves a map block of its stage. -/
  linked : ∀ stage ∈ plan.stages, ∀ reduce ∈ stage.reduces, ∀ entry ∈ reduce.inputs,
    ∀ exit ∈ plan.wiring.sources entry, ∃ map ∈ stage.maps, exit ∈ map.outputs
  /-- No block but the map blocks of its stage feeds a reduce block. -/
  feeders : ∀ stage ∈ plan.stages, ∀ reduce ∈ stage.reduces, ∀ block ∈ plan.blocks,
    block.Feeds plan.wiring reduce → block ∈ stage.maps
  /-- All map blocks of a stage with reduce blocks feed one of these. -/
  feeding : ∀ stage ∈ plan.stages, stage.reduces ≠ [] → ∀ map ∈ stage.maps,
    ∃ reduce ∈ stage.reduces, map.Feeds plan.wiring reduce

private theorem Plan.Holds.shufflesLocally {plan : Plan} {working : Graph} {origins : Origins}
    (holds : plan.Holds working origins)
    (kept : ∀ stage ∈ plan.stages, stage.Local plan.wiring) : plan.ShufflesLocally := by
  obtain ⟨kind, place, held⟩ := holds
  have roster := (held.arranged.perm plan.perm_blocks.symm).toRoster
  have inner : ∀ stage ∈ plan.stages, ∀ block ∈ stage.blocks, block ∈ plan.blocks := by
    intro stage mem block own
    exact mem_append_left _ (.tail _ (mem_flatMap.mpr ⟨stage, mem, own⟩))
  refine ⟨fun stage mem reduce own entry entered exit linked => ?_,
    fun stage mem reduce own block has feeds => ?_, fun stage mem filled map own => ?_⟩
  · obtain ⟨input, entered⟩ :=
      (roster.entries reduce (inner stage mem reduce (mem_append_right _ own)) entry).mp entered
    have link := (roster.wf.agree exit entry).mpr linked
    obtain ⟨⟨block, out⟩, left⟩ := Wiring.exists_exitOf_of_linked link
    obtain ⟨map, own', rfl⟩ := (kept stage mem).feeders reduce own block
      ⟨exit, entry, out, input, left, entered, link⟩
    exact ⟨map, own', (roster.exits map (inner stage mem map (mem_append_left _ own'))
      exit).mpr ⟨out, left⟩⟩
  · have mem' := inner stage mem reduce (mem_append_right _ own)
    obtain ⟨map, own', eq⟩ := (kept stage mem).feeders reduce own block.id
      ((roster.feeds_iff has mem').mp feeds)
    obtain rfl := roster.eq_of_id_eq (inner stage mem map (mem_append_left _ own')) has eq
    exact own'
  · obtain ⟨reduce, own', leads⟩ := (kept stage mem).feeding
      (Stage.hasReduce_iff.mpr (exists_mem_of_ne_nil _ filled)) map own
    exact ⟨reduce, own', (roster.feeds_iff (inner stage mem map (mem_append_left _ own))
      (inner stage mem reduce (mem_append_right _ own'))).mpr leads⟩

namespace Planner

variable {planner : Planner} {source : Graph} {plan : Plan} {events : List Event}

/-- In every plan, shuffles stay in their stage. -/
theorem plan_shufflesLocally (built : source.Built) (isolated : source.Isolated)
    (bare : planner.passes = []) (returned : planner.plan source = .ok ⟨events, .ok plan⟩) :
    plan.ShufflesLocally := by
  obtain ⟨working, events', works, assembled⟩ := (plan_eq_ok_iff bare).mp ⟨_, returned⟩
  obtain ⟨origins, holds, kept⟩ := holds_of_assemble (works.normal built isolated).1 assembled
  exact holds.shufflesLocally kept

set_option maxRecDepth 100000 in
theorem plan_shufflesLocally_forked : ∃ source events plan,
    ({} : Planner).plan source = .ok ⟨events, .ok plan⟩ ∧
      (∃ stage ∈ plan.stages, stage.hasReduce = true) ∧ plan.ShufflesLocally := by
  have planned : Sketch.forked.plans {} (fun _ plan => plan.stages.any Stage.hasReduce) = true := by
    decide +kernel
  obtain ⟨source, events, plan, -, built, isolated, returned, shuffles⟩ :=
    Sketch.exists_of_plans planned
  exact ⟨source, events, plan, returned, any_eq_true.mp shuffles,
    plan_shufflesLocally built isolated rfl returned⟩

end Planner

end Staging
