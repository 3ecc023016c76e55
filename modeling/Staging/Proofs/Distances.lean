import Staging.Proofs.Connectivity
import Staging.Proofs.Ordering

/-! # Distances are lengths of longest chains

The stages that wait are looked at in turn until all have distances, or until a whole
turn has found none. In the first case the distances are the lengths of the longest
chains of stages; the second case is that some stages wait for each other in a circle.
-/

namespace Staging

open Relation List

/-- Stages of different blocks have distances unless some of them feed each other in a circle,
and the distance of a stage is the length of the longest chain that ends in it. -/
theorem Stage.distances_longest (stages : List Stage) (wiring : Wiring) (wf : wiring.Consistent)
    (distinct : ((stages.flatMap blocks).map (·.id)).Nodup)
    (known : ∀ stage ∈ stages, ∀ block ∈ stage.blocks, ∀ entry ∈ block.inputs,
      ∃ wraps, wiring.entryOf entry = some wraps) :
    ∃ deps, Stage.dependencies stages wiring = .ok deps ∧
      (∀ first second, deps.Feeds first second ↔ first ≠ second ∧
        ∃ one two, stages[first]? = some one ∧ stages[second]? = some two ∧
          one.Supplies wiring two) ∧
      (deps.distances = .error .cyclicStages ↔ ∃ place, TransGen deps.Feeds place place) ∧
      ((¬ ∃ place, TransGen deps.Feeds place place) → ∃ distances, deps.distances = .ok distances ∧
        distances.length = stages.length ∧ ∀ (place : Nat) distance,
          distances[place]? = some distance →
            IsGreatest {steps | deps.Chain steps place} distance) := by
  obtain ⟨deps, run, length, feeds⟩ := exists_dependencies wf distinct known
  have bounded := bounded_of_places length feeds
  refine ⟨deps, run, feeds, ⟨fun failed => ?_, fun cyclic => ?_⟩, fun acyclic => ?_⟩
  · rcases Dependencies.distances_spec bounded with ⟨_, ok, -⟩ | ⟨-, cyclic⟩
    · cases failed.symm.trans ok
    · exact not_forall_not.mp cyclic
  · rcases Dependencies.distances_spec bounded with ⟨_, ok, -⟩ | ⟨failed, -⟩
    · have acyclic := Dependencies.acyclic_of_distances bounded ok
      exact (not_exists.mpr acyclic cyclic).elim
    · exact failed
  · rcases Dependencies.distances_spec bounded with ⟨distances, ok, length', longest⟩ | ⟨-, cyclic⟩
    · exact ⟨distances, ok, length'.trans length, longest⟩
    · exact (cyclic (not_exists.mp acyclic)).elim

/-- Two stages that feed each other have no distances. If only the first feeds the second,
the distance of the second is one. -/
theorem Stage.distances_longest_isthmus :
    (∃ deps, Stage.dependencies [⟨[Placed.isthmus.block], [], none⟩,
        ⟨[Placed.mainland], [], none⟩] Placed.isthmus.wiring = .ok deps ∧
      deps.distances = .error .cyclicStages) ∧
    ∃ deps, Stage.dependencies [⟨[{ Placed.isthmus.block with inputs := [] }], [], none⟩,
        ⟨[Placed.mainland], [], none⟩] Placed.isthmus.wiring = .ok deps ∧
      deps.distances = .ok [0, 1] ∧ IsGreatest {steps | deps.Chain steps 1} 1 := by
  have roster := Placed.roster_isthmus
  have known : ∀ block ∈ [Placed.isthmus.block, Placed.mainland], ∀ entry ∈ block.inputs,
      ∃ wraps, Placed.isthmus.wiring.entryOf entry = some wraps := fun block own entry listed =>
    ((roster.entries block own entry).mp listed).imp' _ fun _ => id
  constructor
  · obtain ⟨deps, run, feeds, cyclic, -⟩ := Stage.distances_longest
      [⟨[Placed.isthmus.block], [], none⟩, ⟨[Placed.mainland], [], none⟩] Placed.isthmus.wiring
      roster.wf roster.nodup fun stage has block own =>
        known block (mem_flatMap.mpr ⟨stage, has, own⟩)
    have link : Placed.isthmus.wiring.Linked ⟨3⟩ ⟨5⟩ := Std.ExtTreeSet.contains_iff_mem.mp
      (by decide +kernel)
    have link' : Placed.isthmus.wiring.Linked ⟨4⟩ ⟨2⟩ := Std.ExtTreeSet.contains_iff_mem.mp
      (by decide +kernel)
    refine ⟨deps, run, cyclic.mpr ⟨0, .head ((feeds 0 1).mpr ?_) (.single ((feeds 1 0).mpr ?_))⟩⟩
    · exact ⟨Nat.zero_ne_one, _, _, rfl, rfl, _, .head _, _, .head _, ⟨3⟩, _, ⟨5⟩, .head _,
        Placed.exitOf_isthmus _, link⟩
    · exact ⟨Nat.one_ne_zero, _, _, rfl, rfl, _, .head _, _, .head _, ⟨4⟩, _, ⟨2⟩, .head _,
        Placed.exitOf_isthmus _, link'⟩
  · obtain ⟨deps, run, -, cyclic, longest⟩ := Stage.distances_longest
      [⟨[{ Placed.isthmus.block with inputs := [] }], [], none⟩, ⟨[Placed.mainland], [], none⟩]
      Placed.isthmus.wiring roster.wf roster.nodup (by simpa [blocks] using known Placed.mainland)
    have checked : (Stage.dependencies
        [⟨[{ Placed.isthmus.block with inputs := [] }], [], none⟩, ⟨[Placed.mainland], [], none⟩]
        Placed.isthmus.wiring).toOption.any (·.distances.toOption = some [0, 1]) = true := by
      decide +kernel
    rw [run] at checked
    have acyclic : ¬ ∃ place, TransGen deps.Feeds place place := fun circle => by
      simp [Except.toOption, cyclic.mpr circle] at checked
    obtain ⟨distances, ok, -, longest⟩ := longest acyclic
    obtain rfl : distances = [0, 1] := by simpa [Except.toOption, ok] using checked
    exact ⟨deps, run, ok, longest 1 1 rfl⟩

end Staging
