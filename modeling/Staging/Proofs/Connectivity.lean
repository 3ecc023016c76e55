import Staging.Proofs.Merging
import Staging.Proofs.Seclusion

/-! # Links of merged blocks

Merging blocks of one kind takes their block ports away and makes counterparts
that wrap the same ports and belong to the merged block. The links afterwards
are the links from before, with every end that had a counterpart replaced by it.
-/

namespace Staging

open List Std.ExtTreeSet

variable {site : Site} {blocks : List Block} {side : Bool}

/-- Merging blocks of one kind preserves their links to each other and to all
other blocks. -/
theorem Roster.merge_relinks (roster : Roster site.wiring blocks) (some : blocks ≠ [])
    (alike : ∀ block ∈ blocks, block.inputs ≠ [] → block.isReduce site = .ok side) :
    ∃ merged mapping wiring, Block.merge site blocks = .ok (merged, mapping, wiring) ∧
      site.wiring.Merged blocks merged wiring mapping.entry mapping.exit := by
  obtain ⟨merged, mapping, wiring, run, -, -, spec⟩ :=
    roster.merge_spec some (Block.checkAlike_eq_ok alike)
  exact ⟨merged, mapping, wiring, run, spec⟩

namespace Placed

/-- The block at both ends of the isthmus. -/
def mainland : Block :=
  { id := ⟨1⟩, nodes := ∅, inputs := [⟨5⟩], outputs := [⟨4⟩], origins := ∅ }

private theorem entryOf_isthmus (entry : BlockInputId) : isthmus.wiring.entryOf entry =
    if entry = ⟨5⟩ then some (⟨1⟩, ⟨4⟩) else if entry = ⟨2⟩ then some (⟨0⟩, ⟨1⟩) else none := by
  rw [isthmus, (Wiring.sameFrame_insertLink ..).entryOf, (Wiring.sameFrame_insertLink ..).entryOf,
    Wiring.entryOf_addInput]
  change (if _ = (⟨5⟩ : BlockInputId) then _ else (Wiring.addInput ..).2.entryOf entry) = _
  rw [Wiring.entryOf_addInput]
  rfl

theorem exitOf_isthmus (exit : BlockOutputId) : isthmus.wiring.exitOf exit =
    if exit = ⟨4⟩ then some (⟨1⟩, ⟨5⟩) else if exit = ⟨3⟩ then some (⟨0⟩, ⟨2⟩) else none := by
  rw [isthmus, (Wiring.sameFrame_insertLink ..).exitOf, (Wiring.sameFrame_insertLink ..).exitOf]
  change (Wiring.addOutput ..).2.exitOf exit = _
  rw [Wiring.exitOf_addOutput]
  change (if _ = (⟨4⟩ : BlockOutputId) then _ else (Wiring.addOutput ..).2.exitOf exit) = _
  rw [Wiring.exitOf_addOutput]
  rfl

theorem roster_isthmus : Roster isthmus.wiring [isthmus.block, mainland] where
  wf := secluded_isthmus.wiring
  nodup := by decide
  below := by decide +kernel
  entryBelow entry block port got := by
    rw [entryOf_isthmus] at got
    split at got
    · cases got
      decide +kernel
    · split at got <;> cases got
      decide +kernel
  exitBelow exit block port got := by
    rw [exitOf_isthmus] at got
    split at got
    · cases got
      decide +kernel
    · split at got <;> cases got
      decide +kernel
  entries := by
    simp only [exists_eq_some_pair, entryOf_isthmus]
    refine forall_mem_cons.mpr ⟨fun entry => ?_, forall_mem_singleton.mpr fun entry => ?_⟩ <;>
      split <;> simp_all [isthmus, mainland]
  exits := by
    simp only [exists_eq_some_pair, exitOf_isthmus]
    refine forall_mem_cons.mpr ⟨fun exit => ?_, forall_mem_singleton.mpr fun exit => ?_⟩ <;>
      split <;> simp_all [isthmus, mainland]
  entriesNodup := by decide
  exitsNodup := by decide

/-- Two blocks that feed each other are merged into one that feeds itself. -/
theorem merge_relinks_isthmus : ∃ merged mapping wiring,
    Block.merge ⟨isthmus.graph, isthmus.wiring⟩ [isthmus.block, mainland] =
        .ok (merged, mapping, wiring) ∧
      isthmus.wiring.Merged [isthmus.block, mainland] merged wiring mapping.entry mapping.exit ∧
      wiring.Leads merged.id merged.id := by
  have alike : ∀ block ∈ [isthmus.block, mainland], block.inputs ≠ [] →
      block.isReduce ⟨isthmus.graph, isthmus.wiring⟩ = .ok false :=
    forall_mem_cons.mpr ⟨fun _ => rfl, forall_mem_singleton.mpr fun _ => rfl⟩
  obtain ⟨merged, mapping, wiring, run, spec⟩ :=
    @Roster.merge_relinks ⟨isthmus.graph, isthmus.wiring⟩ _ _ roster_isthmus nofun alike
  have exit := spec.outputs.image ⟨3⟩ ⟨0⟩ ⟨2⟩ (exitOf_isthmus _)
  have entry := spec.inputs.image ⟨5⟩ ⟨1⟩ ⟨4⟩ (entryOf_isthmus _)
  have link : isthmus.wiring.Linked ⟨3⟩ ⟨5⟩ := contains_iff_mem.mp (by decide +kernel)
  exact ⟨merged, mapping, wiring, run, spec, _, _, _, _, exit, entry,
    (spec.linked _ _).mpr ⟨_, _, link, rfl, rfl⟩⟩

end Placed

end Staging
