import Staging.Block.Basic
import Staging.Proofs.Links

/-! # Rosters of blocks

Blocks have handles of their own and list the block ports that belong to them.
What a block looks up in the wiring is then what links lead to.
-/

namespace Staging

open Std List

variable {id : BlockId}

/-- The blocks have handles of their own, and each lists its block ports. -/
structure Roster (wiring : Wiring) (blocks : List Block) : Prop where
  wf : wiring.Consistent
  nodup : (blocks.map (·.id)).Nodup
  below : ∀ block ∈ blocks, block.id.raw < wiring.next
  entryBelow : ∀ entry block port, wiring.entryOf entry = some (block, port) →
    block.raw < wiring.next
  exitBelow : ∀ exit block port, wiring.exitOf exit = some (block, port) → block.raw < wiring.next
  entries : ∀ block ∈ blocks, ∀ entry, entry ∈ block.inputs ↔
    ∃ port, wiring.entryOf entry = some (block.id, port)
  exits : ∀ block ∈ blocks, ∀ exit, exit ∈ block.outputs ↔
    ∃ port, wiring.exitOf exit = some (block.id, port)
  entriesNodup : ∀ block ∈ blocks, block.inputs.Nodup
  exitsNodup : ∀ block ∈ blocks, block.outputs.Nodup

/-- The blocks with a block output that is linked with an input of the block. -/
def Block.before (block : Block) (wiring : Wiring) : BlockSet :=
  HandleSet.gather block.inputs fun entry =>
    .of ((wiring.sources entry).toList.filterMap fun exit =>
      wiring.outputs[exit]?.map BlockOutput.block)

theorem Block.predecessors_eq_before {block : Block} {W : Wiring}
    (known : ∀ entry ∈ block.inputs, ∃ wraps, W.entryOf entry = some wraps) :
    block.predecessors W = .ok (block.before W) :=
  bind_of_ok (Wiring.checkInputs_eq_ok known)

theorem Block.mem_before_iff {block : Block} {W : Wiring} (wf : W.Consistent) :
    id ∈ block.before W ↔ ∃ exit port, ∃ entry ∈ block.inputs,
      W.exitOf exit = some (id, port) ∧ W.Linked exit entry := by
  simp only [Block.before, HandleSet.mem_gather, HandleSet.mem_of, mem_filterMap,
    ExtTreeSet.mem_toList]
  constructor
  · rintro ⟨entry, has, exit, linked, got⟩
    obtain ⟨record, stored, rfl⟩ := Option.map_eq_some_iff.mp got
    exact ⟨exit, record.port, entry, has, by rw [Wiring.exitOf, stored]; rfl,
      (wf.agree exit entry).mpr linked⟩
  · rintro ⟨exit, port, entry, has, left, link⟩
    obtain ⟨record, stored, eq⟩ := Option.map_eq_some_iff.mp left
    refine ⟨entry, has, exit, (wf.agree exit entry).mp link, ?_⟩
    rw [stored, Option.map_some, (Prod.mk.inj eq).1]

namespace Roster

variable {W : Wiring} {blocks blocks' : List Block} {block : Block} (roster : Roster W blocks)

include roster

/-- Blocks may be others that list the same block ports under the same handles. -/
theorem congr (eq : blocks'.map (fun block => (block.id, block.inputs, block.outputs)) =
      blocks.map fun block => (block.id, block.inputs, block.outputs)) :
    Roster W blocks' := by
  have known : ∀ block ∈ blocks', ∃ other ∈ blocks, other.id = block.id ∧
      other.inputs = block.inputs ∧ other.outputs = block.outputs := by
    intro block mem
    have has := mem_map_of_mem (f := fun block => (block.id, block.inputs, block.outputs)) mem
    rw [eq] at has
    obtain ⟨other, mem', alike⟩ := mem_map.mp has
    simp only [Prod.mk.injEq] at alike
    exact ⟨other, mem', alike⟩
  refine ⟨roster.wf, ?_, fun block mem => ?_, roster.entryBelow, roster.exitBelow,
    fun block mem => ?_, fun block mem => ?_, fun block mem => ?_, fun block mem => ?_⟩
  · have ids := congrArg (map Prod.fst) eq
    simp only [map_map, Function.comp_def] at ids
    exact ids ▸ roster.nodup
  all_goals obtain ⟨other, mem', id, inputs, outputs⟩ := known block mem
  · exact id ▸ roster.below other mem'
  · exact id ▸ inputs ▸ roster.entries other mem'
  · exact id ▸ outputs ▸ roster.exits other mem'
  · exact inputs ▸ roster.entriesNodup other mem'
  · exact outputs ▸ roster.exitsNodup other mem'

/-- Block ports may wrap other ports. -/
theorem repoint {post : Wiring} (repoints : W.Repoints post) : Roster post blocks where
  wf := repoints.wf
  nodup := roster.nodup
  below block mem := repoints.next ▸ roster.below block mem
  entryBelow entry block port has := by
    have pre := repoints.entryBlock entry
    rw [has, Option.map_some, eq_comm, ← exists_eq_some_pair] at pre
    obtain ⟨port', pre⟩ := pre
    exact repoints.next ▸ roster.entryBelow entry block port' pre
  exitBelow exit block port has := by
    have pre := repoints.exitBlock exit
    rw [has, Option.map_some, eq_comm, ← exists_eq_some_pair] at pre
    obtain ⟨port', pre⟩ := pre
    exact repoints.next ▸ roster.exitBelow exit block port' pre
  entries block mem entry := by
    rw [roster.entries block mem, exists_eq_some_pair, exists_eq_some_pair, repoints.entryBlock]
  exits block mem exit := by
    rw [roster.exits block mem, exists_eq_some_pair, exists_eq_some_pair, repoints.exitBlock]
  entriesNodup := roster.entriesNodup
  exitsNodup := roster.exitsNodup

/-- Links may be others. -/
theorem relink {post : Wiring} (eq : W.SameFrame post) (wf : post.Consistent) :
    Roster post blocks where
  wf := wf
  nodup := roster.nodup
  below block mem := eq.next ▸ roster.below block mem
  entryBelow entry block port has := by
    rw [eq.entryOf] at has
    exact eq.next ▸ roster.entryBelow entry block port has
  exitBelow exit block port has := by
    rw [eq.exitOf] at has
    exact eq.next ▸ roster.exitBelow exit block port has
  entries block mem entry := by
    rw [eq.entryOf]
    exact roster.entries block mem entry
  exits block mem exit := by
    rw [eq.exitOf]
    exact roster.exits block mem exit
  entriesNodup := roster.entriesNodup
  exitsNodup := roster.exitsNodup

/-- Of listed blocks any selection without repetitions can be made. -/
theorem subset (nodup : (blocks'.map (·.id)).Nodup)
    (mem : ∀ block ∈ blocks', block ∈ blocks) : Roster W blocks' where
  wf := roster.wf
  nodup := nodup
  below block has := roster.below block (mem block has)
  entryBelow := roster.entryBelow
  exitBelow := roster.exitBelow
  entries block has := roster.entries block (mem block has)
  exits block has := roster.exits block (mem block has)
  entriesNodup block has := roster.entriesNodup block (mem block has)
  exitsNodup block has := roster.exitsNodup block (mem block has)

theorem sublist (sub : blocks'.Sublist blocks) : Roster W blocks' :=
  roster.subset ((sub.map _).nodup roster.nodup) fun _ mem => sub.subset mem

theorem perm (permuted : blocks.Perm blocks') : Roster W blocks' :=
  roster.subset ((permuted.map _).nodup roster.nodup) fun _ => permuted.mem_iff.mpr

/-- The next handle is no block's. -/
theorem entry_unused (entry : BlockInputId) (port : InputId) :
    W.entryOf entry ≠ some (⟨W.next⟩, port) :=
  fun has => Nat.lt_irrefl _ (roster.entryBelow entry _ port has)

theorem exit_unused (exit : BlockOutputId) (port : OutputId) :
    W.exitOf exit ≠ some (⟨W.next⟩, port) :=
  fun has => Nat.lt_irrefl _ (roster.exitBelow exit _ port has)

/-- The block ports of all blocks on one side are those that belong to one of them, and none is
listed twice. -/
theorem flatMap_spec {role : Role} {γ : Type} {ports : Block → List (Handle role)}
    {of : Handle role → Option (BlockId × γ)} (each : ∀ block ∈ blocks, ∀ handle,
      handle ∈ ports block ↔ ∃ port, of handle = some (block.id, port))
    (nodup : ∀ block ∈ blocks, (ports block).Nodup) : (blocks.flatMap ports).Nodup ∧
      ∀ {handle id port}, of handle = some (id, port) →
        (handle ∈ blocks.flatMap ports ↔ id ∈ blocks.map (·.id)) := by
  refine ⟨nodup_flatMap.mpr ⟨nodup, ?_⟩, fun has => ?_⟩
  · refine (pairwise_map.mp roster.nodup).imp_of_mem fun {first second} one two ne => ?_
    intro handle early late
    obtain ⟨port, has⟩ := (each first one handle).mp early
    obtain ⟨port', has'⟩ := (each second two handle).mp late
    exact ne (congrArg Prod.fst (Option.mem_unique has has'))
  · rw [mem_flatMap, mem_map]
    refine exists_congr fun other => and_congr_right fun mem => ?_
    rw [each other mem, has]
    simp [Prod.ext_iff, eq_comm]

theorem eq_of_id_eq {other : Block} (mem : block ∈ blocks) (mem' : other ∈ blocks)
    (eq : block.id = other.id) : block = other :=
  inj_on_of_nodup_map roster.nodup mem mem' eq

theorem predecessors_eq_ok (mem : block ∈ blocks) :
    block.predecessors W = .ok (block.before W) := by
  refine Block.predecessors_eq_before fun entry has => ?_
  obtain ⟨port, got⟩ := (roster.entries block mem entry).mp has
  exact ⟨_, got⟩

theorem mem_before (mem : block ∈ blocks) : id ∈ block.before W ↔ W.Leads id block.id := by
  rw [Block.mem_before_iff roster.wf]
  constructor
  · rintro ⟨exit, out, entry, has, left, link⟩
    obtain ⟨port, entered⟩ := (roster.entries block mem entry).mp has
    exact ⟨exit, entry, out, port, left, entered, link⟩
  · rintro ⟨exit, entry, out, input, left, entered, link⟩
    exact ⟨exit, out, entry, (roster.entries block mem entry).mpr ⟨input, entered⟩, left, link⟩

end Roster

end Staging
