import Staging.Proofs.Rosters
import Staging.Stage

/-! # Blocks that become others

When blocks are merged, links lead between what the blocks have become as they
led between the blocks before. Stages that keep what they shuffle to themselves
still do so after they have been merged.
-/

namespace Staging

open List

variable {stage : Stage} {beside : List Block} {pre between post : Wiring}
  {image : BlockId → BlockId}

/-! ## Blocks -/

/-- Blocks have become others. Links lead between what blocks have become as they
led between the blocks, and blocks beside them are what they were. -/
structure Contracted (beside blocks blocks' : List Block) (pre post : Wiring)
    (image : BlockId → BlockId) : Prop where
  stays : ∀ block ∈ beside, image block.id = block.id
  into : ∀ block ∈ blocks, ∃ block' ∈ blocks', image block.id = block'.id
  onto : ∀ block' ∈ blocks', ∃ block ∈ blocks, image block.id = block'.id
  leads : ∀ one two, post.Leads one two ↔
    ∃ one' two', pre.Leads one' two' ∧ image one' = one ∧ image two' = two

theorem contracted_refl (beside blocks : List Block) (W : Wiring) :
    Contracted beside blocks blocks W W id where
  stays _ _ := rfl
  into block mem := ⟨block, mem, rfl⟩
  onto block mem := ⟨block, mem, rfl⟩
  leads one two := by
    constructor
    · intro leads
      exact ⟨one, two, leads, rfl, rfl⟩
    · rintro ⟨_, _, leads, rfl, rfl⟩
      exact leads

/-! ## Stages -/

/-- Stages have become others, with their map blocks and their reduce blocks. -/
structure Condensed (beside : List Block) (stages stages' : List Stage) (pre post : Wiring)
    (image : BlockId → BlockId) : Prop where
  single : stages'.length ≤ 1
  stays : ∀ block ∈ beside, image block.id = block.id
  maps : ∀ stage ∈ stages, ∀ block ∈ stage.maps, ∃ stage' ∈ stages', ∃ block' ∈ stage'.maps,
    image block.id = block'.id
  reduces : ∀ stage ∈ stages, ∀ block ∈ stage.reduces, ∃ stage' ∈ stages',
    ∃ block' ∈ stage'.reduces, image block.id = block'.id
  ontoMaps : ∀ stage' ∈ stages', ∀ block' ∈ stage'.maps, ∃ stage ∈ stages, ∃ block ∈ stage.maps,
    image block.id = block'.id
  ontoReduces : ∀ stage' ∈ stages', ∀ block' ∈ stage'.reduces, ∃ stage ∈ stages,
    ∃ block ∈ stage.reduces, image block.id = block'.id
  leads : ∀ one two, post.Leads one two ↔
    ∃ one' two', pre.Leads one' two' ∧ image one' = one ∧ image two' = two

theorem condensed_refl (beside : List Block) {stages : List Stage} (single : stages.length ≤ 1)
    (W : Wiring) : Condensed beside stages stages W W id where
  single := single
  stays _ _ := rfl
  maps stage mem block own := ⟨stage, mem, block, own, rfl⟩
  reduces stage mem block own := ⟨stage, mem, block, own, rfl⟩
  ontoMaps stage mem block own := ⟨stage, mem, block, own, rfl⟩
  ontoReduces stage mem block own := ⟨stage, mem, block, own, rfl⟩
  leads := (contracted_refl beside [] W).leads

/-- The map blocks of stages become some blocks, and then the reduce blocks. -/
theorem Contracted.condensed {stages : List Stage} {maps reduces : List Block}
    {image' : BlockId → BlockId}
    (one : Contracted (beside ++ stages.flatMap Stage.reduces) (stages.flatMap Stage.maps) maps
      pre between image)
    (two : Contracted (beside ++ maps) (stages.flatMap Stage.reduces) reduces between post image') :
    Condensed beside stages [{ maps, reduces }] pre post (image' ∘ image) where
  single := Nat.le_refl _
  stays block mem := by
    rw [Function.comp_apply, one.stays block (mem_append_left _ mem)]
    exact two.stays block (mem_append_left _ mem)
  maps stage mem block own := by
    obtain ⟨block', own', eq⟩ := one.into block (mem_flatMap.mpr ⟨stage, mem, own⟩)
    refine ⟨_, mem_singleton_self _, block', own', ?_⟩
    rw [Function.comp_apply, eq]
    exact two.stays block' (mem_append_right _ own')
  reduces stage mem block own := by
    have has : block ∈ stages.flatMap Stage.reduces := mem_flatMap.mpr ⟨stage, mem, own⟩
    obtain ⟨block', own', eq⟩ := two.into block has
    refine ⟨_, mem_singleton_self _, block', own', ?_⟩
    rw [Function.comp_apply, one.stays block (mem_append_right _ has), eq]
  ontoMaps stage' mem block' own := by
    obtain rfl := mem_singleton.mp mem
    obtain ⟨block, has, eq⟩ := one.onto block' own
    obtain ⟨stage, mem', own'⟩ := mem_flatMap.mp has
    refine ⟨stage, mem', block, own', ?_⟩
    rw [Function.comp_apply, eq]
    exact two.stays block' (mem_append_right _ own)
  ontoReduces stage' mem block' own := by
    obtain rfl := mem_singleton.mp mem
    obtain ⟨block, has, eq⟩ := two.onto block' own
    obtain ⟨stage, mem', own'⟩ := mem_flatMap.mp has
    refine ⟨stage, mem', block, own', ?_⟩
    rw [Function.comp_apply, one.stays block (mem_append_right _ has), eq]
  leads first second := by
    rw [two.leads]
    constructor
    · rintro ⟨_, _, leads, rfl, rfl⟩
      obtain ⟨_, _, leads', rfl, rfl⟩ := (one.leads _ _).mp leads
      exact ⟨_, _, leads', rfl, rfl⟩
    · rintro ⟨_, _, leads, rfl, rfl⟩
      exact ⟨_, _, (one.leads _ _).mpr ⟨_, _, leads, rfl, rfl⟩, rfl, rfl⟩

/-- Reduce blocks are fed by the map blocks of their stage only, and each map
block of a stage with reduce blocks feeds one of them. -/
structure Stage.Local (wiring : Wiring) (stage : Stage) : Prop where
  feeders : ∀ reduce ∈ stage.reduces, ∀ id, wiring.Leads id reduce.id →
    ∃ map ∈ stage.maps, map.id = id
  feeding : stage.hasReduce = true → ∀ map ∈ stage.maps, ∃ reduce ∈ stage.reduces,
    wiring.Leads map.id reduce.id

theorem Stage.Local.congr {W : Wiring} {other : Stage} (kept : stage.Local W)
    (maps : other.maps = stage.maps) (reduces : other.reduces = stage.reduces) :
    other.Local W where
  feeders := by
    rw [maps, reduces]
    exact kept.feeders
  feeding := by
    rw [Stage.hasReduce, maps, reduces]
    exact kept.feeding

theorem Stage.hasReduce_iff : stage.hasReduce ↔ ∃ block, block ∈ stage.reduces := by
  rw [hasReduce, Bool.not_eq_true', isEmpty_eq_false_iff_exists_mem]

namespace Condensed

variable {stages stages' : List Stage} (condensed : Condensed beside stages stages' pre post image)
  (known : ∀ one two, pre.Leads one two →
    ∃ block ∈ beside ++ stages.flatMap Stage.blocks, block.id = two)
  (nodup : ((beside ++ stages'.flatMap Stage.blocks).map (·.id)).Nodup)

include condensed known nodup

/-- Stages of one kind that have become one keep what they shuffle to themselves. -/
theorem isLocal (alike : ∀ stage ∈ stages, ∀ other ∈ stages, stage.hasReduce = other.hasReduce)
    (kept : ∀ stage ∈ stages, stage.Local pre) {stage' : Stage} (mem : stage' ∈ stages') :
    stage'.Local post := by
  obtain rfl : stages' = [stage'] := by
    obtain ⟨other, rfl⟩ := length_eq_one_iff.mp
      (Nat.le_antisymm condensed.single (length_pos_of_mem mem))
    rw [mem_singleton.mp mem]
  rw [flatMap_singleton, Stage.blocks, map_append, map_append, nodup_append, nodup_append] at nodup
  obtain ⟨-, ⟨-, -, apart⟩, outside⟩ := nodup
  refine ⟨fun reduce own id leads => ?_, fun reduces map own => ?_⟩
  · obtain ⟨one, two, former, rfl, eq⟩ := (condensed.leads _ _).mp leads
    obtain ⟨block, has, rfl⟩ := known one two former
    -- What a link leads to was a reduce block before: other blocks have not become one.
    rcases mem_append.mp has with beside' | inside
    · rw [condensed.stays block beside'] at eq
      exact absurd eq (outside _ (mem_map_of_mem beside') _
        (mem_append_right _ (mem_map_of_mem own)))
    obtain ⟨stage, mem', inside⟩ := mem_flatMap.mp inside
    rcases mem_append.mp inside with map | reduce'
    · obtain ⟨_, has, block', own', eq'⟩ := condensed.maps stage mem' block map
      obtain rfl := mem_singleton.mp has
      exact absurd (eq'.symm.trans eq) (apart _ (mem_map_of_mem own') _ (mem_map_of_mem own))
    · obtain ⟨map, own', rfl⟩ := (kept stage mem').feeders block reduce' one former
      obtain ⟨_, has, map', own'', eq'⟩ := condensed.maps stage mem' map own'
      obtain rfl := mem_singleton.mp has
      exact ⟨map', own'', eq'.symm⟩
  · obtain ⟨reduce, own'⟩ := Stage.hasReduce_iff.mp reduces
    obtain ⟨other, mem', reduce', inside, -⟩ := condensed.ontoReduces stage' mem reduce own'
    obtain ⟨stage, mem'', map', inside', eq⟩ := condensed.ontoMaps stage' mem map own
    obtain ⟨target, inside'', leads⟩ := (kept stage mem'').feeding
      ((alike stage mem'' other mem').trans (Stage.hasReduce_iff.mpr ⟨_, inside⟩)) map' inside'
    obtain ⟨_, has, target', own'', eq'⟩ := condensed.reduces stage mem'' target inside''
    obtain rfl := mem_singleton.mp has
    exact ⟨target', own'', (condensed.leads _ _).mpr ⟨_, _, leads, eq, eq'⟩⟩

/-- Stages beside those that have become others keep what they shuffle to themselves. -/
theorem isLocal_beside (kept : stage.Local pre)
    (outside : ∀ block ∈ stage.blocks, block ∈ beside) : stage.Local post := by
  have maps : ∀ block ∈ stage.maps, image block.id = block.id :=
    fun block own => condensed.stays block (outside block (mem_append_left _ own))
  have reduces : ∀ block ∈ stage.reduces, block ∈ beside :=
    fun block own => outside block (mem_append_right _ own)
  rw [map_append, nodup_append] at nodup
  refine ⟨fun reduce own id leads => ?_, fun has map own => ?_⟩
  · obtain ⟨one, two, former, rfl, eq⟩ := (condensed.leads _ _).mp leads
    obtain ⟨block, member, rfl⟩ := known one two former
    rcases mem_append.mp member with beside' | inside
    · rw [condensed.stays block beside'] at eq
      obtain ⟨map, own', rfl⟩ := kept.feeders reduce own one (eq ▸ former)
      exact ⟨map, own', (maps map own').symm⟩
    · obtain ⟨stage', mem, block', own', eq'⟩ : ∃ stage' ∈ stages', ∃ block' ∈ stage'.blocks,
          image block.id = block'.id := by
        obtain ⟨other, mem, inside⟩ := mem_flatMap.mp inside
        rcases mem_append.mp inside with map | reduce'
        · obtain ⟨stage', mem', block', own', eq'⟩ := condensed.maps other mem block map
          exact ⟨stage', mem', block', mem_append_left _ own', eq'⟩
        · obtain ⟨stage', mem', block', own', eq'⟩ := condensed.reduces other mem block reduce'
          exact ⟨stage', mem', block', mem_append_right _ own', eq'⟩
      exact absurd (eq.symm.trans eq') (nodup.2.2 _ (mem_map_of_mem (reduces reduce own))
        _ (mem_map_of_mem (mem_flatMap.mpr ⟨stage', mem, own'⟩)))
  · obtain ⟨reduce, own', leads⟩ := kept.feeding has map own
    exact ⟨reduce, own', (condensed.leads _ _).mpr
      ⟨_, _, leads, maps map own, condensed.stays reduce (reduces reduce own')⟩⟩

end Condensed

end Staging
