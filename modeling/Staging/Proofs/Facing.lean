import Staging.Proofs.Enlisting

/-! # Sides of blocks

A block is entered at shuffles only, or at none. Whatever graph is cut into
blocks, the reduce blocks of a stage are on the one side and its map blocks are
on the other, and changes and mergers of blocks keep them there.
-/

namespace Staging

open Std List

variable {stages : List Stage} {side : BlockId → Option Bool} {fixed blocks : List Block}
  {site site' : Site} {stages' : List Stage}

instance isTrans_true {α : Type} : IsTrans α fun _ _ => True where
  trans _ _ _ _ _ := trivial

/-- Blocks of one side are entered at shuffles, and those of the other at other nodes. -/
def Facing (side : BlockId → Option Bool) (fixed blocks : List Block) (site : Site) : Prop :=
  Leveled (fun _ _ => True) (fun side shuffles => shuffles = side) side fixed blocks site

/-- What a block is taken for is the side of the nodes at which it is entered. -/
theorem Placed.Faces.of_isReduce {source : Graph} {block : Block} {actual reduces : Bool}
    (faced : Placed.Faces source (fun shuffles => shuffles = actual)
      ⟨site.graph, site.wiring, block⟩)
    (entries : ∀ entry, entry ∈ block.inputs ↔
      ∃ port, site.wiring.entryOf entry = some (block.id, port))
    (run : block.isReduce site = .ok reduces) :
    Placed.Faces source (fun shuffles => shuffles = reduces) ⟨site.graph, site.wiring, block⟩ := by
  refine ⟨⟨fun entry port entered => ?_, faced.left⟩, faced.copies⟩
  have mem := (entries entry).mpr ⟨port, entered⟩
  rw [BlockFrame.isReduce] at run
  split at run
  · next none =>
    rw [none] at mem
    cases mem
  · next first rest inputs =>
    have eq : actual = reduces := by
      obtain ⟨port', entered'⟩ := (entries first).mp (inputs ▸ (.head _))
      obtain ⟨owner, ⟨-, shuffles⟩, owned⟩ := faced.entered first port' entered'
      obtain ⟨wraps, looked, -, eq⟩ := Wiring.input_eq_ok entered'
      obtain ⟨record, got, rfl⟩ := Option.map_eq_some_iff.mp owned
      have known : site.graph.input wraps.port = .ok record := by
        rw [eq, Graph.input, got]
      rw [Site.isShuffled, bind_of_ok looked, bind_of_ok known] at run
      cases run
      exact shuffles.symm
    exact eq ▸ faced.entered entry port entered

/-- The blocks that are grouped are on the sides of the stages. -/
theorem Facing.group (facing : Facing side fixed blocks site)
    (run : Block.group blocks site = .ok stages) :
    ∃ side', Facing side' fixed (stages.flatMap Stage.blocks) site ∧
      ∀ stage ∈ stages, stage.At side' id := by
  have roster := facing.roster
  have nodup : (blocks.map (·.id)).Nodup :=
    roster.nodup.sublist ((sublist_append_right fixed blocks).map _)
  obtain ⟨part, kinds⟩ := group_spec nodup run
  have leveled := Leveled.subperm facing part
  have mem : ∀ {stage : Stage} {block : Block}, stage ∈ stages → block ∈ stage.blocks →
      block ∈ stages.flatMap Stage.blocks :=
    fun has own => mem_flatMap.mpr ⟨_, has, own⟩
  -- a map block is no reduce block of another stage
  have maps : ∀ stage ∈ stages, ∀ block ∈ stage.maps, Stage.reducedIn stages block.id = false := by
    intro stage has block own
    by_contra reduced
    obtain ⟨stage', has', other, own', eq⟩ :=
      Stage.reducedIn_iff.mp (Bool.eq_true_of_not_eq_false reduced)
    obtain rfl := leveled.roster.eq_of_id_eq
      (mem_append_right _ (mem has' (mem_append_right _ own')))
      (mem_append_right _ (mem has (mem_append_left _ own))) eq
    cases ((kinds stage has).1 other own).symm.trans ((kinds stage' has').2 other own')
  have reduces : ∀ stage ∈ stages, ∀ block ∈ stage.reduces,
      Stage.reducedIn stages block.id = true :=
    fun stage has block own => Stage.reducedIn_iff.mpr ⟨stage, has, block, own, rfl⟩
  refine ⟨fun id => some (Stage.reducedIn stages id), ?_, fun stage has =>
    ⟨fun block own => congrArg some (maps stage has block own),
      fun block own => congrArg some (reduces stage has block own)⟩⟩
  obtain ⟨source, faced⟩ := leveled.faces
  refine ⟨leveled.graph, leveled.roster, fun block _ => ⟨_, rfl⟩, fun _ _ _ _ _ _ _ => trivial,
    leveled.apart, source, fun block has height stands => ?_⟩
  cases stands
  obtain ⟨actual, known⟩ := leveled.known block has
  have entries := leveled.roster.entries block (mem_append_right _ has)
  have pre := faced block has actual known
  obtain ⟨stage, has', own⟩ := mem_flatMap.mp has
  rcases mem_append.mp own with map | reduce
  · rw [maps stage has' block map]
    exact pre.of_isReduce entries ((kinds stage has').1 block map)
  · rw [reduces stage has' block reduce]
    exact pre.of_isReduce entries ((kinds stage has').2 block reduce)

/-- Stages that are compacted stay on their sides. -/
theorem Facing.compactStages (facing : Facing side fixed (stages.flatMap Stage.blocks) site)
    (stands : ∀ stage ∈ stages, stage.At side id)
    (run : Stage.compactAll stages site = .ok (stages', site')) :
    Facing side fixed (stages'.flatMap Stage.blocks) site' ∧
    ∀ stage ∈ stages', stage.At side id := by
  exact Leveled.compactStages (fun stages => ∀ stage ∈ stages, stage.At side id)
    (Stage.Shrinks.forall_mem fun shrinks stands => stands.shrinks shrinks)
    (fun _ _ sub stands stage mem => stands stage (sub.subset mem)) facing stands run

/-- Merged stages stay on their sides. -/
theorem Facing.mergeAll (facing : Facing side fixed (stages.flatMap Stage.blocks) site)
    (stands : ∀ stage ∈ stages, stage.At side id)
    (run : Stage.mergeAll stages site = .ok (stages', site')) :
    ∃ side', Facing side' fixed (stages'.flatMap Stage.blocks) site' ∧
      ∀ stage ∈ stages', stage.At side' id := by
  obtain ⟨deps, known, measures⟩ := of_bind run
  obtain ⟨distances, measured, -⟩ := of_bind measures
  obtain ⟨side', keys, facing', -, heights, -⟩ := Leveled.mergeAll (fun _ => id) facing known
    measured (fun place stage distance got _ => stands stage (mem_of_getElem? got)) run
  refine ⟨side', facing', fun stage mem => ?_⟩
  obtain ⟨place, inside, rfl⟩ := mem_iff_getElem.mp mem
  exact heights.get inside (heights.length_eq ▸ inside)

/-- The stages of any graph are on their sides. -/
theorem Planner.facing_stages {G : Graph} (wf : G.Consistent) {events : List Event}
    {input out : Block} (run : Planner.stages G = .ok (events, input, out, stages, site)) :
    ∃ side, Facing side [input, out] (stages.flatMap Stage.blocks) site ∧
      ∀ stage ∈ stages, stage.At side id := by
  obtain ⟨⟨events₁, input', out', blocks, site₁⟩, extracted, run⟩ := of_bind run
  obtain ⟨⟨events₂, blocks', site₂⟩, compacted, run⟩ := of_bind run
  obtain ⟨groups, grouped, run⟩ := of_bind run
  obtain ⟨⟨stages', site₃⟩, shrunk, ⟨⟩⟩ := of_bind run
  obtain ⟨⟨blocks₁, site₄⟩, each, ⟨⟩⟩ := of_bind compacted
  obtain ⟨wf', roster, apart, source, faced⟩ := Planner.peeled_blocks wf extracted
  have known : ∀ id : BlockId, ∃ side, ∀ block ∈ blocks, block.id = id →
      Placed.Faces source (fun shuffles => shuffles = side) ⟨site₁.graph, site₁.wiring, block⟩ := by
    intro id
    by_cases mem : ∃ block ∈ blocks, block.id = id
    · obtain ⟨block, mem, eq⟩ := mem
      obtain ⟨side, faces⟩ := faced block mem
      refine ⟨side, fun other mem' eq' => ?_⟩
      obtain rfl := roster.eq_of_id_eq (mem_append_right _ mem)
        (mem_append_right _ mem') (eq.trans eq'.symm)
      exact faces
    · exact ⟨false, fun block has eq => (mem ⟨block, has, eq⟩).elim⟩
  choose side sides using known
  have start : Facing (fun id => some (side id)) [input, out] blocks site₁ :=
    { graph := wf'
      roster := roster
      known := fun block _ => ⟨_, rfl⟩
      rises := fun _ _ _ _ _ _ _ => trivial
      apart := apart
      faces := ⟨source, fun block mem height stands => by
        cases stands
        exact sides block.id block mem rfl⟩ }
  have remaining : Facing _ _ (blocks₁.filter fun block => !block.isEmpty) _ :=
    (Leveled.compactAll start each).sublist filter_sublist
  obtain ⟨side', facing, stands⟩ := remaining.group grouped
  exact ⟨side', facing.compactStages stands shrunk⟩

end Staging
