import Mathlib.Data.List.Pairwise
import Staging.Proofs.Compactness
import Staging.Proofs.Contraction
import Staging.Proofs.Merging
import Staging.Proofs.Ordering

/-! # Merging arranged stages

Stages of one kind and one distance are merged: their map blocks become one
block and their reduce blocks another, and copies of one node are unified. What
the stages convey stays, and so do the blocks of the inputs and the outputs of
the whole graph.
-/

namespace Staging

open Std Relation List

variable {source : Graph} {origins : Origins} {place : Places} {kind : BlockId → Bool}
  {all rest : List Block} {site site' : Site} {free within : BlockId → Prop} {one two : BlockId}
  {stages : List Stage} {block : Block} {stage : Stage}

/-! ## What is known on the way -/

/-- Nodes are new, only the inputs and the outputs of the whole graph lie in the
blocks of these, with all nodes that are stage boundaries, and what runs at most
once has one copy. -/
structure Framed (source : Graph) (origins : Origins) (place : Places) (copies : Graph)
    (first last : BlockId) : Prop where
  fresh : ∀ (id : NodeId) node, copies.nodes[id]? = some node → source.next ≤ id.raw
  inputs : ∀ (id : NodeId) node, copies.nodes[id]? = some node →
    (place id = first ↔ origins.node id ∈ source.root.inputs)
  outputs : ∀ (id : NodeId) node, copies.nodes[id]? = some node →
    (place id = last ↔ origins.node id ∈ source.root.outputs)
  ends : ∀ (id : NodeId) node, copies.nodes[id]? = some node →
    source.isStageBoundary (origins.node id) = true → place id = first ∨ place id = last
  once : ∀ (id id' : NodeId) node node', copies.nodes[id]? = some node →
    copies.nodes[id']? = some node' → origins.node id = origins.node id' →
    source.isSolitary (origins.node id) = true → id = id'
  anchored : ∀ (id : NodeId) node, copies.nodes[id]? = some node →
    source.isBoundary (origins.node id) = false → source.Anchored (origins.node id)

theorem Framed.mono {place' : Places} {pre post : Graph} {first last : BlockId}
    (framed : Framed source origins place pre first last)
    (nodes : ∀ (id : NodeId) node, post.nodes[id]? = some node → pre.nodes[id]? = some node)
    (inputs : ∀ id, place' id = first ↔ place id = first)
    (outputs : ∀ id, place' id = last ↔ place id = last) :
    Framed source origins place' post first last where
  fresh id node got := framed.fresh id node (nodes id node got)
  inputs id node got := (inputs id).trans (framed.inputs id node (nodes id node got))
  outputs id node got := (outputs id).trans (framed.outputs id node (nodes id node got))
  ends id node got stage := by
    rw [inputs, outputs]
    exact framed.ends id node (nodes id node got) stage
  once id id' node node' got got' :=
    framed.once id id' node node' (nodes id node got) (nodes id' node' got')
  anchored id node got := framed.anchored id node (nodes id node got)

/-- Blocks are arranged between those of the inputs and the outputs of the whole
graph, and convey what it shows. -/
structure Held (source : Graph) (origins : Origins) (kind : BlockId → Bool)
    (place : Places) (first last : Block) (blocks : List Block) (site : Site) : Prop where
  arranged : Arranged source origins kind place site ([first, last] ++ blocks)
  conveys : Conveys source origins site
  framed : Framed source origins place site.graph first.id last.id

section Held

variable {first last : Block} {blocks blocks' : List Block}

theorem Held.perm (held : Held source origins kind place first last blocks site)
    (permuted : blocks.Perm blocks') : Held source origins kind place first last blocks' site :=
  ⟨held.arranged.perm ((Perm.refl _).append permuted), held.conveys, held.framed⟩

theorem Moves.stored
    (moves : Moves origins place free within site site') (wf : site.graph.Consistent)
    {id : NodeId} {node : Node} (got : site'.graph.nodes[id]? = some node) :
    site.graph.nodes[id]? = some node :=
  moves.keeps (fun now => ∀ id node, now.graph.nodes[id]? = some node →
    site.graph.nodes[id]? = some node)
    (fun _ _ _ _ move _ _ kept id node got => kept id node (move.stored got))
    wf (fun _ _ got => got) id node got

/-- Steps in blocks keep what is known. -/
theorem Held.moves (held : Held source origins kind place first last blocks site)
    (normal : source.Normal)
    (arranged : Arranged source origins kind place site' ([first, last] ++ blocks'))
    (moves : Moves origins place free within site site') :
    Held source origins kind place first last blocks' site' where
  arranged := arranged
  conveys := moves.conveys normal held.arranged.graph held.conveys
  framed := held.framed.mono (fun _ _ => moves.stored held.arranged.graph) (fun _ => Iff.rfl)
    fun _ => Iff.rfl

/-- Moreover all nodes are awake, and the blocks between are tight. -/
structure Taut (source : Graph) (origins : Origins) (kind : BlockId → Bool)
    (place : Places) (first last : Block) (blocks : List Block) (site : Site) : Prop
    extends Held source origins kind place first last blocks site where
  awake : Awake source origins site
  tight : ∀ block ∈ blocks, block.Tight site

theorem Taut.perm (taut : Taut source origins kind place first last blocks site)
    (permuted : blocks.Perm blocks') : Taut source origins kind place first last blocks' site :=
  ⟨taut.toHeld.perm permuted, taut.awake, fun block mem =>
    taut.tight block (permuted.mem_iff.mpr mem)⟩

/-! ## One stage of many -/

theorem Arranged.leads_iff_links (arranged : Arranged source origins kind place site all) :
    site.wiring.Leads one two ↔
      ∃ start target port, site.Links origins place one two start target port := by
  rw [arranged.leads_iff]
  constructor
  · rintro ⟨out, input, id, id', owned, placed, owned', placed', joined⟩
    exact ⟨_, _, _, out, input, id, id', owned, owned', joined, placed, placed', rfl, rfl, rfl⟩
  · rintro ⟨_, _, _, out, input, id, id', owned, owned', joined, placed, placed', -⟩
    exact ⟨out, input, id, id', owned, placed, owned', placed', joined⟩

theorem Arranged.exists_of_leads (arranged : Arranged source origins kind place site all)
    (leads : site.wiring.Leads one two) : ∃ block ∈ all, block.id = two := by
  obtain ⟨-, input, -, id, -, -, owned, rfl, -⟩ := arranged.leads_iff.mp leads
  obtain ⟨node, got, -⟩ := arranged.graph.node_of_input owned
  obtain ⟨block, mem, placed⟩ := arranged.cover id node got
  exact ⟨block, mem, placed.symm⟩

/-- Blocks of one kind are merged into one, in which each node is planned once. -/
theorem Taut.mergeBlocks (normal : source.Normal) (side : Bool)
    (taut : Taut source origins kind place first last (rest ++ blocks) site)
    (alike : ∀ block ∈ blocks, kind block.id = side) :
    ∃ blocks' site' kind' place' image, Stage.mergeBlocks blocks site = .ok (blocks', site') ∧
      Taut source origins kind' place' first last (rest ++ blocks') site' ∧
      (∀ block ∈ blocks', kind' block.id = side) ∧
      (∀ block ∈ rest, kind' block.id = kind block.id) ∧
      Contracted ([first, last] ++ rest) blocks blocks' site.wiring site'.wiring image := by
  by_cases none : blocks = []
  · subst none
    exact ⟨[], site, kind, place, id, by simp [Stage.mergeBlocks], taut, by simp,
      fun _ _ => rfl, contracted_refl _ _ _⟩
  have arranged := taut.arranged
  rw [← append_assoc] at arranged
  obtain ⟨merged, mapping, W, run, new, arranged', joins, wraps, enters, leaves⟩ :=
    merge_eq_ok arranged none fun block mem _ => alike block mem
  have front := arranged'.perm (perm_append_singleton merged ([first, last] ++ rest))
  let joined : Placed := ⟨site.graph, W, merged⟩
  let free : BlockId → Prop := fun _ => False
  obtain ⟨unified, run', reduced⟩ : ∃ unified, joined.unify = .ok unified ∧
      Placed.Reduced source origins _ _ free _ joined unified := Placed.unify_eq_ok front
  obtain ⟨placed, run'', reduced'⟩ : ∃ placed, unified.compact = .ok placed ∧
      Placed.Reduced source origins _ _ free _ unified placed :=
    Placed.compact_eq_ok reduced.arranged
  obtain ⟨_, -, compacted⟩ := of_bind run''
  cases compacted
  replace reduced' := reduced.trans reduced'
  have below : ∀ block ∈ [first, last] ++ rest, block.id ≠ merged.id := by
    intro block mem eq
    have := arranged.below block (mem_append_left _ mem)
    rw [eq, new] at this
    exact Nat.lt_irrefl _ this
  have outside : ∀ block ∈ [first, last] ++ rest, block.id ∉ blocks.map (·.id) := by
    intro block mem mem'
    have nodup := arranged.nodup
    rw [map_append, nodup_append] at nodup
    exact nodup.2.2 block.id (mem_map_of_mem mem) block.id mem' rfl
  have stays : ∀ block ∈ [first, last], ∀ id,
      merging (blocks.map (·.id)) merged.id (place id) = block.id ↔ place id = block.id :=
    fun block mem id => merging_eq_iff (outside block (mem_append_left rest mem))
      (below block (mem_append_left rest mem))
  have held' : Held source origins (Function.update kind merged.id side)
      (fun id => merging (blocks.map (·.id)) merged.id (place id)) first last
      (rest ++ [merged]) ⟨site.graph, W⟩ :=
    ⟨by rwa [← append_assoc], taut.conveys.congr joins,
      taut.framed.mono (fun _ _ got => got) (stays first (by simp)) (stays last (by simp))⟩
  have roused := taut.awake.congr joins wraps
  obtain ⟨awake', links⟩ := reduced'.moves.links_iff normal held'.arranged.graph held'.conveys
    roused fun _ => id
  refine ⟨[unified.compacted.block], ⟨unified.compacted.graph, unified.compacted.wiring⟩, _, _,
    merging (blocks.map (·.id)) merged.id, ?_,
    ⟨held'.moves normal ?_ reduced'.moves, awake', fun block mem => ?_⟩,
    fun block mem => ?_, fun block mem => ?_, fun block mem => ?_,
    fun block mem => ?_, fun block' mem => ?_, fun one two => ?_⟩
  · rw [Stage.mergeBlocks, if_neg (by simpa using none)]
    exact (bind_of_ok run).trans ((bind_of_ok run').trans (bind_of_ok run''))
  · rw [← append_assoc]
    exact reduced'.arranged.perm (perm_append_singleton _ _).symm
  · rcases mem_append.mp mem with other | here
    · have ne := below block (mem_append_right _ other)
      refine (taut.tight block (mem_append_left _ other)).frame reduced'.arranged
        (.tail _ (mem_append_right _ other)) arranged.wf
        (fun _ own => own) (fun _ own => own) (fun _ own => own)
        (fun entry port entered => enters entry _ port ne (reduced'.enters entry _ port ne entered))
        (fun exit port left => leaves exit _ port ne (reduced'.leaves exit _ port ne left))
        (fun _ _ => reduced'.moves.stored held'.arranged.graph) fun id node got _ => ?_
      have keeps : site.Keeps ⟨site.graph, W⟩ node := .of_imp (fun fed => fed) (joins _ _).mpr
      exact keeps.trans (reduced'.moves.keeps_ports normal held'.arranged.graph held'.conveys roused
        got fun _ _ => False.elim)
    · rw [mem_singleton.mp here]
      exact Placed.tight_compacted reduced.arranged
  · rw [mem_singleton.mp mem, reduced'.id]
    exact Function.update_self ..
  · exact Function.update_of_ne (below block (mem_append_right _ mem)) ..
  · exact if_neg (outside block mem)
  · refine ⟨unified.compacted.block, mem_singleton_self _, ?_⟩
    rw [reduced'.id]
    exact if_pos (mem_map_of_mem mem)
  · obtain ⟨block, mem'⟩ := exists_mem_of_ne_nil blocks none
    refine ⟨block, mem', ?_⟩
    rw [mem_singleton.mp mem, reduced'.id]
    exact if_pos (mem_map_of_mem mem')
  · rw [reduced'.arranged.leads_iff_links]
    simp only [links, arranged.leads_iff_links]
    constructor
    · rintro ⟨start, target, port, out, input, id, id', owned, owned', joined, rfl, rfl, eq⟩
      exact ⟨place id, place id', ⟨start, target, port, out, input, id, id', owned, owned',
        (joins out input).mp joined, rfl, rfl, eq⟩, rfl, rfl⟩
    · rintro ⟨_, _, ⟨start, target, port, out, input, id, id', owned, owned', joined, rfl, rfl,
        eq⟩, rfl, rfl⟩
      exact ⟨start, target, port, out, input, id, id', owned, owned',
        (joins out input).mpr joined, rfl, rfl, eq⟩

/-- Map blocks are of the one kind and reduce blocks of the other. -/
def Stage.Sided (kind : BlockId → Bool) (stage : Stage) : Prop :=
  (∀ block ∈ stage.maps, kind block.id = false) ∧ ∀ block ∈ stage.reduces, kind block.id = true

theorem Stage.Sided.congr {kind' : BlockId → Bool} (sided : stage.Sided kind)
    (eq : ∀ block ∈ stage.blocks, kind' block.id = kind block.id) : stage.Sided kind' :=
  ⟨fun block mem => (eq block (mem_append_left _ mem)).trans (sided.1 block mem),
    fun block mem => (eq block (mem_append_right _ mem)).trans (sided.2 block mem)⟩

/-- Stages are merged into one. -/
theorem Taut.mergeStages (normal : source.Normal)
    (taut : Taut source origins kind place first last (rest ++ stages.flatMap Stage.blocks) site)
    (sided : ∀ stage ∈ stages, stage.Sided kind) :
    ∃ stages' site' kind' place' image, Stage.mergeStages stages site = .ok (stages', site') ∧
      Taut source origins kind' place' first last (rest ++ stages'.flatMap Stage.blocks) site' ∧
      (∀ stage ∈ stages', stage.Sided kind') ∧
      (∀ block ∈ rest, kind' block.id = kind block.id) ∧
      Condensed ([first, last] ++ rest) stages stages' site.wiring site'.wiring image := by
  rw [Stage.mergeStages.eq_def]
  split
  · exact ⟨[], site, kind, place, id, rfl, taut, by simp, fun _ _ => rfl,
      condensed_refl _ (Nat.zero_le _) _⟩
  · next stage =>
    exact ⟨[stage], site, kind, place, id, rfl, taut, sided, fun _ _ => rfl,
      condensed_refl _ (Nat.le_refl _) _⟩
  · have apart := Stage.perm_flatMap_blocks stages
    replace taut := taut.perm ((Perm.refl rest).append apart)
    rw [← append_assoc] at taut
    obtain ⟨maps, site₁, kind₁, place₁, image₁, run, taut₁, alike, eq, contracted⟩ :=
      taut.mergeBlocks normal false fun block mem => by
        obtain ⟨stage, has, own⟩ := mem_flatMap.mp mem
        exact (sided stage has).1 block own
    obtain ⟨reduces, site₂, kind₂, place₂, image₂, run', taut₂, alike', eq', contracted'⟩ :=
      (taut₁.perm (perm_append_right_comm ..)).mergeBlocks normal true fun block mem => by
        obtain ⟨stage, has, own⟩ := mem_flatMap.mp mem
        rw [eq block (mem_append_right _ mem)]
        exact (sided stage has).2 block own
    rw [← append_assoc] at contracted contracted'
    refine ⟨[{ maps, reduces }], site₂, kind₂, place₂, image₂ ∘ image₁, ?_, ?_,
      fun stage mem => ?_, fun block mem => ?_, contracted.condensed contracted'⟩
    · exact (bind_of_ok run).trans (bind_of_ok run')
    · simpa [Stage.blocks] using taut₂
    · rw [mem_singleton.mp mem]
      exact ⟨fun block own => (eq' block (mem_append_right _ own)).trans (alike block own), alike'⟩
    · exact (eq' block (mem_append_left _ mem)).trans (eq block (mem_append_left _ mem))

end Held

/-! ## All stages -/

section MergeAll

variable {first last : Block}

/-- Stages that do not wait for themselves can be merged. -/
theorem Taut.mergeAll (normal : source.Normal)
    (taut : Taut source origins kind place first last (stages.flatMap Stage.blocks) site)
    (sided : ∀ stage ∈ stages, stage.Sided kind)
    (kept : ∀ stage ∈ stages, stage.Local site.wiring) {deps : Dependencies}
    {distances : List Nat} (run : Stage.dependencies stages site.wiring = .ok deps)
    (run' : deps.distances = .ok distances) :
    ∃ stages' site' kind' place', Stage.mergeAll stages site = .ok (stages', site') ∧
      Taut source origins kind' place' first last (stages'.flatMap Stage.blocks) site' ∧
      ∀ stage ∈ stages', stage.Local site'.wiring := by
  have permuted := Stage.perm_buckets taut.arranged.toRoster run run'
  let inv : List (List Stage) → List Stage × Site → Prop := fun rest state =>
    ∃ kind place, Taut source origins kind place first last
        (state.1.flatMap Stage.blocks ++ rest.flatten.flatMap Stage.blocks) state.2 ∧
      (∀ bucket ∈ rest, bucket ∈ Stage.buckets stages distances) ∧
      (∀ stage ∈ rest.flatten, stage.Sided kind) ∧
      ∀ stage ∈ state.1 ++ rest.flatten, stage.Local state.2.wiring
  obtain ⟨⟨stages', site'⟩, ran', kind', place', taut', -, -, kept'⟩ : ∃ result,
      Stage.mergeAll stages site = .ok result ∧ inv [] result := by
    rw [Stage.mergeAll, bind_of_ok run, bind_of_ok run']
    refine foldlM_keeps inv ?_ ⟨kind, place,
      taut.perm (permuted.symm.flatMap_right Stage.blocks), fun _ mem => mem,
      fun stage mem => sided stage (permuted.mem_iff.mp mem),
      fun stage mem => kept stage (permuted.mem_iff.mp mem)⟩
    rintro bucket rest ⟨merged, now⟩ ⟨kind, place, taut, buckets, sided, kept⟩
    rw [flatten_cons, flatMap_append, ← append_assoc] at taut
    replace taut := taut.perm (perm_append_right_comm ..)
    obtain ⟨stages', site', kind', place', image, ran', taut', -, eq, condensed⟩ :=
      taut.mergeStages normal fun stage mem => sided stage (mem_append_left _ mem)
    refine ⟨(merged ++ stages', site'), bind_of_ok ran', kind', place', taut'.perm ?_,
      fun other later => buckets other (.tail _ later), fun stage mem => ?_,
      fun stage mem => ?_⟩
    · rw [flatMap_append]
      exact perm_append_right_comm ..
    · refine (sided stage (mem_append_right _ mem)).congr fun block own => eq block ?_
      exact mem_append_right _ (mem_flatMap.mpr ⟨stage, mem, own⟩)
    · have nodup := taut'.arranged.nodup
      rw [← append_assoc] at nodup
      have known : ∀ one two, now.wiring.Leads one two → ∃ block ∈ [first, last] ++
          (merged.flatMap Stage.blocks ++ rest.flatten.flatMap Stage.blocks) ++
            bucket.flatMap Stage.blocks, block.id = two := by
        rw [append_assoc]
        exact fun _ _ => taut.arranged.exists_of_leads
      have beside : ∀ {stage : Stage}, stage ∈ merged ++ rest.flatten → stage.Local now.wiring →
          stage.Local site'.wiring := by
        intro stage mem kept
        refine condensed.isLocal_beside known nodup kept fun block own => ?_
        rw [← flatMap_append]
        exact mem_append_right _ (mem_flatMap.mpr ⟨stage, mem, own⟩)
      rcases mem_append.mp mem with here | later
      · rcases mem_append.mp here with old | new
        · exact beside (mem_append_left _ old) (kept stage (mem_append_left _ old))
        · exact condensed.isLocal known nodup (Stage.hasReduce_eq_of_mem_buckets
            (buckets bucket (.head _))) (fun other inside => kept other
              (mem_append_right _ (mem_append_left _ inside))) new
      · exact beside (mem_append_right _ later)
          (kept stage (mem_append_right _ (mem_append_right _ later)))
  exact ⟨stages', site', kind', place', ran', by simpa using taut', by simpa using kept'⟩

end MergeAll

/-! ## Stages that got smaller -/

section Thinned

variable {first last : Block} {stages' : List Stage}

/-- No block of a stage with reduce blocks is a map block of one without. -/
theorem Stage.ne_of_loose {fixed : List Block}
    (nodup : ((fixed ++ stages.flatMap blocks).map (·.id)).Nodup) {id : BlockId}
    (loose : Loose stages id) (mem : stage ∈ stages) (reduces : stage.hasReduce)
    (own : block ∈ stage.blocks) : block.id ≠ id := by
  rintro rfl
  obtain ⟨other, mem', plain, has⟩ := loose
  obtain ⟨map, own', eq⟩ := mem_map.mp has
  have ne : stage ≠ other := by
    rintro rfl
    cases reduces.symm.trans plain
  rw [map_append, nodup_append, map_flatMap, nodup_flatMap] at nodup
  have symmetric : Symm (Function.onFun List.Disjoint fun stage : Stage =>
      stage.blocks.map (·.id)) := ⟨fun _ _ => List.Disjoint.symm⟩
  exact nodup.2.1.2.forall mem mem' ne (mem_map_of_mem own)
    (eq ▸ mem_map_of_mem (mem_append_left _ own'))

/-- Stages have been made smaller, beside blocks of no stage. -/
structure Stage.Thinned (source : Graph) (origins : Origins) (kind : BlockId → Bool)
    (place : Places) (free : BlockId → Prop) (fixed : List Block)
    (pre post : List Stage × Site) : Prop where
  arranged : Arranged source origins kind place post.2 (fixed ++ post.1.flatMap blocks)
  stages : ∀ stage ∈ post.1, ∃ whole ∈ pre.1, whole.Shrinks stage
  moves : Moves origins place free (Loose pre.1) pre.2 post.2

/-- Stages that are made smaller keep what they shuffle to themselves. -/
theorem Held.thinned (normal : source.Normal)
    (held : Held source origins kind place first last (stages.flatMap Stage.blocks) site)
    (awake : Awake source origins site) (kept : ∀ stage ∈ stages, stage.Local site.wiring)
    (thinned : Stage.Thinned source origins kind place (Stage.Loose stages) [first, last]
      (stages, site) (stages', site')) :
    Awake source origins site' ∧ ∀ stage ∈ stages', stage.Local site'.wiring := by
  have apart : ∀ {id : BlockId}, Stage.Loose stages id → ∀ stage ∈ stages,
      stage.hasReduce = true → ∀ block ∈ stage.blocks, block.id ≠ id :=
    fun loose _ mem reduces _ own =>
      Stage.ne_of_loose held.arranged.nodup loose mem reduces own
  -- Only blocks that are loose are passed by: none that feeds or is a reduce block.
  obtain ⟨awake', feeders, feeding⟩ := thinned.moves.keeps_awake normal held.arranged.graph
    held.conveys awake
    (fun now =>
      (∀ stage ∈ stages, ∀ reduce ∈ stage.reduces, ∀ id start target port,
        now.Links origins place id reduce.id start target port → ∃ map ∈ stage.maps, map.id = id) ∧
      ∀ stage ∈ stages, stage.hasReduce = true → ∀ map ∈ stage.maps, ∃ reduce ∈ stage.reduces,
        ∃ start target port, now.Links origins place map.id reduce.id start target port)
    (by
      rintro block pre post - move wf wf' conveys awake ⟨feeders, feeding⟩
      refine ⟨fun stage mem reduce own id start target port links => ?_,
        fun stage mem reduces map own => ?_⟩
      · rcases move.links wf wf' awake.ended conveys.faithful links with
          former | ⟨loose, identity, entry, -, -, second⟩
        · exact feeders stage mem reduce own id start target port former
        · obtain ⟨map, own', rfl⟩ := feeders stage mem reduce own _ _ _ _ second
          exact absurd rfl (apart loose stage mem (Stage.hasReduce_iff.mpr ⟨reduce, own⟩) map
            (mem_append_left _ own'))
      · obtain ⟨reduce, own', start, target, port, links⟩ := feeding stage mem reduces map own
        exact ⟨reduce, own', start, target, port, move.links_of_awake wf wf' awake
          (fun loose => ⟨apart loose stage mem reduces map (mem_append_left _ own),
            apart loose stage mem reduces reduce (mem_append_right _ own')⟩) links⟩)
    ⟨fun stage mem reduce own id start target port links =>
        (kept stage mem).feeders reduce own id
          (held.arranged.leads_iff_links.mpr ⟨start, target, port, links⟩),
      fun stage mem reduces map own => by
        obtain ⟨reduce, own', leads⟩ := (kept stage mem).feeding reduces map own
        exact ⟨reduce, own', held.arranged.leads_iff_links.mp leads⟩⟩
  refine ⟨awake', fun stage mem => ?_⟩
  obtain ⟨whole, mem', shrinks⟩ := thinned.stages stage mem
  cases reduces : whole.hasReduce with
  | true =>
    obtain rfl := shrinks.eq reduces
    refine ⟨fun reduce own id leads => ?_, fun _ map own => ?_⟩
    · obtain ⟨start, target, port, links⟩ := thinned.arranged.leads_iff_links.mp leads
      exact feeders stage mem' reduce own id start target port links
    · obtain ⟨reduce, own', links⟩ := feeding stage mem' reduces map own
      exact ⟨reduce, own', thinned.arranged.leads_iff_links.mpr links⟩
  | false =>
    rw [← shrinks.hasReduce] at reduces
    refine ⟨fun reduce own => ?_, fun has => nomatch reduces.symm.trans has⟩
    cases reduces.symm.trans (Stage.hasReduce_iff.mpr ⟨reduce, own⟩)

/-- Identities of a block can be bypassed, and all blocks stay tight. -/
theorem Taut.bypass (normal : source.Normal) (allowed : free block.id)
    (taut : Taut source origins kind place first last (block :: rest) site) :
    ∃ post, Placed.bypass ⟨site.graph, site.wiring, block⟩ = .ok post ∧
      Placed.Reduced source origins kind place free ([first, last] ++ rest)
        ⟨site.graph, site.wiring, block⟩ post ∧
      Taut source origins kind place first last (post.block :: rest) ⟨post.graph, post.wiring⟩ := by
  have front : Arranged source origins kind place site (block :: ([first, last] ++ rest)) :=
    taut.arranged.perm perm_middle
  obtain ⟨between, run, reduced⟩ : ∃ between,
      block.inputs.foldlM Placed.bypassAt ⟨site.graph, site.wiring, block⟩ = .ok between ∧
        Placed.Reduced source origins kind place free _ ⟨site.graph, site.wiring, block⟩ between :=
    Placed.bypassEach_eq_ok front allowed
  rw [Placed.bypass, bind_of_ok run]
  split
  swap
  · exact ⟨_, rfl, Placed.reduced_refl front, taut⟩
  obtain ⟨post, run', reduced'⟩ : ∃ post, between.compact = .ok post ∧
      Placed.Reduced source origins kind place free _ between post :=
    Placed.compact_eq_ok reduced.arranged
  obtain ⟨_, -, eq⟩ := of_bind run'
  cases eq
  replace reduced' := reduced.trans reduced'
  have awake := (reduced'.moves.keeps_awake normal front.graph taut.conveys taut.awake
    (fun _ => True) (fun _ _ _ _ _ _ _ _ _ _ => trivial) trivial).1
  refine ⟨_, run', reduced', taut.toHeld.moves normal (reduced'.arranged.perm perm_middle.symm)
    reduced'.moves, awake, forall_mem_cons.mpr ⟨?_, fun other mem => ?_⟩⟩
  · exact Placed.tight_compacted reduced.arranged
  · have nodup := front.nodup
    rw [map_cons, nodup_cons] at nodup
    have ne : other.id ≠ block.id := fun eq => nodup.1 (mem_map.mpr
      ⟨other, mem_append_right _ mem, eq⟩)
    refine (taut.tight other (.tail _ mem)).frame reduced'.arranged
      (.tail _ (mem_append_right _ mem)) front.wf (fun _ own => own)
      (fun _ own => own) (fun _ own => own) (fun entry port => reduced'.enters entry _ port ne)
      (fun exit port => reduced'.leaves exit _ port ne)
      (fun _ _ => reduced'.moves.stored front.graph) fun id node got placed => ?_
    refine reduced'.moves.keeps_ports normal front.graph taut.conveys taut.awake got ?_
    rintro _ rfl -
    exact placed ▸ ne

/-- Stages can be compacted, and their blocks stay tight. -/
theorem Taut.compactAll (normal : source.Normal)
    (taut : Taut source origins kind place first last (stages.flatMap Stage.blocks) site) :
    ∃ stages' site', Stage.compactAll stages site = .ok (stages', site') ∧
      Taut source origins kind place first last (stages'.flatMap Stage.blocks) site' ∧
      Stage.Thinned source origins kind place (Stage.Loose stages) [first, last] (stages, site)
        (stages', site') := by
  let inv : List Block → Site → Prop := fun blocks now =>
    Taut source origins kind place first last blocks now ∧
      Moves origins place (Stage.Loose stages) (Stage.Loose stages) site now
  have lasting : Lasting inv := by
    refine ⟨fun held permuted => ⟨held.1.perm permuted, held.2⟩, fun held sub filled =>
      ⟨⟨⟨held.1.arranged.sparse sub filled, held.1.conveys, held.1.framed⟩, held.1.awake,
        fun block mem => held.1.tight block (sub.subset mem)⟩, held.2⟩⟩
  have upholds : Upholds True inv (Stage.Loose stages) Placed.bypass := by
    rintro block rest now loose ⟨taut, moves⟩
    obtain ⟨post, run, reduced, taut'⟩ := taut.bypass normal loose
    refine .of_exists ⟨post, run, reduced.id, taut', moves.trans (reduced.moves.mono ?_)⟩
    rintro _ rfl
    exact loose
  obtain ⟨⟨stages', site'⟩, run, ⟨taut', moves⟩, shrinks⟩ :=
    (Stage.compactAll_yields lasting upholds
    (fun stages' => ∀ stage ∈ stages', ∃ whole ∈ stages, whole.Shrinks stage)
    (Stage.Shrinks.forall_mem fun shrinks ⟨whole, mem, early⟩ => ⟨whole, mem, early.trans shrinks⟩)
    (fun shrinks _ => .of_shrinks shrinks)
    (fun _ _ sub shrinks stage mem => shrinks stage (sub.subset mem)) ⟨taut, .refl⟩
    fun stage mem => ⟨stage, mem, .refl stage⟩).exists'
  exact ⟨stages', site', run, taut', taut'.arranged, shrinks, moves⟩

end Thinned

end Staging
