import Mathlib.Data.List.Pairwise
import Mathlib.Data.List.Perm.Subperm
import Staging.Proofs.Consistency
import Staging.Proofs.Levels

/-! # Blocks of any graph

Whatever graph is cut into regions, block ports belong to the regions for which they were
made, and a region is entered at shuffles only or at no shuffle. Detached blocks keep the
block ports of their regions and are entered at copies of the nodes at which those were
entered.
-/

namespace Staging

open Std List ExtTreeSet HandleSet HandleMap

variable {blocks' : List Block} {withStartings : Bool} {groups : List ReduceGroup}
  {site site' : Site} {blocks : List Block} {G graph : Graph} {W : Wiring} {charts : List Chart}

/-! ## Cutting -/

/-- The block is entered at shuffles only, or at no shuffle. -/
def Wiring.Uniform (wiring : Wiring) (graph : Graph) (id : BlockId) : Prop :=
  ∃ side, ∀ entry port, wiring.entryOf entry = some (id, port) →
    ∃ owner, graph.inputOwner? port = some owner ∧ graph.isShuffleBoundary owner = side

/-- Ports that are checked to be uniform all belong to shuffles, or none does. -/
theorem exists_side_of_checkUniform {ports : InputSet}
    (run : Region.checkUniform G ports = .ok ()) :
    ∃ side, ∀ port ∈ ports, ∃ owner, G.inputOwner? port = some owner ∧
      G.isShuffleBoundary owner = side := by
  obtain ⟨shuffled, looked, run⟩ := of_bind run
  have known : ∀ port ∈ ports, ∃ owner, G.inputOwner? port = some owner ∧
      G.isShuffleBoundary owner ∈ shuffled := by
    intro port has
    obtain ⟨shuffles, mem, ran⟩ := exists_of_mapM looked (mem_toList.mpr has)
    obtain ⟨record, got, ⟨⟩⟩ := of_bind ran
    refine ⟨record.owner, ?_, mem⟩
    rw [Graph.input] at got
    split at got
    · next stored =>
      cases got
      rw [Graph.inputOwner?, stored, Option.map_some]
    · cases got
  split at run
  · next uniform =>
    rw [Bool.or_eq_true, all_eq_true, all_eq_true] at uniform
    rcases uniform with all | none
    · refine ⟨true, fun port has => ?_⟩
      obtain ⟨owner, owned, mem⟩ := known port has
      exact ⟨owner, owned, all _ mem⟩
    · refine ⟨false, fun port has => ?_⟩
      obtain ⟨owner, owned, mem⟩ := known port has
      exact ⟨owner, owned, by simpa using none _ mem⟩
  · cases run

/-- Regions are charted, and each is entered at nodes of one side. -/
structure Enlisted (graph : Graph) (wiring : Wiring) (charts : List Chart) : Prop where
  charted : Charted wiring charts
  uniform : ∀ chart ∈ charts, Region.checkUniform graph chart.2.inputs = .ok ()

namespace Enlisted

theorem ofPorts (enlisted : Enlisted site.graph site.wiring charts) {outline : Outline}
    {region : Region}
    (run : Region.ofPorts site outline.nodes outline.inputs outline.outputs = .ok (region, W)) :
    Enlisted site.graph W (charts ++ [(region, outline)]) := by
  obtain ⟨_, uniform, -⟩ := of_bind run
  refine ⟨enlisted.charted.ofPorts run, fun chart mem => ?_⟩
  rcases mem_append.mp mem with old | new
  · exact enlisted.uniform chart old
  · exact mem_singleton.mp new ▸ uniform

theorem perm (enlisted : Enlisted G W charts) {charts' : List Chart}
    (permuted : charts.Perm charts') : Enlisted G W charts' :=
  ⟨enlisted.charted.perm permuted, fun chart mem =>
    enlisted.uniform chart (permuted.mem_iff.mpr mem)⟩

theorem cut (enlisted : Enlisted site.graph site.wiring charts) {span : Span} {withArrivals : Bool}
    {region : Region} (run : span.cut site withStartings withArrivals = .ok (region, W)) :
    ∃ outline, Enlisted site.graph W (charts ++ [(region, outline)]) := by
  rw [Span.cut] at run
  split at run
  · cases run
  split at run
  · cases run
  obtain ⟨-, -, run⟩ := of_bind run
  obtain ⟨-, -, run⟩ := of_bind run
  exact ⟨⟨_, _, _⟩, enlisted.ofPorts run⟩

theorem cutEach (enlisted : Enlisted site.graph site.wiring charts) {spans : List Span}
    {regions : List Region} (run : Span.cutEach spans site withStartings = .ok (regions, site')) :
    ∃ new, new.map Prod.fst = regions ∧ site'.graph = site.graph ∧
      Enlisted site'.graph site'.wiring (charts ++ new) := by
  refine foldlM_carries (fun _ (state : List Region × Site) => ∃ new, new.map Prod.fst = state.1 ∧
    state.2.graph = site.graph ∧ Enlisted state.2.graph state.2.wiring (charts ++ new)) ?_
    ⟨[], rfl, rfl, by simpa using enlisted⟩ run
  rintro span _ ⟨regions, site⟩ next ⟨new, rfl, eq, enlisted⟩ stepped
  obtain ⟨⟨region, W⟩, ran, ⟨⟩⟩ := of_bind stepped
  obtain ⟨outline, enlisted⟩ := enlisted.cut ran
  exact ⟨new ++ [(region, outline)], by simp, eq, append_assoc charts _ _ ▸ enlisted⟩

end Enlisted

/-- The regions of any graph are charted and uniform. -/
theorem Graph.enlisted_cut {regions : Regions} (run : G.cut = .ok (regions, W)) :
    ∃ charts, regions.all = charts.map Prod.fst ∧ Enlisted G W charts := by
  obtain ⟨members, -, run⟩ := of_bind run
  obtain ⟨⟨reduces, site₁⟩, run₁, run⟩ := of_bind run
  obtain ⟨⟨maps, site₂⟩, run₂, run⟩ := of_bind run
  obtain ⟨⟨input, wiring₃⟩, run₃, run⟩ := of_bind run
  obtain ⟨⟨out, wiring₄⟩, run₄, ⟨⟩⟩ := of_bind run
  have empty : Enlisted G {} [] := ⟨charted_empty, by simp⟩
  obtain ⟨first, rfl, eq₁, enlisted⟩ := @Enlisted.cutEach _ ⟨G, {}⟩ _ _ empty _ _ run₁
  obtain ⟨second, rfl, eq₂, enlisted⟩ := enlisted.cutEach run₂
  obtain rfl : site₂.graph = G := eq₂.trans eq₁
  have entered : Enlisted site₂.graph wiring₃ (_ ++ [(input, site₂.graph.inputOutline)]) :=
    enlisted.ofPorts run₃
  have left : Enlisted site₂.graph W (_ ++ [(out, site₂.graph.outputOutline)]) :=
    @Enlisted.ofPorts ⟨site₂.graph, wiring₃⟩ _ _ entered _ _ run₄
  refine ⟨_, ?_, left.perm ((perm_append_singleton _ _).append_right _)⟩
  simp [Regions.all, Regions.computing]

/-! ## Detaching -/

/-- Some regions of a graph have been detached and others are still to come. The
blocks have nodes that the graph did not have. -/
structure Peeled (source : Graph) (site : Site) (blocks : List Block) (regions : List Region) :
    Prop where
  graph : site.graph.Consistent
  roster : Roster site.wiring (blocks ++ regions.map Region.bare)
  next : source.next ≤ site.graph.next
  old : ∀ id : NodeId, id.raw < source.next → site.graph.nodes[id]? = source.nodes[id]?
  apart : blocks.Pairwise Block.Apart
  new : ∀ block ∈ blocks, ∀ id ∈ block.nodes, source.next ≤ id.raw ∧ id.raw < site.graph.next
  faces : ∀ block ∈ blocks, ∃ side,
    Placed.Faces site.graph (fun shuffles => shuffles = side) ⟨site.graph, site.wiring, block⟩
  uniform : ∀ region ∈ regions, site.wiring.Uniform source region.id

section Detach

variable {source : Graph} {regions : List Region} {region : Region} {block : Block}

private theorem repointed_of_detach (roster : Roster site.wiring (region.bare :: blocks))
    (run : region.detach site = .ok (block, site')) :
    ∃ map, site.graph.copy region.nodes = .ok (map, site'.graph) ∧ block = region.copies map ∧
      Repointed site.wiring site'.wiring region map := by
  obtain ⟨⟨map, G⟩, copied, -⟩ := of_bind run
  obtain ⟨rfl, rfl, repointed⟩ := (Region.detach_yields copied roster.wf
    (roster.entriesNodup region.bare (.head _)) (roster.exitsNodup region.bare (.head _))).good _
      run
  exact ⟨map, copied, rfl, repointed⟩

/-- A block port of a region wraps a copy of the port that it wrapped. -/
private theorem exists_copied_port {role role' : Role}
    {of of' : Handle role' → Option (BlockId × Handle role)} {own : List (Handle role')}
    {copies : HandleMap role (Handle role)} {id : BlockId} {handle : Handle role'}
    {port : Handle role}
    (mapped : ∀ handle ∈ own, ∃ block port copy, of handle = some (block, port) ∧
      copies[port]? = some copy)
    (repointed : ∀ handle, of' handle = if handle ∈ own then
      (of handle).map fun wraps => (wraps.1, copies[wraps.2]?.getD wraps.2) else of handle)
    (listed : ∀ handle, handle ∈ own ↔ ∃ port, of handle = some (id, port))
    (wraps : of' handle = some (id, port)) :
    ∃ port', of handle = some (id, port') ∧ copies[port']? = some port := by
  obtain ⟨port', pre, rfl⟩ := exists_rewrapped (f := fun port => copies[port]?.getD port)
    repointed listed wraps
  obtain ⟨_, _, copy, pre', copied⟩ := mapped handle ((listed handle).mpr ⟨port', pre⟩)
  cases pre'.symm.trans pre
  exact ⟨port', pre, by rw [copied, Option.getD_some]⟩

private theorem bounds_of_mem_copies {map : CopyMap} (holds : Graph.Copies site.graph map G)
    {id : NodeId} (own : id ∈ (region.copies map).nodes) :
    site.graph.next ≤ id.raw ∧ id.raw < G.next := by
  obtain ⟨origin, mapped⟩ := Region.mem_copies.mp own
  obtain ⟨above, -, node, -, got, -⟩ := holds.nodes origin id mapped
  exact ⟨above, holds.wf.early got⟩

/-- The copies of a region face to the side of its originals. -/
private theorem Peeled.faces_copies (peeled : Peeled source site blocks (region :: regions))
    (wf : source.Consistent) {map : CopyMap} (holds : Graph.Copies site.graph map G)
    (repointed : Repointed site.wiring W region map) :
    ∃ side, Placed.Faces G (fun shuffles => shuffles = side) ⟨G, W, region.copies map⟩ := by
  have front := peeled.roster.perm perm_middle
  obtain ⟨side, sided⟩ := peeled.uniform region (.head _)
  refine ⟨side, ⟨fun entry port entered => ?_, fun exit port left => ?_⟩,
    fun copy origin named => ?_⟩
  · obtain ⟨port', pre, copied⟩ := exists_copied_port repointed.mapped.entries repointed.entries
      (front.entries region.bare (.head _)) entered
    obtain ⟨origin, owned, shuffles⟩ := sided entry port' pre
    obtain ⟨-, id, owner, node', record, mapped, got', own', stored, inside⟩ :=
      holds.inputs.domain port' port copied
    obtain ⟨node, got, has⟩ := wf.node_of_input owned
    have stands := (peeled.old origin (wf.early got)).trans got
    obtain rfl := peeled.graph.input_unique got' own' stands has
    obtain ⟨-, original, record', got'', stored', same⟩ := holds.nodes _ owner mapped
    cases got''.symm.trans stands
    cases stored'.symm.trans stored
    refine ⟨owner, ⟨Region.mem_copies.mpr ⟨_, mapped⟩, ?_⟩, holds.wf.input_of_mem stored inside⟩
    rw [Graph.isShuffleBoundary, got, Option.any_some] at shuffles
    rw [Graph.isShuffleBoundary, stored, Option.any_some, ← shuffles, Node.isShuffleBoundary,
      Node.isShuffleBoundary, ← congrArg Node.boundary same]
  · obtain ⟨port', -, copied⟩ := exists_copied_port repointed.mapped.exits repointed.exits
      (front.exits region.bare (.head _)) left
    obtain ⟨-, id, owner, node, record, mapped, got, own, stored, inside⟩ :=
      holds.outputs.domain port' port copied
    exact ⟨owner, Region.mem_copies.mpr ⟨_, mapped⟩, holds.wf.output_of_mem stored inside⟩
  · have mapped := (Region.origins_copies holds).mp named
    obtain ⟨-, node, record, got, stored, same⟩ := holds.nodes _ _ mapped
    have ins := congrArg length (holds.inputs.listed _ _ node record mapped got stored)
    have outs := congrArg length (holds.outputs.listed _ _ node record mapped got stored)
    exact ⟨Region.mem_copies.mpr ⟨origin, mapped⟩, record, node, stored,
      holds.node_old peeled.graph got, (congrArg Node.boundary same :), by simpa using ins.symm,
      by simpa using outs.symm⟩

/-- A region is detached. -/
theorem Peeled.detach (peeled : Peeled source site blocks (region :: regions))
    (wf : source.Consistent) (run : region.detach site = .ok (block, site')) :
    Peeled source site' (blocks ++ [block]) regions := by
  have front := peeled.roster.perm perm_middle
  obtain ⟨map, copied, rfl, repointed⟩ := repointed_of_detach front run
  have holds := Graph.copies_copy peeled.graph copied
  have ne : ∀ other ∈ blocks ++ regions.map Region.bare, other.id ≠ region.id := by
    intro other mem eq
    have nodup := front.nodup
    rw [map_cons, nodup_cons] at nodup
    exact nodup.1 (mem_map.mpr ⟨other, mem, eq⟩)
  have entries : ∀ other ∈ blocks ++ regions.map Region.bare, ∀ {entry port},
      site'.wiring.entryOf entry = some (other.id, port) →
        site.wiring.entryOf entry = some (other.id, port) := fun other mem _ _ =>
    rewraps_of_other (f := fun port => map.inputs[port]?.getD port) repointed.entries
      (fun entry => (front.entries region.bare (.head _) entry).mp) (ne other mem)
  refine
    { graph := holds.wf
      roster := ?_
      next := Nat.le_trans peeled.next holds.next
      old := fun id earlier => (holds.old id (Nat.lt_of_lt_of_le earlier peeled.next)).trans
        (peeled.old id earlier)
      apart := ?_
      new := fun other mem id own => ?_
      faces := fun other mem => ?_
      uniform := fun other mem => ?_ }
  · rw [append_assoc, singleton_append]
    refine Roster.perm ?_ perm_middle.symm
    exact (front.repoint repointed.repoints).congr rfl
  · refine pairwise_append.mpr ⟨peeled.apart, pairwise_singleton _ _, ?_⟩
    intro first mem second here id own own'
    rw [mem_singleton.mp here] at own'
    have below := (peeled.new first mem id own).2
    have above := (bounds_of_mem_copies holds own').1
    omega
  · rcases mem_append.mp mem with early | here
    · have bounds := peeled.new other early id own
      exact ⟨bounds.1, Nat.lt_of_lt_of_le bounds.2 holds.next⟩
    · rw [mem_singleton.mp here] at own
      have bounds := bounds_of_mem_copies holds own
      exact ⟨Nat.le_trans peeled.next bounds.1, bounds.2⟩
  · rcases mem_append.mp mem with early | here
    · obtain ⟨side, faced⟩ := peeled.faces other early
      refine ⟨side, faced.congr peeled.graph holds.wf (fun id own => ?_)
        (fun id node got => ?_) (fun entry port => entries other (mem_append_left _ early))
        fun exit port => ?_⟩
      · exact holds.old id (peeled.new other early id own).2
      · exact (holds.old id (peeled.graph.early got)).trans got
      · exact rewraps_of_other (f := fun port => map.outputs[port]?.getD port) repointed.exits
          (fun exit => (front.exits region.bare (.head _) exit).mp)
          (ne other (mem_append_left _ early))
    · rw [mem_singleton.mp here]
      exact peeled.faces_copies wf holds repointed
  · obtain ⟨side, sided⟩ := peeled.uniform other (.tail _ mem)
    exact ⟨side, fun entry port entered => sided entry port
      (entries other.bare (mem_append_right _ (mem_map_of_mem mem)) entered)⟩

theorem Peeled.detachEach (peeled : Peeled source site blocks regions) (wf : source.Consistent)
    (run : Planner.detachEach regions site = .ok (blocks', site')) :
    Peeled source site' (blocks ++ blocks') [] := by
  refine foldlM_carries (fun rest state =>
    Peeled source state.2 (blocks ++ state.1) rest) ?_ (by simpa using peeled) run
  intro region rest state next peeled stepped
  obtain ⟨⟨block, site⟩, ran, ⟨⟩⟩ := of_bind stepped
  rw [← append_assoc]
  exact peeled.detach wf ran

end Detach

/-- The blocks of any graph list their block ports, and each has nodes of its own in a
consistent graph and is entered at copies of nodes of one side. -/
theorem Planner.peeled_blocks {events : List Event} {input out : Block} (wf : G.Consistent)
    (run : Planner.blocks G = .ok (events, input, out, blocks, site)) :
    site.graph.Consistent ∧ Roster site.wiring ([input, out] ++ blocks) ∧
      blocks.Pairwise Block.Apart ∧ ∃ source, ∀ block ∈ blocks, ∃ side,
        Placed.Faces source (fun shuffles => shuffles = side) ⟨site.graph, site.wiring, block⟩ := by
  obtain ⟨⟨regions, W⟩, cut, run⟩ := of_bind run
  obtain ⟨⟨_, site₁⟩, run₁, run⟩ := of_bind run
  obtain ⟨⟨_, site₂⟩, run₂, run⟩ := of_bind run
  obtain ⟨⟨_, site₃⟩, run₃, run⟩ := of_bind run
  obtain ⟨owned, run₄, ⟨⟩⟩ := of_bind run
  obtain ⟨charts, all, enlisted⟩ := Graph.enlisted_cut cut
  have sided := fun chart mem => exists_side_of_checkUniform (enlisted.uniform chart mem)
  obtain ⟨wired, frame, -⟩ := link_spec enlisted.charted all wf
    fun chart mem port own => (sided chart mem).elim fun _ sided =>
      (sided port own).imp fun _ => And.left
  have turned : regions.all.Perm (regions.input :: regions.output :: regions.computing) :=
    (perm_append_singleton _ _).cons _
  have start : Peeled G ⟨G, regions.link G W⟩ []
      (regions.input :: regions.output :: regions.computing) :=
    { graph := wf
      roster := by
        refine Roster.perm ?_ (turned.map Region.bare)
        rw [all, map_map]
        exact enlisted.charted.roster.relink frame wired
      next := Nat.le_refl _
      old := fun _ _ => rfl
      apart := .nil
      new := by simp
      faces := by simp
      uniform := fun region mem => by
        obtain ⟨chart, has, rfl⟩ := mem_map.mp (all ▸ turned.mem_iff.mpr mem)
        obtain ⟨side, sided⟩ := sided chart has
        refine ⟨side, fun entry port entered => sided port ?_⟩
        exact ((enlisted.charted.follows chart has).enters port).mpr
          ⟨entry, frame.entryOf entry ▸ entered⟩ }
  have peeled := ((start.detach wf run₁).detach wf run₂).detachEach wf run₃
  -- the nodes of the graph are removed, and those of the blocks are left
  let inv : List NodeId → Graph → Prop := fun rest now =>
    (∀ id ∈ rest, id.raw < G.next) ∧ now.Consistent ∧
      ∀ id : NodeId, G.next ≤ id.raw → now.nodes[id]? = site₃.graph.nodes[id]?
  obtain ⟨-, wf', kept⟩ : inv [] owned := by
    refine foldlM_carries inv ?_ ⟨fun id mem => ?_, peeled.graph, fun _ _ => rfl⟩ run₄
    · rintro id rest now next ⟨early, wf, kept⟩ stepped
      refine ⟨fun other later => early other (.tail _ later),
        wf.remove stepped, fun other late => ?_⟩
      obtain ⟨node, got, rfl⟩ := Graph.remove_eq_ok stepped
      rw [(wf.drop got).nodes, if_neg, kept other late]
      rintro rfl
      exact Nat.lt_irrefl _ (Nat.lt_of_lt_of_le (early other (.head _)) late)
    · obtain ⟨node, got⟩ := (mem_keys_iff _).mp mem
      exact wf.early got
  have mem : ∀ block ∈ blocks, block ∈ [] ++ [input] ++ [out] ++ blocks :=
    fun block has => mem_append_right _ has
  refine ⟨wf', by simpa using peeled.roster,
    peeled.apart.sublist (sublist_append_right _ _), site₃.graph, fun block has => ?_⟩
  obtain ⟨side, faced⟩ := peeled.faces block (mem block has)
  exact ⟨side, faced.congr peeled.graph wf' (fun id own =>
    kept id (peeled.new block (mem block has) id own).1) (fun _ _ => id) (fun _ _ => id)
    fun _ _ => id⟩

/-! ## Grouping -/

namespace ReduceGroup

/-- No map block feeds both groups. -/
def Apart (first second : ReduceGroup) : Prop :=
  ∀ id ∈ first.feeders, id ∉ second.feeders

instance : Symm Apart := ⟨fun _ _ apart id own own' => apart id own' own⟩

private theorem unite_spec (touching : List ReduceGroup) (group : ReduceGroup) :
    (∀ id, id ∈ (touching.foldl (fun united other =>
        ⟨united.feeders ∪ other.feeders, united.members ++ other.members⟩) group).feeders ↔
      id ∈ group.feeders ∨ ∃ other ∈ touching, id ∈ other.feeders) ∧
    (touching.foldl (fun united other =>
        ⟨united.feeders ∪ other.feeders, united.members ++ other.members⟩) group).members =
      group.members ++ touching.flatMap members := by
  induction touching generalizing group with
  | nil => simp
  | cons first rest ih =>
    obtain ⟨feeders, members⟩ := ih ⟨group.feeders ∪ first.feeders, group.members ++ first.members⟩
    refine ⟨fun id => ?_, ?_⟩
    · rw [foldl_cons, feeders, ExtTreeSet.mem_union_iff, exists_mem_cons_iff, or_assoc]
    · rw [foldl_cons, members, flatMap_cons, append_assoc]

/-- Groups stay apart, and no reduce block is lost or added. -/
theorem absorb_spec (apart : groups.Pairwise Apart)
    (group : ReduceGroup) : (absorb groups group).Pairwise Apart ∧
      ((absorb groups group).flatMap members).Perm (groups.flatMap members ++ group.members) := by
  let touches : ReduceGroup → Bool := fun other => !disjoint other.feeders group.feeders
  have parted : groups.partition touches =
      (groups.filter touches, groups.filter fun other => !touches other) :=
    partition_eq_filter_filter ..
  obtain ⟨feeders, members⟩ := unite_spec (groups.filter touches) group
  have absorbed : absorb groups group = (groups.filter fun other => !touches other) ++
      [(groups.filter touches).foldl (fun united other =>
        ⟨united.feeders ∪ other.feeders, united.members ++ other.members⟩) group] := by
    rw [absorb, show groups.partition (fun other =>
      !disjoint other.feeders group.feeders) = _ from parted]
  rw [absorbed]
  constructor
  · rw [pairwise_append]
    refine ⟨apart.sublist filter_sublist, pairwise_singleton _ _,
      fun other mem united here id own own' => ?_⟩
    rw [mem_singleton.mp here, feeders] at own'
    obtain ⟨mem, clear⟩ := mem_filter.mp mem
    rw [Bool.not_not] at clear
    rcases own' with eq | ⟨third, mem', own'⟩
    · exact disjoint_iff.mp clear id own eq
    · obtain ⟨mem', touched⟩ := mem_filter.mp mem'
      have ne : other ≠ third := by
        rintro rfl
        rw [show touches other = !disjoint other.feeders group.feeders from rfl, clear] at touched
        cases touched
      exact apart.forall mem mem' ne id own own'
  · rw [flatMap_append, flatMap_singleton, members]
    have divided := (filter_append_perm touches groups).flatMap_right ReduceGroup.members
    rw [flatMap_append] at divided
    refine Perm.trans ?_ (divided.append (Perm.refl _))
    refine perm_append_comm.trans ?_
    rw [append_assoc]
    exact perm_append_comm

end ReduceGroup

/-- The blocks that feed reduce blocks are divided among the groups and what is left. -/
private theorem subperm_feeding {feeding : List Block}
    (nodup : (feeding.map (·.id)).Nodup) (apart : groups.Pairwise ReduceGroup.Apart)
    {known : HandleMap .block Block}
    (mem : known = .ofList (feeding.map fun block => (block.id, block))) :
    ((groups.flatMap fun group => group.feeders.toList.filterMap (known[·]?)) ++
      (known.toList.filter fun entry =>
        entry.1 ∉ gather groups ReduceGroup.feeders).map Prod.snd).Subperm feeding := by
  have lookup : ∀ (id : BlockId) block, known[id]? = some block ↔
      block ∈ feeding ∧ block.id = id := fun _ _ => mem ▸ Block.getElem?_table nodup
  have got : ∀ (ids : List BlockId), (ids.filterMap (known[·]?)).map (·.id) =
      ids.filter fun id => known.contains id := by
    intro ids
    rw [map_filterMap, ← filterMap_eq_filter]
    refine filterMap_congr fun id _ => ?_
    have held : known.contains id = known[id]?.isSome := ExtTreeMap.contains_eq_isSome_getElem?
    rw [Option.guard, held]
    cases stored : known[id]? with
    | none => rfl
    | some block => simp [((lookup id block).mp stored).2]
  have later : ((known.toList.filter fun entry =>
      entry.1 ∉ gather groups ReduceGroup.feeders).map Prod.snd).map
        (·.id) = (known.toList.filter fun entry =>
      entry.1 ∉ gather groups ReduceGroup.feeders).map Prod.fst := by
    rw [map_map]
    refine map_congr_left fun entry has => ?_
    exact ((lookup entry.1 entry.2).mp ((mem_toList_iff _).mp (mem_of_mem_filter has))).2
  refine subperm_of_subset (Nodup.of_map (·.id) ?_) ?_
  · rw [map_append, later, map_flatMap, nodup_append, nodup_flatMap]
    refine ⟨⟨fun group _ => ?_, apart.imp fun {first second} apart => ?_⟩,
      (known.nodup_map_fst_toList).sublist (filter_sublist.map _), ?_⟩
    · rw [got]
      exact (nodup_toList _).filter _
    · intro id one two
      dsimp only at one two
      rw [got] at one two
      exact apart id (mem_toList.mp (mem_of_mem_filter one)) (mem_toList.mp (mem_of_mem_filter two))
    · rintro id early _ late rfl
      obtain ⟨group, has, own⟩ := mem_flatMap.mp early
      obtain ⟨entry, has', rfl⟩ := mem_map.mp late
      rw [got] at own
      have unused := (mem_filter.mp has').2
      rw [decide_eq_true_eq] at unused
      exact unused (mem_gather.mpr ⟨group, has, mem_toList.mp (mem_of_mem_filter own)⟩)
  · intro block has
    rcases mem_append.mp has with early | late
    · obtain ⟨group, -, own⟩ := mem_flatMap.mp early
      obtain ⟨id, -, stored⟩ := mem_filterMap.mp own
      exact ((lookup id block).mp stored).1
    · obtain ⟨entry, has', rfl⟩ := mem_map.mp late
      exact ((lookup entry.1 entry.2).mp ((mem_toList_iff _).mp (mem_of_mem_filter has'))).1

private theorem flatMap_blocks_alone {α : Type} (items : List α) (f : α → Block) :
    (items.map fun item => ({ maps := [f item], reduces := [] } : Stage)).flatMap
      Stage.blocks = items.map f := by
  rw [flatMap_map, map_eq_flatMap]
  rfl

/-- The stages have the blocks that are grouped, those that are reduce blocks and
those that are not on different sides. -/
theorem group_spec {stages : List Stage} (nodup : (blocks.map (·.id)).Nodup)
    (run : Block.group blocks site = .ok stages) :
    (stages.flatMap Stage.blocks).Subperm blocks ∧ ∀ stage ∈ stages,
      (∀ block ∈ stage.maps, block.isReduce site = .ok false) ∧
        ∀ block ∈ stage.reduces, block.isReduce site = .ok true := by
  obtain ⟨⟨reduces, maps⟩, run₁, run⟩ := of_bind run
  obtain ⟨⟨feeding, plain⟩, run₂, run⟩ := of_bind run
  obtain ⟨groups, run₃, ⟨⟩⟩ := of_bind run
  obtain ⟨sides, reduced, mapped⟩ := Block.divide_spec run₁
  obtain ⟨kinds, -, -⟩ := Block.divide_spec run₂
  have divided : (reduces ++ (feeding ++ plain)).Perm blocks :=
    ((Perm.refl _).append kinds).trans sides
  obtain ⟨apart, gathered⟩ := foldlM_carries (fun rest (groups : List ReduceGroup) =>
      groups.Pairwise ReduceGroup.Apart ∧ (groups.flatMap ReduceGroup.members ++ rest).Perm reduces)
    (fun block rest groups next kept stepped => by
      obtain ⟨pre, -, ⟨⟩⟩ := of_bind stepped
      obtain ⟨apart, members⟩ := ReduceGroup.absorb_spec kept.1
        ⟨pre.filter fun id => (ExtTreeMap.ofList (feeding.map fun block =>
          (block.id, block)) : HandleMap .block Block).contains id, [block]⟩
      refine ⟨apart, ((members.append (Perm.refl _)).trans ?_).trans kept.2⟩
      rw [append_assoc]
      rfl)
    ⟨.nil, by simp⟩ run₃
  have gathered : (groups.flatMap ReduceGroup.members).Perm reduces := by
    simpa using gathered
  have nodup : (feeding.map (·.id)).Nodup := by
    have part : feeding.Sublist (reduces ++ (feeding ++ plain)) :=
      (sublist_append_left ..).trans (sublist_append_right ..)
    exact ((divided.map (·.id)).nodup_iff.mpr nodup).sublist (part.map _)
  have parts := subperm_feeding nodup apart rfl
  have fed : ∀ id block, (.ofList (feeding.map fun block => (block.id, block)) :
      HandleMap .block Block)[id]? = some block → block ∈ feeding := fun _ _ got =>
    ((Block.getElem?_table nodup).mp got).1
  have mapped' : ∀ block, block ∈ feeding ∨ block ∈ plain → block.isReduce site = .ok false := by
    intro block mem
    exact mapped block (kinds.mem_iff.mp (mem_append.mpr mem))
  generalize (ExtTreeMap.ofList (feeding.map fun block => (block.id, block)) :
    HandleMap .block Block) = known at parts fed ⊢
  constructor
  · let taken : ReduceGroup → List Block := fun group => group.feeders.toList.filterMap (known[·]?)
    have shared : (groups.map (ReduceGroup.stage known)).flatMap Stage.blocks =
        groups.flatMap fun group => taken group ++ group.members := by
      rw [flatMap_map]
      rfl
    have alone := (flatMap_blocks_alone plain id).trans (map_id _)
    have later := flatMap_blocks_alone (known.toList.filter fun entry =>
      entry.1 ∉ gather groups ReduceGroup.feeders) Prod.snd
    rw [flatMap_append, flatMap_append]
    refine Subperm.trans (Perm.of_eq (congrArg₂ (· ++ ·)
      (congrArg₂ (· ++ ·) alone shared) later)).subperm ?_
    -- The blocks that feed come first, so that only they are compared.
    refine Subperm.trans (Perm.subperm ?_)
      (((subperm_append_right (plain ++ reduces)).mpr parts).trans (Perm.subperm ?_))
    · have split : (groups.flatMap fun group => taken group ++ group.members).Perm
          (groups.flatMap taken ++ reduces) :=
        (flatMap_append_perm groups taken ReduceGroup.members).symm.trans
          ((Perm.refl _).append gathered)
      refine (((Perm.refl plain).append split).append (Perm.refl _)).trans ?_
      refine ((perm_append_comm_assoc ..).append (Perm.refl _)).trans ?_
      refine (Perm.of_eq (append_assoc ..)).trans ?_
      exact ((Perm.refl _).append perm_append_comm).trans (.of_eq (append_assoc ..).symm)
    · rw [← append_assoc]
      exact perm_append_comm.trans divided
  · intro stage mem
    rcases mem_append.mp mem with early | left
    · rcases mem_append.mp early with alone | shared
      · obtain ⟨block, has, rfl⟩ := mem_map.mp alone
        exact ⟨by simpa using mapped' block (.inr has), by simp⟩
      · obtain ⟨group, has, rfl⟩ := mem_map.mp shared
        refine ⟨fun block own => ?_, fun block own => reduced block ?_⟩
        · obtain ⟨id, -, got⟩ := mem_filterMap.mp own
          exact mapped' block (.inl (fed id block got))
        · exact gathered.mem_iff.mp (mem_flatMap.mpr ⟨group, has, own⟩)
    · obtain ⟨entry, has, rfl⟩ := mem_map.mp left
      have got := (mem_toList_iff _).mp (mem_of_mem_filter has)
      exact ⟨by simpa using mapped' entry.2 (.inl (fed entry.1 entry.2 got)), by simp⟩

end Staging
