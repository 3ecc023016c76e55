import Staging.Proofs.Bypassing
import Staging.Proofs.Grouping
import Staging.Proofs.Shuffling

/-! # Stages of shuffles

The stage of a shuffle has its reduce block and the map blocks that were cut out
for it. Inside of such a stage data goes from the map blocks to the reduce block
and nowhere else. Outside of it the map blocks feed the same blocks.
-/

namespace Staging

open Std Relation List ExtTreeSet HandleSet

variable {origins : Origins} {place : Places} {free : BlockId → Prop} {G : Graph}
  {id : NodeId} {members : NodeSet} {W : Wiring} {input out : Chart}
  {maps reduces : List Chart} {block : BlockId} {shuffle : NodeId}

/-! ## Where nodes are seated -/

/-- Nodes lie in blocks of charts that have what they are copies of. -/
def Seated (charts : List Chart) (origins : Origins) (place : Places)
    (graph : Graph) : Prop :=
  ∀ id node, graph.nodes[id]? = some node →
    ∃ chart ∈ charts, place id = chart.1.id ∧ origins.node id ∈ chart.2.nodes

theorem Moves.seated {charts : List Chart} {within : BlockId → Prop} {pre post : Site}
    (moves : Moves origins place free within pre post)
    (wf : pre.graph.Consistent) (seated : Seated charts origins place pre.graph) :
    Seated charts origins place post.graph :=
  moves.keeps (fun site => Seated charts origins place site.graph)
    (fun _ _ _ _ move _ _ seated id node got => seated id node (move.stored got))
    wf seated

/-- The block is the one of the shuffle. -/
def Heads (graph : Graph) (reduces : List Chart) (block : BlockId) (shuffle : NodeId) : Prop :=
  graph.Member shuffle ∧ graph.isShuffleBoundary shuffle = true ∧ ∃ chart ∈ reduces,
    chart.1.id = block ∧ chart.2 = (graph.walkFrom .forward (.of [shuffle])).outline graph true

/-- A normal graph has been surveyed, and its charts have handles of their own. -/
structure Graph.Partitioned (graph : Graph) (members : NodeSet) (wiring : Wiring)
    (input output : Chart) (reduces maps : List Chart) : Prop where
  normal : graph.Normal
  known : ∀ id, id ∈ members ↔ graph.Member id
  surveyed : graph.Surveyed members wiring input output reduces maps
  nodup : ((input :: output :: (reduces ++ maps)).map fun chart => chart.1.id).Nodup

/-- Among the nodes of its region a shuffle is the only one. -/
theorem Graph.Normal.mem_reduceOutline (normal : G.Normal)
    (mem : G.Member shuffle) (marked : G.isShuffleBoundary shuffle)
    (inside : id ∈ ((G.walkFrom .forward (.of [shuffle])).outline G true).nodes) :
    id = shuffle ∨ G.Passes shuffle id ∧ G.isShuffleBoundary id = false := by
  rcases Span.mem_outline_nodes.mp inside with passed | ⟨-, started⟩
  · obtain ⟨-, start, eq, passes⟩ := (Graph.mem_passings_forward normal.wf).mp passed
    rw [mem_of, mem_singleton] at eq
    subst eq
    exact .inr ⟨passes, normal.settled start id mem marked passes⟩
  · exact .inl (by simpa [Graph.walkFrom] using started)

theorem Graph.shuffle_mem_reduceOutline (G : Graph) (shuffle : NodeId) :
    shuffle ∈ ((G.walkFrom .forward (.of [shuffle])).outline G true).nodes :=
  Span.mem_outline_nodes.mpr (.inr ⟨rfl, by simp [Graph.walkFrom]⟩)

section Charts

variable (parts : G.Partitioned members W input out reduces maps)

include parts

theorem Graph.Partitioned.exists_heads (reduce : reducing reduces block) :
    ∃ shuffle, Heads G reduces block shuffle := by
  obtain ⟨chart, mem, eq⟩ := any_eq_true.mp reduce
  have outlined := mem_map_of_mem (f := Prod.snd) mem
  rw [parts.surveyed.reduces] at outlined
  obtain ⟨span, made, eq'⟩ := mem_map.mp outlined
  obtain ⟨shuffle, has, rfl⟩ := mem_map.mp made
  obtain ⟨bounded, marked⟩ := (mem_filter_iff _).mp (mem_toList.mp has)
  exact ⟨shuffle, ((Graph.mem_boundariesOf parts.known).mp bounded).1, marked, chart, mem,
    eq_of_beq eq, eq'.symm⟩

/-- A shuffle has one block. -/
theorem Heads.unique {first second : BlockId} (one : Heads G reduces first shuffle)
    (two : Heads G reduces second shuffle) : first = second := by
  obtain ⟨-, -, chart, mem, rfl, eq⟩ := one
  obtain ⟨-, -, chart', mem', rfl, eq'⟩ := two
  have nodup : (reduces.map Prod.snd).Nodup := by
    rw [parts.surveyed.reduces, Graph.reduceSpans, List.map_map]
    refine List.Nodup.map_on (fun shuffle has other has' alike => ?_) (nodup_toList _)
    obtain ⟨-, marked⟩ := (mem_filter_iff _).mp (mem_toList.mp has)
    obtain ⟨bounded, marked'⟩ := (mem_filter_iff _).mp (mem_toList.mp has')
    have inside := G.shuffle_mem_reduceOutline shuffle
    rw [Function.comp_apply, Function.comp_apply] at alike
    rw [alike] at inside
    rcases parts.normal.mem_reduceOutline ((Graph.mem_boundariesOf parts.known).mp bounded).1
      marked' inside with eq | ⟨-, clear⟩
    · exact eq
    · cases marked.symm.trans clear
  rw [inj_on_of_nodup_map nodup mem mem' (eq.trans eq'.symm)]

/-- Blocks that were cut out for shuffles are none of shuffles. -/
theorem Aims.reducing_eq_false (aims : Aims G (input :: out :: (reduces ++ maps)) block shuffle) :
    reducing reduces block = false := by
  rw [← Bool.not_eq_true]
  intro reduce
  obtain ⟨shuffle', -, marked, chart, mem, eq, outline⟩ := parts.exists_heads reduce
  obtain ⟨chart', mem', eq', aimed⟩ := aims
  obtain rfl := inj_on_of_nodup_map parts.nodup (by simp [mem] : chart ∈ _) mem' (eq.trans eq'.symm)
  have clear := aimed.clear shuffle' (outline ▸ G.shuffle_mem_reduceOutline shuffle')
  rw [Graph.isBoundary_iff.mpr (.inr marked)] at clear
  cases clear

variable {copies : Graph} (seated : Seated (input :: out :: (reduces ++ maps)) origins place copies)
  {node : Node} (got : copies.nodes[id]? = some node)

include seated got

/-- A node in the block of a shuffle is the shuffle or comes after it. -/
theorem Heads.origin (heads : Heads G reduces (place id) shuffle) :
    origins.node id = shuffle ∨ G.Passes shuffle (origins.node id) ∧
      G.isShuffleBoundary (origins.node id) = false := by
  obtain ⟨has, marked, chart, mem, placed, eq⟩ := heads
  obtain ⟨chart', mem', placed', inside⟩ := seated id node got
  obtain rfl := inj_on_of_nodup_map parts.nodup (by simp [mem] : chart ∈ _) mem'
    (placed.trans placed')
  exact parts.normal.mem_reduceOutline has marked (eq ▸ inside)

/-- A node in a block that was cut out for a shuffle comes before it. -/
theorem Aims.origin (aims : Aims G (input :: out :: (reduces ++ maps)) (place id) shuffle) :
    G.Passes (origins.node id) shuffle ∧ G.isBoundary (origins.node id) = false := by
  obtain ⟨chart, mem, placed, aimed⟩ := aims
  obtain ⟨chart', mem', placed', inside⟩ := seated id node got
  obtain rfl := inj_on_of_nodup_map parts.nodup mem mem' (placed.trans placed')
  exact ⟨aimed.passes _ inside, aimed.clear _ inside⟩

/-- A block that was cut out for a shuffle is neither the one of the inputs nor
that of the outputs. -/
theorem Aims.ne_ends (aims : Aims G (input :: out :: (reduces ++ maps)) (place id) shuffle) :
    place id ≠ input.1.id ∧ place id ≠ out.1.id := by
  obtain ⟨-, clear⟩ := aims.origin parts seated got
  obtain ⟨chart, mem, placed, inside⟩ := seated id node got
  refine ⟨fun eq => ?_, fun eq => ?_⟩
  · obtain rfl := inj_on_of_nodup_map parts.nodup mem (by simp : input ∈ _) (placed.symm.trans eq)
    rw [parts.surveyed.input] at inside
    have stage := parts.normal.isStageBoundary_input (mem_of.mp inside)
    rw [Graph.isBoundary_iff.mpr (.inl stage)] at clear
    cases clear
  · obtain rfl := inj_on_of_nodup_map parts.nodup mem (by simp : out ∈ _) (placed.symm.trans eq)
    rw [parts.surveyed.output] at inside
    rw [parts.normal.isBoundary_output (mem_of.mp inside)] at clear
    cases clear

end Charts

/-! ## Links with reduce blocks -/

section Links

variable (parts : G.Partitioned members W input out reduces maps) {kind : BlockId → Bool}
  {feeds : BlockId → BlockId → Prop} {site : Site} {blocks : List Block}
  (kinds : ∀ block, kind block → reducing reduces block)
  (arranged : Arranged G origins kind place site blocks)
  (seated : Seated (input :: out :: (reduces ++ maps)) origins place site.graph)
  (routed : Routed G (input :: out :: (reduces ++ maps)) origins place free feeds site)

section Joined

variable {out' : OutputId} {input' : InputId} {id' : NodeId}
  (owned : site.graph.outputOwner? out' = some id)
  (owned' : site.graph.inputOwner? input' = some id') (joined : site.wiring.Joins out' input')

include arranged owned' joined in
/-- Links lead to shuffles in reduce blocks only. -/
theorem Arranged.isShuffleBoundary_joined :
    G.isShuffleBoundary (origins.node id') = kind (place id') := by
  obtain ⟨exit, entry, block, block', -, entered, -⟩ := joined
  obtain ⟨owner, taken, rfl, shuffled⟩ := arranged.entryPlaced entry block' input' entered
  cases owned'.symm.trans taken
  obtain ⟨node, got, -⟩ := arranged.graph.node_of_input owned'
  rw [arranged.faithful.isShuffleBoundary got, shuffled]

include parts kinds arranged seated routed owned owned' joined

/-- A link to a reduce block comes from a block that was cut out for its shuffle. -/
theorem aims_of_joined (reduce : kind (place id')) :
    Heads G reduces (place id') (origins.node id') ∧
      Aims G (input :: out :: (reduces ++ maps)) (place id) (origins.node id') ∧
      feeds (place id) (place id') := by
  have marked := (arranged.isShuffleBoundary_joined owned' joined).trans reduce
  obtain ⟨node, got, -⟩ := arranged.graph.node_of_input owned'
  obtain ⟨shuffle, heads⟩ := parts.exists_heads (kinds _ reduce)
  obtain ⟨aims, fed⟩ := routed.into (place id) (place id') (origins.node id) (origins.node id')
    (origins.input input') ⟨out', input', id, id', owned, owned', joined, rfl, rfl, rfl, rfl, rfl⟩
    marked
  rcases heads.origin parts seated got with rfl | ⟨-, clear⟩
  · exact ⟨heads, aims, fed⟩
  · cases marked.symm.trans clear

omit kinds seated in
/-- A block that was cut out for a shuffle is linked with its reduce block, and
else only with blocks of nodes that the shuffle feeds. -/
theorem eq_or_precedes_of_aims
    (aims : Aims G (input :: out :: (reduces ++ maps)) (place id) shuffle) :
    origins.node id' = shuffle ∧ kind (place id') ∨
      G.Precedes shuffle (origins.node id') ∧ kind (place id') = false := by
  have ⟨_, _, _, aimed⟩ := aims
  have shuffled := arranged.isShuffleBoundary_joined owned' joined
  rcases routed.outOf (place id) (place id') (origins.node id) (origins.node id')
    (origins.input input') shuffle
    ⟨out', input', id, id', owned, owned', joined, rfl, rfl, rfl, rfl, rfl⟩ aims
    with eq | ⟨opens, prec⟩
  · exact .inl ⟨eq, by rw [← shuffled, eq, aimed.marked]⟩
  · obtain ⟨owner, -, -, taken, clear, -⟩ := opens
    have original := arranged.faithful.inputOwner arranged.graph parts.normal.wf owned'
    cases taken.symm.trans original
    refine .inr ⟨prec, ?_⟩
    rw [← shuffled, ← Bool.not_eq_true]
    intro marked
    rw [Graph.isBoundary_iff.mpr (.inr marked)] at clear
    cases clear

end Joined

omit arranged in
include parts kinds in
theorem kind_ends : kind input.1.id = false ∧ kind out.1.id = false := by
  have nodup := parts.nodup
  rw [map_cons, nodup_cons, map_cons, nodup_cons] at nodup
  refine ⟨?_, ?_⟩
  · rw [← Bool.not_eq_true]
    intro reduce
    obtain ⟨chart, mem, eq⟩ := any_eq_true.mp (kinds _ reduce)
    refine nodup.1 (mem_cons_of_mem _ ?_)
    exact eq_of_beq eq ▸ mem_map_of_mem (mem_append_left _ mem)
  · rw [← Bool.not_eq_true]
    intro reduce
    obtain ⟨chart, mem, eq⟩ := any_eq_true.mp (kinds _ reduce)
    exact nodup.2.1 (eq_of_beq eq ▸ mem_map_of_mem (mem_append_left _ mem))

include parts kinds seated routed in
/-- The blocks of a normal graph can be grouped. -/
theorem Routed.group_eq_ok {first last : Block} {inner : List Block}
    (ids : first.id = input.1.id ∧ last.id = out.1.id)
    (arranged : Arranged G origins kind place site ([first, last] ++ inner)) :
    ∃ stages, Block.group inner site = .ok stages ∧ (stages.flatMap Stage.blocks).Perm inner ∧
      ∀ stage ∈ stages, stage.Grouped site.wiring kind := by
  refine Staging.group_eq_ok arranged ?_ ?_ ?_
  · have ends := kind_ends parts kinds
    simp [ids.1, ids.2, ends]
  · intro pre post leads reduce
    obtain ⟨out', input', id, id', owned, rfl, owned', rfl, joined⟩ := arranged.leads_iff.mp leads
    obtain ⟨-, aims, -⟩ := aims_of_joined parts kinds arranged seated routed owned owned' joined
      reduce
    obtain ⟨node, got, -⟩ := arranged.graph.node_of_output owned
    have ends := aims.ne_ends parts seated got
    refine ⟨?_, ?_⟩
    · rw [← Bool.not_eq_true]
      intro reduce'
      have clear := aims.reducing_eq_false parts
      rw [kinds _ reduce'] at clear
      cases clear
    · obtain ⟨block, mem, placed⟩ := arranged.cover id node got
      rw [mem_append, mem_cons, mem_singleton] at mem
      rcases mem with (rfl | rfl) | mem
      · exact absurd (placed.trans ids.1) ends.1
      · exact absurd (placed.trans ids.2) ends.2
      · exact ⟨block, mem, placed.symm⟩
  · intro pre post other' leads leads' reduce reduce'
    obtain ⟨out', input', id, id', owned, rfl, owned', rfl, joined⟩ := arranged.leads_iff.mp leads
    obtain ⟨out'', input'', id'', other, given, eq, taken, rfl, joined'⟩ :=
      arranged.leads_iff.mp leads'
    obtain ⟨heads, aims, -⟩ :=
      aims_of_joined parts kinds arranged seated routed owned owned' joined reduce
    obtain ⟨heads', -⟩ :=
      aims_of_joined parts kinds arranged seated routed given taken joined' reduce'
    rw [← eq] at aims
    rcases eq_or_precedes_of_aims parts arranged routed given taken joined' aims
      with ⟨alike, -⟩ | ⟨-, other⟩
    · exact heads.unique parts (alike ▸ heads')
    · cases reduce'.symm.trans other

end Links

end Staging
