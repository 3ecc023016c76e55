import Staging.Proofs.Arrangement

/-! # Stages of blocks

Arranged blocks of which none feeds two reduce blocks are grouped into stages: a
stage for each reduce block with the map blocks that feed it, and a stage for
each other block.
-/

namespace Staging

open Std Relation List List ExtTreeSet HandleSet

variable {blocks : List Block} {source : Graph} {origins : Origins} {kind : BlockId → Bool}
  {place : Places} {site : Site} {first second : BlockId}

/-- A test that is known for all elements tells whether one of them passes. -/
theorem anyM_eq_ok {α ε : Type} {test : α → Except ε Bool} {known : α → Bool} {items : List α}
    (eq : ∀ item ∈ items, test item = .ok (known item)) :
    items.anyM test = .ok (items.any known) := by
  induction items with
  | nil => rfl
  | cons item rest ih =>
    rw [anyM, bind_of_ok (eq item (.head _)), any_cons]
    cases known item with
    | true => rfl
    | false => exact ih fun other mem => eq other (.tail _ mem)

namespace Block

variable {test : Block → Except Fault Bool}

/-- Blocks are divided by a test that is known for all of them. -/
theorem divide_eq_ok {known : Block → Bool}
    (eq : ∀ block ∈ blocks, test block = .ok (known block)) :
    divide test blocks = .ok (blocks.filter known, blocks.filter fun block => !known block) := by
  let inv : List Block → List Block × List Block → Prop := fun rest state =>
    (∀ block ∈ rest, block ∈ blocks) ∧ state.1 ++ rest.filter known = blocks.filter known ∧
      state.2 ++ rest.filter (fun block => !known block) = blocks.filter fun block => !known block
  obtain ⟨⟨passing, others⟩, run, -, passing', others'⟩ : ∃ result,
      divide test blocks = .ok result ∧ inv [] result := by
    refine foldlM_keeps inv ?_ ⟨fun _ => id, rfl, rfl⟩
    rintro block rest ⟨front, back⟩ ⟨mem, passing, others⟩
    simp only [bind_of_ok (eq block (mem block (.head _)))]
    cases holds : known block <;> rw [filter_cons, holds] at passing others <;>
      exact ⟨_, rfl, fun other later => mem other (.tail _ later), by simpa using passing,
        by simpa using others⟩
  rw [filter_nil, append_nil] at passing' others'
  rw [run, ← passing', ← others']

/-- Blocks that have been divided have been tested. -/
theorem divide_spec {passing others : List Block}
    (run : divide test blocks = .ok (passing, others)) :
    (passing ++ others).Perm blocks ∧ (∀ block ∈ passing, test block = .ok true) ∧
      ∀ block ∈ others, test block = .ok false := by
  have known : ∀ block ∈ blocks, block ∈ [] ∨
      test block = .ok ((test block).toOption.getD false) := by
    refine foldlM_carries (fun rest _ => ∀ block ∈ blocks, block ∈ rest ∨
      test block = .ok ((test block).toOption.getD false)) ?_ (fun _ => .inl) run
    rintro item rest state next tested stepped block mem
    obtain ⟨passes, passed, -⟩ := of_bind stepped
    rcases tested block mem with here | done
    · rcases mem_cons.mp here with rfl | later
      · exact .inr (by rw [passed]; rfl)
      · exact .inl later
    · exact .inr done
  simp only [not_mem_nil, false_or] at known
  cases run.symm.trans (divide_eq_ok known)
  refine ⟨filter_append_perm _ blocks, fun block mem => ?_, fun block mem => ?_⟩ <;>
    obtain ⟨mem, passes⟩ := mem_filter.mp mem <;>
    exact (known block mem).trans (by simpa using passes)
/-- Blocks are found in a table by their handles. -/
theorem getElem?_table (nodup : (blocks.map (·.id)).Nodup) {id : BlockId} {block : Block} :
    (.ofList (blocks.map fun block => (block.id, block)) : HandleMap .block Block)[id]? =
      some block ↔ block ∈ blocks ∧ block.id = id := by
  rw [HandleMap.getElem?_ofList_iff (by simpa [Function.comp_def] using nodup)]
  simp [and_comm]

end Block

/-- A group that shares no map block with others is added as it is. -/
theorem ReduceGroup.absorb_eq {groups : List ReduceGroup} {group : ReduceGroup}
    (apart : ∀ other ∈ groups, disjoint other.feeders group.feeders) :
    absorb groups group = groups ++ [group] := by
  have touching : groups.filter (fun other => !disjoint other.feeders group.feeders) = [] := by
    rw [filter_eq_nil_iff]
    intro other mem
    simp [apart other mem]
  have apart' : groups.filter (fun other => !!disjoint other.feeders group.feeders) = groups := by
    rw [filter_eq_self]
    intro other mem
    simp [apart other mem]
  rw [absorb, partition_eq_filter_filter]
  simp only [touching, Function.comp_def, apart', foldl_nil]

/-- Reduce blocks that share no map block are groups of their own. -/
theorem ReduceGroup.foldlM_absorb {W : Wiring} {known : BlockId → Bool} {reduces : List Block}
    (looked : ∀ block ∈ reduces, block.predecessors W = .ok (block.before W))
    (apart : reduces.Pairwise fun first second =>
      ∀ id ∈ first.before W, id ∉ second.before W) :
    reduces.foldlM (fun groups block => do
      let feeders := (← block.predecessors W).filter known
      return absorb groups ⟨feeders, [block]⟩) [] =
        .ok (reduces.map fun block => ⟨(block.before W).filter known, [block]⟩) := by
  let group : Block → ReduceGroup := fun block => ⟨(block.before W).filter known, [block]⟩
  let inv : List Block → List ReduceGroup → Prop := fun rest groups =>
    ∃ done, done ++ rest = reduces ∧ groups = done.map group
  obtain ⟨groups, run, done, eq, rfl⟩ : ∃ groups, reduces.foldlM (fun groups block => do
      let feeders := (← block.predecessors W).filter known
      return absorb groups ⟨feeders, [block]⟩) [] = .ok groups ∧ inv [] groups := by
    refine foldlM_keeps inv ?_ ⟨[], rfl, rfl⟩
    rintro block rest groups ⟨done, rfl, rfl⟩
    have absorbed : absorb (done.map group) (group block) = done.map group ++ [group block] := by
      refine absorb_eq fun other mem => ?_
      obtain ⟨earlier, has, rfl⟩ := mem_map.mp mem
      rw [disjoint_iff]
      intro id own own'
      exact (pairwise_append.mp apart).2.2 earlier has block (.head _) id
        ((mem_filter_iff _).mp own).1 ((mem_filter_iff _).mp own').1
    refine ⟨(done ++ [block]).map group, ?_, done ++ [block], by simp, rfl⟩
    rw [bind_of_ok (looked block (by simp)), map_append, map_singleton]
    exact congrArg Except.ok absorbed
  rw [append_nil] at eq
  rw [run, eq]

/-- A stage of a block that feeds no reduce block, or of a reduce block with all
blocks that feed it. -/
inductive Stage.Grouped (wiring : Wiring) (kind : BlockId → Bool) : Stage → Prop where
  | plain {block : Block} : (∀ other, wiring.Leads block.id other → kind other = false) →
      (block.inputs ≠ [] → kind block.id = false) →
      Grouped wiring kind { maps := [block], reduces := [] }
  | reduce {block : Block} {maps : List Block} : block.inputs ≠ [] → kind block.id = true →
      (∀ id, (∃ map ∈ maps, map.id = id) ↔ wiring.Leads id block.id) →
      (∀ map ∈ maps, kind map.id = false) →
      Grouped wiring kind { maps, reduces := [block] }

section Group

variable {all : List Block} (arranged : Arranged source origins kind place site all)

include arranged

/-- The handles of the blocks in which nodes lie are smaller than the next one. -/
theorem Arranged.place_below {id : NodeId} {node : Node}
    (got : site.graph.nodes[id]? = some node) : (place id).raw < site.wiring.next := by
  obtain ⟨block, mem, placed⟩ := arranged.cover id node got
  exact placed ▸ arranged.below block mem

/-- A block input of the block of a kind is shuffled or not as the kind says. -/
theorem Arranged.isShuffled_eq_ok {entry : BlockInputId} {block : BlockId} {port : InputId}
    (entered : site.wiring.entryOf entry = some (block, port)) :
    site.isShuffled entry = .ok (kind block) := by
  obtain ⟨record, looked, -, rfl⟩ := Wiring.input_eq_ok entered
  obtain ⟨owner, owned, -, eq⟩ := arranged.entryPlaced entry block _ entered
  obtain ⟨port, stored, rfl⟩ := Option.map_eq_some_iff.mp owned
  have looked' : site.graph.input record.port = .ok port := by rw [Graph.input, stored]
  rw [Site.isShuffled, bind_of_ok looked, bind_of_ok looked', eq]
  rfl

theorem Arranged.isReduce_eq_ok {block : Block} (mem : block ∈ all) :
    block.isReduce site = .ok (!block.inputs.isEmpty && kind block.id) := by
  rw [BlockFrame.isReduce]
  cases inputs : block.inputs with
  | nil => rfl
  | cons entry rest =>
    obtain ⟨port, entered⟩ := (arranged.entries block mem entry).mp (inputs ▸ (.head _))
    exact arranged.isShuffled_eq_ok entered

/-- Links between blocks are links between their nodes. -/
theorem Arranged.leads_iff : site.wiring.Leads first second ↔ ∃ out input id id',
    site.graph.outputOwner? out = some id ∧ place id = first ∧
    site.graph.inputOwner? input = some id' ∧ place id' = second ∧
    site.wiring.Joins out input := by
  constructor
  · rintro ⟨exit, entry, out, input, left, entered, link⟩
    obtain ⟨id, owned, placed⟩ := arranged.exitPlaced exit first out left
    obtain ⟨id', owned', placed', -⟩ := arranged.entryPlaced entry second input entered
    exact ⟨out, input, id, id', owned, placed, owned', placed',
      exit, entry, first, second, left, entered, link⟩
  · rintro ⟨out, input, id, id', owned, rfl, owned', rfl, exit, entry, block, block', left,
      entered, link⟩
    obtain ⟨_, given, rfl⟩ := arranged.exitPlaced exit block out left
    obtain ⟨_, given', rfl, -⟩ := arranged.entryPlaced entry block' input entered
    rw [owned] at given
    rw [owned'] at given'
    cases given
    cases given'
    exact ⟨exit, entry, out, input, left, entered, link⟩

open scoped Classical in
theorem Arranged.feedsReduce_eq_ok {block : Block} (mem : block ∈ all) : block.feedsReduce site =
    .ok (decide (∃ other, site.wiring.Leads block.id other ∧ kind other)) := by
  let shuffled : BlockInputId → Bool := fun entry =>
    (site.wiring.entryOf entry).any fun wraps => kind wraps.1
  have known : ∀ exit ∈ block.outputs, (do
      (← site.wiring.output exit).links.toList.anyM site.isShuffled) =
        (.ok ((site.wiring.targets exit).toList.any shuffled) : Except Fault Bool) := by
    intro exit has
    obtain ⟨port, left⟩ := (arranged.exits block mem exit).mp has
    obtain ⟨record, looked, -, -, links⟩ := Wiring.output_eq_ok left
    rw [bind_of_ok looked, links]
    refine anyM_eq_ok fun entry linked => ?_
    obtain ⟨⟨other, input⟩, entered⟩ := arranged.wf.exists_entryOf (mem_toList.mp linked)
    rw [arranged.isShuffled_eq_ok entered]
    simp only [shuffled, entered, Option.any_some]
  refine (anyM_eq_ok known).trans (congrArg Except.ok (Bool.eq_iff_iff.mpr ?_))
  simp only [any_eq_true, mem_toList, shuffled, Option.any_eq_true, decide_eq_true_eq]
  constructor
  · rintro ⟨exit, has, entry, link, ⟨other, input⟩, entered, reduce⟩
    obtain ⟨port, left⟩ := (arranged.exits block mem exit).mp has
    exact ⟨other, ⟨exit, entry, port, input, left, entered, link⟩, reduce⟩
  · rintro ⟨other, ⟨exit, entry, out, input, left, entered, link⟩, reduce⟩
    exact ⟨exit, (arranged.exits block mem exit).mpr ⟨out, left⟩, entry, link, (other, input),
      entered, reduce⟩

end Group

/-- Reduce blocks, the map blocks that feed them, and the other blocks. -/
structure Divided (wiring : Wiring) (kind : BlockId → Bool) (blocks reduces feeders others :
    List Block) : Prop where
  perm : (others ++ (feeders ++ reduces)).Perm blocks
  mem_reduces : ∀ block, block ∈ reduces ↔ block ∈ blocks ∧ block.inputs ≠ [] ∧ kind block.id = true
  mem_feeders : ∀ block, block ∈ feeders ↔
    block ∈ blocks ∧ ∃ other, wiring.Leads block.id other ∧ kind other = true
  others : ∀ block ∈ others, (∀ other, wiring.Leads block.id other → kind other = false) ∧
    (block.inputs ≠ [] → kind block.id = false)

section Stages

variable {fixed reduces feeders others : List Block}
  (arranged : Arranged source origins kind place site (fixed ++ blocks))
  (plain : ∀ block ∈ fixed, kind block.id = false)
  (feeding : ∀ first second, site.wiring.Leads first second → kind second →
    kind first = false ∧ ∃ block ∈ blocks, block.id = first)
  (single : ∀ first second third, site.wiring.Leads first second →
    site.wiring.Leads first third → kind second → kind third → second = third)

include arranged

theorem Arranged.nodup_ids : (blocks.map (·.id)).Nodup := by
  have nodup := arranged.nodup
  rw [map_append] at nodup
  exact nodup.of_append_right

include feeding in
/-- Arranged blocks can be divided. -/
theorem divided_eq_ok : ∃ reduces maps feeders others,
    Block.divide (fun block => block.isReduce site) blocks = .ok (reduces, maps) ∧
      Block.divide (fun block => block.feedsReduce site) maps = .ok (feeders, others) ∧
      Divided site.wiring kind blocks reduces feeders others := by
  classical
  have inAll : ∀ block ∈ blocks, block ∈ fixed ++ blocks := fun _ => mem_append_right _
  let isReduce : Block → Bool := fun block => !block.inputs.isEmpty && kind block.id
  let feeds : Block → Bool := fun block =>
    decide (∃ other, site.wiring.Leads block.id other ∧ kind other = true)
  let maps := blocks.filter fun block => !isReduce block
  refine ⟨blocks.filter isReduce, maps, maps.filter feeds, maps.filter fun block => !feeds block,
    Block.divide_eq_ok fun block mem => arranged.isReduce_eq_ok (inAll block mem),
    Block.divide_eq_ok fun block mem =>
      arranged.feedsReduce_eq_ok (inAll block (mem_of_mem_filter mem)), ?_, ?_, ?_, ?_⟩
  · calc maps.filter (fun block => !feeds block) ++ (maps.filter feeds ++ blocks.filter isReduce)
      _ ~ maps.filter feeds ++ maps.filter (fun block => !feeds block) ++ blocks.filter
          isReduce := by
        rw [← append_assoc]
        exact perm_append_comm.append (.refl _)
      _ ~ maps ++ blocks.filter isReduce := (filter_append_perm feeds maps).append (.refl _)
      _ ~ blocks := perm_append_comm.trans (filter_append_perm isReduce blocks)
  · simp [isReduce]
  · intro block
    simp only [maps, mem_filter, feeds, decide_eq_true_eq, isReduce]
    constructor
    · rintro ⟨⟨mem, -⟩, fed⟩
      exact ⟨mem, fed⟩
    · rintro ⟨mem, other, leads, reduce⟩
      exact ⟨⟨mem, by simp [(feeding _ _ leads reduce).1]⟩, other, leads, reduce⟩
  · intro block has
    obtain ⟨has', unfed⟩ := mem_filter.mp has
    obtain ⟨-, test⟩ := mem_filter.mp has'
    simp only [feeds, Bool.not_eq_eq_eq_not, Bool.not_true, decide_eq_false_iff_not, not_exists,
      not_and, Bool.not_eq_true] at unfed
    exact ⟨unfed, fun inputs => by simpa [isReduce, inputs] using test⟩

variable (divided : Divided site.wiring kind blocks reduces feeders others)

include divided

/-- Data that leads to a reduce block leads to one of those that are grouped. -/
theorem Divided.exists_reduce (plain : ∀ block ∈ fixed, kind block.id = false)
    (leads : site.wiring.Leads first second)
    (reduce : kind second) : ∃ block ∈ reduces, block.id = second := by
  obtain ⟨exit, entry, out, input, left, entered, link⟩ := leads
  obtain ⟨owner, owned, rfl, -⟩ := arranged.entryPlaced entry second input entered
  obtain ⟨node, got, -⟩ := arranged.graph.node_of_input owned
  obtain ⟨block, mem, eq⟩ := arranged.cover owner node got
  have inputs : block.inputs ≠ [] :=
    ne_nil_of_mem ((arranged.entries block mem entry).mpr ⟨input, eq ▸ entered⟩)
  rcases mem_append.mp mem with outside | within
  · rw [eq, plain block outside] at reduce
    cases reduce
  · exact ⟨block, (divided.mem_reduces block).mpr ⟨within, inputs, eq ▸ reduce⟩, eq.symm⟩

include single in
theorem Divided.apart : reduces.Pairwise fun first second => ∀ id,
    site.wiring.Leads id first.id → ¬ site.wiring.Leads id second.id := by
  have nodup : (reduces.map (·.id)).Nodup := by
    have all := (divided.perm.map (·.id)).nodup_iff.mpr arranged.nodup_ids
    rw [map_append, map_append] at all
    exact all.of_append_right.of_append_right
  refine Pairwise.imp_of_mem ?_ (pairwise_map.mp nodup)
  intro first second one two ne id leads leads'
  exact ne (single id _ _ leads leads' ((divided.mem_reduces first).mp one).2.2
    ((divided.mem_reduces second).mp two).2.2)

/-- The map blocks that feed a block, by the table of those that feed any. -/
def mapsFeeding (table : HandleMap .block Block) (wiring : Wiring) (block : Block) : List Block :=
  ((block.before wiring).filter fun id => table.contains id).toList.filterMap (table[·]?)

variable {table : HandleMap .block Block}
  (stored : ∀ id block, table[id]? = some block ↔ block ∈ feeders ∧ block.id = id)

include stored

theorem Divided.mem_mapsFeeding {block map : Block} (mem : block ∈ reduces) :
    map ∈ mapsFeeding table site.wiring block ↔
      map ∈ feeders ∧ site.wiring.Leads map.id block.id := by
  have within := mem_append_right fixed ((divided.mem_reduces block).mp mem).1
  have leads : ∀ id, id ∈ block.before site.wiring ↔ site.wiring.Leads id block.id :=
    fun _ => arranged.mem_before within
  simp only [mapsFeeding, mem_filterMap, mem_toList, mem_filter_iff, leads, stored]
  constructor
  · rintro ⟨id, ⟨led, -⟩, has, rfl⟩
    exact ⟨has, led⟩
  · rintro ⟨has, led⟩
    have got := (stored map.id map).mpr ⟨has, rfl⟩
    exact ⟨map.id, ⟨led, by simp [ExtTreeMap.contains_eq_isSome_getElem?, got]⟩, has, rfl⟩

include plain single in
/-- Each block that feeds a reduce block is with that block. -/
theorem Divided.perm_mapsFeeding :
    (reduces.flatMap (mapsFeeding table site.wiring)).Perm feeders := by
  have nodup : blocks.Nodup := arranged.nodup_ids.of_map
  have all := divided.perm.nodup_iff.mpr nodup
  refine (perm_ext_iff_of_nodup (nodup_flatMap.mpr ⟨fun block _ => ?_, ?_⟩)
    all.of_append_right.of_append_left).mpr fun map => ?_
  · refine (nodup_toList _).filterMap ?_
    intro first second map one two
    rw [Option.mem_def, stored] at one two
    exact one.2.symm.trans two.2
  · refine Pairwise.imp_of_mem ?_ (divided.apart arranged single)
    intro first second one two apart map own own'
    exact apart map.id ((divided.mem_mapsFeeding arranged stored one).mp own).2
      ((divided.mem_mapsFeeding arranged stored two).mp own').2
  · rw [mem_flatMap]
    constructor
    · rintro ⟨block, mem, own⟩
      exact ((divided.mem_mapsFeeding arranged stored mem).mp own).1
    · intro has
      obtain ⟨-, other, led, reduce⟩ := (divided.mem_feeders map).mp has
      obtain ⟨block, mem, rfl⟩ := divided.exists_reduce arranged plain led reduce
      exact ⟨block, mem, (divided.mem_mapsFeeding arranged stored mem).mpr ⟨has, led⟩⟩

omit divided stored

include plain feeding single in
/-- Arranged blocks can be grouped, if only map blocks feed reduce blocks and none
of them feeds two. -/
theorem group_eq_ok : ∃ stages, Block.group blocks site = .ok stages ∧
    (stages.flatMap Stage.blocks).Perm blocks ∧
    ∀ stage ∈ stages, stage.Grouped site.wiring kind := by
  obtain ⟨reduces, maps, feeders, others, run, run', divided⟩ := divided_eq_ok arranged feeding
  have inAll : ∀ block ∈ reduces, block ∈ fixed ++ blocks := fun block mem =>
    mem_append_right _ ((divided.mem_reduces block).mp mem).1
  let table : HandleMap .block Block := .ofList (feeders.map fun block => (block.id, block))
  have all := (divided.perm.map (·.id)).nodup_iff.mpr arranged.nodup_ids
  rw [map_append, map_append] at all
  have stored : ∀ id block, table[id]? = some block ↔ block ∈ feeders ∧ block.id = id := fun _ _ =>
    Block.getElem?_table all.of_append_right.of_append_left
  let group : Block → ReduceGroup := fun block =>
    ⟨(block.before site.wiring).filter fun id => table.contains id, [block]⟩
  have grouped := @ReduceGroup.foldlM_absorb site.wiring (fun id => table.contains id) reduces
    (fun block mem => arranged.predecessors_eq_ok (inAll block mem)) (by
      refine Pairwise.imp_of_mem ?_ (divided.apart arranged single)
      intro first second one two apart id own own'
      exact apart id ((arranged.mem_before (inAll first one)).mp own)
        ((arranged.mem_before (inAll second two)).mp own'))
  have left : table.toList.filter (fun entry =>
      entry.1 ∉ gather (reduces.map group) ReduceGroup.feeders) = [] := by
    rw [filter_eq_nil_iff]
    rintro ⟨id, map⟩ mem
    have got := (HandleMap.mem_toList_iff _).mp mem
    obtain ⟨has, rfl⟩ := (stored id map).mp got
    obtain ⟨-, other, led, reduce⟩ := (divided.mem_feeders map).mp has
    obtain ⟨block, within, rfl⟩ := divided.exists_reduce arranged plain led reduce
    have used : map.id ∈ gather (reduces.map group) ReduceGroup.feeders :=
      mem_gather.mpr ⟨_, mem_map_of_mem within, (mem_filter_iff _).mpr
        ⟨(arranged.mem_before (inAll block within)).mpr led,
          by simp [ExtTreeMap.contains_eq_isSome_getElem?, got]⟩⟩
    simp [used]
  let alone : Block → Stage := fun block => { maps := [block], reduces := [] }
  let shared : Block → Stage := fun block =>
    { maps := mapsFeeding table site.wiring block, reduces := [block] }
  refine ⟨others.map alone ++ reduces.map shared, ?_, ?_, fun stage mem => ?_⟩
  · refine (bind_of_ok run).trans ((bind_of_ok run').trans ((bind_of_ok grouped).trans ?_))
    change Except.ok (others.map alone ++ (reduces.map group).map (ReduceGroup.stage table) ++
      (table.toList.filter (fun entry =>
        entry.1 ∉ gather (reduces.map group) ReduceGroup.feeders)).map _) = _
    rw [left, map_nil, append_nil, List.map_map]
    rfl
  · have alone' : (others.map alone).flatMap Stage.blocks = others := by
      simp [flatMap_map, Stage.blocks, alone]
    have shared' : (reduces.map shared).flatMap Stage.blocks =
        reduces.flatMap fun block => mapsFeeding table site.wiring block ++ [block] := by
      simp [flatMap_map, Stage.blocks, shared]
    have spread := divided.perm_mapsFeeding arranged plain single stored
    rw [flatMap_append, alone', shared']
    refine ((Perm.refl _).append ?_).trans divided.perm
    refine (flatMap_append_perm reduces _ fun block => [block]).symm.trans (spread.append ?_)
    rw [flatMap_singleton']
  · rcases mem_append.mp mem with plain' | reduce
    · obtain ⟨block, has, rfl⟩ := mem_map.mp plain'
      obtain ⟨unfed, unshuffled⟩ := divided.others block has
      exact .plain unfed unshuffled
    · obtain ⟨block, has, rfl⟩ := mem_map.mp reduce
      obtain ⟨-, inputs, marked⟩ := (divided.mem_reduces block).mp has
      have maps := fun map => @Divided.mem_mapsFeeding _ _ _ _ _ _ _ _ _ _ arranged divided _
        stored block map has
      refine .reduce inputs marked (fun id => ?_) fun map own =>
        (feeding _ _ ((maps map).mp own).2 marked).1
      constructor
      · rintro ⟨map, own, rfl⟩
        exact ((maps map).mp own).2
      · intro led
        obtain ⟨-, map, mem', rfl⟩ := feeding _ _ led marked
        exact ⟨map, (maps map).mpr ⟨(divided.mem_feeders map).mpr ⟨mem', _, led, marked⟩, led⟩, rfl⟩

end Stages

end Staging
