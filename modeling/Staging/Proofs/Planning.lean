import Staging.Proofs.Condensing
import Staging.Proofs.Uniqueness
import Staging.Proofs.Validity

/-! # Plans of graphs

A planner cuts a normal graph into blocks, takes the blocks out of it and lays them out in
stages. What is known of the blocks, the stages and the links between them holds to the end:
blocks are compacted, grouped, bypassed and merged.
-/

namespace Staging

open Std Relation List

variable {site : Site} {closed G source : Graph} {W : Wiring} {place : Places}
  {origins : Origins} {kind : BlockId → Bool} {blocks : List Block} {compress : Bool} {plan : Plan}
  {stage : Stage} {events : List Event}

/-! ## The blocks of a normal graph in stages -/

section Framed

variable {members : NodeSet} {input out : Chart} {reduces maps : List Chart}
  (parts : G.Partitioned members W input out reduces maps)

include parts

/-- The blocks of the inputs and the outputs have what they are cut out for. -/
theorem Graph.Partitioned.framed
    (extracted : Extracted G (input :: out :: (reduces ++ maps)) site place origins) :
    Framed G origins place site.graph input.1.id out.1.id := by
  have apart : ∀ id ∈ G.root.inputs, id ∉ G.root.outputs := by
    intro id mem mem'
    obtain ⟨node, got, kind, -⟩ := parts.normal.inputs id mem
    obtain ⟨node', got', kind', -⟩ := parts.normal.outputs id mem'
    rw [got] at got'
    cases got'
    rw [kind] at kind'
    cases kind'
  have stage : ∀ id ∈ G.root.outputs, G.isStageBoundary id := by
    intro id mem
    obtain ⟨node, got, kind, -⟩ := parts.normal.outputs id mem
    rw [Graph.isStageBoundary, got, Option.any_some]
    simp [Node.isStageBoundary, kind]
  have eq : ∀ {chart chart' : Chart}, chart ∈ input :: out :: (reduces ++ maps) →
      chart' ∈ input :: out :: (reduces ++ maps) → chart.1.id = chart'.1.id → chart = chart' :=
    fun mem mem' => inj_on_of_nodup_map parts.nodup mem mem'
  have cases : ∀ id node, site.graph.nodes[id]? = some node →
      place id = input.1.id ∧ origins.node id ∈ G.root.inputs ∨
      place id = out.1.id ∧ origins.node id ∈ G.root.outputs ∨
      G.isStageBoundary (origins.node id) = false ∧ place id ≠ input.1.id ∧
        place id ≠ out.1.id := by
    intro id node got
    obtain ⟨chart, mem, placed, inside⟩ := extracted.placed id node got
    rcases mem_cons.mp mem with rfl | mem'
    · exact .inl ⟨placed, parts.mem_input_iff.mp inside⟩
    rcases mem_cons.mp mem' with rfl | inner
    · exact .inr (.inl ⟨placed, parts.mem_output_iff.mp inside⟩)
    refine .inr (.inr ⟨parts.isStageBoundary_eq_false inner inside, fun at' => ?_, fun at' => ?_⟩)
    · obtain rfl := eq mem (.head _) (placed.symm.trans at')
      have nodup := parts.nodup
      simp only [map_cons, nodup_cons, mem_cons, mem_map, not_or] at nodup
      exact nodup.1.2 ⟨chart, inner, rfl⟩
    · obtain rfl := eq mem (.tail _ (.head _)) (placed.symm.trans at')
      have nodup := parts.nodup
      simp only [map_cons, nodup_cons, mem_cons, mem_map, not_or] at nodup
      exact nodup.2.1 ⟨chart, inner, rfl⟩
  have ne : input.1.id ≠ out.1.id := by
    have nodup := parts.nodup
    simp only [map_cons, nodup_cons, mem_cons, not_or] at nodup
    exact nodup.1.1
  refine ⟨extracted.fresh, fun id node got => ?_, fun id node got => ?_,
    fun id node got marked => ?_, fun first second one two got got' alike solitary => ?_,
    fun id node got clear => ?_⟩
  · rcases cases id node got with ⟨placed, mem⟩ | ⟨placed, mem⟩ | ⟨clear, other, -⟩
    · exact iff_of_true placed mem
    · exact iff_of_false (fun at' => ne (at'.symm.trans placed)) fun mem' => apart _ mem' mem
    · refine iff_of_false other fun mem => ?_
      rw [parts.normal.isStageBoundary_input mem] at clear
      cases clear
  · rcases cases id node got with ⟨placed, mem⟩ | ⟨placed, mem⟩ | ⟨clear, -, other⟩
    · exact iff_of_false (fun at' => ne (placed.symm.trans at')) (apart _ mem)
    · exact iff_of_true placed mem
    · refine iff_of_false other fun mem => ?_
      rw [stage _ mem] at clear
      cases clear
  · rcases cases id node got with ⟨placed, -⟩ | ⟨placed, -⟩ | ⟨clear, -⟩
    · exact .inl placed
    · exact .inr placed
    · rw [marked] at clear
      cases clear
  · obtain ⟨chart, mem, placed, inside⟩ := extracted.placed first one got
    obtain ⟨chart', mem', placed', inside'⟩ := extracted.placed second two got'
    have here := parts.chart_eq solitary mem mem' inside (alike ▸ inside')
    exact extracted.unique first second one two got got' (by rw [placed, placed', here]) alike
  · obtain ⟨chart, mem, -, inside⟩ := extracted.placed id node got
    rcases mem_cons.mp mem with rfl | mem
    · have start := parts.normal.isStageBoundary_input (parts.mem_input_iff.mp inside)
      cases clear.symm.trans (Graph.isBoundary_iff.mpr (.inl start))
    rcases mem_cons.mp mem with rfl | inner
    · cases clear.symm.trans (parts.normal.isBoundary_output (parts.mem_output_iff.mp inside))
    · exact parts.anchored inner inside clear

end Framed

/-- Only the kinds of blocks that are entered matter. -/
theorem Arranged.rekind {kind' : BlockId → Bool}
    (arranged : Arranged source origins kind place site blocks)
    (eq : ∀ block ∈ blocks, block.inputs ≠ [] → kind' block.id = kind block.id) :
    Arranged source origins kind' place site blocks :=
  { arranged with
    entryPlaced := fun entry block port entered => by
      obtain ⟨owner, owned, placed, shuffled⟩ := arranged.entryPlaced entry block port entered
      obtain ⟨node, got, -⟩ := arranged.graph.node_of_input owned
      obtain ⟨other, mem, placed'⟩ := arranged.cover owner node got
      obtain rfl : block = other.id := placed.symm.trans placed'
      have entry' := (arranged.entries other mem entry).mpr ⟨port, entered⟩
      exact ⟨owner, owned, placed, shuffled.trans (eq other mem (ne_nil_of_mem entry')).symm⟩ }

section Stages

variable {first last : Block} {stages : List Stage}

theorem Stage.Grouped.kinds (grouped : stage.Grouped W kind) :
    (∀ block ∈ stage.maps, block.inputs ≠ [] → kind block.id = false) ∧
      ∀ block ∈ stage.reduces, block.inputs ≠ [] ∧ kind block.id := by
  cases grouped with
  | plain _ map => simpa using map
  | reduce entered reduce _ maps =>
    exact ⟨fun block mem _ => maps block mem, by simpa using ⟨entered, reduce⟩⟩

/-- In stages that have been grouped, kinds are those of the stages. -/
theorem Held.sided (held : Held source origins kind place first last (stages.flatMap Stage.blocks)
      site) (ends : kind first.id = false ∧ kind last.id = false)
    (grouped : ∀ stage ∈ stages, stage.Grouped site.wiring kind) :
    Held source origins (Stage.reducedIn stages) place first last (stages.flatMap Stage.blocks)
      site ∧ ∀ stage ∈ stages, stage.Sided (Stage.reducedIn stages) := by
  have inner : ∀ {stage : Stage} {block : Block}, stage ∈ stages → block ∈ stage.blocks →
      block ∈ [first, last] ++ stages.flatMap Stage.blocks := fun mem own =>
    mem_append_right _ (mem_flatMap.mpr ⟨_, mem, own⟩)
  -- a block with the handle of a reduce block is that block, of the one kind
  have reduces : ∀ block ∈ [first, last] ++ stages.flatMap Stage.blocks,
      Stage.reducedIn stages block.id = true → block.inputs ≠ [] ∧ kind block.id = true := by
    intro block mem reduced
    obtain ⟨stage, mem', other, own, eq⟩ := Stage.reducedIn_iff.mp reduced
    obtain rfl := held.arranged.eq_of_id_eq (inner mem' (mem_append_right _ own)) mem eq
    exact (grouped stage mem').kinds.2 other own
  have maps : ∀ stage ∈ stages, ∀ block ∈ stage.maps, Stage.reducedIn stages block.id = false := by
    intro stage mem block own
    by_contra reduced
    obtain ⟨entered, reduce⟩ := reduces block (inner mem (mem_append_left _ own))
      (Bool.eq_true_of_not_eq_false reduced)
    cases ((grouped stage mem).kinds.1 block own entered).symm.trans reduce
  have own : ∀ stage ∈ stages, ∀ block ∈ stage.reduces, Stage.reducedIn stages block.id :=
    fun stage mem block own => Stage.reducedIn_iff.mpr ⟨stage, mem, block, own, rfl⟩
  refine ⟨⟨held.arranged.rekind fun block mem entered => ?_, held.conveys, held.framed⟩,
    fun stage mem => ⟨maps stage mem, own stage mem⟩⟩
  cases kinds : kind block.id with
  | false =>
    by_contra reduced
    cases kinds.symm.trans (reduces block mem (Bool.eq_true_of_not_eq_false reduced)).2
  | true =>
    rcases mem_append.mp mem with outer | within
    · simp only [mem_cons, not_mem_nil, or_false] at outer
      rcases outer with rfl | rfl
      · cases ends.1.symm.trans kinds
      · cases ends.2.symm.trans kinds
    · obtain ⟨stage, mem', has⟩ := mem_flatMap.mp within
      rcases mem_append.mp has with map | reduce
      · cases ((grouped stage mem').kinds.1 block map entered).symm.trans kinds
      · exact own stage mem' block reduce

/-- Stages that got smaller have the same sides. -/
theorem Stage.Shrinks.sided {pre post : Stage} (shrinks : pre.Shrinks post)
    (sided : pre.Sided kind) : post.Sided kind := by
  refine ⟨fun block mem => ?_, fun block mem => sided.2 block (shrinks.reduces ▸ mem)⟩
  obtain ⟨block', mem', eq⟩ := mem_map.mp
    (shrinks.maps.subset (mem_map_of_mem (f := fun block => block.id) mem))
  exact eq ▸ sided.1 block' mem'

/-- Blocks that are grouped feed the reduce block of their stage. -/
theorem Stage.Grouped.isLocal (grouped : stage.Grouped W kind) : stage.Local W := by
  cases grouped with
  | plain => exact ⟨by simp, fun has => nomatch has⟩
  | @reduce block maps _ _ feeders =>
    refine ⟨fun reduce own id leads => ?_, fun _ map own => ?_⟩
    · obtain rfl := mem_singleton.mp own
      exact (feeders id).mpr leads
    · exact ⟨block, mem_singleton_self block, (feeders map.id).mp ⟨map, own, rfl⟩⟩

/-- Stages can be compacted. -/
theorem Taut.compactAll_eq_ok (normal : source.Normal)
    (taut : Taut source origins kind place first last (stages.flatMap Stage.blocks) site)
    (kept : ∀ stage ∈ stages, stage.Local site.wiring) :
    ∃ stages' site', Stage.compactAll stages site = .ok (stages', site') ∧
      Taut source origins kind place first last (stages'.flatMap Stage.blocks) site' ∧
      (∀ stage ∈ stages', stage.Local site'.wiring) ∧
      Stage.Thinned source origins kind place (Stage.Loose stages) [first, last] (stages, site)
        (stages', site') := by
  obtain ⟨stages', site', run, taut', thinned⟩ := taut.compactAll normal
  exact ⟨stages', site', run, taut', (taut.toHeld.thinned normal taut.awake kept thinned).2,
    thinned⟩

/-- All nodes are awake and all blocks tight once blocks have been compacted. -/
theorem Held.taut {former : List Block} {pre : Site} (normal : source.Normal)
    (held : Held source origins kind place first last blocks site)
    (members : ∀ id node, site.graph.nodes[id]? = some node → source.Member (origins.node id))
    (run : Planner.compactBlocks former pre = .ok (events, blocks, site)) :
    Taut source origins kind place first last blocks site := by
  have arranged := held.arranged
  have tight : ∀ block ∈ blocks, block.Tight site := by
    intro block mem
    obtain ⟨early, late, rfl⟩ := mem_iff_append.mp mem
    have front : Arranged source origins kind place site
        (block :: ([first, last] ++ early ++ late)) := by
      refine arranged.perm ?_
      rw [← append_assoc]
      exact perm_middle
    exact Placed.tight_of_still front (still_of_compactBlocks run mem)
  refine ⟨held, ⟨fun out input joined => ?_, members, fun id node got clear => .inr ?_⟩, tight⟩
  · obtain ⟨exit, entry, block, block', left, entered, -⟩ := joined
    obtain ⟨owner, owned, -⟩ := arranged.exitPlaced exit block out left
    obtain ⟨owner', owned', -⟩ := arranged.entryPlaced entry block' input entered
    exact ⟨⟨owner, owned⟩, owner', owned'⟩
  · obtain ⟨block, mem, placed⟩ := arranged.cover id node got
    have bounded := held.conveys.faithful.isBoundary got
    rw [Graph.isBoundary, Graph.isBoundary, got, Option.any_some, clear] at bounded
    have inner : block ∈ blocks := by
      refine (mem_append.mp mem).resolve_left fun outer => ?_
      simp only [mem_cons, not_mem_nil, or_false] at outer
      rcases outer with rfl | rfl
      · have root := (held.framed.inputs id node got).mp placed
        have stage := Graph.isBoundary_iff.mpr (.inl (normal.isStageBoundary_input root))
        cases bounded.symm.trans stage
      · have root := (held.framed.outputs id node got).mp placed
        cases bounded.symm.trans (normal.isBoundary_output root)
    exact (tight block inner).lively arranged mem
      (((arranged.fits block mem).nodes id).mpr ⟨placed, node, got⟩) got clear

end Stages

/-- The blocks of a normal graph have been compacted and grouped into stages. -/
structure Gathered (graph : Graph) (members : NodeSet) (wiring : Wiring)
    (input output : Chart) (reduces maps : List Chart) (origins : Origins)
    (place : Places) (first last : Block) (extracted : Site) (groups : List Stage)
    (site : Site) : Prop where
  parts : graph.Partitioned members wiring input output reduces maps
  inputId : first.id = input.1.id
  outputId : last.id = output.1.id
  moves : Moves origins place (fun _ => False) (fun _ => True) extracted site
  taut : Taut graph origins (reducing reduces) place first last (groups.flatMap Stage.blocks) site
  seated : Seated (input :: output :: (reduces ++ maps)) origins place site.graph
  routed : Routed graph (input :: output :: (reduces ++ maps)) origins place (fun _ => False)
    (fun _ _ => True) site
  grouped : ∀ stage ∈ groups, stage.Grouped site.wiring (reducing reduces)

/-- The blocks of a normal graph can be compacted and grouped. -/
theorem groups_eq_ok (normal : G.Normal) :
    ∃ members W input out reduces maps origins place first last extracted groups site
      events blocks events' blocks',
      Planner.blocks G = .ok (events, first, last, blocks, extracted) ∧
      Planner.compactBlocks blocks extracted = .ok (events', blocks', site) ∧
      Block.group blocks' site = .ok groups ∧
      Gathered G members W input out reduces maps origins place first last extracted
        groups site := by
  obtain ⟨members, W, input, out, reduces, maps, events, first, last, blocks, extracted,
    place, origins, known, surveyed, run, blocked⟩ := blocks_eq_ok normal
  have parts : G.Partitioned members W input out reduces maps :=
    ⟨normal, known, surveyed, blocked.ids ▸ blocked.roster.nodup⟩
  have inputId : first.id = input.1.id := (cons.inj blocked.ids).1
  have outputId : last.id = out.1.id := (cons.inj (cons.inj blocked.ids).2).1
  have held : Held G origins (reducing reduces) place first last blocks extracted :=
    ⟨blocked.arranged normal known surveyed, blocked.conveys normal known surveyed, by
      rw [inputId, outputId]
      exact parts.framed blocked.extracted⟩
  obtain ⟨events', blocks', site, run', arranged, moves⟩ := compactBlocks_eq_ok held.arranged
  have wf := held.arranged.graph
  have taut := (held.moves normal arranged moves).taut normal (fun id node got => by
    obtain ⟨chart, mem, -, inside⟩ := blocked.extracted.placed id node (moves.stored wf got)
    exact ((surveyed.chartered normal known).outlined chart mem).member normal inside) run'
  have seated := moves.seated wf blocked.extracted.placed
  have routed := moves.routed normal wf
    (blocked.extracted.routed normal (surveyed.chartered normal known))
  obtain ⟨groups, run'', permuted, grouped⟩ := routed.group_eq_ok parts (fun _ reduce => reduce)
    seated ⟨inputId, outputId⟩ arranged
  exact ⟨members, W, input, out, reduces, maps, origins, place, first, last, extracted,
    groups, site, events, blocks, events', blocks', run, run', run'',
    { parts, inputId, outputId, seated, routed, grouped
      moves := moves
      taut := taut.perm permuted.symm }⟩

/-- The blocks of a normal graph are grouped into stages that cannot be compacted further. -/
theorem stages_eq_ok (normal : G.Normal) : ∃ events input out stages site origins kind place,
    Planner.stages G = .ok (events, input, out, stages, site) ∧
    Taut G origins kind place input out (stages.flatMap Stage.blocks) site ∧
    (∀ stage ∈ stages, stage.Local site.wiring) ∧ (∀ stage ∈ stages, stage.Sided kind) ∧
    ∀ stage ∈ stages, stage.compact site = .ok (stage, site) := by
  obtain ⟨members, W, input, out, reduces, maps, origins, place, first, last, extracted,
    groups, site, events, blocks, events', blocks', run, run', run'', gathered⟩ :=
    groups_eq_ok normal
  have ends : reducing reduces first.id = false ∧ reducing reduces last.id = false := by
    rw [gathered.inputId, gathered.outputId]
    exact kind_ends gathered.parts fun _ reduce => reduce
  obtain ⟨held, sided⟩ := gathered.taut.toHeld.sided ends gathered.grouped
  have taut : Taut G origins _ place first last _ site :=
    ⟨held, gathered.taut.awake, gathered.taut.tight⟩
  obtain ⟨stages, site', compacts, taut', kept, thinned⟩ := taut.compactAll_eq_ok normal
    fun stage mem => (gathered.grouped stage mem).isLocal
  refine ⟨events ++ events' ++ [.stageGroupsBuilt groups.length], first, last, stages, site',
    origins, _, place, ?_, taut', kept, fun stage mem => ?_,
    fun _ => Stage.compact_eq_self compacts⟩
  · exact (bind_of_ok run).trans ((bind_of_ok run').trans ((bind_of_ok run'').trans
      (bind_of_ok compacts)))
  · obtain ⟨whole, mem', shrinks⟩ := thinned.stages stage mem
    exact shrinks.sided (sided whole mem')

/-! ## Plans of normal graphs -/

/-- The blocks of the plan are arranged and convey what the graph shows. -/
def Plan.Holds (plan : Plan) (graph : Graph) (origins : Origins) : Prop :=
  ∃ kind place, Held graph origins kind place plan.input plan.output
    (plan.stages.flatMap Stage.blocks) plan.site

theorem assemble_eq_ok (normal : G.Normal) :
    ∃ events plan, Planner.assemble G false = .ok (events, plan) := by
  obtain ⟨events, input, out, stages, site, origins, kind, place, run, taut, -⟩ :=
    stages_eq_ok normal
  obtain ⟨ordered, run', -⟩ := Stage.ordered_eq_ok taut.arranged.toRoster
  exact ⟨_, _, (bind_of_ok run).trans (bind_of_ok run')⟩

/-- The number of a stage does not matter to its compaction. -/
theorem Stage.compact_congr {other : Stage} (maps : stage.maps = other.maps)
    (reduces : stage.reduces = other.reduces) (eq : other.compact site = .ok (other, site)) :
    stage.compact site = .ok (stage, site) := by
  rw [Stage.compact, hasReduce] at eq ⊢
  rw [reduces]
  split
  · rfl
  · next plain =>
    rw [if_neg plain] at eq
    obtain ⟨⟨maps', site'⟩, run, alike⟩ := of_bind eq
    rw [maps, bind_of_ok run]
    have alike : ({ other with maps := maps' }, site') = (other, site) := Except.ok.inj alike
    have kept : maps' = other.maps := congrArg (fun pair : Stage × Site => pair.1.maps) alike
    have here : site' = site := congrArg Prod.snd alike
    rw [kept, here, ← maps, ← reduces]
    rfl

/-- The blocks of a plan of a normal graph are taut, and its stages keep what they
shuffle to themselves and cannot be compacted further. -/
theorem taut_of_assemble (normal : G.Normal)
    (run : Planner.assemble G compress = .ok (events, plan)) :
    ∃ origins kind place, Taut G origins kind place plan.input plan.output
        (plan.stages.flatMap Stage.blocks) plan.site ∧
      (∀ stage ∈ plan.stages, stage.Local plan.wiring) ∧
      ∀ stage ∈ plan.stages, stage.compact plan.site = .ok (stage, plan.site) := by
  obtain ⟨events, input, out, stages, site, origins, kind, place, run', taut, kept, sided, still⟩ :=
    stages_eq_ok normal
  rw [Planner.assemble, bind_of_ok run'] at run
  obtain ⟨⟨merged, stages', site'⟩, run'', run⟩ := of_bind run
  obtain ⟨kind', place', taut', kept', still'⟩ : ∃ kind' place', Taut G origins kind' place' input
      out (stages'.flatMap Stage.blocks) site' ∧ (∀ stage ∈ stages', stage.Local site'.wiring) ∧
      ∀ stage ∈ stages', stage.compact site' = .ok (stage, site') := by
    cases compress with
    | false =>
      cases run''
      exact ⟨kind, place, taut, kept, still⟩
    | true =>
      obtain ⟨⟨merged', site''⟩, merges, rest⟩ := of_bind run''
      obtain ⟨deps, looked, rest'⟩ := of_bind merges
      obtain ⟨distances, got, -⟩ := of_bind rest'
      obtain ⟨_, _, kind', place', merges', taut', kept'⟩ :=
        taut.mergeAll normal sided kept looked got
      cases merges.symm.trans merges'
      obtain ⟨_, _, compacts, taut'', kept'', -⟩ := taut'.compactAll_eq_ok normal kept'
      obtain ⟨_, compacts', eq⟩ := of_bind rest
      cases compacts'.symm.trans compacts
      cases eq
      exact ⟨kind', place', taut'', kept'', fun _ => Stage.compact_eq_self compacts⟩
  obtain ⟨ordered, orders, spec, -⟩ := Stage.ordered_eq_ok taut'.arranged.toRoster
  obtain ⟨_, orders', eq⟩ := of_bind run
  cases orders'.symm.trans orders
  cases eq
  refine ⟨origins, kind', place', taut'.perm spec.blocks.symm, fun stage mem => ?_,
    fun stage mem => ?_⟩
  · obtain ⟨other, mem', maps, reduces⟩ := spec.mem stage mem
    exact (kept' other mem').congr maps.symm reduces.symm
  · obtain ⟨other, mem', maps, reduces⟩ := spec.mem stage mem
    exact Stage.compact_congr maps.symm reduces.symm (still' other mem')

/-- What is planned for a normal graph conveys what it shows, and its stages keep
what they shuffle to themselves. -/
theorem holds_of_assemble (normal : G.Normal)
    (run : Planner.assemble G compress = .ok (events, plan)) :
    ∃ origins, plan.Holds G origins ∧ ∀ stage ∈ plan.stages, stage.Local plan.wiring := by
  obtain ⟨origins, kind, place, taut, kept, -⟩ := taut_of_assemble normal run
  exact ⟨origins, ⟨kind, place, taut.toHeld⟩, kept⟩

/-! ## Plans of graphs that are built -/

namespace Planner

variable {planner : Planner} {working : Graph}

/-- The graph that is planned: what is left after checking and normalization. -/
def Works (planner : Planner) (source working : Graph) : Prop :=
  ∃ closed summary, source.validate = .ok ([], closed) ∧
    closed.normalize planner.options.flowParts = .ok (summary, working)

theorem check_eq_ok_iff : (∃ events, check source = .ok ⟨events, .ok closed⟩) ↔
    source.validate = .ok ([], closed) := by
  rw [check]
  constructor
  · rintro ⟨events, run⟩
    obtain ⟨⟨problems, grown⟩, checked, eq⟩ := of_bind run
    cases problems with
    | nil =>
      cases eq
      exact checked
    | cons problem rest => cases eq
  · intro checked
    exact ⟨_, bind_of_ok checked⟩

/-- A computation that goes on returns if both of its parts do. -/
theorem andThen_eq_ok_iff {α β : Type} {outcome : Except Report α} {result : β}
    {pre : List Event} {next : α → Except Fault (Outcome β)} :
    (∃ events, Outcome.andThen ⟨pre, outcome⟩ next = .ok ⟨events, .ok result⟩) ↔
      ∃ value events, outcome = .ok value ∧ next value = .ok ⟨events, .ok result⟩ := by
  rw [Outcome.andThen]
  constructor
  · rintro ⟨events, run⟩
    cases outcome with
    | error report => cases run
    | ok value =>
      obtain ⟨⟨events', result'⟩, post, ⟨⟩⟩ := of_bind run
      exact ⟨value, events', rfl, post⟩
  · rintro ⟨value, events, rfl, post⟩
    exact ⟨_, bind_of_ok post⟩

theorem planChecked_eq_ok_iff : (∃ events, planner.planChecked closed = .ok ⟨events, .ok plan⟩) ↔
    ∃ summary working events, closed.normalize planner.options.flowParts = .ok
    (summary, working) ∧
      assemble working planner.options.compression.enabled = .ok (events, plan) := by
  rw [planChecked]
  constructor
  · rintro ⟨events, run⟩
    obtain ⟨⟨summary, working⟩, normalized, run'⟩ := of_bind run
    obtain ⟨⟨events', plan'⟩, assembled, eq⟩ := of_bind run'
    cases eq
    exact ⟨summary, working, events', normalized, assembled⟩
  · rintro ⟨summary, working, events, normalized, assembled⟩
    exact ⟨_, (bind_of_ok normalized).trans (bind_of_ok assembled)⟩

theorem transform_of_bare (bare : planner.passes = []) (G : Graph) :
    planner.transform G = .ok ⟨[], .ok G⟩ := by
  simp [transform, bare, Pass.sorted, applyPasses, Outcome.andThen, bind, Except.bind]
  rfl

/-- A planner without passes plans what it works on. -/
theorem plan_eq_ok_iff (bare : planner.passes = []) :
    (∃ events, planner.plan source = .ok ⟨events, .ok plan⟩) ↔
      ∃ working events, planner.Works source working ∧
        assemble working planner.options.compression.enabled = .ok (events, plan) := by
  rw [Planner.plan]
  constructor
  · rintro ⟨events, run⟩
    obtain ⟨⟨checks, checked⟩, run', rest⟩ := of_bind run
    obtain ⟨closed, events', rfl, rest'⟩ := andThen_eq_ok_iff.mp ⟨_, rest⟩
    rw [bind_of_ok (transform_of_bare bare closed)] at rest'
    obtain ⟨_, _, eq, rest''⟩ := andThen_eq_ok_iff.mp ⟨_, rest'⟩
    cases eq
    obtain ⟨summary, working, events'', normalized, assembled⟩ :=
      planChecked_eq_ok_iff.mp ⟨_, rest''⟩
    exact ⟨working, events'', ⟨closed, summary, check_eq_ok_iff.mp ⟨_, run'⟩, normalized⟩,
      assembled⟩
  · rintro ⟨working, events, ⟨closed, summary, checked, normalized⟩, assembled⟩
    obtain ⟨checks, run⟩ := check_eq_ok_iff.mpr checked
    obtain ⟨events', planned⟩ :=
      planChecked_eq_ok_iff.mpr ⟨summary, working, events, normalized, assembled⟩
    rw [bind_of_ok run]
    obtain ⟨events'', transformed⟩ := andThen_eq_ok_iff.mpr ⟨closed, events', rfl, planned⟩
    exact andThen_eq_ok_iff.mpr
      ⟨closed, events'', rfl, (bind_of_ok (transform_of_bare bare closed)).trans transformed⟩

theorem Works.normal (works : planner.Works source working) (built : source.Built)
    (isolated : source.Isolated) : working.Normal ∧ source.Extends working := by
  obtain ⟨closed, summary, checked, normalized⟩ := works
  obtain ⟨step, _, _, run, conserves, normal⟩ := built.exists_normalize isolated checked _
  cases normalized.symm.trans run
  exact ⟨normal, step.trans conserves.extends'⟩

/-- A plan conveys what the graph that was planned shows. -/
theorem holds_of_plan (built : source.Built) (isolated : source.Isolated)
    (bare : planner.passes = []) (returned : planner.plan source = .ok ⟨events, .ok plan⟩) :
    ∃ working origins, planner.Works source working ∧ working.Normal ∧ source.Extends working ∧
      plan.Holds working origins := by
  obtain ⟨working, events', works, assembled⟩ := (plan_eq_ok_iff bare).mp ⟨_, returned⟩
  obtain ⟨normal, step⟩ := works.normal built isolated
  obtain ⟨origins, holds, -⟩ := holds_of_assemble normal assembled
  exact ⟨working, origins, works, normal, step, holds⟩

end Planner

end Staging
