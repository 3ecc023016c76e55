import Staging.Proofs.Detaching
import Staging.Proofs.Linking

/-! # The blocks of a normal graph

A normal graph is cut into blocks that lie in a site of copies. Copies in one
block are connected as what they copy, and links join the block ports that the
search for sources found.
-/

namespace Staging

open Std Relation List HandleSet

variable {G graph : Graph} {outline : Outline} {id : NodeId} {charts : List Chart}
  {chart : Chart} {entry : BlockInputId} {exit : BlockOutputId} {block : BlockId}

namespace Graph

theorem Surveyed.outlined {members : NodeSet} {W : Wiring} {input out : Chart}
    {reduces maps : List Chart} (normal : G.Normal) (known : ∀ id, id ∈ members ↔ G.Member id)
    (surveyed : G.Surveyed members W input out reduces maps) :
    ∀ chart ∈ input :: (reduces ++ maps) ++ [out], G.Outlined chart.2 := by
  intro chart mem
  simp only [cons_append, append_assoc, mem_cons, mem_append, not_mem_nil, or_false] at mem
  rcases mem with rfl | reduce | map | rfl
  · exact surveyed.input ▸ .input
  · have outlined := mem_map_of_mem (f := Prod.snd) reduce
    rw [surveyed.reduces] at outlined
    obtain ⟨span, made, eq⟩ := mem_map.mp outlined
    obtain ⟨shuffle, has, rfl⟩ := mem_map.mp made
    obtain ⟨bounded, marked⟩ := (mem_filter_iff _).mp (ExtTreeSet.mem_toList.mp has)
    exact eq ▸ .reduce ((mem_boundariesOf known).mp bounded).1 marked
  · have outlined := mem_map_of_mem (f := Prod.snd) map
    rw [surveyed.maps] at outlined
    obtain ⟨span, made, eq⟩ := mem_map.mp outlined
    obtain ⟨bridging, aimed⟩ := bridging_mapSpans normal known span made
    exact eq ▸ .map bridging aimed
  · exact surveyed.output ▸ .output

section Outlined

variable (normal : G.Normal) (outlined : G.Outlined outline)

include normal

include outlined

theorem Outlined.member (inside : id ∈ outline.nodes) : G.Member id := by
  cases outlined with
  | @reduce shuffle mem marked =>
    rcases Span.mem_outline_nodes.mp inside with passed | ⟨-, started⟩
    · obtain ⟨-, start, eq, passes⟩ := (mem_passings_forward normal.wf).mp passed
      rw [mem_of, mem_singleton] at eq
      exact mem.passes (eq ▸ passes)
    · have eq : id = shuffle := by simpa [walkFrom] using started
      exact eq ▸ mem
  | map bridging =>
    rcases Span.mem_outline_nodes.mp inside with passed | ⟨wrong, -⟩
    · exact (bridging.passings id passed).1
    · cases wrong
  | input => exact ⟨id, mem_append_left _ (mem_of.mp inside), .refl⟩
  | output => exact ⟨id, mem_append_right _ (mem_of.mp inside), .refl⟩

/-- Data enters a region at a shuffle, at an output of the whole graph, or at a
node that is no boundary, behind a stage boundary. -/
theorem Outlined.entered {port : InputId} (mem : port ∈ outline.inputs) :
    ∃ owner ∈ outline.nodes, G.inputOwner? port = some owner ∧
      (G.isShuffleBoundary owner ∨ owner ∈ G.root.outputs ∨
        G.isBoundary owner = false ∧ ∃ out origin,
          G.outputOwner? out = some origin ∧ G.Member origin ∧
          G.isStageBoundary origin ∧ G.Feeds out port) := by
  have wf := normal.wf
  cases outlined with
  | @reduce shuffle has marked =>
    obtain ⟨start, started, owned⟩ := (Span.mem_outline_inputs_within wf).mp mem
    have eq : start = shuffle := by simpa [walkFrom] using started
    exact ⟨start, Span.mem_outline_nodes.mpr (.inr ⟨rfl, started⟩), owned, .inl (eq ▸ marked)⟩
  | map bridging =>
    obtain ⟨⟨owner, passed, owned⟩, start, started, out, given, feeds⟩ :=
      (Span.mem_outline_inputs_behind wf).mp mem
    obtain ⟨has, stage⟩ := bridging.startings start started
    exact ⟨owner, Span.mem_outline_nodes.mpr (.inl passed), owned, .inr (.inr
      ⟨(bridging.passings owner passed).2, out, start, given, has, stage, feeds⟩)⟩
  | input => exact (ExtTreeSet.not_mem_empty mem).elim
  | output =>
    obtain ⟨id, root, owned⟩ := (mem_incoming wf).mp mem
    exact ⟨id, mem_of.mpr root, owned, .inr (.inl root)⟩

/-- Data leaves a region from an input of the whole graph or for a boundary. -/
theorem Outlined.left {out : OutputId} {input : InputId} (leaves : outline.Leaves out input) :
    G.Feeds out input ∧ ((∃ id ∈ G.root.inputs, G.outputOwner? out = some id) ∨
      ∃ boundary, G.inputOwner? input = some boundary ∧ G.Member boundary ∧
        G.isBoundary boundary) := by
  have wf := normal.wf
  cases outlined with
  | @reduce shuffle mem marked =>
    obtain ⟨feeds, -, arrival, arrived, owned⟩ := (Span.leaves_outline wf).mp leaves
    obtain ⟨bounded, start, eq, passes⟩ := (mem_arrivals_forward wf).mp arrived
    rw [mem_of, mem_singleton] at eq
    exact ⟨feeds, .inr ⟨arrival, owned, mem.passes (eq ▸ passes), bounded⟩⟩
  | map bridging =>
    obtain ⟨feeds, -, arrival, arrived, owned⟩ := (Span.leaves_outline wf).mp leaves
    exact ⟨feeds, .inr ⟨arrival, owned, bridging.arrivals arrival arrived⟩⟩
  | input =>
    obtain ⟨feeds, own⟩ := (leaves_inputOutline wf).mp leaves
    exact ⟨feeds, .inl own⟩
  | output =>
    obtain ⟨targets, got, -⟩ := leaves
    simp [outputOutline] at got

theorem Outlined.inside : outline.Inside G where
  nodes id has := by
    have inside := outlined.member normal has
    obtain ⟨node, got⟩ := normal.exists_node inside
    exact ⟨node, got, normal.flat id node inside got⟩
  inputs port mem := by
    obtain ⟨owner, inside, owned, -⟩ := outlined.entered normal mem
    exact ⟨owner, inside, owned⟩
  outputs port targets got := by
    cases outlined with
    | reduce => exact Span.exists_owner_of_outline_outputs got
    | map => exact Span.exists_owner_of_outline_outputs got
    | input =>
      obtain ⟨-, id, root, owned⟩ := (getElem?_outgoing normal.wf).mp got
      exact ⟨id, mem_of.mpr root, owned⟩
    | output => simp [outputOutline] at got

end Outlined

end Graph

/-- Blocks of copies that were cut out along charts. -/
structure Extracted (source : Graph) (charts : List Chart) (site : Site)
    (place : Places) (origins : Origins) : Prop where
  graph : site.graph.Consistent
  faithful : Faithful site.graph source origins
  fresh : ∀ (id : NodeId) (node : Node), site.graph.nodes[id]? = some node → source.next ≤ id.raw
  placed : ∀ (id : NodeId) (node : Node), site.graph.nodes[id]? = some node →
    ∃ chart ∈ charts, place id = chart.1.id ∧ origins.node id ∈ chart.2.nodes
  copies : ∀ chart ∈ charts, ∀ id ∈ chart.2.nodes, ∃ (copy : NodeId) (node : Node),
    site.graph.nodes[copy]? = some node ∧ place copy = chart.1.id ∧ origins.node copy = id
  unique : ∀ (first second : NodeId) (one two : Node), site.graph.nodes[first]? = some one →
    site.graph.nodes[second]? = some two → place first = place second →
    origins.node first = origins.node second → first = second
  feeds : ∀ output input first second, site.graph.outputOwner? output = some first →
    site.graph.inputOwner? input = some second → (site.graph.Feeds output input ↔
      place first = place second ∧ source.Feeds (origins.output output) (origins.input input))
  entryPlaced : ∀ entry block port, site.wiring.entryOf entry = some (block, port) →
    ∃ owner, site.graph.inputOwner? port = some owner ∧ place owner = block
  entered : ∀ entry block port, site.wiring.entryOf entry = some (block, port) →
    ∃ chart ∈ charts, chart.1.id = block ∧ origins.input port ∈ chart.2.inputs
  exitPlaced : ∀ exit block port, site.wiring.exitOf exit = some (block, port) →
    ∃ owner, site.graph.outputOwner? port = some owner ∧ place owner = block
  joins : ∀ chart ∈ charts, ∀ chart' ∈ charts, ∀ output input first second,
    site.graph.outputOwner? output = some first → place first = chart.1.id →
    site.graph.inputOwner? input = some second → place second = chart'.1.id →
    (site.wiring.Joins output input ↔ origins.input input ∈ chart'.2.inputs ∧
      ∃ got, chart.2.Leaves (origins.output output) got ∧ source.Feeds (origins.output output) got ∧
        ReflTransGen (LooksThrough source charts) (origins.input input) got)

/-- The graph of a site without the nodes of its source. -/
private structure Remainder (source : Graph) (site : Site) (graph : Graph) : Prop where
  wf : graph.Consistent
  nodes : ∀ (id : NodeId) node, graph.nodes[id]? = some node ↔
    site.graph.nodes[id]? = some node ∧ source.next ≤ id.raw

/-- What a block port wraps is a copy of what it wrapped. -/
private theorem Recopied.linked {role role' : Role} {place : Places}
    {origin : Handle role → Handle role} {owner? : Handle role → Option NodeId}
    {pre post : Handle role' → Option (BlockId × Handle role)} {handle : Handle role'}
    {port : Handle role} (recopied : Recopied charts place origin owner? pre post)
    (known : (post handle).map Prod.fst = (pre handle).map Prod.fst)
    (owned : ∀ handle wraps, pre handle = some wraps → ∃ chart ∈ charts, chart.1.id = wraps.1)
    (wraps : post handle = some (block, port)) :
    ∃ chart ∈ charts, chart.1.id = block ∧ pre handle = some (block, origin port) ∧
      ∃ owner, owner? port = some owner ∧ place owner = block := by
  rw [wraps] at known
  obtain ⟨⟨block', port'⟩, wraps', rfl⟩ := Option.map_eq_some_iff.mp known.symm
  obtain ⟨chart, mem, rfl⟩ := owned handle _ wraps'
  obtain ⟨copy, owner, wraps'', origin, owned, placed⟩ :=
    recopied.copied chart mem handle port' wraps'
  rw [wraps] at wraps''
  cases wraps''
  exact ⟨chart, mem, rfl, by rw [wraps', origin], owner, owned, placed⟩

section Extract

variable {source : Graph} {linked : Wiring}
  {blocks : List Block} {site : Site} {place : Places} {origins : Origins}
  (detached : Detached source linked charts blocks site place origins) (wf : source.Consistent)

include detached wf

/-- What is left of the graph without the originals. -/
private theorem Detached.owned : ∃ G, Planner.withoutNodes site.graph source.nodes.keys = .ok G ∧
    Remainder source site G ∧
    ∀ out input first second, G.outputOwner? out = some first →
      G.inputOwner? input = some second → (G.Feeds out input ↔ place first = place second ∧
          source.Feeds (origins.output out) (origins.input input)) := by
  have pre := detached.graph
  have mem : ∀ id : NodeId, id ∈ source.nodes.keys ↔ ∃ node, source.nodes[id]? = some node := by
    intro id
    rw [ExtTreeMap.mem_keys, ← ExtTreeMap.isSome_getElem?_iff_mem, Option.isSome_iff_exists]
  obtain ⟨G, run, wf', nodes, feeds⟩ := withoutNodes_eq_ok pre.wf
    (ExtTreeMap.nodup_keys (t := source.nodes)) fun id has => by
      obtain ⟨node, got⟩ := (mem id).mp has
      exact ⟨node, pre.old id node got⟩
  have stays : ∀ (id : NodeId) node, G.nodes[id]? = some node ↔
      site.graph.nodes[id]? = some node ∧ source.next ≤ id.raw := by
    intro id node
    rw [nodes]
    by_cases old : id ∈ source.nodes.keys
    · obtain ⟨record, got⟩ := (mem id).mp old
      have below := wf.early got
      simp only [old, if_true, reduceCtorEq, false_iff]
      omega
    · rw [if_neg old]
      refine ⟨fun got => ⟨got, ?_⟩, And.left⟩
      exact ((pre.new id node got).resolve_left fun stored =>
        old ((mem id).mpr ⟨node, stored⟩)).1
  refine ⟨G, run, ⟨wf', stays⟩, fun out input first second owned owned' => ?_⟩
  obtain ⟨one, got, own⟩ := wf'.node_of_output owned
  obtain ⟨two, got', own'⟩ := wf'.node_of_input owned'
  obtain ⟨old, above⟩ := (stays first one).mp got
  obtain ⟨old', above'⟩ := (stays second two).mp got'
  have oldOwned := pre.wf.output_of_mem old own
  have oldOwned' := pre.wf.input_of_mem old' own'
  have unlisted : ∀ id ∈ source.nodes.keys, id.raw < source.next := by
    intro id has
    obtain ⟨node, stored⟩ := (mem id).mp has
    exact wf.early stored
  rw [feeds, pre.feeds]
  constructor
  · rintro ⟨fed | ⟨first', second', given, taken, -, -, eq, fed⟩, -, -⟩
    · obtain ⟨owner, owned⟩ := Graph.exists_outputOwner_of_feeds fed
      obtain ⟨node, stored, own⟩ := wf.node_of_output owned
      have clash := pre.wf.output_of_mem (pre.old owner node stored) own
      rw [oldOwned] at clash
      cases clash
      have below := wf.early stored
      omega
    · rw [oldOwned] at given
      rw [oldOwned'] at taken
      cases given
      cases taken
      exact ⟨eq, fed⟩
  · rintro ⟨eq, fed⟩
    refine ⟨.inr ⟨first, second, oldOwned, oldOwned', above, above', eq, fed⟩, ?_, ?_⟩
    · intro id has given
      rw [oldOwned] at given
      cases given
      have below := unlisted first has
      omega
    · intro id has given
      rw [oldOwned'] at given
      cases given
      have below := unlisted second has
      omega

variable (remains : Remainder source site G)

include remains

private theorem Detached.copied {node : Node} (got : G.nodes[id]? = some node) :
    (∃ chart ∈ charts, place id = chart.1.id ∧ origins.node id ∈ chart.2.nodes) ∧
      source.nodes[origins.node id]? = some (origins.original node) := by
  obtain ⟨got', above⟩ := (remains.nodes id node).mp got
  refine ((detached.graph.new id node got').resolve_left fun old => ?_).2
  have below := wf.early old
  omega

private theorem Detached.faithful : Faithful G source origins := fun _ _ got =>
  (detached.copied wf remains got).2

omit wf

private theorem Detached.unique (first second : NodeId) (one two : Node)
    (got : G.nodes[first]? = some one) (got' : G.nodes[second]? = some two) :
    place first = place second → origins.node first = origins.node second → first = second := by
  obtain ⟨old, above⟩ := (remains.nodes first one).mp got
  obtain ⟨old', above'⟩ := (remains.nodes second two).mp got'
  exact detached.graph.unique first second one two old old' above above'

variable (plotted : Plotted linked charts)

include plotted

omit remains in
private theorem Detached.beyond {owner : NodeId} (mem : chart ∈ charts)
    (placed : place owner = chart.1.id) : source.next ≤ owner.raw := by
  by_contra early
  rw [detached.outside owner (Nat.not_le.mp early)] at placed
  have below := (plotted.follows chart mem).idBelow
  rw [← placed] at below
  exact Nat.lt_irrefl _ below

/-- The copies are left when the originals are gone. -/
private theorem Detached.recopied {role role' : Role} {ports : Node → List (Handle role)}
    {owner? owner?' : Handle role → Option NodeId} {origin : Handle role → Handle role}
    {pre post : Handle role' → Option (BlockId × Handle role)}
    (recopied : Recopied charts place origin owner? pre post)
    (side : Graph.Side site.graph.nodes site.graph.next ports owner?)
    (side' : Graph.Side G.nodes G.next ports owner?') :
    Recopied charts place origin owner?' pre post := by
  refine ⟨recopied.kept, fun chart mem handle port wraps => ?_⟩
  obtain ⟨copy, owner, wraps', origin, owned, placed⟩ := recopied.copied chart mem handle port wraps
  obtain ⟨node, got, own⟩ := (side.owned copy owner).mp owned
  have got' := (remains.nodes owner node).mpr ⟨got, detached.beyond plotted mem placed⟩
  exact ⟨copy, owner, wraps', origin, side'.of_mem got' own, placed⟩

private theorem Detached.recopied_entries : Recopied charts place origins.input G.inputOwner?
    linked.entryOf site.wiring.entryOf :=
  detached.recopied remains plotted detached.entries detached.graph.wf.inputSide
    remains.wf.inputSide

private theorem Detached.recopied_exits : Recopied charts place origins.output G.outputOwner?
    linked.exitOf site.wiring.exitOf :=
  detached.recopied remains plotted detached.exits detached.graph.wf.outputSide
    remains.wf.outputSide

variable (linkedBy : ∀ exit entry chart chart' out input, chart ∈ charts → chart' ∈ charts →
  linked.exitOf exit = some (chart.1.id, out) → linked.entryOf entry = some (chart'.1.id, input) →
  (linked.Linked exit entry ↔ ∃ got, source.Feeds out got ∧
    chart.2.Leaves out got ∧ ReflTransGen (LooksThrough source charts) input got))

include wf linkedBy

/-- Copies are joined by the links that were found between the originals. -/
private theorem Detached.joins_iff {chart' : Chart} (mem : chart ∈ charts)
    (mem' : chart' ∈ charts) {out : OutputId} {input : InputId} {first second : NodeId}
    (owned : G.outputOwner? out = some first) (placed : place first = chart.1.id)
    (owned' : G.inputOwner? input = some second) (placed' : place second = chart'.1.id) :
    site.wiring.Joins out input ↔ origins.input input ∈ chart'.2.inputs ∧
      ∃ got, chart.2.Leaves (origins.output out) got ∧ source.Feeds (origins.output out) got ∧
        ReflTransGen (LooksThrough source charts) (origins.input input) got := by
  have sameChart : ∀ first ∈ charts, ∀ second ∈ charts, first.1.id = second.1.id →
      first = second := fun first one second two =>
    inj_on_of_nodup_map plotted.nodup one two
  have entries := detached.recopied_entries remains plotted
  have exits := detached.recopied_exits remains plotted
  have faithful := detached.faithful wf remains
  have unique := detached.unique remains
  constructor
  · rintro ⟨exit, entry, block, block', wraps, wraps', link⟩
    obtain ⟨other, has, rfl, wrappedOld, owner, given, at'⟩ :=
      exits.linked (detached.wiring.exitBlock exit) plotted.exitOwned wraps
    obtain ⟨other', has', rfl, wrappedOld', owner', given', at''⟩ :=
      entries.linked (detached.wiring.entryBlock entry) plotted.entryOwned wraps'
    rw [owned] at given
    cases given
    rw [owned'] at given'
    cases given'
    obtain rfl := sameChart chart mem other has (placed.symm.trans at')
    obtain rfl := sameChart chart' mem' other' has' (placed'.symm.trans at'')
    obtain ⟨got, feeds, leaves, looked⟩ := (linkedBy exit entry chart chart' _ _ mem
      mem' wrappedOld wrappedOld').mp ((detached.wiring.linked exit entry).mp link)
    exact ⟨((plotted.follows chart' mem').enters _).mpr ⟨entry, wrappedOld'⟩, got, leaves, feeds,
      looked⟩
  · rintro ⟨entered, got, leaves, fed, looked⟩
    obtain ⟨entry, wraps'⟩ := ((plotted.follows chart' mem').enters _).mp entered
    obtain ⟨targets, stored, targeted⟩ := leaves
    obtain ⟨exit, wraps, -⟩ := ((plotted.follows chart mem).leaves _ targets).mp stored
    obtain ⟨copy, owner, wrappedNew, origin, given, at'⟩ := exits.copied chart mem exit _ wraps
    obtain ⟨copy', owner', wrappedNew', origin', given', at''⟩ :=
      entries.copied chart' mem' entry _ wraps'
    have eq : out = copy := faithful.port_eq remains.wf.outputSide wf.outputSide
      (fun _ => rfl) unique owned
      given (placed.trans at'.symm) origin.symm
    have eq' : input = copy' := faithful.port_eq remains.wf.inputSide wf.inputSide
      (fun _ => rfl) unique owned'
      given' (placed'.trans at''.symm) origin'.symm
    refine ⟨exit, entry, _, _, eq ▸ wrappedNew, eq' ▸ wrappedNew', ?_⟩
    exact (detached.wiring.linked exit entry).mpr ((linkedBy exit entry chart chart' _ _ mem mem'
      wraps wraps').mpr ⟨got, fed, ⟨targets, stored, targeted⟩, looked⟩)

omit remains in
/-- The blocks of all charts, without the originals. -/
theorem Detached.extracted : ∃ G, Planner.withoutNodes site.graph source.nodes.keys = .ok G ∧
    Extracted source charts ⟨G, site.wiring⟩ place origins ∧
    ∀ block ∈ blocks, block.Fits G place origins := by
  obtain ⟨G, run, remains, feeds⟩ := detached.owned wf
  have entries := detached.recopied_entries remains plotted
  refine ⟨G, run, ⟨remains.wf, detached.faithful wf remains,
    fun id node got => ((remains.nodes id node).mp got).2,
    fun id node got => (detached.copied wf remains got).1, ?_,
    detached.unique remains, feeds, ?_, ?_, ?_, ?_⟩, ?_⟩
  · intro chart mem id has
    obtain ⟨copy, node, got, above, placed, origin⟩ := detached.graph.copies chart mem id has
    exact ⟨copy, node, (remains.nodes copy node).mpr ⟨got, above⟩, placed, origin⟩
  · intro entry block port wraps
    obtain ⟨-, -, -, -, owned⟩ :=
      entries.linked (detached.wiring.entryBlock entry) plotted.entryOwned wraps
    exact owned
  · intro entry block port wraps
    obtain ⟨chart, mem, rfl, wraps', -⟩ :=
      entries.linked (detached.wiring.entryBlock entry) plotted.entryOwned wraps
    exact ⟨chart, mem, rfl, ((plotted.follows chart mem).enters _).mpr ⟨entry, wraps'⟩⟩
  · intro exit block port wraps
    obtain ⟨-, -, -, -, owned⟩ := (detached.recopied_exits remains plotted).linked
      (detached.wiring.exitBlock exit) plotted.exitOwned wraps
    exact owned
  · intro chart mem chart' mem' out input first second
    exact detached.joins_iff wf remains plotted linkedBy mem mem'
  · intro block mem
    have fits := detached.fits block mem
    have known := mem_map_of_mem (f := fun block : Block => (block.id, block.inputs, block.outputs))
      mem
    rw [detached.frames] at known
    obtain ⟨chart, has, eq⟩ := mem_map.mp known
    refine ⟨fun id => ?_, fits.origins⟩
    rw [fits.nodes]
    refine and_congr_right fun placed => exists_congr fun node => ?_
    rw [remains.nodes, and_iff_left (detached.beyond plotted has
      (placed.trans (Prod.mk.inj eq).1.symm))]

end Extract

/-- The search does not depend on the order of the regions. -/
theorem looksThrough_congr {charts' : List Chart} (eq : ∀ chart, chart ∈ charts ↔ chart ∈ charts') :
    LooksThrough G charts = LooksThrough G charts' := by
  funext first second
  simp only [LooksThrough, eq]

/-- A normal graph as blocks in a site, each with the chart that it was cut along. -/
structure Blocked (graph : Graph) (charts : List Chart) (blocks : List Block)
    (site : Site) (place : Places) (origins : Origins) : Prop where
  extracted : Extracted graph charts site place origins
  roster : Roster site.wiring blocks
  fits : ∀ block ∈ blocks, block.Fits site.graph place origins
  ids : blocks.map (·.id) = charts.map fun chart => chart.1.id

/-- A normal graph is cut into blocks. -/
theorem blocks_eq_ok (normal : G.Normal) :
    ∃ members W input out reduces maps events inBlock outBlock blocks site place origins,
      (∀ id, id ∈ members ↔ G.Member id) ∧
      G.Surveyed members W input out reduces maps ∧
      Planner.blocks G = .ok (events, inBlock, outBlock, blocks, site) ∧
      Blocked G (input :: out :: (reduces ++ maps)) (inBlock :: outBlock :: blocks) site
        place origins := by
  have wf := normal.wf
  obtain ⟨members, W, input, out, reduces, maps, -, known, cut, surveyed⟩ := Graph.cut_eq_ok normal
  have outlined := surveyed.outlined normal known
  let regions : Regions := ⟨input.1, out.1, reduces.map Prod.fst, maps.map Prod.fst⟩
  have all : regions.all = (input :: (reduces ++ maps) ++ [out]).map Prod.fst := by
    simp [regions, Regions.all, Regions.computing]
  obtain ⟨wired, frame, linkedBy⟩ := link_spec surveyed.charted all wf
    fun chart mem port entered => by
      obtain ⟨owner, -, owned, -⟩ := (outlined chart mem).entered normal entered
      exact ⟨owner, owned⟩
  have permuted : (input :: (reduces ++ maps) ++ [out]).Perm (input :: out :: (reduces ++ maps)) :=
    Perm.cons _ (perm_append_singleton out (reduces ++ maps))
  have plotted := (surveyed.charted.perm permuted).relink frame wired
  have follows := plotted.follows
  have inside : ∀ chart ∈ input :: out :: (reduces ++ maps), chart.2.Inside G :=
    fun chart mem => (outlined chart (permuted.mem_iff.mpr mem)).inside normal
  have nodup := plotted.nodup
  have apart : out.1.id ≠ input.1.id := fun eq => by
    simp [eq] at nodup
  obtain ⟨inBlock, site₁, place₁, origins₁, run₁, detached₁⟩ :=
    (detached_nil wf wired).snoc wf (follows input (by simp)) (inside input (by simp)) (by simp)
  obtain ⟨outBlock, site₂, place₂, origins₂, run₂, detached₂⟩ :=
    detached₁.snoc wf (follows out (by simp)) (inside out (by simp)) (by
      simpa using apart.symm)
  obtain ⟨blocks, site₃, place, origins, run₃, detached⟩ := detachEach_eq_ok detached₂ wf
      (fun chart mem => follows chart (by simp_all))
      (fun chart mem => inside chart (by simp_all)) nodup
  replace detached : Detached G (regions.link G W)
    (input :: out :: (reduces ++ maps)) (inBlock :: outBlock :: blocks) site₃ place origins :=
    detached
  obtain ⟨owned, run₄, extracted, fits⟩ := detached.extracted wf plotted
    (fun exit entry chart chart' port port' mem mem' left entered => by
      rw [linkedBy exit entry chart chart' port port' (permuted.mem_iff.mpr mem)
        (permuted.mem_iff.mpr mem') (by rw [← frame.exitOf, left])
        (by rw [← frame.entryOf, entered]),
        looksThrough_congr fun chart => permuted.mem_iff])
  refine ⟨members, W, input, out, reduces, maps,
    [.blocksExtracted regions.maps.length regions.reduces.length], inBlock, outBlock, blocks,
    ⟨owned, site₃.wiring⟩, place, origins, known, surveyed, ?_, ?_⟩
  · rw [Planner.blocks]
    refine (bind_of_ok cut).trans ((bind_of_ok run₁).trans ((bind_of_ok run₂).trans ?_))
    have computing : regions.computing = (reduces ++ maps).map Prod.fst := by
      simp [regions, Regions.computing]
    replace run₃ : Planner.detachEach regions.computing site₂ = .ok (blocks, site₃) :=
      computing ▸ run₃
    exact (bind_of_ok run₃).trans (bind_of_ok run₄)
  · have ids := congrArg (map Prod.fst) detached.frames
    rw [List.map_map, List.map_map] at ids
    exact ⟨extracted, detached.roster plotted, fits, ids⟩

end Staging
