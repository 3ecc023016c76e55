import Staging.Proofs.Extraction
import Staging.Proofs.Flow

/-! # Routes through the blocks of a graph

The blocks that a normal graph is cut into carry the data that the graph
carries, and more: where a shuffle feeds a port that a stage boundary feeds as
well, what goes into the shuffle also gets to that port directly. This is all
that is added.
-/

namespace Staging

open Std Relation List HandleSet

variable {G : Graph} {charts : List Chart} {chart : Chart} {node : Node}
  {entered left : Nat} {last next : InputId} {visits : List Visit}

namespace Graph

/-- The data of a graph. -/
def flow (graph : Graph) : Flow :=
  ⟨graph, graph.Feeds, id⟩

/-- A stage boundary feeds the port of a node that is no boundary. -/
def Opens (graph : Graph) (input : InputId) : Prop :=
  ∃ id out stage, graph.inputOwner? input = some id ∧ graph.isBoundary id = false ∧
    graph.outputOwner? out = some stage ∧ graph.isStageBoundary stage = true ∧
    graph.Feeds out input

/-- The output port feeds a shuffle that feeds the input port, and a stage
boundary feeds that port as well. -/
def Leaks (graph : Graph) (out : OutputId) (input : InputId) : Prop :=
  graph.Opens input ∧ ∃ shuffle entered left, graph.isShuffleBoundary shuffle = true ∧
    graph.inputOwner? entered = some shuffle ∧ graph.outputOwner? left = some shuffle ∧
    graph.Feeds out entered ∧ graph.Feeds left input

/-- The data of a graph in which shuffles leak. -/
def leakingFlow (graph : Graph) : Flow :=
  ⟨graph, fun out input => graph.Feeds out input ∨ graph.Leaks out input, id⟩

end Graph

namespace Site

/-- Data gets from the output port to the input port inside of a block or along
a link. -/
def Carries (site : Site) (out : OutputId) (input : InputId) : Prop :=
  site.graph.Feeds out input ∨ site.wiring.Joins out input

/-- The data of a site, with copies named after what they copy. -/
def flow (site : Site) (origins : Origins) : Flow :=
  ⟨site.graph, site.Carries, origins.node⟩

end Site

theorem Origins.isSilent_original (origins : Origins) (node : Node) :
    (origins.original node).isSilent = node.isSilent := by
  simp [Node.isSilent, Node.isIdentity, Node.isStageBoundary, Node.isPseudo, Origins.original]

/-! ## Where regions are cut out -/

/-- The regions of a normal graph hold all that the regions are cut for. -/
structure Graph.Chartered (graph : Graph) (charts : List Chart) : Prop where
  outlined : ∀ chart ∈ charts, graph.Outlined chart.2
  reduce : ∀ shuffle, graph.Member shuffle → graph.isShuffleBoundary shuffle = true →
    ∃ chart ∈ charts, chart.2 = (graph.walkFrom .forward (.of [shuffle])).outline graph true
  map : ∀ origin span, graph.Member origin → graph.Base origin span →
    graph.isStageBoundary origin = true → (∃ id, id ∈ span.passings) →
    ∃ chart ∈ charts, graph.Holds chart.2 origin span
  input : ∃ chart ∈ charts, chart.2 = graph.inputOutline
  output : ∃ chart ∈ charts, chart.2 = graph.outputOutline

theorem Graph.Surveyed.chartered {members : NodeSet} {W : Wiring}
    {input out : Chart} {reduces maps : List Chart}
    (normal : G.Normal) (known : ∀ id, id ∈ members ↔ G.Member id)
    (surveyed : G.Surveyed members W input out reduces maps) :
    G.Chartered (input :: out :: (reduces ++ maps)) where
  outlined chart mem := surveyed.outlined normal known chart
    ((Perm.cons _ (perm_append_singleton out (reduces ++ maps))).mem_iff.mpr mem)
  reduce shuffle has marked := by
    have made : (G.walkFrom .forward (.of [shuffle])).outline G true ∈
        (G.reduceSpans members).map (·.outline G true) := by
      refine mem_map_of_mem (mem_map_of_mem (ExtTreeSet.mem_toList.mpr ?_))
      exact (mem_filter_iff _).mpr ⟨(mem_boundariesOf known).mpr
        ⟨has, isBoundary_iff.mpr (.inr marked)⟩, marked⟩
    rw [← surveyed.reduces] at made
    obtain ⟨chart, mem, eq⟩ := mem_map.mp made
    exact ⟨chart, by simp [mem], eq⟩
  map origin span has base stage filled := by
    obtain ⟨outer, made, holds⟩ := exists_holds_mapSpans normal known has base stage filled
    have outlined := mem_map_of_mem (f := (·.outline G false)) made
    rw [← surveyed.maps] at outlined
    obtain ⟨chart, mem, eq⟩ := mem_map.mp outlined
    exact ⟨chart, by simp [mem], eq ▸ holds⟩
  input := ⟨input, by simp, surveyed.input⟩
  output := ⟨out, by simp, surveyed.output⟩

section Chartered

variable (normal : G.Normal) (chartered : G.Chartered charts)

include normal

theorem Graph.Normal.isBoundary_output {id : NodeId} (root : id ∈ G.root.outputs) :
    G.isBoundary id := by
  obtain ⟨node, got, kind, -⟩ := normal.outputs id root
  simp [Graph.isBoundary, got, Node.isBoundary, Node.isStageBoundary, kind]

theorem Graph.Normal.isStageBoundary_input {id : NodeId} (root : id ∈ G.root.inputs) :
    G.isStageBoundary id := by
  obtain ⟨node, got, kind, -⟩ := normal.inputs id root
  simp [Graph.isStageBoundary, got, Node.isStageBoundary, kind]

include chartered

/-- The region of a shuffle has its ports as entries and holds its only span. -/
theorem Graph.Chartered.exists_reduce {id : NodeId} (has : G.Member id)
    (marked : G.isShuffleBoundary id) :
    ∃ chart ∈ charts, id ∈ chart.2.nodes ∧
      (∀ port, G.inputOwner? port = some id → port ∈ chart.2.inputs) ∧
      (∀ span, G.Base id span → G.Holds chart.2 id span) ∧
      ∀ out arrival next, G.outputOwner? out = some id →
        G.inputOwner? next = some arrival → G.isBoundary arrival →
        G.Feeds out next → chart.2.Leaves out next := by
  have wf := normal.wf
  have unstaged : ¬ G.isStageBoundary id := fun stage => by
    rw [normal.unmixed id stage] at marked
    cases marked
  obtain ⟨chart, mem, eq⟩ := chartered.reduce id has marked
  have inside : id ∈ ((G.walkFrom .forward (.of [id])).outline G true).nodes :=
    Span.mem_outline_nodes.mpr (.inr ⟨rfl, by simp [Graph.walkFrom]⟩)
  refine ⟨chart, mem, eq ▸ inside, fun port owned => ?_, fun span base => ?_,
    fun out arrival next given taken bounded feeds => ?_⟩
  · exact eq ▸ (Span.mem_outline_inputs_within wf).mpr ⟨id, by simp [Graph.walkFrom], owned⟩
  · rw [eq]
    cases base with
    | stage stage => exact (unstaged stage).elim
    | bridge stage => exact (unstaged stage).elim
    | shuffle =>
      refine ⟨fun other passed => Span.mem_outline_nodes.mpr (.inl passed), ?_,
        fun stage => (unstaged stage).elim⟩
      intro out next other passed given feeds arrived
      obtain ⟨arrival, arrives, taken⟩ := arrived
      exact (Span.leaves_outline wf).mpr ⟨feeds,
        ⟨other, Span.mem_outline_nodes.mpr (.inl passed), given⟩, arrival, arrives, taken⟩
  · rw [eq]
    exact (Span.leaves_outline wf).mpr ⟨feeds, ⟨id, inside, given⟩, arrival,
      (Graph.mem_arrivals_forward wf).mpr
        ⟨bounded, id, by simp, .step ⟨out, next, given, taken, feeds⟩⟩, taken⟩

/-- The search stops at boundaries. -/
theorem Graph.Chartered.not_looksThrough {first second : InputId} {owner : NodeId}
    (owned : G.inputOwner? first = some owner) (has : G.Member owner)
    (bounded : G.isBoundary owner) : ¬ LooksThrough G charts first second := by
  rintro ⟨out, boundary, feeds, unwrapped, given, marked, -⟩
  have prec : G.Precedes boundary owner := ⟨out, first, given, owned, feeds⟩
  rcases isBoundary_iff.mp marked with stage | shuffle
  · have clear := normal.hopless boundary owner (has.prev prec) stage prec
    rw [bounded] at clear
    cases clear
  · obtain ⟨chart, mem, -, -, -, leaves⟩ := chartered.exists_reduce normal (has.prev prec) shuffle
    exact unwrapped chart mem (leaves out owner first given owned bounded feeds)

/-- A port through which data enters a region belongs to a member of the graph. -/
theorem Graph.Chartered.member_entered (mem : chart ∈ charts)
    {port : InputId} (entered : port ∈ chart.2.inputs) :
    ∃ owner, G.inputOwner? port = some owner ∧ G.Member owner ∧
      (G.isBoundary owner ∨ G.Opens port) := by
  have outlined := chartered.outlined chart mem
  obtain ⟨owner, inside, owned, shuffle | root | ⟨clear, out, origin, given, -, stage, feeds⟩⟩ :=
    outlined.entered normal entered
  · exact ⟨owner, owned, outlined.member normal inside, .inl (isBoundary_iff.mpr (.inr shuffle))⟩
  · exact ⟨owner, owned, outlined.member normal inside, .inl (normal.isBoundary_output root)⟩
  · exact ⟨owner, owned, outlined.member normal inside,
      .inr ⟨owner, out, origin, owned, clear, given, stage, feeds⟩⟩

/-- What the search finds for a port gets there through silent nodes or leaks. -/
theorem Graph.Chartered.reaches_of_looksThrough
    (mem : chart ∈ charts) {input got : InputId} {out : OutputId}
    (entered : input ∈ chart.2.inputs) (feeds : G.Feeds out got)
    (looked : ReflTransGen (LooksThrough G charts) input got) :
    G.leakingFlow.Reaches out input := by
  obtain ⟨owner, owned, has, bounded | opens⟩ := chartered.member_entered normal mem entered
  · rcases looked.cases_head with rfl | ⟨second, looks, -⟩
    · exact .of_carries (.inl feeds)
    · exact (chartered.not_looksThrough normal owned has bounded looks).elim
  · rcases looked.cases_head with rfl | ⟨second, looks, looked⟩
    · exact .of_carries (.inl feeds)
    · obtain ⟨left, boundary, feeds', -, given, marked, taken⟩ := looks
      have prec : G.Precedes boundary owner := ⟨left, input, given, owned, feeds'⟩
      rcases looked.cases_head with rfl | ⟨third, looks, -⟩
      · rcases isBoundary_iff.mp marked with stage | shuffle
        · obtain ⟨node, stored, own⟩ := normal.wf.node_of_input taken
          have silent : node.isSilent := by
            rw [Graph.isStageBoundary, stored, Option.any_some] at stage
            rw [Node.isSilent, stage, Bool.or_true]
          exact ⟨second, .inl feeds, .single ⟨boundary, node, left, stored, silent, own,
            (normal.wf.mem_outputs_iff stored).mpr given, .inl feeds'⟩⟩
        · exact .of_carries (.inr ⟨opens, boundary, second, left, shuffle, taken, given, feeds,
            feeds'⟩)
      · exact (chartered.not_looksThrough normal taken (has.prev prec) marked looks).elim

end Chartered

/-! ## Nothing but leaks is added -/

section Blocks

variable {site : Site} {place : Places} {origins : Origins} (normal : G.Normal)
  (chartered : G.Chartered charts) (extracted : Extracted G charts site place origins)

include normal chartered extracted

/-- What blocks carry, the graph carries through silent nodes or leaks. -/
theorem Extracted.reaches {out : OutputId} {input : InputId} (carries : site.Carries out input) :
    G.leakingFlow.Reaches (origins.output out) (origins.input input) := by
  rcases carries with feeds | joins
  · obtain ⟨first, owned⟩ := Graph.exists_outputOwner_of_feeds feeds
    obtain ⟨second, owned'⟩ := extracted.graph.exists_inputOwner feeds
    exact .of_carries (.inl ((extracted.feeds out input first second owned owned').mp feeds).2)
  · obtain ⟨exit, entry, block, block', wraps, wraps', -⟩ := id joins
    obtain ⟨first, owned, rfl⟩ := extracted.exitPlaced exit block out wraps
    obtain ⟨second, owned', rfl⟩ := extracted.entryPlaced entry block' input wraps'
    obtain ⟨one, got, -⟩ := extracted.graph.node_of_output owned
    obtain ⟨two, got', -⟩ := extracted.graph.node_of_input owned'
    obtain ⟨chart, mem, placed, -⟩ := extracted.placed first one got
    obtain ⟨chart', mem', placed', -⟩ := extracted.placed second two got'
    obtain ⟨entered, between, -, feeds, looked⟩ := (extracted.joins chart mem chart' mem'
      out input first second owned placed owned' placed').mp joins
    exact chartered.reaches_of_looksThrough normal mem' entered feeds looked

/-! ## Nothing is lost -/

omit normal chartered in
/-- A node of a region has a copy in its block, port by port. -/
theorem Extracted.exists_crossing (mem : chart ∈ charts) {id : NodeId} (has : id ∈ chart.2.nodes)
    (got : G.nodes[id]? = some node) :
    ∃ copy record, site.graph.nodes[copy]? = some record ∧
      place copy = chart.1.id ∧ origins.node copy = id ∧
      node.inputs = record.inputs.map origins.input ∧
      node.outputs = record.outputs.map origins.output ∧ record.isSilent = node.isSilent := by
  obtain ⟨copy, record, stored, placed, rfl⟩ := extracted.copies chart mem id has
  have eq := extracted.faithful copy record stored
  rw [got] at eq
  cases eq
  exact ⟨copy, record, stored, placed, rfl, rfl, rfl, (origins.isSilent_original record).symm⟩

/-- The copy of a port in the block of a chart is where a route with these visits
starts, to a copy of the last port. -/
def Lands (site : Site) (place : Places) (origins : Origins) (chart : Chart)
    (input : InputId) (visits : List Visit) (last : InputId) : Prop :=
  ∃ copy owner final end', site.graph.inputOwner? copy = some owner ∧
    place owner = chart.1.id ∧ origins.input copy = input ∧
    (site.flow origins).Route copy visits final ∧ origins.input final = last ∧
    site.graph.inputOwner? final = some end'

section Landing

omit normal chartered

variable (wf : G.Consistent) {chart' : Chart} (mem : chart ∈ charts) {id : NodeId}
  (has : id ∈ chart.2.nodes) (got : G.nodes[id]? = some node) {input : InputId} {out : OutputId}
  (entered' : node.inputs[entered]? = some input)

include mem has got entered'

theorem Extracted.lands_here : Lands site place origins chart input [] input := by
  obtain ⟨copy, record, stored, placed, -, inputs, -⟩ := extracted.exists_crossing mem has got
  rw [inputs, getElem?_map] at entered'
  obtain ⟨port, at', eq⟩ := Option.map_eq_some_iff.mp entered'
  have owned := extracted.graph.input_of_mem stored (mem_of_getElem? at')
  exact ⟨port, copy, port, copy, owned, placed, eq, .here _, eq, owned⟩

variable (left' : node.outputs[left]? = some out)

include left'

private theorem Extracted.lands_step {final : InputId} {end' : NodeId}
    (carried : ∀ port owner, site.graph.outputOwner? port = some owner →
      place owner = chart.1.id → origins.output port = out → site.Carries port next)
    (route : (site.flow origins).Route next visits final) (eq : origins.input final = last)
    (owned : site.graph.inputOwner? final = some end') :
    Lands site place origins chart input (G.leakingFlow.visit id node entered left ++ visits)
      last := by
  obtain ⟨copy, record, stored, placed, origin, inputs, outputs, silent⟩ :=
    extracted.exists_crossing mem has got
  rw [inputs, getElem?_map] at entered'
  rw [outputs, getElem?_map] at left'
  obtain ⟨port, at', copied⟩ := Option.map_eq_some_iff.mp entered'
  obtain ⟨port', at'', copied'⟩ := Option.map_eq_some_iff.mp left'
  have visited : G.leakingFlow.visit id node entered left =
      (site.flow origins).visit copy record entered left := by
    simp [Flow.visit, silent, Site.flow, Graph.leakingFlow, origin]
  rw [visited]
  exact ⟨port, copy, final, end',
    extracted.graph.input_of_mem stored (mem_of_getElem? at'), placed, copied,
    .on stored at' at'' (carried port' copy
      (extracted.graph.output_of_mem stored (mem_of_getElem? at'')) placed copied') route,
    eq, owned⟩

/-- Data goes on inside of the block. -/
theorem Extracted.lands_inside (feeds : G.Feeds out next)
    (lands : Lands site place origins chart next visits last) :
    Lands site place origins chart input (G.leakingFlow.visit id node entered left ++ visits)
      last := by
  obtain ⟨copy, owner, final, end', owned, placed, rfl, route, eq, owned'⟩ := lands
  refine extracted.lands_step mem has got entered' left' ?_ route eq owned'
  rintro port owner' given placed' rfl
  exact .inl ((extracted.feeds port copy owner' owner given owned).mpr
    ⟨placed'.trans placed.symm, feeds⟩)

/-- Data goes on along a link. -/
theorem Extracted.lands_across (mem' : chart' ∈ charts) {entry between : InputId}
    (leaves : chart.2.Leaves out between) (feeds : G.Feeds out between)
    (entry' : entry ∈ chart'.2.inputs) (looked : ReflTransGen (LooksThrough G charts) entry between)
    (lands : Lands site place origins chart' entry visits last) :
    Lands site place origins chart input (G.leakingFlow.visit id node entered left ++ visits)
      last := by
  obtain ⟨copy, owner, final, end', owned, placed, rfl, route, eq, owned'⟩ := lands
  refine extracted.lands_step mem has got entered' left' ?_ route eq owned'
  rintro port owner' given placed' rfl
  exact .inr ((extracted.joins chart mem chart' mem' port copy owner' owner given placed'
    owned placed).mpr ⟨entry', between, leaves, feeds, looked⟩)

end Landing

/-- A route goes on from some block in which the search for the port starts. -/
def Anchored (graph : Graph) (charts : List Chart) (site : Site)
    (place : Places) (origins : Origins) (input : InputId) (visits : List Visit)
    (last : InputId) : Prop :=
  ∃ chart ∈ charts, ∃ entry ∈ chart.2.inputs, ReflTransGen (LooksThrough graph charts) entry input ∧
      Lands site place origins chart entry visits last

/-- Behind each boundary that leads to the node there is a span such that a route
goes on from all blocks that hold the span. -/
def Based (graph : Graph) (charts : List Chart) (site : Site)
    (place : Places) (origins : Origins) (id : NodeId) (input : InputId)
    (visits : List Visit) (last : InputId) : Prop :=
  ∀ origin, graph.Member origin → graph.isBoundary origin = true → graph.Passes origin id →
    ∃ span, graph.Base origin span ∧ id ∈ span.passings ∧ ∀ chart ∈ charts,
      graph.Holds chart.2 origin span → Lands site place origins chart input visits last

/-- A route goes on from the input port of the node. -/
def GoesOn (graph : Graph) (charts : List Chart) (site : Site)
    (place : Places) (origins : Origins) (id : NodeId) (input : InputId)
    (visits : List Visit) (last : InputId) : Prop :=
  (graph.isBoundary id = true → Anchored graph charts site place origins input visits last) ∧
    (graph.isBoundary id = false → Based graph charts site place origins id input visits last)

section Complete

variable {id : NodeId} {input : InputId} {out : OutputId} (has : G.Member id)
  (got : G.nodes[id]? = some node) (entered' : node.inputs[entered]? = some input)

include has got entered'

omit chartered has in
/-- A route ends at a node that is no stage boundary. -/
private theorem Extracted.based_here (clear : G.isBoundary id = false) :
    Based G charts site place origins id input [] input := by
  intro origin _ marked passes
  obtain ⟨span, base, inside⟩ := Graph.exists_base_of_passes normal.wf marked clear passes
  exact ⟨span, base, inside, fun chart mem holds =>
    extracted.lands_here mem (holds.nodes id inside) got entered'⟩

private theorem Extracted.anchored_here (stops : G.isStageBoundary id = false ∨ id ∈ G.root.outputs)
    (bounded : G.isBoundary id) :
    Anchored G charts site place origins input [] input := by
  have owned := normal.wf.input_of_mem got (mem_of_getElem? entered')
  rcases stops with unstaged | root
  · have shuffle := (Graph.isBoundary_iff.mp bounded).resolve_left (by simp [unstaged])
    obtain ⟨chart, mem, inside, entries, -⟩ := chartered.exists_reduce normal has shuffle
    exact ⟨chart, mem, input, entries input owned, .refl,
      extracted.lands_here mem inside got entered'⟩
  · obtain ⟨chart, mem, eq⟩ := chartered.output
    refine ⟨chart, mem, input, ?_, .refl, extracted.lands_here mem ?_ got entered'⟩
    · rw [eq]
      exact (Graph.mem_incoming normal.wf).mpr ⟨id, root, owned⟩
    · rw [eq]
      exact mem_of.mpr root

variable (left' : node.outputs[left]? = some out) {id' : NodeId}
  (taken : G.inputOwner? next = some id')

include left' taken

/-- A route goes on to a boundary. -/
private theorem Extracted.goes_on_bounded (bounded : G.isBoundary id') (feeds : G.Feeds out next)
    (anchored : Anchored G charts site place origins next visits last) :
    GoesOn G charts site place origins id input
      (G.leakingFlow.visit id node entered left ++ visits) last := by
  have given := normal.wf.output_of_mem got (mem_of_getElem? left')
  have prec : G.Precedes id id' := ⟨out, next, given, taken, feeds⟩
  obtain ⟨chart', mem', entry, entries, looked, lands⟩ := anchored
  refine ⟨fun marked => ?_, fun clear => ?_⟩
  · rcases Graph.isBoundary_iff.mp marked with stage | shuffle
    · rw [normal.hopless id id' has stage prec] at bounded
      cases bounded
    · obtain ⟨chart, mem, inside, own, -, leaves⟩ := chartered.exists_reduce normal has shuffle
      have owned := normal.wf.input_of_mem got (mem_of_getElem? entered')
      exact ⟨chart, mem, input, own input owned, .refl,
        extracted.lands_across mem inside got entered' left' mem'
          (leaves out id' next given taken bounded feeds) feeds entries looked lands⟩
  · intro origin _ marked passes
    obtain ⟨span, base, inside, arrives⟩ :=
      Graph.exists_base_of_precedes normal.wf marked clear passes prec bounded
    exact ⟨span, base, inside, fun chart mem holds =>
      extracted.lands_across mem (holds.nodes id inside) got entered' left' mem'
        (holds.leaves out next id inside given feeds ⟨id', arrives, taken⟩) feeds entries
        looked lands⟩

/-- A route goes on to a node that is no boundary. -/
private theorem Extracted.goes_on_clear (clear' : G.isBoundary id' = false)
    (feeds : G.Feeds out next) (based : Based G charts site place origins id' next visits last) :
    GoesOn G charts site place origins id input
      (G.leakingFlow.visit id node entered left ++ visits) last := by
  have given := normal.wf.output_of_mem got (mem_of_getElem? left')
  have owned := normal.wf.input_of_mem got (mem_of_getElem? entered')
  have prec : G.Precedes id id' := ⟨out, next, given, taken, feeds⟩
  refine ⟨fun marked => ?_, fun clear => ?_⟩
  · obtain ⟨span, base, inside, lands⟩ := based id has marked (.step prec)
    rcases Graph.isBoundary_iff.mp marked with stage | shuffle
    · -- the data crosses the stage boundary unseen and enters the region behind it
      obtain ⟨chart, mem, holds⟩ := chartered.map id span has base stage ⟨id', inside⟩
      refine ⟨chart, mem, next, holds.enters stage out next id' inside given feeds taken,
        .single ⟨out, id, feeds, ?_, given, marked, owned⟩, ?_⟩
      · intro other mem' leaves
        rcases ((chartered.outlined other mem').left normal leaves).2 with
          ⟨root, inputs, given'⟩ | ⟨boundary, taken', -, bounded⟩
        · obtain ⟨record, stored, -, -, none⟩ := normal.inputs root inputs
          rw [given] at given'
          cases given'
          rw [got] at stored
          cases stored
          simp [none] at entered'
        · rw [taken] at taken'
          cases taken'
          rw [clear'] at bounded
          cases bounded
      · have silent : node.isSilent := by
          rw [Graph.isStageBoundary, got, Option.any_some] at stage
          rw [Node.isSilent, stage, Bool.or_true]
        rw [Flow.visit, if_pos silent, nil_append]
        exact lands chart mem holds
    · obtain ⟨chart, mem, own, entries, holds, -⟩ := chartered.exists_reduce normal has shuffle
      exact ⟨chart, mem, input, entries input owned, .refl,
        extracted.lands_inside mem own got entered' left' feeds (lands chart mem (holds span base))⟩
  · intro origin has' marked passes
    obtain ⟨span, base, inside, lands⟩ :=
      based origin has' marked (passes.append clear (.step prec))
    have inside' := base.back normal.wf inside clear passes prec
    exact ⟨span, base, inside', fun chart mem holds =>
      extracted.lands_inside mem (holds.nodes id inside') got entered' left' feeds
        (lands chart mem holds)⟩

/-- A route goes on along a leak. -/
private theorem Extracted.goes_on_leaking (leaks : G.Leaks out next)
    (based : Based G charts site place origins id' next visits last) :
    GoesOn G charts site place origins id input
      (G.leakingFlow.visit id node entered left ++ visits) last := by
  obtain ⟨⟨_, port, stage, taken', clear', opened, staged, feeds⟩, shuffle, pre, post, shuffled,
    ownedBefore, ownedAfter, into, onto⟩ := leaks
  rw [taken] at taken'
  cases taken'
  have given := normal.wf.output_of_mem got (mem_of_getElem? left')
  have prec : G.Precedes id shuffle := ⟨out, pre, given, ownedBefore, into⟩
  have beyond : G.Precedes shuffle id' := ⟨post, next, ownedAfter, taken, onto⟩
  have opens : G.Precedes stage id' := ⟨port, next, opened, taken, feeds⟩
  have bounded : G.isBoundary shuffle := Graph.isBoundary_iff.mpr (.inr shuffled)
  refine ⟨fun marked => ?_, fun clear => ?_⟩
  · rcases Graph.isBoundary_iff.mp marked with stage | shuffle'
    · rw [normal.hopless id shuffle has stage prec] at bounded
      cases bounded
    · rw [normal.settled id shuffle has shuffle' (.step prec)] at shuffled
      cases shuffled
  · have stageMember : G.Member stage := ((has.next prec).next beyond).prev opens
    have stageBounded : G.isBoundary stage := Graph.isBoundary_iff.mpr (.inl staged)
    obtain ⟨span', base', inside', lands⟩ := based stage stageMember stageBounded (.step opens)
    obtain ⟨chart', mem', holds'⟩ :=
      chartered.map stage span' stageMember base' staged ⟨id', inside'⟩
    have looks : LooksThrough G charts next pre := by
      refine ⟨post, shuffle, onto, fun other mem leaves => ?_, ownedAfter, bounded, ownedBefore⟩
      rcases ((chartered.outlined other mem).left normal leaves).2 with
        ⟨root, inputs, given'⟩ | ⟨boundary, taken', -, marked⟩
      · rw [ownedAfter] at given'
        cases given'
        rw [normal.unmixed shuffle (normal.isStageBoundary_input inputs)] at shuffled
        cases shuffled
      · rw [taken] at taken'
        cases taken'
        rw [clear'] at marked
        cases marked
    intro origin _ marked passes
    obtain ⟨span, base, inside, arrives⟩ :=
      Graph.exists_base_of_precedes normal.wf marked clear passes prec bounded
    exact ⟨span, base, inside, fun chart mem holds =>
      extracted.lands_across mem (holds.nodes id inside) got entered' left' mem'
        (holds.leaves out pre id inside given into ⟨shuffle, arrives, ownedBefore⟩) into
        (holds'.enters staged port next id' inside' opened feeds taken) (.single looks)
        (lands chart' mem' holds')⟩

end Complete

/-- A route of the graph goes on in the blocks. -/
private theorem Extracted.goes_on {input : InputId} {id target : NodeId}
    (route : G.leakingFlow.Route input visits last) (arrives : G.inputOwner? last = some target)
    (stops : G.isStageBoundary target = false ∨ target ∈ G.root.outputs)
    (owned : G.inputOwner? input = some id) (has : G.Member id) :
    GoesOn G charts site place origins id input visits last := by
  have wf := normal.wf
  induction route generalizing id with
  | here =>
    rw [owned] at arrives
    cases arrives
    obtain ⟨node, got, own⟩ := wf.node_of_input owned
    obtain ⟨entered, at'⟩ := mem_iff_getElem?.mp own
    exact ⟨extracted.anchored_here normal chartered has got at' stops,
      extracted.based_here normal got at'⟩
  | @on other node entered left input next last output visits got at' at'' carries _ ih =>
    have eq := wf.input_of_mem got (mem_of_getElem? at')
    have given := wf.output_of_mem got (mem_of_getElem? at'')
    rw [owned] at eq
    cases eq
    rcases carries with feeds | leaks
    · obtain ⟨id', taken⟩ := wf.exists_inputOwner feeds
      obtain ⟨anchored, based⟩ := ih arrives taken (has.next ⟨output, next, given, taken, feeds⟩)
      cases clear : G.isBoundary id' with
      | true =>
        exact extracted.goes_on_bounded normal chartered has got at' at'' taken clear
          feeds (anchored clear)
      | false =>
        exact extracted.goes_on_clear normal chartered has got at' at'' taken clear
          feeds (based clear)
    · obtain ⟨⟨id', _, _, taken, clear, -⟩, shuffle, pre, post, -, ownedBefore, ownedAfter,
        into, out⟩ := id leaks
      have has' : G.Member id' := (has.next ⟨output, pre, given, ownedBefore, into⟩).next
          ⟨post, next, ownedAfter, taken, out⟩
      exact extracted.goes_on_leaking normal chartered has got at' at'' taken leaks
        ((ih arrives taken has').2 clear)

/-- Each trace of the graph, with its leaks, is a trace of its blocks. -/
theorem Extracted.traces {stop : NodeId → Prop} {trace : Trace}
    (stops : ∀ id, stop id → G.isStageBoundary id = false ∨ id ∈ G.root.outputs)
    (traces : G.leakingFlow.Traces (· ∈ G.root.inputs) stop trace) :
    (site.flow origins).Traces (fun id => origins.node id ∈ G.root.inputs)
      (fun id => stop (origins.node id)) trace := by
  have wf := normal.wf
  obtain ⟨first, last, one, two, out, input, starts, stops', got, left, got', entered,
    source, target, next, carries, route⟩ := traces
  have stage := normal.isStageBoundary_input starts
  have has : G.Member first := ⟨first, mem_append_left _ starts, .refl⟩
  have given := wf.output_of_mem got (mem_of_getElem? left)
  have arrives := wf.input_of_mem got' (mem_of_getElem? entered)
  rcases carries with feeds | ⟨-, shuffle, pre, -, shuffled, ownedBefore, -, into, -⟩
  · obtain ⟨id, taken⟩ := wf.exists_inputOwner feeds
    have prec : G.Precedes first id := ⟨out, next, given, taken, feeds⟩
    have clear := normal.hopless first id has stage prec
    obtain ⟨span, base, inside, lands⟩ :=
      (extracted.goes_on normal chartered route arrives (stops last stops') taken
        (has.next prec)).2 clear first has (Graph.isBoundary_iff.mpr (.inl stage))
        (.step prec)
    obtain ⟨chart', mem', holds⟩ := chartered.map first span has base stage ⟨id, inside⟩
    obtain ⟨copy, owner, final, end', owned, placed, rfl, route', rfl, owned'⟩ :=
      lands chart' mem' holds
    obtain ⟨chart, mem, eq⟩ := chartered.input
    obtain ⟨start, record, stored, placed', origin, -, outputs, -⟩ :=
      extracted.exists_crossing mem (eq ▸ mem_of.mpr starts) got
    rw [outputs, getElem?_map] at left
    obtain ⟨port, left', rfl⟩ := Option.map_eq_some_iff.mp left
    obtain ⟨record', stored', own'⟩ := extracted.graph.node_of_input owned'
    have origin' : origins.node end' = last := Option.mem_unique (extracted.faithful.inputOwner
      extracted.graph wf owned') arrives
    have original := extracted.faithful end' record' stored'
    rw [origin'] at original
    cases got'.symm.trans original
    have entered' : record'.inputs[trace.entered]? = some final := by
      rw [Origins.original, getElem?_map] at entered
      obtain ⟨port', at', eq'⟩ := Option.map_eq_some_iff.mp entered
      have owned'' := extracted.graph.input_of_mem stored' (mem_of_getElem? at')
      rw [at', extracted.faithful.port_injective extracted.graph.inputSide wf.inputSide
        (fun _ => rfl) owned'' owned' eq']
    have given' := extracted.graph.output_of_mem stored (mem_of_getElem? left')
    have leaves : chart.2.Leaves (origins.output port) (origins.input copy) := by
      rw [eq]
      exact (Graph.leaves_inputOutline wf).mpr ⟨feeds, first, starts, given⟩
    have starts' : origins.node start ∈ G.root.inputs := by rwa [origin]
    have stops'' : stop (origins.node end') := by rwa [origin']
    refine ⟨start, end', record, record', port, final, starts', stops'', stored, left',
      stored', entered', origin.trans source, origin'.trans target, copy, .inr ?_, route'⟩
    exact (extracted.joins chart mem chart' mem' port copy start owner given' placed' owned
      placed).mpr ⟨holds.enters stage _ _ id inside given feeds taken, _, leaves, feeds, .refl⟩
  · have bounded := normal.hopless first shuffle has stage ⟨out, pre, given, ownedBefore, into⟩
    rw [Graph.isBoundary_iff.mpr (.inr shuffled)] at bounded
    cases bounded

end Blocks

end Staging
