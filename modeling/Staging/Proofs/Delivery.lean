import Staging.Proofs.Planning

/-! # What plans deliver

The data of a plan flows along the connections inside of its blocks and along the links
between them, and is told with the nodes that the nodes of the plan copy. A plan delivers
what the normalized graph delivers, together with what the shuffles of that graph leak.
-/

namespace Staging

open Std Relation List

variable {G : Graph} {plan : Plan} {origins : Origins} {first id last : NodeId} {node : Node}
  {block : Block} {trace : Trace}

/-! ## The data of a plan -/

namespace Plan

/-- A block of the plan has the first node and knows it as a copy of the second. -/
def Copies (plan : Plan) (id origin : NodeId) : Prop :=
  ∃ block ∈ plan.blocks, id ∈ block.nodes ∧ block.origins[id]? = some origin

/-- What the blocks of the plan know about what the node copies. -/
def origin (plan : Plan) (id : NodeId) : NodeId :=
  (plan.blocks.findSome? fun block => block.origins[id]?).getD id

/-- The data of the plan, with copies named after what they copy. -/
def flow (plan : Plan) : Flow :=
  ⟨plan.graph, plan.site.Carries, plan.origin⟩

/-- Data with this trace gets from the input block to the output block. -/
def Delivers (plan : Plan) (trace : Trace) : Prop :=
  plan.flow.Traces (· ∈ plan.input.nodes) (· ∈ plan.output.nodes) trace

/-- The blocks of stages have no stage boundaries. -/
def Unstaged (plan : Plan) : Prop :=
  ∀ stage ∈ plan.stages, ∀ block ∈ stage.blocks, ∀ id ∈ block.nodes,
    plan.graph.isStageBoundary id = false

theorem perm_blocks (plan : Plan) :
    plan.blocks.Perm ([plan.input, plan.output] ++ plan.stages.flatMap Stage.blocks) :=
  Perm.cons _ (perm_append_singleton plan.output _)

end Plan

/-- Data with this trace gets from an input to an output of the whole graph. -/
def Graph.Delivers (graph : Graph) (trace : Trace) : Prop :=
  graph.flow.Traces (· ∈ graph.root.inputs) (· ∈ graph.root.outputs) trace

/-- Data with this trace gets there if shuffles leak. -/
def Graph.LeakDelivers (graph : Graph) (trace : Trace) : Prop :=
  graph.leakingFlow.Traces (· ∈ graph.root.inputs) (· ∈ graph.root.outputs) trace

theorem Graph.traces_leakingFlow {start stop : NodeId → Prop}
    (traces : G.flow.Traces start stop trace) : G.leakingFlow.Traces start stop trace :=
  traces.imp rfl (fun _ _ feeds => .inl feeds) (fun _ _ _ => rfl) (fun _ _ _ starts => starts)
    fun _ _ _ _ stops => stops

namespace Plan.Holds

variable (holds : plan.Holds G origins)

include holds

theorem exists_block (got : plan.graph.nodes[id]? = some node) :
    ∃ block ∈ plan.blocks, id ∈ block.nodes := by
  obtain ⟨kind, place, held⟩ := holds
  obtain ⟨block, mem, placed⟩ := held.arranged.cover id node got
  exact ⟨block, plan.perm_blocks.mem_iff.mpr mem,
    ((held.arranged.fits block mem).nodes id).mpr ⟨placed, node, got⟩⟩

theorem origins_iff (mem : block ∈ plan.blocks) {origin : NodeId} :
    block.origins[id]? = some origin ↔ id ∈ block.nodes ∧ origin = origins.node id := by
  obtain ⟨kind, place, held⟩ := holds
  exact (held.arranged.fits block (plan.perm_blocks.mem_iff.mp mem)).origins id origin

theorem exists_node (mem : block ∈ plan.blocks) (inside : id ∈ block.nodes) :
    ∃ node, plan.graph.nodes[id]? = some node := by
  obtain ⟨kind, place, held⟩ := holds
  exact (((held.arranged.fits block (plan.perm_blocks.mem_iff.mp mem)).nodes id).mp inside).2

theorem copies_iff {origin : NodeId} : plan.Copies id origin ↔
    (∃ node, plan.graph.nodes[id]? = some node) ∧ origin = origins.node id := by
  constructor
  · rintro ⟨block, mem, inside, known⟩
    exact ⟨holds.exists_node mem inside, ((holds.origins_iff mem).mp known).2⟩
  · rintro ⟨⟨node, got⟩, rfl⟩
    obtain ⟨block, mem, inside⟩ := holds.exists_block got
    exact ⟨block, mem, inside, (holds.origins_iff mem).mpr ⟨inside, rfl⟩⟩

theorem origin_eq (got : plan.graph.nodes[id]? = some node) : plan.origin id = origins.node id := by
  rw [Plan.origin]
  cases known : plan.blocks.findSome? fun block => block.origins[id]? with
  | none =>
    obtain ⟨block, mem, inside⟩ := holds.exists_block got
    have unknown := findSome?_eq_none_iff.mp known block mem
    rw [(holds.origins_iff mem).mpr ⟨inside, rfl⟩] at unknown
    cases unknown
  | some origin =>
    obtain ⟨block, mem, got'⟩ := exists_of_findSome?_eq_some known
    exact ((holds.origins_iff mem).mp got').2

theorem mem_input_iff (got : plan.graph.nodes[id]? = some node) :
    id ∈ plan.input.nodes ↔ origins.node id ∈ G.root.inputs := by
  obtain ⟨kind, place, held⟩ := holds
  rw [(held.arranged.fits plan.input (by simp)).nodes, ← held.framed.inputs id node got]
  exact and_iff_left ⟨node, got⟩

theorem mem_output_iff (got : plan.graph.nodes[id]? = some node) :
    id ∈ plan.output.nodes ↔ origins.node id ∈ G.root.outputs := by
  obtain ⟨kind, place, held⟩ := holds
  rw [(held.arranged.fits plan.output (by simp)).nodes, ← held.framed.outputs id node got]
  exact and_iff_left ⟨node, got⟩

/-- A stage boundary is planned only at the ends. -/
theorem mem_endpoints (got : plan.graph.nodes[id]? = some node)
    (stage : G.isStageBoundary (origins.node id)) :
    origins.node id ∈ G.root.endpoints := by
  obtain ⟨kind, place, held⟩ := holds
  rcases held.framed.ends id node got stage with first | last
  · exact mem_append_left _ ((held.framed.inputs id node got).mp first)
  · exact mem_append_right _ ((held.framed.outputs id node got).mp last)

/-- What is planned and no boundary is anchored. -/
theorem anchored (got : plan.graph.nodes[id]? = some node)
    (clear : G.isBoundary (origins.node id) = false) : G.Anchored (origins.node id) := by
  obtain ⟨kind, place, held⟩ := holds
  exact held.framed.anchored id node got clear

theorem unstaged : plan.Unstaged := by
  intro stage mem block has id inside
  obtain ⟨kind, place, held⟩ := holds
  have inner : block ∈ plan.stages.flatMap Stage.blocks := mem_flatMap.mpr ⟨stage, mem, has⟩
  obtain ⟨placed, node, got⟩ := ((held.arranged.fits block (mem_append_right _ inner)).nodes
    id).mp inside
  have nodup := held.arranged.nodup
  simp only [map_cons, cons_append, nil_append, nodup_cons, mem_cons,
    mem_map, not_or, not_exists, not_and] at nodup
  by_contra marked
  have stage := (held.arranged.faithful.isStageBoundary got).trans
    (Bool.eq_true_of_not_eq_false marked)
  rcases held.framed.ends id node got stage with first | last
  · exact nodup.1.2 block inner (placed.symm.trans first)
  · exact nodup.2.1 block inner (placed.symm.trans last)

/-- What gets through the plan gets through the graph, if shuffles leak. -/
theorem leakDelivers (delivers : plan.Delivers trace) : G.LeakDelivers trace := by
  obtain ⟨kind, place, held⟩ := id holds
  have folded : Flow.Folded plan.flow G.leakingFlow (· ∈ plan.input.nodes)
      (· ∈ plan.output.nodes) (· ∈ G.root.inputs) (· ∈ G.root.outputs) origins.node
      origins.input origins.output := by
    refine ⟨fun id record got => ?_, held.conveys.sound⟩
    exact ⟨origins.original record, held.conveys.faithful id record got, rfl, rfl,
      origins.isSilent_original record, (holds.origin_eq got).symm,
      (holds.mem_input_iff got).mp, (holds.mem_output_iff got).mp⟩
  exact folded.traces delivers

/-- What is asked for gets through the plan. -/
theorem traces (traces : G.leakingFlow.Traces (· ∈ G.root.inputs) G.Observed trace) :
    plan.flow.Traces (· ∈ plan.input.nodes) (plan.Copies · trace.target) trace := by
  obtain ⟨kind, place, held⟩ := id holds
  exact Flow.Traces.imp (held.conveys.complete trace traces) rfl (fun _ _ carries => carries)
    (fun _ _ got => holds.origin_eq got) (fun _ _ got => (holds.mem_input_iff got).mpr)
    fun _ node got target _ => holds.copies_iff.mpr ⟨⟨node, got⟩, target.symm⟩

theorem delivers_of_leakDelivers (delivers : G.LeakDelivers trace) : plan.Delivers trace := by
  have target : trace.target ∈ G.root.outputs := by
    obtain ⟨_, _, _, _, _, _, -, stops, -, -, -, -, -, target, -⟩ := delivers
    exact target ▸ stops
  have observed : G.leakingFlow.Traces (· ∈ G.root.inputs) G.Observed trace :=
    delivers.imp rfl (fun _ _ carries => carries) (fun _ _ _ => rfl) (fun _ _ _ starts => starts)
      fun _ _ _ _ stops => .inl stops
  refine (holds.traces observed).imp rfl (fun _ _ carries => carries) (fun _ _ _ => rfl)
    (fun _ _ _ starts => starts) fun id node got _ copies => ?_
  rw [holds.mem_output_iff got, ← (holds.copies_iff.mp copies).2]
  exact target

/-- A plan delivers what the graph delivers with its leaks. -/
theorem delivers_iff : plan.Delivers trace ↔ G.LeakDelivers trace :=
  ⟨holds.leakDelivers, holds.delivers_of_leakDelivers⟩

end Plan.Holds

/-! ## Nodes on the way -/

/-- Data gets from a node to each node that it leads to. -/
theorem Graph.Consistent.exists_delivers (wf : G.Consistent)
    (led : TransGen G.Precedes first last) :
    ∃ out visits input, G.outputOwner? out = some first ∧
      G.inputOwner? input = some last ∧ G.flow.Delivers out visits input := by
  induction led with
  | single prec =>
    obtain ⟨out, input, given, taken, feeds⟩ := prec
    exact ⟨out, [], input, given, taken, input, feeds, .here _⟩
  | @tail middle last _ prec ih =>
    obtain ⟨out, visits, entry, given, entered, delivers⟩ := ih
    obtain ⟨exit, input, left, taken, feeds⟩ := prec
    obtain ⟨node, got, own⟩ := wf.node_of_input entered
    have own' := (wf.mem_outputs_iff got).mpr left
    obtain ⟨_, at'⟩ := mem_iff_getElem?.mp own
    obtain ⟨_, at''⟩ := mem_iff_getElem?.mp own'
    exact ⟨out, _, input, given, taken, delivers.through got at' at'' ⟨input, feeds, .here _⟩⟩

/-- Some data that is delivered visits the node on its way. -/
theorem Graph.Consistent.exists_visit (wf : G.Consistent)
    (starts : first ∈ G.root.inputs) (pre : TransGen G.Precedes first id)
    (got : G.nodes[id]? = some node) (loud : node.isSilent = false)
    (behind : TransGen G.Precedes id last) (stops : last ∈ G.root.outputs) :
    ∃ trace, G.Delivers trace ∧ ∃ visit ∈ trace.visits, visit.node = id := by
  obtain ⟨out, visits, entry, given, entered, delivers⟩ := wf.exists_delivers pre
  obtain ⟨exit, visits', input, left, taken, delivers'⟩ := wf.exists_delivers behind
  obtain ⟨one, got', own⟩ := wf.node_of_output given
  obtain ⟨two, got'', own'⟩ := wf.node_of_input taken
  obtain ⟨leaves, at₁⟩ := mem_iff_getElem?.mp own
  obtain ⟨enters, at₂⟩ := mem_iff_getElem?.mp own'
  obtain ⟨inner, at₃⟩ := mem_iff_getElem?.mp ((wf.mem_inputs_iff got).mpr entered)
  obtain ⟨outer, at₄⟩ := mem_iff_getElem?.mp ((wf.mem_outputs_iff got).mpr left)
  refine ⟨⟨first, leaves, _, last, enters⟩, ⟨first, last, one, two, out, input, starts, stops,
    got', at₁, got'', at₂, rfl, rfl, delivers.through got at₃ at₄ delivers'⟩,
    ⟨id, inner, outer⟩, ?_, rfl⟩
  simp [Flow.visit, loud, Graph.flow]

/-- What is visited on the way through a plan has a copy there. -/
theorem Plan.Holds.exists_copy (holds : plan.Holds G origins)
    (delivers : plan.Delivers trace) {visit : Visit} (visited : visit ∈ trace.visits) :
    ∃ id, plan.Copies id visit.node := by
  obtain ⟨_, _, _, _, _, _, -, -, -, -, -, -, -, -, _, -, route⟩ := delivers
  obtain ⟨id, node, got, name⟩ := route.exists_node visited
  exact ⟨id, holds.copies_iff.mpr ⟨⟨node, got⟩, name.symm.trans (holds.origin_eq got)⟩⟩

end Staging
