import Staging.Proofs.Delivery

/-! # Listing traces

Where the ports that each output port carries data to are listed, so are all
traces of data through a graph without circuits. The lists decide what a graph
and what a plan deliver.
-/

namespace Staging

open Std List ExtTreeSet

variable {ids : List NodeId} {id : NodeId} {out : OutputId} {visits : List Visit} {bound : Nat}
  {input : InputId} {trace : Trace}

namespace Flow

variable (flow : Flow) (next : OutputId → List InputId)

/-- What is visited between an input port and the ports that data gets to next. -/
def steps (input : InputId) : List (List Visit × InputId) :=
  flow.graph.nodes.toList.flatMap fun (id, node) =>
    node.inputs.zipIdx.flatMap fun (port, entered) =>
      if port = input then
        node.outputs.zipIdx.flatMap fun (out, left) =>
          (next out).map fun target => (flow.visit id node entered left, target)
      else []

/-- The routes from an input port through fewer nodes than the bound, with the
ports at which they end. -/
def routes : Nat → InputId → List (List Visit × InputId)
  | 0, _ => []
  | bound + 1, input => ([], input) :: (flow.steps next input).flatMap fun (visits, target) =>
    (routes bound target).map fun (more, last) => (visits ++ more, last)

/-- No route from an input port reaches the bound. -/
def settles : Nat → InputId → Bool
  | 0, _ => false
  | bound + 1, input => (flow.steps next input).all fun (_, target) => settles bound target

/-- The output ports of nodes, with the nodes and the positions. -/
def exits (ids : List NodeId) : List (NodeId × Nat × OutputId) :=
  ids.flatMap fun id => (flow.graph.nodes[id]?).toList.flatMap fun node =>
    node.outputs.zipIdx.map fun (out, left) => (id, left, out)

/-- The input ports of nodes, with the nodes and the positions. -/
def entries (ids : List NodeId) : List (NodeId × Nat × InputId) :=
  ids.flatMap fun id => (flow.graph.nodes[id]?).toList.flatMap fun node =>
    node.inputs.zipIdx.map fun (input, entered) => (id, entered, input)

/-- The traces from the first nodes to the second ones. -/
def traces (bound : Nat) (starts stops : List NodeId) : List Trace :=
  (flow.exits starts).flatMap fun (first, left, out) =>
    (next out).flatMap fun target =>
      (flow.routes next bound target).flatMap fun (visits, reached) =>
        ((flow.entries stops).filter fun (_, _, input) => input = reached).map
          fun (last, entered, _) => ⟨flow.name first, left, visits, flow.name last, entered⟩

/-- No route from one of the nodes reaches the bound. -/
def settlesFrom (bound : Nat) (starts : List NodeId) : Bool :=
  (flow.exits starts).all fun (_, _, out) => (next out).all (flow.settles next bound)

variable {flow next} (mem : ∀ out input, flow.carries out input ↔ input ∈ next out)

/-- The ports of nodes on one side, with their places. -/
private theorem mem_places_iff {role : Role} {ports : Node → List (Handle role)} {place : Nat}
    {port : Handle role} : ((id, place, port) ∈ ids.flatMap fun id =>
      (flow.graph.nodes[id]?).toList.flatMap fun node =>
        (ports node).zipIdx.map fun (port, place) => (id, place, port)) ↔
      id ∈ ids ∧ ∃ node, flow.graph.nodes[id]? = some node ∧ (ports node)[place]? = some port := by
  simp only [mem_flatMap, Option.mem_toList, mem_map, Prod.exists, mk_mem_zipIdx_iff_getElem?,
    Prod.mk.injEq]
  constructor
  · rintro ⟨_, mem, node, got, _, _, at', rfl, rfl, rfl⟩
    exact ⟨mem, node, got, at'⟩
  · rintro ⟨mem, node, got, at'⟩
    exact ⟨id, mem, node, got, port, place, at', rfl, rfl, rfl⟩

private theorem mem_exits_iff {left : Nat} : (id, left, out) ∈ flow.exits ids ↔
    id ∈ ids ∧ ∃ node, flow.graph.nodes[id]? = some node ∧ node.outputs[left]? = some out :=
  mem_places_iff

private theorem mem_entries_iff {entered : Nat} : (id, entered, input) ∈ flow.entries ids ↔
    id ∈ ids ∧ ∃ node, flow.graph.nodes[id]? = some node ∧ node.inputs[entered]? = some input :=
  mem_places_iff

private theorem mem_steps_iff {target : InputId} :
    (visits, target) ∈ flow.steps next input ↔ ∃ id node entered left out,
      flow.graph.nodes[id]? = some node ∧ node.inputs[entered]? = some input ∧
      node.outputs[left]? = some out ∧ target ∈ next out ∧
      visits = flow.visit id node entered left := by
  simp only [steps, mem_flatMap, Prod.exists, HandleMap.mem_toList_iff, mk_mem_zipIdx_iff_getElem?]
  constructor
  · rintro ⟨id, node, got, port, entered, at', inside⟩
    split at inside
    · next eq =>
      subst eq
      simp only [mem_flatMap, Prod.exists, mk_mem_zipIdx_iff_getElem?, mem_map,
        Prod.mk.injEq] at inside
      obtain ⟨out, left, at'', _, carried, rfl, rfl⟩ := inside
      exact ⟨id, node, entered, left, out, got, at', at'', carried, rfl⟩
    · cases inside
  · rintro ⟨id, node, entered, left, out, got, at', at'', carried, rfl⟩
    refine ⟨id, node, got, input, entered, at', ?_⟩
    rw [if_pos rfl]
    simp only [mem_flatMap, Prod.exists, mk_mem_zipIdx_iff_getElem?, mem_map]
    exact ⟨out, left, at'', target, carried, rfl⟩

include mem

private theorem mem_routes_iff {last : InputId} (settled : flow.settles next bound input) :
    (visits, last) ∈ flow.routes next bound input ↔ flow.Route input visits last := by
  induction bound generalizing input visits with
  | zero => cases settled
  | succ bound ih =>
    rw [settles, all_eq_true] at settled
    simp only [routes, mem_cons, Prod.mk.injEq, mem_flatMap, Prod.exists, mem_map]
    constructor
    · rintro (⟨rfl, rfl⟩ | ⟨_, target, step, more, _, further, rfl, rfl⟩)
      · exact .here _
      · obtain ⟨id, node, entered, left, out, got, at', at'', carried, rfl⟩ := mem_steps_iff.mp step
        exact .on got at' at'' ((mem out target).mpr carried) ((ih (settled _ step)).mp further)
    · rintro (_ | ⟨got, at', at'', carried, route⟩)
      · exact .inl ⟨rfl, rfl⟩
      · have step := mem_steps_iff.mpr ⟨_, _, _, _, _, got, at', at'', (mem _ _).mp carried, rfl⟩
        exact .inr ⟨_, _, step, _, _, (ih (settled _ step)).mpr route, rfl, rfl⟩

/-- The traces that are listed are all traces. -/
theorem mem_traces_iff {starts stops : List NodeId} (settled : flow.settlesFrom next bound starts) :
    trace ∈ flow.traces next bound starts stops ↔ flow.Traces (· ∈ starts) (· ∈ stops) trace := by
  simp only [settlesFrom, all_eq_true, Prod.forall] at settled
  simp only [traces, mem_flatMap, Prod.exists, mem_map, mem_filter, decide_eq_true_eq]
  constructor
  · rintro ⟨first, left, out, exit, target, carried, visits, reached, route, last, entered,
      _, ⟨entry, rfl⟩, rfl⟩
    obtain ⟨start, one, got, at'⟩ := mem_exits_iff.mp exit
    obtain ⟨stop, two, got', at''⟩ := mem_entries_iff.mp entry
    exact ⟨first, last, one, two, out, _, start, stop, got, at', got', at'', rfl, rfl,
      target, (mem _ _).mpr carried,
      (mem_routes_iff mem (settled _ _ _ exit target carried)).mp route⟩
  · rintro ⟨first, last, one, two, out, input, start, stop, got, at', got', at'', source,
      target, between, carries, route⟩
    have exit := mem_exits_iff.mpr ⟨start, one, got, at'⟩
    have carried := (mem _ _).mp carries
    refine ⟨first, trace.left, out, exit, between, carried, trace.visits, input,
      (mem_routes_iff mem (settled _ _ _ exit between carried)).mpr route, last, trace.entered,
      input, ⟨mem_entries_iff.mpr ⟨stop, two, got', at''⟩, rfl⟩, ?_⟩
    rw [source, target]

end Flow

/-! ## Graphs -/

namespace Graph

/-- The traces of the data that a graph delivers. -/
def traces (graph : Graph) : List Trace :=
  graph.flow.traces (fun out => (graph.targets out).toList) graph.inputs.size
    graph.root.inputs graph.root.outputs

/-- The list of traces is complete. -/
def isTraced (graph : Graph) : Bool :=
  graph.flow.settlesFrom (fun out => (graph.targets out).toList) graph.inputs.size graph.root.inputs

theorem mem_traces_iff {G : Graph} (traced : G.isTraced) : trace ∈ G.traces ↔ G.Delivers trace :=
  Flow.mem_traces_iff (fun _ _ => mem_toList.symm) traced

end Graph

/-! ## Plans -/

namespace Plan

/-- The input ports that data gets to from an output port. -/
def targets (plan : Plan) (out : OutputId) : List InputId :=
  (plan.graph.targets out).toList ++ plan.wiring.outputs.toList.flatMap fun (exit, record) =>
    if record.port = out then
      (plan.wiring.targets exit).toList.filterMap fun entry =>
        (plan.wiring.entryOf entry).map Prod.snd
    else []

private theorem carries_iff (plan : Plan) :
    plan.site.Carries out input ↔ input ∈ plan.targets out := by
  rw [targets, mem_append, mem_toList]
  refine or_congr Iff.rfl ?_
  simp only [mem_flatMap, Prod.exists, HandleMap.mem_toList_iff]
  constructor
  · rintro ⟨exit, entry, source, target, wraps, wraps', linked⟩
    obtain ⟨record, got, eq⟩ := Option.map_eq_some_iff.mp wraps
    cases eq
    refine ⟨exit, record, got, ?_⟩
    rw [if_pos rfl]
    exact mem_filterMap.mpr ⟨entry, mem_toList.mpr linked,
      Option.map_eq_some_iff.mpr ⟨_, wraps', rfl⟩⟩
  · rintro ⟨exit, record, got, inside⟩
    split at inside
    · next eq =>
      subst eq
      obtain ⟨entry, linked, wraps⟩ := mem_filterMap.mp inside
      obtain ⟨⟨target, _⟩, wraps', rfl⟩ := Option.map_eq_some_iff.mp wraps
      exact ⟨exit, entry, record.block, target, Option.map_eq_some_iff.mpr ⟨record, got, rfl⟩,
        wraps', mem_toList.mp linked⟩
    · cases inside

/-- The traces of the data that a plan delivers. -/
def traces (plan : Plan) : List Trace :=
  plan.flow.traces plan.targets plan.graph.inputs.size plan.input.nodes.toList
    plan.output.nodes.toList

/-- The list of traces is complete. -/
def isTraced (plan : Plan) : Bool :=
  plan.flow.settlesFrom plan.targets plan.graph.inputs.size plan.input.nodes.toList

theorem mem_traces_iff {plan : Plan} (traced : plan.isTraced) :
    trace ∈ plan.traces ↔ plan.Delivers trace := by
  rw [traces, Flow.mem_traces_iff (fun _ _ => plan.carries_iff) traced, Delivers]
  simp only [mem_toList]

end Plan

end Staging
