import Staging.Proofs.Walks

/-! # Routes of data

Data flows from output ports to input ports and crosses nodes from an input
port to an output port. What a flow does is told by traces: the node at which
data starts, the nodes that it visits and the node at which it arrives, each
with the positions of the ports. Identities and stage boundaries do nothing and
are left out of a trace.
-/

namespace Staging

open Relation List

variable {id : NodeId} {more : List Visit} {second : OutputId} {start' stop' : NodeId → Prop}
  {middle last : InputId} {visits : List Visit}

/-- Data entered a node through one port and left it through another, given by
their positions. -/
structure Visit where
  node : NodeId
  entered : Nat
  left : Nat
deriving DecidableEq

/-- What data meets between two nodes: where it leaves the one, which nodes it
visits, and where it enters the other. -/
structure Trace where
  source : NodeId
  left : Nat
  visits : List Visit
  target : NodeId
  entered : Nat
deriving DecidableEq

/-- Nodes, which output ports carry data to which input ports, and the names of
nodes in traces. -/
structure Flow where
  graph : Graph
  carries : OutputId → InputId → Prop
  name : NodeId → NodeId

/-- The node only passes data on. -/
def Node.isSilent (node : Node) : Bool :=
  node.isIdentity || node.isStageBoundary

namespace Flow

variable (flow : Flow)

/-- The visit of a node, if it is not silent. -/
def visit (id : NodeId) (node : Node) (entered left : Nat) : List Visit :=
  if node.isSilent then [] else [⟨flow.name id, entered, left⟩]

/-- Data that arrives at the first port can go on to the second, with these visits. -/
inductive Route : InputId → List Visit → InputId → Prop where
  | here (input : InputId) : Route input [] input
  | on {id : NodeId} {node : Node} {entered left : Nat} {input next last : InputId}
      {output : OutputId} {visits : List Visit} :
      flow.graph.nodes[id]? = some node → node.inputs[entered]? = some input →
      node.outputs[left]? = some output → flow.carries output next → Route next visits last →
      Route input (flow.visit id node entered left ++ visits) last

/-- Data that leaves the output port arrives at the input port, with these visits. -/
def Delivers (out : OutputId) (visits : List Visit) (input : InputId) : Prop :=
  ∃ next, flow.carries out next ∧ flow.Route next visits input

/-- There is data with this trace from a node that may start to one that may stop. -/
def Traces (start stop : NodeId → Prop) (trace : Trace) : Prop :=
  ∃ first last one two out input, start first ∧ stop last ∧
    flow.graph.nodes[first]? = some one ∧ one.outputs[trace.left]? = some out ∧
    flow.graph.nodes[last]? = some two ∧ two.inputs[trace.entered]? = some input ∧
    flow.name first = trace.source ∧ flow.name last = trace.target ∧
    flow.Delivers out trace.visits input

variable {flow} {first : InputId} {node : Node} {out : OutputId}

theorem Route.append (route : flow.Route first visits middle)
    (rest : flow.Route middle more last) : flow.Route first (visits ++ more) last := by
  induction route with
  | here => exact rest
  | on got input out carries _ ih =>
    rw [append_assoc]
    exact .on got input out carries (ih rest)

/-- Data that arrives at a node goes on behind it. -/
theorem Delivers.through {first : OutputId}
    {entered left : Nat} (got : flow.graph.nodes[id]? = some node)
    (input : node.inputs[entered]? = some middle) (out : node.outputs[left]? = some second)
    (one : flow.Delivers first visits middle) (two : flow.Delivers second more last) :
    flow.Delivers first (visits ++ (flow.visit id node entered left ++ more)) last := by
  obtain ⟨next, carries, route⟩ := one
  obtain ⟨next', carries', route'⟩ := two
  exact ⟨next, carries, route.append (.on got input out carries' route')⟩

/-- What is visited is a node. -/
theorem Route.exists_node (route : flow.Route first visits last) {visit : Visit}
    (visited : visit ∈ visits) :
    ∃ id node, flow.graph.nodes[id]? = some node ∧ flow.name id = visit.node := by
  induction route with
  | here => cases visited
  | @on id node entered left _ _ _ _ visits got _ _ _ _ ih =>
    rcases mem_append.mp visited with here | later
    · rw [Flow.visit] at here
      split at here
      · cases here
      · exact ⟨id, node, got, by rw [mem_singleton.mp here]⟩
    · exact ih later

/-- Data goes on through a silent node. -/
def Hops (flow : Flow) (input next : InputId) : Prop :=
  ∃ (id : NodeId) (node : Node) (out : OutputId), flow.graph.nodes[id]? = some node ∧
    node.isSilent = true ∧ input ∈ node.inputs ∧ out ∈ node.outputs ∧ flow.carries out next

/-- Data gets from an output port to an input port through silent nodes only. -/
def Reaches (flow : Flow) (out : OutputId) (input : InputId) : Prop :=
  ∃ next, flow.carries out next ∧ ReflTransGen flow.Hops next input

theorem Reaches.of_carries {input : InputId}
    (carries : flow.carries out input) : flow.Reaches out input :=
  ⟨input, carries, .refl⟩

theorem Reaches.trans {first : OutputId} {entered : InputId}
    (got : flow.graph.nodes[id]? = some node) (silent : node.isSilent)
    (input : entered ∈ node.inputs) (out : second ∈ node.outputs)
    (one : flow.Reaches first entered) (two : flow.Reaches second last) :
    flow.Reaches first last := by
  obtain ⟨next, carries, led⟩ := one
  obtain ⟨next', carries', led'⟩ := two
  exact ⟨next, carries, (led.tail ⟨id, node, second, got, silent, input, out, carries'⟩).trans led'⟩

theorem Route.of_hops (route : flow.Route middle visits last)
    (hops : ReflTransGen flow.Hops first middle) : flow.Route first visits last := by
  induction hops using ReflTransGen.head_induction_on with
  | refl => exact route
  | head hop _ ih =>
    obtain ⟨id, node, output, got, silent, input, out, carries⟩ := hop
    obtain ⟨entered, at'⟩ := mem_iff_getElem?.mp input
    obtain ⟨left, at''⟩ := mem_iff_getElem?.mp out
    have step := Route.on got at' at'' carries ih
    rwa [visit, if_pos silent, nil_append] at step

theorem Route.delivers (route : flow.Route middle visits last)
    (reaches : flow.Reaches out middle) : flow.Delivers out visits last := by
  obtain ⟨next, carries, hops⟩ := reaches
  exact ⟨next, carries, route.of_hops hops⟩

/-! ## Changes that keep traces -/

variable {pre post : Flow} {start stop : NodeId → Prop} {trace : Trace}

/-- No data gets into the node. -/
def Unfed (flow : Flow) (node : Node) : Prop :=
  ∀ input ∈ node.inputs, ∀ out, ¬ flow.carries out input

/-- No data gets out of the node. -/
def Unused (flow : Flow) (node : Node) : Prop :=
  ∀ out ∈ node.outputs, ∀ input, ¬ flow.carries out input

/-- Nodes are taken away without any data between a start and a stop. -/
structure Trimmed (pre post : Flow) (start stop : NodeId → Prop) : Prop where
  name : post.name = pre.name
  nodes : ∀ (id : NodeId) (node : Node), pre.graph.nodes[id]? = some node →
    post.graph.nodes[id]? = some node ∨ pre.Unfed node ∧ pre.Unused node ∨
      pre.Unfed node ∧ ¬ start id ∨ pre.Unused node ∧ ¬ stop id
  carries : ∀ output input, pre.carries output input →
    (∃ (id : NodeId) (node : Node), post.graph.nodes[id]? = some node ∧ output ∈ node.outputs) →
    (∃ (id : NodeId) (node : Node), post.graph.nodes[id]? = some node ∧ input ∈ node.inputs) →
    post.carries output input

section Trimmed

variable (trimmed : Trimmed pre post start stop)

include trimmed

/-- A node that data gets into and out of is still there. -/
private theorem Trimmed.stays (got : pre.graph.nodes[id]? = some node)
    (fed : start id ∨ ¬ pre.Unfed node) (used : stop id ∨ ¬ pre.Unused node)
    (either : ¬ pre.Unfed node ∨ ¬ pre.Unused node) : post.graph.nodes[id]? = some node := by
  rcases trimmed.nodes id node got with kept | loose | unfed | unused
  · exact kept
  · exact (either.elim (· loose.1) (· loose.2)).elim
  · exact (fed.elim unfed.2 (· unfed.1)).elim
  · exact (used.elim unused.2 (· unused.1)).elim

private theorem Trimmed.route (route : pre.Route first visits last) (stops : stop id)
    (got : pre.graph.nodes[id]? = some node) (own : last ∈ node.inputs)
    (carries : pre.carries out first) :
    post.Route first visits last ∧ post.graph.nodes[id]? = some node ∧
      ∃ (owner : NodeId) (record : Node),
        post.graph.nodes[owner]? = some record ∧ first ∈ record.inputs := by
  induction route generalizing out with
  | here =>
    have fed : ¬ pre.Unfed node := fun unfed => unfed _ own _ carries
    have kept := trimmed.stays got (.inr fed) (.inl stops) (.inl fed)
    exact ⟨.here _, kept, id, node, kept, own⟩
  | @on owner record entered left input next last port visits got' entered' left' carries' _ ih =>
    obtain ⟨route, last, fed⟩ := ih own carries'
    have inside := mem_of_getElem? entered'
    have outside := mem_of_getElem? left'
    have fed' : ¬ pre.Unfed record := fun unfed => unfed _ inside _ carries
    have used : ¬ pre.Unused record := fun unused => unused _ outside _ carries'
    have kept := trimmed.stays got' (.inr fed') (.inr used) (.inl fed')
    have eq : pre.visit owner record entered left = post.visit owner record entered left := by
      rw [visit, visit, trimmed.name]
    rw [eq]
    exact ⟨.on kept entered' left' (trimmed.carries _ _ carries' ⟨owner, record, kept, outside⟩
      fed) route, last, owner, record, kept, inside⟩

theorem Trimmed.traces (traces : pre.Traces start stop trace) : post.Traces start stop trace := by
  obtain ⟨first, last, one, two, out, input, starts, stops, got, left, got', entered,
    source, target, next, carries, route⟩ := traces
  have outside := mem_of_getElem? left
  have used : ¬ pre.Unused one := fun unused => unused _ outside _ carries
  have kept := trimmed.stays got (.inl starts) (.inr used) (.inr used)
  obtain ⟨route', kept', fed⟩ := trimmed.route route stops got' (mem_of_getElem? entered) carries
  exact ⟨first, last, one, two, out, input, starts, stops, kept, left, kept', entered,
    by rw [trimmed.name, source], by rw [trimmed.name, target], next,
    trimmed.carries _ _ carries ⟨first, one, kept, outside⟩ fed, route'⟩

end Trimmed

/-- Ports are mapped to ports in the same positions of nodes with the same names,
and what is carried still gets there. -/
structure Folded (pre post : Flow) (start stop start' stop' : NodeId → Prop)
    (node : NodeId → NodeId) (input : InputId → InputId) (output : OutputId → OutputId) :
    Prop where
  nodes : ∀ id record, pre.graph.nodes[id]? = some record →
    ∃ image, post.graph.nodes[node id]? = some image ∧
      image.inputs = record.inputs.map input ∧ image.outputs = record.outputs.map output ∧
      image.isSilent = record.isSilent ∧ post.name (node id) = pre.name id ∧
      (start id → start' (node id)) ∧ (stop id → stop' (node id))
  carries : ∀ source target, pre.carries source target → post.Reaches (output source) (input target)

theorem Folded.traces {node : NodeId → NodeId}
    {input : InputId → InputId} {out : OutputId → OutputId}
    (folded : Folded pre post start stop start' stop' node input out)
    (traces : pre.Traces start stop trace) : post.Traces start' stop' trace := by
  have routes : ∀ {first last : InputId} {visits : List Visit}, pre.Route first visits last →
      post.Route (input first) visits (input last) := by
    intro first last visits route
    induction route with
    | here => exact .here _
    | @on id record entered left _ _ _ _ visits got entered' left' carries _ ih =>
      obtain ⟨image, got', inputs, outputs, silent, name, -⟩ := folded.nodes id record got
      have eq : pre.visit id record entered left = post.visit (node id) image entered left := by
        rw [visit, visit, silent, name]
      rw [eq]
      obtain ⟨between, carries', hops⟩ := folded.carries _ _ carries
      refine .on got' ?_ ?_ carries' (ih.of_hops hops)
      · rw [inputs, getElem?_map, entered', Option.map_some]
      · rw [outputs, getElem?_map, left', Option.map_some]
  obtain ⟨first, last, one, two, port, port', starts, stops, got, left, got', entered,
    source, target, next, carries, route⟩ := traces
  obtain ⟨image, stored, -, outputs, -, name, starts', -⟩ := folded.nodes first one got
  obtain ⟨image', stored', inputs, -, -, name', -, stops'⟩ := folded.nodes last two got'
  refine ⟨node first, node last, image, image', out port, input port', starts' starts,
    stops' stops, stored, ?_, stored', ?_, name.trans source, name'.trans target,
    (routes route).delivers (folded.carries _ _ carries)⟩
  · rw [outputs, getElem?_map, left, Option.map_some]
  · rw [inputs, getElem?_map, entered, Option.map_some]

/-- More data between the same nodes has all traces from before. -/
theorem Traces.imp (traces : pre.Traces start stop trace) (eq : post.graph = pre.graph)
    (carries : ∀ out input, pre.carries out input → post.carries out input)
    (names : ∀ id node, pre.graph.nodes[id]? = some node → post.name id = pre.name id)
    (starts : ∀ id node, pre.graph.nodes[id]? = some node → start id → start' id)
    (stops : ∀ id node, pre.graph.nodes[id]? = some node →
      pre.name id = trace.target → stop id → stop' id) :
    post.Traces start' stop' trace := by
  obtain ⟨first, last, one, two, out, input, starts', stops', got, left, got', entered,
    source, target, rest⟩ := traces
  have folded : Folded pre post start (fun id => stop id ∧ pre.name id = trace.target)
      start' stop' id id id := by
    refine ⟨fun id record got => ⟨record, eq ▸ got, (map_id _).symm,
      (map_id _).symm, rfl, names id record got, starts id record got,
      fun stops' => stops id record got stops'.2 stops'.1⟩,
      fun source target carried => .of_carries (carries source target carried)⟩
  exact folded.traces ⟨first, last, one, two, out, input, starts', ⟨stops', target⟩, got, left,
    got', entered, source, target, rest⟩

/-- What a silent node passes on goes past it. -/
structure Bypassed (pre post : Flow) (id : NodeId) (entry : InputId) (exit : OutputId) :
    Prop where
  graph : post.graph = pre.graph
  name : post.name = pre.name
  node : ∃ node, pre.graph.nodes[id]? = some node ∧ node.inputs = [entry] ∧
    node.outputs = [exit] ∧ node.isSilent = true
  entryOwned : ∀ other node, pre.graph.nodes[other]? = some node → entry ∈ node.inputs → other = id
  exitOwned : ∀ other node, pre.graph.nodes[other]? = some node → exit ∈ node.outputs → other = id
  carries : ∀ output input, output ≠ exit → input ≠ entry →
    pre.carries output input ∨ pre.carries output entry ∧ pre.carries exit input →
    post.carries output input

section Bypassed

variable {entry : InputId} {exit : OutputId} (bypassed : Bypassed pre post id entry exit)

include bypassed

private theorem Bypassed.route (route : pre.Route first visits last) (apart : last ≠ entry) :
    (first ≠ entry → post.Route first visits last) ∧
      (first = entry → ∃ next, next ≠ entry ∧ pre.carries exit next ∧
        post.Route next visits last) := by
  obtain ⟨node, got, inputs, outputs, silent⟩ := bypassed.node
  induction route with
  | here => exact ⟨fun _ => .here _, fun eq => (apart eq).elim⟩
  | @on owner record entered left input next last port visits got' entered' left' carries _ ih =>
    obtain ⟨past, through⟩ := ih apart
    have inside := mem_of_getElem? entered'
    have outside := mem_of_getElem? left'
    refine ⟨fun ne => ?_, fun eq => ?_⟩
    · have ne' : port ≠ exit := by
        rintro rfl
        obtain rfl := bypassed.exitOwned owner record got' outside
        rw [got] at got'
        cases got'
        rw [inputs, mem_singleton] at inside
        exact ne inside
      have eq : pre.visit owner record entered left = post.visit owner record entered left := by
        rw [visit, visit, bypassed.name]
      rw [eq]
      have got'' : post.graph.nodes[owner]? = some record := by rw [bypassed.graph, got']
      by_cases jump : next = entry
      · obtain ⟨beyond, ne'', carries', route⟩ := through jump
        exact .on got'' entered' left' (bypassed.carries _ _ ne' ne''
          (.inr ⟨jump ▸ carries, carries'⟩)) route
      · exact .on got'' entered' left' (bypassed.carries _ _ ne' jump (.inl carries)) (past jump)
    · subst eq
      obtain rfl := bypassed.entryOwned owner record got' inside
      rw [got] at got'
      cases got'
      rw [outputs, mem_singleton] at outside
      subst outside
      rw [visit, if_pos silent, nil_append]
      by_cases jump : next = input
      · exact through jump
      · exact ⟨next, jump, carries, past jump⟩

theorem Bypassed.traces (starts : ¬ start id) (stops : ¬ stop id)
    (traces : pre.Traces start stop trace) : post.Traces start stop trace := by
  obtain ⟨first, last, one, two, out, input, starts', stops', got, left, got', entered,
    source, target, next, carries, route⟩ := traces
  have ne : out ≠ exit := by
    rintro rfl
    exact starts (bypassed.exitOwned first one got (mem_of_getElem? left) ▸ starts')
  have apart : input ≠ entry := by
    rintro rfl
    exact stops (bypassed.entryOwned last two got' (mem_of_getElem? entered) ▸ stops')
  obtain ⟨past, through⟩ := bypassed.route route apart
  refine ⟨first, last, one, two, out, input, starts', stops', by rw [bypassed.graph, got],
    left, by rw [bypassed.graph, got'], entered, by rw [bypassed.name, source],
    by rw [bypassed.name, target], ?_⟩
  by_cases jump : next = entry
  · obtain ⟨beyond, ne', carries', route⟩ := through jump
    exact ⟨beyond, bypassed.carries _ _ ne ne' (.inr ⟨jump ▸ carries, carries'⟩), route⟩
  · exact ⟨next, bypassed.carries _ _ ne jump (.inl carries), past jump⟩

end Bypassed

end Flow

end Staging
