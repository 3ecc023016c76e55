import Staging.Graph.Reach
import Staging.Proofs.Handles
import Staging.Proofs.Loops

/-! # Graphs whose two ends agree

A graph keeps each port with its node and each connection at both of its ends.
In a consistent graph the ports of the nodes are those that name the node as
their owner, the two ends of each connection agree, and all handles are smaller
than the next one. Every operation on a consistent graph is described here by
what it does to the nodes, to the owners of ports and to the connections.
-/

namespace Staging

open Std List ExtTreeSet HandleMap

variable {pre post : Graph} {id' : NodeId} {node' : Node} {pairs : List (OutputId × InputId)}
  {owner : NodeId} {source : OutputId} {target : InputId}

namespace Graph

/-- The output port feeds the input port. -/
def Feeds (graph : Graph) (out : OutputId) (input : InputId) : Prop :=
  input ∈ graph.targets out

/-- Ports, nodes and connections agree with each other. -/
structure Consistent (graph : Graph) : Prop where
  nodeBelow : ∀ (id : NodeId) node, graph.nodes[id]? = some node → id.raw < graph.next
  inputBelow : ∀ port owner, graph.inputOwner? port = some owner → port.raw < graph.next
  outputBelow : ∀ port owner, graph.outputOwner? port = some owner → port.raw < graph.next
  inputOwner : ∀ port owner, graph.inputOwner? port = some owner ↔
    ∃ node : Node, graph.nodes[owner]? = some node ∧ port ∈ node.inputs
  outputOwner : ∀ port owner, graph.outputOwner? port = some owner ↔
    ∃ node : Node, graph.nodes[owner]? = some node ∧ port ∈ node.outputs
  inputsNodup : ∀ (id : NodeId) node, graph.nodes[id]? = some node → node.inputs.Nodup
  outputsNodup : ∀ (id : NodeId) node, graph.nodes[id]? = some node → node.outputs.Nodup
  agree : ∀ output input, graph.Feeds output input ↔ output ∈ graph.sources input

/-- The two graphs have the same nodes and ports; connections may differ. -/
structure SamePorts (pre post : Graph) : Prop where
  next : post.next = pre.next
  root : post.root = pre.root
  nodes : post.nodes = pre.nodes
  inputOwner : ∀ port, post.inputOwner? port = pre.inputOwner? port
  outputOwner : ∀ port, post.outputOwner? port = pre.outputOwner? port

/-- No change keeps all ports. -/
theorem SamePorts.refl (G : Graph) : SamePorts G G := ⟨rfl, rfl, rfl, fun _ => rfl, fun _ => rfl⟩

/-- Two changes that keep all ports. -/
theorem SamePorts.trans {first second third : Graph} (one : SamePorts first second)
    (two : SamePorts second third) : SamePorts first third :=
  ⟨two.next.trans one.next, two.root.trans one.root, two.nodes.trans one.nodes,
    fun port => (two.inputOwner port).trans (one.inputOwner port),
    fun port => (two.outputOwner port).trans (one.outputOwner port)⟩

/-- The endpoints may be listed anew. -/
theorem Consistent.enlist {G : Graph} (wf : G.Consistent) (root : Scope) :
    Consistent { G with root } :=
  ⟨wf.nodeBelow, wf.inputBelow, wf.outputBelow, wf.inputOwner,
    wf.outputOwner, wf.inputsNodup, wf.outputsNodup, wf.agree⟩

/-- One side of the ports of the nodes: each belongs to the node that lists it. -/
structure Side (nodes : HandleMap .node Node) (next : Nat) {role : Role}
    (ports : Node → List (Handle role)) (owner? : Handle role → Option NodeId) : Prop where
  below : ∀ port owner, owner? port = some owner → port.raw < next
  owned : ∀ port owner, owner? port = some owner ↔
    ∃ node, nodes[owner]? = some node ∧ port ∈ ports node
  nodup : ∀ (id : NodeId) node, nodes[id]? = some node → (ports node).Nodup

namespace Side

variable {nodes nodes' : HandleMap .node Node} {next next' : Nat} {role : Role}
  {ports : Node → List (Handle role)} {owner? owner?' : Handle role → Option NodeId}
  {id : NodeId} {node : Node} {port : Handle role} (side : Side nodes next ports owner?)

include side

/-- A port belongs to the node that lists it. -/
theorem of_mem (got : nodes[id]? = some node) (mem : port ∈ ports node) : owner? port = some id :=
  (side.owned port id).mpr ⟨node, got, mem⟩

/-- A node lists the ports that belong to it. -/
theorem mem_iff (got : nodes[id]? = some node) : port ∈ ports node ↔ owner? port = some id := by
  refine ⟨side.of_mem got, fun owned => ?_⟩
  obtain ⟨other, got', mem⟩ := (side.owned port id).mp owned
  rw [got] at got'
  cases got'
  exact mem

/-- Ports to come belong to no node. -/
theorem eq_none_of_le (le : next ≤ port.raw) : owner? port = none := by
  cases owned : owner? port with
  | none => rfl
  | some owner => exact absurd (side.below port owner owned) (Nat.not_lt_of_le le)

/-- The ports of a node that goes go with it. -/
theorem erase (got : nodes[id]? = some node)
    (eq : ∀ other : NodeId, nodes'[other]? = if other = id then none else nodes[other]?)
    (owner : ∀ port, owner?' port = if port ∈ ports node then none else owner? port) :
    Side nodes' next ports owner?' where
  below port taken owned := by
    rw [owner] at owned
    split at owned
    · cases owned
    · exact side.below port taken owned
  owned port taken := by
    rw [owner, eq]
    by_cases own : port ∈ ports node
    · have owned := side.of_mem got own
      refine ⟨fun none => by simp [own] at none, ?_⟩
      rintro ⟨other, got', mem⟩
      split at got'
      · cases got'
      · next ne => exact (ne (Option.mem_unique (side.of_mem got' mem) owned)).elim
    · rw [if_neg own]
      split
      · next same =>
        subst same
        simp [← side.mem_iff got, own]
      · exact side.owned port taken
  nodup other record got' := by
    rw [eq] at got'
    split at got'
    · cases got'
    · exact side.nodup other record got'

/-- A node that comes brings ports of its own. -/
theorem insert (absent : nodes[(⟨next⟩ : NodeId)]? = none)
    (eq : ∀ other : NodeId, nodes'[other]? = if other = ⟨next⟩ then some node else nodes[other]?)
    (owner : ∀ port, owner?' port = if port ∈ ports node then some ⟨next⟩ else owner? port)
    (le : next ≤ next') (new : ∀ port ∈ ports node, next ≤ port.raw ∧ port.raw < next')
    (nodup : (ports node).Nodup) : Side nodes' next' ports owner?' where
  below port taken owned := by
    rw [owner] at owned
    split at owned
    · next own => exact (new port own).2
    · exact Nat.lt_of_lt_of_le (side.below port taken owned) le
  owned port taken := by
    rw [owner, eq]
    by_cases here : taken = ⟨next⟩
    · subst here
      simp only [↓reduceIte, Option.some.injEq, exists_eq_left']
      refine ⟨fun owned => ?_, fun own => if_pos own⟩
      split at owned
      · assumption
      · obtain ⟨record, got, -⟩ := (side.owned port _).mp owned
        cases absent.symm.trans got
    · rw [if_neg here, ← side.owned]
      split
      · next own => simp [Ne.symm here, side.eq_none_of_le (new port own).1]
      · rfl
  nodup other record got := by
    rw [eq] at got
    split at got
    · cases got
      exact nodup
    · exact side.nodup other record got

end Side

private theorem Consistent.of_sides {G : Graph}
    (nodeBelow : ∀ (id : NodeId) node, G.nodes[id]? = some node → id.raw < G.next)
    (ins : Side G.nodes G.next Node.inputs G.inputOwner?)
    (outs : Side G.nodes G.next Node.outputs G.outputOwner?)
    (agree : ∀ out input, G.Feeds out input ↔ out ∈ G.sources input) : G.Consistent :=
  ⟨nodeBelow, ins.below, outs.below, ins.owned, outs.owned, ins.nodup, outs.nodup, agree⟩

private theorem targets_eq (G : Graph) (out : OutputId) :
    G.targets out = G.outputs.linksOf OutputPort.connected out := by
  rw [targets, linksOf]
  cases G.outputs[out]? <;> rfl

private theorem sources_eq (G : Graph) (input : InputId) :
    G.sources input = G.inputs.linksOf InputPort.connected input := by
  rw [sources, linksOf]
  cases G.inputs[input]? <;> rfl

/-- What feeds a port belongs to a node. -/
theorem exists_outputOwner_of_feeds {G : Graph} {out : OutputId} {input : InputId}
    (feeds : G.Feeds out input) : ∃ owner, G.outputOwner? out = some owner := by
  rw [Feeds, targets_eq] at feeds
  exact view_of_mem_linksOf _ feeds

/-- A node that is returned is stored. -/
theorem node_eq_ok {G : Graph} {id : NodeId} {node : Node}
    (run : G.node id = .ok node) : G.nodes[id]? = some node := by
  rw [Graph.node] at run
  split at run
  · next got =>
    cases run
    exact got
  · cases run

namespace Consistent

variable {G : Graph} (wf : G.Consistent)

include wf

/-- The side of the input ports. -/
theorem inputSide : Side G.nodes G.next Node.inputs G.inputOwner? :=
  ⟨wf.inputBelow, wf.inputOwner, wf.inputsNodup⟩

/-- The side of the output ports. -/
theorem outputSide : Side G.nodes G.next Node.outputs G.outputOwner? :=
  ⟨wf.outputBelow, wf.outputOwner, wf.outputsNodup⟩

/-- Only the connections are left to check when nodes and ports stay. -/
theorem of_samePorts (eq : SamePorts G post)
    (agree : ∀ out input, post.Feeds out input ↔ out ∈ post.sources input) :
    post.Consistent := by
  refine .of_sides ?_ ?_ ?_ agree
  · rw [eq.nodes, eq.next]
    exact wf.nodeBelow
  · rw [eq.nodes, eq.next, funext eq.inputOwner]
    exact wf.inputSide
  · rw [eq.nodes, eq.next, funext eq.outputOwner]
    exact wf.outputSide

/-- What is fed belongs to a node. -/
theorem exists_inputOwner {out : OutputId} {input : InputId}
    (feeds : G.Feeds out input) : ∃ owner, G.inputOwner? input = some owner :=
  view_of_mem_linksOf _ (G.sources_eq input ▸ (wf.agree out input).mp feeds)

variable {id : NodeId} {node : Node} {input : InputId} {output : OutputId}

/-- The owner of an input lists it. -/
theorem node_of_input (owned : G.inputOwner? input = some owner) :
    ∃ node, G.nodes[owner]? = some node ∧ input ∈ node.inputs :=
  (wf.inputOwner input owner).mp owned

/-- The owner of an output lists it. -/
theorem node_of_output (owned : G.outputOwner? output = some owner) :
    ∃ node, G.nodes[owner]? = some node ∧ output ∈ node.outputs :=
  (wf.outputOwner output owner).mp owned

/-- What is stored has been created. -/
theorem early (got : G.nodes[id]? = some node) : id.raw < G.next := wf.nodeBelow id node got

/-- Owners of inputs have been created. -/
theorem early_of_input (owned : G.inputOwner? input = some owner) : owner.raw < G.next := by
  obtain ⟨node, got, -⟩ := wf.node_of_input owned
  exact wf.early got

/-- Owners of outputs have been created. -/
theorem early_of_output (owned : G.outputOwner? output = some owner) : owner.raw < G.next := by
  obtain ⟨node, got, -⟩ := wf.node_of_output owned
  exact wf.early got

/-- No node has the next handle. -/
theorem node_ne (got : G.nodes[id]? = some node) : id ≠ ⟨G.next⟩ := by
  rintro rfl
  exact Nat.lt_irrefl _ (wf.early got)

/-- A listed input names its node. -/
theorem input_of_mem (got : G.nodes[id]? = some node) (mem : input ∈ node.inputs) :
    G.inputOwner? input = some id :=
  wf.inputSide.of_mem got mem

/-- A listed output names its node. -/
theorem output_of_mem (got : G.nodes[id]? = some node) (mem : output ∈ node.outputs) :
    G.outputOwner? output = some id :=
  wf.outputSide.of_mem got mem

/-- A port belongs to one node. -/
theorem input_unique (got : G.nodes[id]? = some node) (own : input ∈ node.inputs)
    (got' : G.nodes[id']? = some node') (own' : input ∈ node'.inputs) : id = id' :=
  Option.mem_unique (wf.input_of_mem got own) (wf.input_of_mem got' own')

/-- So does an output port. -/
theorem output_unique (got : G.nodes[id]? = some node) (own : output ∈ node.outputs)
    (got' : G.nodes[id']? = some node') (own' : output ∈ node'.outputs) : id = id' :=
  Option.mem_unique (wf.output_of_mem got own) (wf.output_of_mem got' own')

/-- A node lists the inputs that name it. -/
theorem mem_inputs_iff (got : G.nodes[id]? = some node) :
    input ∈ node.inputs ↔ G.inputOwner? input = some id :=
  wf.inputSide.mem_iff got

/-- A node lists the outputs that name it. -/
theorem mem_outputs_iff (got : G.nodes[id]? = some node) :
    output ∈ node.outputs ↔ G.outputOwner? output = some id :=
  wf.outputSide.mem_iff got

end Consistent

/-! ## Single connections -/

section Connections

variable (G : Graph) (out : OutputId) (input : InputId)

/-- A connection changes no ports. -/
theorem samePorts_insertConnection : SamePorts G (G.insertConnection out input) :=
  ⟨rfl, rfl, rfl, fun _ => view_modify fun _ => rfl, fun _ => view_modify fun _ => rfl⟩

/-- Cutting one changes no ports. -/
theorem samePorts_eraseConnection : SamePorts G (G.eraseConnection out input) :=
  ⟨rfl, rfl, rfl, fun _ => view_modify fun _ => rfl, fun _ => view_modify fun _ => rfl⟩

variable {G out input}

/-- A connection is made. -/
theorem feeds_insertConnection (owned : G.outputOwner? out = some owner) :
    (G.insertConnection out input).Feeds source target ↔
      G.Feeds source target ∨ source = out ∧ target = input := by
  rw [Feeds, Feeds, targets_eq, targets_eq]
  exact mem_linksOf_modify_insert owned fun _ => rfl

/-- A connection is cut. -/
theorem feeds_eraseConnection : (G.eraseConnection out input).Feeds source target ↔
    G.Feeds source target ∧ ¬ (source = out ∧ target = input) := by
  rw [Feeds, Feeds, targets_eq, targets_eq]
  exact mem_linksOf_modify_erase fun _ => rfl

/-- A connection between ports that exist keeps a graph consistent. -/
theorem Consistent.insertConnection (wf : G.Consistent) {giver taker : NodeId}
    (given : G.outputOwner? out = some giver) (taken : G.inputOwner? input = some taker) :
    (G.insertConnection out input).Consistent := by
  refine wf.of_samePorts (samePorts_insertConnection G out input) fun source target => ?_
  rw [feeds_insertConnection given, wf.agree, and_comm, sources_eq, sources_eq, iff_comm]
  exact mem_linksOf_modify_insert taken fun _ => rfl

/-- Cutting keeps a graph consistent. -/
theorem Consistent.eraseConnection (wf : G.Consistent) :
    (G.eraseConnection out input).Consistent := by
  refine wf.of_samePorts (samePorts_eraseConnection G out input) fun source target => ?_
  rw [feeds_eraseConnection, wf.agree, and_comm (a := source = out), sources_eq, sources_eq,
    iff_comm]
  exact mem_linksOf_modify_erase fun _ => rfl

end Connections

/-! ## Many connections -/

/-- The graph with all listed connections more. -/
def connectPairs (graph : Graph) (pairs : List (OutputId × InputId)) : Graph :=
  pairs.foldl (fun graph pair => graph.insertConnection pair.1 pair.2) graph

/-- The graph without all listed connections. -/
def disconnectPairs (graph : Graph) (pairs : List (OutputId × InputId)) : Graph :=
  pairs.foldl (fun graph pair => graph.eraseConnection pair.1 pair.2) graph

/-- Both ports of a connection exist. -/
def Joinable (graph : Graph) (pair : OutputId × InputId) : Prop :=
  (∃ owner, graph.outputOwner? pair.1 = some owner) ∧ ∃ owner, graph.inputOwner? pair.2 = some owner

private theorem SamePorts.joinable_iff (eq : SamePorts pre post)
    {pair : OutputId × InputId} : post.Joinable pair ↔ pre.Joinable pair := by
  simp only [Joinable, eq.inputOwner, eq.outputOwner]

/-- Connections change no ports. -/
theorem samePorts_connectPairs (G : Graph) (pairs : List (OutputId × InputId)) :
    SamePorts G (G.connectPairs pairs) :=
  foldl_keeps (fun _ post => SamePorts G post)
    (fun _ _ _ eq => eq.trans (samePorts_insertConnection _ _ _)) (.refl G)

/-- All listed connections are made. -/
theorem feeds_connectPairs {G : Graph}
    (joinable : ∀ pair ∈ pairs, G.Joinable pair) {out : OutputId} {input : InputId} :
    (G.connectPairs pairs).Feeds out input ↔ G.Feeds out input ∨ (out, input) ∈ pairs := by
  induction pairs generalizing G with
  | nil => simp [connectPairs]
  | cons pair rest ih =>
    obtain ⟨⟨owner, owned⟩, -⟩ := joinable pair (.head _)
    have later : ∀ other ∈ rest, (G.insertConnection pair.1 pair.2).Joinable other :=
      fun other mem => (samePorts_insertConnection _ _ _).joinable_iff.mpr
        (joinable other (.tail _ mem))
    rw [connectPairs, foldl_cons, ← connectPairs, ih later,
      feeds_insertConnection owned, mem_cons, or_assoc, Prod.ext_iff]

/-- Connections between ports that exist keep a graph consistent. -/
theorem Consistent.connectPairs {G : Graph} (wf : G.Consistent)
    (joinable : ∀ pair ∈ pairs, G.Joinable pair) :
    (G.connectPairs pairs).Consistent := by
  induction pairs generalizing G with
  | nil => exact wf
  | cons pair rest ih =>
    obtain ⟨⟨_, given⟩, _, taken⟩ := joinable pair (.head _)
    exact ih (wf.insertConnection given taken) fun other mem =>
      (samePorts_insertConnection _ _ _).joinable_iff.mpr (joinable other (.tail _ mem))

private theorem feeds_disconnectPairs {G : Graph} {out : OutputId} {input : InputId} :
    (G.disconnectPairs pairs).Feeds out input ↔ G.Feeds out input ∧ (out, input) ∉ pairs := by
  induction pairs generalizing G with
  | nil => simp [disconnectPairs]
  | cons pair rest ih =>
    rw [disconnectPairs, foldl_cons, ← disconnectPairs, ih, feeds_eraseConnection,
      mem_cons, not_or, and_assoc, Prod.ext_iff]

private theorem Consistent.disconnectPairs {G : Graph} (wf : G.Consistent)
    (pairs : List (OutputId × InputId)) : (G.disconnectPairs pairs).Consistent :=
  foldl_keeps (fun _ (post : Graph) => post.Consistent) (fun _ _ _ kept => kept.eraseConnection) wf

/-- Ports that exist can be linked, and others cannot. -/
theorem link_eq_ok_iff {G : Graph} {out : OutputId} {input : InputId} :
    G.link out input = .ok post ↔
      G.Joinable (out, input) ∧ post = G.insertConnection out input := by
  rw [link, Graph.output, Graph.input, Joinable, outputOwner?, inputOwner?]
  cases G.outputs[out]? <;> cases G.inputs[input]? <;>
    simp [discard, Functor.mapConst, Except.map, bind, Except.bind, pure, Except.pure, eq_comm]

/-- All ports are linked with all others if they exist. -/
theorem linkAll_eq_ok_iff {G : Graph} {outputs : List OutputId} {inputs : List InputId} :
    G.linkAll outputs inputs = .ok post ↔ (∀ pair ∈ outputs.product inputs, G.Joinable pair) ∧
        post = G.connectPairs (outputs.product inputs) := by
  have all : (∀ pair ∈ outputs.product inputs, G.Joinable pair) ↔
      ∀ out ∈ outputs, ∀ input ∈ inputs, G.Joinable (out, input) := by
    simp only [product, forall_mem_flatMap, forall_mem_map]
  rw [all, linkAll, connectPairs, product, foldl_flatMap]
  refine foldlM_eq_ok_iff (fun G out => ∀ input ∈ inputs, Joinable G (out, input))
    (fun {G out _} => ?_) fun {G out other} => ?_
  · rw [foldl_map]
    exact foldlM_eq_ok_iff (fun G input => Joinable G (out, input)) link_eq_ok_iff
      (samePorts_insertConnection _ _ _).joinable_iff
  · exact forall₂_congr fun input _ =>
      (samePorts_connectPairs G (inputs.map (out, ·))).joinable_iff

/-- Ports lose their connections one after the other. -/
private theorem disconnect_spec {role : Role} (step : Graph → Handle role → Graph)
    (pairsOf : Graph → Handle role → List (OutputId × InputId))
    (own : OutputId × InputId → Handle role)
    (pairs : ∀ G port, step G port = G.disconnectPairs (pairsOf G port))
    (mem : ∀ G : Graph, G.Consistent → ∀ port out input, G.Feeds out input →
      ((out, input) ∈ pairsOf G port ↔ own (out, input) = port))
    {G : Graph} (wf : G.Consistent) (ports : List (Handle role)) :
    (ports.foldl step G).Consistent ∧ SamePorts G (ports.foldl step G) ∧
      ∀ out input, (ports.foldl step G).Feeds out input ↔
        G.Feeds out input ∧ own (out, input) ∉ ports := by
  induction ports generalizing G with
  | nil => exact ⟨wf, .refl G, by simp⟩
  | cons port rest ih =>
    obtain ⟨kept, eq, feeds⟩ := ih (wf.disconnectPairs (pairsOf G port))
    rw [foldl_cons, pairs]
    have same : SamePorts G (G.disconnectPairs (pairsOf G port)) :=
      foldl_keeps (fun _ post => SamePorts G post)
        (fun _ _ _ eq => eq.trans (samePorts_eraseConnection _ _ _)) (.refl G)
    refine ⟨kept, same.trans eq, fun out input => ?_⟩
    rw [feeds, feeds_disconnectPairs, mem_cons, not_or, and_assoc]
    exact and_congr_right fun fed => and_congr_left fun _ =>
      not_congr (mem G wf port out input fed)

private theorem feeds_disconnectInputs {G : Graph} (wf : G.Consistent) (ports : List InputId) :
    (G.disconnectInputs ports).Consistent ∧ SamePorts G (G.disconnectInputs ports) ∧
      ∀ out input, (G.disconnectInputs ports).Feeds out input ↔
        G.Feeds out input ∧ input ∉ ports := by
  refine disconnect_spec _ (fun G port => (G.sources port).toList.map (·, port)) Prod.snd
    (fun _ _ => foldl_map.symm) ?_ wf ports
  intro G wf port out input fed
  have fed := (wf.agree out input).mp fed
  simp only [mem_map, mem_toList, Prod.mk.injEq]
  grind

private theorem feeds_disconnectOutputs {G : Graph} (wf : G.Consistent) (ports : List OutputId) :
    (G.disconnectOutputs ports).Consistent ∧ SamePorts G (G.disconnectOutputs ports) ∧
      ∀ out input, (G.disconnectOutputs ports).Feeds out input ↔
        G.Feeds out input ∧ out ∉ ports := by
  refine disconnect_spec _ (fun G port => (G.targets port).toList.map (port, ·)) Prod.fst
    (fun _ _ => foldl_map.symm) ?_ wf ports
  intro G wf port out input fed
  rw [Feeds] at fed
  simp only [mem_map, mem_toList, Prod.mk.injEq]
  grind

/-! ## Removing a node -/

/-- One node has been removed, and connections may be others. -/
structure Removed (pre : Graph) (id : NodeId) (post : Graph) : Prop where
  wf : post.Consistent
  next : post.next = pre.next
  root : post.root = pre.root
  nodes : ∀ other : NodeId, post.nodes[other]? = if other = id then none else pre.nodes[other]?

namespace Removed

variable {id other : NodeId} {node : Node} (removed : Removed pre id post)

include removed

/-- What is left was there and is another node. -/
theorem nodes_old (got : post.nodes[other]? = some node) :
    other ≠ id ∧ pre.nodes[other]? = some node :=
  Option.ite_none_left_eq_some.mp ((removed.nodes other).symm.trans got)

/-- All other nodes stay. -/
theorem kept (ne : other ≠ id) : post.nodes[other]? = pre.nodes[other]? :=
  (removed.nodes other).trans (if_neg ne)

end Removed

/-- What removing a node does. -/
structure Dropped (pre : Graph) (id : NodeId) (node : Node) (post : Graph) : Prop
    extends Removed pre id post where
  inputOwner : ∀ port, post.inputOwner? port =
    if port ∈ node.inputs then none else pre.inputOwner? port
  outputOwner : ∀ port, post.outputOwner? port =
    if port ∈ node.outputs then none else pre.outputOwner? port
  feeds : ∀ output input, post.Feeds output input ↔
    pre.Feeds output input ∧ output ∉ node.outputs ∧ input ∉ node.inputs

section Drop

variable {G : Graph} (wf : G.Consistent) (node : Node)

/-- The graph in which a node has lost its connections but is still there. -/
private def loosened (graph : Graph) (node : Node) : Graph :=
  (graph.disconnectInputs node.inputs).disconnectOutputs node.outputs

include wf

private theorem loosened_spec : (loosened G node).Consistent ∧ SamePorts G (loosened G node) ∧
    ∀ out input, (loosened G node).Feeds out input ↔
      G.Feeds out input ∧ out ∉ node.outputs ∧ input ∉ node.inputs := by
  obtain ⟨kept, eq, feeds⟩ := feeds_disconnectInputs wf node.inputs
  obtain ⟨kept', eq', feeds'⟩ := feeds_disconnectOutputs kept node.outputs
  refine ⟨kept', eq.trans eq', fun out input => ?_⟩
  rw [loosened, feeds', feeds, and_assoc, and_comm (a := input ∉ node.inputs)]

/-- A node of a consistent graph is removed with its ports and their connections. -/
theorem Consistent.drop {id : NodeId} {node : Node} (got : G.nodes[id]? = some node) :
    Dropped G id node (G.drop id node) := by
  obtain ⟨kept, eq, between⟩ := loosened_spec wf node
  have nodes : ∀ other, (G.drop id node).nodes[other]? =
      if other = id then none else G.nodes[other]? := by
    intro other
    change ((loosened G node).nodes.erase id)[other]? = _
    rw [getElem?_erase, eq.nodes]
    simp only [eq_comm]
  have inputOwner : ∀ port, (G.drop id node).inputOwner? port =
      if port ∈ node.inputs then none else G.inputOwner? port := fun port => by
    rw [← eq.inputOwner port]
    exact view_foldl_erase
  have outputOwner : ∀ port, (G.drop id node).outputOwner? port =
      if port ∈ node.outputs then none else G.outputOwner? port := fun port => by
    rw [← eq.outputOwner port]
    exact view_foldl_erase
  have feeds : ∀ out input, (G.drop id node).Feeds out input ↔
      G.Feeds out input ∧ out ∉ node.outputs ∧ input ∉ node.inputs := by
    intro out input
    rw [Feeds, targets_eq]
    refine mem_linksOf_foldl_erase.trans ?_
    rw [← targets_eq]
    exact (and_congr_left' (between out input)).trans (by tauto)
  refine ⟨⟨.of_sides ?_ ?_ ?_ fun out input => ?_, eq.next, eq.root, nodes⟩, inputOwner,
    outputOwner, feeds⟩
  · intro other record mem
    rw [nodes] at mem
    split at mem
    · cases mem
    · exact eq.next ▸ wf.early mem
  · exact eq.next ▸ wf.inputSide.erase got nodes inputOwner
  · exact eq.next ▸ wf.outputSide.erase got nodes outputOwner
  · rw [feeds, sources_eq]
    refine Iff.trans ?_ mem_linksOf_foldl_erase.symm
    rw [← sources_eq]
    refine Iff.trans ?_ (and_congr_left' ((between out input).symm.trans (kept.agree out input)))
    tauto

end Drop

/-! ## Creating a node -/

/-- The record of the node that a declaration creates. -/
def created (graph : Graph) (decl : NodeDecl) : Node :=
  { name := decl.name, kind := decl.kind, boundary := decl.boundary,
    observation := decl.observation
    inputs := Handle.consecutive (graph.next + 1) decl.inputs.length
    outputs := Handle.consecutive (graph.next + 1 + decl.inputs.length) decl.outputs.length }

/-- One node has been added, and connections may be others. -/
structure Added (pre : Graph) (made : Node) (post : Graph) : Prop where
  wf : post.Consistent
  root : post.root = pre.root
  nodes : ∀ other : NodeId, post.nodes[other]? =
    if other = ⟨pre.next⟩ then some made else pre.nodes[other]?

namespace Added

variable {made : Node} (added : Added pre made post)

include added

/-- The new node is there. -/
theorem new : post.nodes[(⟨pre.next⟩ : NodeId)]? = some made := (added.nodes _).trans (if_pos rfl)

/-- Each node is the new one or an old one. -/
theorem cases {id : NodeId} {node : Node} (got : post.nodes[id]? = some node) :
    id = ⟨pre.next⟩ ∧ node = made ∨ pre.nodes[id]? = some node := by
  rw [added.nodes] at got
  split at got
  · next eq => exact .inl ⟨eq, (Option.some.inj got).symm⟩
  · exact .inr got

variable (wf : pre.Consistent)

include wf

/-- Old nodes stay. -/
theorem nodes_old {id : NodeId} {node : Node} (got : pre.nodes[id]? = some node) :
    post.nodes[id]? = some node := by
  rw [added.nodes, if_neg (wf.node_ne got), got]

/-- Old inputs keep their owners. -/
theorem inputOwner_old {port : InputId} (owned : pre.inputOwner? port = some owner) :
    post.inputOwner? port = some owner := by
  obtain ⟨node, got, mem⟩ := wf.node_of_input owned
  exact added.wf.input_of_mem (added.nodes_old wf got) mem

/-- Old outputs keep their owners. -/
theorem outputOwner_old {port : OutputId} (owned : pre.outputOwner? port = some owner) :
    post.outputOwner? port = some owner := by
  obtain ⟨node, got, mem⟩ := wf.node_of_output owned
  exact added.wf.output_of_mem (added.nodes_old wf got) mem

end Added

/-- What creating a node does. -/
structure Created (pre : Graph) (decl : NodeDecl) (post : Graph) : Prop
    extends Added pre (pre.created decl) post where
  next : post.next = pre.next + 1 + decl.inputs.length + decl.outputs.length
  feeds : ∀ output input, post.Feeds output input ↔ pre.Feeds output input

/-- The inputs of a new node by number. -/
theorem mem_created_inputs {G : Graph} {decl : NodeDecl} {port : InputId} :
    port ∈ (G.created decl).inputs ↔
      G.next + 1 ≤ port.raw ∧ port.raw < G.next + 1 + decl.inputs.length :=
  Handle.mem_consecutive

/-- The outputs of a new node by number. -/
theorem mem_created_outputs {G : Graph} {decl : NodeDecl} {port : OutputId} :
    port ∈ (G.created decl).outputs ↔ G.next + 1 + decl.inputs.length ≤ port.raw ∧
        port.raw < G.next + 1 + decl.inputs.length + decl.outputs.length :=
  Handle.mem_consecutive

section Create

variable (G : Graph) (decl : NodeDecl)

/-- The nodes once one is created. -/
theorem create_nodes (other : NodeId) : (G.create decl).2.nodes[other]? =
    if other = ⟨G.next⟩ then some (G.created decl) else G.nodes[other]? := by
  change (G.nodes.insert ⟨G.next⟩ (G.created decl))[other]? = _
  rw [getElem?_insert]
  simp only [eq_comm]

variable {G} (wf : G.Consistent)

include wf

/-- A new node has ports of its own and no connections. -/
theorem Consistent.create : Created G decl (G.create decl).2 := by
  have absent : G.nodes[(⟨G.next⟩ : NodeId)]? = none := by
    cases got : G.nodes[(⟨G.next⟩ : NodeId)]? with
    | none => rfl
    | some record => exact (wf.node_ne got rfl).elim
  have inputOwner : ∀ port, (G.create decl).2.inputOwner? port =
      if port ∈ (G.created decl).inputs then some ⟨G.next⟩ else G.inputOwner? port :=
    fun _ => view_insertMany_zip (Handle.nodup_consecutive _ _) (by simp) (by simp)
  have outputOwner : ∀ port, (G.create decl).2.outputOwner? port =
      if port ∈ (G.created decl).outputs then some ⟨G.next⟩ else G.outputOwner? port :=
    fun _ => view_insertMany_zip (Handle.nodup_consecutive _ _) (by simp) (by simp)
  have freshInput : ∀ port ∈ (G.created decl).inputs, G.inputOwner? port = none :=
    fun port mem => wf.inputSide.eq_none_of_le (by have := mem_created_inputs.mp mem; omega)
  have freshOutput : ∀ port ∈ (G.created decl).outputs, G.outputOwner? port = none :=
    fun port mem => wf.outputSide.eq_none_of_le (by have := mem_created_outputs.mp mem; omega)
  have targets : ∀ out, (G.create decl).2.targets out = G.targets out := by
    intro out
    rw [targets_eq, targets_eq]
    exact linksOf_insertMany_zip (Handle.nodup_consecutive _ _) (by simp) freshOutput (by simp)
  have sources : ∀ input, (G.create decl).2.sources input = G.sources input := by
    intro input
    rw [sources_eq, sources_eq]
    exact linksOf_insertMany_zip (Handle.nodup_consecutive _ _) (by simp) freshInput (by simp)
  have next : (G.create decl).2.next = G.next + 1 + decl.inputs.length + decl.outputs.length := rfl
  refine ⟨⟨.of_sides ?_ ?_ ?_ fun out input => ?_, rfl, create_nodes G decl⟩, next,
    fun out input => by rw [Feeds, targets, Feeds]⟩
  · intro other record got
    rw [create_nodes] at got
    split at got
    · next eq =>
      subst eq
      rw [next]
      simp only
      omega
    · have := wf.early got
      omega
  · refine wf.inputSide.insert absent (create_nodes G decl) inputOwner (by omega)
      (fun port mem => ?_) (Handle.nodup_consecutive _ _)
    rw [mem_created_inputs] at mem
    omega
  · refine wf.outputSide.insert absent (create_nodes G decl) outputOwner (by omega)
      (fun port mem => ?_) (Handle.nodup_consecutive _ _)
    rw [mem_created_outputs] at mem
    omega
  · rw [Feeds, targets, sources]
    exact wf.agree out input

end Create

end Graph

end Staging
