import Staging.Graph.Build
import Staging.Proofs.Walks

/-! # Graphs that users build

A graph that was built step by step is consistent, its endpoints are where data
enters or leaves and are no boundaries by declaration. Its scopes are isolated if
no node can be reached from the endpoints of two of them.
-/

namespace Staging

open Std Relation List

variable {G grown : Graph} {id : NodeId} {decl : NodeDecl}

namespace Graph

/-- The graph was made from nothing by adding nodes and connecting ports. -/
inductive Built : Graph → Prop where
  | empty : Built {}
  | addInput {graph : Graph} (name : String) (dataType : DataType) : Built graph →
      Built (graph.addInput name dataType).2
  | addOutput {graph : Graph} (name : String) (dataType : DataType) : Built graph →
      Built (graph.addOutput name dataType).2
  | addNode {graph grown : Graph} {decl : NodeDecl} {id : NodeId} : Built graph →
      graph.addNode decl = .ok (id, grown) → Built grown
  | addFlowPart {graph grown : Graph} {decl : NodeDecl} {id : NodeId} : Built graph →
      graph.addFlowPart decl = .ok (id, grown) → Built grown
  | connect {graph joined : Graph} {output : OutputId} {input : InputId} : Built graph →
      graph.connect output input = .ok joined → Built joined
  | connectNodes {graph joined : Graph} {source target : NodeId} {outputIndex inputIndex : Nat} :
      Built graph → graph.connectNodes source outputIndex target inputIndex = .ok joined →
      Built joined

/-- The scope of the whole graph, or the one of a flow part. -/
inductive HasScope (graph : Graph) : Option NodeId → Scope → Prop where
  | root : HasScope graph none graph.root
  | part {id : NodeId} {node : Node} {scope : Scope} : graph.nodes[id]? = some node →
      node.kind = .flowPart scope → HasScope graph (some id) scope

/-- The node can be reached from the endpoints of the scope of the owner. -/
def Inside (graph : Graph) (owner : Option NodeId) (id : NodeId) : Prop :=
  ∃ scope, graph.HasScope owner scope ∧ ∃ tip ∈ scope.endpoints, ReflTransGen graph.Touches tip id

/-- No scope is connected with nodes of another one. -/
def Isolated (graph : Graph) : Prop :=
  ∀ id first second, graph.Inside first id → graph.Inside second id → first = second

/-- Endpoints of scopes are no boundaries by declaration, and those of the whole
graph have ports on one side only. -/
structure Founded (graph : Graph) : Prop where
  wf : graph.Consistent
  plain : ∀ (id : NodeId) node, graph.nodes[id]? = some node →
    node.kind = .input ∨ node.kind = .output → node.boundary = .none
  inputs : ∀ id ∈ graph.root.inputs, ∃ node, graph.nodes[id]? = some node ∧
    node.kind = .input ∧ node.inputs = []
  outputs : ∀ id ∈ graph.root.outputs, ∃ node, graph.nodes[id]? = some node ∧
    node.kind = .output ∧ node.outputs = []
  bounded : ∀ (id : NodeId) node scope, graph.nodes[id]? = some node →
    node.kind = .flowPart scope → ∀ tip ∈ scope.endpoints, tip.raw < graph.next

/-! ## Steps of building -/

theorem consistent_empty : Consistent {} where
  nodeBelow _ _ got := by simp at got
  inputBelow _ _ got := by simp [inputOwner?] at got
  outputBelow _ _ got := by simp [outputOwner?] at got
  inputOwner := by simp [inputOwner?]
  outputOwner := by simp [outputOwner?]
  inputsNodup _ _ got := by simp at got
  outputsNodup _ _ got := by simp at got
  agree := by simp [Feeds, targets, sources]

private theorem founded_empty : Founded {} where
  wf := consistent_empty
  plain _ _ got := by simp at got
  inputs := by simp
  outputs := by simp
  bounded _ _ _ got := by simp at got

/-- The declaration of a node that can be added to a graph with its endpoints in place. -/
structure Fitting (graph : Graph) (decl : NodeDecl) : Prop where
  plain : decl.kind = .input ∨ decl.kind = .output → decl.boundary = .none
  bounded : ∀ scope, decl.kind = .flowPart scope → ∀ tip ∈ scope.endpoints, tip.raw < graph.next

private theorem fitting_entry (G : Graph) (name : String) (dataType : DataType) :
    G.Fitting (entry name dataType) :=
  ⟨fun _ => rfl, nofun⟩

private theorem fitting_exit (G : Graph) (name : String) (dataType : DataType) :
    G.Fitting (exit name dataType) :=
  ⟨fun _ => rfl, nofun⟩

namespace Founded

variable (founded : G.Founded)

include founded

/-- A graph is founded on its endpoints and on the nodes that are there. -/
theorem of_nodes {post : Graph} (wf : post.Consistent) (root : post.root = G.root)
    (next : G.next ≤ post.next)
    (endpoints : ∀ id ∈ G.root.endpoints, post.nodes[id]? = G.nodes[id]?)
    (nodes : ∀ (id : NodeId) node, post.nodes[id]? = some node →
      G.nodes[id]? = some node ∨ node.isPseudo) : post.Founded where
  wf := wf
  plain id node got kind := by
    rcases nodes id node got with old | pseudo
    · exact founded.plain id node old kind
    · rcases kind with kind | kind <;> simp [Node.isPseudo, kind] at pseudo
  inputs := by
    rw [root]
    intro id mem
    rw [endpoints id (mem_append_left _ mem)]
    exact founded.inputs id mem
  outputs := by
    rw [root]
    intro id mem
    rw [endpoints id (mem_append_right _ mem)]
    exact founded.outputs id mem
  bounded id node scope got kind tip mem := by
    rcases nodes id node got with old | pseudo
    · exact Nat.lt_of_lt_of_le (founded.bounded id node scope old kind tip mem) next
    · simp [Node.isPseudo, kind] at pseudo

theorem exists_endpoint (mem : id ∈ G.root.endpoints) : ∃ node, G.nodes[id]? = some node := by
  rcases mem_append.mp mem with input | out
  · obtain ⟨node, got, -⟩ := founded.inputs id input
    exact ⟨node, got⟩
  · obtain ⟨node, got, -⟩ := founded.outputs id out
    exact ⟨node, got⟩

private theorem create (fitting : G.Fitting decl) : (G.create decl).2.Founded := by
  have created := founded.wf.create decl
  -- what exists is not the node that is made
  have kept : ∀ {id : NodeId} {node : Node}, G.nodes[id]? = some node →
      (G.create decl).2.nodes[id]? = some node :=
    created.nodes_old founded.wf
  refine ⟨created.wf, fun id node got kind => ?_, ?_, ?_, fun id node scope got kind tip mem => ?_⟩
  · rw [created.nodes] at got
    split at got
    · cases got
      exact fitting.plain kind
    · exact founded.plain id node got kind
  · rw [created.root]
    intro id mem
    obtain ⟨node, got, rest⟩ := founded.inputs id mem
    exact ⟨node, kept got, rest⟩
  · rw [created.root]
    intro id mem
    obtain ⟨node, got, rest⟩ := founded.outputs id mem
    exact ⟨node, kept got, rest⟩
  · have below : tip.raw < G.next := by
      rw [created.nodes] at got
      split at got
      · cases got
        exact fitting.bounded scope kind tip mem
      · exact founded.bounded id node scope got kind tip mem
    rw [created.next]
    omega

/-- Nodes made one after the other have handles below the next one. -/
theorem createAll {decls : List NodeDecl} (fitting : ∀ decl ∈ decls, ∀ G, Fitting G decl) :
    (G.createAll decls).2.Founded ∧
      (∀ id ∈ (G.createAll decls).1, id.raw < (G.createAll decls).2.next) ∧
      G.next ≤ (G.createAll decls).2.next := by
  refine (foldl_keeps (fun rest (state : List NodeId × Graph) =>
    (∀ decl ∈ rest, ∀ G, Fitting G decl) ∧ state.2.Founded ∧
      (∀ id ∈ state.1, id.raw < state.2.next) ∧ G.next ≤ state.2.next) ?_
    ⟨fitting, founded, by simp, Nat.le_refl _⟩).2
  rintro decl rest ⟨ids, grown⟩ ⟨fitting, founded, below, next⟩
  have created : Created grown decl (grown.create decl).2 := founded.wf.create decl
  simp only at below next
  refine ⟨fun other later => fitting other (.tail _ later),
    founded.create (fitting decl (.head _) grown), fun id mem => ?_, ?_⟩
  · change id.raw < (grown.create decl).2.next
    rw [created.next]
    rcases mem_append.mp mem with early | last
    · have := below id early
      omega
    · obtain rfl := mem_singleton.mp last
      change grown.next < _
      omega
  · change G.next ≤ (grown.create decl).2.next
    rw [created.next]
    omega

private theorem addInput (name : String) (dataType : DataType) :
    (G.addInput name dataType).2.Founded := by
  have grown := founded.create (fitting_entry G name dataType)
  have created := founded.wf.create (entry name dataType)
  refine ⟨grown.wf.enlist _, grown.plain, fun id mem => ?_, grown.outputs, grown.bounded⟩
  rcases mem_append.mp mem with early | last
  · exact grown.inputs id early
  · obtain rfl := mem_singleton.mp last
    exact ⟨_, (created.nodes ⟨G.next⟩).trans (if_pos rfl), rfl, rfl⟩

private theorem addOutput (name : String) (dataType : DataType) :
    (G.addOutput name dataType).2.Founded := by
  have grown := founded.create (fitting_exit G name dataType)
  have created := founded.wf.create (exit name dataType)
  refine ⟨grown.wf.enlist _, grown.plain, grown.inputs, fun id mem => ?_, grown.bounded⟩
  rcases mem_append.mp mem with early | last
  · exact grown.outputs id early
  · obtain rfl := mem_singleton.mp last
    exact ⟨_, (created.nodes ⟨G.next⟩).trans (if_pos rfl), rfl, rfl⟩

private theorem addNode (added : G.addNode decl = .ok (id, grown)) : grown.Founded := by
  obtain ⟨inward, outward, plain, eq⟩ := of_addNode added
  have fitting : G.Fitting decl :=
    ⟨fun kind => (kind.elim inward outward).elim, fun scope kind => (plain scope kind).elim⟩
  have grows := founded.create fitting
  rwa [eq] at grows

private theorem addFlowPart (added : G.addFlowPart decl = .ok (id, grown)) : grown.Founded := by
  have fits : ∀ other ∈ decl.inputs.map (fun port => entry port.name port.dataType),
      ∀ G, Fitting G other := by
    intro other mem G
    obtain ⟨port, -, rfl⟩ := mem_map.mp mem
    exact fitting_entry G port.name port.dataType
  have fits' : ∀ other ∈ decl.outputs.map (fun port => exit port.name port.dataType),
      ∀ G, Fitting G other := by
    intro other mem G
    obtain ⟨port, -, rfl⟩ := mem_map.mp mem
    exact fitting_exit G port.name port.dataType
  obtain ⟨entries, below, -⟩ := founded.createAll fits
  obtain ⟨exits, below', next⟩ := entries.createAll fits'
  cases of_addFlowPart added
  refine exits.create ⟨(by rintro (kind | kind) <;> cases kind), ?_⟩
  rintro scope ⟨⟩ tip mem
  rcases mem_append.mp mem with input | out
  · exact Nat.lt_of_lt_of_le (below tip input) next
  · exact below' tip out

private theorem connect {out : OutputId} {input : InputId} {joined : Graph}
    (connected : G.connect out input = .ok joined) : joined.Founded := by
  obtain ⟨source, target, given, taken, rfl⟩ := of_connect connected
  exact founded.of_nodes (founded.wf.insertConnection given taken) rfl (Nat.le_refl _)
    (fun _ _ => rfl) fun _ _ got => .inl got

end Founded

theorem Built.founded (built : G.Built) : G.Founded := by
  induction built with
  | empty => exact founded_empty
  | addInput name dataType _ ih => exact ih.addInput name dataType
  | addOutput name dataType _ ih => exact ih.addOutput name dataType
  | addNode _ added ih => exact ih.addNode added
  | addFlowPart _ added ih => exact ih.addFlowPart added
  | connect _ connected ih => exact ih.connect connected
  | connectNodes _ connected ih =>
    obtain ⟨out, input, connected⟩ := of_connectNodes connected
    exact ih.connect connected

/-- A graph without flow parts has one scope. -/
theorem isolated_of_flat (flat : ∀ (id : NodeId) node scope, G.nodes[id]? = some node →
    node.kind ≠ .flowPart scope) : G.Isolated := by
  have root : ∀ {owner : Option NodeId} {id : NodeId}, G.Inside owner id → owner = none := by
    rintro _ _ ⟨scope, has, -⟩
    cases has with
    | root => rfl
    | part got kind => exact (flat _ _ _ got kind).elim
  intro id first second one two
  rw [root one, root two]

end Graph

end Staging
