import Staging.Graph.Copy
import Staging.Proofs.Stability

/-! # How graphs evolve

Every operation on graphs is a sequence of a few steps: a node is created or erased, a
connection made or cut, the endpoints of the root scope listed anew. Only creating a
node gives out handles, and always those that come next, so that no number names two
things.
-/

namespace Staging

open Std Relation HandleMap

variable {id : NodeId} {middle : Graph} {boundary : Boundary} {out : OutputId} {input : InputId}

namespace Graph

variable {G pre post : Graph} {decl : NodeDecl}

/-- A step that operations are made of. -/
inductive Step : Graph → Graph → Prop where
  | create (graph : Graph) (decl : NodeDecl) : Step graph (graph.create decl).2
  | enlist (graph : Graph) (root : Scope) : Step graph { graph with root }
  | connect (graph : Graph) (output : OutputId) (input : InputId) :
      Step graph (graph.insertConnection output input)
  | disconnect (graph : Graph) (output : OutputId) (input : InputId) :
      Step graph (graph.eraseConnection output input)
  | erase (graph : Graph) (id : NodeId) (inputs : List InputId) (outputs : List OutputId) :
      Step graph { graph with
        nodes := graph.nodes.erase id
        inputs := inputs.foldl (·.erase ·) graph.inputs
        outputs := outputs.foldl (·.erase ·) graph.outputs }

/-- The one graph becomes the other by some steps. -/
def Evolves : Graph → Graph → Prop :=
  ReflTransGen Step

namespace Evolves

/-- No step is made. -/
theorem refl (G : Graph) : G.Evolves G := ReflTransGen.refl

/-- Steps are followed by others. -/
theorem trans (one : pre.Evolves middle) (two : middle.Evolves post) : pre.Evolves post :=
  ReflTransGen.trans one two

private theorem step (step : Step pre post) : pre.Evolves post := ReflTransGen.single step

private theorem foldl {α : Type} {change : Graph → α → Graph}
    (evolves : ∀ (G : Graph) (item : α), G.Evolves (change G item)) (items : List α) :
    G.Evolves (items.foldl change G) :=
  foldl_keeps (fun _ now => G.Evolves now)
    (fun item _ now evolved => evolved.trans (evolves now item)) (.refl G)

private theorem foldlM {α : Type} {change : Graph → α → Except Fault Graph}
    (evolves : ∀ {G post : Graph} {item : α}, change G item = .ok post →
      G.Evolves post) {items : List α}
    (run : items.foldlM change G = .ok post) : G.Evolves post :=
  foldlM_carries (fun _ now => G.Evolves now)
    (fun _ _ _ _ evolved run => evolved.trans (evolves run)) (.refl G) run

/-! ## Building -/

/-- An input of the graph is added. -/
theorem addInput (name : String) (dataType : DataType) : G.Evolves (G.addInput name dataType).2 :=
  (step (.create G _)).trans (step (.enlist _ _))

/-- An output of the graph is added. -/
theorem addOutput (name : String) (dataType : DataType) : G.Evolves (G.addOutput name dataType).2 :=
  (step (.create G _)).trans (step (.enlist _ _))

/-- A node is added. -/
theorem addNode (run : G.addNode decl = .ok (id, post)) :
    G.Evolves post := by
  cases (of_addNode run).2.2.2
  exact step (.create G decl)

private theorem createAll (decls : List NodeDecl) : G.Evolves (G.createAll decls).2 :=
  foldl_keeps (fun _ (state : List NodeId × Graph) => G.Evolves state.2)
    (fun decl _ state evolved => evolved.trans (step (.create state.2 decl))) (.refl G)

/-- A flow part is added with its endpoints. -/
theorem addFlowPart (run : G.addFlowPart decl = .ok (id, post)) :
    G.Evolves post := by
  cases of_addFlowPart run
  exact (createAll _).trans ((createAll _).trans (step (.create _ _)))

/-- Two ports are connected. -/
theorem connect (run : G.connect out input = .ok post) : G.Evolves post := by
  obtain ⟨_, _, -, -, rfl⟩ := of_connect run
  exact step (.connect G out input)

/-- Two ports are connected by their places. -/
theorem connectNodes {source target : NodeId} {outputIndex inputIndex : Nat}
    (run : G.connectNodes source outputIndex target inputIndex = .ok post) :
    G.Evolves post := by
  obtain ⟨out, input, run⟩ := of_connectNodes run
  exact connect run

/-! ## Copies -/

private theorem copyNode (state : CopyMap × Graph) (id : NodeId) :
    state.2.Evolves (Graph.copyNode state id).2 := by
  obtain ⟨map, G⟩ := state
  rw [Graph.copyNode]
  split
  · exact .refl G
  · simp only
    split
    · exact .refl G
    · exact step (.create G _)

private theorem copyConnections (map : CopyMap) (ports : OutputId × OutputId) :
    G.Evolves (Graph.copyConnections map G ports) := by
  refine foldl (fun G target => ?_) _
  split
  · exact step (.connect G _ _)
  · exact .refl G

/-- Nodes are copied with what is nested in them. -/
theorem copy {ids : NodeSet} {map : CopyMap} (run : G.copy ids = .ok (map, post)) :
    G.Evolves post := by
  obtain ⟨groups, -, ⟨⟩⟩ := of_bind run
  have nodes : G.Evolves ((groups.flatMap ExtTreeSet.toList).foldl Graph.copyNode ({}, G)).2 :=
    foldl_keeps (fun _ state => G.Evolves state.2)
      (fun id _ state evolved => evolved.trans (copyNode state id)) (.refl G)
  exact nodes.trans (foldl (fun G ports => copyConnections _ ports) _)

/-! ## Splices -/

private theorem insertPassage (out : OutputId) (port : OutputPort) (moved : List InputId)
    (pseudo : Pseudo) (boundary : Boundary) :
    G.Evolves (G.insertPassage out port moved pseudo boundary).2 :=
  (step (.create G _)).trans ((foldl (fun G target =>
    (step (.disconnect G out target)).trans (step (.connect _ _ _))) moved).trans
      (step (.connect _ _ _)))

/-- A checkpoint is put behind a port. -/
theorem insertCheckpoint (run : G.insertCheckpoint out = .ok (id, post)) :
    G.Evolves post := by
  obtain ⟨port, -, ⟨⟩⟩ := of_bind run
  exact insertPassage _ _ _ _ _

/-- An identity is put behind a port. -/
theorem insertIdentity (run : G.insertIdentity out = .ok (id, post)) : G.Evolves post := by
  obtain ⟨port, -, ⟨⟩⟩ := of_bind run
  exact insertPassage _ _ _ _ _

/-- An identity is put on a connection. -/
theorem insertIdentityBetween (run : G.insertIdentityBetween out input = .ok (id, post)) :
    G.Evolves post := by
  obtain ⟨port, -, run⟩ := of_bind run
  split at run
  · cases run
    exact insertPassage _ _ _ _ _
  · cases run

private theorem insertSink (out : OutputId) (port : OutputPort) :
    G.Evolves (G.insertSink out port).2 :=
  (step (.create G _)).trans (step (.connect _ _ _))

/-- A port gets a sink. -/
theorem stop (run : G.stop out = .ok (id, post)) : G.Evolves post := by
  obtain ⟨port, -, ⟨⟩⟩ := of_bind run
  exact insertSink _ _

private theorem drop (id : NodeId) (node : Node) : G.Evolves (G.drop id node) := by
  have inputs : G.Evolves (G.disconnectInputs node.inputs) :=
    foldl (fun _ _ => foldl (fun G _ => step (.disconnect G _ _)) _) _
  have outputs : (G.disconnectInputs node.inputs).Evolves
      ((G.disconnectInputs node.inputs).disconnectOutputs node.outputs) :=
    foldl (fun _ _ => foldl (fun G _ => step (.disconnect G _ _)) _) _
  exact inputs.trans (outputs.trans (step (.erase _ id node.inputs node.outputs)))

private theorem remove (run : G.remove id = .ok post) : G.Evolves post := by
  obtain ⟨node, -, rfl⟩ := remove_eq_ok run
  exact drop id node

/-- An identity is split. -/
theorem splitIdentity {copies : List NodeId} (run : G.splitIdentity id = .ok (copies, post)) :
    G.Evolves post := by
  obtain ⟨node, -, run⟩ := of_bind run
  split at run
  · obtain ⟨port, -, run⟩ := of_bind run
    simp only at run
    split at run
    · cases run
      exact .refl G
    · obtain ⟨bare, removed, ⟨⟩⟩ := of_bind run
      refine trans ?_ (remove removed)
      refine foldl_keeps (fun _ (state : List NodeId × Graph) => G.Evolves state.2) ?_ (.refl G)
      intro pair _ state evolved
      exact evolved.trans ((step (.create state.2 _)).trans
        ((step (.connect _ _ _)).trans (step (.connect _ _ _))))
  · cases run

private theorem link (run : G.link out input = .ok post) : G.Evolves post := by
  obtain ⟨-, -, run⟩ := of_bind run
  obtain ⟨-, -, ⟨⟩⟩ := of_bind run
  exact step (.connect G out input)

/-- A node is taken out from between others. -/
theorem skip (run : G.skip id = .ok post) : G.Evolves post := by
  obtain ⟨node, -, run⟩ := of_bind run
  exact (drop id node).trans (foldlM (fun run => foldlM link run) run)

private theorem seam {name : String} {dataType : DataType} {sources : OutputSet}
    {targets : InputSet} {inner : NodeId}
    (run : G.seam name dataType boundary sources targets inner = .ok (id, post)) :
    G.Evolves post := by
  obtain ⟨bare, removed, ⟨⟩⟩ := of_bind run
  let pseudo := if boundary = .stage then Pseudo.checkpoint else .identity
  refine trans (step (.create G (passage name pseudo boundary dataType)))
    (trans ?_ (remove removed))
  exact (foldl (fun G _ => step (.connect G _ _)) _).trans
    (foldl (fun G _ => step (.connect G _ _)) _)

/-- A flow part is inlined. -/
theorem inlineFlowPart {seams : List NodeId}
    (run : G.inlineFlowPart id boundary = .ok (seams, post)) : G.Evolves post := by
  have keeps : Keeps G.Evolves fun now => now.inlineFlowPart id boundary := by
    refine keeps_inlineFlowPart_of (fun _ => True) ?_ ?_
      (fun evolved run => evolved.trans (remove run))
      fun evolved _ run => evolved.trans (skip run)
    all_goals
      intro _ now next part scope port inner seam _ _ _ _ evolved run
      obtain ⟨outer, -, run⟩ := of_bind run
      obtain ⟨face, -, run⟩ := of_bind run
      exact ⟨evolved.trans (Evolves.seam run), trivial⟩
  exact keeps (.refl G) run

/-- All passes are made of steps. -/
theorem stable (start : Graph) : Stable start.Evolves where
  insertSink evolved _ := evolved.trans (insertSink _ _)
  insertCheckpoint evolved run := evolved.trans (insertCheckpoint run)
  insertIdentityBetween evolved run := evolved.trans (insertIdentityBetween run)
  splitIdentity evolved run := evolved.trans (splitIdentity run)
  skip evolved _ run := evolved.trans (skip run)
  inlineFlowPart evolved run := evolved.trans (inlineFlowPart run)

end Evolves

/-! ## What numbers name -/

/-- The number is that of a node, of an input port or of an output port. -/
inductive Names (graph : Graph) : Role → Nat → Prop where
  | node {id : NodeId} {node : Node} : graph.nodes[id]? = some node → Names graph .node id.raw
  | input {port : InputId} {record : InputPort} : graph.inputs[port]? = some record →
      Names graph .input port.raw
  | output {port : OutputId} {record : OutputPort} : graph.outputs[port]? = some record →
      Names graph .output port.raw

/-- No number names two things, and none to come names one. -/
structure Numbered (graph : Graph) : Prop where
  nodes : ∀ (id : NodeId) node, graph.nodes[id]? = some node → id.raw < graph.next
  inputs : ∀ (port : InputId) (record : InputPort), graph.inputs[port]? = some record →
    port.raw < graph.next
  outputs : ∀ (port : OutputId) (record : OutputPort), graph.outputs[port]? = some record →
    port.raw < graph.next
  nodeInput : ∀ (id : NodeId) node (port : InputId) (record : InputPort),
    graph.nodes[id]? = some node → graph.inputs[port]? = some record → id.raw ≠ port.raw
  nodeOutput : ∀ (id : NodeId) node (port : OutputId) (record : OutputPort),
    graph.nodes[id]? = some node → graph.outputs[port]? = some record → id.raw ≠ port.raw
  inputOutput : ∀ (port : InputId) (record : InputPort) (port' : OutputId) (record' : OutputPort),
    graph.inputs[port]? = some record → graph.outputs[port']? = some record' → port.raw ≠ port'.raw

/-- Numbers that are used have been given out, and each names things of one role. -/
def Distinct (graph : Graph) : Prop :=
  (∀ role number, graph.Names role number → number < graph.next) ∧
    ∀ role role' number, graph.Names role number → graph.Names role' number → role = role'

/-- Distinct numbers, role by role. -/
theorem Distinct.numbered (distinct : G.Distinct) : G.Numbered := by
  obtain ⟨below, single⟩ := distinct
  have apart : ∀ {role role' number number'}, G.Names role number → G.Names role' number' →
      role ≠ role' → number ≠ number' := by
    rintro role role' number _ names names' ne rfl
    exact ne (single role role' number names names')
  exact ⟨fun _ _ got => below _ _ (.node got), fun _ _ got => below _ _ (.input got),
    fun _ _ got => below _ _ (.output got),
    fun _ _ _ _ got got' => apart (.node got) (.input got') (by decide),
    fun _ _ _ _ got got' => apart (.node got) (.output got') (by decide),
    fun _ _ _ _ got got' => apart (.input got) (.output got') (by decide)⟩

/-- The empty graph uses no numbers. -/
theorem distinct_empty : Distinct {} := by
  have none : ∀ role number, ¬ Names {} role number := by
    intro role number names
    cases names <;> simp_all
  exact ⟨fun role number names => (none role number names).elim,
    fun role _ number names => (none role number names).elim⟩

/-- The numbers that a new node uses: its own, and those of its ports behind it. -/
def Fresh (graph : Graph) (decl : NodeDecl) : Role → Nat → Prop
  | .node, number => number = graph.next
  | .input, number => graph.next < number ∧ number < graph.next + 1 + decl.inputs.length
  | .output, number => graph.next + 1 + decl.inputs.length ≤ number ∧
      number < graph.next + 1 + decl.inputs.length + decl.outputs.length
  | _, _ => False

private theorem names_create {role : Role} {number : Nat}
    (names : (G.create decl).2.Names role number) :
    G.Names role number ∨ G.Fresh decl role number := by
  cases names with
  | node got =>
    rw [create_nodes] at got
    split at got
    · next eq => exact .inr (congrArg Handle.raw eq)
    · exact .inl (.node got)
  | input got =>
    rcases of_getElem?_insertMany _ got with new | old
    · exact .inr (mem_created_inputs.mp (List.of_mem_zip new).1)
    · exact .inl (.input old)
  | output got =>
    rcases of_getElem?_insertMany _ got with new | old
    · exact .inr (mem_created_outputs.mp (List.of_mem_zip new).1)
    · exact .inl (.output old)

private theorem Distinct.create (distinct : G.Distinct) (decl : NodeDecl) :
    (G.create decl).2.Distinct := by
  have next : (G.create decl).2.next = G.next + 1 + decl.inputs.length + decl.outputs.length := rfl
  have fresh : ∀ {role number}, G.Fresh decl role number →
      G.next ≤ number ∧ number < (G.create decl).2.next := by
    intro role number fresh
    cases role <;> simp only [Fresh] at fresh <;> omega
  refine ⟨fun role number names => ?_, fun role role' number names names' => ?_⟩
  · rcases names_create names with old | new
    · have := distinct.1 role number old
      omega
    · exact (fresh new).2
  · rcases names_create names with old | new <;> rcases names_create names' with old' | new'
    · exact distinct.2 role role' number old old'
    · have := distinct.1 role number old
      have := fresh new'
      omega
    · have := distinct.1 role' number old'
      have := fresh new
      omega
    · cases role <;> cases role' <;> simp only [Fresh] at new new' <;> first | rfl | omega

/-- Steps that create nothing give no number to anything. -/
theorem Step.cases_create (step : Step pre post) : (∃ decl, post = (pre.create decl).2) ∨
    post.next = pre.next ∧ ∀ role number, post.Names role number → pre.Names role number := by
  have modified : ∀ (out : OutputId) (input : InputId) (targets : InputSet → InputSet)
      (sources : OutputSet → OutputSet) (role number), Names { pre with
        outputs := pre.outputs.modify out fun port =>
          { port with connected := targets port.connected }
        inputs := pre.inputs.modify input fun port =>
          { port with connected := sources port.connected } } role number →
      pre.Names role number := by
    intro out input targets sources role number names
    cases names with
    | node got => exact .node got
    | input got =>
      obtain ⟨old, has, -⟩ := of_getElem?_modify _ got
      exact .input has
    | output got =>
      obtain ⟨old, has, -⟩ := of_getElem?_modify _ got
      exact .output has
  cases step with
  | create decl => exact .inl ⟨decl, rfl⟩
  | enlist root =>
    refine .inr ⟨rfl, fun role number names => ?_⟩
    cases names with
    | node got => exact .node got
    | input got => exact .input got
    | output got => exact .output got
  | connect out input => exact .inr ⟨rfl, modified out input (·.insert input) (·.insert out)⟩
  | disconnect out input => exact .inr ⟨rfl, modified out input (·.erase input) (·.erase out)⟩
  | erase id inputs outputs =>
    refine .inr ⟨rfl, fun role number names => ?_⟩
    cases names with
    | node got =>
      rw [getElem?_erase] at got
      exact .node (Option.ite_none_left_eq_some.mp got).2
    | input got =>
      rw [getElem?_foldl_erase] at got
      exact .input (Option.ite_none_left_eq_some.mp got).2
    | output got =>
      rw [getElem?_foldl_erase] at got
      exact .output (Option.ite_none_left_eq_some.mp got).2

/-- Whatever is done to a graph, numbers stay distinct, and none is taken back. -/
theorem Distinct.evolves (distinct : pre.Distinct) (evolves : pre.Evolves post) :
    post.Distinct ∧ pre.next ≤ post.next := by
  induction evolves with
  | refl => exact ⟨distinct, Nat.le_refl _⟩
  | @tail between last _ step ih =>
    rcases step.cases_create with ⟨decl, rfl⟩ | ⟨next, names⟩
    · have next : (between.create decl).2.next =
        between.next + 1 + decl.inputs.length + decl.outputs.length := rfl
      exact ⟨ih.1.create decl, by omega⟩
    · refine ⟨⟨fun role number named => ?_, fun role role' number named named' => ?_⟩, next ▸ ih.2⟩
      · exact next ▸ ih.1.1 role number (names role number named)
      · exact ih.1.2 role role' number (names role number named) (names role' number named')

end Graph

end Staging
