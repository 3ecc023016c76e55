import Staging.Proofs.Consistency
import Staging.Proofs.Evolution

/-! # Operations keep graphs sound

Users build a graph, copy and rewrite nodes of it, and have it validated and normalized, in
any order. Whatever they do, nodes and ports name each other, the two ends of a connection
know of each other, and no number is used twice.
-/

namespace Staging

open Std

variable {reason : BuildError} {refusal : Option BuildError} {operation : Operation}
  {decl : NodeDecl} {out : OutputId}

namespace Edit

/-- The step leaves a graph as it was if it is refused. -/
def Clean {α : Type} (edit : Edit α) : Prop :=
  ∀ graph reason left, edit graph = (.error reason, left) → left = graph

section Clean

variable {α : Type} {edit : Edit α} {G post : Graph} (clean : edit.Clean)

include clean

private theorem Clean.eq_of_refused (run : edit.attempt G = (some reason, post)) : post = G := by
  rw [attempt] at run
  split at run <;> cases run
  next refused => exact clean _ _ _ refused

/-- What the step keeps if it has a result is kept whether it is refused or not. -/
theorem Clean.keeps (property : Graph → Prop) (holds : property G)
    (keeps : ∀ result grown, edit.build G = .ok (result, grown) → property grown)
    (run : edit.attempt G = (refusal, post)) : property post := by
  rw [attempt] at run
  split at run <;> cases run
  · next result done => exact keeps result _ (by rw [build, done]; rfl)
  · next refused => exact clean _ _ _ refused ▸ holds

end Clean

private theorem clean_addNode (decl : NodeDecl) : (addNode decl).Clean := by
  intro graph reason left run
  rw [addNode] at run
  split at run <;> cases run
  rfl

private theorem clean_addFlowPart (decl : NodeDecl) : (addFlowPart decl).Clean := by
  intro graph reason left run
  rw [addFlowPart] at run
  split at run <;> cases run
  rfl

private theorem clean_connect (out : OutputId) (input : InputId) : (connect out input).Clean := by
  intro graph reason left run
  rw [connect] at run
  split at run
  · cases run
    rfl
  · cases run
    rfl
  · split at run <;> cases run
    rfl

private theorem clean_connectNodes (source : NodeId) (outputIndex : Nat) (target : NodeId)
    (inputIndex : Nat) : (connectNodes source outputIndex target inputIndex).Clean := by
  intro graph reason left run
  rw [connectNodes] at run
  split at run
  · cases run
    rfl
  · cases run
    rfl
  · exact clean_connect _ _ _ _ _ run

end Edit

namespace Graph

variable {G graph post : Graph}

/-- What users do with a graph. -/
inductive Operation where
  | addInput (name : String) (dataType : DataType)
  | addOutput (name : String) (dataType : DataType)
  | addNode (decl : NodeDecl)
  | addFlowPart (decl : NodeDecl)
  | connect (output : OutputId) (input : InputId)
  | connectNodes (source : NodeId) (outputIndex : Nat) (target : NodeId) (inputIndex : Nat)
  | copy (ids : NodeSet)
  | insertCheckpoint (output : OutputId)
  | insertIdentity (output : OutputId)
  | insertIdentityBetween (output : OutputId) (input : InputId)
  | splitIdentity (id : NodeId)
  | skip (id : NodeId)
  | stop (output : OutputId)
  | inlineFlowPart (id : NodeId) (boundary : Boundary)
  | validate
  | normalize (mode : FlowPartMode)

/-- Does an operation, and says why if it was refused. -/
def perform (graph : Graph) : Operation → Except Fault (Option BuildError × Graph)
  | .addInput name dataType => .ok (none, (graph.addInput name dataType).2)
  | .addOutput name dataType => .ok (none, (graph.addOutput name dataType).2)
  | .addNode decl => .ok ((Edit.addNode decl).attempt graph)
  | .addFlowPart decl => .ok ((Edit.addFlowPart decl).attempt graph)
  | .connect out input => .ok ((Edit.connect out input).attempt graph)
  | .connectNodes source outputIndex target inputIndex =>
    .ok ((Edit.connectNodes source outputIndex target inputIndex).attempt graph)
  | .copy ids => return (none, (← graph.copy ids).2)
  | .insertCheckpoint out => return (none, (← graph.insertCheckpoint out).2)
  | .insertIdentity out => return (none, (← graph.insertIdentity out).2)
  | .insertIdentityBetween out input =>
    return (none, (← graph.insertIdentityBetween out input).2)
  | .splitIdentity id => return (none, (← graph.splitIdentity id).2)
  | .skip id => return (none, ← graph.skip id)
  | .stop out => return (none, (← graph.stop out).2)
  | .inlineFlowPart id boundary => return (none, (← graph.inlineFlowPart id boundary).2)
  | .validate => return (none, (← graph.validate).2)
  | .normalize mode => return (none, (← graph.normalize mode).2)

/-- Does operations one after the other, whether they are refused or not. -/
def performAll (graph : Graph) (operations : List Operation) : Except Fault Graph :=
  operations.foldlM (fun graph operation => return (← graph.perform operation).2) graph

/-- Nodes and ports name each other, the two ends of a connection know of each other,
and all numbers differ and are used up. -/
structure Sound (graph : Graph) : Prop where
  listedInputs : ∀ (id : NodeId) node (port : InputId), graph.nodes[id]? = some node →
    port ∈ node.inputs → ∃ record, graph.inputs[port]? = some record ∧ record.owner = id
  listedOutputs : ∀ (id : NodeId) node (port : OutputId), graph.nodes[id]? = some node →
    port ∈ node.outputs → ∃ record, graph.outputs[port]? = some record ∧ record.owner = id
  ownedInputs : ∀ (port : InputId) (record : InputPort), graph.inputs[port]? = some record →
    ∃ node, graph.nodes[record.owner]? = some node ∧ node.inputs.count port = 1
  ownedOutputs : ∀ (port : OutputId) (record : OutputPort), graph.outputs[port]? = some record →
    ∃ node, graph.nodes[record.owner]? = some node ∧ node.outputs.count port = 1
  mirrored : ∀ (output : OutputId) (input : InputId),
    (∃ port, graph.outputs[output]? = some port ∧ input ∈ port.connected) ↔
      ∃ port, graph.inputs[input]? = some port ∧ output ∈ port.connected
  numbered : graph.Numbered

/-! ## Each operation -/

/-- Only steps of building are refused. -/
theorem eq_of_refused (run : G.perform operation = .ok (some reason, post)) : post = G := by
  cases operation with
  | addInput | addOutput => cases run
  | addNode decl => exact (Edit.clean_addNode decl).eq_of_refused (Except.ok.inj run)
  | addFlowPart decl => exact (Edit.clean_addFlowPart decl).eq_of_refused (Except.ok.inj run)
  | connect out input => exact (Edit.clean_connect out input).eq_of_refused (Except.ok.inj run)
  | connectNodes source outputIndex target inputIndex =>
    exact (Edit.clean_connectNodes source outputIndex target inputIndex).eq_of_refused
      (Except.ok.inj run)
  | _ =>
    obtain ⟨result, -, ⟨⟩⟩ := of_bind run

section Building

variable (wf : G.Consistent) {id : NodeId}

include wf

private theorem Consistent.addNode (added : G.addNode decl = .ok (id, post)) : post.Consistent := by
  cases (of_addNode added).2.2.2
  exact (wf.create decl).wf

private theorem Consistent.createEach (decls : List NodeDecl) :
    (G.createAll decls).2.Consistent := by
  let anything (_ : Node) : Prop := True
  have shaped : ∀ decl ∈ decls, ∀ G : Graph, anything (G.created decl) := fun _ _ _ => trivial
  exact (wf.createAll shaped).1.wf

private theorem Consistent.addFlowPart (added : G.addFlowPart decl = .ok (id, post)) :
    post.Consistent := by
  cases of_addFlowPart added
  exact (((wf.createEach _).createEach _).create _).wf

private theorem Consistent.connect {input : InputId} (connected : G.connect out input = .ok post) :
    post.Consistent := by
  obtain ⟨source, target, given, taken, rfl⟩ := of_connect connected
  exact wf.insertConnection given taken

private theorem Consistent.connectNodes {source target : NodeId} {outputIndex inputIndex : Nat}
    (connected : G.connectNodes source outputIndex target inputIndex = .ok post) :
    post.Consistent := by
  obtain ⟨out, input, connected⟩ := of_connectNodes connected
  exact wf.connect connected

private theorem Consistent.insertIdentity
    (run : G.insertIdentity out = .ok (id, post)) : post.Consistent := by
  obtain ⟨port, read, eq⟩ := of_bind run
  have got := output_eq_ok read
  have spliced := wf.insertPassage got (fun target mem => by
    rw [Feeds, targets, got]
    exact ExtTreeSet.mem_toList.mp mem) .identity .none
  rw [Except.ok.inj eq] at spliced
  exact spliced.wf

private theorem Consistent.stop (run : G.stop out = .ok (id, post)) :
    post.Consistent := by
  obtain ⟨port, read, ⟨⟩⟩ := of_bind run
  exact stable_consistent.insertSink wf (output_eq_ok read)

/-- Each operation is made of steps and keeps the graph consistent. -/
theorem Consistent.perform (run : G.perform operation = .ok (refusal, post)) :
    post.Consistent ∧ G.Evolves post := by
  let kept (now : Graph) : Prop := now.Consistent ∧ G.Evolves now
  have unchanged : kept G := ⟨wf, .refl G⟩
  cases operation with
  | addInput name dataType =>
    cases run
    exact ⟨(wf.create _).wf.enlist _, .addInput name dataType⟩
  | addOutput name dataType =>
    cases run
    exact ⟨(wf.create _).wf.enlist _, .addOutput name dataType⟩
  | addNode decl =>
    exact (Edit.clean_addNode decl).keeps kept unchanged
      (fun _ _ added => ⟨wf.addNode added, .addNode added⟩) (Except.ok.inj run)
  | addFlowPart decl =>
    exact (Edit.clean_addFlowPart decl).keeps kept unchanged
      (fun _ _ added => ⟨wf.addFlowPart added, .addFlowPart added⟩) (Except.ok.inj run)
  | connect out input =>
    refine (Edit.clean_connect out input).keeps kept unchanged (fun _ post added => ?_)
      (Except.ok.inj run)
    have joined : G.connect out input = .ok post := congrArg (Except.map Prod.snd) added
    exact ⟨wf.connect joined, .connect joined⟩
  | connectNodes source outputIndex target inputIndex =>
    refine (Edit.clean_connectNodes source outputIndex target inputIndex).keeps kept unchanged
      (fun _ post added => ?_) (Except.ok.inj run)
    have joined : G.connectNodes source outputIndex target inputIndex = .ok post :=
      congrArg (Except.map Prod.snd) added
    exact ⟨wf.connectNodes joined, .connectNodes joined⟩
  | copy ids =>
    obtain ⟨result, ran, ⟨⟩⟩ := of_bind run
    exact ⟨(copies_copy wf ran).wf, .copy ran⟩
  | insertCheckpoint out =>
    obtain ⟨result, ran, ⟨⟩⟩ := of_bind run
    exact ⟨keeps_insertCheckpoint wf ran, .insertCheckpoint ran⟩
  | insertIdentity out =>
    obtain ⟨result, ran, ⟨⟩⟩ := of_bind run
    exact ⟨wf.insertIdentity ran, .insertIdentity ran⟩
  | insertIdentityBetween out input =>
    obtain ⟨result, ran, ⟨⟩⟩ := of_bind run
    exact ⟨keeps_insertIdentityBetween wf ran, .insertIdentityBetween ran⟩
  | splitIdentity id =>
    obtain ⟨result, ran, ⟨⟩⟩ := of_bind run
    exact ⟨keeps_splitIdentity wf ran, .splitIdentity ran⟩
  | skip id =>
    obtain ⟨result, ran, ⟨⟩⟩ := of_bind run
    exact ⟨(wf.skip ran).wf, .skip ran⟩
  | stop out =>
    obtain ⟨result, ran, ⟨⟩⟩ := of_bind run
    exact ⟨wf.stop ran, .stop ran⟩
  | inlineFlowPart id boundary =>
    obtain ⟨result, ran, ⟨⟩⟩ := of_bind run
    exact ⟨keeps_inlineFlowPart wf ran, .inlineFlowPart ran⟩
  | validate =>
    obtain ⟨result, ran, ⟨⟩⟩ := of_bind run
    exact ⟨keeps_validate wf ran, (Evolves.stable G).validate (.refl G) ran⟩
  | normalize mode =>
    obtain ⟨result, ran, ⟨⟩⟩ := of_bind run
    exact ⟨keeps_normalize wf ran, (Evolves.stable G).normalize (.refl G) ran⟩

/-- A consistent graph with distinct numbers is sound. -/
theorem Consistent.sound (numbered : G.Numbered) : G.Sound where
  listedInputs id node port got mem := Option.map_eq_some_iff.mp (wf.input_of_mem got mem)
  listedOutputs id node port got mem := Option.map_eq_some_iff.mp (wf.output_of_mem got mem)
  ownedInputs port record got := by
    have owned : G.inputOwner? port = some record.owner := by
      rw [inputOwner?, got]
      rfl
    obtain ⟨node, has, mem⟩ := wf.node_of_input owned
    exact ⟨node, has, List.count_eq_one_of_mem (wf.inputsNodup _ node has) mem⟩
  ownedOutputs port record got := by
    have owned : G.outputOwner? port = some record.owner := by
      rw [outputOwner?, got]
      rfl
    obtain ⟨node, has, mem⟩ := wf.node_of_output owned
    exact ⟨node, has, List.count_eq_one_of_mem (wf.outputsNodup _ node has) mem⟩
  mirrored out input := by
    have feeds : G.Feeds out input ↔
        ∃ port, G.outputs[out]? = some port ∧ input ∈ port.connected := by
      rw [Feeds, targets]
      cases G.outputs[out]? with
      | some port => simp
      | none => simp
    have fed : out ∈ G.sources input ↔
        ∃ port, G.inputs[input]? = some port ∧ out ∈ port.connected := by
      rw [sources]
      cases G.inputs[input]? with
      | some port => simp
      | none => simp
    rw [← feeds, ← fed]
    exact wf.agree out input
  numbered := numbered

end Building

/-- What operations make of the empty graph is consistent and has evolved from it. -/
theorem performAll_keeps {operations : List Operation} (run : performAll {} operations = .ok G) :
    G.Consistent ∧ Evolves {} G := by
  refine foldlM_carries (fun _ now => now.Consistent ∧ Evolves {} now) ?_
    ⟨consistent_empty, .refl _⟩ run
  rintro operation _ now next ⟨wf, evolved⟩ step
  obtain ⟨⟨refusal, post⟩, ran, ⟨⟩⟩ := of_bind step
  obtain ⟨wf', evolves⟩ := wf.perform ran
  exact ⟨wf', evolved.trans evolves⟩

/-- Whatever operations are done on the empty graph, the result is sound. No further
operation takes handles back, and one that is refused leaves the graph as it was. -/
theorem performAll_sound {operations : List Operation}
    (run : performAll {} operations = .ok graph) : graph.Sound ∧
      ∀ (operation : Operation) (refusal : Option BuildError) (after : Graph),
        graph.perform operation = .ok (refusal, after) → after.Sound ∧ graph.next ≤ after.next ∧
          (refusal.isSome → after = graph) := by
  obtain ⟨wf, evolved⟩ := performAll_keeps run
  obtain ⟨distinct, -⟩ := distinct_empty.evolves evolved
  refine ⟨wf.sound distinct.numbered, fun operation refusal after ran => ?_⟩
  obtain ⟨wf', evolves⟩ := wf.perform ran
  obtain ⟨distinct', next⟩ := distinct.evolves evolves
  refine ⟨wf'.sound distinct'.numbered, next, fun refused => ?_⟩
  obtain ⟨reason, rfl⟩ := Option.isSome_iff_exists.mp refused
  exact eq_of_refused ran

/-- A flow part with an operator in it is built, rewritten, copied and normalized. One
step is refused. -/
def drill : List Operation :=
  let port (name : String) (kind : Kind) : NodeDecl :=
    { name, kind, inputs := [{ name := "in", dataType := ⟨"T"⟩ }],
      outputs := [{ name := "out", dataType := ⟨"T"⟩ }] }
  [.addInput "a" ⟨"T"⟩, .addOutput "b" ⟨"T"⟩, .addFlowPart (port "p" (.flowPart {})),
    .addNode (port "x" (.operator .map)), .connect ⟨1⟩ ⟨9⟩, .connectNodes ⟨8⟩ 0 ⟨2⟩ 0,
    .connectNodes ⟨4⟩ 0 ⟨11⟩ 0, .connectNodes ⟨11⟩ 0 ⟨6⟩ 0, .connect ⟨1⟩ ⟨99⟩,
    .insertCheckpoint ⟨13⟩, .skip ⟨14⟩, .insertIdentity ⟨1⟩, .splitIdentity ⟨17⟩,
    .insertIdentityBetween ⟨13⟩ ⟨7⟩, .copy (.of [⟨8⟩]), .stop ⟨10⟩, .inlineFlowPart ⟨8⟩ .stage,
    .validate, .normalize .aggregate]

/-- All operations together leave a sound graph. -/
theorem performAll_sound_drill : ∃ graph, performAll {} drill = .ok graph ∧ graph.Sound ∧
    ∀ (operation : Operation) (refusal : Option BuildError) (after : Graph),
      graph.perform operation = .ok (refusal, after) → after.Sound ∧ graph.next ≤ after.next ∧
        (refusal.isSome → after = graph) := by
  have checked : (performAll {} drill).toOption.isSome = true := by decide +kernel
  cases run : performAll {} drill with
  | ok graph => exact ⟨graph, rfl, performAll_sound run⟩
  | error fault =>
    rw [run] at checked
    cases checked

end Graph

end Staging
