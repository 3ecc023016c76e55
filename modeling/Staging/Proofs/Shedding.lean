import Staging.Proofs.Compacting

/-! # Steps of compaction

Compaction takes one thing after the other out of a block: a block port that
repeats another one or has no link, a node through which no data gets, an
identity that does what another one does. A block that compaction does not make
smaller is therefore left as it is.
-/

namespace Staging

open Std Relation List ExtTreeSet HandleSet

variable {B pre between post : Placed} {item : NodeId × List BlockInputId × InputSet}
  {entries : List BlockInputId} {id : NodeId} {node : Node} {entry : BlockInputId}
  {exit : BlockOutputId}

namespace Placed

/-- Nodes and block ports have been taken out of the block, and the others wrap
what they wrapped. -/
structure Fewer (pre post : Placed) : Prop where
  nodes : ∀ id ∈ post.block.nodes, id ∈ pre.block.nodes
  inputs : post.block.inputs.Sublist pre.block.inputs
  outputs : post.block.outputs.Sublist pre.block.outputs
  entryOf : ∀ entry wrapped, post.wiring.entryOf entry = some wrapped →
    pre.wiring.entryOf entry = some wrapped
  exitOf : ∀ exit wrapped, post.wiring.exitOf exit = some wrapped →
    pre.wiring.exitOf exit = some wrapped

namespace Fewer

private theorem refl (B : Placed) : B.Fewer B :=
  ⟨fun _ own => own, .refl _, .refl _, fun _ _ got => got, fun _ _ got => got⟩

private theorem trans (one : pre.Fewer between) (two : between.Fewer post) : pre.Fewer post where
  nodes id own := one.nodes id (two.nodes id own)
  inputs := two.inputs.trans one.inputs
  outputs := two.outputs.trans one.outputs
  entryOf entry wraps got := one.entryOf entry wraps (two.entryOf entry wraps got)
  exitOf exit wraps got := one.exitOf exit wraps (two.exitOf exit wraps got)

private theorem members_subset (fewer : pre.Fewer post) :
    post.block.nodes.members ⊆ pre.block.nodes.members := by
  intro id own
  rw [mem_members] at own ⊢
  exact fewer.nodes id own

theorem size_le (fewer : pre.Fewer post) : post.size ≤ pre.size := by
  have nodes := Finset.card_le_card fewer.members_subset
  rw [card_members, card_members] at nodes
  exact Nat.add_le_add (Nat.add_le_add nodes fewer.inputs.length_le) fewer.outputs.length_le

/-- Nothing has been taken out of a block that is not smaller. -/
theorem eq (fewer : pre.Fewer post) (still : ¬ post.size < pre.size) :
    (∀ id, id ∈ post.block.nodes ↔ id ∈ pre.block.nodes) ∧
      post.block.inputs = pre.block.inputs ∧ post.block.outputs = pre.block.outputs := by
  have nodes := Finset.card_le_card fewer.members_subset
  have inputs := fewer.inputs.length_le
  have outputs := fewer.outputs.length_le
  have sizes : pre.block.nodes.size + pre.block.inputs.length + pre.block.outputs.length ≤
      post.block.nodes.size + post.block.inputs.length + post.block.outputs.length :=
    Nat.le_of_not_lt still
  rw [card_members, card_members] at nodes
  refine ⟨fun id => ?_, fewer.inputs.eq_of_length (by omega), fewer.outputs.eq_of_length (by omega)⟩
  have alike := Finset.eq_of_subset_of_card_le fewer.members_subset (by
    rw [card_members, card_members]
    omega)
  rw [← mem_members, alike, mem_members]

end Fewer

private theorem fewer_removeInput (B : Placed) (entry : BlockInputId) :
    B.Fewer (B.removeInput entry) where
  nodes _ own := own
  inputs := filter_sublist
  outputs := .refl _
  entryOf other wraps got := by
    rw [removeInput, Wiring.entryOf_eraseInput] at got
    exact (Option.ite_none_left_eq_some.mp got).2
  exitOf exit wraps got := by
    rwa [removeInput, Wiring.exitOf_eraseInput] at got

private theorem fewer_removeOutput (B : Placed) (exit : BlockOutputId) :
    B.Fewer (B.removeOutput exit) where
  nodes _ own := own
  inputs := .refl _
  outputs := filter_sublist
  entryOf entry wraps got := by
    rwa [removeOutput, Wiring.entryOf_eraseOutput] at got
  exitOf other wraps got := by
    rw [removeOutput, Wiring.exitOf_eraseOutput] at got
    exact (Option.ite_none_left_eq_some.mp got).2

private theorem fewer_removePorts (B : Placed) (entries : List BlockInputId)
    (exits : List BlockOutputId) : B.Fewer (B.removePorts entries exits) := by
  refine foldl_keeps (fun _ state => B.Fewer state)
    (fun exit _ state fewer => fewer.trans (fewer_removeOutput state exit)) ?_
  exact foldl_keeps (fun _ state => B.Fewer state)
    (fun entry _ state fewer => fewer.trans (fewer_removeInput state entry)) (.refl B)

theorem fewer_removeNode (B : Placed) (id : NodeId) : B.Fewer (B.removeNode id) := by
  rw [removeNode]
  split
  · exact .refl B
  · exact (fewer_removePorts B _ _).trans
      ⟨fun _ own => ((mem_erase_iff _).mp own).2, .refl _, .refl _,
        fun _ _ got => got, fun _ _ got => got⟩

theorem fewer_removeNodes (B : Placed) (ids : List NodeId) : B.Fewer (ids.foldl removeNode B) :=
  foldl_keeps (fun _ state => B.Fewer state)
    (fun id _ state fewer => fewer.trans (fewer_removeNode state id)) (.refl B)

theorem Rewired.fewer (rewired : pre.Rewired post) : pre.Fewer post :=
  ⟨fun _ own => rewired.nodes ▸ own, rewired.inputs, rewired.outputs,
    fun _ _ => rewired.entryOf_eq_some, fun _ _ => rewired.exitOf_eq_some⟩

/-- The block without one of its nodes, whose ports are gone. -/
def dropNode (placed : Placed) (id : NodeId) (node : Node) : Placed :=
  { placed with
    graph := placed.graph.drop id node
    block := { placed.block with
      nodes := placed.block.nodes.erase id, origins := placed.block.origins.erase id } }

theorem removeNode_eq (got : B.graph.nodes[id]? = some node) : B.removeNode id =
    (B.removePorts (node.inputs.flatMap (B.block.entriesOf B.wiring))
      (node.outputs.flatMap (B.block.exitsOf B.wiring))).dropNode id node := by
  rw [removeNode, got]
  rfl

/-! ## Blocks with block ports of their own -/

/-- The block lists block ports of its own. -/
structure Seated (placed : Placed) : Prop where
  graph : placed.graph.Consistent
  wiring : placed.wiring.Consistent
  entries : ∀ entry ∈ placed.block.inputs, ∃ port,
    placed.wiring.entryOf entry = some (placed.block.id, port)
  exits : ∀ exit ∈ placed.block.outputs, ∃ port,
    placed.wiring.exitOf exit = some (placed.block.id, port)
  entriesNodup : placed.block.inputs.Nodup
  exitsNodup : placed.block.outputs.Nodup

theorem Rewired.seated (rewired : pre.Rewired post) (seated : pre.Seated) : post.Seated where
  graph := rewired.graph ▸ seated.graph
  wiring := rewired.wf
  entries entry own := by
    rw [rewired.entryOf, if_neg fun gone => gone.2 own, rewired.id]
    exact seated.entries entry (rewired.inputs.subset own)
  exits exit own := by
    rw [rewired.exitOf, if_neg fun gone => gone.2 own, rewired.id]
    exact seated.exits exit (rewired.outputs.subset own)
  entriesNodup := seated.entriesNodup.sublist rewired.inputs
  exitsNodup := seated.exitsNodup.sublist rewired.outputs

section Remove

variable (seated : B.Seated) (got : B.graph.nodes[id]? = some node)

include seated got

/-- What a block is left with when a node is taken out of it. -/
theorem removeNode_spec :
    B.Rewired (B.removePorts (node.inputs.flatMap (B.block.entriesOf B.wiring))
      (node.outputs.flatMap (B.block.exitsOf B.wiring))) ∧
    B.graph.Dropped id node (B.removeNode id).graph := by
  obtain ⟨inputs, outputs⟩ := mem_ports_of_node B node
  have rewired := rewired_removePorts seated.wiring inputs outputs
  refine ⟨rewired, ?_⟩
  simp only [removeNode_eq got, dropNode, rewired.graph]
  exact seated.graph.drop got

theorem seated_removeNode : (B.removeNode id).Seated := by
  obtain ⟨rewired, dropped⟩ := removeNode_spec seated got
  have seated' := rewired.seated seated
  have wf := dropped.wf
  rw [removeNode_eq got] at wf ⊢
  exact ⟨wf, seated'.wiring, seated'.entries, seated'.exits, seated'.entriesNodup,
    seated'.exitsNodup⟩

end Remove

/-! ## Idle nodes -/

/-- Neither a connection nor a block input of the block leads to the port. -/
def LooseInput (placed : Placed) (port : InputId) : Prop :=
  (∀ out, ¬ placed.graph.Feeds out port) ∧
    ∀ entry ∈ placed.block.inputs, placed.wiring.inputPort? entry ≠ some port

/-- Neither a connection nor a block output of the block starts at the port. -/
def LooseOutput (placed : Placed) (port : OutputId) : Prop :=
  (∀ input, ¬ placed.graph.Feeds port input) ∧
    ∀ exit ∈ placed.block.outputs, placed.wiring.outputPort? exit ≠ some port

private theorem isLooseInput_iff (wf : B.graph.Consistent) {port : InputId} :
    B.isLooseInput B.wrappedInputs port ↔ B.LooseInput port := by
  rw [isLooseInput, Bool.and_eq_true, HandleSet.isEmpty_iff, Bool.not_eq_true',
    ← Bool.not_eq_true, ExtTreeSet.contains_iff_mem, wrappedInputs, mem_of, mem_filterMap,
      LooseInput]
  simp only [wf.agree, not_exists, not_and, ne_eq]

private theorem isLooseOutput_iff {port : OutputId} :
    B.isLooseOutput B.wrappedOutputs port ↔ B.LooseOutput port := by
  rw [isLooseOutput, Bool.and_eq_true, HandleSet.isEmpty_iff, Bool.not_eq_true',
    ← Bool.not_eq_true, ExtTreeSet.contains_iff_mem, wrappedOutputs, mem_of, mem_filterMap,
      LooseOutput]
  simp only [Graph.Feeds, not_exists, not_and, ne_eq]

/-- No data gets through the node: none gets in, or what it does is of no use. -/
def Idle (placed : Placed) (node : Node) : Prop :=
  (∀ port ∈ node.inputs, placed.LooseInput port) ∧
      (node.isBoundary = false ∧ (node.inputs = [] → node.kind = .pseudo .empty) ∨
        ∀ port ∈ node.outputs, placed.LooseOutput port) ∨
    (∀ port ∈ node.outputs, placed.LooseOutput port) ∧ node.isBoundary = false ∧
      node.hasMandatoryEffect = false

theorem Fewer.inputPort? (fewer : pre.Fewer post) {port : InputId}
    (wraps : post.wiring.inputPort? entry = some port) :
    pre.wiring.inputPort? entry = some port := by
  rw [Wiring.inputPort?_eq, Option.map_eq_some_iff] at wraps ⊢
  exact wraps.imp fun _ => .imp_left (fewer.entryOf entry _)

theorem Fewer.outputPort? (fewer : pre.Fewer post) {port : OutputId}
    (wraps : post.wiring.outputPort? exit = some port) :
    pre.wiring.outputPort? exit = some port := by
  rw [Wiring.outputPort?_eq, Option.map_eq_some_iff] at wraps ⊢
  exact wraps.imp fun _ => .imp_left (fewer.exitOf exit _)

/-- What is idle stays idle when something is taken out of the block. -/
theorem Idle.mono (idle : pre.Idle node) (fewer : pre.Fewer post)
    (feeds : ∀ out input, post.graph.Feeds out input → pre.graph.Feeds out input) :
    post.Idle node := by
  have input : ∀ port, pre.LooseInput port → post.LooseInput port := fun port loose =>
    ⟨fun out fed => loose.1 out (feeds _ _ fed),
      fun entry own wraps => loose.2 entry (fewer.inputs.subset own) (fewer.inputPort? wraps)⟩
  have out : ∀ port, pre.LooseOutput port → post.LooseOutput port := fun port loose =>
    ⟨fun input fed => loose.1 input (feeds _ _ fed),
      fun exit own wraps => loose.2 exit (fewer.outputs.subset own) (fewer.outputPort? wraps)⟩
  exact idle.imp (.imp (fun unfed port own => input port (unfed port own))
      (.imp_right fun unused port own => out port (unused port own)))
    (.imp_left fun unused port own => out port (unused port own))

theorem mem_deadNodes (wf : B.graph.Consistent) : id ∈ B.deadNodes ↔
    id ∈ B.block.nodes ∧ ∃ node, B.graph.nodes[id]? = some node ∧ node.isBoundary = false ∧
      ((∀ port ∈ node.inputs, B.LooseInput port) ∧ (node.inputs = [] → node.kind = .pseudo .empty) ∨
        (∀ port ∈ node.outputs, B.LooseOutput port) ∧ node.hasMandatoryEffect = false) := by
  rw [deadNodes, mem_filter, mem_toList]
  refine and_congr_right fun _ => (Option.any_eq_true _ _).trans (exists_congr fun node =>
    and_congr_right fun _ => ?_)
  rw [Bool.and_eq_true, Bool.not_eq_true', Bool.or_eq_true, isUnfed, isUnused]
  refine and_congr_right fun _ => or_congr ?_ ?_
  · cases inputs : node.inputs with
    | nil => simp
    | cons port rest =>
      simp only [isEmpty_cons, Bool.false_eq_true, if_false, all_eq_true,
        isLooseInput_iff wf, reduceCtorEq, false_implies, and_true]
  · rw [Bool.and_eq_true, Bool.not_eq_true', all_eq_true, and_comm]
    simp only [isLooseOutput_iff]

theorem mem_disconnectedNodes (wf : B.graph.Consistent) : id ∈ B.disconnectedNodes ↔
    id ∈ B.block.nodes ∧ ∃ node, B.graph.nodes[id]? = some node ∧
      (∀ port ∈ node.inputs, B.LooseInput port) ∧ ∀ port ∈ node.outputs, B.LooseOutput port := by
  rw [disconnectedNodes, mem_filter, mem_toList]
  refine and_congr_right fun _ => (Option.any_eq_true _ _).trans (exists_congr fun node =>
    and_congr_right fun _ => ?_)
  simp only [Bool.and_eq_true, all_eq_true, isLooseInput_iff wf, isLooseOutput_iff]

/-! ## Identities at the entry of the block -/

/-- An identity that gets data from outside of the block only and feeds nodes of the
block only. -/
structure Doorway (placed : Placed) (id : NodeId) (node : Node) (input : InputId)
    (output : OutputId) : Prop where
  found : placed.graph.nodes[id]? = some node
  identity : node.isIdentity = true
  inputs : node.inputs = [input]
  outputs : node.outputs = [output]
  unfed : ∀ source, ¬ placed.graph.Feeds source input
  entered : placed.block.entriesOf placed.wiring input ≠ []
  unleft : placed.block.exitsOf placed.wiring output = []
  used : ∃ target, placed.graph.Feeds output target

theorem entryIdentity?_eq_some_iff (wf : B.graph.Consistent)
    : B.entryIdentity? id = some item ↔ ∃ node input out, B.Doorway id node input out ∧
        item = (id, B.block.entriesOf B.wiring input, B.graph.targets out) := by
  have unfed : ∀ input, (B.graph.sources input).isEmpty = true ↔
      ∀ source, ¬ B.graph.Feeds source input := fun input => by
    simp only [HandleSet.isEmpty_iff, wf.agree]
  constructor
  · intro got
    obtain ⟨node, stored, got⟩ := Option.bind_eq_some_iff.mp got
    obtain ⟨input, first, got⟩ := Option.bind_eq_some_iff.mp got
    obtain ⟨out, first', got⟩ := Option.bind_eq_some_iff.mp got
    obtain ⟨test, eq⟩ := Option.ite_none_right_eq_some.mp got
    simp only [Bool.and_eq_true, Bool.not_eq_true', unfed] at test
    obtain ⟨⟨⟨⟨identity, free⟩, entered⟩, unleft⟩, used⟩ := test
    have shape := identity
    simp only [Node.isIdentity, Bool.and_eq_true, beq_iff_eq] at shape
    obtain ⟨input', inputs⟩ := length_eq_one_iff.mp shape.1.2
    obtain ⟨out', outputs⟩ := length_eq_one_iff.mp shape.2
    rw [inputs] at first
    rw [outputs] at first'
    cases first
    cases first'
    exact ⟨node, input, out, ⟨stored, identity, inputs, outputs, free,
      fun empty => by simp [empty] at entered, isEmpty_iff.mp unleft,
      (isEmpty_eq_false_iff _).mp used⟩, (Option.some.inj eq).symm⟩
  · rintro ⟨node, input, out, door, rfl⟩
    rw [entryIdentity?, door.found]
    simp only [Option.bind_eq_bind, Option.bind_some, door.inputs, door.outputs, head?_cons]
    refine if_pos ?_
    simp only [Bool.and_eq_true, Bool.not_eq_true', unfed]
    exact ⟨⟨⟨⟨door.identity, door.unfed⟩, by simpa using door.entered⟩, by simp [door.unleft]⟩,
      (isEmpty_eq_false_iff _).mpr door.used⟩

/-! ## Steps -/

/-- The block ports of the block have no link or wrap no port of a node of the block. -/
structure Useless (placed : Placed) (entries : List BlockInputId) (exits : List BlockOutputId) :
    Prop where
  inputs : ∀ entry ∈ entries, entry ∈ placed.block.inputs ∧
    ((∀ exit, ¬ placed.wiring.Linked exit entry) ∨ ∀ owner ∈ placed.block.nodes,
      (placed.wiring.inputPort? entry).bind placed.graph.inputOwner? ≠ some owner)
  outputs : ∀ exit ∈ exits, exit ∈ placed.block.outputs ∧
    ((∀ entry, ¬ placed.wiring.Linked exit entry) ∨ ∀ owner ∈ placed.block.nodes,
      (placed.wiring.outputPort? exit).bind placed.graph.outputOwner? ≠ some owner)

theorem Useless.rewired {entries : List BlockInputId} {exits : List BlockOutputId}
    (useless : B.Useless entries exits) (wf : B.wiring.Consistent) :
    B.Rewired (B.removePorts entries exits) :=
  rewired_removePorts wf (fun entry mem => (useless.inputs entry mem).1)
    fun exit mem => (useless.outputs exit mem).1

/-- Something is taken out of the block. -/
inductive Sheds (placed : Placed) : Placed → Prop where
  /-- A block input hands its sources to another one around the same port. -/
  | mergeInput {entry first : BlockInputId} {port : InputId}
      (own : entry ∈ placed.block.inputs ∧
        placed.wiring.entryOf entry = some (placed.block.id, port))
      (own' : first ∈ placed.block.inputs ∧
        placed.wiring.entryOf first = some (placed.block.id, port)) (ne : first ≠ entry) :
      Sheds placed ((placed.moveSources entry first).removeInput entry)
  /-- A block output hands its targets to another one around the same port. -/
  | mergeOutput {exit first : BlockOutputId} {port : OutputId}
      (own : exit ∈ placed.block.outputs ∧ placed.wiring.exitOf exit = some (placed.block.id, port))
      (own' : first ∈ placed.block.outputs ∧
        placed.wiring.exitOf first = some (placed.block.id, port)) (ne : first ≠ exit) :
      Sheds placed ((placed.moveTargets exit first).removeOutput exit)
  /-- Block ports go that are of no use. -/
  | trim {entries : List BlockInputId} {exits : List BlockOutputId}
      (any : entries ≠ [] ∨ exits ≠ [])
      (useless : placed.Useless entries exits) : Sheds placed (placed.removePorts entries exits)
  /-- An idle node goes. -/
  | drop {id : NodeId} {node : Node} (own : id ∈ placed.block.nodes)
      (got : placed.graph.nodes[id]? = some node) (idle : placed.Idle node) :
      Sheds placed (placed.removeNode id)
  /-- An identity hands its sources to another one that feeds the same ports. -/
  | fold {id id' : NodeId} {entries entries' : List BlockInputId} {targets : InputSet}
      {first : BlockInputId} (own : id ∈ placed.block.nodes) (own' : id' ∈ placed.block.nodes)
      (door : placed.entryIdentity? id = some (id, entries, targets))
      (door' : placed.entryIdentity? id' = some (id', entries', targets))
      (mem : first ∈ entries') (ne : id' ≠ id) :
      Sheds placed ((entries.foldl (fun state entry => state.moveSources entry first)
        placed).removeNode id)

/-- The sources of block inputs are added to another one. -/
theorem moveAll_spec (wf : B.wiring.Consistent) {target : BlockInputId}
    {wraps : BlockId × InputId} (has : B.wiring.entryOf target = some wraps)
    (entries : List BlockInputId) :
    B.Rewired (entries.foldl (fun state entry => state.moveSources entry target) B) ∧
    (entries.foldl (fun state entry => state.moveSources entry target) B).block = B.block ∧
    ∀ exit other, (entries.foldl (fun state entry => state.moveSources entry target)
      B).wiring.Linked exit other ↔ B.wiring.Linked exit other ∨
        other = target ∧ ∃ entry ∈ entries, B.wiring.Linked exit entry := by
  induction entries generalizing B with
  | nil => exact ⟨.refl B wf, rfl, by simp⟩
  | cons entry rest ih =>
    obtain ⟨rewired, linked⟩ := @moveSources_spec B wf entry target wraps has
    have has' : (B.moveSources entry target).wiring.entryOf target = some wraps := by
      rw [rewired.entryOf, if_neg fun gone => gone.2 gone.1, has]
    obtain ⟨rewired', eq, linked'⟩ := ih rewired.wf has'
    refine ⟨rewired.trans rewired', eq, fun exit other => ?_⟩
    rw [foldl_cons, linked']
    simp only [linked, mem_cons, exists_eq_or_imp]
    grind

/-- The block inputs of an identity at the entry are block inputs of the block. -/
theorem mem_inputs_of_entryIdentity? (wf : B.graph.Consistent) {id' : NodeId} {targets : InputSet}
    (door : B.entryIdentity? id = some (id', entries, targets)) (mem : entry ∈ entries) :
    entry ∈ B.block.inputs := by
  obtain ⟨node, input, out, -, eq⟩ := (entryIdentity?_eq_some_iff wf).mp door
  cases eq
  exact mem_of_mem_filter mem

section Sheds

variable (seated : B.Seated)

include seated

/-- A step takes block ports out, or a node and block ports. -/
theorem Sheds.split (sheds : B.Sheds post) : B.Rewired post ∨
    ∃ moved id node, B.Rewired moved ∧ id ∈ B.block.nodes ∧
      B.graph.nodes[id]? = some node ∧ post = moved.removeNode id := by
  cases sheds with
  | mergeInput own own' => exact .inl (mergeInput_spec seated.wiring own.1 own'.2).1
  | mergeOutput own own' => exact .inl (mergeOutput_spec seated.wiring own.1 own'.2).1
  | trim any useless => exact .inl (useless.rewired seated.wiring)
  | drop own got => exact .inr ⟨B, _, _, .refl B seated.wiring, own, got, rfl⟩
  | @fold id id' entries entries' targets first own own' door door' mem ne =>
    obtain ⟨node, input, out, door, -⟩ := (entryIdentity?_eq_some_iff seated.graph).mp door
    obtain ⟨port, has⟩ := seated.entries first (mem_inputs_of_entryIdentity? seated.graph door' mem)
    exact .inr ⟨_, id, node, (moveAll_spec seated.wiring has entries).1, own, door.found, rfl⟩

private theorem Sheds.fewer (sheds : B.Sheds post) : B.Fewer post := by
  rcases sheds.split seated with rewired | ⟨moved, id, node, rewired, -, -, rfl⟩
  · exact rewired.fewer
  · exact rewired.fewer.trans (fewer_removeNode moved id)

/-- A step takes something out. -/
theorem Sheds.size_lt (sheds : B.Sheds post) : post.size < B.size := by
  have fewer := sheds.fewer seated
  refine Nat.lt_of_not_le fun large => ?_
  obtain ⟨nodes, inputs, outputs⟩ := fewer.eq (Nat.not_lt_of_le large)
  have gone : ∀ {state : Placed} {id : NodeId} {node : Node},
      state.graph.nodes[id]? = some node → id ∉ (state.removeNode id).block.nodes := by
    intro state id node got own
    rw [removeNode_eq got] at own
    exact ((mem_erase_iff _).mp own).1 rfl
  cases sheds with
  | mergeInput own =>
    have kept := inputs ▸ own.1
    simp [removeInput] at kept
  | mergeOutput own =>
    have kept := outputs ▸ own.1
    simp [removeOutput] at kept
  | trim any useless =>
    rw [removePorts_eq] at inputs outputs
    simp only [filter_eq_self, decide_eq_true_eq] at inputs outputs
    rcases any with any | any
    · obtain ⟨entry, mem⟩ := exists_mem_of_ne_nil _ any
      exact inputs entry (useless.inputs entry mem).1 mem
    · obtain ⟨exit, mem⟩ := exists_mem_of_ne_nil _ any
      exact outputs exit (useless.outputs exit mem).1 mem
  | drop own got => exact gone got ((nodes _).mpr own)
  | @fold id id' entries entries' targets first own own' door door' mem ne =>
    obtain ⟨node, input, out, door, -⟩ := (entryIdentity?_eq_some_iff seated.graph).mp door
    obtain ⟨port, has⟩ := seated.entries first (mem_inputs_of_entryIdentity? seated.graph door' mem)
    have eq := (moveAll_spec seated.wiring has entries).1.graph
    exact gone (eq ▸ door.found) ((nodes id).mpr own)

theorem Seated.step (sheds : B.Sheds post) : post.Seated := by
  rcases sheds.split seated with rewired | ⟨moved, id, node, rewired, -, got, rfl⟩
  · exact rewired.seated seated
  · exact seated_removeNode (rewired.seated seated) (rewired.graph ▸ got)

theorem Seated.of_steps (steps : ReflTransGen Sheds B post) : post.Seated := by
  induction steps with
  | refl => exact seated
  | tail _ sheds seated => exact seated.step sheds

/-- Steps that do not make the block smaller are none. -/
theorem eq_of_steps (steps : ReflTransGen Sheds B post) : post.size < B.size ∨ post = B := by
  induction steps with
  | refl => exact .inr rfl
  | tail steps sheds ih =>
    have smaller := sheds.size_lt (seated.of_steps steps)
    exact .inl (ih.elim smaller.trans fun eq => eq ▸ smaller)

theorem fewer_of_steps (steps : ReflTransGen Sheds B post) : B.Fewer post := by
  induction steps with
  | refl => exact .refl B
  | tail steps sheds fewer => exact fewer.trans (sheds.fewer (seated.of_steps steps))

/-- No connection is new. -/
theorem precedes_of_steps (steps : ReflTransGen Sheds B post) {first second : NodeId}
    (prec : post.graph.Precedes first second) : B.graph.Precedes first second := by
  induction steps with
  | refl => exact prec
  | @tail between _ steps sheds ih =>
    refine ih ?_
    have seated := seated.of_steps steps
    rcases sheds.split seated with rewired | ⟨moved, id, node, rewired, -, got, rfl⟩
    · exact rewired.graph ▸ prec
    · obtain ⟨-, dropped⟩ := removeNode_spec (rewired.seated seated) (rewired.graph ▸ got)
      obtain ⟨out, input, owned, owned', fed⟩ := prec
      rw [dropped.outputOwner, rewired.graph] at owned
      rw [dropped.inputOwner, rewired.graph] at owned'
      rw [dropped.feeds, rewired.graph] at fed
      exact ⟨out, input, (Option.ite_none_left_eq_some.mp owned).2,
        (Option.ite_none_left_eq_some.mp owned').2, fed.1⟩

/-! ## Passes -/

theorem steps_mergeInputs : ReflTransGen Sheds B B.mergeInputs := by
  refine (mergeInputs_keeps seated.entriesNodup seated.entries (fun state =>
    ReflTransGen Sheds B state ∧ state.block.id = B.block.id) ?_ ⟨.refl, rfl⟩).1.1
  intro state entry first port holds own own' ne
  rw [← holds.2] at own own'
  exact ⟨holds.1.tail (.mergeInput own own' ne), holds.2⟩

theorem steps_mergeOutputs : ReflTransGen Sheds B B.mergeOutputs := by
  refine (mergeOutputs_keeps seated.exitsNodup seated.exits (fun state =>
    ReflTransGen Sheds B state ∧ state.block.id = B.block.id) ?_ ⟨.refl, rfl⟩).1.1
  intro state exit first port holds own own' ne
  rw [← holds.2] at own own'
  exact ⟨holds.1.tail (.mergeOutput own own' ne), holds.2⟩

omit seated in
private theorem Useless.steps {exits : List BlockOutputId} (useless : B.Useless entries exits) :
    ReflTransGen Sheds B (B.removePorts entries exits) := by
  by_cases any : entries ≠ [] ∨ exits ≠ []
  · exact .single (.trim any useless)
  · simp only [ne_eq, not_or, Classical.not_not] at any
    rw [any.1, any.2]
    exact .refl

private theorem steps_removeUnlinked : ReflTransGen Sheds B B.removeUnlinked := by
  refine Useless.steps ⟨fun entry mem => ?_, fun exit mem => ?_⟩
  · obtain ⟨own, empty⟩ := mem_filter.mp mem
    exact ⟨own, .inl fun exit link =>
      (isEmpty_iff _).mp empty exit ((seated.wiring.agree exit entry).mp link)⟩
  · obtain ⟨own, empty⟩ := mem_filter.mp mem
    exact ⟨own, .inl ((isEmpty_iff _).mp empty)⟩

omit seated in
private theorem steps_removeOrphans : ReflTransGen Sheds B B.removeOrphans := by
  refine Useless.steps ⟨fun entry mem => ?_, fun exit mem => ?_⟩
  all_goals
    obtain ⟨own, foreign⟩ := mem_filter.mp mem
    refine ⟨own, .inr fun owner inside owned => ?_⟩
    simp [owned, inside] at foreign

private theorem steps_removeNodes {ids : List NodeId} (nodup : ids.Nodup)
    (idle : ∀ id ∈ ids, id ∈ B.block.nodes ∧ ∃ node, B.graph.nodes[id]? = some node ∧
      B.Idle node) : ReflTransGen Sheds B (ids.foldl removeNode B) := by
  induction ids generalizing B with
  | nil => exact .refl
  | cons id rest ih =>
    obtain ⟨fresh, nodup⟩ := nodup_cons.mp nodup
    obtain ⟨own, node, got, idle'⟩ := idle id (.head _)
    obtain ⟨rewired, dropped⟩ := removeNode_spec seated got
    refine .head (.drop own got idle') (ih (seated_removeNode seated got) nodup
      fun other later => ?_)
    obtain ⟨own', node', got', idle''⟩ := idle other (.tail _ later)
    have ne : other ≠ id := fun eq => fresh (eq ▸ later)
    refine ⟨?_, node', by rw [dropped.nodes, if_neg ne, got'],
      idle''.mono (fewer_removeNode B id) fun out input fed =>
        ((dropped.feeds out input).mp fed).1⟩
    rw [removeNode_eq got]
    exact (mem_erase_iff _).mpr ⟨ne, rewired.nodes ▸ own'⟩

private theorem steps_removeDead : ReflTransGen Sheds B B.removeDead := by
  refine shrink_keeps (ReflTransGen Sheds B) (fun state steps => ?_) .refl
  have seated := seated.of_steps steps
  refine steps.trans (steps_removeNodes seated ((nodup_toList _).filter _) fun id dead => ?_)
  obtain ⟨own, node, got, clear, idle⟩ := (mem_deadNodes seated.graph).mp dead
  exact ⟨own, node, got, idle.imp (fun unfed => ⟨unfed.1, .inl ⟨clear, unfed.2⟩⟩)
    fun unused => ⟨unused.1, clear, unused.2⟩⟩

private theorem steps_disconnected :
    ReflTransGen Sheds B (B.disconnectedNodes.foldl removeNode B) := by
  refine steps_removeNodes seated ((nodup_toList _).filter _) fun id loose => ?_
  obtain ⟨own, node, got, unfed, unused⟩ := (mem_disconnectedNodes seated.graph).mp loose
  exact ⟨own, node, got, .inl ⟨unfed, .inr unused⟩⟩

omit seated in
/-- Links play no role for the identities at the entry of the block. -/
theorem entryIdentity?_congr (eq : post.graph = B.graph) (block : post.block = B.block)
    (entryOf : ∀ entry, post.wiring.entryOf entry = B.wiring.entryOf entry)
    (exitOf : ∀ exit, post.wiring.exitOf exit = B.wiring.exitOf exit) (id : NodeId) :
    post.entryIdentity? id = B.entryIdentity? id := by
  simp only [entryIdentity?, eq, block, BlockFrame.entriesOf, BlockFrame.exitsOf,
    Wiring.inputPort?_eq, Wiring.outputPort?_eq, entryOf, exitOf]

/-- Identities at the entry stay there when a node is taken out that nothing feeds. -/
theorem entryIdentity?_removeNode (got : B.graph.nodes[id]? = some node)
    (unfed : ∀ port ∈ node.inputs, ∀ out, ¬ B.graph.Feeds out port) {other : NodeId}
    (ne : other ≠ id) (stands : B.entryIdentity? other = some item) :
    (B.removeNode id).entryIdentity? other = some item := by
  obtain ⟨rewired, dropped⟩ := removeNode_spec seated got
  obtain ⟨record, input, out, door, rfl⟩ := (entryIdentity?_eq_some_iff seated.graph).mp stands
  have apart : input ∉ node.inputs := fun own => ne (seated.graph.input_unique door.found
    (door.inputs ▸ mem_singleton_self input) got own)
  have apart' : out ∉ node.outputs := fun own => ne (seated.graph.output_unique door.found
    (door.outputs ▸ mem_singleton_self out) got own)
  have feeds : ∀ target, (B.removeNode id).graph.Feeds out target ↔
      B.graph.Feeds out target := fun target =>
    (dropped.feeds out target).trans (and_iff_left_of_imp fun fed =>
      ⟨apart', fun own => unfed target own out fed⟩)
  have targets : (B.removeNode id).graph.targets out = B.graph.targets out :=
    ext_mem fun {target} => feeds target
  have entries : (B.removeNode id).block.entriesOf (B.removeNode id).wiring input =
      B.block.entriesOf B.wiring input := by
    rw [removeNode_eq got]
    simp only [dropNode, BlockFrame.entriesOf, removePorts_eq, filter_filter]
    refine filter_congr fun entry own => ?_
    obtain ⟨port, entered⟩ := seated.entries entry own
    have kept := @entryOf_removePorts B seated.wiring
      (node.inputs.flatMap (B.block.entriesOf B.wiring))
      (node.outputs.flatMap (B.block.exitsOf B.wiring)) entry
    rw [removePorts_eq] at kept
    rw [Wiring.inputPort?_eq, kept, Wiring.inputPort?_eq, entered]
    by_cases here : port ∈ node.inputs
    · have off : port ≠ input := fun eq => apart (eq ▸ here)
      simp [mem_flatMap_entriesOf entered, own, here, off]
    · simp [mem_flatMap_entriesOf entered, here]
  have unleft : (B.removeNode id).block.exitsOf (B.removeNode id).wiring out = [] := by
    refine filter_eq_nil_iff.mpr fun exit own wraps => ?_
    have fewer := fewer_removeNode B id
    rw [beq_iff_eq, Wiring.outputPort?_eq, Option.map_eq_some_iff] at wraps
    obtain ⟨⟨block, port⟩, left, rfl⟩ := wraps
    have mem := (mem_exitsOf (fewer.exitOf exit _ left)).mpr ⟨fewer.outputs.subset own, rfl⟩
    rw [door.unleft] at mem
    cases mem
  refine (entryIdentity?_eq_some_iff dropped.wf).mpr ⟨record, input, out,
    ⟨by rw [dropped.nodes, if_neg ne, door.found], door.identity, door.inputs, door.outputs,
      fun source fed => door.unfed source ((dropped.feeds _ _).mp fed).1, entries ▸ door.entered,
      unleft, door.used.imp fun target => (feeds target).mpr⟩, by rw [entries, targets]⟩

omit seated in
/-- What keeps a property while identities hand their sources over does so for all that
feed the same ports, and these become one. -/
theorem mergeIdentities_keeps (inv : Placed → Prop) (sound : ∀ state, inv state → state.Seated)
    (taken : ∀ {state : Placed} {id id' entries entries' targets first}, inv state →
      id ∈ state.block.nodes → id' ∈ state.block.nodes →
      state.entryIdentity? id = some (id, entries, targets) →
      state.entryIdentity? id' = some (id', entries', targets) → first ∈ entries' → id' ≠ id →
      inv ((entries.foldl (fun state entry => state.moveSources entry first) state).removeNode id))
    (start : inv B) : inv B.mergeIdentities ∧
      ∀ item ∈ B.block.nodes.toList.filterMap B.entryIdentity?,
        ∀ item' ∈ B.block.nodes.toList.filterMap B.entryIdentity?,
        item.1 ∈ B.mergeIdentities.block.nodes → item'.1 ∈ B.mergeIdentities.block.nodes →
        item.2.2 = item'.2.2 → ∃ entry, entry ∈ item.2.1 ∧ entry ∈ item'.2.1 := by
  let doors := B.block.nodes.toList.filterMap B.entryIdentity?
  -- the identities that are still to come, or that have been chosen, are as they were
  let loop : List (NodeId × List BlockInputId × InputSet) →
      List (InputSet × BlockInputId) × Placed → Prop := fun rest state =>
    inv state.2 ∧ (rest.map Prod.fst).Nodup ∧
      (∀ item ∈ rest, item.1 ∈ state.2.block.nodes ∧ state.2.entryIdentity? item.1 = some item) ∧
      (∀ pair ∈ state.1, ∃ id entries, id ∉ rest.map Prod.fst ∧ id ∈ state.2.block.nodes ∧
        state.2.entryIdentity? id = some (id, entries, pair.1) ∧ pair.2 ∈ entries) ∧
      ∀ item ∈ doors, item ∉ rest → item.1 ∈ state.2.block.nodes →
        ∃ pair, state.1.find? (fun pair => pair.1 == item.2.2) = some pair ∧ pair.2 ∈ item.2.1
  have wf := (sound B start).graph
  have named : ∀ {id item}, B.entryIdentity? id = some item → item.1 = id := by
    intro id item got
    obtain ⟨_, _, _, -, rfl⟩ := (entryIdentity?_eq_some_iff wf).mp got
    rfl
  suffices ∀ final, loop [] final → inv final.2 ∧ ∀ item ∈ doors, ∀ item' ∈ doors,
      item.1 ∈ final.2.block.nodes → item'.1 ∈ final.2.block.nodes →
      item.2.2 = item'.2.2 → ∃ entry, entry ∈ item.2.1 ∧ entry ∈ item'.2.1 by
    refine this _ (foldl_keeps loop ?_ ⟨start, ?_, fun item mem => ?_, by simp,
      fun item mem gone => absurd mem gone⟩)
    · rintro ⟨id, entries, targets⟩ rest ⟨firsts, state⟩ ⟨holds, nodup, stand, chosen, kept⟩
      have seated := sound state holds
      rw [map_cons, nodup_cons] at nodup
      obtain ⟨⟨own, door⟩, later⟩ := forall_mem_cons.mp stand
      obtain ⟨_, _, _, here, eq⟩ := (entryIdentity?_eq_some_iff seated.graph).mp door
      replace chosen : ∀ pair ∈ firsts, ∃ id' entries, (id' ≠ id ∧ id' ∉ rest.map Prod.fst) ∧
          id' ∈ state.block.nodes ∧ state.entryIdentity? id' = some (id', entries, pair.1) ∧ pair.2
          ∈ entries := by
        simpa only [map_cons, mem_cons, not_or] using chosen
      cases known : firsts.find? fun pair => pair.1 == targets with
      | none =>
        cases entries with
        | nil => exact absurd (Prod.mk.inj (Prod.mk.inj eq).2).1.symm here.entered
        | cons first entries =>
          simp only [known]
          refine ⟨holds, nodup.2, later, fun pair mem => ?_, fun item mem gone own' => ?_⟩
          · rcases mem_append.mp mem with old | new
            · obtain ⟨id', entries, absent, stands⟩ := chosen pair old
              exact ⟨id', entries, absent.2, stands⟩
            · rw [mem_singleton.mp new]
              exact ⟨id, _, nodup.1, own, door, (.head _)⟩
          · rw [find?_append]
            by_cases now : item = (id, first :: entries, targets)
            · subst now
              exact ⟨(targets, first), by simp [known], (.head _)⟩
            · obtain ⟨pair, got, mem⟩ := kept item mem (by simp [now, gone]) own'
              exact ⟨pair, by rw [got]; rfl, mem⟩
      | some pair =>
        simp only [known]
        obtain rfl : pair.1 = targets := by simpa using find?_some known
        obtain ⟨id', entries', ⟨ne, -⟩, own', door', mem'⟩ :=
          chosen pair (mem_of_find?_eq_some known)
        obtain ⟨port, has⟩ :=
          seated.entries pair.2 (mem_inputs_of_entryIdentity? seated.graph door' mem')
        obtain ⟨moved, eq, -⟩ := moveAll_spec seated.wiring has entries
        have stays : ∀ {other item}, other ≠ id → state.entryIdentity? other = some item →
            ((entries.foldl (fun state entry => state.moveSources entry pair.2)
              state).removeNode id).entryIdentity? other = some item := by
          intro other item apart stands
          refine entryIdentity?_removeNode (moved.seated seated) (moved.graph ▸ here.found) ?_
            apart ((entryIdentity?_congr moved.graph eq (fun entry => ?_) (fun exit => ?_)
              other).trans stands)
          · rw [here.inputs, forall_mem_singleton, moved.graph]
            exact here.unfed
          · rw [moved.entryOf, eq, if_neg fun gone => gone.2 gone.1]
          · rw [moved.exitOf, eq, if_neg fun gone => gone.2 gone.1]
        have left : ∀ other, other ∈ ((entries.foldl (fun state entry =>
            state.moveSources entry pair.2) state).removeNode id).block.nodes ↔
              other ≠ id ∧ other ∈ state.block.nodes := by
          intro other
          rw [removeNode_eq (moved.graph ▸ here.found), dropNode, removePorts_eq]
          simp only [mem_erase_iff, moved.nodes]
        refine ⟨taken holds own own' door door' mem' ne, nodup.2, fun item mem => ?_,
          fun other mem => ?_, fun item mem gone own' => ?_⟩
        · have apart : item.1 ≠ id := fun eq => nodup.1 (mem_map.mpr ⟨item, mem, eq⟩)
          exact ⟨(left item.1).mpr ⟨apart, (later item mem).1⟩, stays apart (later item mem).2⟩
        · obtain ⟨id', entries', ⟨apart, absent⟩, own', stands, mem⟩ := chosen other mem
          exact ⟨id', entries', absent, (left id').mpr ⟨apart, own'⟩, stays apart stands, mem⟩
        · obtain ⟨apart, own'⟩ := (left item.1).mp own'
          refine kept item mem (fun now => ?_) own'
          rcases mem_cons.mp now with rfl | now
          · exact apart rfl
          · exact gone now
    · rw [map_filterMap]
      refine (nodup_toList _).filterMap fun first second id one two => ?_
      obtain ⟨item, got, rfl⟩ := Option.map_eq_some_iff.mp one
      obtain ⟨item', got', eq⟩ := Option.map_eq_some_iff.mp two
      exact (named got).symm.trans (eq.symm.trans (named got'))
    · obtain ⟨id, inside, got⟩ := mem_filterMap.mp mem
      rw [named got]
      exact ⟨mem_toList.mp inside, got⟩
  rintro final ⟨holds, -, -, -, kept⟩
  refine ⟨holds, fun item mem item' mem' own own' eq => ?_⟩
  obtain ⟨pair, got, one⟩ := kept item mem not_mem_nil own
  obtain ⟨pair', got', two⟩ := kept item' mem' not_mem_nil own'
  rw [eq, got'] at got
  cases got
  exact ⟨_, one, two⟩

private theorem steps_mergeIdentities : ReflTransGen Sheds B B.mergeIdentities :=
  (mergeIdentities_keeps (ReflTransGen Sheds B) (fun _ => seated.of_steps)
    (fun steps own own' door door' mem ne => steps.tail (.fold own own' door door' mem ne)) .refl).1

/-! ## Compaction -/

/-- Passes that go step by step and together do not make the block smaller leave it as
it is. -/
theorem steps_passes {passes : List (Placed → Placed)}
    (each : ∀ pass ∈ passes, ∀ {state : Placed}, state.Seated →
      ReflTransGen Sheds state (pass state)) :
    ReflTransGen Sheds B (passes.foldl (fun state pass => pass state) B) ∧
      (¬ (passes.foldl (fun state pass => pass state) B).size < B.size →
        ∀ pass ∈ passes, pass B = B) := by
  induction passes generalizing B with
  | nil => exact ⟨.refl, by simp⟩
  | cons pass rest ih =>
    obtain ⟨first, later⟩ := forall_mem_cons.mp each
    have step := first seated
    have seated' := seated.of_steps step
    obtain ⟨steps, stays⟩ := ih seated' later
    refine ⟨step.trans steps, fun still => ?_⟩
    rcases eq_of_steps seated step with smaller | eq
    · refine absurd ?_ still
      rcases eq_of_steps seated' steps with less | alike
      · exact less.trans smaller
      · rwa [foldl_cons, alike]
    · rw [eq] at stays
      rw [foldl_cons, eq] at still
      exact forall_mem_cons.mpr ⟨eq, stays still⟩

theorem steps_compactRound : ReflTransGen Sheds B B.compactRound ∧
    (¬ B.compactRound.size < B.size → ∀ pass ∈
      [mergeInputs, mergeOutputs, removeUnlinked, removeDead, removeOrphans, mergeIdentities],
      pass B = B) := by
  have passes := @steps_passes B seated
    [mergeInputs, mergeOutputs, removeUnlinked, removeDead, removeOrphans, mergeIdentities]
  simp only [foldl_cons, foldl_nil] at passes
  rw [compactRound]
  refine passes fun pass mem state seated => ?_
  simp only [mem_cons, not_mem_nil, or_false] at mem
  rcases mem with rfl | rfl | rfl | rfl | rfl | rfl
  · exact steps_mergeInputs seated
  · exact steps_mergeOutputs seated
  · exact steps_removeUnlinked seated
  · exact steps_removeDead seated
  · exact steps_removeOrphans
  · exact steps_mergeIdentities seated

theorem steps_shrink : ReflTransGen Sheds B (shrink size compactRound B) :=
  shrink_keeps (ReflTransGen Sheds B) (fun _ steps =>
    steps.trans (steps_compactRound (seated.of_steps steps)).1) .refl

/-- Compaction goes step by step. -/
theorem steps_compacted : ReflTransGen Sheds B B.compacted := by
  rw [compacted]
  split
  · have steps := steps_shrink seated
    exact steps.trans (steps_disconnected (seated.of_steps steps))
  · exact .refl

end Sheds

end Placed

end Staging
