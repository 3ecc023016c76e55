import Staging.Proofs.Seclusion

/-! # Passages through a block

Data enters a block through a link to a block input, passes nodes along connections and
leaves through a link of a block output. Compaction keeps the passages between block ports
of other blocks, with the nodes on them apart from identities, and all that leads to nodes
with mandatory effects.
-/

namespace Staging

open Std Relation List ExtTreeSet HandleSet

variable {id : NodeId} {node : Node} {exit : BlockOutputId} {entry : BlockInputId}
  {ids : List NodeId} {port : InputId}

/-- The node on a passage, if it is no identity. -/
def Node.mark (node : Node) (id : NodeId) : List NodeId :=
  if node.isIdentity then [] else [id]

namespace Placed

variable {B placed pre between post : Placed} {goal : BlockInputId ⊕ NodeId}

/-- A link leads from the block output to a block input of the block around the port. -/
def Enters (placed : Placed) (exit : BlockOutputId) (port : InputId) : Prop :=
  ∃ entry, (entry ∈ placed.block.inputs ∧ placed.wiring.inputPort? entry = some port) ∧
    placed.wiring.Linked exit entry

/-- A link leads from a block output of the block around the port to the block input. -/
def Leaves (placed : Placed) (port : OutputId) (entry : BlockInputId) : Prop :=
  ∃ exit, (exit ∈ placed.block.outputs ∧ placed.wiring.outputPort? exit = some port) ∧
    placed.wiring.Linked exit entry

/-- Data at the port gets to the goal, a block input or a node with a mandatory effect, and
passes these nodes on its way. -/
inductive Ahead (placed : Placed) : BlockInputId ⊕ NodeId → InputId → List NodeId → Prop where
  | leave {id : NodeId} {node : Node} {port : InputId} {output : OutputId} {entry : BlockInputId}
      (got : placed.graph.nodes[id]? = some node) (own : port ∈ node.inputs)
      (own' : output ∈ node.outputs) (left : placed.Leaves output entry) :
      Ahead placed (.inl entry) port (node.mark id)
  | arrive {id : NodeId} {node : Node} {port : InputId}
      (got : placed.graph.nodes[id]? = some node) (own : port ∈ node.inputs)
      (plain : node.isIdentity = false) (mandatory : node.hasMandatoryEffect = true) :
      Ahead placed (.inr id) port []
  | on {id : NodeId} {node : Node} {goal : BlockInputId ⊕ NodeId} {port next : InputId}
      {output : OutputId} {ids : List NodeId} (got : placed.graph.nodes[id]? = some node)
      (own : port ∈ node.inputs) (own' : output ∈ node.outputs)
      (fed : placed.graph.Feeds output next) (rest : Ahead placed goal next ids) :
      Ahead placed goal port (node.mark id ++ ids)

/-- Data from the block output gets into the block and to the goal, past these nodes. -/
def Passes (placed : Placed) (exit : BlockOutputId) (ids : List NodeId)
    (goal : BlockInputId ⊕ NodeId) : Prop :=
  ∃ port, placed.Enters exit port ∧ placed.Ahead goal port ids

/-- The goal is no block input of the block. -/
def Foreign (placed : Placed) : BlockInputId ⊕ NodeId → Prop
  | .inl entry => entry ∉ placed.block.inputs
  | .inr _ => True

/-- A block does what it did before, and what is outside of it has not changed. -/
structure Preserves (pre post : Placed) : Prop where
  passes : ∀ exit, exit ∉ pre.block.outputs → ∀ goal, pre.Foreign goal → ∀ ids,
    post.Passes exit ids goal ↔ pre.Passes exit ids goal
  nodes : ∀ id, id ∉ pre.block.nodes → post.graph.nodes[id]? = pre.graph.nodes[id]?
  feeds : ∀ output input owner, pre.graph.outputOwner? output = some owner →
    owner ∉ pre.block.nodes → (post.graph.Feeds output input ↔ pre.graph.Feeds output input)
  links : ∀ exit, exit ∉ pre.block.outputs → ∀ entry, entry ∉ pre.block.inputs →
    (post.wiring.Linked exit entry ↔ pre.wiring.Linked exit entry)

theorem Preserves.trans (one : pre.Preserves between) (two : between.Preserves post)
    (fewer : pre.Fewer between) (wf : pre.graph.Consistent)
    (wf' : between.graph.Consistent) : pre.Preserves post := by
  have inputs : ∀ entry, entry ∉ pre.block.inputs → entry ∉ between.block.inputs :=
    fun _ outside own => outside (fewer.inputs.subset own)
  have outputs : ∀ exit, exit ∉ pre.block.outputs → exit ∉ between.block.outputs :=
    fun _ outside own => outside (fewer.outputs.subset own)
  have nodes : ∀ id, id ∉ pre.block.nodes → id ∉ between.block.nodes :=
    fun id outside own => outside (fewer.nodes id own)
  refine ⟨fun exit outside goal foreign ids => ?_, fun id foreign => (two.nodes id
    (nodes id foreign)).trans (one.nodes id foreign), fun out input owner owned foreign => ?_,
    fun exit outside entry outside' => (two.links exit (outputs exit outside) entry
      (inputs entry outside')).trans (one.links exit outside entry outside')⟩
  · refine (two.passes exit (outputs exit outside) goal ?_ ids).trans
      (one.passes exit outside goal foreign ids)
    cases goal with
    | inl entry => exact inputs entry foreign
    | inr id => trivial
  · obtain ⟨node, got, own⟩ := wf.node_of_output owned
    rw [← one.feeds out input owner owned foreign]
    exact two.feeds out input owner
      (wf'.output_of_mem ((one.nodes owner foreign).trans got) own) (nodes owner foreign)

theorem Ahead.mono (ahead : pre.Ahead goal port ids)
    (nodes : ∀ (id : NodeId) node, pre.graph.nodes[id]? = some node →
      post.graph.nodes[id]? = some node)
    (feeds : ∀ out input, pre.graph.Feeds out input → post.graph.Feeds out input)
    (leaves : ∀ out entry, goal = .inl entry → pre.Leaves out entry →
      post.Leaves out entry) : post.Ahead goal port ids := by
  induction ahead with
  | leave got own own' left => exact .leave (nodes _ _ got) own own' (leaves _ _ rfl left)
  | arrive got own plain mandatory => exact .arrive (nodes _ _ got) own plain mandatory
  | on got own own' fed _ ih =>
    exact .on (nodes _ _ got) own own' (feeds _ _ fed) (ih leaves)

/-! ## Links -/

section Rewired

variable (rewired : pre.Rewired post)

include rewired

/-- Only links of block ports that are left count. -/
theorem Rewired.enters : post.Enters exit port ↔ ∃ entry, (entry ∈ pre.block.inputs ∧
    pre.wiring.inputPort? entry = some port) ∧ post.wiring.Linked exit entry :=
  exists_congr fun entry => and_congr_left fun link => by
    rw [(rewired.of_linked link).2.2, Wiring.inputPort?_eq, (rewired.of_linked link).2.1,
      Wiring.inputPort?_eq]

theorem Rewired.leaves {port : OutputId} : post.Leaves port entry ↔ ∃ exit,
    (exit ∈ pre.block.outputs ∧ pre.wiring.outputPort? exit = some port) ∧
      post.wiring.Linked exit entry :=
  exists_congr fun exit => and_congr_left fun link => by
    rw [(rewired.of_linked link).1.2, Wiring.outputPort?_eq, (rewired.of_linked link).1.1,
      Wiring.outputPort?_eq]

variable (leaves : ∀ port entry, entry ∉ pre.block.inputs →
  (post.Leaves port entry ↔ pre.Leaves port entry))

include leaves

theorem Rewired.ahead_iff (foreign : pre.Foreign goal) :
    post.Ahead goal port ids ↔ pre.Ahead goal port ids := by
  have outside : ∀ out entry, goal = .inl entry →
      (post.Leaves out entry ↔ pre.Leaves out entry) := by
    rintro out entry rfl
    exact leaves out entry foreign
  have G := rewired.graph
  exact ⟨fun ahead => ahead.mono (fun _ _ got => G ▸ got) (fun _ _ fed => G ▸ fed)
    fun out entry eq => (outside out entry eq).mp, fun ahead => ahead.mono
      (fun _ _ got => G ▸ got) (fun _ _ fed => G ▸ fed)
      fun out entry eq => (outside out entry eq).mpr⟩

end Rewired

section Relinked

variable (relinked : pre.Relinked post)

include relinked

/-- The same block ports of others are linked with the same ports of the nodes. -/
theorem Relinked.enters_iff (outside : exit ∉ pre.block.outputs) :
    post.Enters exit port ↔ pre.Enters exit port := by
  have same := relinked.links (· = exit) (fun entry => entry ∈ pre.block.inputs ∧
    pre.wiring.inputPort? entry = some port) (fun one own other own' _ => iff_of_false
      (fun eq => outside (eq ▸ own)) fun eq => outside (eq ▸ own')) fun one own other own' eq => by
    rw [Wiring.inputPort?_eq, Wiring.inputPort?_eq, eq, and_iff_right own, and_iff_right own']
  simp only [exists_and_left, exists_eq_left] at same
  exact relinked.enters.trans same

theorem Relinked.leaves_iff {port : OutputId} (outside : entry ∉ pre.block.inputs) :
    post.Leaves port entry ↔ pre.Leaves port entry := by
  have same := relinked.links (fun exit => exit ∈ pre.block.outputs ∧
    pre.wiring.outputPort? exit = some port) (· = entry) (fun one own other own' eq => by
      rw [Wiring.outputPort?_eq, Wiring.outputPort?_eq, eq, and_iff_right own, and_iff_right own'])
    fun one own other own' _ => iff_of_false (fun eq => outside (eq ▸ own))
      fun eq => outside (eq ▸ own')
  simp only [exists_and_left, exists_eq_left] at same
  exact relinked.leaves.trans same

/-- The links that enter and leave a block are what matters. -/
theorem Relinked.preserves : pre.Preserves post := by
  refine ⟨fun exit outside _ foreign _ => exists_congr fun port =>
    and_congr (relinked.enters_iff outside)
      (relinked.ahead_iff (fun _ _ => relinked.leaves_iff) foreign),
    fun id _ => by rw [relinked.graph], fun out input _ _ _ => by rw [relinked.graph],
    fun exit outside entry outside' => ?_⟩
  have same := relinked.links (· = exit) (· = entry) (fun one own other own' _ => iff_of_false
      (fun eq => outside (eq ▸ own)) fun eq => outside (eq ▸ own'))
    fun one own other own' _ => iff_of_false (fun eq => outside' (eq ▸ own))
      fun eq => outside' (eq ▸ own')
  simpa only [exists_and_left, exists_eq_left] using same

end Relinked

/-! ## Nodes -/

/-- The links that are left when the block ports around some ports are taken out. -/
private theorem exists_left {role : Role} {γ : Type} {own gone : List (Handle role)}
    {port? : Handle role → Option γ} {link link' : Handle role → Prop} {ports : List γ} {port : γ}
    (linked : ∀ handle, link' handle ↔ link handle ∧ handle ∉ gone)
    (mem : ∀ handle ∈ own, ∀ port, port? handle = some port → (handle ∈ gone ↔ port ∈ ports)) :
    (∃ handle, (handle ∈ own ∧ port? handle = some port) ∧ link' handle) ↔
      port ∉ ports ∧ ∃ handle, (handle ∈ own ∧ port? handle = some port) ∧ link handle := by
  simp only [linked, ← exists_and_left]
  refine exists_congr fun handle => ?_
  constructor
  · rintro ⟨⟨has, wraps⟩, link, kept⟩
    exact ⟨fun inside => kept ((mem handle has port wraps).mpr inside), ⟨has, wraps⟩, link⟩
  · rintro ⟨apart, ⟨has, wraps⟩, link⟩
    exact ⟨⟨has, wraps⟩, link, fun inside => apart ((mem handle has port wraps).mp inside)⟩

section Remove

variable (seated : B.Seated) (got : B.graph.nodes[id]? = some node)

include seated got

theorem enters_removeNode (outside : exit ∉ B.block.outputs) :
    (B.removeNode id).Enters exit port ↔ port ∉ node.inputs ∧ B.Enters exit port := by
  obtain ⟨rewired, -⟩ := removeNode_spec seated got
  rw [removeNode_eq got]
  refine rewired.enters.trans (exists_left
    (fun entry => (linked_removePorts seated.wiring _ _).trans
    (and_congr_right' (and_iff_right fun mem => outside
      ((mem_ports_of_node B node).2 exit mem)))) fun entry own port wraps => ?_)
  simp [mem_flatMap, BlockFrame.entriesOf, own, wraps]

theorem leaves_removeNode {port : OutputId} (outside : entry ∉ B.block.inputs) :
    (B.removeNode id).Leaves port entry ↔ port ∉ node.outputs ∧ B.Leaves port entry := by
  obtain ⟨rewired, -⟩ := removeNode_spec seated got
  rw [removeNode_eq got]
  refine rewired.leaves.trans (exists_left (fun exit => (linked_removePorts seated.wiring _ _).trans
    (and_congr_right' (and_iff_left fun mem => outside
      ((mem_ports_of_node B node).1 entry mem)))) fun exit own port wraps => ?_)
  simp [mem_flatMap, BlockFrame.exitsOf, own, wraps]

/-- Data that is not at the node goes past it, if it cannot get there or not on from there. -/
theorem ahead_removeNode (ahead : B.Ahead goal port ids) (foreign : B.Foreign goal)
    (apart : port ∉ node.inputs) (gap : (∀ port ∈ node.inputs, ∀ out, ¬ B.graph.Feeds out port) ∨
      ∀ port ∈ node.inputs, ∀ ids, ¬ B.Ahead goal port ids) :
    (B.removeNode id).Ahead goal port ids := by
  obtain ⟨-, dropped⟩ := removeNode_spec seated got
  have ne : ∀ {other record} {port : InputId}, B.graph.nodes[other]? = some record →
      port ∈ record.inputs → port ∉ node.inputs → other ≠ id := by
    rintro other record port stored own apart rfl
    cases got.symm.trans stored
    exact apart own
  have kept : ∀ {other record}, B.graph.nodes[other]? = some record → other ≠ id →
      (B.removeNode id).graph.nodes[other]? = some record := by
    intro other record stored ne
    rw [dropped.nodes, if_neg ne, stored]
  induction ahead with
  | leave stored own own' left =>
    have ne := ne stored own apart
    exact .leave (kept stored ne) own own' ((leaves_removeNode seated got foreign).mpr
      ⟨fun here => ne (seated.graph.output_unique stored own' got here), left⟩)
  | arrive stored own plain mandatory =>
    exact .arrive (kept stored (ne stored own apart)) own plain mandatory
  | @on other record goal port next out ids stored own own' fed rest ih =>
    have past : next ∉ node.inputs := fun here =>
      gap.elim (fun unfed => unfed next here out fed) fun useless => useless next here _ rest
    have ne := ne stored own apart
    exact .on (kept stored ne) own own' ((dropped.feeds out next).mpr
      ⟨fed, fun here => ne (seated.graph.output_unique stored own' got here), past⟩)
      (ih foreign past gap)

end Remove

section Secluded

variable (secluded : B.Secluded) (inside : id ∈ B.block.nodes)
  (got : B.graph.nodes[id]? = some node)

include secluded inside got

/-- A node is taken out past which goes all that has to. -/
theorem preserves_removeNode (past : ∀ goal, B.Foreign goal →
      ((∀ port ∈ node.inputs, ∀ out, ¬ B.graph.Feeds out port) ∨
        ∀ port ∈ node.inputs, ∀ ids, ¬ B.Ahead goal port ids) ∧
      ∀ exit ids port, B.Enters exit port → B.Ahead goal port ids →
        ∃ port', port' ∉ node.inputs ∧ B.Enters exit port' ∧ B.Ahead goal port' ids) :
    B.Preserves (B.removeNode id) := by
  have seated := secluded.toSeated
  obtain ⟨inputs, outputs⟩ := mem_ports_of_node B node
  obtain ⟨-, dropped⟩ := removeNode_spec seated got
  refine ⟨fun exit outside goal foreign ids => ⟨?_, ?_⟩, fun other away => ?_,
    fun out input owner owned away => ?_, fun exit outside entry outside' => ?_⟩
  · rintro ⟨port, entered, ahead⟩
    refine ⟨port, ((enters_removeNode seated got outside).mp entered).2, ahead.mono
      (fun other record stored => (Option.ite_none_left_eq_some.mp
        ((dropped.nodes other).symm.trans stored)).2)
      (fun out input fed => ((dropped.feeds out input).mp fed).1) ?_⟩
    rintro out entry rfl left
    exact ((leaves_removeNode seated got foreign).mp left).2
  · rintro ⟨port, entered, ahead⟩
    obtain ⟨gap, past⟩ := past goal foreign
    obtain ⟨port', apart, entered, ahead⟩ := past exit ids port entered ahead
    exact ⟨port', (enters_removeNode seated got outside).mpr ⟨apart, entered⟩,
      ahead_removeNode seated got ahead foreign apart gap⟩
  · exact (dropped.nodes other).trans (if_neg fun eq : other = id => away (eq ▸ inside))
  · refine (dropped.feeds out input).trans (and_iff_left_of_imp fun fed => ⟨fun own => ?_,
      fun own => away ((secluded.inside owner id ⟨out, input, owned,
        seated.graph.input_of_mem got own, fed⟩).mpr inside)⟩)
    cases owned.symm.trans (seated.graph.output_of_mem got own)
    exact away inside
  · rw [removeNode_eq got]
    exact (linked_removePorts seated.wiring exit entry).trans (and_iff_left
      ⟨fun mem => outside (outputs exit mem), fun mem => outside' (inputs entry mem)⟩)

/-- An idle node is taken out. -/
theorem preserves_drop (idle : B.Idle node) : B.Preserves (B.removeNode id) := by
  refine preserves_removeNode secluded inside got fun goal foreign => ?_
  rcases idle with ⟨unfed, -⟩ | ⟨unused, -, plain⟩
  · refine ⟨.inl fun port own => (unfed port own).1, fun exit ids port entered ahead =>
      ⟨port, fun own => ?_, entered, ahead⟩⟩
    obtain ⟨entry, ⟨own', wraps⟩, -⟩ := entered
    exact (unfed port own).2 entry own' wraps
  · have useless : ∀ port ∈ node.inputs, ∀ ids, ¬ B.Ahead goal port ids := by
      intro port own ids ahead
      cases ahead with
      | leave stored own' mem left =>
        cases secluded.graph.input_unique stored own' got own
        cases stored.symm.trans got
        obtain ⟨exit, ⟨own, wraps⟩, -⟩ := left
        exact (unused _ mem).2 exit own wraps
      | arrive stored own' _ mandatory =>
        cases secluded.graph.input_unique stored own' got own
        cases stored.symm.trans got
        cases plain.symm.trans mandatory
      | on stored own' mem fed =>
        cases secluded.graph.input_unique stored own' got own
        cases stored.symm.trans got
        exact (unused _ mem).1 _ fed
    exact ⟨.inr useless, fun exit ids port entered ahead =>
      ⟨port, fun own => useless port own ids ahead, entered, ahead⟩⟩

end Secluded

/-! ## Identities -/

/-- Data at an identity at the entry goes on behind it. -/
theorem Doorway.ahead_iff {input : InputId} {out : OutputId}
    (door : B.Doorway id node input out) (wf : B.graph.Consistent) :
    B.Ahead goal input ids ↔ ∃ next, B.graph.Feeds out next ∧
      B.Ahead goal next ids := by
  have own : input ∈ node.inputs := door.inputs ▸ mem_singleton_self input
  have clear : node.mark id = [] := if_pos door.identity
  constructor
  · intro ahead
    cases ahead with
    | leave stored own' mem left =>
      cases wf.input_unique stored own' door.found own
      cases stored.symm.trans door.found
      rw [door.outputs, mem_singleton] at mem
      subst mem
      obtain ⟨exit, ⟨own, wraps⟩, -⟩ := left
      exact (filter_eq_nil_iff.mp door.unleft exit own (beq_iff_eq.mpr wraps)).elim
    | arrive stored own' plain =>
      cases wf.input_unique stored own' door.found own
      cases stored.symm.trans door.found
      cases plain.symm.trans door.identity
    | on stored own' mem fed rest =>
      cases wf.input_unique stored own' door.found own
      cases stored.symm.trans door.found
      rw [door.outputs, mem_singleton] at mem
      subst mem
      rw [clear, nil_append]
      exact ⟨_, fed, rest⟩
  · rintro ⟨next, fed, rest⟩
    have ahead := Ahead.on door.found own (door.outputs ▸ mem_singleton_self out) fed rest
    rwa [clear, nil_append] at ahead

section Fold

variable (secluded : B.Secluded) {id' : NodeId} {node' : Node} {input input' : InputId}
  {out out' : OutputId} {first : BlockInputId}
  (mem : first ∈ B.block.inputs ∧ B.wiring.inputPort? first = some input')

include secluded mem

/-- The sources of block inputs around one port are handed to one around another port. -/
theorem enters_moveAll (exit : BlockOutputId) (port : InputId) :
    ((B.block.entriesOf B.wiring input).foldl
      (fun state entry => state.moveSources entry first) B).Enters exit port ↔
      B.Enters exit port ∨ port = input' ∧ B.Enters exit input := by
  obtain ⟨wrapped, has⟩ := secluded.entries first mem.1
  obtain ⟨moved, kept, linked⟩ := moveAll_spec secluded.wiring has
    (B.block.entriesOf B.wiring input)
  have sources : ∀ exit, (∃ entry ∈ B.block.entriesOf B.wiring input,
      B.wiring.Linked exit entry) ↔ B.Enters exit input := by
    simp only [BlockFrame.entriesOf, mem_filter, beq_iff_eq, Enters, implies_true]
  simp only [sources] at linked
  generalize (B.block.entriesOf B.wiring input).foldl
    (fun state entry => state.moveSources entry first) B = post at moved kept linked ⊢
  simp only [moved.enters, linked, and_or_left, exists_or]
  refine or_congr .rfl ⟨?_, ?_⟩
  · rintro ⟨_, wraps, rfl, link⟩
    exact ⟨Option.mem_unique wraps.2 mem.2, link⟩
  · rintro ⟨rfl, link⟩
    exact ⟨first, mem, rfl, link⟩

/-- An identity hands its sources to another one that feeds the same ports, and goes. -/
theorem preserves_fold (door : B.Doorway id node input out)
    (door' : B.Doorway id' node' input' out')
    (feeds : ∀ next, B.graph.Feeds out next ↔ B.graph.Feeds out' next)
    (inside : id ∈ B.block.nodes) (ne : id' ≠ id) :
    B.Preserves (((B.block.entriesOf B.wiring input).foldl
      (fun state entry => state.moveSources entry first) B).removeNode id) := by
  have enters := @enters_moveAll _ secluded input _ _ mem
  obtain ⟨wraps, has⟩ := secluded.entries first mem.1
  obtain ⟨moved, kept, linked⟩ := moveAll_spec secluded.wiring has
    (B.block.entriesOf B.wiring input)
  generalize (B.block.entriesOf B.wiring input).foldl
    (fun state entry => state.moveSources entry first) B = post at enters moved kept linked ⊢
  have wf := secluded.graph
  have links : ∀ exit entry, entry ∉ B.block.inputs →
      (post.wiring.Linked exit entry ↔ B.wiring.Linked exit entry) := by
    intro exit entry outside
    rw [linked, or_iff_left]
    rintro ⟨rfl, -⟩
    exact outside mem.1
  have ahead : ∀ {goal port ids}, B.Foreign goal →
      (post.Ahead goal port ids ↔ B.Ahead goal port ids) := by
    refine moved.ahead_iff fun port entry outside => moved.leaves.trans ?_
    simp only [links _ entry outside]
    rfl
  -- data does the same at both identities
  have alike : ∀ goal ids, B.Ahead goal input ids ↔ B.Ahead goal input' ids := by
    intro goal ids
    simp only [door.ahead_iff wf, door'.ahead_iff wf, feeds]
  have preserves : B.Preserves post := by
    refine ⟨fun exit _ goal foreign ids => ?_, fun id _ => by rw [moved.graph],
      fun out input _ _ _ => by rw [moved.graph], fun exit _ entry => links exit entry⟩
    simp only [Passes, enters, ahead foreign, or_and_right, exists_or, and_assoc, exists_eq_left,
      ← alike]
    exact or_iff_left_of_imp fun entered => ⟨input, entered⟩
  have secluded' := moved.secluded secluded
  have apart : input' ∉ node.inputs := fun own => ne (wf.input_unique door'.found
    (door'.inputs ▸ mem_singleton_self input') door.found own)
  refine preserves.trans (preserves_removeNode secluded' (moved.nodes ▸ inside)
    (moved.graph ▸ door.found) fun goal foreign => ?_) moved.fewer wf secluded'.graph
  replace foreign : B.Foreign goal := by rwa [Foreign.eq_def, kept, ← Foreign.eq_def] at foreign
  refine ⟨.inl ?_, fun exit ids port entered going => ?_⟩
  · rw [door.inputs, forall_mem_singleton, moved.graph]
    exact door.unfed
  · by_cases here : port = input
    · subst here
      refine ⟨input', apart, (enters exit input').mpr (.inr ⟨rfl, ?_⟩),
        (ahead foreign).mpr ((alike goal ids).mp ((ahead foreign).mp going))⟩
      exact ((enters exit port).mp entered).elim (fun entered => entered) And.right
    · exact ⟨port, by simpa [door.inputs] using here, entered, going⟩

end Fold

/-- Each step of compaction keeps what the block does. -/
theorem preserves_step (secluded : B.Secluded) (sheds : B.Sheds post) :
    B.Preserves post := by
  have wf := secluded.wiring
  cases sheds with
  | mergeInput own own' ne => exact (relinked_mergeInput wf own own' ne).preserves
  | mergeOutput own own' ne => exact (relinked_mergeOutput wf own own' ne).preserves
  | trim any useless => exact (secluded.relinked_trim useless).preserves
  | drop own got idle => exact preserves_drop secluded own got idle
  | fold own own' stands stands' mem ne =>
    obtain ⟨node, input, out, door, eq⟩ := (entryIdentity?_eq_some_iff secluded.graph).mp stands
    obtain ⟨node', input', out', door', eq'⟩ :=
      (entryIdentity?_eq_some_iff secluded.graph).mp stands'
    simp only [Prod.mk.injEq, true_and] at eq eq'
    obtain ⟨rfl, rfl⟩ := eq
    obtain ⟨rfl, fed⟩ := eq'
    obtain ⟨within, wraps⟩ := mem_filter.mp mem
    exact preserves_fold secluded ⟨within, eq_of_beq wraps⟩ door door'
      (fun next => by rw [Graph.Feeds, Graph.Feeds, fed]) own ne

theorem preserves_of_steps (secluded : B.Secluded)
    (steps : ReflTransGen Sheds B post) : B.Preserves post := by
  induction steps with
  | refl => exact ⟨fun _ _ _ _ _ => .rfl, fun _ _ => rfl, fun _ _ _ _ _ => .rfl,
      fun _ _ _ _ => .rfl⟩
  | tail steps sheds preserves =>
    have secluded' := secluded.of_steps steps
    exact preserves.trans (preserves_step secluded' sheds)
      (fewer_of_steps secluded.toSeated steps) secluded.graph secluded'.graph

/-- Data gets to nodes of the block only. -/
theorem Secluded.mem_of_passes (secluded : B.Secluded)
    (passes : B.Passes exit ids (.inr id)) : id ∈ B.block.nodes := by
  have wf := secluded.graph
  obtain ⟨first, ⟨entry, ⟨own, wraps⟩, -⟩, ahead⟩ := passes
  obtain ⟨owner, inside, owned⟩ := secluded.entered entry own first wraps
  clear wraps
  generalize eq : (Sum.inr id : BlockInputId ⊕ NodeId) = goal at ahead
  induction ahead generalizing owner with
  | leave => cases eq
  | arrive got own =>
    cases eq
    cases owned.symm.trans (wf.input_of_mem got own)
    exact inside
  | @on other record goal port next out ids got own own' fed _ ih =>
    cases owned.symm.trans (wf.input_of_mem got own)
    obtain ⟨owner', owned'⟩ := wf.exists_inputOwner fed
    exact ih owner' ((secluded.inside other owner' ⟨out, next,
      wf.output_of_mem got own', owned', fed⟩).mp inside) owned' eq

/-- Compaction of a secluded block succeeds and keeps what the block does: the ways of data
through it, and the nodes with mandatory effects to which data gets. -/
theorem compact_preserves (secluded : placed.Secluded) : ∃ after, placed.compact = .ok after ∧
    (∀ exit, exit ∉ placed.block.outputs → (∀ entry, entry ∉ placed.block.inputs → ∀ ids,
        (after.Passes exit ids (.inl entry) ↔ placed.Passes exit ids (.inl entry)) ∧
        (after.wiring.Linked exit entry ↔ placed.wiring.Linked exit entry)) ∧
      ∀ ids id, placed.Passes exit ids (.inr id) →
        id ∈ after.block.nodes ∧ after.Passes exit ids (.inr id)) ∧
    (∀ id, id ∉ placed.block.nodes → after.graph.nodes[id]? = placed.graph.nodes[id]?) ∧
    ∀ output input owner, placed.graph.outputOwner? output = some owner →
      owner ∉ placed.block.nodes →
        (after.graph.Feeds output input ↔ placed.graph.Feeds output input) := by
  have steps := steps_compacted secluded.toSeated
  have preserves := preserves_of_steps secluded steps
  refine ⟨placed.compacted, secluded.compact_eq_ok, fun exit outside =>
    ⟨fun entry outside' ids => ⟨preserves.passes exit outside (.inl entry) outside' ids,
      preserves.links exit outside entry outside'⟩, fun ids id passes => ?_⟩,
    preserves.nodes, preserves.feeds⟩
  have passes' := (preserves.passes exit outside (.inr id) trivial ids).mpr passes
  exact ⟨(secluded.of_steps steps).mem_of_passes passes', passes'⟩

theorem compact_preserves_isthmus : ∃ after, isthmus.compact = .ok after ∧
    after.Passes ⟨4⟩ [⟨0⟩] (.inl ⟨5⟩) := by
  obtain ⟨after, run, keeps, -⟩ := compact_preserves secluded_isthmus
  have passes : isthmus.Passes ⟨4⟩ [⟨0⟩] (.inl ⟨5⟩) := by
    obtain ⟨node, got⟩ : ∃ node, isthmus.graph.nodes[(⟨0⟩ : NodeId)]? = some node := ⟨_, rfl⟩
    have mark : node.mark ⟨0⟩ = [⟨0⟩] := by cases got; rfl
    have link : ⟨2⟩ ∈ isthmus.wiring.targets ⟨4⟩ := by decide +kernel
    have link' : ⟨5⟩ ∈ isthmus.wiring.targets ⟨3⟩ := by decide +kernel
    refine ⟨⟨1⟩, ⟨⟨2⟩, ⟨.head _, by decide +kernel⟩, link⟩, mark ▸ ?_⟩
    exact .leave got (by cases got; exact .head _) (by cases got; exact .head _)
      ⟨⟨3⟩, ⟨.head _, by decide +kernel⟩, link'⟩
  exact ⟨after, run, ((keeps ⟨4⟩ (by decide +kernel)).1 ⟨5⟩ (by decide +kernel) _).1.mpr passes⟩

end Placed

end Staging
