import Staging.Proofs.Unifying

/-! # Narrowed blocks

Compaction, bypassing and unification change the ports and the links of one block. Whatever
the block holds, blocks list their block ports afterwards as before, and a block leads to
another one only if it did so before, directly or through the changed block. The block loses
nodes of its own only, and is still entered at nodes of one side.
-/

namespace Staging

open Std List ExtTreeSet HandleSet HandleMap

variable {sides : Bool → Prop} {copy first origin id : NodeId} {kept node : Node} {source : Graph}
  {entry : BlockInputId}

/-! ## What block ports wrap -/

section Opens

variable {role : Role} {γ : Type} {of of' : Handle role → Option (BlockId × γ)}
  {owner? owner?' : γ → Option NodeId} {block : BlockId} {known known' : NodeId → Prop}

/-- The block ports of the block wrap ports of nodes of which something is known. -/
def OpensAt (of : Handle role → Option (BlockId × γ)) (owner? : γ → Option NodeId)
    (block : BlockId) (known : NodeId → Prop) : Prop :=
  ∀ handle port, of handle = some (block, port) → ∃ owner, known owner ∧ owner? port = some owner

variable (opens : OpensAt of owner? block known)

include opens

theorem OpensAt.imp (fewer : ∀ handle port, of' handle = some (block, port) →
      of handle = some (block, port))
    (owns : ∀ owner port, known owner → owner? port = some owner →
      known' owner ∧ owner?' port = some owner) : OpensAt of' owner?' block known' := by
  intro handle port wraps
  obtain ⟨owner, good, owned⟩ := opens handle port (fewer handle port wraps)
  exact ⟨owner, owns owner port good owned⟩

theorem OpensAt.mono (owns : ∀ owner port, known owner → owner? port = some owner →
    known' owner ∧ owner?' port = some owner) : OpensAt of owner?' block known' :=
  opens.imp (fun _ _ wraps => wraps) owns

/-- A node is dropped whose ports are not wrapped. -/
theorem OpensAt.drop {ports : List γ} [DecidableEq γ]
    (owners : ∀ port, owner?' port = if port ∈ ports then none else owner? port)
    (own : ∀ port, port ∈ ports ↔ owner? port = some id)
    (apart : ∀ handle port, of handle = some (block, port) → port ∉ ports) :
    OpensAt of owner?' block fun owner => owner ≠ id ∧ known owner := by
  intro handle port wraps
  have foreign := apart handle port wraps
  obtain ⟨owner, good, owned⟩ := opens handle port wraps
  refine ⟨owner, ⟨?_, good⟩, by rw [owners, if_neg foreign, owned]⟩
  rintro rfl
  exact foreign ((own port).mpr owned)

/-- The ports of a node are replaced by those of another one. -/
theorem OpensAt.replaced {own : List (Handle role)} {old new : List γ} [DecidableEq γ]
    (rewraps : ∀ handle, of' handle = if handle ∈ own then
        (of handle).map fun wraps => (wraps.1, replaced (old.zip new) wraps.2)
      else of handle)
    (listed : ∀ handle, handle ∈ own ↔ ∃ port, of handle = some (block, port))
    (nodup : old.Nodup) (length : old.length = new.length)
    (owns : ∀ port, port ∈ old ↔ owner? port = some copy)
    (owns' : ∀ port ∈ new, owner? port = some first) (twin : known copy → known first) :
    OpensAt of' owner? block known := by
  intro handle port wraps
  obtain ⟨port', pre, rfl⟩ := exists_rewrapped rewraps listed wraps
  obtain ⟨owner, good, owned⟩ := opens handle port' pre
  refine ⟨_, ?_, owner_replaced nodup length owns owns' owned⟩
  split
  · next here => exact twin (here ▸ good)
  · exact good

end Opens

/-- The nodes with an origin are copies of nodes of the source, with as many ports. -/
def Block.CopiesFrom (block : Block) (source graph : Graph) : Prop :=
  ∀ copy origin : NodeId, block.origins[copy]? = some origin → copy ∈ block.nodes ∧
    ∃ node original, graph.nodes[copy]? = some node ∧ source.nodes[origin]? = some original ∧
      node.boundary = original.boundary ∧ node.inputs.length = original.inputs.length ∧
      node.outputs.length = original.outputs.length

/-- Two copies of one node are shuffles both or neither, and have as many ports. -/
theorem Block.CopiesFrom.twins {block : Block} {graph : Graph}
    (copies : block.CopiesFrom source graph)
    (named : block.origins[first]? = some origin) (named' : block.origins[copy]? = some origin)
    (got : graph.nodes[first]? = some kept) (got' : graph.nodes[copy]? = some node) :
    node.boundary = kept.boundary ∧ node.inputs.length = kept.inputs.length ∧
      node.outputs.length = kept.outputs.length := by
  obtain ⟨-, _, original, stored, stands, boundary, ins, outs⟩ := copies first origin named
  obtain ⟨-, _, _, stored', stands', boundary', ins', outs'⟩ := copies copy origin named'
  cases got.symm.trans stored
  cases got'.symm.trans stored'
  cases stands.symm.trans stands'
  exact ⟨boundary'.trans boundary.symm, ins'.trans ins.symm, outs'.trans outs.symm⟩

namespace Placed

/-- The block is entered and left at nodes of its own, and entered at shuffles or at other nodes
as the given sides allow. -/
structure Opens (sides : Bool → Prop) (placed : Placed) : Prop where
  entered : OpensAt placed.wiring.entryOf placed.graph.inputOwner? placed.block.id fun owner =>
    owner ∈ placed.block.nodes ∧ sides (placed.graph.isShuffleBoundary owner)
  left : OpensAt placed.wiring.exitOf placed.graph.outputOwner? placed.block.id
    (· ∈ placed.block.nodes)

/-- The nodes of the block are copies of nodes of the source, and the block is
entered on one of the given sides. -/
structure Faces (source : Graph) (sides : Bool → Prop) (placed : Placed) : Prop
    extends placed.Opens sides where
  copies : placed.block.CopiesFrom source placed.graph

/-- A block has been changed without new ways between other blocks than through
it. -/
structure Narrowed (others : List Block) (pre post : Placed) : Prop where
  id : post.block.id = pre.block.id
  graph : post.graph.Consistent
  roster : Roster post.wiring (post.block :: others)
  leads : ∀ first second, post.wiring.Leads first second → pre.wiring.Leads first second ∨
    pre.wiring.Leads first pre.block.id ∧ pre.wiring.Leads pre.block.id second
  nodes : ∀ id ∈ post.block.nodes, id ∈ pre.block.nodes
  stored : ∀ id : NodeId, post.graph.nodes[id]? =
    if id ∈ pre.block.nodes ∧ id ∉ post.block.nodes then none else pre.graph.nodes[id]?
  origins : ∀ id : NodeId, post.block.origins[id]? =
    if id ∈ pre.block.nodes ∧ id ∉ post.block.nodes then none else pre.block.origins[id]?
  entries : ∀ entry block port, block ≠ pre.block.id →
    post.wiring.entryOf entry = some (block, port) →
    pre.wiring.entryOf entry = some (block, port)
  exits : ∀ exit block port, block ≠ pre.block.id →
    post.wiring.exitOf exit = some (block, port) → pre.wiring.exitOf exit = some (block, port)
  opens : ∀ {source : Graph} {sides : Bool → Prop}, pre.Faces source sides → post.Opens sides

variable {others : List Block} {B pre between post : Placed}

namespace Narrowed

section

variable (narrowed : Narrowed others pre post)

include narrowed

/-- Nodes of other blocks are as they were. -/
theorem outside (foreign : id ∉ pre.block.nodes) : post.graph.nodes[id]? = pre.graph.nodes[id]? :=
  (narrowed.stored id).trans (if_neg fun lost => foreign lost.1)

theorem inside (own : id ∈ post.block.nodes) : post.graph.nodes[id]? = pre.graph.nodes[id]? :=
  (narrowed.stored id).trans (if_neg fun lost => lost.2 own)

/-- The block faces the sides that it faced. -/
theorem faces (faced : pre.Faces source sides) : post.Faces source sides where
  toOpens := narrowed.opens faced
  copies copy origin named := by
    rw [narrowed.origins] at named
    obtain ⟨stays, named⟩ := Option.ite_none_left_eq_some.mp named
    obtain ⟨own, rest⟩ := faced.copies copy origin named
    have own' : copy ∈ post.block.nodes := not_not.mp fun lost => stays ⟨own, lost⟩
    exact ⟨own', by rwa [narrowed.inside own']⟩

end

theorem trans (one : Narrowed others pre between)
    (two : Narrowed others between post) : Narrowed others pre post where
  id := two.id.trans one.id
  graph := two.graph
  roster := two.roster
  leads first second leads := by
    rcases two.leads first second leads with direct | ⟨into, outOf⟩
    · exact one.leads first second direct
    · rw [one.id] at into outOf
      have into' : pre.wiring.Leads first pre.block.id :=
        (one.leads _ _ into).elim (fun led => led) And.left
      have outOf' : pre.wiring.Leads pre.block.id second :=
        (one.leads _ _ outOf).elim (fun led => led) And.right
      exact .inr ⟨into', outOf'⟩
  nodes id own := one.nodes id (two.nodes id own)
  stored id := by rw [two.stored, one.stored, ite_removed (one.nodes id) (two.nodes id)]
  origins id := by rw [two.origins, one.origins, ite_removed (one.nodes id) (two.nodes id)]
  entries entry block port ne entered := one.entries entry block port ne
      (two.entries entry block port (one.id ▸ ne) entered)
  exits exit block port ne left := one.exits exit block port ne
      (two.exits exit block port (one.id ▸ ne) left)
  opens faced := two.opens (one.faces faced)

end Narrowed

theorem Faces.mono {sides' : Bool → Prop} (faced : B.Faces source sides)
    (wider : ∀ side, sides side → sides' side) : B.Faces source sides' where
  copies := faced.copies
  entered := faced.entered.mono fun _ _ own owned => ⟨own.imp_right (wider _), owned⟩
  left := faced.left

/-- A block faces the same sides in another graph that has its nodes. -/
theorem Faces.congr {source' graph graph' : Graph} {W wiring' : Wiring} {block : Block}
    (faced : Faces source sides ⟨graph, W, block⟩) (wf : graph.Consistent) (wf' : graph'.Consistent)
    (kept : ∀ id ∈ block.nodes, graph'.nodes[id]? = graph.nodes[id]?)
    (stands : ∀ (id : NodeId) node, source.nodes[id]? = some node → source'.nodes[id]? = some node)
    (entries : ∀ entry port, wiring'.entryOf entry = some (block.id, port) →
      W.entryOf entry = some (block.id, port))
    (exits : ∀ exit port, wiring'.exitOf exit = some (block.id, port) →
      W.exitOf exit = some (block.id, port)) :
    Faces source' sides ⟨graph', wiring', block⟩ where
  copies copy origin named := by
    obtain ⟨own, node, original, got, stood, alike⟩ := faced.copies copy origin named
    exact ⟨own, node, original, (kept copy own).trans got, stands origin original stood, alike⟩
  entered := faced.entered.imp entries fun owner port ⟨own, side⟩ owned => by
    obtain ⟨node, got, mem⟩ := wf.node_of_input owned
    refine ⟨⟨own, ?_⟩, wf'.input_of_mem ((kept owner own).trans got) mem⟩
    rwa [Graph.isShuffleBoundary, kept owner own]
  left := faced.left.imp exits fun owner port own owned => by
    obtain ⟨node, got, mem⟩ := wf.node_of_output owned
    exact ⟨own, wf'.output_of_mem ((kept owner own).trans got) mem⟩

/-- Blocks list their block ports when some are taken out of one of them. -/
theorem Rewired.roster (rewired : pre.Rewired post)
    (roster : Roster pre.wiring (pre.block :: others)) :
    Roster post.wiring (post.block :: others) := by
  have nodup := roster.nodup
  rw [map_cons, nodup_cons] at nodup
  have entered := roster.entries pre.block (.head _)
  have left := roster.exits pre.block (.head _)
  have ne : ∀ block ∈ others, block.id ≠ pre.block.id := fun block other eq =>
    nodup.1 (mem_map.mpr ⟨block, other, eq⟩)
  refine
    { wf := rewired.wf
      nodup := ?_
      below := forall_mem_cons.mpr ⟨?_, fun block other => ?_⟩
      entryBelow := fun entry block port has =>
        rewired.next ▸ roster.entryBelow entry block port (rewired.entryOf_eq_some has)
      exitBelow := fun exit block port has =>
        rewired.next ▸ roster.exitBelow exit block port (rewired.exitOf_eq_some has)
      entries := forall_mem_cons.mpr
        ⟨rewired.id ▸ mem_left_iff entered rewired.entryOf rewired.inputs.subset,
          fun block other entry => (roster.entries block (.tail _ other) entry).trans
            (exists_left_iff entered rewired.entryOf (ne block other) entry).symm⟩
      exits := forall_mem_cons.mpr
        ⟨rewired.id ▸ mem_left_iff left rewired.exitOf rewired.outputs.subset,
          fun block other exit => (roster.exits block (.tail _ other) exit).trans
            (exists_left_iff left rewired.exitOf (ne block other) exit).symm⟩
      entriesNodup := forall_mem_cons.mpr
        ⟨rewired.inputs.nodup (roster.entriesNodup pre.block (.head _)),
          fun block other => roster.entriesNodup block (.tail _ other)⟩
      exitsNodup := forall_mem_cons.mpr
        ⟨rewired.outputs.nodup (roster.exitsNodup pre.block (.head _)),
          fun block other => roster.exitsNodup block (.tail _ other)⟩ }
  · rw [map_cons, nodup_cons, rewired.id]
    exact nodup
  · rw [rewired.next, rewired.id]
    exact roster.below pre.block (.head _)
  · rw [rewired.next]
    exact roster.below block (.tail _ other)

/-! ## Compaction -/

section Compact

variable (graph : B.graph.Consistent) (roster : Roster B.wiring (B.block :: others))
  {entries : List BlockInputId} {exits : List BlockOutputId}

include graph roster

/-- Block ports are taken out of the block, and links lead through it at most. -/
theorem Rewired.narrowed (rewired : B.Rewired post)
    (leads : ∀ first second, post.wiring.Leads first second → B.wiring.Leads first second ∨
      B.wiring.Leads first B.block.id ∧ B.wiring.Leads B.block.id second) :
    Narrowed others B post where
  id := rewired.id
  graph := rewired.graph ▸ graph
  roster := rewired.roster roster
  leads := leads
  nodes id own := rewired.nodes ▸ own
  stored id := by simp [rewired.graph, rewired.nodes]
  origins id := by simp [rewired.origins, rewired.nodes]
  entries _ _ _ _ := rewired.entryOf_eq_some
  exits _ _ _ _ := rewired.exitOf_eq_some
  opens faced := by
    constructor
    all_goals rw [rewired.graph, rewired.nodes, rewired.id]
    · exact faced.entered.imp (fun _ _ => rewired.entryOf_eq_some) fun _ _ => .intro
    · exact faced.left.imp (fun _ _ => rewired.exitOf_eq_some) fun _ _ => .intro

theorem seated_of_roster : B.Seated :=
  ⟨graph, roster.wf, fun entry => (roster.entries _ (.head _) entry).mp,
    fun exit => (roster.exits _ (.head _) exit).mp, roster.entriesNodup _ (.head _),
    roster.exitsNodup _ (.head _)⟩

theorem narrowed_refl : Narrowed others B B :=
  (Rewired.refl B roster.wf).narrowed graph roster fun _ _ => .inl

theorem Rewired.narrowed_of_connects (rewired : B.Rewired post)
    (connects : ∀ left right, post.wiring.Connects left right →
      B.wiring.Connects left right) : Narrowed others B post := by
  refine rewired.narrowed graph roster fun first second leads => ?_
  rw [Wiring.leads_iff_connects] at leads
  obtain ⟨out, input, connected⟩ := leads
  exact .inl (Wiring.leads_iff_connects.mpr ⟨out, input, connects _ _ connected⟩)

/-- A block loses a node of its own at which it is neither entered nor left. -/
theorem narrowed_dropNode (got : B.graph.nodes[id]? = some node) (own : id ∈ B.block.nodes)
    (apart : ∀ {source : Graph} {sides : Bool → Prop}, B.Faces source sides →
      (∀ entry port, B.wiring.entryOf entry = some (B.block.id, port) → port ∉ node.inputs) ∧
      ∀ exit port, B.wiring.exitOf exit = some (B.block.id, port) →
        port ∉ node.outputs) : Narrowed others B (B.dropNode id node) := by
  have dropped := graph.drop got
  have lost : ∀ other, (other ∈ B.block.nodes ∧ other ∉ B.block.nodes.erase id) ↔ other = id := by
    intro other
    rw [mem_erase_iff]
    constructor
    · rintro ⟨own, lost⟩
      exact not_not.mp fun ne => lost ⟨ne, own⟩
    · rintro rfl
      exact ⟨own, fun left => left.1 rfl⟩
  refine
    { id := rfl
      graph := dropped.wf
      roster := roster.congr rfl
      leads := fun _ _ => .inl
      nodes := fun other own => ((mem_erase_iff _).mp own).2
      stored := fun other => (dropped.nodes other).trans (if_congr (lost other).symm rfl rfl)
      origins := fun other => (getElem?_erase _ id other).trans
        (if_congr (eq_comm.trans (lost other).symm) rfl rfl)
      entries := fun _ _ _ _ entered => entered
      exits := fun _ _ _ _ left => left
      opens := fun {source sides} faced => ?_ }
  obtain ⟨inputs, outputs⟩ := apart faced
  refine ⟨(faced.entered.drop dropped.inputOwner (fun _ => graph.mem_inputs_iff got) inputs).mono
    fun owner port ⟨ne, mem, side⟩ owned => ⟨⟨(mem_erase_iff _).mpr ⟨ne, mem⟩, ?_⟩, owned⟩,
    (faced.left.drop dropped.outputOwner (fun _ => graph.mem_outputs_iff got) outputs).mono
      fun owner port own owned => ⟨(mem_erase_iff _).mpr own, owned⟩⟩
  have kept := (dropped.nodes owner).trans (if_neg ne)
  rwa [Graph.isShuffleBoundary, ← kept] at side

/-- A block loses a node of its own. -/
theorem narrowed_removeNode (got : B.graph.nodes[id]? = some node)
    (own : id ∈ B.block.nodes) : Narrowed others B (B.removeNode id) := by
  obtain ⟨rewired, -⟩ := removeNode_spec (seated_of_roster graph roster) got
  have narrowed := rewired.narrowed_of_connects graph roster fun left right connected => by
    obtain ⟨exit, entry, leaves, entered, link, -⟩ := (connects_removePorts roster.wf).mp connected
    exact ⟨exit, entry, leaves, entered, link⟩
  rw [removeNode_eq got]
  refine narrowed.trans (narrowed_dropNode narrowed.graph narrowed.roster
    (rewired.graph ▸ got) (rewired.nodes ▸ own) fun _ => ⟨fun entry port entered inside => ?_,
      fun exit port left inside => ?_⟩)
  -- block ports around ports of the node have been removed
  · rw [rewired.id] at entered
    have pre := rewired.entryOf_eq_some entered
    have mem := (roster.entries _ (.head _) entry).mpr ⟨port, pre⟩
    rw [entryOf_removePorts roster.wf,
      if_pos ((mem_flatMap_entriesOf pre).mpr ⟨mem, inside⟩)] at entered
    cases entered
  · rw [rewired.id] at left
    have pre := rewired.exitOf_eq_some left
    have mem := (roster.exits _ (.head _) exit).mpr ⟨port, pre⟩
    rw [exitOf_removePorts roster.wf,
      if_pos ((mem_flatMap_exitsOf pre).mpr ⟨mem, inside⟩)] at left
    cases left

/-- Each step of compaction narrows the block. -/
theorem narrowed_step (sheds : B.Sheds post) : Narrowed others B post := by
  have seated := seated_of_roster graph roster
  have wf := roster.wf
  cases sheds with
  | mergeInput own own' ne =>
    have relinked := relinked_mergeInput wf own own' ne
    exact relinked.narrowed_of_connects graph roster fun _ _ => (relinked.connects _ _).mp
  | mergeOutput own own' ne =>
    have relinked := relinked_mergeOutput wf own own' ne
    exact relinked.narrowed_of_connects graph roster fun _ _ => (relinked.connects _ _).mp
  | trim any useless =>
    refine (useless.rewired wf).narrowed_of_connects graph roster ?_
    intro left right connected
    obtain ⟨exit, entry, leaves, entered, link, -⟩ := (connects_removePorts wf).mp connected
    exact ⟨exit, entry, leaves, entered, link⟩
  | drop own got => exact narrowed_removeNode graph roster got own
  | @fold id id' entries entries' targets first own own' door door' mem ne =>
    obtain ⟨port, has⟩ := seated.entries first (mem_inputs_of_entryIdentity? graph door' mem)
    obtain ⟨rewired, -, linked⟩ := moveAll_spec wf has entries
    have narrowed : Narrowed others B _ :=
      rewired.narrowed graph roster fun source target leads => by
        obtain ⟨exit, other, out, input, leaves, entered, link⟩ := leads
        replace leaves := rewired.exitOf_eq_some leaves
        replace entered := rewired.entryOf_eq_some entered
        rcases (linked exit other).mp link with stays | ⟨rfl, entry, mem', moved⟩
        · exact .inl ⟨exit, other, out, input, leaves, entered, stays⟩
        · obtain ⟨port', entered'⟩ :=
            seated.entries entry (mem_inputs_of_entryIdentity? graph door mem')
          cases has.symm.trans entered
          exact .inl ⟨exit, entry, out, port', leaves, entered', moved⟩
    obtain ⟨node, input, out, door, -⟩ := (entryIdentity?_eq_some_iff graph).mp door
    exact narrowed.trans (narrowed_removeNode narrowed.graph narrowed.roster
      (rewired.graph ▸ door.found) (rewired.nodes ▸ own))

theorem narrowed_of_steps (steps : Relation.ReflTransGen Sheds B post) :
    Narrowed others B post := by
  induction steps with
  | refl => exact narrowed_refl graph roster
  | tail _ sheds narrowed =>
    exact narrowed.trans (narrowed_step narrowed.graph narrowed.roster sheds)

theorem narrowed_compact (run : B.compact = .ok post) : Narrowed others B post := by
  obtain ⟨-, -, ⟨⟩⟩ := of_bind run
  exact narrowed_of_steps graph roster (steps_compacted (seated_of_roster graph roster))

/-! ## Bypassing -/

omit graph roster in
/-- Joining the links of block inputs with those of block outputs. -/
theorem connects_joinAcross (wf : B.wiring.Consistent)
    (inputs : ∀ entry ∈ entries, entry ∈ B.block.inputs)
    (outputs : ∀ exit ∈ exits, exit ∈ B.block.outputs) :
    B.Rewired (B.joinAcross entries exits) ∧
      (∀ left right, (B.joinAcross entries exits).wiring.Connects left right ↔
        ∃ exit entry, B.wiring.exitOf exit = some left ∧
          B.wiring.entryOf entry = some right ∧ (B.wiring.Linked exit entry ∨
            (∃ entry' ∈ entries, B.wiring.Linked exit entry') ∧
              ∃ exit' ∈ exits, B.wiring.Linked exit' entry) ∧
          exit ∉ exits ∧ entry ∉ entries) ∧
      ∀ exit ∈ exits, (B.joinAcross entries exits).wiring.exitOf exit = none := by
  have sources : ∀ exit, exit ∈ (HandleSet.gather entries B.wiring.sources).toList ↔
      ∃ entry ∈ entries, B.wiring.Linked exit entry := by
    simp only [ExtTreeSet.mem_toList, HandleSet.mem_gather, wf.agree, implies_true]
  have targets : ∀ entry, entry ∈ (HandleSet.gather exits B.wiring.targets).toList ↔
      ∃ exit ∈ exits, B.wiring.Linked exit entry := fun entry =>
    ExtTreeSet.mem_toList.trans HandleSet.mem_gather
  obtain ⟨rewired, linked⟩ := @insertLinks_spec _ wf
    (HandleSet.gather entries B.wiring.sources).toList
    (HandleSet.gather exits B.wiring.targets).toList
    (fun exit mem => by
      obtain ⟨entry, -, link⟩ := (sources exit).mp mem
      exact Wiring.exists_exitOf_of_linked link)
    (fun entry mem => by
      obtain ⟨exit, -, link⟩ := (targets entry).mp mem
      exact wf.exists_entryOf link)
  have eq := Wiring.sameFrame_insertLinks B.wiring
    (HandleSet.gather entries B.wiring.sources).toList
    (HandleSet.gather exits B.wiring.targets).toList
  refine ⟨rewired.trans (rewired_removePorts rewired.wf inputs outputs),
    fun left right => ?_, fun exit has => ?_⟩
  · rw [joinAcross, connects_removePorts rewired.wf]
    simp only [eq.entryOf, eq.exitOf, linked, sources, targets]
  · rw [joinAcross, exitOf_removePorts rewired.wf, if_pos has]

theorem narrowed_joinAcross (inputs : ∀ entry ∈ entries, entry ∈ B.block.inputs)
    (outputs : ∀ exit ∈ exits, exit ∈ B.block.outputs) :
    Narrowed others B (B.joinAcross entries exits) := by
  obtain ⟨rewired, connects, -⟩ := connects_joinAcross roster.wf inputs outputs
  refine rewired.narrowed graph roster fun first second leads => ?_
  obtain ⟨out, input, connected⟩ := Wiring.leads_iff_connects.mp leads
  obtain ⟨exit, entry, leaves, entered,
      direct | ⟨⟨entry', within, into⟩, exit', within', outOf⟩, -⟩ := (connects _ _).mp connected
  · exact .inl ⟨exit, entry, out, input, leaves, entered, direct⟩
  · obtain ⟨port, entered'⟩ := (roster.entries _ (.head _) entry').mp (inputs entry' within)
    obtain ⟨port', leaves'⟩ := (roster.exits _ (.head _) exit').mp (outputs exit' within')
    exact .inr ⟨⟨exit, entry', out, port, leaves, entered', into⟩,
      exit', entry, port', input, leaves', entered, outOf⟩

theorem narrowed_bypassAt (run : B.bypassAt entry = .ok post) :
    Narrowed others B post := by
  have unchanged : (.ok B : Except Fault Placed) = .ok post → Narrowed others B post := by
    rintro ⟨⟩
    exact narrowed_refl graph roster
  rw [bypassAt] at run
  split at run
  · obtain ⟨port, -, run⟩ := of_bind run
    split at run
    · split at run
      · split at run
        · obtain ⟨-, -, run⟩ := of_bind run
          dsimp only at run
          split at run
          · exact unchanged run
          · obtain ⟨-, -, ⟨⟩⟩ := of_bind run
            exact narrowed_joinAcross graph roster (fun _ => mem_of_mem_filter)
              fun _ => mem_of_mem_filter
        · exact unchanged run
      · exact unchanged run
    · exact unchanged run
  · exact unchanged run

theorem narrowed_bypass (run : B.bypass = .ok post) : Narrowed others B post := by
  obtain ⟨bypassed, passed, rest⟩ := of_bind run
  have narrowed : Narrowed others B bypassed :=
    foldlM_carries (fun _ state => Narrowed others B state)
      (fun entry _ state next narrowed stepped => narrowed.trans
        (narrowed_bypassAt narrowed.graph narrowed.roster stepped))
      (narrowed_refl graph roster) passed
  split at rest
  · exact narrowed.trans (narrowed_compact narrowed.graph narrowed.roster rest)
  · cases rest
    exact narrowed_refl graph roster

end Compact

/-! ## Unification -/

section Fold

variable (graph : B.graph.Consistent) (roster : Roster B.wiring (B.block :: others))

include graph roster

theorem narrowed_foldCopy (ne : first ≠ copy)
    (has' : first ∈ B.block.nodes) (member : copy ∈ B.block.nodes)
    (named : B.block.origins[first]? = some origin) (named' : B.block.origins[copy]? = some origin)
    (got : B.graph.nodes[first]? = some kept) (got' : B.graph.nodes[copy]? = some node) :
    Narrowed others B (B.foldCopy kept copy node) := by
  have handed := handed_ports graph roster.wf ne got got'
  set moved := (node.outputs.zip kept.outputs).foldl moveOutput
    ((node.inputs.zip kept.inputs).foldl moveInput B) with moves
  have roster' := roster.repoint handed.wiring
  rw [← handed.block] at roster'
  have entries := roster.entries B.block (.head _)
  have exits := roster.exits B.block (.head _)
  have nodup := graph.inputsNodup _ _ got'
  have nodup' := graph.outputsNodup _ _ got'
  have narrowed : Narrowed others B moved := by
    refine
      { id := (congrArg (fun block : Block => block.id) handed.block :)
        graph := handed.graph
        roster := roster'
        leads := fun first second leads => .inl (handed.wiring.leads_iff.mp leads)
        nodes := fun id own => handed.block ▸ own
        stored := fun id => by simp [handed.block, handed.ports.nodes]
        origins := fun id => by simp [handed.block]
        entries := fun _ _ _ => rewraps_of_other handed.entryOf fun entry => (entries entry).mp
        exits := fun _ _ _ => rewraps_of_other handed.exitOf fun exit => (exits exit).mp
        opens := fun {source sides} faced => ?_ }
    obtain ⟨boundary, arity, arity'⟩ := faced.copies.twins named named' got got'
    have kind : B.graph.isShuffleBoundary copy = B.graph.isShuffleBoundary first := by
      rw [Graph.isShuffleBoundary, Graph.isShuffleBoundary, got, got', Option.any_some,
        Option.any_some, Node.isShuffleBoundary, Node.isShuffleBoundary, boundary]
    have eq : ∀ id, moved.graph.isShuffleBoundary id = B.graph.isShuffleBoundary id :=
      fun id => by rw [Graph.isShuffleBoundary, Graph.isShuffleBoundary, handed.ports.nodes]
    constructor
    all_goals rw [handed.block]
    · refine (faced.entered.replaced handed.entryOf entries nodup arity
        (fun _ => graph.mem_inputs_iff got') (fun _ => graph.input_of_mem got) ?_).mono
        fun owner port own owned => ⟨?_, (handed.ports.inputOwner port).trans owned⟩
      · exact fun own => ⟨has', kind ▸ own.2⟩
      · rwa [eq]
    · exact (faced.left.replaced handed.exitOf exits nodup' arity'
        (fun _ => graph.mem_outputs_iff got') (fun _ => graph.output_of_mem got) fun _ => has').mono
        fun owner port own owned => ⟨own, (handed.ports.outputOwner port).trans owned⟩
  refine narrowed.trans (narrowed_dropNode narrowed.graph narrowed.roster
    (handed.ports.nodes ▸ got') (handed.block ▸ member) fun faced => ?_)
  have stands : moved.graph.nodes[first]? = some kept := handed.ports.nodes ▸ got
  have stands' : moved.graph.nodes[copy]? = some node := handed.ports.nodes ▸ got'
  rw [← handed.block] at named named'
  obtain ⟨-, arity, arity'⟩ := faced.copies.twins named named' stands stands'
  rw [handed.block]
  refine ⟨fun entry port entered => ?_, fun exit port left => ?_⟩
  · obtain ⟨port', -, rfl⟩ := exists_rewrapped handed.entryOf entries entered
    exact replaced_not_mem nodup arity (fun port own own' => ne
      (graph.input_unique got own got' own')) port'
  · obtain ⟨port', -, rfl⟩ := exists_rewrapped handed.exitOf exits left
    exact replaced_not_mem nodup' arity' (fun port own own' => ne
      (graph.output_unique got own got' own')) port'

theorem narrowed_unify (run : B.unify = .ok post) : Narrowed others B post := by
  obtain ⟨⟨firsts, folded⟩, folds, rest⟩ := of_bind run
  obtain ⟨-, -, rest⟩ := of_bind rest
  obtain ⟨-, -, ⟨⟩⟩ := of_bind rest
  have narrowed := (foldlM_carries (Unified (Narrowed others B))
    (fun _ _ _ _ unified => unified.step fun narrowed ne own mem named named' got got' =>
      narrowed.trans (narrowed_foldCopy narrowed.graph narrowed.roster ne own mem named named'
        got got'))
    (unified_start (narrowed_refl graph roster)) folds).holds
  have seated := seated_of_roster narrowed.graph narrowed.roster
  have steps := steps_mergeInputs seated
  exact narrowed.trans (narrowed_of_steps narrowed.graph narrowed.roster
    (steps.trans (steps_mergeOutputs (seated.of_steps steps))))

end Fold

end Placed

end Staging
