import Staging.Proofs.Building
import Staging.Proofs.Shedding

/-! # Secluded blocks

A block is secluded if its block ports wrap ports of its own nodes and no
connection leaves it. Compaction keeps blocks secluded. It ends with a dense
block, from which nothing can be taken out, and leaves dense blocks as they are.
-/

namespace Staging

open Std Relation List ExtTreeSet HandleSet

variable {id : NodeId} {node : Node} {entry : BlockInputId} {exit : BlockOutputId}

namespace Placed

variable {B pre post : Placed} {entries : List BlockInputId}

/-- The block has nodes of its own: its block ports wrap ports of them, and no
connection leaves it. -/
structure Secluded (placed : Placed) : Prop extends Seated placed where
  nodes : ∀ id ∈ placed.block.nodes, ∃ node, placed.graph.nodes[id]? = some node
  entered : ∀ entry ∈ placed.block.inputs, ∀ port, placed.wiring.inputPort? entry = some port →
    ∃ owner ∈ placed.block.nodes, placed.graph.inputOwner? port = some owner
  left : ∀ exit ∈ placed.block.outputs, ∀ port, placed.wiring.outputPort? exit = some port →
    ∃ owner ∈ placed.block.nodes, placed.graph.outputOwner? port = some owner
  inside : ∀ first second, placed.graph.Precedes first second →
    (first ∈ placed.block.nodes ↔ second ∈ placed.block.nodes)

theorem Rewired.secluded (rewired : pre.Rewired post) (secluded : pre.Secluded) :
    post.Secluded where
  toSeated := rewired.seated secluded.toSeated
  nodes := by
    rw [rewired.nodes, rewired.graph]
    exact secluded.nodes
  entered entry own port wraps := by
    rw [rewired.nodes, rewired.graph]
    exact secluded.entered entry (rewired.inputs.subset own) port (rewired.fewer.inputPort? wraps)
  left exit own port wraps := by
    rw [rewired.nodes, rewired.graph]
    exact secluded.left exit (rewired.outputs.subset own) port (rewired.fewer.outputPort? wraps)
  inside := by
    rw [rewired.nodes, rewired.graph]
    exact secluded.inside

/-- A node without which the block is secluded. -/
theorem secluded_removeNode (secluded : B.Secluded)
    (got : B.graph.nodes[id]? = some node) : (B.removeNode id).Secluded := by
  obtain ⟨rewired, dropped⟩ := removeNode_spec secluded.toSeated got
  have fewer := fewer_removeNode B id
  have mem : ∀ other, other ∈ (B.removeNode id).block.nodes ↔
      other ≠ id ∧ other ∈ B.block.nodes := by
    intro other
    rw [removeNode_eq got, dropNode, mem_erase_iff, rewired.nodes]
  have input : ∀ port owner, (B.removeNode id).graph.inputOwner? port = some owner →
      B.graph.inputOwner? port = some owner ∧ owner ≠ id := by
    intro port owner owned
    rw [dropped.inputOwner, Option.ite_none_left_eq_some] at owned
    refine ⟨owned.2, ?_⟩
    rintro rfl
    exact owned.1 ((secluded.graph.mem_inputs_iff got).mpr owned.2)
  have output : ∀ port owner, (B.removeNode id).graph.outputOwner? port = some owner →
      B.graph.outputOwner? port = some owner ∧ owner ≠ id := by
    intro port owner owned
    rw [dropped.outputOwner, Option.ite_none_left_eq_some] at owned
    refine ⟨owned.2, ?_⟩
    rintro rfl
    exact owned.1 ((secluded.graph.mem_outputs_iff got).mpr owned.2)
  refine ⟨seated_removeNode secluded.toSeated got, fun other own => ?_,
    fun entry own port wraps => ?_, fun exit own port wraps => ?_, fun first second prec => ?_⟩
  · obtain ⟨ne, own⟩ := (mem other).mp own
    rw [dropped.nodes, if_neg ne]
    exact secluded.nodes other own
  · have own' := fewer.inputs.subset own
    obtain ⟨owner, inside, owned⟩ := secluded.entered entry own' port (fewer.inputPort? wraps)
    rw [removeNode_eq got, dropNode, removePorts_eq, mem_filter] at own
    rw [Wiring.inputPort?_eq, Option.map_eq_some_iff] at wraps
    obtain ⟨wrapped, entered, rfl⟩ := wraps
    have foreign : wrapped.2 ∉ node.inputs := fun here => of_decide_eq_true own.2
      ((mem_flatMap_entriesOf (fewer.entryOf entry _ entered)).mpr ⟨own', here⟩)
    refine ⟨owner, (mem owner).mpr ⟨?_, inside⟩, by rw [dropped.inputOwner, if_neg foreign, owned]⟩
    rintro rfl
    exact foreign ((secluded.graph.mem_inputs_iff got).mpr owned)
  · have own' := fewer.outputs.subset own
    obtain ⟨owner, inside, owned⟩ := secluded.left exit own' port (fewer.outputPort? wraps)
    rw [removeNode_eq got, dropNode, removePorts_eq, mem_filter] at own
    rw [Wiring.outputPort?_eq, Option.map_eq_some_iff] at wraps
    obtain ⟨wrapped, left, rfl⟩ := wraps
    have foreign : wrapped.2 ∉ node.outputs := fun here => of_decide_eq_true own.2
      ((mem_flatMap_exitsOf (fewer.exitOf exit _ left)).mpr ⟨own', here⟩)
    refine ⟨owner, (mem owner).mpr ⟨?_, inside⟩, by rw [dropped.outputOwner, if_neg foreign, owned]⟩
    rintro rfl
    exact foreign ((secluded.graph.mem_outputs_iff got).mpr owned)
  · obtain ⟨out, inn, owned, owned', fed⟩ := prec
    obtain ⟨owned, ne⟩ := output out first owned
    obtain ⟨owned', ne'⟩ := input inn second owned'
    rw [mem, mem, and_iff_right ne, and_iff_right ne']
    exact secluded.inside first second ⟨out, inn, owned, owned', ((dropped.feeds _ _).mp fed).1⟩

section Secluded

variable (secluded : B.Secluded)

include secluded

theorem Secluded.step (sheds : B.Sheds post) : post.Secluded := by
  rcases sheds.split secluded.toSeated with rewired | ⟨moved, id, node, rewired, -, got, rfl⟩
  · exact rewired.secluded secluded
  · exact secluded_removeNode (rewired.secluded secluded) (rewired.graph ▸ got)

theorem Secluded.of_steps (steps : ReflTransGen Sheds B post) : post.Secluded := by
  induction steps with
  | refl => exact secluded
  | tail _ sheds secluded => exact secluded.step sheds

omit secluded in
theorem Seated.checked (seated : B.Seated) : B.wiring.checkInputs B.block.inputs = .ok () ∧
    B.wiring.checkOutputs B.block.outputs = .ok () := by
  refine ⟨Wiring.checkInputs_eq_ok fun entry own => ?_,
    Wiring.checkOutputs_eq_ok fun exit own => ?_⟩
  · obtain ⟨port, entered⟩ := seated.entries entry own
    exact ⟨_, entered⟩
  · obtain ⟨port, left⟩ := seated.exits exit own
    exact ⟨_, left⟩

/-- A secluded block can be compacted. -/
theorem Secluded.compact_eq_ok : B.compact = .ok B.compacted := by
  obtain ⟨checked, checked'⟩ := secluded.toSeated.checked
  exact bind_of_ok ((bind_of_ok checked).trans ((bind_of_ok checked').trans
    (Graph.checkNodes_eq_ok fun id own => secluded.nodes id (mem_toList.mp own))))

theorem Secluded.exists_entered (own : entry ∈ B.block.inputs) : ∃ owner ∈ B.block.nodes,
    (B.wiring.inputPort? entry).bind B.graph.inputOwner? = some owner := by
  obtain ⟨port, entered⟩ := secluded.entries entry own
  have wraps : B.wiring.inputPort? entry = some port := by
    rw [Wiring.inputPort?_eq, entered, Option.map_some]
  rw [wraps, Option.bind_some]
  exact secluded.entered entry own port wraps

theorem Secluded.exists_left (own : exit ∈ B.block.outputs) : ∃ owner ∈ B.block.nodes,
    (B.wiring.outputPort? exit).bind B.graph.outputOwner? = some owner := by
  obtain ⟨port, left⟩ := secluded.exits exit own
  have wraps : B.wiring.outputPort? exit = some port := by
    rw [Wiring.outputPort?_eq, left, Option.map_some]
  rw [wraps, Option.bind_some]
  exact secluded.left exit own port wraps

/-- Block ports that go have no link, because they wrap ports of nodes of the block. -/
theorem Secluded.relinked_trim {exits : List BlockOutputId} (useless : B.Useless entries exits) :
    B.Relinked (B.removePorts entries exits) := by
  refine ⟨useless.rewired secluded.wiring, fun _ _ _ _ => exists₂_congr fun exit entry => ?_⟩
  rw [linked_removePorts secluded.wiring]
  refine and_congr_right fun _ => and_congr_right fun _ => and_iff_left_of_imp fun link =>
    ⟨fun mem => ?_, fun mem => ?_⟩
  · obtain ⟨own, idle⟩ := useless.outputs exit mem
    obtain ⟨owner, inside, owned⟩ := secluded.exists_left own
    exact idle.elim (fun unlinked => unlinked entry link) fun orphan => orphan owner inside owned
  · obtain ⟨own, idle⟩ := useless.inputs entry mem
    obtain ⟨owner, inside, owned⟩ := secluded.exists_entered own
    exact idle.elim (fun unlinked => unlinked exit link) fun orphan => orphan owner inside owned

/-- No block port of a secluded block wraps a port of another node. -/
theorem removeOrphans_eq : B.removeOrphans = B := by
  have inputs : B.block.inputs.filter (fun entry => !((B.wiring.inputPort? entry).bind
      B.graph.inputOwner?).any fun id => id ∈ B.block.nodes) = [] := by
    refine filter_eq_nil_iff.mpr fun entry own => ?_
    obtain ⟨owner, inside, owned⟩ := secluded.exists_entered own
    simp [owned, inside]
  have outputs : B.block.outputs.filter (fun exit => !((B.wiring.outputPort? exit).bind
      B.graph.outputOwner?).any fun id => id ∈ B.block.nodes) = [] := by
    refine filter_eq_nil_iff.mpr fun exit own => ?_
    obtain ⟨owner, inside, owned⟩ := secluded.exists_left own
    simp [owned, inside]
  rw [removeOrphans]
  simp only [inputs, outputs]
  rfl

end Secluded

/-! ## Dense blocks -/

/-- Nothing can be taken out of the block: block ports wrap different ports and have links, no
node is dead, and identities at the entry feed different ports. -/
structure Dense (placed : Placed) : Prop where
  entries : ∀ entry ∈ placed.block.inputs, ∀ other ∈ placed.block.inputs,
    placed.wiring.entryOf entry = placed.wiring.entryOf other → entry = other
  exits : ∀ exit ∈ placed.block.outputs, ∀ other ∈ placed.block.outputs,
    placed.wiring.exitOf exit = placed.wiring.exitOf other → exit = other
  linked : ∀ entry ∈ placed.block.inputs, ∃ exit, placed.wiring.Linked exit entry
  linked' : ∀ exit ∈ placed.block.outputs, ∃ entry, placed.wiring.Linked exit entry
  alive : placed.deadNodes = []
  doors : ∀ id ∈ placed.block.nodes, ∀ id' ∈ placed.block.nodes, ∀ entries entries' targets,
    placed.entryIdentity? id = some (id, entries, targets) →
    placed.entryIdentity? id' = some (id', entries', targets) → id = id'

/-- A block that does not get smaller without its dead nodes has none. -/
theorem deadNodes_eq_nil {B : Placed}
    (still : ¬ B.removeDead.size < B.size) : B.deadNodes = [] := by
  cases dead : B.deadNodes with
  | nil => rfl
  | cons id rest =>
    have mem : id ∈ B.deadNodes := dead ▸ (.head _)
    obtain ⟨own, test⟩ := mem_filter.mp mem
    obtain ⟨node, got, -⟩ := (Option.any_eq_true _ _).mp test
    have stays := ((fewer_removeNodes B _).eq (not_size_step_lt still)).1 id
    rw [dead, foldl_cons] at stays
    have gone := (fewer_removeNodes (B.removeNode id) rest).nodes id (stays.mpr (mem_toList.mp own))
    simp only [removeNode, got] at gone
    exact absurd rfl ((mem_erase_iff _).mp gone).1

section Still

variable (seated : B.Seated)

include seated

/-- Two identities at the entry with a block input in common are one. -/
theorem eq_of_common_entry {id' : NodeId} {entries' : List BlockInputId}
    {targets targets' : InputSet} (door : B.entryIdentity? id = some (id, entries, targets))
    (door' : B.entryIdentity? id' = some (id', entries', targets'))
    (mem : entry ∈ entries) (mem' : entry ∈ entries') : id = id' := by
  obtain ⟨node, input, out, one, eq⟩ := (entryIdentity?_eq_some_iff seated.graph).mp door
  obtain ⟨node', input', out', two, eq'⟩ := (entryIdentity?_eq_some_iff seated.graph).mp door'
  cases eq
  cases eq'
  obtain ⟨port, entered⟩ := seated.entries entry (mem_of_mem_filter mem)
  obtain ⟨-, rfl⟩ := (mem_entriesOf entered).mp mem
  obtain ⟨-, rfl⟩ := (mem_entriesOf entered).mp mem'
  exact seated.graph.input_unique one.found (one.inputs ▸ mem_singleton_self port) two.found
    (two.inputs ▸ mem_singleton_self port)

/-- A block is dense that one round of compaction does not make smaller. -/
theorem dense_of_still (still : ¬ B.compactRound.size < B.size) : B.Dense := by
  have stays := (steps_compactRound seated).2 still
  simp only [forall_mem_cons, not_mem_nil, false_implies, implies_true, and_true] at stays
  obtain ⟨eq₁, eq₂, eq₃, eq₄, -, eq₆⟩ := stays
  have entries := (mergeInputs_keeps seated.entriesNodup seated.entries (fun _ => True)
    (fun _ _ _ _ => trivial) trivial).2
  have exits := (mergeOutputs_keeps seated.exitsNodup seated.exits (fun _ => True)
    (fun _ _ _ _ => trivial) trivial).2
  rw [eq₁] at entries
  rw [eq₂] at exits
  have kept := congrArg (fun state => state.block.inputs) eq₃
  have kept' := congrArg (fun state => state.block.outputs) eq₃
  simp only [removeUnlinked, removePorts_eq, filter_eq_self, decide_eq_true_eq, mem_filter,
    not_and, Bool.not_eq_true] at kept kept'
  refine ⟨entries, exits, fun entry own => ?_, fun exit own =>
    (isEmpty_eq_false_iff _).mp (kept' exit own own), deadNodes_eq_nil ?_, ?_⟩
  · obtain ⟨exit, link⟩ := (isEmpty_eq_false_iff _).mp (kept entry own own)
    exact ⟨exit, (seated.wiring.agree exit entry).mpr link⟩
  · rw [eq₄]
    exact Nat.lt_irrefl _
  · intro id own id' own' entries entries' targets door door'
    have common := (mergeIdentities_keeps Seated (fun _ seated => seated)
      (fun seated own own' door door' mem ne =>
        seated.step (.fold own own' door door' mem ne)) seated).2
    rw [eq₆] at common
    obtain ⟨entry, mem, mem'⟩ := common _ (mem_filterMap.mpr ⟨id, mem_toList.mpr own, door⟩) _
      (mem_filterMap.mpr ⟨id', mem_toList.mpr own', door'⟩) own own' rfl
    exact eq_of_common_entry seated door door' mem mem'

end Still

/-- A node of a dense block gets data and is of use. -/
theorem Dense.busy (dense : B.Dense) (wf : B.graph.Consistent)
    (own : id ∈ B.block.nodes) (got : B.graph.nodes[id]? = some node)
    (clear : node.isBoundary = false) :
    (node.inputs = [] ∧ node.kind ≠ .pseudo .empty ∨ ∃ port ∈ node.inputs,
      (∃ out, B.graph.Feeds out port) ∨ ∃ entry ∈ B.block.inputs, ∃ exit,
        B.wiring.inputPort? entry = some port ∧ B.wiring.Linked exit entry) ∧
    (node.hasMandatoryEffect ∨ ∃ port ∈ node.outputs,
      (∃ input, B.graph.Feeds port input) ∨ ∃ exit ∈ B.block.outputs, ∃ entry,
        B.wiring.outputPort? exit = some port ∧ B.wiring.Linked exit entry) := by
  have alive : id ∉ B.deadNodes := by simp [dense.alive]
  simp only [mem_deadNodes wf, not_and, not_exists, not_or] at alive
  obtain ⟨fed, used⟩ := alive own node got clear
  constructor
  · by_cases bare : node.inputs = []
    · exact .inl ⟨bare, fun empty => fed (by simp [bare]) fun _ => empty⟩
    · refine .inr (by_contra fun none => fed (fun port own => ⟨fun out feeds =>
        none ⟨port, own, .inl ⟨out, feeds⟩⟩, fun entry own' wraps => ?_⟩) (absurd · bare))
      obtain ⟨exit, link⟩ := dense.linked entry own'
      exact none ⟨port, own, .inr ⟨entry, own', exit, wraps, link⟩⟩
  · refine (Bool.eq_false_or_eq_true _).imp_right fun plain => ?_
    refine by_contra fun none => used (fun port own => ⟨fun input feeds =>
      none ⟨port, own, .inl ⟨input, feeds⟩⟩, fun exit own' wraps => ?_⟩) plain
    obtain ⟨entry, link⟩ := dense.linked' exit own'
    exact none ⟨port, own, .inr ⟨exit, own', entry, wraps, link⟩⟩

/-- One round of compaction leaves a dense block as it is. -/
theorem Dense.compactRound_eq (dense : B.Dense) (secluded : B.Secluded) : B.compactRound = B := by
  have seated := secluded.toSeated
  have inputs : B.block.inputs.filter (fun entry => (B.wiring.sources entry).isEmpty) = [] := by
    refine filter_eq_nil_iff.mpr fun entry own empty => ?_
    obtain ⟨exit, link⟩ := dense.linked entry own
    exact (isEmpty_iff _).mp empty exit ((seated.wiring.agree exit entry).mp link)
  have outputs : B.block.outputs.filter (fun exit => (B.wiring.targets exit).isEmpty) = [] := by
    refine filter_eq_nil_iff.mpr fun exit own empty => ?_
    obtain ⟨entry, link⟩ := dense.linked' exit own
    exact (isEmpty_iff _).mp empty entry link
  have removed : B.removeDead = B := by
    rw [removeDead, shrink, dense.alive]
    exact if_neg (Nat.lt_irrefl _)
  have merged : B.mergeIdentities = B := by
    refine (mergeIdentities_keeps (· = B) (fun state eq => eq ▸ seated) ?_ rfl).1
    rintro _ id id' entries entries' targets first rfl own own' door door' mem ne
    exact absurd (dense.doors id own id' own' _ _ _ door door').symm ne
  rw [compactRound, mergeInputs_eq seated.entriesNodup seated.entries dense.entries,
    mergeOutputs_eq seated.exitsNodup seated.exits dense.exits, removeUnlinked, inputs, outputs]
  change B.removeDead.removeOrphans.mergeIdentities = B
  rw [removed, removeOrphans_eq secluded, merged]

/-- A block that stays as it is has not shrunk. -/
theorem compaction_eq_self {placed : Placed} (still : placed.compact = .ok placed) :
    placed.compaction = .ok (false, placed) := by
  rw [compaction, bind_of_ok still]
  simp only [BlockFrame.hasShrunk, Nat.lt_irrefl, decide_false]
  rfl

/-- Compaction leaves a dense block as it is. -/
theorem Dense.compact_eq_self (dense : B.Dense) (secluded : B.Secluded) : B.compact = .ok B := by
  have still : ¬ (shrink size compactRound B).size < B.size := by
    rw [shrink, dense.compactRound_eq secluded, if_neg (Nat.lt_irrefl _)]
    exact Nat.lt_irrefl _
  rw [secluded.compact_eq_ok, compacted, if_neg still]

/-- A block stays dense without a node that is not connected with anything, and what is
loose stays so. -/
theorem Dense.removeNode (dense : B.Dense) (seated : B.Seated)
    (got : B.graph.nodes[id]? = some node) (unfed : ∀ port ∈ node.inputs, B.LooseInput port)
    (unused : ∀ port ∈ node.outputs, B.LooseOutput port) :
    (B.removeNode id).Dense ∧ (∀ port, (B.removeNode id).LooseInput port ↔ B.LooseInput port) ∧
      ∀ port, (B.removeNode id).LooseOutput port ↔ B.LooseOutput port := by
  have dropped := seated.graph.drop got
  have inputs : node.inputs.flatMap (B.block.entriesOf B.wiring) = [] :=
    flatMap_eq_nil_iff.mpr fun port own => filter_eq_nil_iff.mpr fun entry mem wraps =>
      (unfed port own).2 entry mem (eq_of_beq wraps)
  have outputs : node.outputs.flatMap (B.block.exitsOf B.wiring) = [] :=
    flatMap_eq_nil_iff.mpr fun port own => filter_eq_nil_iff.mpr fun exit mem wraps =>
      (unused port own).2 exit mem (eq_of_beq wraps)
  have feeds : ∀ out input, (B.graph.drop id node).Feeds out input ↔
      B.graph.Feeds out input := fun out input =>
    (dropped.feeds out input).trans (and_iff_left_of_imp fun fed =>
      ⟨fun own => (unused out own).1 input fed, fun own => (unfed input own).1 out fed⟩)
  have targets : ∀ port, (B.graph.drop id node).targets port = B.graph.targets port :=
    fun port => ext_mem fun {input} => feeds port input
  have sources : ∀ port, (B.graph.drop id node).sources port = B.graph.sources port :=
    fun port => ext_mem fun {out} => by
      rw [← dropped.wf.agree, feeds, seated.graph.agree]
  have doors : ∀ other, other ≠ id →
      (B.dropNode id node).entryIdentity? other = B.entryIdentity? other := by
    intro other ne
    simp only [entryIdentity?, dropNode, dropped.nodes, if_neg ne, targets, sources]
    rfl
  rw [removeNode_eq got, inputs, outputs]
  change (B.dropNode id node).Dense ∧ (∀ port, (B.dropNode id node).LooseInput port ↔ _) ∧
    ∀ port, (B.dropNode id node).LooseOutput port ↔ _
  have loose : ∀ port, (B.dropNode id node).LooseInput port ↔ B.LooseInput port :=
    fun port => and_congr_left' (forall_congr' fun out => not_congr (feeds out port))
  have loose' : ∀ port, (B.dropNode id node).LooseOutput port ↔ B.LooseOutput port :=
    fun port => and_congr_left' (forall_congr' fun input => not_congr (feeds port input))
  refine ⟨⟨dense.entries, dense.exits, dense.linked, dense.linked',
    eq_nil_iff_forall_not_mem.mpr fun other dead => ?_, ?_⟩, loose, loose'⟩
  · have none : other ∉ B.deadNodes := by simp [dense.alive]
    obtain ⟨own, record, stored, rest⟩ := (mem_deadNodes dropped.wf).mp dead
    have stored' := stored
    simp only [dropNode, dropped.nodes, Option.ite_none_left_eq_some] at stored'
    simp only [loose, loose'] at rest
    exact none ((mem_deadNodes seated.graph).mpr
      ⟨((mem_erase_iff _).mp own).2, record, stored'.2, rest⟩)
  · intro first own second own' entries entries' targets door door'
    obtain ⟨ne, own⟩ := (mem_erase_iff _).mp own
    obtain ⟨ne', own'⟩ := (mem_erase_iff _).mp own'
    rw [doors first ne] at door
    rw [doors second ne'] at door'
    exact dense.doors first own second own' entries entries' targets door door'

theorem Dense.removeNodes {ids : List NodeId} (dense : B.Dense) (seated : B.Seated)
    (nodup : ids.Nodup) (loose : ∀ id ∈ ids, ∃ node, B.graph.nodes[id]? = some node ∧
      (∀ port ∈ node.inputs, B.LooseInput port) ∧ ∀ port ∈ node.outputs, B.LooseOutput port) :
    (ids.foldl Placed.removeNode B).Dense := by
  induction ids generalizing B with
  | nil => exact dense
  | cons id rest ih =>
    obtain ⟨fresh, nodup⟩ := nodup_cons.mp nodup
    obtain ⟨⟨node, got, unfed, unused⟩, later⟩ := forall_mem_cons.mp loose
    obtain ⟨dense', input, out⟩ := dense.removeNode seated got unfed unused
    have dropped := (removeNode_spec seated got).2
    refine ih dense' (seated_removeNode seated got) nodup fun other mem => ?_
    obtain ⟨record, stored, rest⟩ := later other mem
    refine ⟨record, ?_, by simpa only [input, out] using rest⟩
    rw [dropped.nodes, if_neg fun eq : other = id => fresh (eq ▸ mem), stored]

/-- Compaction ends with a dense block. -/
theorem dense_compacted (seated : B.Seated) : B.compacted.Dense := by
  rw [compacted]
  split
  · have seated' := seated.of_steps (steps_shrink seated)
    refine (dense_of_still seated' (size_step_shrink size compactRound B)).removeNodes seated'
      ((nodup_toList _).filter _) fun id loose => ?_
    obtain ⟨-, node, got, rest⟩ := (mem_disconnectedNodes seated'.graph).mp loose
    exact ⟨node, got, rest⟩
  · next still => exact dense_of_still seated (not_size_step_lt still)

/-! ## A secluded block -/

/-- A map that another block feeds and uses, and a second one that nothing feeds. -/
def isthmus : Placed :=
  let map : NodeDecl :=
    { name := "map", kind := .operator .map, inputs := [{ name := "in", dataType := ⟨"Line"⟩ }],
      outputs := [{ name := "out", dataType := ⟨"Line"⟩ }] }
  let wiring := ((({} : Wiring).newBlock.2.newBlock.2.addInput ⟨0⟩ ⟨1⟩).2.addOutput ⟨0⟩ ⟨2⟩).2
  { graph := ((({} : Graph).create map).2.create map).2
    wiring := (((wiring.addOutput ⟨1⟩ ⟨5⟩).2.addInput ⟨1⟩ ⟨4⟩).2.insertLink ⟨4⟩ ⟨2⟩).insertLink
      ⟨3⟩ ⟨5⟩
    block :=
      { id := ⟨0⟩, nodes := .of [⟨0⟩, ⟨3⟩], inputs := [⟨2⟩], outputs := [⟨3⟩], origins := ∅ } }

theorem not_precedes_isthmus (first second : NodeId) : ¬ isthmus.graph.Precedes first second := by
  rintro ⟨out, input, -, -, fed⟩
  have wf := Graph.consistent_empty
  rw [isthmus, ((wf.create _).wf.create _).feeds, (wf.create _).feeds] at fed
  simp [Graph.Feeds, Graph.targets] at fed

theorem secluded_isthmus : isthmus.Secluded where
  graph := ((Graph.consistent_empty.create _).wf.create _).wf
  wiring := by
    have empty : ({} : Wiring).Consistent := by
      constructor <;>
        simp [Wiring.entryOf, Wiring.exitOf, Wiring.Linked, Wiring.targets, Wiring.sources]
    have ports := (((empty.newBlock.newBlock.addInput ⟨0⟩ ⟨1⟩).addOutput ⟨0⟩ ⟨2⟩).addOutput ⟨1⟩
      ⟨5⟩).addInput ⟨1⟩ ⟨4⟩
    have link := @ports.insertLink _ ⟨4⟩ ⟨2⟩ (⟨1⟩, ⟨5⟩) (⟨0⟩, ⟨1⟩) (by decide +kernel)
      (by decide +kernel)
    exact link.insertLink (by decide +kernel : _ = some (⟨0⟩, ⟨2⟩))
      (by decide +kernel : _ = some (⟨1⟩, ⟨4⟩))
  entries := forall_mem_singleton.mpr ⟨⟨1⟩, by decide +kernel⟩
  exits := forall_mem_singleton.mpr ⟨⟨2⟩, by decide +kernel⟩
  entriesNodup := nodup_singleton _
  exitsNodup := nodup_singleton _
  nodes id own := by
    have : ∀ id ∈ isthmus.block.nodes.toList, (isthmus.graph.nodes[id]?).isSome := by
      decide +kernel
    exact Option.isSome_iff_exists.mp (this id (mem_toList.mpr own))
  entered := forall_mem_singleton.mpr fun port wraps => ⟨⟨0⟩, by decide +kernel, by
    cases (by decide +kernel : isthmus.wiring.inputPort? ⟨2⟩ = some ⟨1⟩).symm.trans wraps
    decide +kernel⟩
  left := forall_mem_singleton.mpr fun port wraps => ⟨⟨0⟩, by decide +kernel, by
    cases (by decide +kernel : isthmus.wiring.outputPort? ⟨3⟩ = some ⟨2⟩).symm.trans wraps
    decide +kernel⟩
  inside first second prec := absurd prec (not_precedes_isthmus first second)

end Placed

end Staging
