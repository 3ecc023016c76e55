import Staging.Graph.Copy
import Staging.Proofs.Walks

/-! # Copies are connected like what they copy

Copying nodes adds to the graph, for each node, a node with the same attributes and as many
ports. Two ports of copies are connected exactly if the ports that they copy are. The rest
of the graph stays. If each node is copied once, and the endpoints of a flow part before it,
then copied flow parts have copied scopes.
-/

namespace Staging

open Std List ExtTreeSet HandleMap

variable {G post source : Graph} {other : NodeId} {id : NodeId} {node : Node}
  {done ids : List NodeId} {map : CopyMap}

namespace Graph

/-- One side of the ports of copied nodes: ports are copied place by place. -/
structure PortsCopied (source post : Graph) (nodes : HandleMap .node NodeId) {role : Role}
    (ports : Node → List (Handle role)) (map : HandleMap role (Handle role)) : Prop where
  listed : ∀ (id copy : NodeId) node record, nodes[id]? = some copy →
    source.nodes[id]? = some node → post.nodes[copy]? = some record →
    (ports node).map (map[·]?) = (ports record).map some
  domain : ∀ port copy : Handle role, map[port]? = some copy → source.next ≤ copy.raw ∧
    ∃ (id owner : NodeId) (node record : Node), nodes[id]? = some owner ∧
      source.nodes[id]? = some node ∧ port ∈ ports node ∧
      post.nodes[owner]? = some record ∧ copy ∈ ports record

/-- The nodes of a map have been copied, apart from their connections. -/
structure Copies (source : Graph) (map : CopyMap) (post : Graph) : Prop where
  wf : post.Consistent
  next : source.next ≤ post.next
  old : ∀ id : NodeId, id.raw < source.next → post.nodes[id]? = source.nodes[id]?
  nodes : ∀ id copy : NodeId, map.nodes[id]? = some copy → source.next ≤ copy.raw ∧
    ∃ node record, source.nodes[id]? = some node ∧ post.nodes[copy]? = some record ∧
      { record with kind := node.kind, inputs := node.inputs, outputs := node.outputs } = node
  inputs : PortsCopied source post map.nodes Node.inputs map.inputs
  outputs : PortsCopied source post map.nodes Node.outputs map.outputs
  injective : ∀ first second copy : NodeId, map.nodes[first]? = some copy →
    map.nodes[second]? = some copy → first = second

/-! ## One side -/

namespace PortsCopied

variable {role : Role} {ports : Node → List (Handle role)} {nodes : HandleMap .node NodeId}
  {map : HandleMap role (Handle role)} {owner? owner?' : Handle role → Option NodeId}
  {next next' : Nat} {owner : NodeId} {record : Node} {port copy : Handle role}

section Copied

variable (copied : PortsCopied source post nodes ports map)
  (side : Side source.nodes next ports owner?) (side' : Side post.nodes next' ports owner?')

include copied side side'

/-- A port of a copied node has a copy. -/
theorem exists_copy (mapped : nodes[id]? = some owner)
    (stored : post.nodes[owner]? = some record) (owned : owner? port = some id) :
    ∃ copy, map[port]? = some copy ∧ owner?' copy = some owner := by
  obtain ⟨node, got, own⟩ := (side.owned port id).mp owned
  have mem := mem_map_of_mem (f := (map[·]?)) own
  rw [copied.listed id owner node record mapped got stored] at mem
  obtain ⟨copy, inside, eq⟩ := mem_map.mp mem
  exact ⟨copy, eq.symm, side'.of_mem stored inside⟩

/-- A port of a copy is the copy of a port. -/
theorem exists_origin (mapped : nodes[id]? = some owner)
    (got : source.nodes[id]? = some node) (owned : owner?' copy = some owner) :
    ∃ port, map[port]? = some copy ∧ owner? port = some id := by
  obtain ⟨record, stored, own⟩ := (side'.owned copy owner).mp owned
  have mem := mem_map_of_mem (f := some) own
  rw [← copied.listed id owner node record mapped got stored] at mem
  obtain ⟨port, inside, eq⟩ := mem_map.mp mem
  exact ⟨port, eq, side.of_mem got inside⟩

omit side

theorem injective (apart : ∀ first second copy : NodeId, nodes[first]? = some copy →
      nodes[second]? = some copy → first = second)
    {first second : Handle role} (one : map[first]? = some copy)
    (two : map[second]? = some copy) : first = second := by
  obtain ⟨-, id, owner, node, record, mapped, got, own, stored, inside⟩ :=
    copied.domain first copy one
  obtain ⟨-, id', owner', node', record', mapped', got', own', stored', inside'⟩ :=
    copied.domain second copy two
  cases (side'.of_mem stored inside).symm.trans (side'.of_mem stored' inside')
  obtain rfl := apart id id' owner mapped mapped'
  cases got.symm.trans got'
  have nodup : ((ports node).map (map[·]?)).Nodup := by
    rw [copied.listed id owner node record mapped got stored]
    exact (side'.nodup _ _ stored).map (Option.some_injective _)
  exact inj_on_of_nodup_map nodup own own' (one.trans two.symm)

end Copied

theorem congr (copied : PortsCopied source G nodes ports map)
    (eq : post.nodes = G.nodes) : PortsCopied source post nodes ports map := by
  obtain ⟨listed, domain⟩ := copied
  exact ⟨eq ▸ listed, eq ▸ domain⟩

/-- One node more is copied. -/
theorem insert (pre : PortsCopied source G nodes ports map)
    (side : Side source.nodes next ports owner?) (got : source.nodes[id]? = some node)
    (kept : ∀ (other : NodeId) record, G.nodes[other]? = some record →
      post.nodes[other]? = some record)
    (stands : ∀ other copy : NodeId, nodes[other]? = some copy →
      ∃ record, G.nodes[copy]? = some record)
    (made : post.nodes[owner]? = some record) (fits : (ports node).length = (ports record).length)
    (new : ∀ port ∈ ports record, source.next ≤ port.raw) :
    PortsCopied source post (nodes.insert id owner) ports
      (map.insertMany ((ports node).zip (ports record))) where
  listed other copy original image mapped got' stored := by
    rw [HandleMap.getElem?_insert] at mapped
    split at mapped
    · next eq =>
      subst eq
      cases mapped
      cases got.symm.trans got'
      cases made.symm.trans stored
      exact map_getElem?_insertMany_zip _ (side.nodup _ _ got) fits
    · next ne =>
      obtain ⟨image', stored'⟩ := stands other copy mapped
      obtain rfl := Option.mem_unique (kept copy image' stored') stored
      rw [← pre.listed other copy original image' mapped got' stored']
      refine map_congr_left fun port own => getElem?_insertMany_zip_of_not_mem _ fun own' => ne ?_
      exact Option.mem_unique (side.of_mem got own') (side.of_mem got' own)
  domain port copy mapped := by
    by_cases own : port ∈ ports node
    · obtain ⟨value, inside, mapped'⟩ :=
        exists_getElem?_insertMany_zip (side.nodup _ _ got) fits map own
      cases mapped.symm.trans mapped'
      exact ⟨new copy inside, id, owner, node, record, by simp, got, own, made, inside⟩
    · rw [getElem?_insertMany_zip_of_not_mem _ own] at mapped
      obtain ⟨above, other, owner', original, image, mapped', got', own', stored, inside⟩ :=
        pre.domain port copy mapped
      refine ⟨above, other, owner', original, image, ?_, got', own', kept owner' image stored,
        inside⟩
      rw [HandleMap.getElem?_insert, if_neg, mapped']
      rintro rfl
      cases got.symm.trans got'
      exact own own'

end PortsCopied

/-! ## Nodes -/

theorem copiedKind_eq {copies : HandleMap .node NodeId} {kind : Kind}
    (flat : ∀ scope, kind ≠ .flowPart scope) : copiedKind copies kind = kind := by
  cases kind with
  | flowPart scope => exact (flat scope rfl).elim
  | input | output | operator | pseudo => rfl

/-- The declaration of the copy of a node. -/
def copyDecl (graph : Graph) (map : CopyMap) (node : Node) : NodeDecl :=
  { graph.declaration node with kind := copiedKind map.nodes node.kind }

/-- Each port of a node is declared. -/
private theorem length_filterMap {role : Role} {α β : Type} {ports : HandleMap role α}
    {owner : α → NodeId} {handles : List (Handle role)} (f : α → β)
    (owned : ∀ port ∈ handles, ports[port]?.map owner = some id) :
    (handles.filterMap fun port => ports[port]?.map f).length = handles.length := by
  rw [filterMap_length_eq_length]
  intro port has
  obtain ⟨record, mem, -⟩ := Option.map_eq_some_iff.mp (owned port has)
  simp [mem]

section CopyNode

variable (wf : G.Consistent) (got : G.nodes[id]? = some node)

include wf got

theorem length_copyDecl_inputs :
    node.inputs.length = (G.created (G.copyDecl map node)).inputs.length :=
  (length_filterMap _ fun _ => wf.input_of_mem got).symm.trans (Handle.length_consecutive _ _).symm

theorem length_copyDecl_outputs :
    node.outputs.length = (G.created (G.copyDecl map node)).outputs.length :=
  (length_filterMap _ fun _ => wf.output_of_mem got).symm.trans (Handle.length_consecutive _ _).symm

omit wf in
/-- The next node becomes the copy of a node. -/
theorem copyNode_eq : copyNode (map, G) id =
    ({ nodes := map.nodes.insert id ⟨G.next⟩
       inputs := map.inputs.insertMany (node.inputs.zip (G.created (G.copyDecl map node)).inputs)
       outputs := map.outputs.insertMany
        (node.outputs.zip (G.created (G.copyDecl map node)).outputs) },
      (G.create (G.copyDecl map node)).2) := by
  have made := create_nodes G (G.copyDecl map node) ⟨G.next⟩
  rw [if_pos rfl] at made
  simp only [copyNode, got]
  split
  · next gone => cases gone.symm.trans made
  · next had =>
    cases made.symm.trans had
    rfl

end CopyNode

theorem copies_refl (wf : source.Consistent) : Copies source {} source where
  wf := wf
  next := Nat.le_refl _
  old _ _ := rfl
  nodes id copy mapped := by simp at mapped
  inputs := ⟨by simp, by simp⟩
  outputs := ⟨by simp, by simp⟩
  injective first second copy mapped := by simp at mapped

namespace Copies

theorem of_samePorts (copies : Copies source map G) (eq : SamePorts G post)
    (wf : post.Consistent) : Copies source map post where
  wf := wf
  next := eq.next ▸ copies.next
  old := eq.nodes ▸ copies.old
  nodes := eq.nodes ▸ copies.nodes
  inputs := copies.inputs.congr eq.nodes
  outputs := copies.outputs.congr eq.nodes
  injective := copies.injective

variable (copies : Copies source map G) (wf : source.Consistent)

include copies

theorem stands {copy : NodeId} (mapped : map.nodes[id]? = some copy) :
    ∃ record, G.nodes[copy]? = some record := by
  obtain ⟨-, -, record, -, stored, -⟩ := copies.nodes id copy mapped
  exact ⟨record, stored⟩

theorem ne_next {copy : NodeId} (mapped : map.nodes[id]? = some copy) : copy ≠ ⟨G.next⟩ := by
  obtain ⟨record, stored⟩ := copies.stands mapped
  exact copies.wf.node_ne stored

include wf

theorem node_old (got : source.nodes[id]? = some node) : G.nodes[id]? = some node :=
  (copies.old id (wf.early got)).trans got

/-- One node more is copied. -/
theorem copyNode (got : source.nodes[id]? = some node) :
    Copies source (Graph.copyNode (map, G) id).1 (Graph.copyNode (map, G) id).2 := by
  have got' := copies.node_old wf got
  have created := copies.wf.create (G.copyDecl map node)
  have made : (G.create (G.copyDecl map node)).2.nodes[(⟨G.next⟩ : NodeId)]? =
      some (G.created (G.copyDecl map node)) :=
    (created.nodes _).trans (if_pos rfl)
  have above := copies.next
  have kept : ∀ (other : NodeId) record, G.nodes[other]? = some record →
      (G.create (G.copyDecl map node)).2.nodes[other]? = some record :=
    fun _ _ => created.nodes_old copies.wf
  rw [copyNode_eq got']
  refine
    { wf := created.wf
      next := above.trans (by rw [created.next]; omega)
      old := fun other earlier => ?_
      nodes := fun other copy mapped => ?_
      inputs := copies.inputs.insert wf.inputSide got kept (fun _ _ => copies.stands) made
        (length_copyDecl_inputs copies.wf got') fun port own => ?_
      outputs := copies.outputs.insert wf.outputSide got kept (fun _ _ => copies.stands) made
        (length_copyDecl_outputs copies.wf got') fun port own => ?_
      injective := fun first second copy one two => ?_ }
  · rw [created.nodes, if_neg, copies.old other earlier]
    rintro rfl
    exact Nat.not_lt.mpr above earlier
  · rw [HandleMap.getElem?_insert] at mapped
    split at mapped
    · next eq =>
      cases mapped
      subst eq
      exact ⟨above, node, _, got, made, rfl⟩
    · obtain ⟨above, original, record, got, stored, same⟩ := copies.nodes other copy mapped
      exact ⟨above, original, record, got, kept copy record stored, same⟩
  · have := (mem_created_inputs.mp own).1
    omega
  · have := (mem_created_outputs.mp own).1
    omega
  · -- the new handle is none of the copies made before
    rw [HandleMap.getElem?_insert] at one two
    split at one <;> split at two
    · next here there => exact here.symm.trans there
    · cases one
      exact (copies.ne_next two rfl).elim
    · cases two
      exact (copies.ne_next one rfl).elim
    · exact copies.injective first second copy one two

end Copies

/-! ## Connections -/

/-- Connecting the copies of one output port. -/
private theorem copyConnections_spec (wf : G.Consistent) {out copy : OutputId}
    (has : ∃ owner, G.outputOwner? copy = some owner)
    (presents : ∀ port copy : InputId, map.inputs[port]? = some copy →
      ∃ owner, G.inputOwner? copy = some owner) :
    (copyConnections map G (out, copy)).Consistent ∧
      SamePorts G (copyConnections map G (out, copy)) ∧
      ∀ first second, (copyConnections map G (out, copy)).Feeds first second ↔
        G.Feeds first second ∨ first = copy ∧
          ∃ port, map.inputs[port]? = some second ∧ G.Feeds out port := by
  let pairs := (G.targets out).toList.filterMap fun target =>
    map.inputs[target]?.map fun input => (copy, input)
  have eq : copyConnections map G (out, copy) = G.connectPairs pairs := by
    rw [connectPairs, foldl_filterMap, copyConnections]
    congr 1
    funext G target
    cases map.inputs[target]? <;> rfl
  have joinable : ∀ pair ∈ pairs, G.Joinable pair := by
    intro pair mem
    obtain ⟨target, -, made⟩ := mem_filterMap.mp mem
    obtain ⟨input, mapped, rfl⟩ := Option.map_eq_some_iff.mp made
    exact ⟨has, presents target input mapped⟩
  rw [eq]
  refine ⟨wf.connectPairs joinable, samePorts_connectPairs _ _, fun first second => ?_⟩
  rw [feeds_connectPairs joinable, mem_filterMap]
  refine or_congr_right ?_
  simp only [mem_toList, Option.map_eq_some_iff, Prod.mk.injEq]
  constructor
  · rintro ⟨target, fed, input, mapped, rfl, rfl⟩
    exact ⟨rfl, target, mapped, fed⟩
  · rintro ⟨rfl, target, mapped, fed⟩
    exact ⟨target, fed, second, mapped, rfl, rfl⟩

/-- The copies are connected as what they copy. -/
private theorem Copies.copyConnections (copies : Copies source map G) (wf : source.Consistent)
    (feeds : ∀ out input, G.Feeds out input ↔ source.Feeds out input) :
    Copies source map (map.outputs.toList.foldl (Graph.copyConnections map) G) ∧
      (map.outputs.toList.foldl (Graph.copyConnections map) G).nodes = G.nodes ∧
      ∀ out input, (map.outputs.toList.foldl (Graph.copyConnections map) G).Feeds out input ↔
        source.Feeds out input ∨ ∃ first second, map.outputs[first]? = some out ∧
          map.inputs[second]? = some input ∧ source.Feeds first second := by
  let inv : List (OutputId × OutputId) → Graph → Prop := fun rest now =>
    ∃ past, past ++ rest = map.outputs.toList ∧ now.Consistent ∧ SamePorts G now ∧
      ∀ out input, now.Feeds out input ↔ source.Feeds out input ∨ ∃ first second,
        (first, out) ∈ past ∧ map.inputs[second]? = some input ∧ source.Feeds first second
  obtain ⟨past, all, kept, eq, feeds⟩ :
      inv [] (map.outputs.toList.foldl (Graph.copyConnections map) G) := by
    refine foldl_keeps inv ?_ ⟨[], rfl, copies.wf, .refl G, by simpa using feeds⟩
    rintro entry rest now ⟨past, all, kept, eq, feeds⟩
    have copied : ∀ other ∈ past ++ entry :: rest, map.outputs[other.1]? = some other.2 :=
      fun other mem => (mem_toList_iff _).mp (all ▸ mem)
    obtain ⟨-, id, owner, node, record, -, got, own, stored, inside⟩ :=
      copies.outputs.domain entry.1 entry.2 (copied entry (by simp))
    obtain ⟨kept', eq', feeds'⟩ := @copyConnections_spec now map kept entry.1 entry.2
      ⟨owner, (eq.outputOwner _).trans (copies.wf.output_of_mem stored inside)⟩ (by
        intro port copy mapped
        obtain ⟨-, -, owner, -, record, -, -, -, stored, inside⟩ :=
          copies.inputs.domain port copy mapped
        exact ⟨owner, (eq.inputOwner _).trans (copies.wf.input_of_mem stored inside)⟩)
    refine ⟨past ++ [entry], by simpa using all, kept', eq.trans eq', ?_⟩
    -- a port that is copied is no copy, so that it still feeds what it fed
    have original : ∀ port, now.Feeds entry.1 port ↔ source.Feeds entry.1 port := by
      intro port
      rw [feeds, or_iff_left]
      rintro ⟨first, second, has, -⟩
      have above := (copies.outputs.domain first entry.1
        (copied (first, entry.1) (mem_append_left _ has))).1
      have below := wf.outputBelow entry.1 id (wf.output_of_mem got own)
      omega
    intro out input
    simp only [feeds', feeds out input, original, mem_append, mem_singleton,
      or_and_right, exists_or, or_assoc]
    refine or_congr_right (or_congr_right ?_)
    constructor
    · rintro ⟨rfl, port, mapped, fed⟩
      exact ⟨entry.1, port, rfl, mapped, fed⟩
    · rintro ⟨first, second, rfl, mapped, fed⟩
      exact ⟨rfl, second, mapped, fed⟩
  rw [append_nil] at all
  refine ⟨copies.of_samePorts eq kept, eq.nodes, fun out input => ?_⟩
  simp only [feeds, all, mem_toList_iff]

/-! ## Copies of groups -/

/-- The groups hold nodes of the graph. -/
theorem exists_of_copyGroups {levels : Nat} {group : NodeSet} {groups : List NodeSet}
    (run : source.copyGroups levels group = .ok groups) :
    ∀ id ∈ groups.flatMap toList, ∃ node, source.nodes[id]? = some node := by
  induction levels generalizing group groups with
  | zero => cases run
  | succ levels ih =>
    obtain ⟨_, checked, run⟩ := of_bind run
    obtain ⟨scopes, -, run⟩ := of_bind run
    obtain ⟨nested, ran, ⟨⟩⟩ := of_bind run
    intro id mem
    obtain ⟨inner, has, own⟩ := mem_flatMap.mp mem
    rcases mem_append.mp has with deeper | here
    · obtain ⟨list, has, mem⟩ := mem_flatten.mp deeper
      obtain ⟨scope, -, ran⟩ := exists_of_mem_mapM ran (mem_reverse.mp has)
      exact ih ran id (mem_flatMap.mpr ⟨inner, mem, own⟩)
    · cases mem_singleton.mp here
      exact present_of_checkNodes checked id own

/-- Nodes are copied with their connections. -/
theorem copies_copyAll (wf : source.Consistent) {groups : List NodeSet}
    (has : ∀ id ∈ groups.flatMap toList, ∃ node, source.nodes[id]? = some node) :
    Copies source (source.copyAll groups).1 (source.copyAll groups).2 ∧
      (source.copyAll groups).2.nodes =
        ((groups.flatMap toList).foldl copyNode ({}, source)).2.nodes ∧
      ∀ out input, (source.copyAll groups).2.Feeds out input ↔
        source.Feeds out input ∨ ∃ first second, (source.copyAll groups).1.outputs[first]? =
          some out ∧ (source.copyAll groups).1.inputs[second]? = some input ∧
          source.Feeds first second := by
  let inv : List NodeId → CopyMap × Graph → Prop := fun rest state =>
    (∀ id ∈ rest, ∃ node, source.nodes[id]? = some node) ∧ Copies source state.1 state.2 ∧
      ∀ out input, state.2.Feeds out input ↔ source.Feeds out input
  obtain ⟨-, copies, feeds⟩ : inv [] ((groups.flatMap toList).foldl copyNode ({}, source)) := by
    refine foldl_keeps inv ?_ ⟨has, copies_refl wf, fun _ _ => .rfl⟩
    rintro id rest ⟨map, G⟩ ⟨has, copies, feeds⟩
    obtain ⟨node, got⟩ := has id (.head _)
    refine ⟨fun other mem => has other (.tail _ mem), copies.copyNode wf got, fun out input => ?_⟩
    rw [copyNode_eq (copies.node_old wf got)]
    exact ((copies.wf.create _).feeds out input).trans (feeds out input)
  exact copies.copyConnections wf feeds

theorem copies_copy (wf : source.Consistent) {ids : NodeSet}
    (run : source.copy ids = .ok (map, post)) : Copies source map post := by
  obtain ⟨groups, ran, eq⟩ := of_bind run
  cases eq
  exact (copies_copyAll wf (exists_of_copyGroups ran)).1

/-! ## Nodes that are copied once -/

/-- The listed nodes are copied and no others, and there are no other new nodes. -/
structure Exact (source : Graph) (done : List NodeId) (map : CopyMap) (post : Graph) : Prop where
  all : ∀ id ∈ done, ∃ copy, map.nodes[id]? = some copy
  only : ∀ id copy : NodeId, map.nodes[id]? = some copy → id ∈ done
  kinds : ∀ (id copy : NodeId) node record, map.nodes[id]? = some copy →
    source.nodes[id]? = some node → post.nodes[copy]? = some record →
    record.kind = copiedKind map.nodes node.kind ∧
      ∀ scope, node.kind = .flowPart scope → ∀ tip ∈ scope.endpoints, tip ∈ done
  new : ∀ (id : NodeId) node, post.nodes[id]? = some node → source.next ≤ id.raw →
    ∃ origin : NodeId, map.nodes[origin]? = some id

/-- What is copied to what matters at the endpoints of a scope only. -/
private theorem copiedKind_congr {copies copies' : HandleMap .node NodeId} {kind : Kind}
    (same : ∀ scope, kind = .flowPart scope → ∀ tip ∈ scope.endpoints,
      copies'[tip]? = copies[tip]?) : copiedKind copies' kind = copiedKind copies kind := by
  cases kind with
  | flowPart scope =>
    have same := same scope rfl
    rw [copiedKind, copiedKind, copiedScope, copiedScope,
      filterMap_congr fun tip mem => same tip (mem_append_left _ mem),
      filterMap_congr fun tip mem => same tip (mem_append_right _ mem)]
  | input | output | operator | pseudo => rfl

private theorem Exact.copyNode (exact : Exact source done map G)
    (copies : Copies source map G) (wf : source.Consistent) (fresh : id ∉ done)
    (got : source.nodes[id]? = some node)
    (first : ∀ scope, node.kind = .flowPart scope → ∀ tip ∈ scope.endpoints, tip ∈ done) :
    Exact source (done ++ [id]) (Graph.copyNode (map, G) id).1 (Graph.copyNode (map, G) id).2 := by
  have made := (copies.wf.create (G.copyDecl map node)).nodes
  have kinds : ∀ kind : Kind, (∀ scope, kind = .flowPart scope →
      ∀ tip ∈ scope.endpoints, tip ∈ done) →
      copiedKind (map.nodes.insert id ⟨G.next⟩) kind = copiedKind map.nodes kind := by
    refine fun kind early => copiedKind_congr fun scope eq tip mem => ?_
    rw [HandleMap.getElem?_insert, if_neg]
    rintro rfl
    exact fresh (early scope eq id mem)
  rw [copyNode_eq (copies.node_old wf got)]
  refine ⟨fun other mem => ?_, fun other copy mapped => ?_,
    fun other copy original record mapped got' stored => ?_, fun other record stored above => ?_⟩
  · simp only [HandleMap.getElem?_insert]
    split
    · exact ⟨_, rfl⟩
    · next ne => exact exact.all other ((mem_append.mp mem).resolve_right fun here =>
        ne (mem_singleton.mp here).symm)
  · rw [HandleMap.getElem?_insert] at mapped
    split at mapped
    · next eq => simp [eq]
    · exact mem_append_left _ (exact.only other copy mapped)
  · rw [HandleMap.getElem?_insert] at mapped
    split at mapped
    · next eq =>
      subst eq
      cases mapped
      cases got.symm.trans got'
      cases ((made _).trans (if_pos rfl)).symm.trans stored
      exact ⟨(kinds _ first).symm, fun scope eq tip mem =>
        mem_append_left _ (first scope eq tip mem)⟩
    · rw [made, if_neg (copies.ne_next mapped)] at stored
      obtain ⟨kind, early⟩ := exact.kinds other copy original record mapped got' stored
      exact ⟨kind.trans (kinds _ early).symm, fun scope eq tip mem =>
        mem_append_left _ (early scope eq tip mem)⟩
  · rw [made] at stored
    simp only [HandleMap.getElem?_insert]
    split at stored
    · next eq => exact ⟨id, by rw [if_pos rfl, eq]⟩
    · obtain ⟨origin, mapped⟩ := exact.new other record stored above
      refine ⟨origin, (if_neg ?_).trans mapped⟩
      rintro rfl
      exact fresh (exact.only _ _ mapped)

/-- Each of the listed nodes has been copied once, with its connections. -/
structure Copied (source : Graph) (ids : List NodeId) (map : CopyMap) (post : Graph) : Prop
    extends Copies source map post, Exact source ids map post where
  feeds : ∀ output input, post.Feeds output input ↔ source.Feeds output input ∨
    ∃ first second, map.outputs[first]? = some output ∧ map.inputs[second]? = some input ∧
      source.Feeds first second

/-- Nodes are copied once if they are listed once, and the endpoints of flow parts first. -/
theorem copied_copyAll (wf : source.Consistent) {groups : List NodeSet}
    (nodup : (groups.flatMap toList).Nodup)
    (has : ∀ id ∈ groups.flatMap toList, ∃ node, source.nodes[id]? = some node)
    (first : ∀ done id rest, done ++ id :: rest = groups.flatMap toList → ∀ node scope,
      source.nodes[id]? = some node → node.kind = .flowPart scope →
      ∀ tip ∈ scope.endpoints, tip ∈ done) :
    Copied source (groups.flatMap toList) (source.copyAll groups).1 (source.copyAll groups).2 := by
  let inv : List NodeId → CopyMap × Graph → Prop := fun rest state =>
    ∃ done, done ++ rest = groups.flatMap toList ∧ Copies source state.1 state.2 ∧
      Exact source done state.1 state.2
  obtain ⟨done, all, copies, exact⟩ :
      inv [] ((groups.flatMap toList).foldl copyNode ({}, source)) := by
    refine foldl_keeps inv ?_ ⟨[], rfl, copies_refl wf, by simp, by simp, by simp, ?_⟩
    · rintro id rest ⟨map, G⟩ ⟨done, all, copies, exact⟩
      obtain ⟨node, got⟩ := has id (all ▸ mem_append_right _ (.head _))
      have fresh : id ∉ done := fun earlier =>
        (nodup_append.mp (all ▸ nodup)).2.2 id earlier id (.head _) rfl
      exact ⟨done ++ [id], by simpa using all, copies.copyNode wf got, exact.copyNode copies wf
        fresh got fun scope eq tip => first done id rest all node scope got eq tip⟩
    · exact fun id node got above => absurd (wf.early got) (Nat.not_lt.mpr above)
  rw [append_nil] at all
  subst all
  obtain ⟨copies', eq, feeds⟩ := copies_copyAll wf has
  exact ⟨copies', ⟨exact.all, exact.only, eq ▸ exact.kinds, eq ▸ exact.new⟩, feeds⟩

/-- Nodes that exist and are no flow parts are copied with their connections. -/
theorem copy_spec (wf : source.Consistent) {ids : NodeSet}
    (has : ∀ id ∈ ids, ∃ node, source.nodes[id]? = some node ∧
      ∀ scope, node.kind ≠ .flowPart scope) :
    ∃ map post, source.copy ids = .ok (map, post) ∧ Copied source ids.toList map post := by
  have flat : source.flowPartsOf ids = [] := by
    rw [flowPartsOf, filterMap_eq_nil_iff]
    intro id mem
    obtain ⟨node, got, flat⟩ := has id (mem_toList.mp mem)
    rw [got]
    cases kind : node.kind with
    | flowPart scope => exact (flat scope kind).elim
    | input | output | operator | pseudo => simp [kind]
  have groups : source.copyGroups (source.nodes.size + 1) ids = .ok [ids] := by
    rw [copyGroups, checkNodes_eq_ok fun id mem => ?_, flat]
    · rfl
    · obtain ⟨node, got, -⟩ := has id (mem_toList.mp mem)
      exact ⟨node, got⟩
  refine ⟨_, _, bind_of_ok groups, ?_⟩
  have only : [ids].flatMap toList = ids.toList := flatMap_singleton ..
  rw [← only]
  refine copied_copyAll wf (only ▸ HandleSet.nodup_toList ids) (exists_of_copyGroups groups) ?_
  intro done id rest all node scope got eq
  obtain ⟨node', got', flat⟩ := has id (mem_toList.mp (only ▸ all ▸ by simp))
  cases got.symm.trans got'
  exact (flat scope eq).elim

namespace Copied

variable (copied : Copied source ids map post) (wf : source.Consistent)

include copied

/-- A node with an earlier handle was there before. -/
theorem node_old (earlier : id.raw < source.next) :
    post.nodes[id]? = some node ↔ source.nodes[id]? = some node := by
  rw [copied.old id earlier]

include wf

theorem inputOwner_old {port : InputId} (earlier : id.raw < source.next) :
    post.inputOwner? port = some id ↔ source.inputOwner? port = some id := by
  simp only [wf.inputOwner, copied.wf.inputOwner, copied.node_old earlier]

theorem outputOwner_old {port : OutputId} (earlier : id.raw < source.next) :
    post.outputOwner? port = some id ↔ source.outputOwner? port = some id := by
  simp only [wf.outputOwner, copied.wf.outputOwner, copied.node_old earlier]

end Copied

end Graph

end Staging
