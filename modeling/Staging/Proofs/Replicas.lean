import Staging.Proofs.Conservation
import Staging.Proofs.Copying

/-! # Nodes are copied with all that is nested in them

If the copied nodes and the scopes nested in them have no node in common, then the copy is
isomorphic to what it copies and isolated from the rest. A nested scope is named by the flow
parts around it, none of which lies in itself.
-/

namespace Staging

open Std Relation List ExtTreeSet HandleMap

namespace Graph

variable {G post : Graph} {ids : NodeSet} {map : CopyMap} {id part : NodeId} {node : Node}
  {scope : Scope} {path deeper list : List NodeId} {role : Role}

/-! ## What is copied -/

/-- The node is one of those given, or lies in the scope of the first flow part of the path,
which belongs to what the rest of the path leads to. -/
inductive Belongs (G : Graph) (ids : NodeSet) : List NodeId → NodeId → Prop where
  | given {id : NodeId} : id ∈ ids → Belongs G ids [] id
  | nested {path : List NodeId} {part tip id : NodeId} {node : Node} {scope : Scope} :
      Belongs G ids path part → G.nodes[part]? = some node → node.kind = .flowPart scope →
      tip ∈ scope.endpoints → ReflTransGen G.Touches tip id → Belongs G ids (part :: path) id

namespace Belongs

/-- The flow parts of a path belong to what the rest of the path leads to. -/
theorem outer (belongs : G.Belongs ids (deeper ++ part :: path) id) : G.Belongs ids path part ∧
    ∃ node scope, G.nodes[part]? = some node ∧ node.kind = .flowPart scope := by
  induction deeper generalizing id with
  | nil =>
    cases belongs with
    | nested outer got kind => exact ⟨outer, _, _, got, kind⟩
  | cons _ _ ih =>
    cases belongs with
    | nested outer => exact ih outer

theorem exists_node (wf : G.Consistent) (whole : G.Whole)
    (has : ∀ id ∈ ids, ∃ node, G.nodes[id]? = some node) (belongs : G.Belongs ids path id) :
    ∃ node, G.nodes[id]? = some node := by
  cases belongs with
  | given mem => exact has id mem
  | nested _ got kind tip led =>
    rcases led.cases_tail with rfl | ⟨_, -, touches⟩
    · exact whole _ _ _ got kind _ tip
    · exact touches.elim wf.precedes_right wf.precedes_left

end Belongs

/-- The nodes and the scopes nested in them have no nodes in common. -/
def ScopesApart (G : Graph) (ids : NodeSet) : Prop :=
  ∀ id path path', G.Belongs ids path id → G.Belongs ids path' id → path = path'

/-- All that is nested in what a path leads to is listed once, the scope of a flow part before
the flow part. -/
structure Lists (G : Graph) (ids : NodeSet) (path list : List NodeId) : Prop where
  mem : ∀ id, id ∈ list ↔ ∃ deeper, G.Belongs ids (deeper ++ path) id
  order : list.Pairwise fun first second => ∀ path path', G.Belongs ids path first →
    G.Belongs ids path' second → ¬ first :: path <:+ second :: path'

namespace ScopesApart

variable (apart : G.ScopesApart ids) {group : NodeSet}

include apart

/-- No flow part lies in itself. -/
theorem nodup_cons (belongs : G.Belongs ids path part) : (part :: path).Nodup := by
  induction path generalizing part with
  | nil => simp
  | cons first path ih =>
    refine List.nodup_cons.mpr ⟨fun again => ?_, ?_⟩
    · obtain ⟨deeper, rest, eq⟩ := append_of_mem again
      rw [eq] at belongs
      have := congrArg length (apart part _ _ belongs belongs.outer.1)
      rw [length_append, length_cons] at this
      omega
    · cases belongs with
      | nested outer => exact ih outer

theorem length_le (belongs : G.Belongs ids path part) (got : G.nodes[part]? = some node)
    (kind : node.kind = .flowPart scope) : (part :: path).length ≤ G.nodes.size := by
  refine G.partsAtMost_size _ (apart.nodup_cons belongs) (forall_mem_cons.mpr
    ⟨⟨node, scope, got, kind⟩, fun other mem => ?_⟩)
  obtain ⟨deeper, rest, rfl⟩ := append_of_mem mem
  exact belongs.outer.2

/-- The scopes nested in a group are listed before the group. -/
theorem lists {inner : NodeId × Scope → List NodeId}
    (spec : ∀ id, id ∈ group ↔ G.Belongs ids path id)
    (each : ∀ part ∈ G.flowPartsOf group, G.Lists ids (part.1 :: path) (inner part)) :
    G.Lists ids path ((G.flowPartsOf group).flatMap inner ++ group.toList) where
  mem id := by
    rw [mem_append, mem_flatMap, mem_toList, spec]
    constructor
    · rintro (⟨part, among, mem⟩ | here)
      · obtain ⟨deeper, belongs⟩ := ((each part among).mem id).mp mem
        exact ⟨deeper ++ [part.1], by simpa using belongs⟩
      · exact ⟨[], here⟩
    · rintro ⟨deeper, belongs⟩
      rcases eq_nil_or_concat deeper with rfl | ⟨deeper, part, rfl⟩
      · exact .inr belongs
      · rw [concat_append] at belongs
        obtain ⟨here, node, scope, got, kind⟩ := belongs.outer
        have among := mem_flowPartsOf.mpr ⟨(spec part).mpr here, node, got, kind⟩
        exact .inl ⟨(part, scope), among, ((each _ among).mem id).mpr ⟨deeper, belongs⟩⟩
  order := by
    refine pairwise_append.mpr ⟨pairwise_flatMap.mpr ⟨fun part among => (each part among).order,
      ?_⟩, ?_, ?_⟩
    · -- paths through two flow parts of the group have different ends
      refine (pairwise_map.mp (nodup_flowPartsOf group)).imp_of_mem ?_
      intro part part' among among' ne first has second has' _ _ inner inner' ends
      obtain ⟨deeper, belongs⟩ := ((each part among).mem first).mp has
      obtain ⟨deeper', belongs'⟩ := ((each part' among').mem second).mp has'
      obtain rfl := apart first _ _ inner belongs
      obtain rfl := apart second _ _ inner' belongs'
      have ends := (suffix_append (first :: deeper) (part.1 :: path)).trans ends
      have ends' := suffix_append (second :: deeper') (part'.1 :: path)
      have eq := (suffix_of_suffix_length_le ends ends' (Nat.le_refl _)).eq_of_length rfl
      exact ne (head_eq_of_cons_eq eq)
    · refine (HandleSet.nodup_toList group).imp_of_mem ?_
      intro first second has has' ne _ _ here here' ends
      rw [mem_toList, spec] at has has'
      obtain rfl := apart first _ _ here has
      obtain rfl := apart second _ _ here' has'
      exact ne (head_eq_of_cons_eq (ends.eq_of_length rfl))
    · intro first has second has' _ _ inner here ends
      obtain ⟨part, among, mem⟩ := mem_flatMap.mp has
      obtain ⟨deeper, belongs⟩ := ((each part among).mem first).mp mem
      rw [mem_toList, spec] at has'
      obtain rfl := apart first _ _ inner belongs
      obtain rfl := apart second _ _ here has'
      have := ends.length_le
      simp only [length_cons, length_append] at this
      omega

/-- The groups to copy can be collected, since there are no more flow parts than nodes. -/
theorem exists_copyGroups (wf : G.Consistent) (whole : G.Whole)
    (has : ∀ id ∈ ids, ∃ node, G.nodes[id]? = some node) {levels : Nat}
    (spec : ∀ id, id ∈ group ↔ G.Belongs ids path id) (few : path.length ≤ G.nodes.size)
    (deep : G.nodes.size < path.length + levels) :
    ∃ groups, G.copyGroups levels group = .ok groups ∧
      G.Lists ids path (groups.flatMap toList) := by
  induction levels generalizing group path with
  | zero => omega
  | succ levels ih =>
    have each : ∀ part, ∃ members groups, part ∈ G.flowPartsOf group →
        G.members part.2 = .ok members ∧ G.copyGroups levels members = .ok groups ∧
          G.Lists ids (part.1 :: path) (groups.flatMap toList) := by
      intro part
      by_cases among : part ∈ G.flowPartsOf group
      · obtain ⟨mem, node, got, kind⟩ := mem_flowPartsOf.mp among
        have belongs := (spec part.1).mp mem
        obtain ⟨members, collected, mem_members⟩ :=
          wf.members_eq_ok (whole part.1 node part.2 got kind)
        have within : ∀ id, id ∈ members ↔ G.Belongs ids (part.1 :: path) id := by
          intro id
          rw [mem_members]
          constructor
          · rintro ⟨tip, mem, led⟩
            exact .nested belongs got kind mem led
          · intro nested
            cases nested with
            | nested _ got' kind' mem led =>
              cases got.symm.trans got'
              cases kind.symm.trans kind'
              exact ⟨_, mem, led⟩
        obtain ⟨groups, run, lists⟩ := ih within (apart.length_le belongs got kind)
          (by rw [length_cons]; omega)
        exact ⟨members, groups, fun _ => ⟨collected, run, lists⟩⟩
      · exact ⟨∅, [], fun mem => (among mem).elim⟩
    choose members groups each using each
    have collected : (G.flowPartsOf group).mapM (fun part => G.members part.2) =
        .ok ((G.flowPartsOf group).map members) :=
      mapM_eq_ok fun part among => (each part among).1
    have nested : ((G.flowPartsOf group).map members).reverse.mapM (G.copyGroups levels) =
        .ok ((G.flowPartsOf group).reverse.map groups) := by
      rw [← map_reverse, mapM_map]
      exact mapM_eq_ok fun part among => (each part (mem_reverse.mp among)).2.1
    have checked : G.checkNodes group.toList = .ok () := checkNodes_eq_ok fun id mem =>
      ((spec id).mp (mem_toList.mp mem)).exists_node wf whole has
    refine ⟨_, (bind_of_ok checked).trans ((bind_of_ok collected).trans (bind_of_ok nested)), ?_⟩
    rw [map_reverse, reverse_reverse, ← flatMap_def, flatMap_append, flatMap_assoc,
      flatMap_singleton]
    exact apart.lists spec fun part among => (each part among).2.2

end ScopesApart

/-! ## What the copies are declared to be -/

theorem declaration_congr (inputs : ∀ port ∈ node.inputs, post.inputs[port]? = G.inputs[port]?)
    (outputs : ∀ port ∈ node.outputs, post.outputs[port]? = G.outputs[port]?) :
    post.declaration node = G.declaration node := by
  rw [declaration, declaration]
  congr 1
  · exact filterMap_congr fun port own => by rw [inputs port own]
  · exact filterMap_congr fun port own => by rw [outputs port own]

/-- Records that were made from declarations show them. -/
private theorem filterMap_insertMany_zip {α β : Type} {keys : List (Handle role)}
    {decls : List β} {record : β → α} {view : α → β} (map : HandleMap role α) (nodup : keys.Nodup)
    (fits : keys.length = decls.length) (same : ∀ decl, view (record decl) = decl) :
    (keys.filterMap fun key => (map.insertMany (keys.zip (decls.map record)))[key]?.map view) =
      decls := by
  have eq := map.map_getElem?_insertMany_zip nodup (fits.trans (length_map record).symm)
  calc keys.filterMap (fun key => (map.insertMany (keys.zip (decls.map record)))[key]?.map view)
    _ = ((decls.map record).map some).filterMap (·.map view) := by rw [← eq, filterMap_map]; rfl
    _ = decls := by simp [filterMap_map, Function.comp_def, same]

/-- A node is created as declared. -/
theorem declaration_create (decl : NodeDecl) :
    (G.create decl).2.declaration (G.created decl) = decl := by
  rw [declaration, create]
  congr 1
  · exact filterMap_insertMany_zip _ (Handle.nodup_consecutive _ _)
      (Handle.length_consecutive _ _) fun _ => rfl
  · exact filterMap_insertMany_zip _ (Handle.nodup_consecutive _ _)
      (Handle.length_consecutive _ _) fun _ => rfl

/-- Records with earlier handles are not replaced. -/
private theorem getElem?_insertMany_consecutive {α : Type} {map : HandleMap role α}
    {first count : Nat} {records : List α} {port : Handle role} (below : port.raw < first) :
    (map.insertMany ((Handle.consecutive first count).zip records))[port]? = map[port]? :=
  getElem?_insertMany_zip_of_not_mem _ fun mem =>
    Nat.not_lt.mpr (Handle.mem_consecutive.mp mem).1 below

/-- The ports that were there are as they were, and the copies are declared like what they
copy. -/
structure Described (G : Graph) (map : CopyMap) (post : Graph) : Prop where
  root : post.root = G.root
  inputs : ∀ port : InputId, port.raw < G.next → post.inputs[port]? = G.inputs[port]?
  outputs : ∀ port : OutputId, port.raw < G.next → post.outputs[port]? = G.outputs[port]?
  decls : ∀ (id copy : NodeId) node record, map.nodes[id]? = some copy →
    G.nodes[id]? = some node → post.nodes[copy]? = some record →
    post.declaration record = { G.declaration node with kind := record.kind }

namespace Described

variable (described : Described G map post)

include described

theorem insertConnection {output : OutputId} {input : InputId} (above : G.next ≤ output.raw)
    (above' : G.next ≤ input.raw) : Described G map (post.insertConnection output input) where
  root := described.root
  inputs port below := by
    rw [← described.inputs port below, Graph.insertConnection, HandleMap.getElem?_modify, if_neg]
    rintro rfl
    omega
  outputs port below := by
    rw [← described.outputs port below, Graph.insertConnection, HandleMap.getElem?_modify, if_neg]
    rintro rfl
    omega
  decls id copy node record mapped got stored := by
    rw [← described.decls id copy node record mapped got stored, declaration, declaration]
    congr 1
    · exact filterMap_congr fun _ _ => view_modify fun _ => rfl
    · exact filterMap_congr fun _ _ => view_modify fun _ => rfl

/-- Only copies are connected. -/
theorem copyConnections (copies : Copies G map post) :
    Described G map (map.outputs.toList.foldl (Graph.copyConnections map) post) := by
  have above : ∀ entry ∈ map.outputs.toList, G.next ≤ entry.2.raw := fun entry mem =>
    (copies.outputs.domain entry.1 entry.2 ((mem_toList_iff _).mp mem)).1
  refine (foldl_keeps (fun rest now => (∀ entry ∈ rest, G.next ≤ entry.2.raw) ∧
    Described G map now) ?_ ⟨above, described⟩).2
  rintro entry rest now ⟨above, described⟩
  refine ⟨fun other mem => above other (.tail _ mem), ?_⟩
  refine foldl_keeps (fun _ now => Described G map now) ?_ described
  intro target _ now described
  split
  · next input mapped =>
    exact described.insertConnection (above entry (.head _))
      (copies.inputs.domain target input mapped).1
  · exact described

variable (copies : Copies G map post) (wf : G.Consistent)

include copies wf

theorem copyNode (got : G.nodes[id]? = some node) :
    Described G (Graph.copyNode (map, post) id).1 (Graph.copyNode (map, post) id).2 := by
  have above := copies.next
  have inputs : ∀ decl, ∀ port : InputId, port.raw < post.next →
      (post.create decl).2.inputs[port]? = post.inputs[port]? :=
    fun decl port below => getElem?_insertMany_consecutive (by omega)
  have outputs : ∀ decl, ∀ port : OutputId, port.raw < post.next →
      (post.create decl).2.outputs[port]? = post.outputs[port]? :=
    fun decl port below => getElem?_insertMany_consecutive (by omega)
  rw [copyNode_eq (copies.node_old wf got)]
  refine ⟨described.root, fun port below => ?_, fun port below => ?_, ?_⟩
  · exact (inputs _ port (by omega)).trans (described.inputs port below)
  · exact (outputs _ port (by omega)).trans (described.outputs port below)
  · intro other copy original record mapped got' stored
    rw [create_nodes] at stored
    rw [HandleMap.getElem?_insert] at mapped
    split at mapped
    · next eq =>
      subst eq
      cases mapped
      cases got.symm.trans got'
      cases (if_pos rfl).symm.trans stored
      have same : post.declaration node = G.declaration node := declaration_congr
        (fun port own => described.inputs port (wf.inputBelow port id (wf.input_of_mem got own)))
        fun port own => described.outputs port (wf.outputBelow port id (wf.output_of_mem got own))
      rw [declaration_create, copyDecl, same]
      rfl
    · rw [if_neg (copies.ne_next mapped)] at stored
      rw [← described.decls other copy original record mapped got' stored]
      exact declaration_congr (fun port own => inputs _ port
          (copies.wf.inputBelow port copy (copies.wf.input_of_mem stored own)))
        fun port own => outputs _ port
          (copies.wf.outputBelow port copy (copies.wf.output_of_mem stored own))

end Described

theorem described_copyAll (wf : G.Consistent) {groups : List NodeSet}
    (has : ∀ id ∈ groups.flatMap toList, ∃ node, G.nodes[id]? = some node) :
    Described G (G.copyAll groups).1 (G.copyAll groups).2 := by
  let inv : List NodeId → CopyMap × Graph → Prop := fun rest state =>
    (∀ id ∈ rest, ∃ node, G.nodes[id]? = some node) ∧ Copies G state.1 state.2 ∧
      Described G state.1 state.2
  obtain ⟨-, copies, described⟩ : inv [] ((groups.flatMap toList).foldl copyNode ({}, G)) := by
    refine foldl_keeps inv ?_ ⟨has, copies_refl wf, rfl, by simp, by simp, by simp⟩
    rintro id rest ⟨map, post⟩ ⟨has, copies, described⟩
    obtain ⟨node, got⟩ := has id (.head _)
    exact ⟨fun other mem => has other (.tail _ mem), copies.copyNode wf got,
      described.copyNode copies wf got⟩
  exact described.copyConnections copies

/-! ## Isomorphic copies -/

/-- Exactly the chosen handles are copied, each to one of its own, and the copies are exactly
the new handles. -/
structure Renewed {role : Role} {α : Type} (map : HandleMap role (Handle role))
    (chosen : Handle role → Prop) (before now : Handle role → Option α) : Prop where
  domain : ∀ handle : Handle role, (∃ copy, map[handle]? = some copy) ↔ chosen handle
  injective : ∀ first second copy : Handle role, map[first]? = some copy →
    map[second]? = some copy → first = second
  range : ∀ copy, (∃ handle : Handle role, map[handle]? = some copy) ↔
    before copy = none ∧ ∃ value, now copy = some value

/-- The kind of a copy: the scope of a flow part lists the copies of its endpoints. -/
def KindCopied (copies : HandleMap .node NodeId) : Kind → Kind → Prop
  | .flowPart scope, kind => ∃ inner, kind = .flowPart inner ∧
      scope.inputs.map (copies[·]?) = inner.inputs.map some ∧
      scope.outputs.map (copies[·]?) = inner.outputs.map some
  | kind, kind' => kind' = kind

/-- The nodes and all that is nested in them have been copied, each with its ports, and nothing
else has changed. -/
structure Replicated (G : Graph) (ids : NodeSet) (map : CopyMap) (post : Graph) : Prop where
  wf : post.Consistent
  root : post.root = G.root
  nodes : Renewed map.nodes (fun id => ∃ path, G.Belongs ids path id) (G.nodes[·]?)
    (post.nodes[·]?)
  inputs : Renewed map.inputs (fun port => ∃ id, (∃ path, G.Belongs ids path id) ∧
    G.inputOwner? port = some id) G.inputOwner? post.inputOwner?
  outputs : Renewed map.outputs (fun port => ∃ id, (∃ path, G.Belongs ids path id) ∧
    G.outputOwner? port = some id) G.outputOwner? post.outputOwner?
  alike : ∀ (id copy : NodeId) node record, map.nodes[id]? = some copy →
    G.nodes[id]? = some node → post.nodes[copy]? = some record →
    post.declaration record = { G.declaration node with kind := record.kind } ∧
      KindCopied map.nodes node.kind record.kind ∧
      node.inputs.map (map.inputs[·]?) = record.inputs.map some ∧
      node.outputs.map (map.outputs[·]?) = record.outputs.map some
  connected : ∀ first second output input, map.outputs[first]? = some output →
    map.inputs[second]? = some input → (post.Feeds output input ↔ G.Feeds first second)
  isolated : ∀ output input, post.Feeds output input →
    ((∃ port : OutputId, map.outputs[port]? = some output) ↔
      ∃ port : InputId, map.inputs[port]? = some input)
  oldNodes : ∀ (id : NodeId) node, G.nodes[id]? = some node → post.nodes[id]? = some node
  oldInputs : ∀ (port : InputId) record, G.inputs[port]? = some record →
    post.inputs[port]? = some record
  oldOutputs : ∀ (port : OutputId) record, G.outputs[port]? = some record →
    post.outputs[port]? = some record

theorem kindCopied_copiedKind {copies : HandleMap .node NodeId} {kind : Kind}
    (has : ∀ scope, kind = .flowPart scope → ∀ tip ∈ scope.endpoints,
      ∃ copy, copies[tip]? = some copy) : KindCopied copies kind (copiedKind copies kind) := by
  have listed : ∀ tips : List NodeId, (∀ tip ∈ tips, ∃ copy, copies[tip]? = some copy) →
      tips.map (copies[·]?) = (tips.filterMap (copies[·]?)).map some := by
    intro tips has
    rw [map_filterMap_some_eq_filter_map_isSome, filter_eq_self.mpr]
    intro copy mem
    obtain ⟨tip, inside, rfl⟩ := mem_map.mp mem
    exact Option.isSome_iff_exists.mpr (has tip inside)
  cases kind with
  | flowPart scope =>
    have has := has scope rfl
    exact ⟨_, rfl, listed _ fun tip mem => has tip (mem_append_left _ mem),
      listed _ fun tip mem => has tip (mem_append_right _ mem)⟩
  | input | output | operator | pseudo => rfl

namespace Copied

variable (copied : Copied G list map post) (wf : G.Consistent)

include copied

/-- The ports of the copied nodes are copied, and the new ports are copies. -/
theorem renewed {ports : Node → List (Handle role)} {next : Nat}
    {table : HandleMap role (Handle role)} {owner? owner?' : Handle role → Option NodeId}
    (listed : PortsCopied G post map.nodes ports table) (side : Side G.nodes G.next ports owner?)
    (side' : Side post.nodes next ports owner?') :
    Renewed table (fun port => ∃ id ∈ list, owner? port = some id) owner? owner?' where
  domain port := by
    constructor
    · rintro ⟨copy, mapped⟩
      obtain ⟨-, id, owner, node, -, mapped, got, own, -⟩ := listed.domain port copy mapped
      exact ⟨id, copied.only id owner mapped, side.of_mem got own⟩
    · rintro ⟨id, mem, owned⟩
      obtain ⟨owner, mapped⟩ := copied.all id mem
      obtain ⟨record, stored⟩ := copied.stands mapped
      obtain ⟨copy, mapped, -⟩ := listed.exists_copy side side' mapped stored owned
      exact ⟨copy, mapped⟩
  injective _ _ _ := listed.injective side' copied.injective
  range copy := by
    constructor
    · rintro ⟨port, mapped⟩
      obtain ⟨above, -, owner, -, record, -, -, -, stored, inside⟩ := listed.domain port copy mapped
      exact ⟨side.eq_none_of_le above, owner, side'.of_mem stored inside⟩
    · rintro ⟨fresh, owner, owned⟩
      obtain ⟨record, stored, inside⟩ := (side'.owned copy owner).mp owned
      have above : G.next ≤ owner.raw := by
        by_contra below
        rw [copied.old owner (by omega)] at stored
        cases fresh.symm.trans (side.of_mem stored inside)
      obtain ⟨origin, mapped⟩ := copied.new owner record stored above
      obtain ⟨-, node, -, got, -⟩ := copied.nodes origin owner mapped
      obtain ⟨port, mapped, -⟩ := listed.exists_origin side side' mapped got owned
      exact ⟨port, mapped⟩

include wf

theorem renewed_nodes : Renewed map.nodes (· ∈ list) (G.nodes[·]?) (post.nodes[·]?) where
  domain id := ⟨fun ⟨copy, mapped⟩ => copied.only id copy mapped, copied.all id⟩
  injective := copied.injective
  range copy := by
    constructor
    · rintro ⟨id, mapped⟩
      refine ⟨Option.eq_none_iff_forall_ne_some.mpr fun node got => ?_, copied.stands mapped⟩
      exact Nat.not_lt.mpr (copied.nodes id copy mapped).1 (wf.early got)
    · rintro ⟨fresh, record, stored⟩
      refine copied.new copy record stored ?_
      by_contra below
      cases fresh.symm.trans ((copied.node_old (Nat.not_le.mp below)).mp stored)

theorem replicated (described : Described G map post)
    (spec : ∀ id, id ∈ list ↔ ∃ path, G.Belongs ids path id) : G.Replicated ids map post := by
  have inputs := copied.renewed copied.inputs wf.inputSide copied.wf.inputSide
  have outputs := copied.renewed copied.outputs wf.outputSide copied.wf.outputSide
  -- ports that were connected before are no copies
  have old : ∀ {output input}, G.Feeds output input →
      (¬ ∃ port : OutputId, map.outputs[port]? = some output) ∧
        ¬ ∃ port : InputId, map.inputs[port]? = some input := by
    intro output input fed
    obtain ⟨owner, owned⟩ := exists_outputOwner_of_feeds fed
    obtain ⟨owner', owned'⟩ := wf.exists_inputOwner fed
    rw [outputs.range, inputs.range, owned, owned']
    simp
  refine ⟨copied.wf, described.root, ?_, ?_, ?_, ?_, ?_, ?_, fun _ _ => copied.toCopies.node_old wf,
    fun port record got => ?_, fun port record got => ?_⟩
  · simpa only [spec] using copied.renewed_nodes wf
  · simpa only [spec] using inputs
  · simpa only [spec] using outputs
  · intro id copy node record mapped got stored
    obtain ⟨kind, tips⟩ := copied.kinds id copy node record mapped got stored
    refine ⟨described.decls id copy node record mapped got stored, ?_,
      copied.inputs.listed id copy node record mapped got stored,
      copied.outputs.listed id copy node record mapped got stored⟩
    rw [kind]
    exact kindCopied_copiedKind fun scope eq tip mem => copied.all tip (tips scope eq tip mem)
  · intro first second output input mapped mapped'
    rw [copied.feeds, or_iff_right fun fed => (old fed).1 ⟨first, mapped⟩]
    constructor
    · rintro ⟨first', second', one, two, fed⟩
      cases outputs.injective _ _ _ mapped one
      cases inputs.injective _ _ _ mapped' two
      exact fed
    · exact fun fed => ⟨first, second, mapped, mapped', fed⟩
  · intro output input fed
    rcases (copied.feeds output input).mp fed with fed | ⟨first, second, mapped, mapped', -⟩
    · exact iff_of_false (old fed).1 (old fed).2
    · exact iff_of_true ⟨first, mapped⟩ ⟨second, mapped'⟩
  · rw [described.inputs port, got]
    exact wf.inputBelow port record.owner (by rw [inputOwner?, got]; rfl)
  · rw [described.outputs port, got]
    exact wf.outputBelow port record.owner (by rw [outputOwner?, got]; rfl)

end Copied

/-- In a graph with isolated scopes the nodes of the outermost scope are apart from what is nested
in them. -/
theorem Isolated.scopesApart (isolated : G.Isolated) (outer : ∀ id ∈ ids, G.Within [] id) :
    G.ScopesApart ids := by
  have within : ∀ {path id}, G.Belongs ids path id → G.Within path id := by
    intro path id belongs
    induction belongs with
    | given mem => exact outer _ mem
    | nested _ got kind mem led ih => exact .part ih got kind mem led
  exact fun id path path' belongs belongs' => (within belongs).unique isolated (within belongs')

/-- Nodes that are apart from what is nested in them are copied with all of it. -/
theorem Built.copy_replicates (built : G.Built)
    (has : ∀ id ∈ ids, ∃ node, G.nodes[id]? = some node) (apart : G.ScopesApart ids) :
    ∃ map post, G.copy ids = .ok (map, post) ∧ G.Replicated ids map post := by
  have wf := built.founded.wf
  have spec : ∀ id, id ∈ ids ↔ G.Belongs ids [] id := by
    refine fun id => ⟨.given, fun belongs => ?_⟩
    cases belongs with
    | given mem => exact mem
  have deep : G.nodes.size < ([] : List NodeId).length + (G.nodes.size + 1) := by simp
  obtain ⟨groups, run, lists⟩ :=
    apart.exists_copyGroups wf built.rims.2 has spec (Nat.zero_le _) deep
  have mem : ∀ id, id ∈ groups.flatMap toList ↔ ∃ path, G.Belongs ids path id := by
    simpa only [append_nil] using lists.mem
  have exist := exists_of_copyGroups run
  refine ⟨_, _, bind_of_ok run, Copied.replicated ?_ wf (described_copyAll wf exist) mem⟩
  refine copied_copyAll wf (lists.order.imp_of_mem ?_) exist ?_
  · rintro first _ has - order rfl
    obtain ⟨path, belongs⟩ := (mem first).mp has
    exact order path path belongs belongs suffix_rfl
  -- the endpoints of a flow part are not listed after it, and it is none of them
  intro done id rest all node scope got kind tip inside
  have order := lists.order
  obtain ⟨path, belongs⟩ := (mem id).mp (all ▸ by simp)
  have nested : G.Belongs ids (id :: path) tip := .nested belongs got kind inside .refl
  have listed := (mem tip).mpr ⟨_, nested⟩
  rw [← all] at listed order
  rcases mem_append.mp listed with earlier | later
  · exact earlier
  rcases mem_cons.mp later with rfl | later
  · exact absurd (apart tip _ _ nested belongs) (cons_ne_self _ _)
  · have order := (pairwise_cons.mp (pairwise_append.mp order).2.1).1 tip later
    exact (order path _ belongs nested (suffix_cons _ _)).elim

/-- A flow part with an operator in it. -/
theorem Built.copy_replicates_sealed : sealed.Built ∧ sealed.ScopesApart {⟨11⟩} ∧
    ∃ map post, sealed.copy {⟨11⟩} = .ok (map, post) ∧ sealed.Replicated {⟨11⟩} map post := by
  have only : ∀ id : NodeId, id ∈ ({⟨11⟩} : NodeSet) → id = ⟨11⟩ := by simp
  have apart : sealed.ScopesApart {⟨11⟩} := isolated_sealed.scopesApart fun id mem =>
    only id mem ▸ within_sealed
  refine ⟨built_sealed, apart, copy_replicates built_sealed (fun id mem => ?_) apart⟩
  obtain ⟨node, got, -⟩ := parts_sealed
  exact ⟨node, only id mem ▸ got⟩

end Graph

end Staging
