import Staging.Planner
import Staging.Proofs.Copying
import Staging.Proofs.Cutting
import Staging.Proofs.Rosters

/-! # Blocks of copies

Detaching the regions one after the other gives each block copies of the nodes of its
region. A copy is told by its block and by the node that it copies. Copies in one block are
connected as the nodes that they copy, and block ports wrap the copies of the ports that
they wrapped.
-/

namespace Staging

open Std List ExtTreeSet HandleMap

/-- The block that each copy lies in. -/
abbrev Places := NodeId → BlockId

variable {node : Node} {G graph post source : Graph} {origins : Origins} {place : Places}
  {role : Role} {out : OutputId} {done : List Chart} {chart : Chart}
  {linked : Wiring} {region : Region} {outline : Outline} {entry : BlockInputId}
  {exit : BlockOutputId} {W wiring : Wiring} {copy : NodeId} {charts : List Chart}

/-- What each copy was made of. -/
structure Origins where
  node : NodeId → NodeId
  input : InputId → InputId
  output : OutputId → OutputId

/-- The node of which a record is a copy. -/
def Origins.original (origins : Origins) (node : Node) : Node :=
  { node with
    inputs := node.inputs.map origins.input
    outputs := node.outputs.map origins.output }

/-- Every node is a copy of a node of another graph, port by port. -/
def Faithful (graph source : Graph) (origins : Origins) : Prop :=
  ∀ id node, graph.nodes[id]? = some node →
    source.nodes[origins.node id]? = some (origins.original node)

namespace Faithful

variable (faithful : Faithful G source origins)
  (wf : G.Consistent) (sourceConsistent : source.Consistent)

include faithful

theorem any_node {test : Node → Bool} (eq : ∀ node, test (origins.original node) = test node)
    {id : NodeId} (got : G.nodes[id]? = some node) :
    (source.nodes[origins.node id]?).any test = (G.nodes[id]?).any test := by
  rw [faithful id node got, got, Option.any_some, Option.any_some, eq]

theorem isBoundary {id : NodeId} (got : G.nodes[id]? = some node) :
    source.isBoundary (origins.node id) = G.isBoundary id :=
  faithful.any_node (fun _ => rfl) got

theorem isStageBoundary {id : NodeId} (got : G.nodes[id]? = some node) :
    source.isStageBoundary (origins.node id) = G.isStageBoundary id :=
  faithful.any_node (fun _ => rfl) got

theorem isShuffleBoundary {id : NodeId} (got : G.nodes[id]? = some node) :
    source.isShuffleBoundary (origins.node id) = G.isShuffleBoundary id :=
  faithful.any_node (fun _ => rfl) got

theorem isIdentity {id : NodeId} (got : G.nodes[id]? = some node) :
    source.isIdentity (origins.node id) = G.isIdentity id :=
  faithful.any_node (fun node => by simp [Node.isIdentity, Node.isPseudo, Origins.original]) got

section Ports

variable {ports : Node → List (Handle role)} {owner? owner?' : Handle role → Option NodeId}
  {next next' : Nat} {back : Handle role → Handle role} {first second : Handle role}
  {id one two : NodeId} (side : Graph.Side G.nodes next ports owner?)
  (side' : Graph.Side source.nodes next' ports owner?')
  (lists : ∀ node, ports (origins.original node) = (ports node).map back)

include side side' lists

private theorem owner_back (owned : owner? first = some id) :
    owner?' (back first) = some (origins.node id) := by
  obtain ⟨node, got, own⟩ := (side.owned first id).mp owned
  exact side'.of_mem (faithful id node got) (lists node ▸ mem_map_of_mem own)

theorem port_injective (owned : owner? first = some id) (owned' : owner? second = some id)
    (eq : back first = back second) : first = second := by
  obtain ⟨node, got, own⟩ := (side.owned first id).mp owned
  have nodup := side'.nodup _ _ (faithful id node got)
  rw [lists] at nodup
  exact inj_on_of_nodup_map nodup own ((side.mem_iff got).mpr owned') eq

/-- If a node has at most one copy in each block, so has a port. -/
theorem port_eq (unique : ∀ first second one two, G.nodes[first]? = some one →
      G.nodes[second]? = some two → place first = place second →
      origins.node first = origins.node second → first = second)
    (owned : owner? first = some one) (owned' : owner? second = some two)
    (samePlace : place one = place two) (eq : back first = back second) : first = second := by
  obtain ⟨record, got, -⟩ := (side.owned first one).mp owned
  obtain ⟨record', got', -⟩ := (side.owned second two).mp owned'
  have sameNode := (faithful.owner_back side side' lists owned).symm.trans
    (eq ▸ faithful.owner_back side side' lists owned')
  obtain rfl := unique one two record record' got got' samePlace (Option.some.inj sameNode)
  exact faithful.port_injective side side' lists owned owned' eq

end Ports

include wf sourceConsistent

theorem inputOwner {port : InputId} {id : NodeId} (owned : G.inputOwner? port = some id) :
    source.inputOwner? (origins.input port) = some (origins.node id) :=
  faithful.owner_back wf.inputSide sourceConsistent.inputSide (fun _ => rfl) owned

theorem outputOwner {port : OutputId} {id : NodeId} (owned : G.outputOwner? port = some id) :
    source.outputOwner? (origins.output port) = some (origins.node id) :=
  faithful.owner_back wf.outputSide sourceConsistent.outputSide (fun _ => rfl) owned

end Faithful

namespace Wiring

/-- Block ports are pointed at the copies of the ports that they wrapped. -/
private theorem repointEach_yields {α β γ : Type} [DecidableEq α]
    {of : Wiring → α → Option (BlockId × β)} {repoint : Wiring → α → β → Wiring}
    {step : Wiring → α → Except Fault Wiring} (copies : β → Option β) (frame : Wiring → γ)
    (steps : ∀ {W handle next}, step W handle = .ok next ↔ ∃ block port copy,
      of W handle = some (block, port) ∧ copies port = some copy ∧ next = repoint W handle copy)
    (repoints : ∀ {W : Wiring}, W.Consistent → ∀ handle port, W.Repoints (repoint W handle port))
    (points : ∀ W handle other port, of (repoint W handle port) other =
      if other = handle then (of W other).map fun wraps => (wraps.1, port)
      else of W other)
    (frames : ∀ W handle port, frame (repoint W handle port) = frame W)
    (wf : W.Consistent) {handles : List α} (nodup : handles.Nodup) :
    Yields (∀ handle ∈ handles, ∃ block port copy,
        of W handle = some (block, port) ∧ copies port = some copy)
      (handles.foldlM step W) fun post =>
        (∀ handle ∈ handles, ∃ block port copy,
          of W handle = some (block, port) ∧ copies port = some copy) ∧
        W.Repoints post ∧ frame post = frame W ∧
        ∀ handle, of post handle = if handle ∈ handles then
          (of W handle).map fun wraps => (wraps.1, (copies wraps.2).getD wraps.2)
          else of W handle := by
  induction handles generalizing W with
  | nil => exact .pure ⟨by simp, .refl wf, rfl, by simp⟩
  | cons handle rest ih =>
    obtain ⟨fresh, nodup⟩ := nodup_cons.mp nodup
    have kept : ∀ other ∈ rest, ∀ copy, of (repoint W handle copy) other = of W other :=
      fun other mem copy => (points _ _ _ _).trans (if_neg (by rintro rfl; exact fresh mem))
    refine ⟨fun mapped => ?_, fun post run => ?_⟩
    · obtain ⟨block, port, copy, wraps, got⟩ := mapped handle (.head _)
      obtain ⟨post, run⟩ := (ih (repoints wf handle copy).wf nodup).returns fun other mem => by
        rw [kept other mem]
        exact mapped other (.tail _ mem)
      exact ⟨post, (bind_of_ok (steps.mpr ⟨block, port, copy, wraps, got, rfl⟩)).trans run⟩
    · obtain ⟨next, stepped, run⟩ := of_bind run
      obtain ⟨block, port, copy, wraps, got, rfl⟩ := steps.mp stepped
      have first := repoints wf handle copy
      obtain ⟨mapped, later, framed, pointed⟩ := (ih first.wf nodup).good post run
      refine ⟨forall_mem_cons.mpr ⟨⟨block, port, copy, wraps, got⟩, fun other mem => ?_⟩,
        first.trans later, framed.trans (frames _ _ _), fun other => ?_⟩
      · exact kept other mem copy ▸ mapped other mem
      · rw [pointed, points]
        by_cases here : other = handle
        · subst here
          simp only [fresh, if_false, mem_cons, true_or, if_true, wraps, Option.map_some,
            got, Option.getD_some]
        · simp only [here, if_false, mem_cons, false_or]

end Wiring

/-! ## Handing out copies -/

section Extend

open Classical in
/-- The key under which a value stands, if there is one. -/
noncomputable def inverse {role : Role} (map : HandleMap role (Handle role))
    (value : Handle role) : Handle role :=
  if known : ∃ key : Handle role, map[key]? = some value then known.choose else value

theorem inverse_eq {map : HandleMap role (Handle role)} {key value : Handle role}
    (injective : ∀ first second : Handle role, map[first]? = some value →
      map[second]? = some value → first = second)
    (got : map[key]? = some value) : inverse map value = key := by
  have known : ∃ key : Handle role, map[key]? = some value := ⟨key, got⟩
  rw [inverse, dif_pos known]
  exact injective _ _ known.choose_spec got

/-- A list that was translated through a map is translated back by what undoes the map. -/
private theorem map_back {map : HandleMap role (Handle role)}
    {back : Handle role → Handle role} {keys values : List (Handle role)}
    (translated : keys.map (map[·]?) = values.map some)
    (undone : ∀ key value : Handle role, map[key]? = some value → back value = key) :
    values.map back = keys := by
  induction keys generalizing values with
  | nil => simpa using translated
  | cons key rest ih =>
    cases values with
    | nil => cases translated
    | cons value values =>
      simp only [map_cons, cons.injEq] at translated ⊢
      exact ⟨undone key value translated.1, ih translated.2⟩

private theorem extend_eq {map : HandleMap role (Handle role)} {bound : Nat}
    {origin : Handle role → Handle role} {key copy : Handle role} (above : bound ≤ copy.raw)
    (injective : ∀ first second : Handle role, map[first]? = some copy →
      map[second]? = some copy → first = second)
    (mapped : map[key]? = some copy) :
    (if copy.raw < bound then origin copy else inverse map copy) = key := by
  rw [if_neg (Nat.not_lt.mpr above)]
  exact inverse_eq injective mapped

/-- The handles from `bound` on are copies made by `map`. -/
noncomputable def Origins.extend (origins : Origins) (bound : Nat) (map : CopyMap) : Origins where
  node id := if id.raw < bound then origins.node id else inverse map.nodes id
  input port := if port.raw < bound then origins.input port else inverse map.inputs port
  output port := if port.raw < bound then origins.output port else inverse map.outputs port

/-- The handles from `bound` on belong to a block. -/
def extendPlace (place : Places) (bound : Nat) (block : BlockId) (id : NodeId) :
    BlockId :=
  if id.raw < bound then place id else block

end Extend

/-- The graph holds the source and copies of the nodes of the detached regions. -/
structure DetachedGraph (source : Graph) (done : List Chart) (graph : Graph)
    (place : Places) (origins : Origins) : Prop where
  wf : graph.Consistent
  next : source.next ≤ graph.next
  old : ∀ (id : NodeId) (node : Node), source.nodes[id]? = some node → graph.nodes[id]? = some node
  new : ∀ (id : NodeId) (node : Node), graph.nodes[id]? = some node →
    source.nodes[id]? = some node ∨ source.next ≤ id.raw ∧
      (∃ chart ∈ done, place id = chart.1.id ∧ origins.node id ∈ chart.2.nodes) ∧
      source.nodes[origins.node id]? = some (origins.original node)
  copies : ∀ chart ∈ done, ∀ id ∈ chart.2.nodes, ∃ (copy : NodeId) (node : Node),
    graph.nodes[copy]? = some node ∧
      source.next ≤ copy.raw ∧ place copy = chart.1.id ∧ origins.node copy = id
  unique : ∀ (first second : NodeId) (one two : Node), graph.nodes[first]? = some one →
    graph.nodes[second]? = some two → source.next ≤ first.raw → source.next ≤ second.raw →
    place first = place second → origins.node first = origins.node second → first = second
  feeds : ∀ output input, graph.Feeds output input ↔ source.Feeds output input ∨
    ∃ first second, graph.outputOwner? output = some first ∧
      graph.inputOwner? input = some second ∧ source.next ≤ first.raw ∧
      source.next ≤ second.raw ∧ place first = place second ∧
      source.Feeds (origins.output output) (origins.input input)

section Step

variable {ids : List NodeId} {map : CopyMap}

private theorem original_extend (wf : G.Consistent) {id : NodeId} (got : G.nodes[id]? = some node) :
    (origins.extend G.next map).original node = origins.original node := by
  have inputs : node.inputs.map (origins.extend G.next map).input =
      node.inputs.map origins.input := by
    refine map_congr_left fun port own => if_pos ?_
    exact wf.inputBelow port id (wf.input_of_mem got own)
  have outputs : node.outputs.map (origins.extend G.next map).output =
      node.outputs.map origins.output := by
    refine map_congr_left fun port own => if_pos ?_
    exact wf.outputBelow port id (wf.output_of_mem got own)
  rw [Origins.original, Origins.original, inputs, outputs]

private theorem ports_extend (wf : G.Consistent) {input : InputId}
    {first second : NodeId} (owned : G.outputOwner? out = some first)
    (owned' : G.inputOwner? input = some second) :
    (origins.extend G.next map).output out = origins.output out ∧
      (origins.extend G.next map).input input = origins.input input :=
  ⟨if_pos (wf.outputBelow out first owned), if_pos (wf.inputBelow input second owned')⟩

variable (copied : Graph.Copied G ids map post)

include copied

private theorem node_extend {id : NodeId} (mapped : map.nodes[id]? = some copy) :
    (origins.extend G.next map).node copy = id :=
  extend_eq (copied.nodes id copy mapped).1 (fun _ _ => copied.injective _ _ _) mapped

private theorem input_extend {port copy : InputId} (mapped : map.inputs[port]? = some copy) :
    (origins.extend G.next map).input copy = port :=
  extend_eq (copied.inputs.domain port copy mapped).1
    (fun _ _ => copied.inputs.injective copied.wf.inputSide copied.injective) mapped

private theorem output_extend {port copy : OutputId} (mapped : map.outputs[port]? = some copy) :
    (origins.extend G.next map).output copy = port :=
  extend_eq (copied.outputs.domain port copy mapped).1
    (fun _ _ => copied.outputs.injective copied.wf.outputSide copied.injective) mapped

/-- The record of a copy is traced back to the record that it copies. -/
private theorem original_copy {id : NodeId} {record : Node}
    (got : G.nodes[id]? = some node) (flat : ∀ scope, node.kind ≠ .flowPart scope)
    (mapped : map.nodes[id]? = some copy) (stored : post.nodes[copy]? = some record) :
    (origins.extend G.next map).original record = node := by
  obtain ⟨-, node', record', got', stored', same⟩ := copied.nodes id copy mapped
  cases got'.symm.trans got
  cases stored'.symm.trans stored
  have kind := (copied.kinds id copy node record mapped got stored).1
  rw [Graph.copiedKind_eq flat] at kind
  rw [Origins.original, map_back (copied.inputs.listed id copy node record mapped got stored)
    fun _ _ => input_extend copied, map_back (copied.outputs.listed id copy node record mapped got
      stored) fun _ _ => output_extend copied, ← same, kind]

end Step

section Snoc

variable {map : CopyMap} {id : NodeId}
  (pre : DetachedGraph source done G place origins) (wf : source.Consistent)
  (copied : Graph.Copied G chart.2.nodes.toList map post)
  (has : ∀ id ∈ chart.2.nodes, ∃ node, source.nodes[id]? = some node ∧
    ∀ scope, node.kind ≠ .flowPart scope) (fresh : ∀ other ∈ done, other.1.id ≠ chart.1.id)

include pre copied

include wf fresh in
/-- Nodes of one block are copied together. -/
private theorem lt_next_of_place {first second : NodeId} {one : Node}
    (got : post.nodes[first]? = some one) (above : source.next ≤ first.raw)
    (eq : extendPlace place G.next chart.1.id first = extendPlace place G.next chart.1.id second)
    (early : first.raw < G.next) : second.raw < G.next := by
  by_contra late
  rw [extendPlace, extendPlace, if_pos early, if_neg late] at eq
  rcases pre.new first one ((copied.node_old early).mp got) with
    old | ⟨-, ⟨other, mem, placed, -⟩, -⟩
  · exact Nat.not_lt.mpr above (wf.early old)
  · exact fresh other mem (placed.symm.trans eq)

include has

private theorem exists_mapped (got : post.nodes[id]? = some node) (late : ¬ id.raw < G.next) :
    ∃ origin record, map.nodes[origin]? = some id ∧ origin ∈ chart.2.nodes ∧
      source.nodes[origin]? = some record ∧ G.nodes[origin]? = some record ∧
      ∀ scope, record.kind ≠ .flowPart scope := by
  obtain ⟨origin, mapped⟩ := copied.new id node got (Nat.not_lt.mp late)
  have mem := mem_toList.mp (copied.only origin id mapped)
  obtain ⟨record, stored, flat⟩ := has origin mem
  exact ⟨origin, record, mapped, mem, stored, pre.old origin record stored, flat⟩

private theorem new_snoc (got : post.nodes[id]? = some node) :
    source.nodes[id]? = some node ∨ source.next ≤ id.raw ∧
      (∃ other ∈ done ++ [chart], extendPlace place G.next chart.1.id id = other.1.id ∧
        (origins.extend G.next map).node id ∈ other.2.nodes) ∧
      source.nodes[(origins.extend G.next map).node id]? =
        some ((origins.extend G.next map).original node) := by
  have next := pre.next
  by_cases early : id.raw < G.next
  · have got' := (copied.node_old early).mp got
    rw [extendPlace, if_pos early, original_extend pre.wf got',
      show (origins.extend G.next map).node id = origins.node id from if_pos early]
    refine (pre.new id node got').imp_right ?_
    rintro ⟨above, ⟨other, mem, facts⟩, faithful⟩
    exact ⟨above, ⟨other, mem_append_left _ mem, facts⟩, faithful⟩
  · obtain ⟨origin, record, mapped, member, stored, stored', flat⟩ :=
      exists_mapped pre copied has got early
    rw [extendPlace, if_neg early, node_extend copied mapped]
    refine .inr ⟨by omega, ⟨chart, by simp, rfl, member⟩, ?_⟩
    rw [original_copy copied stored' flat mapped got, stored]

include wf

/-- What is copied was there at the start, with its connections. -/
private theorem feeds_mapped {first : OutputId} {second : InputId}
    (mapped : map.outputs[first]? = some out) :
    G.Feeds first second ↔ source.Feeds first second := by
  obtain ⟨-, id, _, _, _, mapped', stored, own, -⟩ := copied.outputs.domain first out mapped
  obtain ⟨node, got, -⟩ := has id (mem_toList.mp (copied.only id _ mapped'))
  have below := wf.early got
  rw [pre.feeds, or_iff_left]
  rintro ⟨first', _, owned', -, above, -⟩
  cases owned'.symm.trans (pre.wf.output_of_mem stored own)
  omega

include fresh

private theorem unique_snoc {first second : NodeId} {one two : Node}
    (got : post.nodes[first]? = some one) (got' : post.nodes[second]? = some two)
    (above : source.next ≤ first.raw) (above' : source.next ≤ second.raw)
    (samePlace : extendPlace place G.next chart.1.id first =
      extendPlace place G.next chart.1.id second)
    (sameOrigin : (origins.extend G.next map).node first =
      (origins.extend G.next map).node second) : first = second := by
  by_cases early : first.raw < G.next
  · have early' := lt_next_of_place pre wf copied fresh got above samePlace early
    rw [extendPlace, extendPlace, if_pos early, if_pos early'] at samePlace
    rw [Origins.extend] at sameOrigin
    simp only [early, early', if_true] at sameOrigin
    exact pre.unique first second one two ((copied.node_old early).mp got)
      ((copied.node_old early').mp got') above above' samePlace sameOrigin
  · have late := mt (lt_next_of_place pre wf copied fresh got' above' samePlace.symm) early
    obtain ⟨origin, -, mapped, -⟩ := exists_mapped pre copied has got early
    obtain ⟨origin', -, mapped', -⟩ := exists_mapped pre copied has got' late
    rw [node_extend copied mapped, node_extend copied mapped'] at sameOrigin
    subst sameOrigin
    exact Option.mem_unique mapped mapped'

private theorem feeds_snoc (out : OutputId) (input : InputId) :
    post.Feeds out input ↔ source.Feeds out input ∨
      ∃ first second, post.outputOwner? out = some first ∧
        post.inputOwner? input = some second ∧ source.next ≤ first.raw ∧
        source.next ≤ second.raw ∧ extendPlace place G.next chart.1.id first =
          extendPlace place G.next chart.1.id second ∧
        source.Feeds ((origins.extend G.next map).output out)
          ((origins.extend G.next map).input input) := by
  have next := pre.next
  rw [copied.feeds, pre.feeds, or_assoc]
  refine or_congr_right ⟨?_, ?_⟩
  · rintro (⟨first, second, owned, owned', above, above', eq, fed⟩ |
      ⟨first, second, mapped, mapped', fed⟩)
    · obtain ⟨one, got, -⟩ := pre.wf.node_of_output owned
      have early := pre.wf.early got
      have early' := pre.wf.early_of_input owned'
      refine ⟨first, second, (copied.outputOwner_old pre.wf early).mpr owned,
        (copied.inputOwner_old pre.wf early').mpr owned', above, above', ?_, ?_⟩
      · rw [extendPlace, extendPlace, if_pos early, if_pos early', eq]
      · rw [(ports_extend pre.wf owned owned').1, (ports_extend pre.wf owned owned').2]
        exact fed
    · obtain ⟨-, _, owner, _, _, mappedOwner, -, -, stored, own⟩ :=
        copied.outputs.domain first out mapped
      obtain ⟨-, _, owner', _, _, mappedOwner', -, -, stored', own'⟩ :=
        copied.inputs.domain second input mapped'
      have above := (copied.nodes _ owner mappedOwner).1
      have above' := (copied.nodes _ owner' mappedOwner').1
      refine ⟨owner, owner', copied.wf.output_of_mem stored own,
        copied.wf.input_of_mem stored' own', by omega, by omega, ?_, ?_⟩
      · rw [extendPlace, extendPlace, if_neg (Nat.not_lt.mpr above), if_neg (Nat.not_lt.mpr above')]
      · rw [output_extend copied mapped, input_extend copied mapped']
        exact (feeds_mapped pre wf copied has mapped).mp fed
  · rintro ⟨first, second, owned, owned', above, above', eq, fed⟩
    obtain ⟨one, got, -⟩ := copied.wf.node_of_output owned
    obtain ⟨two, got', -⟩ := copied.wf.node_of_input owned'
    by_cases early : first.raw < G.next
    · have early' := lt_next_of_place pre wf copied fresh got above eq early
      rw [extendPlace, extendPlace, if_pos early, if_pos early'] at eq
      have owned := (copied.outputOwner_old pre.wf early).mp owned
      have owned' := (copied.inputOwner_old pre.wf early').mp owned'
      rw [(ports_extend pre.wf owned owned').1, (ports_extend pre.wf owned owned').2] at fed
      exact .inl ⟨first, second, owned, owned', above, above', eq, fed⟩
    · have late := mt (lt_next_of_place pre wf copied fresh got' above' eq.symm) early
      obtain ⟨origin, record, mapped, -, -, stored, -⟩ := exists_mapped pre copied has got early
      obtain ⟨origin', record', mapped', -, -, stored', -⟩ := exists_mapped pre copied has got' late
      obtain ⟨port, mappedPort, -⟩ := copied.outputs.exists_origin pre.wf.outputSide
        copied.wf.outputSide mapped stored owned
      obtain ⟨port', mappedPort', -⟩ := copied.inputs.exists_origin pre.wf.inputSide
        copied.wf.inputSide mapped' stored' owned'
      rw [output_extend copied mappedPort, input_extend copied mappedPort'] at fed
      exact .inr ⟨port, port', mappedPort, mappedPort',
        (feeds_mapped pre wf copied has mappedPort).mpr fed⟩

/-- Copying the nodes of one region more. -/
theorem DetachedGraph.snoc : DetachedGraph source (done ++ [chart]) post
    (extendPlace place G.next chart.1.id) (origins.extend G.next map) where
  wf := copied.wf
  next := pre.next.trans copied.next
  old id node got := copied.toCopies.node_old pre.wf (pre.old id node got)
  new _ _ := new_snoc pre copied has
  copies other mem id member := by
    rcases mem_append.mp mem with earlier | now
    · obtain ⟨copy, node, got, above, at', origin⟩ := pre.copies other earlier id member
      have early := pre.wf.early got
      exact ⟨copy, node, (copied.node_old early).mpr got, above, (if_pos early).trans at',
        (if_pos early).trans origin⟩
    · obtain rfl := mem_singleton.mp now
      obtain ⟨copy, mapped⟩ := copied.all id (mem_toList.mpr member)
      obtain ⟨above, -, record, -, stored, -⟩ := copied.nodes id copy mapped
      exact ⟨copy, record, stored, pre.next.trans above, if_neg (Nat.not_lt.mpr above),
        node_extend copied mapped⟩
  unique _ _ _ _ := unique_snoc pre wf copied has fresh
  feeds := feeds_snoc pre wf copied has fresh

end Snoc

/-- The nodes of a block are all that lie in it, and it knows what they are copies of. -/
structure Block.Fits (block : Block) (graph : Graph) (place : Places)
    (origins : Origins) : Prop where
  nodes : ∀ id, id ∈ block.nodes ↔ place id = block.id ∧ ∃ node, graph.nodes[id]? = some node
  origins : ∀ id origin : NodeId, block.origins[id]? = some origin ↔
    id ∈ block.nodes ∧ origin = origins.node id

/-- The block ports of the regions that are done wrap copies of what they wrapped, and the
others wrap what they wrapped. -/
structure Recopied {role' : Role} (done : List Chart) (place : Places)
    (origin : Handle role → Handle role) (owner? : Handle role → Option NodeId)
    (pre post : Handle role' → Option (BlockId × Handle role)) : Prop where
  kept : ∀ handle block port, pre handle = some (block, port) →
    (∀ chart ∈ done, chart.1.id ≠ block) → post handle = some (block, port)
  copied : ∀ chart ∈ done, ∀ handle port, pre handle = some (chart.1.id, port) →
    ∃ copy owner, post handle = some (chart.1.id, copy) ∧ origin copy = port ∧
      owner? copy = some owner ∧ place owner = chart.1.id

/-- The regions that are done have blocks of their own, and the ports of these
blocks wrap copies; the other regions are as they were. -/
structure Detached (source : Graph) (linked : Wiring) (done : List Chart)
    (blocks : List Block) (site : Site) (place : Places) (origins : Origins) :
    Prop where
  graph : DetachedGraph source done site.graph place origins
  outside : ∀ id : NodeId, id.raw < source.next → place id = ⟨linked.next⟩
  wiring : linked.Repoints site.wiring
  entries : Recopied done place origins.input site.graph.inputOwner? linked.entryOf
    site.wiring.entryOf
  exits : Recopied done place origins.output site.graph.outputOwner? linked.exitOf
    site.wiring.exitOf
  frames : blocks.map (fun block => (block.id, block.inputs, block.outputs)) =
    done.map fun chart => (chart.1.id, chart.1.inputs, chart.1.outputs)
  fits : ∀ block ∈ blocks, block.Fits site.graph place origins

/-- Nothing is detached yet. -/
theorem detached_nil (wf : source.Consistent) (wired : linked.Consistent) :
    Detached source linked [] [] ⟨source, linked⟩ (fun _ => ⟨linked.next⟩) ⟨id, id, id⟩ where
  graph :=
    { wf
      next := Nat.le_refl _
      old := fun _ _ got => got
      new := fun _ _ got => .inl got
      copies := by simp
      unique := by
        intro first second one two got _ above
        have below := wf.early got
        omega
      feeds := by
        intro out input
        rw [or_iff_left]
        rintro ⟨first, second, owned, -, above, -⟩
        have below := wf.early_of_output owned
        omega }
  outside _ _ := rfl
  wiring := .refl wired
  entries := ⟨fun _ _ _ got _ => got, by simp⟩
  exits := ⟨fun _ _ _ got _ => got, by simp⟩
  frames := rfl
  fits := by simp

/-- A region as a block that does not know what its nodes are copies of. -/
def Region.bare (region : Region) : Block :=
  { region.toBlockFrame with origins := ∅ }

/-- Regions list their block ports. -/
theorem Plotted.roster (plotted : Plotted W charts) :
    Roster W (charts.map fun chart => chart.1.bare) := by
  have below : ∀ {id : BlockId}, (∃ chart ∈ charts, chart.1.id = id) → id.raw < W.next := by
    rintro _ ⟨chart, mem, rfl⟩
    exact (plotted.follows chart mem).idBelow
  refine ⟨plotted.wf, by rw [map_map]; exact plotted.nodup, ?_,
    fun entry _ _ has => below (plotted.entryOwned entry _ has),
    fun exit _ _ has => below (plotted.exitOwned exit _ has), ?_, ?_, ?_, ?_⟩
  all_goals refine forall_mem_map.mpr fun chart mem => ?_
  · exact (plotted.follows chart mem).idBelow
  · exact (plotted.follows chart mem).entries
  · exact (plotted.follows chart mem).exits
  · exact (plotted.follows chart mem).entriesNodup
  · exact (plotted.follows chart mem).exitsNodup

/-- Blocks list the block ports of the regions that they were made of. -/
theorem Detached.roster {blocks : List Block} {site : Site}
    (detached : Detached source linked done blocks site place origins)
    (plotted : Plotted linked done) : Roster site.wiring blocks := by
  refine (plotted.roster.repoint detached.wiring).congr ?_
  rw [map_map]
  exact detached.frames

/-- The nodes of an outline can be copied, and its ports are ports of them. -/
structure Outline.Inside (outline : Outline) (graph : Graph) : Prop where
  nodes : ∀ id ∈ outline.nodes, ∃ node, graph.nodes[id]? = some node ∧
    ∀ scope, node.kind ≠ .flowPart scope
  inputs : ∀ port ∈ outline.inputs, ∃ id ∈ outline.nodes, graph.inputOwner? port = some id
  outputs : ∀ port targets, outline.outputs[port]? = some targets →
    ∃ id ∈ outline.nodes, graph.outputOwner? port = some id

section Detach

variable {blocks : List Block} {site : Site}

/-- A region as a block of copies. -/
def Region.copies (region : Region) (map : CopyMap) : Block :=
  { id := region.id, nodes := .of (map.nodes.toList.map Prod.snd), inputs := region.inputs,
    outputs := region.outputs,
    origins := ExtTreeMap.ofList (map.nodes.toList.map fun (node, copy) => (copy, node)) }

/-- The ports of a region have copies. -/
structure Region.Mapped (region : Region) (wiring : Wiring) (map : CopyMap) : Prop where
  entries : ∀ entry ∈ region.inputs, ∃ block port copy,
    wiring.entryOf entry = some (block, port) ∧ map.inputs[port]? = some copy
  exits : ∀ exit ∈ region.outputs, ∃ block port copy,
    wiring.exitOf exit = some (block, port) ∧ map.outputs[port]? = some copy

/-- The wiring after a region has been detached. -/
structure Repointed (pre post : Wiring) (region : Region) (map : CopyMap) : Prop where
  mapped : region.Mapped pre map
  repoints : pre.Repoints post
  entries : ∀ entry, post.entryOf entry = if entry ∈ region.inputs then
    (pre.entryOf entry).map fun wraps => (wraps.1, map.inputs[wraps.2]?.getD wraps.2)
    else pre.entryOf entry
  exits : ∀ exit, post.exitOf exit = if exit ∈ region.outputs then
    (pre.exitOf exit).map fun wraps => (wraps.1, map.outputs[wraps.2]?.getD wraps.2)
    else pre.exitOf exit

/-- A region is detached if its ports have copies. -/
theorem Region.detach_yields {map : CopyMap}
    (copied : site.graph.copy region.nodes = .ok (map, G)) (wf : site.wiring.Consistent)
    (entriesNodup : region.inputs.Nodup) (exitsNodup : region.outputs.Nodup) :
    Yields (region.Mapped site.wiring map) (region.detach site) fun result =>
      result.1 = region.copies map ∧ result.2.graph = G ∧
        Repointed site.wiring result.2.wiring region map := by
  rw [Region.detach, bind_of_ok copied]
  refine .bind ((Wiring.repointEach_yields (map.inputs[·]?) Wiring.exitOf (fun {W entry next} => ?_)
    .repointInput Wiring.entryOf_repointInput (fun _ _ _ => rfl) wf entriesNodup).imp
    Mapped.entries) fun between ⟨mapped, repoints, exitsKept, entries⟩ => .bind
    ((Wiring.repointEach_yields (map.outputs[·]?) Wiring.entryOf (fun {W exit next} => ?_)
      .repointOutput Wiring.exitOf_repointOutput (fun _ _ _ => rfl) repoints.wf exitsNodup).imp
      fun mapped => by simpa only [exitsKept] using mapped.exits)
    fun post ⟨mapped', repoints', entriesKept, exits⟩ => .pure ⟨rfl, rfl,
      ⟨mapped, by simpa only [exitsKept] using mapped'⟩, repoints.trans repoints',
      fun entry => by rw [entriesKept, entries], fun exit => by rw [exits, exitsKept]⟩
  · rw [Wiring.input, Wiring.entryOf]
    cases W.inputs[entry]? with
    | none => simp [bind, Except.bind]
    | some record => cases got : map.inputs[record.port]? <;>
        simp [got, bind, Except.bind, eq_comm, pure, Except.pure]
  · rw [Wiring.output, Wiring.exitOf]
    cases W.outputs[exit]? with
    | none => simp [bind, Except.bind]
    | some record => cases got : map.outputs[record.port]? <;>
        simp [got, bind, Except.bind, eq_comm, pure, Except.pure]

theorem Region.mem_copies {map : CopyMap} {id : NodeId} :
    id ∈ (region.copies map).nodes ↔ ∃ origin : NodeId, map.nodes[origin]? = some id := by
  rw [Region.copies, HandleSet.mem_of, mem_map]
  constructor
  · rintro ⟨⟨origin, copy⟩, mem, rfl⟩
    exact ⟨origin, (mem_toList_iff _).mp mem⟩
  · rintro ⟨origin, mapped⟩
    exact ⟨(origin, id), (mem_toList_iff _).mpr mapped, rfl⟩

/-- A block of copies knows what these are copies of. -/
theorem Region.origins_copies {map : CopyMap} (copies : Graph.Copies source map G)
    {origin : NodeId} :
    (region.copies map).origins[copy]? = some origin ↔ map.nodes[origin]? = some copy := by
  have keys : (map.nodes.toList.map fun (node, copy) => (copy, node)).map Prod.fst =
      map.nodes.toList.map Prod.snd := by
    simp [Function.comp_def]
  have nodup : (map.nodes.toList.map Prod.snd).Nodup := by
    refine Nodup.map_on (fun first mem second mem' eq => Prod.ext (copies.injective _ _ second.2
      (eq ▸ (mem_toList_iff _).mp mem) ((mem_toList_iff _).mp mem')) eq)
      (.of_map Prod.fst map.nodes.nodup_map_fst_toList)
  rw [Region.copies, getElem?_ofList_iff (keys ▸ nodup), mem_map]
  constructor
  · rintro ⟨⟨node, copy⟩, mem, ⟨⟩⟩
    exact (mem_toList_iff _).mp mem
  · exact fun mapped => ⟨(origin, copy), (mem_toList_iff _).mpr mapped, rfl⟩

/-- A block of copies fits, also after more copies are made for other blocks. -/
private theorem Block.Fits.extend {block : Block} {map : CopyMap} {ids : List NodeId}
    {other : BlockId} (fits : block.Fits G place origins) (wf : G.Consistent)
    (copied : Graph.Copied G ids map post) (ne : block.id ≠ other) :
    block.Fits post (extendPlace place G.next other) (origins.extend G.next map) := by
  refine ⟨fun id => ?_, fun id origin => ?_⟩
  · rw [fits.nodes]
    by_cases early : id.raw < G.next
    · simp only [extendPlace, early, if_true, copied.node_old early]
    · simp only [extendPlace, early, if_false]
      refine iff_of_false ?_ fun facts => ne facts.1.symm
      rintro ⟨-, node, got⟩
      exact early (wf.early got)
  · rw [fits.origins]
    refine and_congr_right fun mem => ?_
    obtain ⟨-, node, got⟩ := (fits.nodes id).mp mem
    rw [show (origins.extend G.next map).node id = origins.node id from
      if_pos (wf.early got)]

/-- The copies of a region are a block. -/
private theorem fits_copies {map : CopyMap}
    (pre : Detached source linked done blocks site place origins)
    (copied : Graph.Copied site.graph outline.nodes.toList map G)
    (below : region.id.raw < linked.next) (fresh : ∀ other ∈ done, other.1.id ≠ region.id)
    (wf : source.Consistent) :
    Block.Fits (region.copies map) G (extendPlace place site.graph.next region.id)
      (origins.extend site.graph.next map) := by
  refine ⟨fun id => ?_, fun id origin => ?_⟩
  · rw [Region.mem_copies]
    constructor
    · rintro ⟨origin, mapped⟩
      exact ⟨if_neg (Nat.not_lt.mpr (copied.nodes origin id mapped).1), copied.stands mapped⟩
    · rintro ⟨placed, node, got⟩
      by_cases early : id.raw < site.graph.next
      · rw [extendPlace, if_pos early] at placed
        rcases pre.graph.new id node ((copied.node_old early).mp got) with
          old | ⟨-, ⟨other, mem, placed', -⟩, -⟩
        · rw [pre.outside id (wf.early old)] at placed
          have below : (region.copies map).id.raw < linked.next := below
          rw [← placed] at below
          exact (Nat.lt_irrefl _ below).elim
        · exact (fresh other mem (placed'.symm.trans placed)).elim
      · exact copied.new id node got (Nat.not_lt.mp early)
  · rw [Region.origins_copies copied.toCopies, Region.mem_copies]
    constructor
    · exact fun mapped => ⟨⟨origin, mapped⟩, (node_extend copied mapped).symm⟩
    · rintro ⟨⟨key, mapped⟩, rfl⟩
      rwa [node_extend copied mapped]

section Recopy

variable {map : CopyMap} {ids : List NodeId} {role' : Role} {ports : Node → List (Handle role)}
  {owner? owner?' : Handle role → Option NodeId} {origin : Handle role → Handle role}
  {copies : HandleMap role (Handle role)} (wf : G.Consistent) (copied : Graph.Copied G ids map post)
  (side : Graph.Side G.nodes G.next ports owner?)
  (side' : Graph.Side post.nodes post.next ports owner?')

include copied side side'

/-- A port of a node that is copied has a copy, which is known to come from it. -/
private theorem exists_copied (ported : Graph.PortsCopied G post map.nodes ports copies)
    {port : Handle role} (inside : ∃ id ∈ ids, owner? port = some id) :
    ∃ copy owner, copies[port]? = some copy ∧
      (if copy.raw < G.next then origin copy else inverse copies copy) = port ∧
      owner?' copy = some owner ∧ G.next ≤ owner.raw := by
  obtain ⟨id, mem, owned⟩ := inside
  obtain ⟨owner, mapped⟩ := copied.all id mem
  obtain ⟨above, -, record, -, stored, -⟩ := copied.nodes id owner mapped
  obtain ⟨copy, got, owned'⟩ := ported.exists_copy side side' mapped stored owned
  exact ⟨copy, owner, got, extend_eq (ported.domain port copy got).1
    (fun _ _ => ported.injective side' copied.injective) got, owned', above⟩

include wf in
/-- The block ports of one region more are made to wrap copies. -/
private theorem Recopied.snoc {of₀ of of' : Handle role' → Option (BlockId × Handle role)}
    {own : List (Handle role')} (recopied : Recopied done place origin owner? of₀ of)
    (repointed : ∀ handle, of' handle = if handle ∈ own then
      (of handle).map fun wraps => (wraps.1, copies[wraps.2]?.getD wraps.2) else of handle)
    (listed : ∀ handle, handle ∈ own ↔ ∃ port, of₀ handle = some (chart.1.id, port))
    (fresh : ∀ other ∈ done, other.1.id ≠ chart.1.id)
    (mapped : ∀ handle port, of₀ handle = some (chart.1.id, port) → ∃ copy owner,
      copies[port]? = some copy ∧
        (if copy.raw < G.next then origin copy else inverse copies copy) = port ∧
        owner?' copy = some owner ∧ G.next ≤ owner.raw) :
    Recopied (done ++ [chart]) (extendPlace place G.next chart.1.id)
      (fun copy => if copy.raw < G.next then origin copy else inverse copies copy) owner?'
      of₀ of' := by
  have foreign : ∀ {handle block port}, of₀ handle = some (block, port) → block ≠ chart.1.id →
      handle ∉ own := fun wraps ne mem => by
    obtain ⟨port', wraps'⟩ := (listed _).mp mem
    exact ne (congrArg Prod.fst (Option.mem_unique wraps wraps'))
  refine ⟨fun handle block port wraps others => ?_, fun other mem handle port wraps => ?_⟩
  · rw [repointed, if_neg (foreign wraps (others chart (by simp)).symm)]
    exact recopied.kept handle block port wraps fun other mem =>
      others other (mem_append_left _ mem)
  rcases mem_append.mp mem with earlier | now
  · obtain ⟨copy, owner, wraps', eq, owned, placed⟩ :=
      recopied.copied other earlier handle port wraps
    obtain ⟨node, got, has⟩ := (side.owned copy owner).mp owned
    have below := wf.early got
    refine ⟨copy, owner, ?_, (if_pos (side.below copy owner owned)).trans eq,
      side'.of_mem ((copied.node_old below).mpr got) has, (if_pos below).trans placed⟩
    rw [repointed, if_neg (foreign wraps (fresh other earlier)), wraps']
  · obtain rfl := mem_singleton.mp now
    obtain ⟨copy, owner, got, eq, owned, later⟩ := mapped handle port wraps
    refine ⟨copy, owner, ?_, eq, owned, if_neg (Nat.not_lt.mpr later)⟩
    rw [repointed, if_pos ((listed handle).mpr ⟨port, wraps⟩),
      recopied.kept handle _ port wraps fresh, Option.map_some, got, Option.getD_some]

end Recopy

/-- Detaching one region more. -/
theorem Detached.snoc (pre : Detached source linked done blocks site place origins)
    (wf : source.Consistent) (follows : chart.1.Follows linked chart.2)
    (inside : chart.2.Inside source) (fresh : ∀ other ∈ done, other.1.id ≠ chart.1.id) :
    ∃ block site' place' origins', chart.1.detach site = .ok (block, site') ∧
      Detached source linked (done ++ [chart]) (blocks ++ [block]) site' place' origins' := by
  have wf' := pre.graph.wf
  obtain ⟨map, G, run, copied⟩ := @Graph.copy_spec site.graph wf' chart.1.nodes fun id has => by
      obtain ⟨node, got, flat⟩ := inside.nodes id (follows.nodes ▸ has)
      exact ⟨node, pre.graph.old id node got, flat⟩
  rw [follows.nodes] at copied
  -- the block ports wrap ports of originals, and these have copies
  have entryMapped := fun entry port (wraps : linked.entryOf entry = some (chart.1.id, port)) =>
    @exists_copied _ _ _ _ _ _ _ _ origins.input _ copied wf'.inputSide copied.wf.inputSide
      copied.inputs port (by
      obtain ⟨id, mem, owned⟩ := inside.inputs port ((follows.enters port).mpr ⟨entry, wraps⟩)
      obtain ⟨node, got, own⟩ := wf.node_of_input owned
      exact ⟨id, mem_toList.mpr mem, wf'.input_of_mem (pre.graph.old id node got) own⟩)
  have exitMapped := fun exit port (wraps : linked.exitOf exit = some (chart.1.id, port)) =>
    @exists_copied _ _ _ _ _ _ _ _ origins.output _ copied wf'.outputSide copied.wf.outputSide
      copied.outputs port (by
      obtain ⟨targets, targeted⟩ := follows.targeted exit port wraps
      obtain ⟨id, mem, owned⟩ :=
        inside.outputs port targets ((follows.leaves port targets).mpr ⟨exit, wraps, targeted⟩)
      obtain ⟨node, got, own⟩ := wf.node_of_output owned
      exact ⟨id, mem_toList.mpr mem, wf'.output_of_mem (pre.graph.old id node got) own⟩)
  have spec := Region.detach_yields run pre.wiring.wf follows.entriesNodup follows.exitsNodup
  obtain ⟨⟨block, site'⟩, detached⟩ := spec.returns ⟨fun entry has => by
      obtain ⟨port, wraps⟩ := (follows.entries entry).mp has
      obtain ⟨copy, -, mapped, -⟩ := entryMapped entry port wraps
      exact ⟨_, port, copy, pre.entries.kept entry _ port wraps fresh, mapped⟩,
    fun exit has => by
      obtain ⟨port, wraps⟩ := (follows.exits exit).mp has
      obtain ⟨copy, -, mapped, -⟩ := exitMapped exit port wraps
      exact ⟨_, port, copy, pre.exits.kept exit _ port wraps fresh, mapped⟩⟩
  obtain ⟨rfl, rfl, repointed⟩ := spec.good _ detached
  refine ⟨_, _, extendPlace place site.graph.next chart.1.id, origins.extend site.graph.next map,
    detached,
    { graph := pre.graph.snoc wf copied inside.nodes fresh
      outside := fun id early => ?_
      wiring := pre.wiring.trans repointed.repoints
      entries := pre.entries.snoc wf' copied wf'.inputSide copied.wf.inputSide repointed.entries
        follows.entries fresh entryMapped
      exits := pre.exits.snoc wf' copied wf'.outputSide copied.wf.outputSide repointed.exits
        follows.exits fresh exitMapped
      frames := by simp [pre.frames, Region.copies]
      fits := fun block mem => ?_ }⟩
  · rw [extendPlace, if_pos (Nat.lt_of_lt_of_le early pre.graph.next)]
    exact pre.outside id early
  · rcases mem_append.mp mem with earlier | now
    · have known := mem_map_of_mem
        (f := fun block : Block => (block.id, block.inputs, block.outputs)) earlier
      rw [pre.frames] at known
      obtain ⟨other, mem, eq⟩ := mem_map.mp known
      exact (pre.fits block earlier).extend wf' copied ((Prod.mk.inj eq).1 ▸ fresh other mem)
    · obtain rfl := mem_singleton.mp now
      exact fits_copies pre copied follows.idBelow fresh wf

/-- Detaching regions one after the other. -/
theorem detachEach_eq_ok (pre : Detached source linked done blocks site place origins)
    (wf : source.Consistent) (follows : ∀ chart ∈ charts, chart.1.Follows linked chart.2)
    (inside : ∀ chart ∈ charts, chart.2.Inside source)
    (nodup : ((done ++ charts).map fun chart => chart.1.id).Nodup) :
    ∃ more site' place' origins',
      Planner.detachEach (charts.map Prod.fst) site = .ok (more, site') ∧
        Detached source linked (done ++ charts) (blocks ++ more) site' place' origins' := by
  let inv : List Region → List Block × Site → Prop := fun rest state =>
    ∃ past left place origins, past ++ left = charts ∧ left.map Prod.fst = rest ∧
      Detached source linked (done ++ past) (blocks ++ state.1) state.2 place origins
  obtain ⟨⟨more, site'⟩, run, past, left, place', origins', all, none, post⟩ : ∃ result,
      Planner.detachEach (charts.map Prod.fst) site = .ok result ∧ inv [] result := by
    refine foldlM_keeps inv ?_ ⟨[], charts, place, origins, rfl, rfl, by simpa using pre⟩
    rintro region rest ⟨made, site⟩ ⟨past, left, place, origins, all, eq, pre⟩
    obtain ⟨chart, left, rfl, rfl, rfl⟩ := map_eq_cons_iff.mp eq
    have mem : chart ∈ charts := all ▸ mem_append_right _ (.head _)
    have fresh : ∀ other ∈ done ++ past, other.1.id ≠ chart.1.id := by
      intro other earlier eq
      rw [← all, ← append_assoc, map_append] at nodup
      exact (nodup_append.mp nodup).2.2 _ (mem_map_of_mem earlier) _ (mem_map_of_mem (.head _)) eq
    obtain ⟨block, site', place', origins', run, post⟩ :=
      pre.snoc wf (follows chart mem) (inside chart mem) fresh
    refine ⟨(made ++ [block], site'), ?_, past ++ [chart], left, place', origins',
      by simpa using all, rfl, by simpa using post⟩
    exact bind_of_ok run
  rw [map_eq_nil_iff] at none
  rw [none, append_nil] at all
  exact ⟨more, site', place', origins', run, all ▸ post⟩

end Detach

/-! ## Leaving the originals out -/

theorem withoutNodes_eq_ok (wf : G.Consistent) {ids : List NodeId}
    (nodup : ids.Nodup) (has : ∀ id ∈ ids, ∃ node, G.nodes[id]? = some node) :
    ∃ post, Planner.withoutNodes G ids = .ok post ∧ post.Consistent ∧
      (∀ id : NodeId, post.nodes[id]? = if id ∈ ids then none else G.nodes[id]?) ∧
      ∀ out input, post.Feeds out input ↔ G.Feeds out input ∧
        (∀ id ∈ ids, G.outputOwner? out ≠ some id) ∧
        ∀ id ∈ ids, G.inputOwner? input ≠ some id := by
  induction ids generalizing G with
  | nil => exact ⟨G, rfl, wf, by simp, by simp⟩
  | cons id rest ih =>
    obtain ⟨fresh, nodup⟩ := nodup_cons.mp nodup
    obtain ⟨node, got⟩ := has id (.head _)
    have dropped := wf.drop got
    obtain ⟨post, run, wf', nodes, feeds⟩ := ih dropped.wf nodup fun other mem => by
        obtain ⟨node', got'⟩ := has other (.tail _ mem)
        refine ⟨node', ?_⟩
        rw [dropped.nodes, if_neg, got']
        rintro rfl
        exact fresh mem
    have removed : G.remove id = .ok (G.drop id node) := by
      rw [Graph.remove, Graph.node, got]
      rfl
    refine ⟨post, ?_, wf', fun other => ?_, fun out input => ?_⟩
    · exact (foldlM_cons ..).trans ((bind_of_ok removed).trans run)
    · rw [nodes, dropped.nodes]
      by_cases here : other = id
      · simp [here]
      · simp [here]
    · rw [feeds, dropped.feeds]
      have outputs : ∀ {out}, out ∈ node.outputs ↔ G.outputOwner? out = some id :=
        wf.mem_outputs_iff got
      have inputs : ∀ {input}, input ∈ node.inputs ↔ G.inputOwner? input = some id :=
        wf.mem_inputs_iff got
      rw [outputs, inputs]
      simp only [forall_mem_cons, dropped.outputOwner, dropped.inputOwner]
      constructor
      · rintro ⟨⟨fed, out', input'⟩, outside, outside'⟩
        refine ⟨fed, ⟨out', fun other mem => ?_⟩, input', fun other mem => ?_⟩
        · simpa [outputs, out'] using outside other mem
        · simpa [inputs, input'] using outside' other mem
      · rintro ⟨fed, ⟨out', outside⟩, input', outside'⟩
        refine ⟨⟨fed, out', input'⟩, fun other mem => ?_, fun other mem => ?_⟩
        · simpa [outputs, out'] using outside other mem
        · simpa [inputs, input'] using outside' other mem

end Staging
