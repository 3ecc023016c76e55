import Staging.Proofs.Splicing

/-! # Rims of flow parts

The endpoints of a flow part are its rim: there is one for each of its ports, with a single
port of its own on the side of the scope, and no other flow part has it. Later on endpoints
may be taken out, but none is replaced by another node.
-/

namespace Staging

open Std List

variable {scope : Scope} {place : Nat} {shape : Node → Prop} {tip : NodeId} {ids : List NodeId}
  {decl : NodeDecl}

theorem Scope.endpoint_of_input (mem : scope.inputs[place]? = some tip) : tip ∈ scope.endpoints :=
  mem_append_left _ (mem_of_getElem? mem)

theorem Scope.endpoint_of_output (mem : scope.outputs[place]? = some tip) : tip ∈ scope.endpoints :=
  mem_append_right _ (mem_of_getElem? mem)

/-- Data enters a scope here, through one port. -/
def Node.IsEntry (node : Node) : Prop :=
  node.kind = .input ∧ node.inputs = [] ∧ ∃ port, node.outputs = [port]

/-- Data leaves a scope here, through one port. -/
def Node.IsExit (node : Node) : Prop :=
  node.kind = .output ∧ node.outputs = [] ∧ ∃ port, node.inputs = [port]

namespace Graph

variable {G pre post : Graph}

/-- Each flow part has an endpoint for each of its ports, which no other one has and which has
one port only, on the side of the scope. -/
structure Rimmed (graph : Graph) : Prop where
  bounded : ∀ (part : NodeId) node scope, graph.nodes[part]? = some node →
    node.kind = .flowPart scope → ∀ tip ∈ scope.endpoints, tip.raw < graph.next
  inputs : ∀ (part : NodeId) node scope, graph.nodes[part]? = some node →
    node.kind = .flowPart scope → node.inputs.length = scope.inputs.length
  outputs : ∀ (part : NodeId) node scope, graph.nodes[part]? = some node →
    node.kind = .flowPart scope → node.outputs.length = scope.outputs.length
  nodup : ∀ (part : NodeId) node scope, graph.nodes[part]? = some node →
    node.kind = .flowPart scope → scope.endpoints.Nodup
  apart : ∀ (part part' : NodeId) node node' scope scope' (tip : NodeId),
    graph.nodes[part]? = some node → node.kind = .flowPart scope →
    graph.nodes[part']? = some node' → node'.kind = .flowPart scope' →
    tip ∈ scope.endpoints → tip ∈ scope'.endpoints → part = part'
  entries : ∀ (part : NodeId) node scope, graph.nodes[part]? = some node →
    node.kind = .flowPart scope → ∀ tip ∈ scope.inputs, ∀ inner : Node,
    graph.nodes[tip]? = some inner → inner.IsEntry
  exits : ∀ (part : NodeId) node scope, graph.nodes[part]? = some node →
    node.kind = .flowPart scope → ∀ tip ∈ scope.outputs, ∀ inner : Node,
    graph.nodes[tip]? = some inner → inner.IsExit

/-- The endpoints of all flow parts are there. -/
def Whole (graph : Graph) : Prop :=
  ∀ (part : NodeId) node scope, graph.nodes[part]? = some node →
    node.kind = .flowPart scope → ∀ tip ∈ scope.endpoints,
    ∃ record, graph.nodes[tip]? = some record

/-- An endpoint of a flow part is where data enters or leaves it. -/
theorem Rimmed.kind_of_endpoint (rimmed : G.Rimmed) {part : NodeId} {node inner : Node}
    (got : G.nodes[part]? = some node) (kind : node.kind = .flowPart scope)
    (mem : tip ∈ scope.endpoints) (has : G.nodes[tip]? = some inner) :
    inner.kind = .input ∨ inner.kind = .output := by
  rcases mem_append.mp mem with mem | mem
  · exact .inl (rimmed.entries part node scope got kind tip mem inner has).1
  · exact .inr (rimmed.exits part node scope got kind tip mem inner has).1

/-! ## Changes without new flow parts -/

section Mono

variable (parts : ∀ (part : NodeId) node scope, post.nodes[part]? = some node →
    node.kind = .flowPart scope → pre.nodes[part]? = some node)

include parts

/-- Endpoints may be taken out, but none becomes another node. -/
theorem Rimmed.mono (rimmed : pre.Rimmed) (next : pre.next ≤ post.next)
    (old : ∀ (id : NodeId) node, id.raw < pre.next → post.nodes[id]? = some node →
      pre.nodes[id]? = some node) : post.Rimmed where
  bounded part node scope got kind tip mem :=
    Nat.lt_of_lt_of_le (rimmed.bounded part node scope (parts part node scope got kind) kind
      tip mem) next
  inputs part node scope got kind :=
    rimmed.inputs part node scope (parts part node scope got kind) kind
  outputs part node scope got kind :=
    rimmed.outputs part node scope (parts part node scope got kind) kind
  nodup part node scope got kind :=
    rimmed.nodup part node scope (parts part node scope got kind) kind
  apart part part' node node' scope scope' tip got kind got' kind' :=
    rimmed.apart part part' node node' scope scope' tip (parts part node scope got kind) kind
      (parts part' node' scope' got' kind') kind'
  entries part node scope got kind tip mem inner has := by
    have got := parts part node scope got kind
    apply rimmed.entries part node scope got kind tip mem inner
    exact old tip inner (rimmed.bounded part node scope got kind tip (mem_append_left _ mem)) has
  exits part node scope got kind tip mem inner has := by
    have got := parts part node scope got kind
    apply rimmed.exits part node scope got kind tip mem inner
    exact old tip inner (rimmed.bounded part node scope got kind tip (mem_append_right _ mem)) has

theorem Whole.mono (whole : pre.Whole) (kept : ∀ (id : NodeId) node,
    pre.nodes[id]? = some node → post.nodes[id]? = some node) : post.Whole := by
  intro part node scope got kind tip mem
  obtain ⟨record, has⟩ := whole part node scope (parts part node scope got kind) kind tip mem
  exact ⟨record, kept tip record has⟩

end Mono

/-! ## Building -/

/-- What creating nodes of one shape does. -/
structure CreatedAll (pre : Graph) (shape : Node → Prop) (ids : List NodeId) (post : Graph) :
    Prop where
  wf : post.Consistent
  next : pre.next ≤ post.next
  nodup : ids.Nodup
  fresh : ∀ id ∈ ids, pre.next ≤ id.raw ∧ id.raw < post.next
  made : ∀ id ∈ ids, ∃ node, post.nodes[id]? = some node ∧ shape node
  kept : ∀ (id : NodeId) node, pre.nodes[id]? = some node → post.nodes[id]? = some node
  nodes : ∀ (id : NodeId) node, post.nodes[id]? = some node →
    pre.nodes[id]? = some node ∨ pre.next ≤ id.raw ∧ shape node

theorem createdAll_refl (wf : G.Consistent) (shape : Node → Prop) : CreatedAll G shape [] G where
  wf := wf
  next := Nat.le_refl _
  nodup := .nil
  fresh := by simp
  made := by simp
  kept _ _ got := got
  nodes _ _ got := .inl got

theorem CreatedAll.create (all : CreatedAll pre shape ids post)
    (shaped : shape (post.created decl)) :
    CreatedAll pre shape (ids ++ [(post.create decl).1]) (post.create decl).2 := by
  have created := all.wf.create decl
  have next : post.next < (post.create decl).2.next := by
    rw [created.next]
    omega
  have kept : ∀ {id : NodeId} {node : Node}, post.nodes[id]? = some node →
      (post.create decl).2.nodes[id]? = some node :=
    created.nodes_old all.wf
  refine ⟨created.wf, Nat.le_trans all.next (Nat.le_of_lt next), ?_, fun id mem => ?_,
    fun id mem => ?_, fun id node got => kept (all.kept id node got),
    fun id node got => ?_⟩
  · refine nodup_append.mpr ⟨all.nodup, nodup_singleton _, ?_⟩
    rintro id mem _ last rfl
    rw [mem_singleton] at last
    exact Nat.lt_irrefl _ ((congrArg Handle.raw last).symm ▸ (all.fresh id mem).2)
  · rcases mem_append.mp mem with early | last
    · have := all.fresh id early
      omega
    · rw [mem_singleton.mp last]
      exact ⟨all.next, next⟩
  · rcases mem_append.mp mem with early | last
    · obtain ⟨node, got, right⟩ := all.made id early
      exact ⟨node, kept got, right⟩
    · rw [mem_singleton.mp last]
      exact ⟨_, (created.nodes _).trans (if_pos rfl), shaped⟩
  · rw [created.nodes] at got
    split at got
    · next eq =>
      cases got
      exact .inr ⟨eq ▸ all.next, shaped⟩
    · exact all.nodes id node got

theorem Consistent.createAll (wf : G.Consistent)
    {decls : List NodeDecl} (shaped : ∀ decl ∈ decls, ∀ G : Graph, shape (G.created decl)) :
    CreatedAll G shape (G.createAll decls).1 (G.createAll decls).2 ∧
      (G.createAll decls).1.length = decls.length := by
  let inv (rest : List NodeDecl) (state : List NodeId × Graph) : Prop :=
    rest ⊆ decls ∧ CreatedAll G shape state.1 state.2 ∧ state.1.length + rest.length = decls.length
  have step : ∀ decl rest (state : List NodeId × Graph), inv (decl :: rest) state →
      inv rest (state.1 ++ [(state.2.create decl).1], (state.2.create decl).2) := by
    rintro decl rest ⟨ids, now⟩ ⟨within, all, count⟩
    refine ⟨fun _ later => within (.tail _ later),
      all.create (shaped decl (within (.head _)) now), ?_⟩
    simp only [length_append, length_cons, length_nil] at count ⊢
    omega
  have begin' : inv decls ([], G) := ⟨Subset.refl _, createdAll_refl wf shape, by simp⟩
  obtain ⟨-, all, count⟩ := foldl_keeps inv step begin'
  exact ⟨all, count⟩

/-- No flow part is among nodes of another kind. -/
theorem CreatedAll.parts (all : CreatedAll pre shape ids post)
    (plain : ∀ node scope, shape node → node.kind ≠ .flowPart scope) (part : NodeId) (node : Node)
    (scope : Scope) (got : post.nodes[part]? = some node) (kind : node.kind = .flowPart scope) :
    pre.nodes[part]? = some node := by
  rcases all.nodes part node got with old | ⟨-, right⟩
  · exact old
  · exact (plain node scope right kind).elim

theorem CreatedAll.old (all : CreatedAll pre shape ids post) (id : NodeId)
    (node : Node) (early : id.raw < pre.next) (got : post.nodes[id]? = some node) :
    pre.nodes[id]? = some node := by
  rcases all.nodes id node got with old | ⟨late, -⟩
  · exact old
  · omega

/-- Nodes that are no flow parts leave rims as they are. -/
theorem CreatedAll.rims (all : CreatedAll pre shape ids post)
    (plain : ∀ node scope, shape node → node.kind ≠ .flowPart scope) (rimmed : pre.Rimmed)
    (whole : pre.Whole) : post.Rimmed ∧ post.Whole :=
  ⟨rimmed.mono (all.parts plain) all.next all.old, whole.mono (all.parts plain) all.kept⟩

theorem Consistent.rims_create (wf : G.Consistent) (decl : NodeDecl)
    (plain : ∀ scope, decl.kind ≠ .flowPart scope) (rimmed : G.Rimmed) (whole : G.Whole) :
    (G.create decl).2.Rimmed ∧ (G.create decl).2.Whole := by
  let shape (node : Node) : Prop := node.kind = decl.kind
  have shaped : shape (G.created decl) := rfl
  apply ((createdAll_refl wf shape).create shaped).rims _ rimmed whole
  intro node scope eq kind
  exact plain scope (eq.symm.trans kind)

/-- A flow part can be created around endpoints that no other one has. -/
theorem Consistent.rims_createPart (wf : G.Consistent)
    (kind : decl.kind = .flowPart scope) (rimmed : G.Rimmed) (whole : G.Whole)
    (inputs : scope.inputs.length = decl.inputs.length)
    (outputs : scope.outputs.length = decl.outputs.length) (nodup : scope.endpoints.Nodup)
    (entries : ∀ tip ∈ scope.inputs, ∃ node, G.nodes[tip]? = some node ∧ node.IsEntry)
    (exits : ∀ tip ∈ scope.outputs, ∃ node, G.nodes[tip]? = some node ∧ node.IsExit)
    (apart : ∀ (part : NodeId) node other, G.nodes[part]? = some node →
      node.kind = .flowPart other → ∀ tip ∈ scope.endpoints, tip ∉ other.endpoints) :
    (G.create decl).2.Rimmed ∧ (G.create decl).2.Whole := by
  have created := wf.create decl
  have kept : ∀ {id : NodeId} {node : Node}, G.nodes[id]? = some node →
      (G.create decl).2.nodes[id]? = some node :=
    created.nodes_old wf
  have has : ∀ tip ∈ scope.endpoints, ∃ node, G.nodes[tip]? = some node := by
    intro tip mem
    rcases mem_append.mp mem with mem | mem
    · obtain ⟨node, got, -⟩ := entries tip mem
      exact ⟨node, got⟩
    · obtain ⟨node, got, -⟩ := exits tip mem
      exact ⟨node, got⟩
  have next : G.next ≤ (G.create decl).2.next := by
    rw [created.next]
    omega
  -- a flow part is the new one or one that there was
  have cases' : ∀ {part : NodeId} {node : Node} {other : Scope},
      (G.create decl).2.nodes[part]? = some node → node.kind = .flowPart other →
      part = ⟨G.next⟩ ∧ node = G.created decl ∧ other = scope ∨ G.nodes[part]? = some node := by
    intro part node other got kind'
    rw [created.nodes] at got
    split at got
    · next eq =>
      cases got
      cases kind.symm.trans kind'
      exact .inl ⟨eq, rfl, rfl⟩
    · exact .inr got
  constructor
  · refine ⟨fun part node other got kind' tip mem => ?_, fun part node other got kind' => ?_,
      fun part node other got kind' => ?_, fun part node other got kind' => ?_,
      fun part part' node node' one two tip got kind' got' kind'' mem mem' => ?_,
      fun part node other got kind' tip mem inner there => ?_,
      fun part node other got kind' tip mem inner there => ?_⟩
    · rcases cases' got kind' with ⟨-, -, rfl⟩ | got
      · obtain ⟨record, there⟩ := has tip mem
        exact Nat.lt_of_lt_of_le (wf.early there) next
      · exact Nat.lt_of_lt_of_le (rimmed.bounded part node other got kind' tip mem) next
    · rcases cases' got kind' with ⟨-, rfl, rfl⟩ | got
      · rw [inputs]
        exact Handle.length_consecutive _ _
      · exact rimmed.inputs part node other got kind'
    · rcases cases' got kind' with ⟨-, rfl, rfl⟩ | got
      · rw [outputs]
        exact Handle.length_consecutive _ _
      · exact rimmed.outputs part node other got kind'
    · rcases cases' got kind' with ⟨-, -, rfl⟩ | got
      · exact nodup
      · exact rimmed.nodup part node other got kind'
    · rcases cases' got kind' with ⟨rfl, -, rfl⟩ | got
      · rcases cases' got' kind'' with ⟨rfl, -, -⟩ | got'
        · rfl
        · exact (apart part' node' two got' kind'' tip mem mem').elim
      · rcases cases' got' kind'' with ⟨rfl, -, rfl⟩ | got'
        · exact (apart part node one got kind' tip mem' mem).elim
        · exact rimmed.apart part part' node node' one two tip got kind' got' kind'' mem mem'
    · rcases cases' got kind' with ⟨-, -, rfl⟩ | got
      · obtain ⟨record, known, right⟩ := entries tip mem
        cases (kept known).symm.trans there
        exact right
      · obtain ⟨record, known⟩ := whole part node other got kind' tip (mem_append_left _ mem)
        cases (kept known).symm.trans there
        exact rimmed.entries part node other got kind' tip mem inner known
    · rcases cases' got kind' with ⟨-, -, rfl⟩ | got
      · obtain ⟨record, known, right⟩ := exits tip mem
        cases (kept known).symm.trans there
        exact right
      · obtain ⟨record, known⟩ := whole part node other got kind' tip (mem_append_right _ mem)
        cases (kept known).symm.trans there
        exact rimmed.exits part node other got kind' tip mem inner known
  · intro part node other got kind' tip mem
    rcases cases' got kind' with ⟨-, -, rfl⟩ | got
    · obtain ⟨record, known⟩ := has tip mem
      exact ⟨record, kept known⟩
    · obtain ⟨record, known⟩ := whole part node other got kind' tip mem
      exact ⟨record, kept known⟩

/-- A flow part comes with a rim of its own. -/
theorem Consistent.rims_addFlowPart (wf : G.Consistent) (rimmed : G.Rimmed)
    (whole : G.Whole) {id : NodeId} {grown : Graph}
    (added : G.addFlowPart decl = .ok (id, grown)) : grown.Rimmed ∧ grown.Whole := by
  have enters : ∀ other ∈ decl.inputs.map (fun port => entry port.name port.dataType),
      ∀ G : Graph, (G.created other).IsEntry := by
    intro other mem G
    obtain ⟨port, -, rfl⟩ := mem_map.mp mem
    exact ⟨rfl, rfl, _, rfl⟩
  have leaves : ∀ other ∈ decl.outputs.map (fun port => exit port.name port.dataType),
      ∀ G : Graph, (G.created other).IsExit := by
    intro other mem G
    obtain ⟨port, -, rfl⟩ := mem_map.mp mem
    exact ⟨rfl, rfl, _, rfl⟩
  have plain : ∀ (node : Node) (scope : Scope), node.IsEntry → node.kind ≠ .flowPart scope := by
    intro node scope shape kind
    cases shape.1.symm.trans kind
  have plain' : ∀ (node : Node) (scope : Scope), node.IsExit → node.kind ≠ .flowPart scope := by
    intro node scope shape kind
    cases shape.1.symm.trans kind
  obtain ⟨entries, count⟩ := wf.createAll enters
  obtain ⟨exits, count'⟩ := entries.wf.createAll leaves
  obtain ⟨rimmed', whole'⟩ := entries.rims plain rimmed whole
  obtain ⟨rimmed'', whole''⟩ := exits.rims plain' rimmed' whole'
  rw [length_map] at count count'
  cases of_addFlowPart added
  refine exits.wf.rims_createPart rfl rimmed'' whole'' count count' ?_
    (fun tip mem => ?_) exits.made fun part node other got kind tip mem mem' => ?_
  · refine nodup_append.mpr ⟨entries.nodup, exits.nodup, ?_⟩
    rintro tip mem _ mem' rfl
    have := entries.fresh tip mem
    have := exits.fresh tip mem'
    omega
  · obtain ⟨node, got, shape⟩ := entries.made tip mem
    exact ⟨node, exits.kept tip node got, shape⟩
  · have old := entries.parts plain part node other (exits.parts plain' part node other got kind)
      kind
    have early := rimmed.bounded part node other old kind tip mem'
    rcases mem_append.mp mem with mem | mem
    · have := entries.fresh tip mem
      omega
    · have := exits.fresh tip mem
      have := entries.next
      omega

/-- What the connections are does not matter for rims. -/
theorem Rimmed.of_samePorts (eq : SamePorts pre post) (rimmed : pre.Rimmed)
    (whole : pre.Whole) : post.Rimmed ∧ post.Whole := by
  have parts : ∀ (part : NodeId) node scope, post.nodes[part]? = some node →
      node.kind = .flowPart scope → pre.nodes[part]? = some node := by
    intro part node scope got _
    rwa [eq.nodes] at got
  constructor
  · apply rimmed.mono parts (Nat.le_of_eq eq.next.symm)
    intro id node _ got
    rwa [eq.nodes] at got
  · apply whole.mono parts
    intro id node got
    rwa [eq.nodes]

theorem rims_connect (rimmed : G.Rimmed) (whole : G.Whole) {out : OutputId}
    {input : InputId} {joined : Graph} (connected : G.connect out input = .ok joined) :
    joined.Rimmed ∧ joined.Whole := by
  obtain ⟨_, _, -, -, rfl⟩ := of_connect connected
  exact Rimmed.of_samePorts (samePorts_insertConnection G out input) rimmed whole

/-- The flow parts of a graph that users build have their rims in place. -/
theorem Built.rims (built : G.Built) : G.Rimmed ∧ G.Whole := by
  induction built with
  | empty =>
    constructor
    · constructor <;> simp
    · intro part node scope got
      simp at got
  | addInput name dataType built ih =>
    obtain ⟨rimmed, whole⟩ := built.founded.wf.rims_create (entry name dataType) nofun ih.1 ih.2
    exact ⟨⟨rimmed.bounded, rimmed.inputs, rimmed.outputs, rimmed.nodup, rimmed.apart,
      rimmed.entries, rimmed.exits⟩, whole⟩
  | addOutput name dataType built ih =>
    obtain ⟨rimmed, whole⟩ := built.founded.wf.rims_create (exit name dataType) nofun ih.1 ih.2
    exact ⟨⟨rimmed.bounded, rimmed.inputs, rimmed.outputs, rimmed.nodup, rimmed.apart,
      rimmed.entries, rimmed.exits⟩, whole⟩
  | addNode built added ih =>
    obtain ⟨-, -, plain, eq⟩ := of_addNode added
    have rims := built.founded.wf.rims_create _ plain ih.1 ih.2
    rwa [eq] at rims
  | addFlowPart built added ih =>
    exact built.founded.wf.rims_addFlowPart ih.1 ih.2 added
  | connect _ connected ih => exact rims_connect ih.1 ih.2 connected
  | connectNodes _ connected ih =>
    obtain ⟨out, input, connected⟩ := of_connectNodes connected
    exact rims_connect ih.1 ih.2 connected

end Graph

end Staging
