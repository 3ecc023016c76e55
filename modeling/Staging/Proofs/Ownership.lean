import Staging.Proofs.Delivery
import Staging.Proofs.Sketches

/-! # Ownership in plans

Each node of a plan belongs to one block, and so does each block port. Blocks
are connected by links only, and no node of the graph that was planned is used.
A node that runs at most once is planned at most once.
-/

namespace Staging

open Std List

variable {plan : Plan} {working : Graph} {origins : Origins}

/-- Blocks own the nodes and the ports of a plan. -/
structure Plan.Owned (plan : Plan) (source : Graph) : Prop where
  /-- No node belongs to two blocks. -/
  apart : plan.blocks.Pairwise fun first second => ∀ id ∈ first.nodes, id ∉ second.nodes
  /-- The nodes of the blocks are those of the plan. -/
  covered : ∀ id, (∃ block ∈ plan.blocks, id ∈ block.nodes) ↔
    ∃ node, plan.graph.nodes[id]? = some node
  /-- No node of the source is used. -/
  fresh : ∀ (id : NodeId) node, plan.graph.nodes[id]? = some node → source.nodes[id]? = none
  /-- Blocks know the origins of their nodes, and of no other ones. -/
  origins : ∀ block ∈ plan.blocks, ∀ id,
    (∃ origin, block.origins[id]? = some origin) ↔ id ∈ block.nodes
  /-- Connections stay inside of a block. -/
  inside : ∀ output input, plan.graph.Feeds output input → ∃ block ∈ plan.blocks,
    ∃ first ∈ block.nodes, ∃ second ∈ block.nodes,
      plan.graph.outputOwner? output = some first ∧ plan.graph.inputOwner? input = some second
  /-- Listed block inputs carry the handle of the block and wrap ports of its nodes. -/
  entries : ∀ block ∈ plan.blocks, ∀ entry ∈ block.inputs, ∃ port, ∃ id ∈ block.nodes, ∃ node,
    plan.wiring.entryOf entry = some (block.id, port) ∧
      plan.graph.nodes[id]? = some node ∧ port ∈ node.inputs
  /-- Listed block outputs carry the handle of the block and wrap ports of its nodes. -/
  exits : ∀ block ∈ plan.blocks, ∀ exit ∈ block.outputs, ∃ port, ∃ id ∈ block.nodes, ∃ node,
    plan.wiring.exitOf exit = some (block.id, port) ∧
      plan.graph.nodes[id]? = some node ∧ port ∈ node.outputs
  /-- Each block input is listed once. -/
  entriesListed : ∀ (entry : BlockInputId) record, plan.wiring.inputs[entry]? = some record →
    (plan.blocks.flatMap fun block => block.inputs).count entry = 1
  /-- Each block output is listed once. -/
  exitsListed : ∀ (exit : BlockOutputId) record, plan.wiring.outputs[exit]? = some record →
    (plan.blocks.flatMap fun block => block.outputs).count exit = 1
  /-- Links are known at both of their ends. -/
  links : ∀ exit entry, entry ∈ plan.wiring.targets exit ↔ exit ∈ plan.wiring.sources entry

/-- What exactly one of the lists has once is there once. -/
theorem count_flatMap_eq_one {α β : Type} [BEq β] [LawfulBEq β] {elements : List α}
    {items : α → List β} {item : β} {element : α} (mem : element ∈ elements)
    (nodup : elements.Nodup) (once : (items element).Nodup) (own : item ∈ items element)
    (others : ∀ other ∈ elements, item ∈ items other → other = element) :
    (elements.flatMap items).count item = 1 := by
  induction elements with
  | nil => cases mem
  | cons head rest ih =>
    rw [flatMap_cons, count_append]
    obtain ⟨fresh, nodup⟩ := nodup_cons.mp nodup
    rcases mem_cons.mp mem with rfl | later
    · have none : (rest.flatMap items).count item = 0 := by
        rw [count_eq_zero, mem_flatMap]
        rintro ⟨other, has, inside⟩
        obtain rfl := others other (.tail _ has) inside
        exact fresh has
      rw [count_eq_one_of_mem once own, none]
    · have none : (items head).count item = 0 := by
        rw [count_eq_zero]
        intro inside
        obtain rfl := others head (.head _) inside
        exact fresh later
      rw [none, ih later nodup fun other has =>
        others other (.tail _ has)]

/-- Blocks that are arranged own what they have. -/
theorem Plan.Holds.owned {source : Graph}
    (holds : plan.Holds working origins) (wf : source.Consistent)
    (next : source.next ≤ working.next) : plan.Owned source := by
  obtain ⟨kind, place, held⟩ := id holds
  have arranged := held.arranged.perm plan.perm_blocks.symm
  have eq : ∀ {first second : Block}, first ∈ plan.blocks → second ∈ plan.blocks →
      first.id = second.id → first = second :=
    fun mem mem' => inj_on_of_nodup_map arranged.nodup mem mem'
  have nodup : plan.blocks.Nodup := arranged.nodup.of_map _
  have fits := arranged.fits
  refine
    { apart := ?_
      covered := fun id => ⟨fun ⟨block, mem, own⟩ => (((fits block mem).nodes id).mp own).2,
        fun ⟨node, got⟩ => holds.exists_block got⟩
      fresh := fun id node got => ?_
      origins := fun block mem id => ?_
      inside := fun out input feeds => ?_
      entries := fun block mem entry own => ?_
      exits := fun block mem exit own => ?_
      entriesListed := fun entry record got => ?_
      exitsListed := fun exit record got => ?_
      links := arranged.wf.agree }
  · refine (pairwise_map.mp arranged.nodup).imp_of_mem ?_
    intro first second mem mem' ne id own own'
    exact ne ((((fits first mem).nodes id).mp own).1.symm.trans
      (((fits second mem').nodes id).mp own').1)
  · by_contra known
    obtain ⟨other, got'⟩ := Option.ne_none_iff_exists'.mp known
    exact Nat.lt_irrefl _ (Nat.lt_of_lt_of_le (wf.early got')
      (Nat.le_trans next (held.framed.fresh id node got)))
  · simp only [(fits block mem).origins]
    exact ⟨fun ⟨_, own, _⟩ => own, fun own => ⟨_, own, rfl⟩⟩
  · obtain ⟨first, given⟩ := Graph.exists_outputOwner_of_feeds feeds
    obtain ⟨second, taken⟩ := arranged.graph.exists_inputOwner feeds
    obtain ⟨one, got, -⟩ := arranged.graph.node_of_output given
    obtain ⟨two, got', -⟩ := arranged.graph.node_of_input taken
    obtain ⟨block, mem, placed⟩ := arranged.cover first one got
    have placed' := (arranged.inside out input first second feeds given taken).symm.trans placed
    exact ⟨block, mem, first, ((fits block mem).nodes first).mpr ⟨placed, one, got⟩,
      second, ((fits block mem).nodes second).mpr ⟨placed', two, got'⟩, given, taken⟩
  · obtain ⟨port, wraps⟩ := (arranged.entries block mem entry).mp own
    obtain ⟨owner, owned, placed, -⟩ := arranged.entryPlaced entry block.id port wraps
    obtain ⟨node, got, inside⟩ := arranged.graph.node_of_input owned
    exact ⟨port, owner, ((fits block mem).nodes owner).mpr ⟨placed, node, got⟩, node, wraps,
      got, inside⟩
  · obtain ⟨port, wraps⟩ := (arranged.exits block mem exit).mp own
    obtain ⟨owner, owned, placed⟩ := arranged.exitPlaced exit block.id port wraps
    obtain ⟨node, got, inside⟩ := arranged.graph.node_of_output owned
    exact ⟨port, owner, ((fits block mem).nodes owner).mpr ⟨placed, node, got⟩, node, wraps,
      got, inside⟩
  · have wraps : plan.wiring.entryOf entry = some (record.block, record.port) :=
      Option.map_eq_some_iff.mpr ⟨record, got, rfl⟩
    obtain ⟨owner, owned, placed, -⟩ := arranged.entryPlaced entry _ _ wraps
    obtain ⟨node, stored, -⟩ := arranged.graph.node_of_input owned
    obtain ⟨block, mem, placed'⟩ := arranged.cover owner node stored
    have handle : record.block = block.id := placed.symm.trans placed'
    refine count_flatMap_eq_one mem nodup (arranged.entriesNodup block mem)
      ((arranged.entries block mem entry).mpr ⟨_, handle ▸ wraps⟩) fun other has inside => ?_
    obtain ⟨_, wraps'⟩ := (arranged.entries other has entry).mp inside
    exact eq has mem ((Prod.mk.inj (Option.mem_unique wraps' wraps)).1.trans handle)
  · have wraps : plan.wiring.exitOf exit = some (record.block, record.port) :=
      Option.map_eq_some_iff.mpr ⟨record, got, rfl⟩
    obtain ⟨owner, owned, placed⟩ := arranged.exitPlaced exit _ _ wraps
    obtain ⟨node, stored, -⟩ := arranged.graph.node_of_output owned
    obtain ⟨block, mem, placed'⟩ := arranged.cover owner node stored
    have handle : record.block = block.id := placed.symm.trans placed'
    refine count_flatMap_eq_one mem nodup (arranged.exitsNodup block mem)
      ((arranged.exits block mem exit).mpr ⟨_, handle ▸ wraps⟩) fun other has inside => ?_
    obtain ⟨_, wraps'⟩ := (arranged.exits other has exit).mp inside
    exact eq has mem ((Prod.mk.inj (Option.mem_unique wraps' wraps)).1.trans handle)

/-- In every plan of a graph that was built with isolated scopes, blocks own the
nodes and the ports. -/
theorem Planner.plan_owned {planner : Planner} {source : Graph} {plan : Plan} {events : List Event}
    (built : source.Built) (isolated : source.Isolated) (bare : planner.passes = [])
    (returned : planner.plan source = .ok ⟨events, .ok plan⟩) : plan.Owned source := by
  obtain ⟨working, origins, -, -, step, holds⟩ := holds_of_plan built isolated bare returned
  exact holds.owned built.founded.wf step.next

set_option maxRecDepth 100000 in
theorem Planner.plan_owned_forked : ∃ source events plan,
    ({} : Planner).plan source = .ok ⟨events, .ok plan⟩ ∧ plan.blocks.length = 4 ∧
      plan.Owned source := by
  have planned : Sketch.forked.plans {} (fun _ plan => plan.blocks.length == 4) = true := by
    decide +kernel
  obtain ⟨source, events, plan, -, built, isolated, returned, several⟩ :=
    Sketch.exists_of_plans planned
  exact ⟨source, events, plan, returned, beq_iff_eq.mp several,
    plan_owned built isolated rfl returned⟩

/-! ## Nodes that run at most once -/

/-- No other node of any block copies what a node copies that runs at most once. -/
theorem Plan.Holds.once
    (holds : plan.Holds working origins) {id : NodeId} (solitary : working.isSolitary id)
    {block block' : Block} (mem : block ∈ plan.blocks) (mem' : block' ∈ plan.blocks)
    {copy copy' : NodeId} (known : block.origins[copy]? = some id)
    (known' : block'.origins[copy']? = some id) : block = block' ∧ copy = copy' := by
  obtain ⟨inside, eq⟩ := (holds.origins_iff mem).mp known
  obtain ⟨inside', eq'⟩ := (holds.origins_iff mem').mp known'
  obtain ⟨node, got⟩ := holds.exists_node mem inside
  obtain ⟨node', got'⟩ := holds.exists_node mem' inside'
  obtain ⟨kind, place, held⟩ := holds
  have here : copy = copy' :=
    held.framed.once copy copy' node node' got got' (eq.symm.trans eq') (eq ▸ solitary)
  have arranged := held.arranged.perm plan.perm_blocks.symm
  have placed := (((arranged.fits block mem).nodes copy).mp inside).1
  have placed' := (((arranged.fits block' mem').nodes copy').mp inside').1
  rw [here] at placed
  exact ⟨arranged.eq_of_id_eq mem mem' (placed.symm.trans placed'), here⟩

/-- An operator that runs at most once is the origin of at most one node over all
blocks, unless checkpoints may move below it. -/
theorem Planner.plan_copies_once {planner : Planner} {source : Graph} {plan : Plan}
    {events : List Event} (built : source.Built) (isolated : source.Isolated)
    (bare : planner.passes = []) (returned : planner.plan source = .ok ⟨events, .ok plan⟩)
    (id : NodeId) (node : Node) (operator : Operator) (found : source.nodes[id]? = some node)
    (kind : node.kind = .operator operator)
    (observed : node.observation = .atMostOnce ∨ node.observation = .exactlyOnce)
    (fixed : ¬ (node.boundary = .none ∧ (operator = .branch ∨ operator = .logging))) :
    ∀ block ∈ plan.blocks, ∀ block' ∈ plan.blocks, ∀ copy copy' : NodeId,
      block.origins[copy]? = some id → block'.origins[copy']? = some id →
      block = block' ∧ copy = copy' := by
  intro block mem block' mem' copy copy' known known'
  obtain ⟨working, origins, -, -, step, holds⟩ := holds_of_plan built isolated bare returned
  -- what is copied was there from the beginning
  have stays : working.nodes[id]? = some node := by
    obtain ⟨inside, eq⟩ := (holds.origins_iff mem).mp known
    obtain ⟨record, stored⟩ := holds.exists_node mem inside
    have ⟨_, _, held⟩ := holds
    have origin := held.arranged.faithful copy record stored
    rw [← eq] at origin
    rcases step.nodes id _ origin with old | ⟨late, -⟩
    · rw [origin, ← found, old]
    · exact absurd (built.founded.wf.nodeBelow id node found) (Nat.not_lt.mpr late)
  have solitary : working.isSolitary id = true := by
    have effect : node.hasGlobalEffect = true := by
      rcases observed with once | once <;> simp [Node.hasGlobalEffect, Observation.isGlobal, once]
    have single : node.isPushDownTarget = false := by
      simp [Node.isPushDownTarget, Node.isIdentity, Node.isPseudo, kind]
      exact fun plain => not_or.mp fun either => fixed ⟨plain, either⟩
    rw [Graph.isSolitary, stays, Option.any_some, effect, single, Node.isOperator, kind]
    rfl
  exact holds.once solitary mem mem' known known'

set_option maxRecDepth 100000 in
theorem Planner.plan_copies_once_counted : ∃ source events plan copy,
    ({} : Planner).plan source = .ok ⟨events, .ok plan⟩ ∧ plan.Copies copy ⟨2⟩ ∧
      ∀ copy', plan.Copies copy' ⟨2⟩ → copy' = copy := by
  have planned : Sketch.counted.plans {} (fun source plan =>
      (source.nodes[(⟨2⟩ : NodeId)]?.any fun node => node.kind == .operator .map &&
        node.observation == .exactlyOnce) && plan.blocks.any fun block =>
          block.nodes.toList.any fun copy => block.origins[copy]? == some ⟨2⟩) = true := by
    decide +kernel
  obtain ⟨source, events, plan, -, built, isolated, returned, passed⟩ :=
    Sketch.exists_of_plans planned
  simp only [Bool.and_eq_true, Option.any_eq_true, any_eq_true, beq_iff_eq] at passed
  obtain ⟨⟨node, found, kind, observed⟩, block, mem, copy, inside, known⟩ := passed
  refine ⟨source, events, plan, copy, returned,
    ⟨block, mem, ExtTreeSet.mem_toList.mp inside, known⟩, ?_⟩
  rintro copy' ⟨block', mem', -, known'⟩
  exact (plan_copies_once built isolated rfl returned ⟨2⟩ node .map found kind (.inr observed)
    (by simp) block' mem' block mem copy' copy known' known).2

end Staging
