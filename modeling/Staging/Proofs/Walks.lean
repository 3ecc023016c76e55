import Staging.Proofs.Arena
import Staging.Proofs.Search
import Staging.Span
import Staging.Validation

/-! # Neighbours, members and walks

One node precedes another if some output of the one feeds some input of the
other. The searches of a consistent graph find exactly what chains of
neighbours reach: the members of a scope, what lies ahead of a node, and the
nodes that walks pass before they arrive at boundaries.
-/

namespace Staging

open Std Relation List ExtTreeSet HandleSet

variable {node : Node} {id first second : NodeId} {startings : NodeSet}

/-- Identities have no logic of their own. -/
theorem Node.isPseudo_of_isIdentity (identity : node.isIdentity) : node.isPseudo := by
  simp only [isIdentity, Bool.and_eq_true] at identity
  exact identity.1.1.1

/-- Identities are no boundaries. -/
theorem Node.isBoundary_of_isIdentity (identity : node.isIdentity) : node.isBoundary = false := by
  have pseudo := isPseudo_of_isIdentity identity
  simp only [isIdentity, Bool.and_eq_true, beq_iff_eq] at identity
  rw [isPseudo] at pseudo
  split at pseudo
  · next kind =>
    simp [isBoundary, isStageBoundary, isShuffleBoundary, identity.1.1.2, kind]
  · cases pseudo

/-- The flow parts that each node lies in, from the innermost one outwards. -/
abbrev Homes := NodeId → Option (List NodeId)

namespace Graph

variable {G : Graph} {direction : Direction} {between : List NodeId} {ids : List NodeId}

/-- Some output of the first node feeds some input of the second. -/
def Precedes (graph : Graph) (first second : NodeId) : Prop :=
  ∃ out input, graph.outputOwner? out = some first ∧
    graph.inputOwner? input = some second ∧ graph.Feeds out input

/-- Two nodes are neighbours in either direction. -/
def Touches (graph : Graph) (first second : NodeId) : Prop :=
  graph.Precedes first second ∨ graph.Precedes second first

/-- The handles of all nodes as a finite set. -/
def nodeIds (graph : Graph) : Finset NodeId :=
  graph.nodes.keys.toFinset

/-- The handles of nodes that exist. -/
theorem mem_nodeIds : id ∈ G.nodeIds ↔ ∃ node, G.nodes[id]? = some node := by
  rw [nodeIds, mem_toFinset, ExtTreeMap.mem_keys, ← ExtTreeMap.isSome_getElem?_iff_mem,
    Option.isSome_iff_exists]

/-- There are as many handles as nodes. -/
theorem card_nodeIds (G : Graph) : G.nodeIds.card = G.nodes.size := by
  rw [nodeIds, toFinset_card_of_nodup ExtTreeMap.nodup_keys, ExtTreeMap.length_keys]

/-- Nodes that exist pass the check. -/
theorem checkNodes_eq_ok (has : ∀ id ∈ ids, ∃ node, G.nodes[id]? = some node) :
    G.checkNodes ids = .ok () := by
  refine forM_eq_ok fun id mem => ?_
  obtain ⟨node, got⟩ := has id mem
  rw [Graph.node, got]
  rfl

/-- Nodes that pass the check exist. -/
theorem present_of_checkNodes (run : G.checkNodes ids = .ok ()) :
    ∀ id ∈ ids, ∃ node, G.nodes[id]? = some node := by
  induction ids with
  | nil => simp
  | cons first rest ih =>
    obtain ⟨_, run', run⟩ := of_bind run
    obtain ⟨node, got, -⟩ := of_bind run'
    intro id mem
    rcases mem_cons.mp mem with rfl | later
    · exact ⟨node, node_eq_ok got⟩
    · exact ih run id later

namespace Consistent

variable (wf : G.Consistent)

include wf

/-- What precedes a node exists. -/
theorem precedes_left (prec : G.Precedes first second) : ∃ node, G.nodes[first]? = some node := by
  obtain ⟨out, input, owned, -, -⟩ := prec
  obtain ⟨node, got, -⟩ := wf.node_of_output owned
  exact ⟨node, got⟩

/-- What a node precedes exists. -/
theorem precedes_right (prec : G.Precedes first second) : ∃ node, G.nodes[second]? = some node := by
  obtain ⟨out, input, -, owned, -⟩ := prec
  obtain ⟨node, got, -⟩ := wf.node_of_input owned
  exact ⟨node, got⟩

/-- The successors of a node are those that it precedes. -/
theorem mem_successors : second ∈ G.successors first ↔ G.Precedes first second := by
  rw [successors]
  constructor
  · intro has
    split at has
    · next node got =>
      obtain ⟨out, mem, fed⟩ := mem_gather.mp has
      obtain ⟨input, target, owned⟩ := mem_filterMap.mp (mem_of.mp fed)
      exact ⟨out, input, wf.output_of_mem got mem, owned, mem_toList.mp target⟩
    · exact (not_mem_empty has).elim
  · rintro ⟨out, input, given, taken, feeds⟩
    obtain ⟨node, got, mem⟩ := wf.node_of_output given
    rw [got]
    exact mem_gather.mpr ⟨out, mem, mem_of.mpr
      (mem_filterMap.mpr ⟨input, mem_toList.mpr feeds, taken⟩)⟩

/-- The predecessors of a node are those that precede it. -/
theorem mem_predecessors : first ∈ G.predecessors second ↔ G.Precedes first second := by
  rw [predecessors]
  constructor
  · intro has
    split at has
    · next node got =>
      obtain ⟨input, mem, fed⟩ := mem_gather.mp has
      obtain ⟨out, source, owned⟩ := mem_filterMap.mp (mem_of.mp fed)
      exact ⟨out, input, owned, wf.input_of_mem got mem,
        (wf.agree out input).mpr (mem_toList.mp source)⟩
    · exact (not_mem_empty has).elim
  · rintro ⟨out, input, given, taken, feeds⟩
    obtain ⟨node, got, mem⟩ := wf.node_of_input taken
    rw [got]
    exact mem_gather.mpr ⟨input, mem, mem_of.mpr (mem_filterMap.mpr ⟨out, mem_toList.mpr
        ((wf.agree out input).mp feeds), given⟩)⟩

omit wf in
/-- A search among the nodes finds what steps lead to. -/
theorem mem_reach {step : NodeId → NodeSet} {start : NodeSet}
    (has : ∀ id ∈ start, ∃ node, G.nodes[id]? = some node)
    (inside : ∀ id, ∀ next ∈ step id, ∃ node, G.nodes[next]? = some node) {got : NodeId} :
    got ∈ G.reach step start ↔ ∃ origin ∈ start, Leads step origin got := by
  exact @mem_spread_iff _ step G.nodeIds _ start (fun id mem => mem_nodeIds.mpr (has id mem))
    (fun id _ next mem => mem_nodeIds.mpr (inside id next mem))
    (Nat.le_of_eq G.card_nodeIds) got

/-! ## Members of a scope -/

/-- The members of a scope are found. -/
theorem members_eq_ok {scope : Scope}
    (has : ∀ id ∈ scope.endpoints, ∃ node, G.nodes[id]? = some node) :
    ∃ members, G.members scope = .ok members ∧ ∀ id, id ∈ members ↔
      ∃ tip ∈ scope.endpoints, ReflTransGen G.Touches tip id := by
  rw [Graph.members, checkNodes_eq_ok has]
  refine ⟨_, rfl, fun id => ?_⟩
  rw [mem_reach]
  · simp only [mem_of, Leads, ExtTreeSet.mem_union_iff, wf.mem_successors, wf.mem_predecessors]
    rfl
  · exact fun id mem => has id (mem_of.mp mem)
  · intro id next mem
    rw [ExtTreeSet.mem_union_iff, wf.mem_successors, wf.mem_predecessors] at mem
    exact mem.elim wf.precedes_right wf.precedes_left

private theorem mem_ahead : second ∈ G.ahead first ↔ TransGen G.Precedes first second := by
  have has : ∀ id : NodeId, ∀ next ∈ G.successors id,
      ∃ node, G.nodes[next]? = some node := fun id next mem =>
    wf.precedes_right (wf.mem_successors.mp mem)
  rw [Graph.ahead, mem_reach (has first) has]
  simp only [Leads, wf.mem_successors]
  constructor
  · rintro ⟨next, stepped, led⟩
    exact .head' stepped led
  · intro led
    obtain ⟨next, stepped, led⟩ := TransGen.head'_iff.mp led
    exact ⟨next, stepped, led⟩

private theorem mem_behind : first ∈ G.behind second ↔ TransGen G.Precedes first second := by
  have has : ∀ id : NodeId, ∀ next ∈ G.predecessors id,
      ∃ node, G.nodes[next]? = some node := fun id next mem =>
    wf.precedes_left (wf.mem_predecessors.mp mem)
  rw [Graph.behind, mem_reach (has second) has]
  simp only [Leads, wf.mem_predecessors]
  constructor
  · rintro ⟨next, stepped, led⟩
    exact .tail' (reflTransGen_swap.mp led) stepped
  · intro led
    obtain ⟨next, led, stepped⟩ := TransGen.tail'_iff.mp led
    exact ⟨next, stepped, reflTransGen_swap.mp led⟩

/-- A circuit is what a node leads to and back from. -/
theorem mem_circuit : second ∈ G.circuit first ↔
    TransGen G.Precedes first second ∧ TransGen G.Precedes second first := by
  rw [circuit, ExtTreeSet.mem_inter_iff, wf.mem_ahead, wf.mem_behind]

end Consistent

/-! ## Walks between boundaries -/

/-- The second node is one step on from the first. -/
def Steps (graph : Graph) : Direction → NodeId → NodeId → Prop
  | .forward, first, second => graph.Precedes first second
  | .backward, first, second => graph.Precedes second first

/-- The nodes strictly between two others on a walk, none of them a boundary. -/
def Walk (graph : Graph) (direction : Direction) (first : NodeId) (between : List NodeId)
    (last : NodeId) : Prop :=
  (first :: (between ++ [last])).IsChain (graph.Steps direction) ∧
    ∀ id ∈ between, graph.isBoundary id = false

@[simp] theorem walk_nil : G.Walk direction first [] second ↔
    G.Steps direction first second := by
  simp [Walk]

@[simp] theorem walk_cons : G.Walk direction first (id :: between) second ↔
    G.Steps direction first id ∧ G.isBoundary id = false ∧
      G.Walk direction id between second := by
  simp only [Walk, cons_append, isChain_cons_cons, forall_mem_cons]
  tauto

/-- A walk can be cut at each of its nodes. -/
theorem walk_append {rest : List NodeId} : G.Walk direction first (between ++ id :: rest) second ↔
    G.Walk direction first between id ∧ G.isBoundary id = false ∧
      G.Walk direction id rest second := by
  induction between generalizing first with
  | nil => simp
  | cons next between ih =>
    simp only [cons_append, walk_cons, ih]
    tauto

private theorem walk_reverse : G.Walk .backward first between second ↔
    G.Walk .forward second between.reverse first := by
  induction between generalizing first with
  | nil => simp [Steps]
  | cons next between ih =>
    rw [walk_cons, ih, reverse_cons, walk_append, walk_nil]
    simp only [Steps]
    tauto

/-- A walk from one node to another with no boundary strictly between. -/
inductive Passes (graph : Graph) : NodeId → NodeId → Prop where
  | step {first second : NodeId} : graph.Precedes first second → graph.Passes first second
  | on {first between second : NodeId} : graph.Precedes first between →
      graph.isBoundary between = false → graph.Passes between second →
      graph.Passes first second

/-- Walks meet at a node that is no boundary. -/
theorem Passes.append {between : NodeId} (one : G.Passes first between)
    (open' : G.isBoundary between = false) (two : G.Passes between second) :
    G.Passes first second := by
  induction one with
  | step prec => exact .on prec open' two
  | on prec clear _ ih => exact .on prec clear (ih open' two)

/-- A walk is a chain of neighbours. -/
theorem Passes.transGen (passes : G.Passes first second) : TransGen G.Precedes first second := by
  induction passes with
  | step prec => exact .single prec
  | on prec _ _ ih => exact .head prec ih

/-- A walk is told by the nodes between. -/
theorem passes_iff : G.Passes first second ↔ ∃ between, G.Walk .forward first between second := by
  constructor
  · intro passes
    induction passes with
    | step prec => exact ⟨[], walk_nil.mpr prec⟩
    | on prec clear _ ih =>
      obtain ⟨between, walk⟩ := ih
      exact ⟨_ :: between, walk_cons.mpr ⟨prec, clear, walk⟩⟩
  · rintro ⟨between, walk⟩
    induction between generalizing first with
    | nil => exact .step (walk_nil.mp walk)
    | cons next between ih =>
      obtain ⟨prec, clear, walk⟩ := walk_cons.mp walk
      exact .on prec clear (ih walk)

private theorem passes_iff_backward : G.Passes first second ↔
    ∃ between, G.Walk .backward second between first := by
  rw [passes_iff]
  constructor
  · rintro ⟨between, walk⟩
    exact ⟨between.reverse, walk_reverse.mpr (by rwa [reverse_reverse])⟩
  · rintro ⟨between, walk⟩
    exact ⟨between.reverse, walk_reverse.mp walk⟩

section WalkFrom

variable (wf : G.Consistent)

include wf

private theorem mem_step : second ∈ G.step direction first ↔ G.Steps direction first second := by
  cases direction with
  | forward => exact wf.mem_successors
  | backward => exact wf.mem_predecessors

private theorem mem_stepOn : second ∈ G.stepOn direction first ↔
    G.isBoundary first = false ∧ G.Steps direction first second := by
  rw [stepOn]
  split
  · next boundary => simp [boundary]
  · next clear => simp [clear, mem_step wf]

private theorem exists_of_mem_step (has : second ∈ G.step direction first) :
    ∃ node, G.nodes[second]? = some node := by
  cases direction with
  | forward => exact wf.precedes_right (wf.mem_successors.mp has)
  | backward => exact wf.precedes_left (wf.mem_predecessors.mp has)

/-- One step, and then steps that leave no boundary. -/
theorem leads_iff : (∃ next ∈ G.step direction first, Leads (G.stepOn direction) next second) ↔
    ∃ between, G.Walk direction first between second := by
  constructor
  · rintro ⟨next, stepped, led⟩
    induction led using ReflTransGen.head_induction_on generalizing first with
    | refl => exact ⟨[], walk_nil.mpr ((mem_step wf).mp stepped)⟩
    | @head next _ on _ ih =>
      obtain ⟨clear, heads⟩ := (mem_stepOn wf).mp on
      obtain ⟨between, walk⟩ := ih ((mem_step wf).mpr heads)
      exact ⟨next :: between, walk_cons.mpr ⟨(mem_step wf).mp stepped, clear, walk⟩⟩
  · rintro ⟨between, walk⟩
    induction between generalizing first with
    | nil => exact ⟨second, (mem_step wf).mpr (walk_nil.mp walk), .refl⟩
    | cons next between ih =>
      obtain ⟨heads, clear, walk⟩ := walk_cons.mp walk
      obtain ⟨other, stepped, led⟩ := ih walk
      exact ⟨next, (mem_step wf).mpr heads,
        .head ((mem_stepOn wf).mpr ⟨clear, (mem_step wf).mp stepped⟩) led⟩

private theorem mem_visited : id ∈ G.reach (G.stepOn direction)
      (gather startings.toList (G.step direction)) ↔
    ∃ start ∈ startings, ∃ between, G.Walk direction start between id := by
  rw [Consistent.mem_reach]
  · simp only [← leads_iff wf, mem_gather, mem_toList]
    constructor
    · rintro ⟨next, ⟨start, mem, stepped⟩, led⟩
      exact ⟨start, mem, next, stepped, led⟩
    · rintro ⟨start, mem, next, stepped, led⟩
      exact ⟨next, ⟨start, mem, stepped⟩, led⟩
  · intro next mem
    obtain ⟨start, -, stepped⟩ := mem_gather.mp mem
    exact exists_of_mem_step wf stepped
  · intro next other mem
    exact exists_of_mem_step wf ((mem_step wf).mpr ((mem_stepOn wf).mp mem).2)

/-- A span passes the nodes that walks from its startings pass. -/
theorem mem_passings : id ∈ (G.walkFrom direction startings).passings ↔ G.isBoundary id = false ∧
    ∃ start ∈ startings, ∃ between, G.Walk direction start between id := by
  rw [walkFrom, mem_filter_iff, mem_visited wf]
  simp [and_comm]

/-- A span arrives at the boundaries that these walks meet. -/
theorem mem_arrivals : id ∈ (G.walkFrom direction startings).arrivals ↔ G.isBoundary id ∧
    ∃ start ∈ startings, ∃ between, G.Walk direction start between id := by
  rw [walkFrom, mem_filter_iff, mem_visited wf, and_comm]

/-- What a forward span passes. -/
theorem mem_passings_forward : id ∈ (G.walkFrom .forward startings).passings ↔
    G.isBoundary id = false ∧ ∃ start ∈ startings, G.Passes start id := by
  simp only [mem_passings wf, passes_iff]

/-- Where a forward span arrives. -/
theorem mem_arrivals_forward : id ∈ (G.walkFrom .forward startings).arrivals ↔
    G.isBoundary id ∧ ∃ start ∈ startings, G.Passes start id := by
  simp only [mem_arrivals wf, passes_iff]

/-- What a backward span passes. -/
theorem mem_passings_backward : id ∈ (G.walkFrom .backward startings).passings ↔
    G.isBoundary id = false ∧ ∃ start ∈ startings, G.Passes id start := by
  simp only [mem_passings wf, passes_iff_backward]

/-- Where a backward span arrives. -/
theorem mem_arrivals_backward : id ∈ (G.walkFrom .backward startings).arrivals ↔
    G.isBoundary id ∧ ∃ start ∈ startings, G.Passes id start := by
  simp only [mem_arrivals wf, passes_iff_backward]

end WalkFrom

/-! ## The root scope -/

/-- The node can be reached from the endpoints of the whole graph. -/
def Member (graph : Graph) (id : NodeId) : Prop :=
  ∃ tip ∈ graph.root.endpoints, ReflTransGen graph.Touches tip id

private theorem Member.touch (has : G.Member first) (touches : G.Touches first second) :
    G.Member second := by
  obtain ⟨tip, mem, led⟩ := has
  exact ⟨tip, mem, led.tail touches⟩

/-- What a member precedes is a member. -/
theorem Member.next (mem : G.Member first) (prec : G.Precedes first second) :
    G.Member second :=
  mem.touch (.inl prec)

/-- What precedes a member is a member. -/
theorem Member.prev (mem : G.Member second) (prec : G.Precedes first second) :
    G.Member first :=
  mem.touch (.inr prec)

/-- Walks lead from members to members. -/
theorem Member.passes (mem : G.Member first) (passes : G.Passes first second) :
    G.Member second := by
  induction passes with
  | step prec => exact mem.next prec
  | on prec _ _ ih => exact ih (mem.next prec)

/-- Walks to members come from members. -/
theorem Member.passesBack (mem : G.Member second) (passes : G.Passes first second) :
    G.Member first := by
  induction passes with
  | step prec => exact mem.prev prec
  | on prec _ _ ih => exact (ih mem).prev prec

/-! ## Normal graphs -/

/-- The node is a stage boundary, or a checkpoint may move below it. -/
def isCalm (graph : Graph) (id : NodeId) : Bool :=
  graph.nodes[id]?.any fun node => node.isStageBoundary || node.isPushDownTarget

/-- The node runs at most once, and no checkpoint may move below it. -/
def isSolitary (graph : Graph) (id : NodeId) : Bool :=
  graph.nodes[id]?.any fun node =>
    node.isOperator && node.hasGlobalEffect && !node.isPushDownTarget

/-- The node runs at most once and does not end a stage. -/
def isGuarded (graph : Graph) (id : NodeId) : Bool :=
  graph.nodes[id]?.any fun node =>
    node.isOperator && node.hasGlobalEffect && !node.isStageBoundary

/-- No identity of a graph is a boundary. -/
theorem isBoundary_of_isIdentity (identity : G.isIdentity id) : G.isBoundary id = false := by
  rw [isIdentity, Option.any_eq_true] at identity
  obtain ⟨node, got, identity⟩ := identity
  rw [isBoundary, got, Option.any_some, Node.isBoundary_of_isIdentity identity]

/-- A boundary ends a stage or starts a shuffle. -/
theorem isBoundary_iff : G.isBoundary id ↔ G.isStageBoundary id ∨ G.isShuffleBoundary id := by
  rw [isBoundary, isStageBoundary, isShuffleBoundary]
  cases G.nodes[id]? <;> simp [Node.isBoundary]

/-- No checkpoint moves below a boundary. -/
theorem isBoundary_of_isPushDownTarget (target : node.isPushDownTarget) :
    node.isBoundary = false := by
  simp only [Node.isPushDownTarget, Bool.or_eq_true, Bool.and_eq_true, beq_iff_eq] at target
  rcases target with identity | ⟨boundary, kind | kind⟩
  · exact Node.isBoundary_of_isIdentity identity
  · simp [Node.isBoundary, Node.isStageBoundary, Node.isShuffleBoundary, boundary, kind]
  · simp [Node.isBoundary, Node.isStageBoundary, Node.isShuffleBoundary, boundary, kind]

private theorem isShuffleBoundary_of_isCalm
    (unmixed : G.isStageBoundary id → G.isShuffleBoundary id = false)
    (calm : G.isCalm id) : G.isShuffleBoundary id = false := by
  rw [isCalm, Option.any_eq_true] at calm
  obtain ⟨node, got, calm⟩ := calm
  rcases Bool.or_eq_true_iff.mp calm with stage | down
  · refine unmixed ?_
    rw [isStageBoundary, got]
    exact stage
  · have clear := isBoundary_of_isPushDownTarget down
    rw [Node.isBoundary, Bool.or_eq_false_iff] at clear
    rw [isShuffleBoundary, got]
    exact clear.2

/-- A graph that can be cut into blocks: flow parts are inlined, boundaries stand where they
have to, and identities only between stage boundaries and boundaries. -/
structure Normal (graph : Graph) : Prop where
  wf : graph.Consistent
  inputs : ∀ id ∈ graph.root.inputs, ∃ node, graph.nodes[id]? = some node ∧
    node.kind = .input ∧ node.boundary = .none ∧ node.inputs = []
  outputs : ∀ id ∈ graph.root.outputs, ∃ node, graph.nodes[id]? = some node ∧
    node.kind = .output ∧ node.boundary = .none ∧ node.outputs = []
  unmixed : ∀ id, graph.isStageBoundary id = true → graph.isShuffleBoundary id = false
  flat : ∀ id node, graph.Member id → graph.nodes[id]? = some node →
    ∀ scope, node.kind ≠ .flowPart scope
  identityAfter : ∀ id prev, graph.Member id → graph.isIdentity id = true →
    graph.Precedes prev id → graph.isStageBoundary prev = true
  identityBefore : ∀ id next, graph.Member id → graph.isIdentity id = true →
    graph.Precedes id next → graph.isBoundary next = true
  hopless : ∀ id next, graph.Member id → graph.isStageBoundary id = true →
    graph.Precedes id next → graph.isBoundary next = false
  calm : ∀ id next, graph.Member id → graph.isShuffleBoundary id = true →
    graph.Passes id next → graph.isCalm next = true
  guarded : ∀ id next, graph.Member id → graph.isGuarded id = true →
    graph.Precedes id next → graph.isStageBoundary next = true
  acyclic : ∀ id, graph.Member id → ¬ TransGen graph.Precedes id id

namespace Normal

variable (normal : G.Normal)

include normal

/-- No shuffle leads to a shuffle without a stage boundary between. -/
theorem settled (id next : NodeId) (mem : G.Member id)
    (shuffle : G.isShuffleBoundary id) (passes : G.Passes id next) :
    G.isShuffleBoundary next = false :=
  isShuffleBoundary_of_isCalm (normal.unmixed next) (normal.calm id next mem shuffle passes)

private theorem exists_endpoint (mem : id ∈ G.root.endpoints) :
    ∃ node, G.nodes[id]? = some node := by
  rcases mem_append.mp mem with input | out
  · obtain ⟨node, got, -⟩ := normal.inputs id input
    exact ⟨node, got⟩
  · obtain ⟨node, got, -⟩ := normal.outputs id out
    exact ⟨node, got⟩

/-- The members of the root scope are found. -/
theorem rootMembers_eq_ok :
    ∃ members, G.rootMembers = .ok members ∧ ∀ id, id ∈ members ↔ G.Member id :=
  normal.wf.members_eq_ok fun _ => normal.exists_endpoint

/-- Members are nodes that exist. -/
theorem exists_node (has : G.Member id) : ∃ node, G.nodes[id]? = some node := by
  obtain ⟨tip, mem, led⟩ := has
  rcases led.cases_tail with rfl | ⟨_, -, touches⟩
  · exact normal.exists_endpoint mem
  · exact touches.elim normal.wf.precedes_right normal.wf.precedes_left

end Normal

end Graph

end Staging
