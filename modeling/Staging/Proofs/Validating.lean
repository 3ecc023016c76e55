import Staging.Proofs.Scoping

/-! # Validated graphs

If the scopes of a graph are isolated, every node that can be reached through
them has one home. Validation goes through all scopes, so that no node of a
graph without problems feeds itself through others, and the sinks that it adds
do not change that.
-/

namespace Staging

open Std Relation List ExtTreeSet

variable {first second : NodeId} {scope : Scope} {members : NodeSet}
  {home : Homes} {path : List NodeId} {id : NodeId}

namespace Graph

variable {G : Graph}

/-! ## Homes of nodes -/

/-- The node can be reached from the endpoints of the scope that the path leads to. -/
inductive Within (graph : Graph) : List NodeId → NodeId → Prop where
  | root {tip id : NodeId} : tip ∈ graph.root.endpoints →
      ReflTransGen graph.Touches tip id → Within graph [] id
  | part {path : List NodeId} {part tip id : NodeId} {node : Node} {scope : Scope} :
      Within graph path part → graph.nodes[part]? = some node → node.kind = .flowPart scope →
      tip ∈ scope.endpoints → ReflTransGen graph.Touches tip id →
      Within graph (part :: path) id

theorem Within.inside (within : G.Within path id) : G.Inside path.head? id := by
  cases within with
  | root mem led => exact ⟨G.root, .root, _, mem, led⟩
  | part _ got kind mem led => exact ⟨_, .part got kind, _, mem, led⟩

theorem Within.touch (within : G.Within path first)
    (touches : G.Touches first second) : G.Within path second := by
  cases within with
  | root mem led => exact .root mem (led.tail touches)
  | part within got kind mem led => exact .part within got kind mem (led.tail touches)

theorem Within.unique (isolated : G.Isolated) {path' : List NodeId}
    (within : G.Within path id) (within' : G.Within path' id) : path = path' := by
  induction within generalizing path' with
  | root mem led =>
    have eq := isolated _ _ _ (Within.root mem led).inside within'.inside
    exact (head?_eq_none_iff.mp eq.symm).symm
  | part within got kind mem led ih =>
    have eq := isolated _ _ _ (Within.part within got kind mem led).inside within'.inside
    cases within' with
    | root => cases eq
    | part outer =>
      cases eq
      rw [ih outer]

open Classical in
/-- The path of flow parts that leads to a node. -/
noncomputable def homeOf (graph : Graph) (id : NodeId) : Option (List NodeId) :=
  if within : ∃ path, graph.Within path id then some within.choose else none

theorem homeOf_eq_some (isolated : G.Isolated) : G.homeOf id = some path ↔ G.Within path id := by
  rw [homeOf]
  split
  · next within =>
    rw [Option.some.injEq]
    constructor
    · rintro rfl
      exact within.choose_spec
    · exact Within.unique isolated within.choose_spec
  · next missing =>
    constructor
    · nofun
    · exact fun within => (missing ⟨path, within⟩).elim

/-! ## No circuits -/

/-- A node is connected with another one, or is a flow part and the other one an
endpoint of its scope. -/
def Adjoins (graph : Graph) (first second : NodeId) : Prop :=
  graph.Touches first second ∨ ∃ node scope, graph.nodes[first]? = some node ∧
    node.kind = .flowPart scope ∧ second ∈ scope.endpoints

theorem Within.adjoins (within : G.Within path id) :
    ∃ tip ∈ G.root.endpoints, ReflTransGen G.Adjoins tip id := by
  have lift : ∀ {first second : NodeId}, ReflTransGen G.Touches first second →
      ReflTransGen G.Adjoins first second := by
    intro first second led
    induction led with
    | refl => exact .refl
    | tail _ touches ih => exact ih.tail (.inl touches)
  induction within with
  | root mem led => exact ⟨_, mem, lift led⟩
  | part _ got kind mem led ih =>
    obtain ⟨tip, mem', outer⟩ := ih
    exact ⟨tip, mem', (outer.tail (.inr ⟨_, _, got, kind, mem⟩)).trans (lift led)⟩

/-- The listed scopes have all nodes that can be reached through them. -/
theorem Consistent.mem_scopesWithin (wf : G.Consistent) {levels : Nat}
    {owner : Option NodeId} {all : List ScopeMembers}
    (run : G.scopesWithin levels owner scope = .ok all) (collected : G.members scope = .ok members)
    (has : first ∈ members) (reaches : ReflTransGen G.Adjoins first second) :
    ∃ entry ∈ all, second ∈ entry.members ∧ ∃ scope, G.members scope = .ok entry.members := by
  induction levels generalizing owner scope members all first with
  | zero => cases run
  | succ levels ih =>
    obtain ⟨members', run', run⟩ := of_bind run
    obtain ⟨nested, run'', ⟨⟩⟩ := of_bind run
    cases collected.symm.trans run'
    induction reaches using ReflTransGen.head_induction_on with
    | refl => exact ⟨_, (.head _), has, scope, collected⟩
    | head step led ih' =>
      rcases step with touches | ⟨node, inner, got, kind, tip⟩
      · refine ih' ?_
        obtain ⟨start, at', led⟩ := (wf.mem_members collected _).mp has
        exact (wf.mem_members collected _).mpr ⟨start, at', led.tail touches⟩
      · obtain ⟨inside, mem, ran⟩ := exists_of_mapM run''
          (mem_flowPartsOf.mpr ⟨has, node, got, kind⟩)
        -- the inner scope could be collected, because its scopes were listed
        have collects : ∃ members, G.members inner = .ok members := by
          cases levels with
          | zero => cases ran
          | succ levels =>
            obtain ⟨members, collected, -⟩ := of_bind ran
            exact ⟨members, collected⟩
        obtain ⟨members, collected'⟩ := collects
        obtain ⟨entry, at', spec⟩ := ih ran collected'
          ((wf.mem_members collected' _).mpr ⟨_, tip, .refl⟩) led
        exact ⟨entry, .tail _ (mem_flatten_of_mem mem at'), spec⟩

/-- In a scope for which no circuit is reported, no node feeds itself through others. -/
theorem Consistent.acyclic_of_circuits (wf : G.Consistent)
    (collected : G.members scope = .ok members)
    (none : G.circuits members = []) (has : id ∈ members) :
    ¬ TransGen G.Precedes id id := by
  intro circuit
  have closed : ∀ {first second : NodeId}, TransGen G.Precedes first second →
      first ∈ members → second ∈ members := by
    intro first second led has
    obtain ⟨tip, mem, pre⟩ := (wf.mem_members collected _).mp has
    refine (wf.mem_members collected _).mpr ⟨tip, mem, ?_⟩
    induction led with
    | single prec => exact pre.tail (.inl prec)
    | tail _ prec ih => exact ih.tail (.inl prec)
  -- the smallest node of the circuit is the one that reports it
  cases nodes : (G.circuit id).toList with
  | nil =>
    have := mem_toList.mpr (wf.mem_circuit.mpr ⟨circuit, circuit⟩)
    rw [nodes] at this
    cases this
  | cons first rest =>
    have inside : first ∈ G.circuit id := by
      rw [← mem_toList, nodes]
      exact (.head _)
    obtain ⟨ahead, behind⟩ := wf.mem_circuit.mp inside
    have eq : G.circuit first = G.circuit id := by
      apply ext_mem
      intro other
      rw [wf.mem_circuit, wf.mem_circuit]
      exact ⟨fun ⟨one, two⟩ => ⟨ahead.trans one, two.trans behind⟩,
        fun ⟨one, two⟩ => ⟨behind.trans one, two.trans ahead⟩⟩
    have reported : first :: rest ∈ G.circuits members := by
      refine mem_filterMap.mpr ⟨first, mem_toList.mpr (closed ahead has), ?_⟩
      rw [eq, nodes]
      exact if_pos rfl
    rw [none] at reported
    cases reported

/-! ## Sinks -/

/-- Sinks behind loose outputs keep homes. -/
theorem Nested.closeOutput (nested : G.Nested home)
    (out : OutputId) : ∃ home', (G.closeOutput out).Nested home' ∧
      G.Extends (G.closeOutput out) := by
  rw [Graph.closeOutput]
  split
  · next port got =>
    split
    · have reshaped := nested.founded.insertSink got
      exact ⟨_, nested.reshaped reshaped fun _ => attached_old, reshaped.extends'⟩
    · exact ⟨home, nested, .refl G⟩
  · exact ⟨home, nested, .refl G⟩

theorem Nested.closeNode (nested : G.Nested home)
    (id : NodeId) : ∃ home', (G.closeNode id).Nested home' ∧ G.Extends (G.closeNode id) := by
  rw [Graph.closeNode]
  split
  · refine foldl_keeps (fun _ now => ∃ home', Nested now home' ∧
      G.Extends now) ?_ ⟨home, nested, .refl G⟩
    rintro out _ now ⟨home', nested, extends'⟩
    obtain ⟨home'', nested', step⟩ := nested.closeOutput out
    exact ⟨home'', nested', extends'.trans step⟩
  · exact ⟨home, nested, .refl G⟩

/-- No circuit is in the root scope or in a scope that is nested in it. -/
def Acyclic (graph : Graph) : Prop :=
  ∀ path id, graph.Within path id → ¬ TransGen graph.Precedes id id

/-- Scopes without problems are without circuits. -/
theorem Founded.acyclic (founded : G.Founded) {scopes : List ScopeMembers}
    (run : G.scopes = .ok scopes) (none : scopes.flatMap G.scopeProblems = []) :
    G.Acyclic := by
  intro path id within
  have wf := founded.wf
  obtain ⟨tip, mem, reaches⟩ := within.adjoins
  obtain ⟨members, collected, mem_members⟩ := wf.members_eq_ok fun _ => founded.exists_endpoint
  obtain ⟨entry, mem', has, scope, collected'⟩ := wf.mem_scopesWithin run collected
    ((mem_members tip).mpr ⟨tip, mem, .refl⟩) reaches
  have empty := flatMap_eq_nil_iff.mp none entry mem'
  rw [scopeProblems, append_eq_nil_iff, map_eq_nil_iff] at empty
  exact wf.acyclic_of_circuits collected' empty.2 has

/-- Isolated scopes without circuits are homes. -/
theorem Nested.of_isolated (founded : G.Founded) (isolated : G.Isolated)
    (acyclic : G.Acyclic) : G.Nested G.homeOf := by
  refine ⟨founded, fun id mem => (homeOf_eq_some isolated).mpr (.root mem .refl),
    fun id node scope path got kind homed tip mem => (homeOf_eq_some isolated).mpr
      (.part ((homeOf_eq_some isolated).mp homed) got kind mem .refl),
    fun first second prec => ?_, fun id homed => ?_,
    fun id node scope tip path got kind mem homed => isolated tip _ _
      ((homeOf_eq_some isolated).mp homed).inside ⟨scope, .part got kind, tip, mem, .refl⟩⟩
  · apply Option.ext
    intro path
    rw [homeOf_eq_some isolated, homeOf_eq_some isolated]
    exact ⟨fun within => within.touch (.inl prec), fun within => within.touch (.inr prec)⟩
  · obtain ⟨path, homed⟩ := Option.ne_none_iff_exists'.mp homed
    exact acyclic path id ((homeOf_eq_some isolated).mp homed)

/-- A graph without problems whose scopes are isolated has a home for each of its nodes. -/
theorem Nested.of_validate (founded : G.Founded) (isolated : G.Isolated) {closed : Graph}
    (run : G.validate = .ok ([], closed)) :
    ∃ home, closed.Nested home ∧ G.Extends closed := by
  obtain ⟨scopes, run', eq⟩ := of_bind run
  obtain ⟨none, rfl⟩ := Prod.mk.inj (Except.ok.inj eq)
  refine foldl_keeps (fun _ now => ∃ home, Nested now home ∧
    G.Extends now) ?_ ⟨_, Nested.of_isolated founded isolated (founded.acyclic run' none), .refl G⟩
  rintro id _ now ⟨home, nested, extends'⟩
  obtain ⟨home', nested', step⟩ := nested.closeNode id
  exact ⟨home', nested', extends'.trans step⟩

end Graph

end Staging
