import Mathlib.Data.List.Lex
import Mathlib.Data.List.Sort
import Mathlib.Data.Prod.Lex
import Staging.Proofs.Scoping

/-! # What validation reports

The problems of a graph are described without a search: scope by scope, each before those
nested in it, the ports that lack a connection in the order of their nodes, and then the
circuits. A circuit is a strongly connected component with more than one node or with a node
that feeds itself. What validation reports meets the description.
-/

namespace Staging

open Std Relation List ExtTreeSet

variable {owner : Option NodeId} {report' : List Diagnostic} {nodes : List NodeId}
  {members : NodeSet} {scope : Scope} {id : NodeId}

/-! ## Ascending lists -/

/-- The keys of the elements grow from one to the next. -/
def Ascending {α κ : Type} [LT κ] (key : α → κ) (items : List α) : Prop :=
  items.Pairwise fun first second => key first < key second

/-- An ascending list is known by its members. -/
theorem Ascending.eq_of_mem_iff {α κ : Type} [Preorder κ] {key : α → κ} {first second : List α}
    (one : Ascending key first) (two : Ascending key second)
    (eq : ∀ item, item ∈ first ↔ item ∈ second) : first = second := by
  let pre (item other : α) : Prop := key item < key other
  have irreflexive : Irrefl pre := ⟨fun item => lt_irrefl (key item)⟩
  have antisymmetric : Antisymm pre := ⟨fun item other ahead behind => (lt_asymm ahead behind).elim⟩
  exact Pairwise.eq_of_mem_iff (r := pre) one two eq

private theorem HandleSet.ascending_toList {role : Role} (set : HandleSet role) :
    Ascending Handle.raw set.toList :=
  set.ordered_toList.imp fun less => Nat.compare_eq_lt.mp less

namespace Graph

variable {G : Graph} {report : List Diagnostic}

/-! ## The description -/

/-- The node can be reached from the endpoints of the scope. -/
def Encloses (graph : Graph) (scope : Scope) (id : NodeId) : Prop :=
  ∃ tip ∈ scope.endpoints, ReflTransGen graph.Touches tip id

/-- A port that lacks a connection: where it is, and what is said about it. -/
structure Gap where
  node : NodeId
  isOutput : Bool
  index : Nat
  message : String

/-- Gaps are ordered by node, those of inputs before those of outputs, and then by place. -/
def Gap.key (gap : Gap) : Nat ×ₗ Bool ×ₗ Nat :=
  toLex (gap.node.raw, toLex (gap.isOutput, gap.index))

def Gap.diagnostic (owner : Option NodeId) (gap : Gap) : Diagnostic :=
  ⟨owner, [gap.node], gap.message⟩

def inputGap (id : NodeId) (node : Node) (index : Nat) (port : InputPort) : Gap :=
  ⟨id, false, index, "unconnected input `" ++ port.name ++ "` of `" ++ node.name ++ "`"⟩

def outputGap (id : NodeId) (node : Node) (index : Nat) (port : OutputPort) : Gap :=
  ⟨id, true, index,
    "mandatory output `" ++ port.name ++ "` of `" ++ node.name ++ "` is not connected"⟩

/-- Each input has to be connected, and each output that is declared mandatory. -/
inductive HasGap (graph : Graph) : Gap → Prop where
  | input {id : NodeId} {node : Node} {index : Nat} {input : InputId} {port : InputPort} :
      graph.nodes[id]? = some node → node.inputs[index]? = some input →
      graph.inputs[input]? = some port → port.connected = ∅ →
      HasGap graph (inputGap id node index port)
  | output {id : NodeId} {node : Node} {index : Nat} {output : OutputId} {port : OutputPort} :
      graph.nodes[id]? = some node → node.outputs[index]? = some output →
      graph.outputs[output]? = some port → port.connected = ∅ →
      port.connectivity = .mandatory → HasGap graph (outputGap id node index port)

/-- The nodes of a strongly connected component in ascending order, if there is more
than one or if one of them feeds itself. -/
structure Circuit (graph : Graph) (nodes : List NodeId) : Prop where
  ascending : Ascending Handle.raw nodes
  component : ∀ id ∈ nodes, ∀ other, other ∈ nodes ↔
    ReflTransGen graph.Precedes id other ∧ ReflTransGen graph.Precedes other id
  turns : 1 < nodes.length ∨ ∃ id ∈ nodes, graph.Precedes id id

/-- One diagnostic for each gap of a scope, and then one for each circuit. -/
def Reports (graph : Graph) (owner : Option NodeId) (scope : Scope) (report : List Diagnostic) :
    Prop :=
  ∃ gaps circuits, Ascending Gap.key gaps ∧
    (∀ gap, gap ∈ gaps ↔ graph.Encloses scope gap.node ∧ graph.HasGap gap) ∧
    Ascending (map Handle.raw) circuits ∧
    (∀ nodes, nodes ∈ circuits ↔ graph.Circuit nodes ∧ ∀ id ∈ nodes, graph.Encloses scope id) ∧
    report = gaps.map (Gap.diagnostic owner) ++ circuits.map (graph.circuitProblem owner)

/-- The problems of a scope, and then those of the flow parts in it, one after the other. -/
inductive Diagnoses (graph : Graph) : Option NodeId → Scope → List Diagnostic → Prop where
  | scope {owner : Option NodeId} {scope : Scope} {report : List Diagnostic}
      {parts : List (NodeId × Scope)} {nested : NodeId × Scope → List Diagnostic} :
      graph.Reports owner scope report → Ascending (fun part => part.1.raw) parts →
      (∀ part, part ∈ parts ↔ graph.Encloses scope part.1 ∧ graph.HasScope (some part.1) part.2) →
      (∀ part ∈ parts, Diagnoses graph (some part.1) part.2 (nested part)) →
      Diagnoses graph owner scope (report ++ parts.flatMap nested)

/-! ## Nothing is left open -/

private theorem Reports.unique (one : G.Reports owner scope report)
    (two : G.Reports owner scope report') : report = report' := by
  obtain ⟨gaps, circuits, sorted, mem_gaps, ordered, mem_circuits, rfl⟩ := one
  obtain ⟨gaps', circuits', sorted', mem_gaps', ordered', mem_circuits', rfl⟩ := two
  have eq : gaps = gaps' := sorted.eq_of_mem_iff sorted' fun gap =>
    (mem_gaps gap).trans (mem_gaps' gap).symm
  have alike : circuits = circuits' := ordered.eq_of_mem_iff ordered' fun nodes =>
    (mem_circuits nodes).trans (mem_circuits' nodes).symm
  rw [eq, alike]

theorem Diagnoses.unique
    (one : G.Diagnoses owner scope report) (two : G.Diagnoses owner scope report') :
    report = report' := by
  induction one generalizing report' with
  | scope reports sorted mem_parts _ ih =>
    cases two with
    | scope reports' sorted' mem_parts' deeper =>
      cases sorted.eq_of_mem_iff sorted' fun part =>
        (mem_parts part).trans (mem_parts' part).symm
      rw [reports.unique reports']
      congr 1
      apply flatMap_congr
      intro part mem
      exact ih part mem (deeper part mem)

/-! ## Gaps that are found -/

section Among

variable {α β : Type} (ports : List α) (lookup : α → Option β) (lacking : β → Bool)
  (gap : Nat → β → Gap)

/-- The gaps of listed ports, each with its place in the list. -/
def gapsAmong : List Gap :=
  ports.zipIdx.filterMap fun (port, index) => ((lookup port).filter lacking).map (gap index)

variable {ports lookup lacking gap}

private theorem mem_gapsAmong {other : Gap} : other ∈ gapsAmong ports lookup lacking gap ↔
    ∃ index port record, ports[index]? = some port ∧ lookup port = some record ∧
      lacking record ∧ gap index record = other := by
  simp only [gapsAmong, mem_filterMap, Option.map_eq_some_iff, Option.filter_eq_some_iff,
    Prod.exists, mem_zipIdx_iff_getElem?]
  constructor
  · rintro ⟨port, index, at', record, ⟨got, lacks⟩, eq⟩
    exact ⟨index, port, record, at', got, lacks, eq⟩
  · rintro ⟨index, port, record, at', got, lacks, eq⟩
    exact ⟨port, index, at', record, ⟨got, lacks⟩, eq⟩

/-- Where a gap is does not matter for its diagnostic. -/
theorem map_gapsAmong {report : Gap → Diagnostic} {describe : β → Diagnostic}
    (described : ∀ index record, report (gap index record) = describe record) :
    (gapsAmong ports lookup lacking gap).map report =
      ((ports.filterMap lookup).filter lacking).map describe := by
  have step : ∀ entry : α × Nat, (((lookup entry.1).filter lacking).map (gap entry.2)).map report =
      ((lookup entry.1).filter lacking).map describe := by
    intro entry
    rw [Option.map_map]
    exact congrArg (fun f => ((lookup entry.1).filter lacking).map f) (funext (described entry.2))
  calc (gapsAmong ports lookup lacking gap).map report
      = ports.zipIdx.filterMap fun entry => ((lookup entry.1).filter lacking).map describe := by
        rw [gapsAmong, map_filterMap]
        exact congrArg (fun f => ports.zipIdx.filterMap f) (funext step)
    _ = (ports.zipIdx.map Prod.fst).filterMap fun port =>
          ((lookup port).filter lacking).map describe := by rw [filterMap_map]; rfl
    _ = ((ports.filterMap lookup).filter lacking).map describe := by
        rw [zipIdx_map_fst, filter_filterMap, map_filterMap]

private theorem ascending_gapsAmong {isOutput : Bool}
    (placed : ∀ index record, (gap index record).key = toLex (id.raw, toLex (isOutput, index))) :
    Ascending Gap.key (gapsAmong ports lookup lacking gap) := by
  have indices : ports.zipIdx.Pairwise fun first second => first.2 < second.2 := by
    rw [← pairwise_map, zipIdx_map_snd]
    exact pairwise_lt_range'
  refine indices.filterMap _ ?_
  rintro ⟨port, index⟩ ⟨port', index'⟩ less first got second got'
  obtain ⟨record, -, rfl⟩ := Option.map_eq_some_iff.mp got
  obtain ⟨record', -, rfl⟩ := Option.map_eq_some_iff.mp got'
  rw [placed, placed]
  simp [Prod.Lex.lt_iff, less]

end Among

/-- The gaps of a node. -/
def gapsOf (graph : Graph) (id : NodeId) : List Gap :=
  match graph.nodes[id]? with
  | none => []
  | some node =>
    gapsAmong node.inputs (graph.inputs[·]?) (fun port => port.connected.isEmpty)
      (inputGap id node) ++
    gapsAmong node.outputs (graph.outputs[·]?)
      (fun port => port.connected.isEmpty && port.connectivity == .mandatory) (outputGap id node)

private theorem mem_gapsOf {gap : Gap} : gap ∈ G.gapsOf id ↔ gap.node = id ∧ G.HasGap gap := by
  rw [gapsOf]
  constructor
  · intro mem
    split at mem
    · cases mem
    · next node got =>
      rcases mem_append.mp mem with mem | mem <;>
        obtain ⟨index, port, record, at', got', lacks, rfl⟩ := mem_gapsAmong.mp mem
      · exact ⟨rfl, .input got at' got' (ExtTreeSet.isEmpty_iff.mp lacks)⟩
      · rw [Bool.and_eq_true, ExtTreeSet.isEmpty_iff, beq_iff_eq] at lacks
        exact ⟨rfl, .output got at' got' lacks.1 lacks.2⟩
  · rintro ⟨rfl, has⟩
    cases has with
    | input got at' got' empty =>
      rw [inputGap, got]
      exact mem_append_left _ (mem_gapsAmong.mpr ⟨_, _, _, at', got', isEmpty_iff.mpr empty, rfl⟩)
    | output got at' got' empty mandatory =>
      rw [outputGap, got]
      refine mem_append_right _ (mem_gapsAmong.mpr ⟨_, _, _, at', got', ?_, rfl⟩)
      rw [Bool.and_eq_true, ExtTreeSet.isEmpty_iff, beq_iff_eq]
      exact ⟨empty, mandatory⟩

private theorem portProblems_eq (G : Graph) (owner : Option NodeId) (id : NodeId) :
    G.portProblems owner id = (G.gapsOf id).map (Gap.diagnostic owner) := by
  rw [portProblems, gapsOf]
  cases G.nodes[id]? with
  | none => rfl
  | some node =>
    symm
    rw [map_append]
    congr 1 <;> exact map_gapsAmong fun _ _ => rfl

private theorem ascending_gapsOf (id : NodeId) : Ascending Gap.key (G.gapsOf id) := by
  rw [gapsOf]
  split
  · exact .nil
  · refine pairwise_append.mpr ⟨ascending_gapsAmong fun _ _ => rfl,
      ascending_gapsAmong fun _ _ => rfl, ?_⟩
    intro first mem second mem'
    obtain ⟨_, _, _, -, -, -, rfl⟩ := mem_gapsAmong.mp mem
    obtain ⟨_, _, _, -, -, -, rfl⟩ := mem_gapsAmong.mp mem'
    simp [Gap.key, inputGap, outputGap, Prod.Lex.lt_iff]

private theorem ascending_gaps (members : NodeSet) :
    Ascending Gap.key (members.toList.flatMap G.gapsOf) := by
  refine pairwise_flatMap.mpr ⟨fun id _ => ascending_gapsOf id, ?_⟩
  refine members.ascending_toList.imp ?_
  intro first second less gap mem gap' mem'
  rw [Gap.key, Gap.key, (mem_gapsOf.mp mem).1, (mem_gapsOf.mp mem').1]
  simp [Prod.Lex.lt_iff, less]

/-! ## Circuits that are found -/

namespace Circuit

variable (circuit : G.Circuit nodes)

include circuit

/-- A node of a circuit feeds itself, directly or through others. -/
theorem closed (mem : id ∈ nodes) : TransGen G.Precedes id id := by
  have round : ∀ other ∈ nodes, other ≠ id → TransGen G.Precedes id id := by
    intro other mem' apart
    obtain ⟨ahead, back⟩ := (circuit.component id mem other).mp mem'
    rcases reflTransGen_iff_eq_or_transGen.mp ahead with eq | ahead
    · exact (apart eq).elim
    · exact ahead.trans_left back
  rcases circuit.turns with several | ⟨other, mem', feeds⟩
  · by_contra never
    have alone : ∀ other ∈ nodes, other = id := fun other mem' =>
      by_contra fun apart => never (round other mem' apart)
    have single : nodes.length ≤ 1 := by
      have nodup : nodes.Nodup := circuit.ascending.imp fun {first second} less eq => by
        exact Nat.lt_irrefl _ (eq ▸ less)
      rw [← toFinset_card_of_nodup nodup, Finset.card_le_one]
      intro first one second two
      rw [alone first (mem_toFinset.mp one), alone second (mem_toFinset.mp two)]
    omega
  · by_cases eq : other = id
    · exact eq ▸ .single feeds
    · exact round other mem' eq

private theorem mem_iff (mem : id ∈ nodes) (other : NodeId) : other ∈ nodes ↔
    TransGen G.Precedes id other ∧ TransGen G.Precedes other id := by
  rw [circuit.component id mem other]
  constructor
  · rintro ⟨ahead, back⟩
    have round := circuit.closed mem
    exact ⟨round.trans_left ahead, TransGen.trans_right back round⟩
  · rintro ⟨ahead, back⟩
    exact ⟨ahead.to_reflTransGen, back.to_reflTransGen⟩

end Circuit

/-- What a node feeds and is fed by is a circuit, unless there is no such node. -/
theorem Consistent.circuit_of_mem (wf : G.Consistent) (mem : id ∈ G.circuit id) :
    G.Circuit (G.circuit id).toList where
  ascending := (G.circuit id).ascending_toList
  component other inside third := by
    simp only [mem_toList, wf.mem_circuit] at mem inside ⊢
    constructor
    · rintro ⟨ahead, back⟩
      exact ⟨(inside.2.trans ahead).to_reflTransGen, (back.trans inside.1).to_reflTransGen⟩
    · rintro ⟨ahead, back⟩
      exact ⟨inside.1.trans_left ahead, TransGen.trans_right back inside.2⟩
  turns := by
    obtain ⟨ahead, -⟩ := wf.mem_circuit.mp mem
    obtain ⟨next, feeds, led⟩ := TransGen.head'_iff.mp ahead
    by_cases eq : next = id
    · exact .inr ⟨id, mem_toList.mpr mem, eq ▸ feeds⟩
    · -- the next node on the way back to the node is another one of the circuit
      have other : next ∈ G.circuit id := by
        rcases reflTransGen_iff_eq_or_transGen.mp led with stays | led
        · exact (eq stays.symm).elim
        · exact wf.mem_circuit.mpr ⟨.single feeds, led⟩
      left
      rw [length_toList, ← HandleSet.card_members, Finset.one_lt_card]
      exact ⟨next, (HandleSet.mem_members _).mpr other, id, (HandleSet.mem_members _).mpr mem, eq⟩

/-- A circuit is listed when its smallest node is come to. -/
theorem Consistent.mem_circuits (wf : G.Consistent) : nodes ∈ G.circuits members ↔
    G.Circuit nodes ∧ ∃ rest, ∃ first ∈ members, nodes = first :: rest := by
  rw [circuits, mem_filterMap]
  constructor
  · rintro ⟨id, has, mem⟩
    split at mem
    · next first rest got =>
      obtain ⟨eq, picked⟩ := Option.ite_none_right_eq_some.mp mem
      subst eq
      cases picked
      have inside : first ∈ G.circuit first := by
        rw [← mem_toList, got]
        exact (.head _)
      exact ⟨got ▸ wf.circuit_of_mem inside, rest, first, mem_toList.mp has, rfl⟩
    · cases mem
  · rintro ⟨circuit, rest, first, has, rfl⟩
    have whole : (G.circuit first).toList = first :: rest := by
      refine (G.circuit first).ascending_toList.eq_of_mem_iff circuit.ascending fun other => ?_
      rw [mem_toList, wf.mem_circuit, circuit.mem_iff (.head _)]
    refine ⟨first, mem_toList.mpr has, ?_⟩
    rw [whole]
    exact if_pos rfl

private theorem ascending_circuits (members : NodeSet) :
    Ascending (map Handle.raw) (G.circuits members) := by
  refine members.ascending_toList.filterMap _ ?_
  intro first second less nodes mem nodes' mem'
  split at mem
  · split at mem'
    · simp only [Option.ite_none_right_eq_some, Option.some.injEq] at mem mem'
      obtain ⟨rfl, rfl⟩ := mem
      obtain ⟨rfl, rfl⟩ := mem'
      exact cons_lt_cons_iff.mpr (.inl less)
    · cases mem'
  · cases mem

/-! ## What is found in all scopes -/

/-- The problems of a scope are reported. -/
theorem Consistent.reports (wf : G.Consistent)
    (collected : G.members scope = .ok members) (owner : Option NodeId) :
    G.Reports owner scope (G.scopeProblems ⟨owner, members⟩) := by
  have mem_members : ∀ id, id ∈ members ↔ G.Encloses scope id := wf.mem_members collected
  have ahead : ∀ {first second : NodeId}, ReflTransGen G.Precedes first second →
      G.Encloses scope first → G.Encloses scope second := by
    rintro first second led ⟨tip, mem, pre⟩
    exact ⟨tip, mem, pre.trans (led.lift id fun _ _ => .inl)⟩
  refine ⟨members.toList.flatMap G.gapsOf, G.circuits members, ascending_gaps members, ?_,
    ascending_circuits members, ?_, ?_⟩
  · intro gap
    simp only [mem_flatMap, mem_toList, mem_gapsOf, mem_members]
    constructor
    · rintro ⟨id, member, rfl, has⟩
      exact ⟨member, has⟩
    · rintro ⟨member, has⟩
      exact ⟨gap.node, member, rfl, has⟩
  · intro nodes
    rw [wf.mem_circuits]
    constructor
    · rintro ⟨circuit, rest, first, member, rfl⟩
      refine ⟨circuit, fun id inside => ?_⟩
      obtain ⟨led, -⟩ := (circuit.component first (.head _) id).mp inside
      exact ahead led ((mem_members first).mp member)
    · rintro ⟨circuit, inside⟩
      cases nodes with
      | nil => rcases circuit.turns with less | ⟨id, member, -⟩ <;> contradiction
      | cons first rest =>
        exact ⟨circuit, rest, first, (mem_members first).mpr (inside first (.head _)), rfl⟩
  · rw [scopeProblems, map_flatMap, funext (G.portProblems_eq owner)]

private theorem ascending_flowPartsOf (members : NodeSet) :
    Ascending (fun part => part.1.raw) (G.flowPartsOf members) := by
  refine members.ascending_toList.filterMap _ ?_
  intro first second less part mem part' mem'
  split at mem <;> cases mem
  split at mem' <;> cases mem'
  exact less

/-- What the scopes list is what there is to report. -/
theorem Consistent.diagnoses (wf : G.Consistent) {levels : Nat}
    {all : List ScopeMembers} (run : G.scopesWithin levels owner scope = .ok all) :
    G.Diagnoses owner scope (all.flatMap G.scopeProblems) := by
  induction levels generalizing owner scope all with
  | zero => cases run
  | succ levels ih =>
    obtain ⟨members, collected, run⟩ := of_bind run
    obtain ⟨nested, run', ⟨⟩⟩ := of_bind run
    obtain ⟨got, rfl, each⟩ := exists_map_of_mapM run'
    rw [flatMap_cons, ← flatMap_def, flatMap_assoc]
    refine .scope (wf.reports collected owner) (ascending_flowPartsOf members) ?_
      fun part among => ih (each part among)
    rintro ⟨part, inner⟩
    rw [mem_flowPartsOf, wf.mem_members collected]
    refine and_congr Iff.rfl ⟨?_, ?_⟩
    · rintro ⟨node, has, kind⟩
      exact .part has kind
    · intro has
      cases has with
      | part has kind => exact ⟨_, has, kind⟩

end Graph

end Staging
