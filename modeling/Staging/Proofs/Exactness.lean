import Staging.Proofs.Consistency
import Staging.Proofs.Diagnosing
import Staging.Proofs.Validity

/-! # Validation is exact

Unless a flow part lies in itself, validation comes to an end and reports what there is to
report. The sinks that it adds lead to no other nodes, lack no connection and lie on no
circuit. What is reported is the same with and without them, and so a second validation
changes nothing.
-/

namespace Staging

open Std Relation List ExtTreeSet

variable {owner : Option NodeId} {gap : Gap} {nodes : List NodeId} {part : NodeId}
  {outputs : List OutputId} {report : List Diagnostic} {scope : Scope} {first second id : NodeId}

namespace Graph

variable {G graph closed : Graph}

/-! ## Nested scopes -/

/-- The second flow part lies in the scope of the first. -/
def Nests (graph : Graph) (outer inner : NodeId) : Prop :=
  graph.Inside (some outer) inner ∧ ∃ scope, graph.HasScope (some inner) scope

/-- The scopes nested in a scope can be listed, if no flow part around it is among them. -/
theorem Consistent.exists_scopesWithin (wf : G.Consistent) (whole : G.Whole)
    (loopless : ∀ part, ¬ TransGen G.Nests part part) {levels : Nat} (around : List NodeId)
    (has : ∀ tip ∈ scope.endpoints, ∃ node, G.nodes[tip]? = some node) (nodup : around.Nodup)
    (parts : ∀ part ∈ around, ∃ node scope, G.nodes[part]? = some node ∧
      node.kind = .flowPart scope)
    (inside : ∀ outer ∈ around, ∀ inner scope', G.Encloses scope inner →
      G.HasScope (some inner) scope' → TransGen G.Nests outer inner)
    (deep : G.nodes.size < around.length + levels) :
    ∃ all, G.scopesWithin levels owner scope = .ok all := by
  induction levels generalizing owner scope around with
  | zero =>
    have := G.partsAtMost_size around nodup parts
    omega
  | succ levels ih =>
    obtain ⟨members, collected, mem_members⟩ := wf.members_eq_ok has
    have each : ∀ part ∈ G.flowPartsOf members,
        ∃ all, G.scopesWithin levels (some part.1) part.2 = .ok all := by
      rintro ⟨part, inner⟩ among
      obtain ⟨member, node, got, kind⟩ := mem_flowPartsOf.mp among
      have encloses := (mem_members part).mp member
      have has : G.HasScope (some part) inner := .part got kind
      have within : ∀ outer ∈ around, TransGen G.Nests outer part := fun outer mem =>
        inside outer mem part inner encloses has
      refine ih (part :: around) (whole part node inner got kind) ?_ ?_ ?_ ?_
      · exact nodup_cons.mpr ⟨fun again => loopless part (within part again), nodup⟩
      · exact forall_mem_cons.mpr ⟨⟨node, inner, got, kind⟩, parts⟩
      · intro outer mem deeper scope' encloses' has'
        have nests : G.Nests part deeper := ⟨⟨inner, has, encloses'⟩, scope', has'⟩
        rcases mem_cons.mp mem with rfl | mem
        · exact .single nests
        · exact (within outer mem).tail nests
      · rw [length_cons]
        omega
    obtain ⟨nested, run⟩ := exists_mapM each
    exact ⟨_, (bind_of_ok collected).trans (bind_of_ok run)⟩

theorem Founded.exists_scopes (founded : G.Founded) (whole : G.Whole)
    (loopless : ∀ part, ¬ TransGen G.Nests part part) :
    ∃ all, G.scopes = .ok all := by
  have none : ∀ part, part ∉ ([] : List NodeId) := fun _ => not_mem_nil
  refine founded.wf.exists_scopesWithin whole loopless []
    (fun tip mem => founded.exists_endpoint mem) .nil
    (fun part has => (none part has).elim) (fun part has => (none part has).elim) ?_
  rw [length_nil]
  omega

/-- Depths are the same along connections and grow from flow parts to their endpoints. -/
def isLayered (graph : Graph) (depth : NodeId → Nat) : Bool :=
  graph.parts.all (fun (part, scope) => scope.endpoints.all fun id => depth part < depth id) &&
    graph.nodes.toList.all fun (id, _) =>
      (graph.successors id).toList.all fun next => depth id == depth next

/-- No flow part lies in itself if depths grow. -/
theorem Consistent.loopless_of_isLayered (wf : G.Consistent) (depth : NodeId → Nat)
    (layered : G.isLayered depth) (part : NodeId) :
    ¬ TransGen G.Nests part part := by
  simp only [isLayered, Bool.and_eq_true, all_eq_true, beq_iff_eq, Prod.forall,
    decide_eq_true_eq] at layered
  obtain ⟨inner, joined⟩ := layered
  have prec : ∀ {first second}, G.Precedes first second → depth first = depth second := by
    intro first second prec
    obtain ⟨node, got⟩ := wf.precedes_left prec
    exact joined first node ((HandleMap.mem_toList_iff _).mpr got) second
      (mem_toList.mpr (wf.mem_successors.mpr prec))
  have deeper : ∀ outer id, G.Nests outer id → depth outer < depth id := by
    rintro outer id ⟨⟨scope, has, tip, mem, led⟩, -⟩
    have along : depth tip = depth id := by
      induction led with
      | refl => rfl
      | tail _ touches ih =>
        exact ih.trans (touches.elim prec fun back => (prec back).symm)
    cases has with
    | part got kind => exact along ▸ inner outer scope (mem_parts got kind) tip mem
  have grows : ∀ {id}, TransGen G.Nests part id → depth part < depth id := by
    intro id led
    induction led with
    | single nests => exact deeper part _ nests
    | tail _ nests ih => exact ih.trans (deeper _ _ nests)
  exact fun loop => Nat.lt_irrefl _ (grows loop)

/-! ## Valid graphs -/

/-- In the root scope and in all nested scopes each input is connected, and each output
that has to be, and no node feeds itself through others. -/
structure Valid (graph : Graph) : Prop where
  inputs : ∀ id node input, graph.Reached id →
    graph.nodes[id]? = some node → input ∈ node.inputs → ∃ output, graph.Feeds output input
  outputs : ∀ id node output port,
    graph.Reached id → graph.nodes[id]? = some node → output ∈ node.outputs →
    graph.outputs[output]? = some port → port.connectivity = .mandatory →
    ∃ input, graph.Feeds output input
  acyclic : ∀ id, graph.Reached id → ¬ TransGen graph.Precedes id id

/-- Nothing is reported if and only if the graph is valid. -/
theorem Founded.problems_eq_nil_iff (founded : G.Founded) {scopes : List ScopeMembers}
    (run : G.scopes = .ok scopes) :
    scopes.flatMap G.scopeProblems = [] ↔ G.Valid := by
  have wf := founded.wf
  have visited := founded.visited_iff run
  constructor
  · intro none
    have sound : ∀ id node, G.Reached id → G.nodes[id]? = some node →
        (∀ input ∈ node.inputs, ∃ out, G.Feeds out input) ∧
          ∀ out ∈ node.outputs, (∃ input, G.Feeds out input) ∨ G.Dangles out := by
      intro id node reached got
      obtain ⟨entry, among, mem⟩ := mem_flatMap.mp ((visited id).mpr reached)
      have empty := flatMap_eq_nil_iff.mp none entry among
      rw [scopeProblems, append_eq_nil_iff, flatMap_eq_nil_iff] at empty
      exact (wf.portProblems_eq_nil_iff got).mp (empty.1 id mem)
    refine ⟨fun id node input reached got => (sound id node reached got).1 input,
      fun id node out port reached got own has mandatory => ?_,
      fun id has => has.elim fun path => founded.acyclic run none path id⟩
    rcases (sound id node reached got).2 out own with fed | ⟨port', has', -, optional⟩
    · exact fed
    · cases has.symm.trans has'
      cases mandatory.symm.trans optional
  · intro valid
    apply flatMap_eq_nil_iff.mpr
    intro entry among
    have reached : ∀ id ∈ entry.members, G.Reached id := fun id mem =>
      (visited id).mp (mem_flatMap.mpr ⟨entry, among, mem_toList.mpr mem⟩)
    rw [scopeProblems, append_eq_nil_iff, flatMap_eq_nil_iff, map_eq_nil_iff]
    refine ⟨fun id mem => ?_, wf.circuits_eq_nil fun id mem => valid.acyclic id (reached id mem)⟩
    have reached := reached id (mem_toList.mp mem)
    cases got : G.nodes[id]? with
    | none => rw [portProblems, got]
    | some node =>
      refine (wf.portProblems_eq_nil_iff got).mpr
        ⟨fun input => valid.inputs id node input reached got, fun out own => ?_⟩
      obtain ⟨port, has, -⟩ := Option.map_eq_some_iff.mp (wf.output_of_mem got own)
      cases connectivity : port.connectivity with
      | mandatory => exact .inl (valid.outputs id node out port reached got own has
          connectivity)
      | optional =>
        by_cases fed : ∃ input, G.Feeds out input
        · exact .inl fed
        · exact .inr ⟨port, has, (feedless_iff has).mp (not_exists.mp fed), connectivity⟩

/-! ## Sinks change nothing that is reported -/

theorem HasGap.early (wf : G.Consistent) (has : G.HasGap gap) : gap.node.raw < G.next := by
  cases has with
  | input got => exact wf.early got
  | output got => exact wf.early got

theorem Circuit.early (wf : G.Consistent)
    (circuit : G.Circuit nodes) : ∀ id ∈ nodes, id.raw < G.next := by
  intro id mem
  obtain ⟨next, prec, -⟩ := TransGen.head'_iff.mp (circuit.closed mem)
  exact (wf.below_of_precedes prec).1

theorem Founded.early_of_endpoint (founded : G.Founded) :
    ∀ tip ∈ G.root.endpoints, tip.raw < G.next := by
  intro tip mem
  obtain ⟨node, got⟩ := founded.exists_endpoint mem
  exact founded.wf.early got

/-- Flow parts and their endpoints have been created. -/
theorem Founded.early_of_hasScope (founded : G.Founded) (has : G.HasScope (some part) scope) :
    part.raw < G.next ∧ ∀ tip ∈ scope.endpoints, tip.raw < G.next := by
  cases has with
  | part got kind =>
    exact ⟨founded.wf.early got, founded.bounded _ _ _ got kind⟩

namespace Capped

variable (capped : Capped G outputs closed) (wf : G.Consistent)

include capped wf

theorem precedes_old (early : second.raw < G.next) :
    closed.Precedes first second ↔ G.Precedes first second := by
  rw [capped.prec wf, or_iff_left]
  rintro ⟨place, out, -, -, rfl⟩
  exact absurd early (Nat.not_lt.mpr (Nat.le_add_right _ _))

/-- Sinks precede nothing. -/
theorem not_precedes (late : G.next ≤ first.raw) : ¬ closed.Precedes first second := by
  intro prec
  have early : first.raw < G.next := by
    rcases (capped.prec wf first second).mp prec with
      prec | ⟨place, out, -, owned, -⟩
    · exact (wf.below_of_precedes prec).1
    · exact wf.early_of_output owned
  omega

/-- A walk comes to a sink from the node with its output port, and goes back to it. -/
theorem walk {tip : NodeId} (early : tip.raw < G.next) (led : ReflTransGen closed.Touches tip id) :
    id.raw < G.next ∧ ReflTransGen G.Touches tip id ∨
      ∃ place out owner, outputs[place]? = some out ∧
        G.outputOwner? out = some owner ∧ id = G.capAt place ∧
        ReflTransGen G.Touches tip owner := by
  induction led with
  | refl => exact .inl ⟨early, .refl⟩
  | tail _ touches ih =>
    rcases touches with prec | prec
    · rcases ih with ⟨early, led⟩ | ⟨place, out, owner, -, -, rfl, -⟩
      · rcases (capped.prec wf _ _).mp prec with
          prec | ⟨place, out, at', owned, rfl⟩
        · exact .inl ⟨(wf.below_of_precedes prec).2, led.tail (.inl prec)⟩
        · exact .inr ⟨place, out, _, at', owned, rfl, led⟩
      · exact (capped.not_precedes wf (Nat.le_add_right _ _) prec).elim
    · rcases (capped.prec wf _ _).mp prec with
        prec | ⟨place, out, at', owned, eq⟩
      · rcases ih with ⟨early, led⟩ | ⟨place, out, owner, -, -, rfl, -⟩
        · exact .inl ⟨(wf.below_of_precedes prec).1, led.tail (.inr prec)⟩
        · exact absurd (wf.below_of_precedes prec).2 (Nat.not_lt.mpr (Nat.le_add_right _ _))
      · rcases ih with ⟨early, -⟩ | ⟨place', out', owner, at'', owned', eq', led⟩
        · rw [eq] at early
          exact absurd early (Nat.not_lt.mpr (Nat.le_add_right _ _))
        · have places : place = place' := by
            have := congrArg Handle.raw (eq.symm.trans eq')
            simp only [capAt] at this
            omega
          subst places
          cases at'.symm.trans at''
          cases owned.symm.trans owned'
          exact .inl ⟨wf.early_of_output owned, led⟩

theorem encloses_iff (bounded : ∀ tip ∈ scope.endpoints,
      tip.raw < G.next) (early : id.raw < G.next) :
    closed.Encloses scope id ↔ G.Encloses scope id := by
  constructor
  · rintro ⟨tip, mem, led⟩
    rcases capped.walk wf (bounded tip mem) led with
      ⟨-, led⟩ | ⟨place, _, _, -, -, rfl, -⟩
    · exact ⟨tip, mem, led⟩
    · exact absurd early (Nat.not_lt.mpr (Nat.le_add_right _ _))
  · rintro ⟨tip, mem, led⟩
    have kept : ∀ {first second}, G.Precedes first second → closed.Precedes first second :=
      fun prec => (capped.prec wf _ _).mpr (.inl prec)
    exact ⟨tip, mem, led.lift (fun other => other) fun _ _ touches =>
      touches.imp kept kept⟩

theorem hasScope_iff : closed.HasScope (some part) scope ↔ G.HasScope (some part) scope := by
  constructor
  · intro has
    cases has with
    | part got kind => exact .part (capped.part got kind) kind
  · intro has
    cases has with
    | part got kind =>
      have early := wf.early got
      exact .part ((capped.nodes _ early).trans got) kind

/-- A gap is a gap with sinks or without: none of the ports that got a sink has to be
connected. -/
theorem hasGap_iff : closed.HasGap gap ↔ G.HasGap gap := by
  have shut : ∀ {out : OutputId} {port : OutputPort}, closed.outputs[out]? = some port →
      port.connectivity = .mandatory → out ∉ outputs := by
    intro out port got mandatory mem
    obtain ⟨place, at'⟩ := mem_iff_getElem?.mp mem
    obtain ⟨port', got', got'', -⟩ := capped.capped place out at'
    obtain ⟨port'', dangling, -, optional⟩ := capped.dangled out mem
    cases got'.symm.trans dangling
    cases got.symm.trans got''
    cases mandatory.symm.trans optional
  constructor
  · intro has
    cases has with
    | @input id node index input port got at' got' empty =>
      rcases capped.cases got with got | ⟨place, out, cap, has, rfl, rfl⟩
      · have owned := wf.input_of_mem got (mem_of_getElem? at')
        rw [capped.inputs input (wf.inputBelow input id owned)] at got'
        exact .input got at' got' empty
      · -- the port of a sink is connected
        obtain ⟨_, -, -, -, fed⟩ := capped.capped place out has
        cases mem_singleton.mp (mem_of_getElem? at')
        cases got'.symm.trans fed
        exact (HandleSet.singleton_ne_empty _ empty).elim
    | @output id node index out port got at' got' empty mandatory =>
      rw [capped.others out (shut got' mandatory)] at got'
      rcases capped.cases got with got | ⟨_, _, _, -, -, rfl⟩
      · exact .output got at' got' empty mandatory
      · cases at'
  · intro has
    cases has with
    | @input id node index input port got at' got' empty =>
      have owned := wf.input_of_mem got (mem_of_getElem? at')
      exact .input ((capped.nodes id (wf.early got)).trans got) at'
        ((capped.inputs input (wf.inputBelow input id owned)).trans got') empty
    | @output id node index out port got at' got' empty mandatory =>
      have other : out ∉ outputs := by
        intro mem
        obtain ⟨port', got'', -, optional⟩ := capped.dangled out mem
        cases got'.symm.trans got''
        cases mandatory.symm.trans optional
      exact .output ((capped.nodes id (wf.early got)).trans got) at'
        ((capped.others out other).trans got') empty mandatory

/-- Between nodes that were there before, no way leads through sinks. -/
theorem leads_iff (early : second.raw < G.next) :
    ReflTransGen closed.Precedes first second ↔ ReflTransGen G.Precedes first second := by
  constructor
  · intro led
    induction led with
    | refl => exact .refl
    | tail _ prec ih =>
      have prec := (capped.precedes_old wf early).mp prec
      exact (ih (wf.below_of_precedes prec).1).tail prec
  · intro led
    exact led.lift (fun other => other) fun first second prec =>
      (capped.prec wf first second).mpr (.inl prec)

theorem mutual_iff {other : NodeId} (early : id.raw < G.next) :
    ReflTransGen closed.Precedes id other ∧ ReflTransGen closed.Precedes other id ↔
      ReflTransGen G.Precedes id other ∧ ReflTransGen G.Precedes other id := by
  have old : ReflTransGen G.Precedes other id → other.raw < G.next := by
    intro back
    rcases ReflTransGen.cases_head back with eq | ⟨next, prec, -⟩
    · exact eq ▸ early
    · exact (wf.below_of_precedes prec).1
  rw [capped.leads_iff wf early]
  exact and_congr_left fun back => capped.leads_iff wf (old back)

/-- Circuits are the same with sinks and without. -/
theorem circuit_iff : closed.Circuit nodes ↔ G.Circuit nodes := by
  constructor
  · intro circuit
    have early : ∀ id ∈ nodes, id.raw < G.next := by
      intro id mem
      obtain ⟨next, prec, -⟩ := TransGen.head'_iff.mp (circuit.closed mem)
      exact Nat.not_le.mp fun late => capped.not_precedes wf late prec
    refine ⟨circuit.ascending, fun id mem other => (circuit.component id mem other).trans
      (capped.mutual_iff wf (early id mem)), circuit.turns.imp_right ?_⟩
    rintro ⟨id, mem, feeds⟩
    exact ⟨id, mem, (capped.precedes_old wf (early id mem)).mp feeds⟩
  · intro circuit
    have early := circuit.early wf
    refine ⟨circuit.ascending, fun id mem other => (circuit.component id mem other).trans
      (capped.mutual_iff wf (early id mem)).symm, circuit.turns.imp_right ?_⟩
    rintro ⟨id, mem, feeds⟩
    exact ⟨id, mem, (capped.precedes_old wf (early id mem)).mpr feeds⟩

/-- The report about a scope is the same with sinks and without. -/
theorem reports (bounded : ∀ tip ∈ scope.endpoints, tip.raw < G.next)
    (reports : G.Reports owner scope report) : closed.Reports owner scope report := by
  obtain ⟨gaps, circuits, sorted, mem_gaps, ordered, mem_circuits, rfl⟩ := reports
  refine ⟨gaps, circuits, sorted, fun gap => ?_, ordered, fun nodes => ?_, ?_⟩
  · rw [mem_gaps, capped.hasGap_iff wf]
    exact and_congr_left fun has =>
      (capped.encloses_iff wf bounded (has.early wf)).symm
  · rw [mem_circuits, capped.circuit_iff wf]
    refine and_congr_right fun circuit => forall₂_congr fun id member => ?_
    exact (capped.encloses_iff wf bounded (circuit.early wf id member)).symm
  · congr 1
    apply map_congr_left
    intro nodes mem
    have early := ((mem_circuits nodes).mp mem).1.early wf
    have names : (nodes.filterMap fun id => G.nodes[id]?.map Node.name) =
        nodes.filterMap fun id => closed.nodes[id]?.map Node.name := by
      apply filterMap_congr
      intro id member
      rw [capped.nodes id (early id member)]
    rw [circuitProblem, circuitProblem, names]

end Capped

/-- The report about all scopes is the same with sinks and without. -/
theorem Capped.diagnoses (capped : Capped G outputs closed) (founded : G.Founded)
    (bounded : ∀ tip ∈ scope.endpoints, tip.raw < G.next)
    (diagnoses : G.Diagnoses owner scope report) : closed.Diagnoses owner scope report := by
  have wf := founded.wf
  induction diagnoses with
  | scope reports sorted mem_parts _ ih =>
    refine .scope (capped.reports wf bounded reports) sorted (fun part => ?_) fun part mem => ?_
    · rw [mem_parts, capped.hasScope_iff wf]
      exact and_congr_left fun has =>
        (capped.encloses_iff wf bounded (founded.early_of_hasScope has).1).symm
    · exact ih part mem (founded.early_of_hasScope ((mem_parts part).mp mem).2).2

/-! ## A second validation -/

section Second

variable (capped : Capped G outputs closed) (founded : G.Founded)

include capped founded

/-- Sinks are no flow parts, and so lead to no other scopes. -/
theorem Capped.within {path : List NodeId} (within : closed.Within path id)
    (early : id.raw < G.next) : G.Within path id := by
  have wf := founded.wf
  induction within with
  | root mem led =>
    rw [capped.root] at mem
    obtain ⟨tip, mem, led⟩ :=
      (capped.encloses_iff wf founded.early_of_endpoint early).mp ⟨_, mem, led⟩
    exact .root mem led
  | part _ got kind mem led ih =>
    have got := capped.part got kind
    obtain ⟨tip, mem, led⟩ := (capped.encloses_iff wf
      (founded.bounded _ _ _ got kind) early).mp ⟨_, mem, led⟩
    exact .part (ih (wf.early got)) got kind mem led

theorem Capped.nests {outer inner : NodeId} (nests : closed.Nests outer inner) :
    G.Nests outer inner := by
  have wf := founded.wf
  obtain ⟨⟨scope, has, encloses⟩, scope', has'⟩ := nests
  have has := (capped.hasScope_iff wf).mp has
  have has' := (capped.hasScope_iff wf).mp has'
  have encloses := (capped.encloses_iff wf (founded.early_of_hasScope has).2
    (founded.early_of_hasScope has').1).mp encloses
  exact ⟨⟨scope, has, encloses⟩, scope', has'⟩

theorem Capped.founded_closed (wf : closed.Consistent) : closed.Founded := by
  refine founded.of_nodes wf capped.root ?_ (fun id mem => ?_) fun id node got => ?_
  · rw [capped.next]
    exact Nat.le_add_right _ _
  · obtain ⟨node, got⟩ := founded.exists_endpoint mem
    exact capped.nodes id (founded.wf.early got)
  · exact (capped.cases got).imp_right fun ⟨_, _, _, _, _, eq⟩ => eq ▸ rfl

/-- No port is open where all open ones of what can be reached have got sinks. -/
theorem Capped.shut (due : ∀ out, out ∈ outputs ↔
      (∃ id, G.Reached id ∧ G.outputOwner? out = some id) ∧ G.Dangles out)
    {node : Node} {out : OutputId} (reached : closed.Reached id)
    (got : closed.nodes[id]? = some node) (own : out ∈ node.outputs) :
    ¬ closed.Dangles out := by
  rintro ⟨port, has, empty, optional⟩
  by_cases mem : out ∈ outputs
  · obtain ⟨place, at'⟩ := mem_iff_getElem?.mp mem
    obtain ⟨port', -, fed, -⟩ := capped.capped place out at'
    cases has.symm.trans fed
    exact HandleSet.singleton_ne_empty _ empty
  · rcases capped.cases got with got | ⟨_, _, _, -, -, rfl⟩
    · obtain ⟨path, within⟩ := reached
      have within := capped.within founded within (founded.wf.early got)
      rw [capped.others out mem] at has
      exact mem ((due out).mpr
        ⟨⟨id, ⟨path, within⟩, founded.wf.output_of_mem got own⟩, port, has, empty, optional⟩)
    · cases own

end Second

/-- The sinks of a validation change nothing for the next one. -/
theorem Founded.validate_closed (founded : G.Founded) (whole : G.Whole)
    (loopless : ∀ part, ¬ TransGen G.Nests part part) {problems : List Diagnostic}
    (run : G.validate = .ok (problems, closed)) : closed.validate = .ok (problems, closed) := by
  obtain ⟨outputs, capped, due⟩ := founded.closes_of_validate run
  have wf := founded.wf
  have wf' : closed.Consistent := keeps_validate wf run
  have founded' := capped.founded_closed founded wf'
  have whole' : closed.Whole := whole.mono (fun _ _ _ => capped.part) fun id node got =>
    (capped.nodes id (wf.early got)).trans got
  have loopless' : ∀ part, ¬ TransGen closed.Nests part part := fun part loop =>
    loopless part (loop.lift (fun other => other) fun _ _ => capped.nests founded)
  obtain ⟨scopes, ran, eq⟩ := of_bind run
  obtain ⟨scopes', ran'⟩ := founded'.exists_scopes whole' loopless'
  have reports : closed.Diagnoses none G.root (scopes.flatMap G.scopeProblems) :=
    capped.diagnoses founded founded.early_of_endpoint (wf.diagnoses ran)
  have reports' : closed.Diagnoses none G.root (scopes'.flatMap closed.scopeProblems) :=
    capped.root ▸ wf'.diagnoses ran'
  have unchanged : (scopes'.flatMap fun scope => scope.members.toList).foldl closeNode closed =
      closed := by
    refine foldl_keeps (fun rest now => rest ⊆ scopes'.flatMap (fun scope =>
      scope.members.toList) ∧ now = closed) ?_ ⟨Subset.refl _, rfl⟩ |>.2
    rintro id rest _ ⟨within, rfl⟩
    refine ⟨fun _ later => within (.tail _ later), closeNode_eq_self ?_⟩
    intro node got out own
    have reached := (founded'.visited_iff ran' id).mp (within (.head _))
    exact capped.shut founded due reached got own
  rw [Graph.validate, bind_of_ok ran', unchanged, ← reports.unique reports']
  rw [(Prod.mk.inj (Except.ok.inj eq)).1]
  rfl

/-- If no flow part lies in itself, validation reports exactly what there is to report, and
nothing if and only if the graph is valid. Open output ports that need not be connected get
sinks, and a second validation reports the same and changes nothing. -/
theorem validate_exact (built : graph.Built) (loopless : ∀ part, ¬ TransGen graph.Nests part part) :
    ∃ problems closed, graph.validate = .ok (problems, closed) ∧ (problems = [] ↔ graph.Valid) ∧
      (∀ report, graph.Diagnoses none graph.root report ↔ report = problems) ∧
      Closes graph (fun output => (∃ id, graph.Reached id ∧ graph.outputOwner? output = some id) ∧
        graph.Dangles output) closed ∧
      closed.validate = .ok (problems, closed) := by
  have founded := built.founded
  have whole := built.rims.2
  obtain ⟨scopes, run⟩ := founded.exists_scopes whole loopless
  have validated : graph.validate = .ok (scopes.flatMap graph.scopeProblems,
      (scopes.flatMap fun scope => scope.members.toList).foldl closeNode graph) := bind_of_ok run
  have diagnoses := founded.wf.diagnoses run
  refine ⟨_, _, validated, founded.problems_eq_nil_iff run, fun report => ⟨?_, ?_⟩,
    founded.closes_of_validate validated, founded.validate_closed whole loopless validated⟩
  · exact fun other => other.unique diagnoses
  · rintro rfl
    exact diagnoses

/-- Draws a circuit of two operators in a flow part. One of them has an input and a
mandatory output that are not connected, and an open output that need not be. -/
def drawTangled : Except BuildError Graph :=
  drawSealed [wire "y" (.operator .logging) .none,
    { name := "z", kind := .operator .branch,
      inputs := [{ name := "in", dataType := ⟨"T"⟩ }, { name := "aux", dataType := ⟨"T"⟩ }],
      outputs := [{ name := "out", dataType := ⟨"T"⟩ }, { name := "log", dataType := ⟨"T"⟩ },
        { name := "must", dataType := ⟨"T"⟩, connectivity := .mandatory }] }]
    [(⟨14⟩, ⟨17⟩), (⟨17⟩, ⟨20⟩), (⟨20⟩, ⟨17⟩)]

/-- A circuit and unconnected ports in a flow part. -/
def tangled : Graph :=
  drawTangled.toOption.getD {}

private theorem checks_tangled : drawTangled.toOption.isSome ∧
    (tangled.isLayered fun id => if id ∈ [⟨7⟩, ⟨9⟩, ⟨14⟩, ⟨17⟩, ⟨20⟩] then 1 else 0) := by
  decide +kernel

theorem built_tangled : tangled.Built := built_drawNested checks_tangled.1

theorem loopless_tangled (part : NodeId) : ¬ TransGen tangled.Nests part part :=
  built_tangled.founded.wf.loopless_of_isLayered _ checks_tangled.2 part

/-- All three problems are reported, now and again, and the open output is closed. -/
theorem validate_exact_tangled : tangled.Built ∧ (∀ part, ¬ TransGen tangled.Nests part part) ∧
    ∃ closed, tangled.validate = .ok ([⟨some ⟨11⟩, [⟨20⟩], "unconnected input `aux` of `z`"⟩,
          ⟨some ⟨11⟩, [⟨20⟩], "mandatory output `must` of `z` is not connected"⟩,
          ⟨some ⟨11⟩, [⟨17⟩, ⟨20⟩], "circuit detected: y -> z"⟩], closed) ∧
      ¬ tangled.Valid ∧ closed.next = tangled.next + 2 ∧
      closed.validate = tangled.validate := by
  have checked : (tangled.validate.toOption.any fun (problems, closed) =>
      problems = [⟨some ⟨11⟩, [⟨20⟩], "unconnected input `aux` of `z`"⟩,
        ⟨some ⟨11⟩, [⟨20⟩], "mandatory output `must` of `z` is not connected"⟩,
        ⟨some ⟨11⟩, [⟨17⟩, ⟨20⟩], "circuit detected: y -> z"⟩] ∧
      closed.next = tangled.next + 2) = true := by
    decide +kernel
  obtain ⟨problems, closed, run, valid, -, -, again⟩ :=
    validate_exact built_tangled loopless_tangled
  rw [run] at checked
  obtain ⟨rfl, next⟩ := of_decide_eq_true checked
  refine ⟨built_tangled, loopless_tangled, closed, run, fun sound => ?_, next, again.trans run.symm⟩
  cases valid.mpr sound

end Graph

end Staging
