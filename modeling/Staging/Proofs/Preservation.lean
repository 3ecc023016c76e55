import Staging.Proofs.Sketches
import Staging.Proofs.Tracing

/-! # What planning keeps

Planning loses no data. The only data that it adds is what shuffles leak: where
a stage boundary and a shuffle feed one port, what goes into the shuffle also
gets to that port past the shuffle. Operators between the inputs and the outputs
of the whole graph are planned unless they are stage boundaries, which the plan
has only at its ends. Merging stages does not change what a plan delivers.
-/

namespace Staging

open Std Relation List

variable {first : NodeId} {planner : Planner} {source working : Graph} {plan : Plan}
  {events : List Event} {G : Graph}

/-! ## Planned sketches -/

namespace Graph

/-- The node is an operator. -/
def isOperator (graph : Graph) (id : NodeId) : Bool :=
  graph.nodes[id]?.any fun node => node.kind matches .operator _

private theorem isOperator_iff {id : NodeId} : G.isOperator id ↔
    ∃ node operator, G.nodes[id]? = some node ∧ node.kind = .operator operator := by
  rw [isOperator, Option.any_eq_true]
  constructor
  · rintro ⟨node, got, operator⟩
    split at operator
    · next kind => exact ⟨node, _, got, kind⟩
    · cases operator
  · rintro ⟨node, operator, got, kind⟩
    exact ⟨node, got, by rw [kind]⟩

/-- An output port of the first node feeds an input port of the second. -/
def isFed (graph : Graph) (first second : NodeId) : Bool :=
  graph.nodes[first]?.any fun one => graph.nodes[second]?.any fun two =>
    one.outputs.any fun out => two.inputs.any fun input => input ∈ graph.targets out

private theorem Consistent.precedes_of_isFed (wf : G.Consistent) {second : NodeId}
    (fed : G.isFed first second) : G.Precedes first second := by
  simp only [isFed, Option.any_eq_true, any_eq_true, decide_eq_true_eq] at fed
  obtain ⟨one, got, two, got', out, own, input, own', feeds⟩ := fed
  exact ⟨out, input, wf.output_of_mem got own, wf.input_of_mem got' own', feeds⟩

/-- Each of the nodes feeds the next one. -/
def isPath (graph : Graph) : List NodeId → Bool
  | first :: second :: rest => graph.isFed first second && graph.isPath (second :: rest)
  | _ => true

private theorem Consistent.leads_of_isPath (wf : G.Consistent) {last : NodeId}
    (between : List NodeId) (path : G.isPath (first :: (between ++ [last]))) :
    TransGen G.Precedes first last := by
  induction between generalizing first with
  | nil =>
    simp only [nil_append, isPath, Bool.and_true] at path
    exact .single (wf.precedes_of_isFed path)
  | cons second rest ih =>
    simp only [cons_append, isPath, Bool.and_eq_true] at path
    exact .head (wf.precedes_of_isFed path.1) (ih path.2)

end Graph

namespace Planner

/-- The graph that is planned, if there is one. -/
def working? (planner : Planner) (source : Graph) : Option Graph :=
  match source.validate with
  | .ok ([], closed) =>
    match closed.normalize planner.options.flowParts with
    | .ok (_, working) => some working
    | .error _ => none
  | _ => none

private theorem working?_eq_some_iff :
    planner.working? source = some working ↔ planner.Works source working := by
  rw [working?, Works]
  constructor
  · intro made
    split at made
    · next closed checked =>
      split at made
      · next summary _ normalized =>
        cases made
        exact ⟨closed, summary, checked, normalized⟩
      · cases made
    · cases made
  · rintro ⟨closed, summary, checked, normalized⟩
    rw [checked]
    simp only [normalized]

private theorem Works.unique {working' : Graph} (works : planner.Works source working)
    (works' : planner.Works source working') : working = working' :=
  Option.mem_unique (working?_eq_some_iff.mpr works) (working?_eq_some_iff.mpr works')

/-- What the planned graph and the plan deliver passes a test. -/
def comparesTraces (planner : Planner) (test : List Trace → List Trace → Bool) (source : Graph)
    (plan : Plan) : Bool :=
  (planner.working? source).any fun working =>
    working.isTraced && plan.isTraced && test working.traces plan.traces

private theorem exists_of_comparesTraces {test : List Trace → List Trace → Bool}
    (compares : planner.comparesTraces test source plan) :
    ∃ working, planner.Works source working ∧ test working.traces plan.traces ∧
      (∀ trace, trace ∈ working.traces ↔ working.Delivers trace) ∧
      ∀ trace, trace ∈ plan.traces ↔ plan.Delivers trace := by
  rw [comparesTraces, Option.any_eq_true] at compares
  obtain ⟨working, made, passed⟩ := compares
  simp only [Bool.and_eq_true] at passed
  exact ⟨working, working?_eq_some_iff.mp made, passed.2,
    fun _ => Graph.mem_traces_iff passed.1.1, fun _ => Plan.mem_traces_iff passed.1.2⟩

/-- What gets from an input of the whole graph to an output, or to an operator with an effect of
its own, gets there in the plan. -/
theorem plan_loses_no_data (built : source.Built) (isolated : source.Isolated)
    (bare : planner.passes = []) (returned : planner.plan source = .ok ⟨events, .ok plan⟩) :
    ∃ working, planner.Works source working ∧ working.root = source.root ∧
      (∀ trace, working.Delivers trace → plan.Delivers trace) ∧
      ∀ trace, working.flow.Traces (· ∈ working.root.inputs) working.Observed trace →
        plan.flow.Traces (· ∈ plan.input.nodes) (plan.Copies · trace.target) trace := by
  obtain ⟨working, origins, works, -, step, holds⟩ := holds_of_plan built isolated bare returned
  exact ⟨working, works, step.root,
    fun trace delivers => holds.delivers_iff.mpr (Graph.traces_leakingFlow delivers),
    fun trace traces => holds.traces (Graph.traces_leakingFlow traces)⟩

set_option maxRecDepth 100000 in
theorem plan_loses_no_data_shuffled : ∃ source events plan working trace,
    ({} : Planner).plan source = .ok ⟨events, .ok plan⟩ ∧ Works {} source working ∧
      trace.visits.length = 3 ∧ working.Delivers trace ∧ plan.Delivers trace := by
  have planned : Sketch.shuffled.plans {} (comparesTraces {} fun traces _ =>
    traces.any fun trace => trace.visits.length == 3) = true := by decide +kernel
  obtain ⟨source, events, plan, -, built, isolated, returned, passed⟩ :=
    Sketch.exists_of_plans planned
  obtain ⟨working, works, long, mem_traces, -⟩ := exists_of_comparesTraces passed
  obtain ⟨working', works', -, keeps, -⟩ := plan_loses_no_data built isolated rfl returned
  obtain rfl := works.unique works'
  obtain ⟨trace, mem, length⟩ := any_eq_true.mp long
  have delivers := (mem_traces trace).mp mem
  exact ⟨source, events, plan, working, trace, returned, works, beq_iff_eq.mp length, delivers,
    keeps trace delivers⟩

/-- Planning invents only the data that shuffles leak. -/
theorem plan_adds_leaks_only (built : source.Built) (isolated : source.Isolated)
    (bare : planner.passes = []) (returned : planner.plan source = .ok ⟨events, .ok plan⟩) :
    ∃ working, planner.Works source working ∧ working.root = source.root ∧ plan.Unstaged ∧
      (∀ trace, plan.Delivers trace ↔ working.LeakDelivers trace) ∧
      ((∀ output input, ¬ working.Leaks output input) →
        ∀ trace, plan.Delivers trace → working.Delivers trace) := by
  obtain ⟨working, origins, works, -, step, holds⟩ := holds_of_plan built isolated bare returned
  refine ⟨working, works, step.root, holds.unstaged, fun trace => holds.delivers_iff,
    fun tight trace delivers => ?_⟩
  exact (holds.delivers_iff.mp delivers).imp rfl
    (fun output input carries => carries.resolve_right (tight output input)) (fun _ _ _ => rfl)
    (fun _ _ _ starts => starts) fun _ _ _ _ stops => stops

set_option maxRecDepth 100000 in
theorem plan_adds_leaks_only_leaking : ∃ source events plan working,
    ({} : Planner).plan source = .ok ⟨events, .ok plan⟩ ∧ Works {} source working ∧
      plan.Unstaged ∧ (∀ trace, plan.Delivers trace ↔ working.LeakDelivers trace) ∧
      ∃ trace, plan.Delivers trace := by
  have planned : Sketch.leaking.plans {} (comparesTraces {} fun _ traces => !traces.isEmpty) =
    true := by decide +kernel
  obtain ⟨source, events, plan, -, built, isolated, returned, passed⟩ :=
    Sketch.exists_of_plans planned
  obtain ⟨-, -, some, -, mem_traces⟩ := exists_of_comparesTraces passed
  obtain ⟨trace, mem⟩ := exists_mem_of_ne_nil plan.traces (by simpa using some)
  obtain ⟨working, works, -, unstaged, delivers, -⟩ :=
    plan_adds_leaks_only built isolated rfl returned
  exact ⟨source, events, plan, working, returned, works, unstaged, delivers, trace,
    (mem_traces trace).mp mem⟩

set_option maxRecDepth 100000 in
/-- Data gets past the shuffle of a sketch. -/
theorem leaking_plan_delivers_more : ∃ source events plan working trace,
    source.Built ∧ source.Isolated ∧ ({} : Planner).plan source = .ok ⟨events, .ok plan⟩ ∧
      Works {} source working ∧ plan.Delivers trace ∧ ¬ working.Delivers trace := by
  have planned : Sketch.leaking.plans {} (comparesTraces {} fun given made =>
    made.any fun trace => !given.contains trace) = true := by decide +kernel
  obtain ⟨source, events, plan, -, built, isolated, returned, passed⟩ :=
    Sketch.exists_of_plans planned
  obtain ⟨working, works, more, mem_given, mem_made⟩ := exists_of_comparesTraces passed
  obtain ⟨trace, mem, new⟩ := any_eq_true.mp more
  refine ⟨source, events, plan, working, trace, built, isolated, returned, works,
    (mem_made trace).mp mem, fun delivers => ?_⟩
  rw [Bool.not_eq_true', ← Bool.not_eq_true, contains_iff_mem] at new
  exact new ((mem_given trace).mpr delivers)

/-- Merging stages does not change what is delivered. -/
theorem plan_merged_delivers_iff {plain : Planner} (built : source.Built)
    (isolated : source.Isolated) (bare : planner.passes = []) (bare' : plain.passes = [])
    (parts : plain.options.flowParts = planner.options.flowParts)
    (keeps : plain.options.compression.enabled = false)
    (returned : planner.plan source = .ok ⟨events, .ok plan⟩) :
    ∃ events' plan', plain.plan source = .ok ⟨events', .ok plan'⟩ ∧
      plan.Unstaged ∧ plan'.Unstaged ∧ ∀ trace, plan.Delivers trace ↔ plan'.Delivers trace := by
  obtain ⟨working, origins, ⟨closed, summary, checked, normalized⟩, normal, -, holds⟩ :=
    holds_of_plan built isolated bare returned
  obtain ⟨events', plan', assembled⟩ := assemble_eq_ok normal
  obtain ⟨origins', holds', -⟩ := holds_of_assemble normal assembled
  obtain ⟨events'', returned'⟩ := (plan_eq_ok_iff bare').mpr
    ⟨working, events', ⟨closed, summary, checked, parts ▸ normalized⟩, keeps ▸ assembled⟩
  exact ⟨events'', plan', returned', holds.unstaged, holds'.unstaged,
    fun trace => holds.delivers_iff.trans holds'.delivers_iff.symm⟩

set_option maxRecDepth 100000 in
theorem plan_merged_delivers_iff_forked : ∃ source events plan,
    ({} : Planner).plan source = .ok ⟨events, .ok plan⟩ ∧ plan.stages.length = 1 ∧ ∃ events' plan',
        ({ options := { compress := some false } } : Planner).plan source =
          .ok ⟨events', .ok plan'⟩ ∧
        plan.Unstaged ∧ plan'.Unstaged ∧
        ∀ trace, plan.Delivers trace ↔ plan'.Delivers trace := by
  have planned : Sketch.forked.plans {} (fun _ plan => plan.stages.length == 1) = true := by
    decide +kernel
  obtain ⟨source, events, plan, -, built, isolated, returned, merged⟩ :=
    Sketch.exists_of_plans planned
  have bare : ({} : Planner).passes = [] := rfl
  exact ⟨source, events, plan, returned, beq_iff_eq.mp merged,
    plan_merged_delivers_iff built isolated bare rfl rfl rfl returned⟩

/-- An operator between an input and an output of the whole graph is planned
unless it is a stage boundary. No stage boundary is planned, and no other operator unless it
is a shuffle or anchored: one without inputs that feeds boundaries only is lost. -/
theorem plan_copies_iff (built : source.Built) (isolated : source.Isolated)
    (bare : planner.passes = []) (returned : planner.plan source = .ok ⟨events, .ok plan⟩) :
    ∃ working, planner.Works source working ∧ working.root = source.root ∧
      ∀ (id : NodeId) (node : Node) (operator : Operator), working.nodes[id]? = some node →
        node.kind = .operator operator →
        ((∃ copy, plan.Copies copy id) → node.isStageBoundary = false ∧
          (node.isBoundary = false → working.Anchored id)) ∧
        ((∃ input ∈ working.root.inputs, TransGen working.Precedes input id) →
          (∃ output ∈ working.root.outputs, TransGen working.Precedes id output) →
          ((∃ copy, plan.Copies copy id) ↔ node.isStageBoundary = false)) := by
  obtain ⟨working, origins, works, normal, step, holds⟩ :=
    holds_of_plan built isolated bare returned
  refine ⟨working, works, step.root, fun id node operator found kind => ?_⟩
  have plain : (∃ copy, plan.Copies copy id) → node.isStageBoundary = false := by
    rintro ⟨copy, copies⟩
    obtain ⟨⟨record, stored⟩, rfl⟩ := holds.copies_iff.mp copies
    by_contra marked
    have stage : working.isStageBoundary (origins.node copy) = true := by
      rw [Graph.isStageBoundary, found, Option.any_some]
      exact Bool.eq_true_of_not_eq_false marked
    rcases mem_append.mp (holds.mem_endpoints stored stage) with mem | mem
    · obtain ⟨node', found', kind', -⟩ := normal.inputs _ mem
      cases found.symm.trans found'
      cases kind.symm.trans kind'
    · obtain ⟨node', found', kind', -⟩ := normal.outputs _ mem
      cases found.symm.trans found'
      cases kind.symm.trans kind'
  refine ⟨fun copied => ⟨plain copied, fun clear => ?_⟩,
    fun fed used => ⟨plain, fun plain => ?_⟩⟩
  · obtain ⟨copy, copies⟩ := copied
    obtain ⟨⟨record, stored⟩, rfl⟩ := holds.copies_iff.mp copies
    exact holds.anchored stored (by rw [Graph.isBoundary, found, Option.any_some, clear])
  · obtain ⟨input, starts, before⟩ := fed
    obtain ⟨output, stops, behind⟩ := used
    have loud : node.isSilent = false := by
      simp [Node.isSilent, plain, Node.isIdentity, Node.isPseudo, kind]
    obtain ⟨trace, delivers, visit, visited, rfl⟩ :=
      normal.wf.exists_visit starts before found loud behind stops
    exact holds.exists_copy (holds.delivers_iff.mpr (Graph.traces_leakingFlow delivers)) visited

set_option maxRecDepth 100000 in
theorem plan_copies_iff_shuffled : ∃ source events plan copy,
    ({} : Planner).plan source = .ok ⟨events, .ok plan⟩ ∧ plan.Copies copy ⟨8⟩ := by
  have planned : Sketch.shuffled.plans {} (fun source _ => (working? {} source).any fun working =>
    working.isOperator ⟨8⟩ && !working.isStageBoundary ⟨8⟩ &&
      working.root.inputs.contains ⟨0⟩ && working.root.outputs.contains ⟨11⟩ &&
      working.isPath [⟨0⟩, ⟨2⟩, ⟨5⟩, ⟨13⟩, ⟨8⟩] && working.isPath [⟨8⟩, ⟨11⟩]) = true := by
    decide +kernel
  obtain ⟨source, events, plan, -, built, isolated, returned, passed⟩ :=
    Sketch.exists_of_plans planned
  obtain ⟨working, made, passed⟩ := (Option.any_eq_true _ _).mp passed
  simp only [Bool.and_eq_true, contains_iff_mem, Bool.not_eq_true'] at passed
  obtain ⟨⟨⟨⟨⟨operator, plain⟩, input⟩, output⟩, before⟩, behind⟩ := passed
  obtain ⟨working', works, -, copied⟩ := plan_copies_iff built isolated rfl returned
  obtain rfl := (working?_eq_some_iff.mp made).unique works
  have wf := (works.normal built isolated).1.wf
  obtain ⟨node, kind, found, operator⟩ := Graph.isOperator_iff.mp operator
  rw [Graph.isStageBoundary, found] at plain
  obtain ⟨copy, copies⟩ := ((copied ⟨8⟩ node kind found operator).2
    ⟨⟨0⟩, input, wf.leads_of_isPath [⟨2⟩, ⟨5⟩, ⟨13⟩] before⟩
    ⟨⟨11⟩, output, wf.leads_of_isPath [] behind⟩).mpr plain
  exact ⟨source, events, plan, copy, returned, copies⟩

set_option maxRecDepth 100000 in
/-- An operator that is a stage boundary is lost. -/
theorem staged_operator_not_planned : ∃ source events plan id,
    source.Built ∧ source.Isolated ∧ ({} : Planner).plan source = .ok ⟨events, .ok plan⟩ ∧
      source.isOperator id = true ∧ (∃ input ∈ source.root.inputs, source.Precedes input id) ∧
      (∃ output ∈ source.root.outputs, source.Precedes id output) ∧
      ∀ copy, ¬ plan.Copies copy id := by
  have planned : Sketch.staged.plans {} (fun source plan => source.isOperator ⟨2⟩ &&
    source.root.inputs.contains ⟨0⟩ && source.root.outputs.contains ⟨5⟩ &&
      source.isFed ⟨0⟩ ⟨2⟩ && source.isFed ⟨2⟩ ⟨5⟩ && plan.blocks.all fun block =>
        block.origins.toList.all fun entry => entry.2 != ⟨2⟩) = true := by decide +kernel
  obtain ⟨source, events, plan, -, built, isolated, returned, passed⟩ :=
    Sketch.exists_of_plans planned
  simp only [Bool.and_eq_true, contains_iff_mem, all_eq_true, bne_iff_ne] at passed
  obtain ⟨⟨⟨⟨⟨operator, input⟩, output⟩, one⟩, two⟩, lost⟩ := passed
  have wf := built.founded.wf
  refine ⟨source, events, plan, ⟨2⟩, built, isolated, returned, operator,
    ⟨⟨0⟩, input, wf.precedes_of_isFed one⟩,
    ⟨⟨5⟩, output, wf.precedes_of_isFed two⟩, ?_⟩
  rintro copy ⟨block, mem, -, known⟩
  exact lost block mem (copy, ⟨2⟩) ((HandleMap.mem_toList_iff _).mpr known) rfl

end Planner

end Staging
