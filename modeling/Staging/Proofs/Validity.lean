import Staging.Proofs.Closing
import Staging.Proofs.Conservation

/-! # Normalization keeps graphs valid

If validation finds no problem, all ports of the nodes in the graph that it leaves are
connected. Normalization opens no port where all were connected, leaves no flow part and
makes no circuit, so that a second validation finds nothing to report and nothing to close.
-/

namespace Staging

open Std Relation List ExtTreeSet

variable {out : OutputId} {owner : Option NodeId} {id : NodeId}

namespace Graph

variable {G graph closed : Graph}

/-! ## What validation finds -/

/-- Nothing feeds a port without connections. -/
theorem Consistent.unfed_iff (wf : G.Consistent) {input : InputId} {port : InputPort}
    (got : G.inputs[input]? = some port) :
    (∀ out, ¬ G.Feeds out input) ↔ port.connected = ∅ := by
  have sources : G.sources input = port.connected := by rw [Graph.sources, got]
  rw [← sources, ← ExtTreeSet.isEmpty_iff, HandleSet.isEmpty_iff]
  simp only [wf.agree]

/-- A port without connections feeds nothing. -/
theorem feedless_iff {port : OutputPort} (got : G.outputs[out]? = some port) :
    (∀ input, ¬ G.Feeds out input) ↔ port.connected = ∅ := by
  have targets : G.targets out = port.connected := by rw [Graph.targets, got]
  rw [← targets, ← ExtTreeSet.isEmpty_iff, HandleSet.isEmpty_iff]
  rfl

/-- The ports of a node are in order if each input is connected, and each output that
has to be. -/
theorem Consistent.portProblems_eq_nil_iff (wf : G.Consistent)
    {node : Node} (got : G.nodes[id]? = some node) :
    G.portProblems owner id = [] ↔ (∀ input ∈ node.inputs, ∃ out, G.Feeds out input) ∧
        ∀ out ∈ node.outputs, (∃ input, G.Feeds out input) ∨ G.Dangles out := by
  simp only [portProblems, got, append_eq_nil_iff, map_eq_nil_iff,
    filter_eq_nil_iff, mem_filterMap, forall_exists_index, and_imp,
    ExtTreeSet.isEmpty_iff, Bool.and_eq_true, beq_iff_eq, not_and]
  constructor
  · rintro ⟨inputs, outputs⟩
    refine ⟨fun input mem => ?_, fun out mem => ?_⟩
    · obtain ⟨port, has, -⟩ := Option.map_eq_some_iff.mp (wf.input_of_mem got mem)
      have fed := inputs port input mem has
      rw [← wf.unfed_iff has] at fed
      exact not_forall_not.mp fed
    · obtain ⟨port, has, -⟩ := Option.map_eq_some_iff.mp (wf.output_of_mem got mem)
      by_cases fed : ∃ input, G.Feeds out input
      · exact .inl fed
      · have empty := (feedless_iff has).mp (not_exists.mp fed)
        refine .inr ⟨port, has, empty, ?_⟩
        cases connectivity : port.connectivity with
        | optional => rfl
        | mandatory => exact (outputs port out mem has empty connectivity).elim
  · rintro ⟨inputs, outputs⟩
    refine ⟨fun port input mem has empty => ?_, fun port out mem has empty mandatory => ?_⟩
    · obtain ⟨out, fed⟩ := inputs input mem
      exact (wf.unfed_iff has).mpr empty out fed
    · rcases outputs out mem with ⟨input, fed⟩ | ⟨port', has', -, optional⟩
      · exact (feedless_iff has).mpr empty input fed
      · cases has.symm.trans has'
        cases mandatory.symm.trans optional

/-- A search for scopes visits nodes that can be reached. -/
theorem Consistent.within_of_scopesWithin (wf : G.Consistent) {levels : Nat}
    {scope : Scope} {all : List ScopeMembers} {path : List NodeId}
    (run : G.scopesWithin levels owner scope = .ok all)
    (inside : ∀ id, (∃ tip ∈ scope.endpoints, ReflTransGen G.Touches tip id) →
      G.Within path id) {entry : ScopeMembers} (has : entry ∈ all)
    (visited : id ∈ entry.members) : G.Reached id := by
  induction levels generalizing owner scope all path with
  | zero => cases run
  | succ levels ih =>
    obtain ⟨members, collected, run⟩ := of_bind run
    obtain ⟨nested, run', ⟨⟩⟩ := of_bind run
    have mem_members := wf.mem_members collected
    rcases mem_cons.mp has with rfl | has
    · exact ⟨path, inside id ((mem_members id).mp visited)⟩
    · obtain ⟨inner, at', has⟩ := mem_flatten.mp has
      obtain ⟨⟨part, inner⟩, among, run''⟩ := exists_of_mem_mapM run' at'
      obtain ⟨among, node, got, kind⟩ := mem_flowPartsOf.mp among
      have deeper : ∀ id, (∃ tip ∈ inner.endpoints,
          ReflTransGen G.Touches tip id) → G.Within (part :: path) id := by
        rintro id ⟨tip, mem, led⟩
        exact .part (inside part ((mem_members part).mp among)) got kind mem led
      exact ih run'' deeper has

/-- Validation visits all nodes that can be reached, and no others. -/
theorem Founded.visited_iff (founded : G.Founded) {scopes : List ScopeMembers}
    (run : G.scopes = .ok scopes) (id : NodeId) :
    id ∈ scopes.flatMap (fun scope => scope.members.toList) ↔ G.Reached id := by
  have wf := founded.wf
  simp only [mem_flatMap, mem_toList]
  constructor
  · rintro ⟨entry, mem, has⟩
    have root : ∀ id, (∃ tip ∈ G.root.endpoints,
        ReflTransGen G.Touches tip id) → G.Within [] id := by
      rintro id ⟨tip, mem, led⟩
      exact .root mem led
    exact wf.within_of_scopesWithin run root mem has
  · rintro ⟨path, within⟩
    obtain ⟨tip, mem, reaches⟩ := within.adjoins
    obtain ⟨members, collected, mem_members⟩ := wf.members_eq_ok fun _ => founded.exists_endpoint
    obtain ⟨entry, mem', has, -⟩ := wf.mem_scopesWithin run collected
      ((mem_members tip).mpr ⟨tip, mem, .refl⟩) reaches
    exact ⟨entry, mem', has⟩

/-- What can be reached has been created. -/
theorem Reached.early (founded : G.Founded) (reached : G.Reached id) : id.raw < G.next := by
  have led : ∀ {first second : NodeId}, first.raw < G.next →
      ReflTransGen G.Touches first second → second.raw < G.next := by
    intro first second early led
    rcases ReflTransGen.cases_tail led with eq | ⟨between, -, prec | prec⟩
    · exact eq ▸ early
    · exact (founded.wf.below_of_precedes prec).2
    · exact (founded.wf.below_of_precedes prec).1
  obtain ⟨path, within⟩ := reached
  cases within with
  | root mem led' =>
    obtain ⟨node, got⟩ := founded.exists_endpoint mem
    exact led (founded.wf.early got) led'
  | part _ got kind mem led' =>
    exact led (founded.bounded _ _ _ got kind _ mem) led'

/-- Validation closes the open outputs of what can be reached. -/
theorem Founded.closes_of_validate (founded : G.Founded) {problems : List Diagnostic}
    (run : G.validate = .ok (problems, closed)) :
    Closes G (fun out => (∃ id, G.Reached id ∧ G.outputOwner? out = some id) ∧
      G.Dangles out) closed := by
  obtain ⟨scopes, run', ⟨⟩⟩ := of_bind run
  have visited := founded.visited_iff run'
  refine (founded.wf.closes fun id mem => ((visited id).mp mem).early founded).congr fun out => ?_
  simp only [visited]

/-! ## The graph that validation leaves -/

/-- Sinks lead to no other scopes: what they are joined with can be reached. -/
theorem Capped.reached_iff {outputs : List OutputId} (capped : Capped G outputs closed)
    (founded : G.Founded) (isolated : G.Isolated)
    (given : ∀ out ∈ outputs, ∀ owner, G.outputOwner? out = some owner →
      G.Reached owner) {first second : NodeId} (joined : closed.Joined first second) :
    (G.next ≤ first.raw ∨ G.Reached first) ↔ (G.next ≤ second.raw ∨ G.Reached second) := by
  have old : ∀ {id other : NodeId}, id.raw < G.next → other.raw < G.next →
      G.Joined id other → ((G.next ≤ id.raw ∨ G.Reached id) ↔
        (G.next ≤ other.raw ∨ G.Reached other)) := by
    intro id other early early' joined
    rw [or_iff_right (Nat.not_le.mpr early), or_iff_right (Nat.not_le.mpr early')]
    exact isolated.reached_iff joined
  have along : ∀ {id other : NodeId}, closed.Precedes id other → ((G.next ≤ id.raw ∨ G.Reached id) ↔
        (G.next ≤ other.raw ∨ G.Reached other)) := by
    intro id other prec
    rcases (capped.prec founded.wf id other).mp prec with
      prec | ⟨place, out, at', owned, rfl⟩
    · obtain ⟨early, early'⟩ := founded.wf.below_of_precedes prec
      exact old early early' (.rel _ _ (.inl (.inl prec)))
    · exact iff_of_true (.inr (given out (mem_of_getElem? at') id owned))
        (.inl (Nat.le_add_right _ _))
  induction joined with
  | rel first second adjoins =>
    rcases adjoins with (prec | prec) | ⟨node, scope, got, kind, mem⟩
    · exact along prec
    · exact (along prec).symm
    · have got' := capped.part got kind
      exact old (founded.wf.early got') (founded.bounded first node scope got' kind second mem)
        (.rel _ _ (.inr ⟨node, scope, got', kind, mem⟩))
  | refl id => exact Iff.rfl
  | symm _ _ _ ih => exact ih.symm
  | trans _ _ _ _ _ ih ih' => exact ih.trans ih'

/-- All ports of the graph are connected that a validation without problems leaves. -/
theorem Founded.tight_of_validate (founded : G.Founded) (isolated : G.Isolated)
    (run : G.validate = .ok ([], closed)) {tip : NodeId}
    (mem : tip ∈ G.root.endpoints) (joined : closed.Joined id tip) :
    ¬ closed.Loose id := by
  have wf := founded.wf
  obtain ⟨outputs, capped, mem_outputs⟩ := founded.closes_of_validate run
  obtain ⟨scopes, run', eq⟩ := of_bind run
  obtain ⟨none, -⟩ := Prod.mk.inj (Except.ok.inj eq)
  have visited := founded.visited_iff run'
  have given : ∀ out ∈ outputs, ∀ owner, G.outputOwner? out = some owner →
      G.Reached owner := by
    intro out has owner owned
    obtain ⟨⟨id, reached, owned'⟩, -⟩ := (mem_outputs out).mp has
    cases owned.symm.trans owned'
    exact reached
  have near := (capped.reached_iff founded isolated given joined).mpr (.inr ⟨[], .root mem .refl⟩)
  rintro ⟨node, got, open'⟩
  rcases capped.cases got with got | ⟨place, out, port, at', rfl, rfl⟩
  · have reached := near.resolve_left (Nat.not_le.mpr (wf.early got))
    obtain ⟨entry, among, has⟩ := mem_flatMap.mp ((visited id).mpr reached)
    have empty := flatMap_eq_nil_iff.mp none entry among
    rw [scopeProblems, append_eq_nil_iff, flatMap_eq_nil_iff] at empty
    obtain ⟨inputs, outputs'⟩ := (wf.portProblems_eq_nil_iff got).mp (empty.1 id has)
    rcases open' with ⟨input, own, unfed⟩ | ⟨out, own, unfed⟩
    · obtain ⟨out, fed⟩ := inputs input own
      exact unfed out ((capped.feeds _ _).mpr (.inl fed))
    · rcases outputs' out own with ⟨input, fed⟩ | dangles
      · exact unfed input ((capped.feeds _ _).mpr (.inl fed))
      · obtain ⟨place, at'⟩ := mem_iff_getElem?.mp ((mem_outputs out).mpr
          ⟨⟨id, reached, wf.output_of_mem got own⟩, dangles⟩)
        exact unfed _ ((capped.feeds _ _).mpr (.inr ⟨place, at', rfl⟩))
  · rcases open' with ⟨input, own, unfed⟩ | ⟨out, own, -⟩
    · rw [mem_singleton.mp own] at unfed
      exact unfed _ ((capped.feeds _ _).mpr (.inr ⟨place, at', rfl⟩))
    · cases own

/-! ## A second validation -/

theorem closeOutput_eq_self (shut : ¬ G.Dangles out) : G.closeOutput out = G := by
  rw [closeOutput]
  split
  · next port got =>
    rw [if_neg]
    intro open'
    simp only [Bool.and_eq_true, beq_iff_eq, ExtTreeSet.isEmpty_iff] at open'
    exact shut ⟨port, got, open'⟩
  · rfl

/-- Nothing is closed where no port is open. -/
theorem closeNode_eq_self (shut : ∀ node, G.nodes[id]? = some node → ∀ out ∈ node.outputs,
    ¬ G.Dangles out) : G.closeNode id = G := by
  rw [closeNode]
  split
  · next node got =>
    refine foldl_keeps (fun rest now => rest ⊆ node.outputs ∧ now = G) ?_ ⟨Subset.refl _, rfl⟩ |>.2
    rintro out rest _ ⟨within, rfl⟩
    exact ⟨fun _ later => within (.tail _ later),
      closeOutput_eq_self (shut node got out (within (.head _)))⟩
  · rfl

theorem Consistent.circuits_eq_nil (wf : G.Consistent) {members : NodeSet}
    (acyclic : ∀ id ∈ members, ¬ TransGen G.Precedes id id) : G.circuits members = [] := by
  rw [circuits, filterMap_eq_nil_iff]
  intro id mem
  cases nodes : (G.circuit id).toList with
  | nil => rfl
  | cons first rest =>
    apply if_neg
    rintro rfl
    have inside : first ∈ G.circuit first := by
      rw [← mem_toList, nodes]
      exact (.head _)
    exact acyclic first (mem_toList.mp mem) (wf.mem_circuit.mp inside).1

/-- A normal graph without open ports is valid as it is. -/
theorem Normal.validate_eq_ok (normal : G.Normal)
    (tight : ∀ id, G.Member id → ¬ G.Loose id) : G.validate = .ok ([], G) := by
  have wf := normal.wf
  obtain ⟨members, collected, mem_members⟩ := normal.rootMembers_eq_ok
  have partless : G.flowPartsOf members = [] := by
    apply eq_nil_iff_forall_not_mem.mpr
    rintro ⟨part, scope⟩ among
    obtain ⟨mem, node, got, kind⟩ := mem_flowPartsOf.mp among
    exact normal.flat part node ((mem_members part).mp mem) got scope kind
  have scopes : G.scopes = .ok [⟨none, members⟩] := by
    have nested : (G.flowPartsOf members).mapM (fun found =>
        G.scopesWithin G.nodes.size (some found.1) found.2) = .ok [] := by
      rw [partless]
      rfl
    exact (bind_of_ok collected).trans (bind_of_ok nested)
  have fed : ∀ id ∈ members, ∀ node, G.nodes[id]? = some node →
      (∀ input ∈ node.inputs, ∃ out, G.Feeds out input) ∧
        ∀ out ∈ node.outputs, ∃ input, G.Feeds out input := by
    intro id mem node got
    have shut := tight id ((mem_members id).mp mem)
    refine ⟨fun input own => ?_, fun out own => ?_⟩ <;> by_contra unfed
    · exact shut ⟨node, got, .inl ⟨input, own, not_exists.mp unfed⟩⟩
    · exact shut ⟨node, got, .inr ⟨out, own, not_exists.mp unfed⟩⟩
  have ports : members.toList.flatMap (G.portProblems none) = [] := by
    apply flatMap_eq_nil_iff.mpr
    intro id mem
    have mem' := mem_toList.mp mem
    obtain ⟨node, got⟩ := normal.exists_node ((mem_members id).mp mem')
    obtain ⟨inputs, outputs⟩ := fed id mem' node got
    exact (wf.portProblems_eq_nil_iff got).mpr ⟨inputs, fun out own => .inl (outputs out own)⟩
  have circuits : G.circuits members = [] := wf.circuits_eq_nil fun id mem =>
    normal.acyclic id ((mem_members id).mp mem)
  have unchanged : members.toList.foldl closeNode G = G := by
    refine foldl_keeps (fun rest now => rest ⊆ members.toList ∧ now = G) ?_
      ⟨Subset.refl _, rfl⟩ |>.2
    rintro id rest _ ⟨within, rfl⟩
    refine ⟨fun _ later => within (.tail _ later), closeNode_eq_self ?_⟩
    intro node got out own dangles
    obtain ⟨input, feeds⟩ := (fed id (mem_toList.mp (within (.head _))) node got).2 out own
    obtain ⟨port, has, empty, -⟩ := dangles
    exact (feedless_iff has).mpr empty input feeds
  rw [Graph.validate, bind_of_ok scopes]
  simp only [flatMap_singleton, scopeProblems, ports, circuits, unchanged]
  rfl

/-- If validation finds no problem, the graph that it leaves can be normalized. -/
theorem Built.exists_normalize (built : G.Built) (isolated : G.Isolated)
    (valid : G.validate = .ok ([], closed)) (mode : FlowPartMode) :
    G.Extends closed ∧ ∃ summary post, closed.normalize mode = .ok (summary, post) ∧
      closed.Conserves post ∧ post.Normal := by
  have founded := built.founded
  obtain ⟨home, nested, extends'⟩ := Nested.of_validate founded isolated valid
  obtain ⟨outputs, capped, -⟩ := founded.closes_of_validate valid
  obtain ⟨rimmed, whole⟩ := built.rims
  replace whole : closed.Whole := whole.mono (fun _ _ _ => capped.part)
    fun id node got => (capped.nodes id (founded.wf.early got)).trans got
  obtain ⟨summary, post, _, run, conserves, done⟩ :=
    nested.exists_normalize (rimmed.of_extends extends') whole mode
  exact ⟨extends', summary, post, run, conserves, done.normal⟩

/-- If validation finds no problem, the graph that it leaves can be normalized, and the
result is valid as it is: all ports that can be reached are connected, there is no
circuit and no flow part, and no sink is missing. -/
theorem normalize_preserves_validity (built : graph.Built) (isolated : graph.Isolated)
    (valid : graph.validate = .ok ([], closed)) (mode : FlowPartMode) :
    ∃ summary after, closed.normalize mode = .ok (summary, after) ∧
      after.validate = .ok ([], after) ∧
      (∀ id, after.Member id → ¬ after.Loose id) ∧
      (∀ id, after.Member id → ¬ TransGen after.Precedes id id) ∧
      ∀ (id : NodeId) (node : Node) (scope : Scope), after.Member id →
        after.nodes[id]? = some node → node.kind ≠ .flowPart scope := by
  have founded := built.founded
  obtain ⟨extends', summary, after, run, conserves, normal⟩ :=
    built.exists_normalize isolated valid mode
  have tight : ∀ id, after.Member id → ¬ after.Loose id := by
    rintro id ⟨tip, mem, led⟩ loose
    rw [conserves.root, extends'.root] at mem
    obtain ⟨node, found⟩ := founded.exists_endpoint mem
    have early := Nat.lt_of_lt_of_le (founded.wf.nodeBelow tip node found) extends'.next
    have joined : after.Joined tip id := by
      apply EqvGen.mono (fun _ _ touches => Or.inl touches)
      exact EqvGen.reflTransGen_le_eqvGen _ _ _ led
    obtain ⟨other, loose', back⟩ := conserves.loose id loose
    exact founded.tight_of_validate isolated valid mem (back tip early joined.symm) loose'
  exact ⟨summary, after, run, normal.validate_eq_ok tight, tight, normal.acyclic,
    fun id node scope member found => normal.flat id node member found scope⟩

/-- Draws an operator with an open output in a flow part. -/
def drawSpilled : Except BuildError Graph :=
  drawSealed [wire "y" (.operator .logging) .none] [(⟨14⟩, ⟨17⟩)]

/-- An operator with an open output in a flow part. -/
def spilled : Graph :=
  drawSpilled.toOption.getD {}

private theorem checks_spilled : drawSpilled.toOption.isSome ∧
    (spilled.isLabelled fun id => if id ∈ [⟨7⟩, ⟨9⟩, ⟨14⟩, ⟨17⟩] then some ⟨11⟩ else none) =
      true := by
  decide +kernel

theorem built_spilled : spilled.Built := built_drawNested checks_spilled.1

theorem isolated_spilled : spilled.Isolated :=
  built_spilled.founded.wf.isolated_of_isLabelled _ checks_spilled.2

/-- The open output is closed before the flow part is inlined, and stays closed. -/
theorem normalize_preserves_validity_spilled : spilled.Built ∧ spilled.Isolated ∧
    ∃ closed summary after, spilled.validate = .ok ([], closed) ∧
      closed.normalize .aggregate = .ok (summary, after) ∧ after.validate = .ok ([], after) ∧
      ∀ id, after.Member id → ¬ after.Loose id := by
  have checked : spilled.validate.toOption.map Prod.fst = some [] := by decide +kernel
  cases run : spilled.validate with
  | ok result =>
    obtain ⟨problems, closed⟩ := result
    rw [run] at checked
    cases checked
    obtain ⟨summary, after, run', valid, tight, -⟩ :=
      normalize_preserves_validity built_spilled isolated_spilled run .aggregate
    exact ⟨built_spilled, isolated_spilled, closed, summary, after, rfl, run', valid, tight⟩
  | error fault =>
    rw [run] at checked
    cases checked

end Graph

end Staging
