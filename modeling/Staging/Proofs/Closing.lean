import Staging.Proofs.Validating

/-! # Sinks behind open outputs

Validation goes through the nodes of all scopes and puts a sink behind each output port that
is open and may be. The sinks get the next handles, two for each: one for the node and one
for its port. Nothing else changes.
-/

namespace Staging

open Std List HandleMap

variable {outputs : List OutputId} {id : NodeId} {ids : List NodeId}

namespace Graph

variable {G pre now post : Graph}

/-- The output port is not connected, and need not be. -/
def Dangles (graph : Graph) (out : OutputId) : Prop :=
  ∃ port, graph.outputs[out]? = some port ∧ port.connected = ∅ ∧ port.connectivity = .optional

/-- The sink that ends an output port. -/
def cap (graph : Graph) (port : OutputPort) (input : InputId) : Node :=
  { name := graph.portName port.owner port.name ++ "-sink", kind := .pseudo .implicitSink,
    boundary := .none, observation := .dontCare, inputs := [input], outputs := [] }

/-- The handle of the sink that is made at the given place. -/
def capAt (graph : Graph) (place : Nat) : NodeId :=
  ⟨graph.next + 2 * place⟩

/-- The handle of its port. -/
def capInput (graph : Graph) (place : Nat) : InputId :=
  ⟨graph.next + 2 * place + 1⟩

/-- Each of the listed output ports was open and has got a sink of its own. All else is
as it was. -/
structure Capped (pre : Graph) (outputs : List OutputId) (post : Graph) : Prop where
  nodup : outputs.Nodup
  dangled : ∀ output ∈ outputs, pre.Dangles output
  next : post.next = pre.next + 2 * outputs.length
  root : post.root = pre.root
  nodes : ∀ id : NodeId, id.raw < pre.next → post.nodes[id]? = pre.nodes[id]?
  inputs : ∀ port : InputId, port.raw < pre.next → post.inputs[port]? = pre.inputs[port]?
  others : ∀ port, port ∉ outputs → post.outputs[port]? = pre.outputs[port]?
  capped : ∀ place output, outputs[place]? = some output →
    ∃ port, pre.outputs[output]? = some port ∧
      post.outputs[output]? = some { port with connected := {pre.capInput place} } ∧
      post.nodes[pre.capAt place]? = some (pre.cap port (pre.capInput place)) ∧
      post.inputs[pre.capInput place]? = some
        { owner := pre.capAt place, name := "in", dataType := port.dataType, key := none,
          connected := {output} }
  onlyNodes : ∀ id node, pre.next ≤ id.raw → post.nodes[id]? = some node →
    ∃ place < outputs.length, id = pre.capAt place
  onlyInputs : ∀ port record, pre.next ≤ port.raw →
    post.inputs[port]? = some record → ∃ place < outputs.length, port = pre.capInput place

/-! ## One sink -/

section Sink

variable (G) (out : OutputId) (port : OutputPort)

theorem nodes_insertSink (id : NodeId) : (G.insertSink out port).2.nodes[id]? =
    if id = ⟨G.next⟩ then some (G.cap port ⟨G.next + 1⟩) else G.nodes[id]? :=
  create_nodes G _ id

theorem inputs_insertSink (input : InputId) : (G.insertSink out port).2.inputs[input]? =
    if input = ⟨G.next + 1⟩ then some
      { owner := ⟨G.next⟩, name := "in", dataType := port.dataType, key := none,
        connected := {out} }
    else G.inputs[input]? := by
  change ((G.inputs.insertMany [((⟨G.next + 1⟩ : InputId), _)]).modify _ _)[input]? = _
  rw [HandleMap.getElem?_modify]
  by_cases new : input = ⟨G.next + 1⟩
  · subst new
    rw [if_pos rfl, if_pos rfl, getElem?_insertMany_of_mem _ (by simp) (mem_singleton.mpr rfl)]
    rfl
  · rw [if_neg (Ne.symm new), if_neg new, getElem?_insertMany_of_not_mem _ (by simpa)]

theorem outputs_insertSink (other : OutputId) : (G.insertSink out port).2.outputs[other]? =
    if other = out then G.outputs[other]?.map fun port =>
      { port with connected := port.connected.insert ⟨G.next + 1⟩ }
    else G.outputs[other]? := by
  change ((G.outputs.insertMany ([] : List (OutputId × OutputPort))).modify _ _)[other]? = _
  rw [HandleMap.getElem?_modify, getElem?_insertMany_of_not_mem _ not_mem_nil]
  simp only [eq_comm]

end Sink

/-! ## One after the other -/

theorem capped_nil (wf : G.Consistent) : Capped G [] G where
  nodup := .nil
  dangled := by simp
  next := rfl
  root := rfl
  nodes _ _ := rfl
  inputs _ _ := rfl
  others _ _ := rfl
  capped _ _ mem := by cases mem
  onlyNodes id node late got := (Nat.not_lt.mpr late (wf.early got)).elim
  onlyInputs port record late got := by
    have owned : G.inputOwner? port = some record.owner := by
      rw [inputOwner?, got]
      rfl
    exact (Nat.not_lt.mpr late (wf.inputBelow port _ owned)).elim

/-- One sink more. -/
theorem Capped.step (capped : Capped pre outputs now)
    (wf : pre.Consistent) {out : OutputId} {port : OutputPort}
    (fresh : out ∉ outputs) (got : now.outputs[out]? = some port)
    (empty : port.connected = ∅) (optional : port.connectivity = .optional) :
    Capped pre (outputs ++ [out]) (now.insertSink out port).2 := by
  have next := capped.next
  have here : (⟨now.next⟩ : NodeId) = pre.capAt outputs.length := by
    rw [next]
    rfl
  have here' : (⟨now.next + 1⟩ : InputId) = pre.capInput outputs.length := by
    rw [next]
    rfl
  have got' : pre.outputs[out]? = some port := by
    rw [← capped.others out fresh, got]
  have owned : pre.outputOwner? out = some port.owner := by
    rw [outputOwner?, got']
    rfl
  have eq : now.cap port (pre.capInput outputs.length) =
      pre.cap port (pre.capInput outputs.length) := by
    rw [cap, cap, portName, portName, capped.nodes _ (wf.early_of_output owned)]
  refine ⟨?_, fun other mem => ?_, ?_, capped.root, fun id early => ?_, fun input early => ?_, fun
    other outer => ?_,
    fun place other at' => ?_, fun id node late there => ?_, fun input record late there => ?_⟩
  · refine nodup_append.mpr ⟨capped.nodup, nodup_singleton _, ?_⟩
    rintro other member _ last rfl
    exact fresh (mem_singleton.mp last ▸ member)
  · rcases mem_append.mp mem with mem | last
    · exact capped.dangled other mem
    · rw [mem_singleton.mp last]
      exact ⟨port, got', empty, optional⟩
  · rw [length_append, length_singleton]
    change now.next + 2 = _
    omega
  · rw [nodes_insertSink, if_neg, capped.nodes id early]
    rintro rfl
    simp only at early
    omega
  · rw [inputs_insertSink, if_neg, capped.inputs input early]
    rintro rfl
    simp only at early
    omega
  · rw [mem_append, mem_singleton, not_or] at outer
    rw [outputs_insertSink, if_neg outer.2, capped.others other outer.1]
  · rcases getElem?_concat_eq_some.mp at' with mem | ⟨rfl, rfl⟩
    · obtain ⟨port', got'', got₁, got₂, got₃⟩ := capped.capped place other mem
      have inside := (List.getElem?_eq_some_iff.mp mem).1
      refine ⟨port', got'', ?_, ?_, ?_⟩
      · rw [outputs_insertSink, if_neg, got₁]
        rintro rfl
        exact fresh (mem_of_getElem? mem)
      · rw [nodes_insertSink, here, if_neg, got₂]
        simp only [capAt, Handle.mk.injEq]
        omega
      · rw [inputs_insertSink, here', if_neg, got₃]
        simp only [capInput, Handle.mk.injEq]
        omega
    · refine ⟨port, got', ?_, ?_, ?_⟩
      · rw [outputs_insertSink, if_pos rfl, got, here', Option.map_some, empty]
        rfl
      · rw [nodes_insertSink, here, here', if_pos rfl, eq]
      · rw [inputs_insertSink, here, here', if_pos rfl]
  · rw [length_append, length_singleton]
    rw [nodes_insertSink] at there
    split at there
    · next new => exact ⟨outputs.length, Nat.lt_succ_self _, new.trans here⟩
    · obtain ⟨place, inside, eq⟩ := capped.onlyNodes id node late there
      exact ⟨place, Nat.lt_succ_of_lt inside, eq⟩
  · rw [length_append, length_singleton]
    rw [inputs_insertSink] at there
    split at there
    · next new => exact ⟨outputs.length, Nat.lt_succ_self _, new.trans here'⟩
    · obtain ⟨place, inside, eq⟩ := capped.onlyInputs input record late there
      exact ⟨place, Nat.lt_succ_of_lt inside, eq⟩

/-- The output ports that are due, and no others, have got a sink each. -/
def Closes (pre : Graph) (due : OutputId → Prop) (post : Graph) : Prop :=
  ∃ outputs, Capped pre outputs post ∧ ∀ out, out ∈ outputs ↔ due out

namespace Closes

variable {due : OutputId → Prop}

theorem congr {due' : OutputId → Prop} (closes : Closes pre due post)
    (eq : ∀ out, due out ↔ due' out) : Closes pre due' post := by
  obtain ⟨outputs, capped, mem_outputs⟩ := closes
  exact ⟨outputs, capped, fun out => (mem_outputs out).trans (eq out)⟩

variable (wf : pre.Consistent)

include wf

/-- A port is only closed if it has no sink yet. -/
theorem closeOutput (closes : Closes pre due now) (out : OutputId) :
    Closes pre (fun other => due other ∨ other = out ∧ pre.Dangles other)
      (now.closeOutput out) := by
  obtain ⟨outputs, capped, mem_outputs⟩ := closes
  -- nothing is due that has no sink yet
  have idle : (pre.Dangles out → out ∈ outputs) →
      Closes pre (fun other => due other ∨ other = out ∧ pre.Dangles other) now := by
    intro done
    refine ⟨outputs, capped, fun other => ?_⟩
    rw [mem_outputs]
    refine ⟨.inl, ?_⟩
    rintro (due | ⟨rfl, dangles⟩)
    · exact due
    · exact (mem_outputs other).mp (done dangles)
  by_cases done : out ∈ outputs
  · obtain ⟨place, mem⟩ := mem_iff_getElem?.mp done
    obtain ⟨port, -, got, -⟩ := capped.capped place out mem
    rw [Graph.closeOutput, got]
    simp only
    rw [if_neg (by simp)]
    exact idle fun _ => done
  have eq := capped.others out done
  rw [Graph.closeOutput]
  split
  · next port got =>
    split
    · next open' =>
      simp only [Bool.and_eq_true, beq_iff_eq, ExtTreeSet.isEmpty_iff] at open'
      refine ⟨outputs ++ [out], capped.step wf done got open'.1 open'.2, fun other => ?_⟩
      rw [mem_append, mem_singleton, mem_outputs]
      refine or_congr_right ⟨?_, And.left⟩
      rintro rfl
      exact ⟨rfl, port, eq.symm.trans got, open'⟩
    · next shut =>
      apply idle
      rintro ⟨port', got', empty, optional⟩
      cases (eq.trans got').symm.trans got
      exact (shut (by simp [empty, optional])).elim
  · next missing =>
    apply idle
    rintro ⟨port', got', -⟩
    cases (eq.trans got').symm.trans missing

theorem closeOutputs (closes : Closes pre due now) (outputs : List OutputId) :
    Closes pre (fun other => due other ∨ other ∈ outputs ∧ pre.Dangles other)
      (outputs.foldl Graph.closeOutput now) := by
  induction outputs generalizing now due with
  | nil => exact closes.congr (by simp)
  | cons first rest ih =>
    refine (ih (closes.closeOutput wf first)).congr fun other => ?_
    rw [mem_cons, or_assoc, or_and_right]

/-- All open ports of a node are closed. -/
theorem closeNode (closes : Closes pre due now) (early : id.raw < pre.next) :
    Closes pre (fun other => due other ∨ pre.outputOwner? other = some id ∧
      pre.Dangles other) (now.closeNode id) := by
  have nodes : now.nodes[id]? = pre.nodes[id]? := by
    obtain ⟨outputs, capped, -⟩ := closes
    exact capped.nodes id early
  rw [Graph.closeNode, nodes]
  cases got : pre.nodes[id]? with
  | some node =>
    refine (closes.closeOutputs wf node.outputs).congr fun other => ?_
    rw [wf.mem_outputs_iff got]
  | none =>
    refine closes.congr fun other => ⟨.inl, ?_⟩
    rintro (due | ⟨owned, -⟩)
    · exact due
    · obtain ⟨node, got', -⟩ := wf.node_of_output owned
      cases got.symm.trans got'

/-- The open ports of all listed nodes are closed, also if nodes are listed again. -/
theorem closeNodes (closes : Closes pre due now) (early : ∀ id ∈ ids, id.raw < pre.next) :
    Closes pre (fun other => due other ∨ (∃ id ∈ ids, pre.outputOwner? other = some id) ∧
      pre.Dangles other) (ids.foldl Graph.closeNode now) := by
  induction ids generalizing now due with
  | nil => exact closes.congr (by simp)
  | cons first rest ih =>
    refine (ih (closes.closeNode wf (early first (.head _)))
      fun id later => early id (.tail _ later)).congr fun other => ?_
    rw [or_assoc, ← or_and_right, exists_mem_cons_iff]

end Closes

/-- What closing the open ports of the listed nodes does. -/
theorem Consistent.closes (wf : G.Consistent) (early : ∀ id ∈ ids, id.raw < G.next) :
    Closes G (fun out => (∃ id ∈ ids, G.outputOwner? out = some id) ∧
      G.Dangles out) (ids.foldl closeNode G) := by
  have start : Closes G (fun _ => False) G := ⟨[], capped_nil wf, by simp⟩
  exact (start.closeNodes wf early).congr (by simp)

/-! ## Connections -/

namespace Capped

variable (capped : Capped pre outputs post)

include capped

/-- A node was there before, or is a sink. -/
theorem cases {node : Node} (got : post.nodes[id]? = some node) :
    pre.nodes[id]? = some node ∨ ∃ place out port, outputs[place]? = some out ∧
      id = pre.capAt place ∧ node = pre.cap port (pre.capInput place) := by
  by_cases early : id.raw < pre.next
  · exact .inl ((capped.nodes id early).symm.trans got)
  · obtain ⟨place, inside, rfl⟩ := capped.onlyNodes id node (Nat.not_lt.mp early) got
    have at' := getElem?_eq_getElem inside
    obtain ⟨port, -, -, got', -⟩ := capped.capped place _ at'
    exact .inr ⟨place, _, port, at', rfl, Option.some.inj (got.symm.trans got')⟩

/-- No sink is a flow part. -/
theorem part {node : Node} {scope : Scope} (got : post.nodes[id]? = some node)
    (kind : node.kind = .flowPart scope) : pre.nodes[id]? = some node := by
  rcases capped.cases got with old | ⟨_, _, _, -, -, rfl⟩
  · exact old
  · cases kind

theorem outputOwner (out : OutputId) : post.outputOwner? out = pre.outputOwner? out := by
  rw [outputOwner?, outputOwner?]
  by_cases mem : out ∈ outputs
  · obtain ⟨place, at'⟩ := mem_iff_getElem?.mp mem
    obtain ⟨port, got, got', -⟩ := capped.capped place out at'
    rw [got, got']
    rfl
  · rw [capped.others out mem]

theorem inputOwner_old {input : InputId} (early : input.raw < pre.next) :
    post.inputOwner? input = pre.inputOwner? input := by
  rw [inputOwner?, inputOwner?, capped.inputs input early]

theorem inputOwner_cap {place : Nat} (inside : place < outputs.length) :
    post.inputOwner? (pre.capInput place) = some (pre.capAt place) := by
  obtain ⟨port, -, -, -, got⟩ := capped.capped place outputs[place] (getElem?_eq_getElem inside)
  rw [inputOwner?, got]
  rfl

/-- The listed ports feed their sinks, and all others what they fed. -/
theorem feeds (out : OutputId) (input : InputId) : post.Feeds out input ↔ pre.Feeds out input ∨
    ∃ place, outputs[place]? = some out ∧ input = pre.capInput place := by
  rw [Feeds, Feeds, targets, targets]
  by_cases mem : out ∈ outputs
  · obtain ⟨place, at'⟩ := mem_iff_getElem?.mp mem
    obtain ⟨port, got, got', -⟩ := capped.capped place out at'
    obtain ⟨port', got'', empty, -⟩ := capped.dangled out mem
    cases got.symm.trans got''
    rw [got, got']
    simp only [empty]
    refine (HandleSet.mem_insert_iff ∅).trans (or_comm.trans (or_congr_right ⟨?_, ?_⟩))
    · rintro rfl
      exact ⟨place, at', rfl⟩
    · rintro ⟨place', at'', rfl⟩
      have inside := (List.getElem?_eq_some_iff.mp at').1
      rw [(getElem?_inj inside capped.nodup).mp (at'.trans at''.symm)]
  · rw [capped.others out mem]
    refine ⟨.inl, ?_⟩
    rintro (fed | ⟨place, at', -⟩)
    · exact fed
    · exact (mem (mem_of_getElem? at')).elim

/-- Only the nodes with the listed ports precede the sinks. -/
theorem prec (wf : pre.Consistent) (first second : NodeId) :
    post.Precedes first second ↔ pre.Precedes first second ∨
      ∃ place out, outputs[place]? = some out ∧ pre.outputOwner? out = some first ∧
        second = pre.capAt place := by
  constructor
  · rintro ⟨out, input, given, taken, fed⟩
    rw [capped.outputOwner] at given
    rcases (capped.feeds out input).mp fed with fed | ⟨place, at', rfl⟩
    · obtain ⟨taker, taken'⟩ := wf.exists_inputOwner fed
      rw [capped.inputOwner_old (wf.inputBelow input taker taken')] at taken
      exact .inl ⟨out, input, given, taken, fed⟩
    · rw [capped.inputOwner_cap (List.getElem?_eq_some_iff.mp at').1] at taken
      exact .inr ⟨place, out, at', given, (Option.some.inj taken).symm⟩
  · rintro (⟨out, input, given, taken, fed⟩ | ⟨place, out, at', given, rfl⟩)
    · refine ⟨out, input, (capped.outputOwner out).trans given, ?_,
        (capped.feeds out input).mpr (.inl fed)⟩
      rw [capped.inputOwner_old (wf.inputBelow input second taken), taken]
    · exact ⟨out, pre.capInput place, (capped.outputOwner out).trans given,
        capped.inputOwner_cap (List.getElem?_eq_some_iff.mp at').1,
        (capped.feeds _ _).mpr (.inr ⟨place, at', rfl⟩)⟩

end Capped

end Graph

end Staging
