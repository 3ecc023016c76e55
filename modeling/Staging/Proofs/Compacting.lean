import Staging.Proofs.Arrangement

/-! # Block ports that are taken out

Compaction takes out block ports that repeat others or have no link. The others
wrap what they wrapped, and links lead between the same ports as before.
-/

namespace Staging

open Std Relation List ExtTreeSet HandleSet

variable {B : Placed} {entry : BlockInputId} {block : BlockId} {exit : BlockOutputId}
  {id : NodeId} {site : Site} {blocks : List Block}

namespace Placed

/-! ## Block ports -/

/-- Removing block ports erases them and leaves them out of the lists of the block. -/
theorem removePorts_eq (B : Placed) (entries : List BlockInputId)
    (exits : List BlockOutputId) : B.removePorts entries exits =
      { B with
        wiring := exits.foldl Wiring.eraseOutput (entries.foldl Wiring.eraseInput B.wiring)
        block := { B.block with
          inputs := B.block.inputs.filter fun entry => entry ∉ entries
          outputs := B.block.outputs.filter fun exit => exit ∉ exits } } := by
  have entered : ∀ B : Placed, entries.foldl removeInput B =
      { B with
        wiring := entries.foldl Wiring.eraseInput B.wiring
        block := { B.block with
          inputs := B.block.inputs.filter fun entry => entry ∉ entries } } := by
    induction entries with
    | nil => simp
    | cons first rest ih =>
      intro B
      rw [foldl_cons, ih, removeInput]
      simp [filter_filter, Bool.and_comm]
  have left : ∀ B : Placed, exits.foldl removeOutput B =
      { B with
        wiring := exits.foldl Wiring.eraseOutput B.wiring
        block := { B.block with
          outputs := B.block.outputs.filter fun exit => exit ∉ exits } } := by
    induction exits with
    | nil => simp
    | cons first rest ih =>
      intro B
      rw [foldl_cons, ih, removeOutput]
      simp [filter_filter, Bool.and_comm]
  rw [removePorts, entered, left]

section Removed

variable (wf : B.wiring.Consistent) {entries : List BlockInputId} {exits : List BlockOutputId}

include wf

theorem entryOf_removePorts (entry : BlockInputId) :
    (B.removePorts entries exits).wiring.entryOf entry =
      if entry ∈ entries then none else B.wiring.entryOf entry := by
  obtain ⟨wf', -, entryOf, -⟩ := Wiring.eraseInputs_spec wf entries
  obtain ⟨-, -, entryOf', -⟩ := Wiring.eraseOutputs_spec wf' exits
  rw [removePorts_eq, entryOf', entryOf]

theorem exitOf_removePorts (exit : BlockOutputId) :
    (B.removePorts entries exits).wiring.exitOf exit =
      if exit ∈ exits then none else B.wiring.exitOf exit := by
  obtain ⟨wf', -, -, exitOf, -⟩ := Wiring.eraseInputs_spec wf entries
  obtain ⟨-, -, -, exitOf', -⟩ := Wiring.eraseOutputs_spec wf' exits
  rw [removePorts_eq, exitOf', exitOf]

theorem linked_removePorts (exit : BlockOutputId) (entry : BlockInputId) :
    (B.removePorts entries exits).wiring.Linked exit entry ↔
      B.wiring.Linked exit entry ∧ exit ∉ exits ∧ entry ∉ entries := by
  obtain ⟨wf', -, -, -, linked⟩ := Wiring.eraseInputs_spec wf entries
  obtain ⟨-, -, -, -, linked'⟩ := Wiring.eraseOutputs_spec wf' exits
  rw [removePorts_eq, linked', linked, and_assoc, and_comm (a := entry ∉ entries)]

/-- What is connected when block ports are removed. -/
theorem connects_removePorts {left : BlockId × OutputId} {right : BlockId × InputId} :
    (B.removePorts entries exits).wiring.Connects left right ↔
      ∃ exit entry, B.wiring.exitOf exit = some left ∧
        B.wiring.entryOf entry = some right ∧ B.wiring.Linked exit entry ∧
        exit ∉ exits ∧ entry ∉ entries := by
  refine exists_congr fun exit => exists_congr fun entry => ?_
  rw [entryOf_removePorts wf, exitOf_removePorts wf, linked_removePorts wf,
    Option.ite_none_left_eq_some, Option.ite_none_left_eq_some]
  tauto

/-- Removing block ports of the block. -/
theorem rewired_removePorts (inputs : ∀ entry ∈ entries, entry ∈ B.block.inputs)
    (outputs : ∀ exit ∈ exits, exit ∈ B.block.outputs) :
    B.Rewired (B.removePorts entries exits) := by
  have entryOf := @entryOf_removePorts B wf entries exits
  have exitOf := @exitOf_removePorts B wf entries exits
  obtain ⟨wf', next, -⟩ := Wiring.eraseInputs_spec wf entries
  obtain ⟨wf'', next', -⟩ := Wiring.eraseOutputs_spec wf' exits
  rw [removePorts_eq] at entryOf exitOf ⊢
  refine ⟨rfl, rfl, rfl, rfl, wf'', next'.trans next, filter_sublist,
    filter_sublist, fun entry => (entryOf entry).trans ?_, fun exit => (exitOf exit).trans ?_⟩
  · by_cases removed : entry ∈ entries
    · simp [removed, inputs entry removed]
    · simp [removed]
  · by_cases removed : exit ∈ exits
    · simp [removed, outputs exit removed]
    · simp [removed]

end Removed

theorem mem_entriesOf {port port' : InputId}
    (entered : B.wiring.entryOf entry = some (block, port)) :
    entry ∈ B.block.entriesOf B.wiring port' ↔ entry ∈ B.block.inputs ∧ port = port' := by
  rw [BlockFrame.entriesOf, mem_filter, Wiring.inputPort?_eq, entered, Option.map_some,
    beq_iff_eq, Option.some.injEq]

theorem mem_exitsOf {port port' : OutputId} (left : B.wiring.exitOf exit = some (block, port)) :
    exit ∈ B.block.exitsOf B.wiring port' ↔ exit ∈ B.block.outputs ∧ port = port' := by
  rw [BlockFrame.exitsOf, mem_filter, Wiring.outputPort?_eq, left, Option.map_some,
    beq_iff_eq, Option.some.injEq]

theorem mem_flatMap_entriesOf {ports : List InputId} {port : InputId}
    (entered : B.wiring.entryOf entry = some (block, port)) :
    entry ∈ ports.flatMap (B.block.entriesOf B.wiring) ↔ entry ∈ B.block.inputs ∧ port ∈ ports := by
  simp [mem_flatMap, mem_entriesOf entered, and_comm]

theorem mem_flatMap_exitsOf {ports : List OutputId} {port : OutputId}
    (left : B.wiring.exitOf exit = some (block, port)) :
    exit ∈ ports.flatMap (B.block.exitsOf B.wiring) ↔ exit ∈ B.block.outputs ∧ port ∈ ports := by
  simp [mem_flatMap, mem_exitsOf left, and_comm]

/-- The block ports around the ports of a node are ports of the block. -/
theorem mem_ports_of_node (B : Placed) (node : Node) :
    (∀ entry ∈ node.inputs.flatMap (B.block.entriesOf B.wiring), entry ∈ B.block.inputs) ∧
    ∀ exit ∈ node.outputs.flatMap (B.block.exitsOf B.wiring), exit ∈ B.block.outputs := by
  constructor
  · intro entry mem
    obtain ⟨port, -, wraps⟩ := mem_flatMap.mp mem
    exact mem_of_mem_filter wraps
  · intro exit mem
    obtain ⟨port, -, wraps⟩ := mem_flatMap.mp mem
    exact mem_of_mem_filter wraps

/-! ## Block ports that repeat others -/

/-- The block has lost block ports, and the links are the same as before if no difference is
made between block ports of the block that wrap the same port. -/
structure Relinked (pre post : Placed) : Prop extends pre.Rewired post where
  links : ∀ (left : BlockOutputId → Prop) (right : BlockInputId → Prop),
    (∀ exit ∈ pre.block.outputs, ∀ other ∈ pre.block.outputs,
      pre.wiring.exitOf exit = pre.wiring.exitOf other → (left exit ↔ left other)) →
    (∀ entry ∈ pre.block.inputs, ∀ other ∈ pre.block.inputs,
      pre.wiring.entryOf entry = pre.wiring.entryOf other → (right entry ↔ right other)) →
    ((∃ exit entry, left exit ∧ right entry ∧ post.wiring.Linked exit entry) ↔
      ∃ exit entry, left exit ∧ right entry ∧ pre.wiring.Linked exit entry)

theorem Relinked.connects {post : Placed} (relinked : B.Relinked post)
    (left : BlockId × OutputId) (right : BlockId × InputId) :
    post.wiring.Connects left right ↔ B.wiring.Connects left right := by
  refine Iff.trans (exists₂_congr fun exit entry => ?_) (relinked.links
    (B.wiring.exitOf · = some left) (B.wiring.entryOf · = some right)
    (fun _ _ _ _ eq => by rw [eq]) fun _ _ _ _ eq => by rw [eq])
  rw [← and_assoc, ← and_assoc]
  exact and_congr_left fun link => by
    rw [(relinked.of_linked link).1.1, (relinked.of_linked link).2.1]

section Merge

variable (wf : B.wiring.Consistent)

include wf

/-- Links are added between block ports that exist. -/
theorem insertLinks_spec {exits : List BlockOutputId} {entries : List BlockInputId}
    (has : ∀ exit ∈ exits, ∃ wraps, B.wiring.exitOf exit = some wraps)
    (has' : ∀ entry ∈ entries, ∃ wraps, B.wiring.entryOf entry = some wraps) :
    B.Rewired { B with wiring := B.wiring.insertLinks exits entries } ∧
      ∀ exit entry, (B.wiring.insertLinks exits entries).Linked exit entry ↔
        B.wiring.Linked exit entry ∨ exit ∈ exits ∧ entry ∈ entries := by
  have eq := Wiring.sameFrame_insertLinks B.wiring exits entries
  have mem : ∀ exit entry, (exit, entry) ∈ (exits.flatMap fun exit => entries.map (exit, ·)) ↔
        exit ∈ exits ∧ entry ∈ entries := by
    simp
  have linkable : ∀ pair ∈ (exits.flatMap fun exit => entries.map (exit, ·)),
      B.wiring.Linkable pair := by
    rintro ⟨exit, entry⟩ member
    obtain ⟨left, right⟩ := (mem exit entry).mp member
    exact ⟨has exit left, has' entry right⟩
  refine ⟨⟨rfl, rfl, rfl, rfl, ?_, eq.next, .refl _, .refl _, fun entry => ?_, fun exit => ?_⟩,
    fun exit entry => ?_⟩
  · rw [Wiring.insertLinks_eq]
    exact wf.linkPairs linkable
  · rw [eq.entryOf]
    simp
  · rw [eq.exitOf]
    simp
  · rw [Wiring.insertLinks_eq, Wiring.linked_linkPairs linkable, mem]

/-- Adding the sources of a block input to another one. -/
theorem moveSources_spec {entry target : BlockInputId} {wraps : BlockId × InputId}
    (has : B.wiring.entryOf target = some wraps) :
    B.Rewired (B.moveSources entry target) ∧
      ∀ exit other, (B.moveSources entry target).wiring.Linked exit other ↔
        B.wiring.Linked exit other ∨ other = target ∧ B.wiring.Linked exit entry := by
  have sources : ∀ exit, exit ∈ (B.wiring.sources entry).toList ↔
      B.wiring.Linked exit entry := fun exit =>
    mem_toList.trans (wf.agree exit entry).symm
  obtain ⟨rewired, linked⟩ := @insertLinks_spec _ wf (B.wiring.sources entry).toList [target]
    (fun exit mem => Wiring.exists_exitOf_of_linked ((sources exit).mp mem))
    (forall_mem_singleton.mpr ⟨wraps, has⟩)
  refine ⟨rewired, fun exit other => ?_⟩
  rw [moveSources, linked, sources, mem_singleton, and_comm (b := other = target)]

/-- Adding the targets of a block output to another one. -/
theorem moveTargets_spec {exit target : BlockOutputId} {wraps : BlockId × OutputId}
    (has : B.wiring.exitOf target = some wraps) :
    B.Rewired (B.moveTargets exit target) ∧
      ∀ other entry, (B.moveTargets exit target).wiring.Linked other entry ↔
        B.wiring.Linked other entry ∨ other = target ∧ B.wiring.Linked exit entry := by
  obtain ⟨rewired, linked⟩ := @insertLinks_spec _ wf [target]
    (B.wiring.targets exit).toList (forall_mem_singleton.mpr ⟨wraps, has⟩)
    (fun entry mem => wf.exists_entryOf (mem_toList.mp mem))
  refine ⟨rewired, fun other entry => ?_⟩
  rw [moveTargets, linked, mem_singleton, mem_toList]
  rfl

omit wf in
/-- What one of two alike has been linked with the other one takes over. -/
theorem exists_linked_iff {α β : Type} {link link' : α → β → Prop} {left : α → Prop}
    {right : β → Prop} {old new : β} (ne : new ≠ old) (alike : right old ↔ right new)
    (linked : ∀ a b, link' a b ↔ (link a b ∨ b = new ∧ link a old) ∧ b ≠ old) :
    (∃ a b, left a ∧ right b ∧ link' a b) ↔ ∃ a b, left a ∧ right b ∧ link a b := by
  refine exists_congr fun a => ⟨?_, ?_⟩
  · rintro ⟨b, one, two, post⟩
    obtain ⟨pre | ⟨rfl, pre⟩, -⟩ := (linked a b).mp post
    · exact ⟨b, one, two, pre⟩
    · exact ⟨old, one, alike.mpr two, pre⟩
  · rintro ⟨b, one, two, pre⟩
    by_cases eq : b = old
    · subst eq
      exact ⟨new, one, alike.mp two, (linked a new).mpr ⟨.inr ⟨rfl, pre⟩, ne⟩⟩
    · exact ⟨b, one, two, (linked a b).mpr ⟨.inl pre, eq⟩⟩

/-- A block input hands its sources to one that wraps the same port. -/
theorem mergeInput_spec {target : BlockInputId} {wraps : BlockId × InputId}
    (mem : entry ∈ B.block.inputs) (has' : B.wiring.entryOf target = some wraps) :
    B.Rewired ((B.moveSources entry target).removeInput entry) ∧
      ∀ exit other, ((B.moveSources entry target).removeInput entry).wiring.Linked exit other ↔
        (B.wiring.Linked exit other ∨ other = target ∧ B.wiring.Linked exit entry) ∧
          other ≠ entry := by
  obtain ⟨moved, linked⟩ := @moveSources_spec B wf entry target wraps has'
  refine ⟨moved.trans (@rewired_removePorts _ moved.wf [entry] []
    (forall_mem_singleton.mpr mem) (by simp)), fun exit other => ?_⟩
  rw [removeInput, Wiring.linked_eraseInput moved.wf, linked]

theorem relinked_mergeInput {target : BlockInputId} {wraps : BlockId × InputId}
    (own : entry ∈ B.block.inputs ∧ B.wiring.entryOf entry = some wraps)
    (own' : target ∈ B.block.inputs ∧ B.wiring.entryOf target = some wraps) (ne : target ≠ entry) :
    B.Relinked ((B.moveSources entry target).removeInput entry) where
  toRewired := (mergeInput_spec wf own.1 own'.2).1
  links _ _ _ right := exists_linked_iff ne (right entry own.1 target own'.1
    (own.2.trans own'.2.symm)) (mergeInput_spec wf own.1 own'.2).2

/-- A block output hands its targets to one that wraps the same port. -/
theorem mergeOutput_spec {target : BlockOutputId} {wraps : BlockId × OutputId}
    (mem : exit ∈ B.block.outputs) (has' : B.wiring.exitOf target = some wraps) :
    B.Rewired ((B.moveTargets exit target).removeOutput exit) ∧
      ∀ other entry, ((B.moveTargets exit target).removeOutput exit).wiring.Linked other entry ↔
        (B.wiring.Linked other entry ∨ other = target ∧ B.wiring.Linked exit entry) ∧
          other ≠ exit := by
  obtain ⟨moved, linked⟩ := @moveTargets_spec B wf exit target wraps has'
  refine ⟨moved.trans (@rewired_removePorts _ moved.wf [] [exit] (by simp)
    (forall_mem_singleton.mpr mem)), fun other entry => ?_⟩
  rw [removeOutput, Wiring.linked_eraseOutput, linked]

theorem relinked_mergeOutput {target : BlockOutputId} {wraps : BlockId × OutputId}
    (own : exit ∈ B.block.outputs ∧ B.wiring.exitOf exit = some wraps)
    (own' : target ∈ B.block.outputs ∧ B.wiring.exitOf target = some wraps) (ne : target ≠ exit) :
    B.Relinked ((B.moveTargets exit target).removeOutput exit) := by
  refine ⟨(mergeOutput_spec wf own.1 own'.2).1, fun left right alike _ => ?_⟩
  have turned : ∀ link : BlockOutputId → BlockInputId → Prop,
      (∃ exit entry, left exit ∧ right entry ∧ link exit entry) ↔
        ∃ entry exit, right entry ∧ left exit ∧ link exit entry := fun link => by
    rw [exists_comm]
    simp only [and_left_comm]
  rw [turned, turned]
  exact exists_linked_iff ne (alike exit own.1 target own'.1 (own.2.trans own'.2.symm))
    fun entry other => (mergeOutput_spec wf own.1 own'.2).2 other entry

end Merge

section Firsts

variable {α : Type} {role : Role} {listed : Placed → List α}
  {of : Placed → α → Option (BlockId × Handle role)}
  {step : HandleMap role α × Placed → α → HandleMap role α × Placed}

/-- Of the block ports that wrap one port, the first takes over the others, and those that are
left wrap different ports. -/
theorem foldl_firsts (take : Placed → α → α → Placed) (inv : Placed → Prop)
    (new : ∀ {firsts : HandleMap role α} {state item port}, of state item = some (block, port) →
      firsts[port]? = none → step (firsts, state) item = (firsts.insert port item, state))
    (old : ∀ {firsts : HandleMap role α} {state item first port},
      of state item = some (block, port) → firsts[port]? = some first →
        step (firsts, state) item = (firsts, take state item first))
    (fewer : ∀ state item first other, (other ∈ listed (take state item first) ↔
        other ∈ listed state ∧ other ≠ item) ∧
      (other ≠ item → of (take state item first) other = of state other))
    (taken : ∀ {state item first port}, inv state →
      item ∈ listed state ∧ of state item = some (block, port) →
      first ∈ listed state ∧ of state first = some (block, port) →
      first ≠ item → inv (take state item first))
    (nodup : (listed B).Nodup)
    (own : ∀ item ∈ listed B, ∃ port, of B item = some (block, port))
    (start : inv B) :
    inv ((listed B).foldl step (∅, B)).2 ∧ ∀ item ∈ listed ((listed B).foldl step (∅, B)).2,
      ∀ other ∈ listed ((listed B).foldl step (∅, B)).2, of ((listed B).foldl step (∅, B)).2 item =
          of ((listed B).foldl step (∅, B)).2 other → item = other := by
  let loop : List α → HandleMap role α × Placed → Prop := fun rest state =>
    inv state.2 ∧ rest.Nodup ∧ (∀ item ∈ rest, item ∈ listed state.2) ∧
      (∀ item ∈ listed state.2, ∃ port, of state.2 item = some (block, port)) ∧
      (∀ port first, state.1[port]? = some first →
        first ∉ rest ∧ first ∈ listed state.2 ∧ of state.2 first = some (block, port)) ∧
      ∀ item ∈ listed state.2, item ∉ rest → ∀ port, of state.2 item = some (block, port) →
        state.1[port]? = some item
  obtain ⟨holds, -, -, own, -, firsts⟩ : loop [] ((listed B).foldl step (∅, B)) := by
    refine foldl_keeps loop ?_ ⟨start, nodup, fun _ => id, own, by simp,
      fun _ here gone => absurd here gone⟩
    rintro item rest ⟨firsts, state⟩ ⟨holds, nodup, here, own, firsts', kept⟩
    obtain ⟨fresh, nodup⟩ := nodup_cons.mp nodup
    obtain ⟨here, later⟩ := forall_mem_cons.mp here
    obtain ⟨port, has⟩ := own item here
    cases seen : firsts[port]? with
    | none =>
      rw [new has seen]
      refine ⟨holds, nodup, later, own, fun port' first got => ?_,
        fun other mem gone port' has' => ?_⟩
      · rw [HandleMap.getElem?_insert] at got
        split at got
        · next eq =>
          cases got
          exact ⟨fresh, here, eq ▸ has⟩
        · exact (firsts' port' first got).imp_left fun absent later => absent (.tail _ later)
      · rw [HandleMap.getElem?_insert]
        by_cases eq : other = item
        · subst eq
          cases has.symm.trans has'
          rw [if_pos rfl]
        · have got := kept other mem (by simp [eq, gone]) port' has'
          rw [if_neg, got]
          rintro rfl
          cases seen.symm.trans got
    | some first =>
      rw [old has seen]
      obtain ⟨absent, has'⟩ := firsts' port first seen
      have left := fewer state item first
      refine ⟨taken holds ⟨here, has⟩ has' fun eq => absent (eq ▸ .head _), nodup,
        fun other mem => (left other).1.mpr ⟨later other mem, fun eq => fresh (eq ▸ mem)⟩,
        fun other mem => ?_, fun port' first' got => ?_, fun other mem gone port' has' => ?_⟩
      · obtain ⟨mem, ne⟩ := (left other).1.mp mem
        exact (left other).2 ne ▸ own other mem
      · obtain ⟨absent, mem, has'⟩ := firsts' port' first' got
        rw [mem_cons, not_or] at absent
        exact ⟨absent.2, (left first').1.mpr ⟨mem, absent.1⟩, (left first').2 absent.1 ▸ has'⟩
      · obtain ⟨mem, ne⟩ := (left other).1.mp mem
        exact kept other mem (by simp [ne, gone]) port' ((left other).2 ne ▸ has')
  refine ⟨holds, fun item mem other mem' eq => ?_⟩
  obtain ⟨port, has⟩ := own item mem
  have got := firsts item mem not_mem_nil port has
  rw [firsts other mem' not_mem_nil port (eq ▸ has)] at got
  exact (Option.some.inj got).symm

end Firsts

section MergeInputs

variable (nodup : B.block.inputs.Nodup)
  (own : ∀ entry ∈ B.block.inputs, ∃ port, B.wiring.entryOf entry = some (B.block.id, port))

include nodup own

/-- What keeps a property while block inputs hand their sources over does so for all
that wrap one port, and these become one. -/
theorem mergeInputs_keeps (inv : Placed → Prop)
    (taken : ∀ {state : Placed} {entry first port}, inv state →
      entry ∈ state.block.inputs ∧ state.wiring.entryOf entry = some (B.block.id, port) →
      first ∈ state.block.inputs ∧ state.wiring.entryOf first = some (B.block.id, port) →
      first ≠ entry → inv ((state.moveSources entry first).removeInput entry))
    (start : inv B) : inv B.mergeInputs ∧
      ∀ entry ∈ B.mergeInputs.block.inputs, ∀ other ∈ B.mergeInputs.block.inputs,
        B.mergeInputs.wiring.entryOf entry = B.mergeInputs.wiring.entryOf other →
          entry = other := by
  refine foldl_firsts (fun state entry first => (state.moveSources entry first).removeInput entry)
    inv (fun has unseen => ?_) (fun has seen => ?_) (fun state entry first other => ⟨by
      simp [removeInput, moveSources], fun ne => ?_⟩) taken nodup own start
  · simp only [Wiring.inputPort?_eq, has, Option.map_some, unseen]
  · simp only [Wiring.inputPort?_eq, has, Option.map_some, seen]
  · rw [removeInput, Wiring.entryOf_eraseInput, if_neg ne, moveSources,
      (Wiring.sameFrame_insertLinks _ _ _).entryOf]

/-- Nothing is merged if block inputs wrap different ports. -/
theorem mergeInputs_eq (apart : ∀ entry ∈ B.block.inputs, ∀ other ∈ B.block.inputs,
    B.wiring.entryOf entry = B.wiring.entryOf other → entry = other) :
    B.mergeInputs = B := by
  refine (mergeInputs_keeps nodup own (· = B) ?_ rfl).1
  rintro _ entry first port rfl has has' ne
  exact absurd (apart first has'.1 entry has.1 (has'.2.trans has.2.symm)) ne

end MergeInputs

section MergeOutputs

variable (nodup : B.block.outputs.Nodup)
  (own : ∀ exit ∈ B.block.outputs, ∃ port, B.wiring.exitOf exit = some (B.block.id, port))

include nodup own

/-- What keeps a property while block outputs hand their targets over does so for all
that wrap one port, and these become one. -/
theorem mergeOutputs_keeps (inv : Placed → Prop)
    (taken : ∀ {state : Placed} {exit first port}, inv state →
      exit ∈ state.block.outputs ∧ state.wiring.exitOf exit = some (B.block.id, port) →
      first ∈ state.block.outputs ∧ state.wiring.exitOf first = some (B.block.id, port) →
      first ≠ exit → inv ((state.moveTargets exit first).removeOutput exit))
    (start : inv B) : inv B.mergeOutputs ∧
      ∀ exit ∈ B.mergeOutputs.block.outputs, ∀ other ∈ B.mergeOutputs.block.outputs,
        B.mergeOutputs.wiring.exitOf exit = B.mergeOutputs.wiring.exitOf other → exit = other := by
  refine foldl_firsts (fun state exit first => (state.moveTargets exit first).removeOutput exit)
    inv (fun has unseen => ?_) (fun has seen => ?_) (fun state exit first other => ⟨by
      simp [removeOutput, moveTargets], fun ne => ?_⟩) taken nodup own start
  · simp only [Wiring.outputPort?_eq, has, Option.map_some, unseen]
  · simp only [Wiring.outputPort?_eq, has, Option.map_some, seen]
  · rw [removeOutput, Wiring.exitOf_eraseOutput, if_neg ne, moveTargets,
      (Wiring.sameFrame_insertLinks _ _ _).exitOf]

/-- Nothing is merged if block outputs wrap different ports. -/
theorem mergeOutputs_eq (apart : ∀ exit ∈ B.block.outputs, ∀ other ∈ B.block.outputs,
    B.wiring.exitOf exit = B.wiring.exitOf other → exit = other) :
    B.mergeOutputs = B := by
  refine (mergeOutputs_keeps nodup own (· = B) ?_ rfl).1
  rintro _ exit first port rfl has has' ne
  exact absurd (apart first has'.1 exit has.1 (has'.2.trans has.2.symm)) ne

end MergeOutputs

end Placed

end Staging
