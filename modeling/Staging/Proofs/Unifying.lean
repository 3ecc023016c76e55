import Staging.Proofs.Seclusion

/-! # Unification of copies

A copy hands its ports over to another copy of the same node in the same block
and is dropped. Unification looks at the copies of a block one after the other
and keeps the first one of each node.
-/

namespace Staging

open Std Relation List HandleMap

variable {input : InputId → InputId} {out : OutputId → OutputId} {entry : BlockInputId}
  {exit : BlockOutputId} {kept node : Node} {P : Placed → Prop} {block : BlockId}

/-! ## Ports that are replaced -/

section Replace

variable {α β : Type} [DecidableEq α] {pairs : List (α × α)} {old new : List α}

/-- What stands for a port when ports are replaced pair by pair. -/
def replaced (pairs : List (α × α)) (port : α) : α :=
  (pairs.lookup port).getD port

theorem replaced_cons (pair : α × α) (pairs : List (α × α)) (port : α) :
    replaced (pair :: pairs) port = if port = pair.1 then pair.2 else replaced pairs port := by
  rw [replaced, lookup_cons]
  by_cases eq : port = pair.1
  · rw [if_pos eq, beq_iff_eq.mpr eq]
    rfl
  · rw [if_neg eq, beq_eq_false_iff_ne.mpr eq]
    rfl

theorem replaced_of_not_mem {port : α} (other : port ∉ pairs.map Prod.fst) :
    replaced pairs port = port := by
  induction pairs with
  | nil => rfl
  | cons pair rest ih =>
    rw [map_cons, mem_cons, not_or] at other
    rw [replaced_cons, if_neg other.1, ih other.2]

theorem replaced_cons_eq_comp {pair : α × α} (fresh : pair.2 ∉ pairs.map Prod.fst) :
    replaced (pair :: pairs) = replaced pairs ∘ Function.update id pair.1 pair.2 := by
  funext port
  rw [replaced_cons, Function.comp_apply]
  by_cases here : port = pair.1
  · rw [if_pos here, here, Function.update_self, replaced_of_not_mem fresh]
  · rw [if_neg here, Function.update_of_ne here, id]

/-- A port that the first pair replaces is not replaced again. -/
theorem replaced_once {pair : α × α} (fresh : pair.2 ∉ pairs.map Prod.fst)
    (alone : pair.1 ∉ pairs.map Prod.fst) {port : α}
    (changed : Function.update id pair.1 pair.2 port ≠ port) :
    replaced pairs (Function.update id pair.1 pair.2 port) =
      Function.update id pair.1 pair.2 port ∧ replaced pairs port = port := by
  obtain rfl : port = pair.1 := by
    by_contra here
    exact changed (Function.update_of_ne here _ _)
  rw [Function.update_self]
  exact ⟨replaced_of_not_mem fresh, replaced_of_not_mem alone⟩

/-- Ports are replaced by ports of which the same is known. -/
theorem apply_replaced {f : α → β} (eq : old.map f = new.map f) (port : α) :
    f (replaced (old.zip new) port) = f port := by
  induction old generalizing new with
  | nil => rfl
  | cons first rest ih =>
    cases new with
    | nil => rfl
    | cons first' rest' =>
      rw [map_cons, map_cons, cons.injEq] at eq
      rw [zip_cons_cons, replaced_cons]
      split
      · next here => rw [here, eq.1]
      · exact ih eq.2

omit [DecidableEq α] in
theorem map_fst_zip_sublist (old new : List α) : ((old.zip new).map Prod.fst).Sublist old := by
  induction old generalizing new with
  | nil => exact .slnil
  | cons port rest ih =>
    cases new with
    | nil => exact nil_sublist _
    | cons port' rest' => exact (ih rest').cons_cons port

theorem map_replaced (nodup : old.Nodup) (length : old.length = new.length) :
    old.map (replaced (old.zip new)) = new := by
  induction old generalizing new with
  | nil => exact (length_eq_zero_iff.mp length.symm).symm
  | cons port rest ih =>
    obtain ⟨port', rest', rfl⟩ := exists_cons_of_length_eq_add_one length.symm
    obtain ⟨fresh, nodup⟩ := nodup_cons.mp nodup
    rw [map_cons, zip_cons_cons, replaced_cons, if_pos rfl]
    congr 1
    refine Eq.trans (map_congr_left fun other later => ?_) (ih nodup (Nat.succ.inj length))
    rw [replaced_cons, if_neg]
    rintro rfl
    exact fresh later

/-- What replaces a port of a node belongs to the other node, and other ports stay. -/
theorem owner_replaced {owner : α → Option β} {copy first id : β}
    [DecidableEq β] (nodup : old.Nodup) (length : old.length = new.length)
    (own : ∀ port, port ∈ old ↔ owner port = some copy)
    (own' : ∀ port ∈ new, owner port = some first) {port : α} (owned : owner port = some id) :
    owner (replaced (old.zip new) port) = some (if id = copy then first else id) := by
  by_cases here : id = copy
  · have image := mem_map_of_mem (f := replaced (old.zip new)) ((own port).mpr (here ▸ owned))
    rw [map_replaced nodup length] at image
    rw [if_pos here, own' _ image]
  · rw [if_neg here, replaced_of_not_mem, owned]
    rw [map_fst_zip length.le, own]
    exact fun owned' => here (Option.mem_unique owned owned')

/-- No port is replaced by one that is replaced. -/
theorem replaced_not_mem (nodup : old.Nodup)
    (length : old.length = new.length) (apart : ∀ port ∈ new, port ∉ old) (port : α) :
    replaced (old.zip new) port ∉ old := by
  by_cases here : port ∈ old
  · have image := mem_map_of_mem (f := replaced (old.zip new)) here
    rw [map_replaced nodup length] at image
    exact apart _ image
  · rwa [replaced_of_not_mem]
    rwa [map_fst_zip length.le]

end Replace

/-! ## Ports that are wrapped -/

section Rewrap

variable {role : Role} {γ : Type} {own : List (Handle role)}
  {of of' : Handle role → Option (BlockId × γ)} {f : γ → γ} {handle : Handle role} {port : γ}
  (rewraps : ∀ handle, of' handle = if handle ∈ own then
      (of handle).map fun wraps => (wraps.1, f wraps.2) else of handle)

include rewraps

/-- If only the block wraps ports that are handed over, all block ports are alike. -/
theorem rewraps_iff (inside : ∀ handle block port, of handle = some (block, port) →
      handle ∉ own → f port = port) :
    of' handle = some (block, port) ↔ ∃ port', of handle = some (block, port') ∧
    f port' = port := by
  rw [rewraps]
  cases wraps : of handle with
  | none => simp
  | some pair =>
    have stays := inside handle pair.1 pair.2 wraps
    split <;> simp_all [Prod.ext_iff]

/-- What a block port of the block wraps is what stands for the port that it wrapped. -/
theorem exists_rewrapped (listed : ∀ handle, handle ∈ own ↔ ∃ port, of handle = some (block, port))
    (wraps : of' handle = some (block, port)) :
    ∃ port', of handle = some (block, port') ∧ f port' = port := by
  rw [rewraps] at wraps
  split at wraps
  · obtain ⟨⟨_, port'⟩, pre, eq⟩ := Option.map_eq_some_iff.mp wraps
    cases eq
    exact ⟨port', pre, rfl⟩
  · next foreign => exact absurd ((listed handle).mpr ⟨port, wraps⟩) foreign

/-- What the block ports of other blocks wrap stays. -/
theorem rewraps_of_other {id : BlockId}
    (owned : ∀ handle ∈ own, ∃ port, of handle = some (id, port))
    (other : block ≠ id) (wraps : of' handle = some (block, port)) :
    of handle = some (block, port) := by
  rw [rewraps] at wraps
  split at wraps
  · next has =>
    obtain ⟨port', pre⟩ := owned handle has
    rw [pre] at wraps
    cases wraps
    exact absurd rfl other
  · exact wraps

end Rewrap

/-- What an element has another one gets. -/
theorem or_moved_iff {α : Type} [DecidableEq α] {P : α → Prop} {old new item : α} :
    (P item ∨ item = new ∧ P old) ↔
      ∃ item', P item' ∧ (item = item' ∨ item = Function.update id old new item') := by
  constructor
  · rintro (has | ⟨rfl, has⟩)
    · exact ⟨item, has, .inl rfl⟩
    · exact ⟨old, has, .inr (by simp)⟩
  · rintro ⟨item', has, rfl | rfl⟩
    · exact .inl has
    · by_cases here : item' = old
      · exact .inr ⟨by simp [here], here ▸ has⟩
      · rw [Function.update_of_ne here]
        exact .inl has

namespace Placed

/-- Ports have handed what they feed or are fed by to others, inside of the block and at the
block ports of the block. -/
structure Handed (pre post : Placed) (input : InputId → InputId)
    (output : OutputId → OutputId) : Prop where
  block : post.block = pre.block
  ports : Graph.SamePorts pre.graph post.graph
  graph : post.graph.Consistent
  wiring : pre.wiring.Repoints post.wiring
  entryOf : ∀ entry, post.wiring.entryOf entry = if entry ∈ pre.block.inputs then
      (pre.wiring.entryOf entry).map fun wrapped => (wrapped.1, input wrapped.2)
    else pre.wiring.entryOf entry
  exitOf : ∀ exit, post.wiring.exitOf exit = if exit ∈ pre.block.outputs then
      (pre.wiring.exitOf exit).map fun wrapped => (wrapped.1, output wrapped.2)
    else pre.wiring.exitOf exit
  feeds : ∀ source target, post.graph.Feeds source target ↔
    ∃ source' target', pre.graph.Feeds source' target' ∧
      (source = source' ∨ source = output source') ∧ (target = target' ∨ target = input target')

namespace Handed

variable {first second third : Placed} {input' : InputId → InputId} {out' : OutputId → OutputId}

section Inside

variable (handed : first.Handed second input out)
  (inside : ∀ entry block port, first.wiring.entryOf entry = some (block, port) →
    entry ∉ first.block.inputs → input port = port)
  (inside' : ∀ exit block port, first.wiring.exitOf exit = some (block, port) →
    exit ∉ first.block.outputs → out port = port)

include handed inside inside'

theorem joins (source : OutputId) (target : InputId) :
    second.wiring.Joins source target ↔ ∃ source' target',
      first.wiring.Joins source' target' ∧ out source' = source ∧ input target' = target := by
  constructor
  · rintro ⟨exit, entry, block, block', left, entered, link⟩
    obtain ⟨source', left', rfl⟩ := (rewraps_iff handed.exitOf inside').mp left
    obtain ⟨target', entered', rfl⟩ := (rewraps_iff handed.entryOf inside).mp entered
    exact ⟨source', target', ⟨exit, entry, block, block', left', entered',
      (handed.wiring.linked exit entry).mp link⟩, rfl, rfl⟩
  · rintro ⟨source', target', ⟨exit, entry, block, block', left, entered, link⟩, rfl, rfl⟩
    exact ⟨exit, entry, block, block', (rewraps_iff handed.exitOf inside').mpr ⟨source', left, rfl⟩,
      (rewraps_iff handed.entryOf inside).mpr ⟨target', entered, rfl⟩,
      (handed.wiring.linked exit entry).mpr link⟩

end Inside

theorem refl (B : Placed) (graph : B.graph.Consistent)
    (wiring : B.wiring.Consistent) : B.Handed B id id where
  block := rfl
  ports := .refl _
  graph := graph
  wiring := .refl wiring
  entryOf entry := by simp
  exitOf exit := by simp
  feeds source target := by simp

/-- Ports can be handed over one after the other if each is handed over once. -/
theorem trans (one : first.Handed second input out) (two : second.Handed third input' out')
    (inputOnce : ∀ port, input port ≠ port → input' (input port) = input port ∧ input' port = port)
    (outputOnce : ∀ port, out port ≠ port → out' (out port) = out port ∧ out' port = port) :
    first.Handed third (input' ∘ input) (out' ∘ out) where
  block := two.block.trans one.block
  ports := one.ports.trans two.ports
  graph := two.graph
  wiring := one.wiring.trans two.wiring
  entryOf entry := by
    rw [two.entryOf, one.entryOf, one.block]
    split
    · rw [Option.map_map]
      rfl
    · rfl
  exitOf exit := by
    rw [two.exitOf, one.exitOf, one.block]
    split
    · rw [Option.map_map]
      rfl
    · rfl
  feeds source target := by
    have chain : ∀ {α : Type} {f g : α → α} (_ : ∀ port, f port ≠ port →
        g (f port) = f port ∧ g port = port) (port port' : α),
        (∃ between, (between = port ∨ between = f port) ∧ (port' = between ∨ port' = g between)) ↔
          port' = port ∨ port' = g (f port) := by
      intro α f g once port port'
      by_cases still : f port = port
      · simp [still]
      · obtain ⟨settled, stay⟩ := once port still
        simp only [exists_eq_or_imp, exists_eq_left, stay, settled, or_self]
    simp only [two.feeds, one.feeds, Function.comp_apply, ← chain inputOnce, ← chain outputOnce]
    constructor
    · rintro ⟨source', target', ⟨source'', target'', fed, left, right⟩, left', right'⟩
      exact ⟨source'', target'', fed, ⟨source', left, left'⟩, target', right, right'⟩
    · rintro ⟨source'', target'', fed, ⟨source', left, left'⟩, target', right, right'⟩
      exact ⟨source', target', ⟨source'', target'', fed, left, right⟩, left', right'⟩

end Handed

/-! ## One port -/

/-- The block ports of a block around one port are made to wrap another one. -/
private theorem foldl_repoint_spec {role : Role} {γ : Type} [DecidableEq γ]
    (of : Wiring → Handle role → Option (BlockId × γ)) {step : Wiring → Handle role → Wiring}
    (inv : Wiring → Prop) {new : γ}
    (moves : ∀ {state : Wiring} handle, state.Consistent → inv state →
      state.Repoints (step state handle) ∧ inv (step state handle) ∧
        ∀ other, of (step state handle) other = if other = handle then
          (of state other).map fun wraps => (wraps.1, new) else of state other)
    {wiring : Wiring} (wf : wiring.Consistent) (start : inv wiring)
    (items own : List (Handle role)) (old : γ) (mem : ∀ handle, handle ∈ items ↔
      handle ∈ own ∧ (of wiring handle).map Prod.snd = some old) :
    wiring.Repoints (items.foldl step wiring) ∧ inv (items.foldl step wiring) ∧
      ∀ handle, of (items.foldl step wiring) handle = if handle ∈ own then
          (of wiring handle).map fun wraps => (wraps.1, Function.update id old new wraps.2)
        else of wiring handle := by
  have each : wiring.Repoints (items.foldl step wiring) ∧ inv (items.foldl step wiring) ∧
      ∀ handle, of (items.foldl step wiring) handle = if handle ∈ items then
        (of wiring handle).map fun wraps => (wraps.1, new) else of wiring handle := by
    clear mem
    induction items generalizing wiring with
    | nil => exact ⟨.refl wf, start, by simp⟩
    | cons first rest ih =>
      obtain ⟨one, holds, moved⟩ := moves first wf start
      obtain ⟨two, holds', moved'⟩ := ih one.wf holds
      refine ⟨one.trans two, holds', fun handle => ?_⟩
      rw [foldl_cons, moved', moved]
      by_cases here : handle = first
      · subst here
        by_cases later : handle ∈ rest
        · simp [Option.map_map, Function.comp_def]
        · simp [later]
      · simp [here]
  refine ⟨each.1, each.2.1, fun handle => (each.2.2 handle).trans ?_⟩
  rw [if_congr (mem handle) rfl rfl]
  cases of wiring handle with
  | none => simp
  | some wraps =>
    by_cases has : handle ∈ own
    · by_cases eq : wraps.2 = old
      · simp [has, eq]
      · simp [has, eq]
    · simp [has]

section Move

variable {B : Placed} (graph : B.graph.Consistent) (wiring : B.wiring.Consistent)

include graph wiring

/-- What feeds a port is handed to another one. -/
private theorem handed_moveInput {ports : InputId × InputId}
    (owned : ∃ owner, B.graph.inputOwner? ports.2 = some owner) :
    B.Handed (B.moveInput ports) (Function.update id ports.1 ports.2) id := by
  let pairs := (B.graph.sources ports.1).toList.map (·, ports.2)
  have mem : ∀ out input, (out, input) ∈ pairs ↔ input = ports.2 ∧ B.graph.Feeds out ports.1 := by
    intro out input
    simp only [pairs, mem_map, ExtTreeSet.mem_toList, Prod.mk.injEq, ← graph.agree]
    constructor
    · rintro ⟨source, fed, rfl, rfl⟩
      exact ⟨rfl, fed⟩
    · rintro ⟨rfl, fed⟩
      exact ⟨out, fed, rfl, rfl⟩
  have joinable : ∀ pair ∈ pairs, B.graph.Joinable pair := by
    rintro ⟨out, input⟩ has
    obtain ⟨rfl, fed⟩ := (mem out input).mp has
    exact ⟨Graph.exists_outputOwner_of_feeds fed, owned⟩
  have moved : (B.moveInput ports).graph = B.graph.connectPairs pairs := by
    rw [moveInput, Graph.connectPairs, foldl_map]
  obtain ⟨repoints, outputs, entryOf⟩ := foldl_repoint_spec Wiring.entryOf
    (·.outputs = B.wiring.outputs) (fun entry wf same => ⟨.repointInput wf entry ports.2, same,
      (Wiring.entryOf_repointInput _ entry · ports.2)⟩) wiring rfl
    (B.block.entriesOf B.wiring ports.1) B.block.inputs ports.1 (fun entry => by
      rw [BlockFrame.entriesOf, mem_filter, Wiring.inputPort?_eq, beq_iff_eq])
  refine ⟨rfl, moved ▸ Graph.samePorts_connectPairs _ _, moved ▸ graph.connectPairs joinable,
    repoints, entryOf, fun exit => ?_, fun source target => ?_⟩
  · have kept : (B.moveInput ports).wiring.exitOf exit = B.wiring.exitOf exit := by
      rw [Wiring.exitOf, Wiring.exitOf, ← outputs]
      rfl
    rw [kept]
    simp
  · rw [moved, Graph.feeds_connectPairs joinable, mem, or_moved_iff]
    simp [and_left_comm]

/-- What a port feeds is handed to another one. -/
private theorem handed_moveOutput {ports : OutputId × OutputId}
    (owned : ∃ owner, B.graph.outputOwner? ports.2 = some owner) :
    B.Handed (B.moveOutput ports) id (Function.update id ports.1 ports.2) := by
  let pairs := (B.graph.targets ports.1).toList.map (ports.2, ·)
  have mem : ∀ out input, (out, input) ∈ pairs ↔ out = ports.2 ∧ B.graph.Feeds ports.1 input := by
    intro out input
    simp only [pairs, mem_map, ExtTreeSet.mem_toList, Prod.mk.injEq]
    constructor
    · rintro ⟨target, fed, rfl, rfl⟩
      exact ⟨rfl, fed⟩
    · rintro ⟨rfl, fed⟩
      exact ⟨input, fed, rfl, rfl⟩
  have joinable : ∀ pair ∈ pairs, B.graph.Joinable pair := by
    rintro ⟨out, input⟩ has
    obtain ⟨rfl, fed⟩ := (mem out input).mp has
    exact ⟨owned, graph.exists_inputOwner fed⟩
  have moved : (B.moveOutput ports).graph = B.graph.connectPairs pairs := by
    rw [moveOutput, Graph.connectPairs, foldl_map]
  obtain ⟨repoints, inputs, exitOf⟩ := foldl_repoint_spec Wiring.exitOf
    (·.inputs = B.wiring.inputs) (fun exit wf same => ⟨.repointOutput wf exit ports.2, same,
      (Wiring.exitOf_repointOutput _ exit · ports.2)⟩) wiring rfl
    (B.block.exitsOf B.wiring ports.1) B.block.outputs ports.1 (fun exit => by
      rw [BlockFrame.exitsOf, mem_filter, Wiring.outputPort?_eq, beq_iff_eq])
  refine ⟨rfl, moved ▸ Graph.samePorts_connectPairs _ _, moved ▸ graph.connectPairs joinable,
    repoints, fun entry => ?_, exitOf, fun source target => ?_⟩
  · have kept : (B.moveOutput ports).wiring.entryOf entry = B.wiring.entryOf entry := by
      rw [Wiring.entryOf, Wiring.entryOf, ← inputs]
      rfl
    rw [kept]
    simp
  · rw [moved, Graph.feeds_connectPairs joinable, mem, or_moved_iff (P := (B.graph.Feeds · target))]
    simp [and_comm]

/-! ## All ports of a copy -/

/-- What feeds the ports is handed to others, port by port. -/
private theorem handed_moveInputs {pairs : List (InputId × InputId)}
    (nodup : (pairs.map Prod.fst).Nodup) (apart : ∀ pair ∈ pairs, pair.2 ∉ pairs.map Prod.fst)
    (owned : ∀ pair ∈ pairs, ∃ owner, B.graph.inputOwner? pair.2 = some owner) :
    B.Handed (pairs.foldl moveInput B) (replaced pairs) id := by
  induction pairs generalizing B with
  | nil => exact .refl B graph wiring
  | cons pair rest ih =>
    rw [map_cons, nodup_cons] at nodup
    have fresh := apart pair (.head _)
    rw [map_cons, mem_cons, not_or] at fresh
    have one := handed_moveInput graph wiring (owned pair (.head _))
    have two := ih one.graph one.wiring.wf nodup.2
      (fun other later mem => apart other (.tail _ later) (.tail _ mem))
      (fun other later => by
        rw [one.ports.inputOwner]
        exact owned other (.tail _ later))
    rw [replaced_cons_eq_comp fresh.2, foldl_cons]
    exact one.trans two (fun _ => replaced_once fresh.2 nodup.1) fun _ changed => absurd rfl changed

/-- What the ports feed is handed to others, port by port. -/
private theorem handed_moveOutputs {pairs : List (OutputId × OutputId)}
    (nodup : (pairs.map Prod.fst).Nodup) (apart : ∀ pair ∈ pairs, pair.2 ∉ pairs.map Prod.fst)
    (owned : ∀ pair ∈ pairs, ∃ owner, B.graph.outputOwner? pair.2 = some owner) :
    B.Handed (pairs.foldl moveOutput B) id (replaced pairs) := by
  induction pairs generalizing B with
  | nil => exact .refl B graph wiring
  | cons pair rest ih =>
    rw [map_cons, nodup_cons] at nodup
    have fresh := apart pair (.head _)
    rw [map_cons, mem_cons, not_or] at fresh
    have one := handed_moveOutput graph wiring (owned pair (.head _))
    have two := ih one.graph one.wiring.wf nodup.2
      (fun other later mem => apart other (.tail _ later) (.tail _ mem))
      (fun other later => by
        rw [one.ports.outputOwner]
        exact owned other (.tail _ later))
    rw [replaced_cons_eq_comp fresh.2, foldl_cons]
    exact one.trans two (fun _ changed => absurd rfl changed) fun _ => replaced_once fresh.2 nodup.1

/-- A node hands its ports over to another node. -/
theorem handed_ports {first copy : NodeId} (ne : first ≠ copy)
    (got : B.graph.nodes[first]? = some kept) (got' : B.graph.nodes[copy]? = some node) :
    B.Handed ((node.outputs.zip kept.outputs).foldl moveOutput
      ((node.inputs.zip kept.inputs).foldl moveInput B))
      (replaced (node.inputs.zip kept.inputs)) (replaced (node.outputs.zip kept.outputs)) := by
  have one : B.Handed ((node.inputs.zip kept.inputs).foldl moveInput B)
      (replaced (node.inputs.zip kept.inputs)) id := by
    refine handed_moveInputs graph wiring ?_ (fun pair mem own => ?_) fun pair mem =>
      ⟨first, graph.input_of_mem got (of_mem_zip mem).2⟩
    · exact (map_fst_zip_sublist _ _).nodup (graph.inputsNodup _ _ got')
    · obtain ⟨other, mem', eq⟩ := mem_map.mp own
      have owned := graph.input_of_mem got' (of_mem_zip mem').1
      rw [eq, graph.input_of_mem got (of_mem_zip mem).2] at owned
      exact ne (Option.some.inj owned)
  have two : ((node.inputs.zip kept.inputs).foldl moveInput B).Handed
      ((node.outputs.zip kept.outputs).foldl moveOutput
        ((node.inputs.zip kept.inputs).foldl moveInput B))
      id (replaced (node.outputs.zip kept.outputs)) := by
    refine handed_moveOutputs one.graph one.wiring.wf ?_ (fun pair mem own => ?_)
      fun pair mem => ⟨first, ?_⟩
    · exact (map_fst_zip_sublist _ _).nodup (graph.outputsNodup _ _ got')
    · obtain ⟨other, mem', eq⟩ := mem_map.mp own
      have owned := graph.output_of_mem got' (of_mem_zip mem').1
      rw [eq, graph.output_of_mem got (of_mem_zip mem).2] at owned
      exact ne (Option.some.inj owned)
    · rw [one.ports.outputOwner]
      exact graph.output_of_mem got (of_mem_zip mem).2
  exact one.trans two (fun _ _ => ⟨rfl, rfl⟩) fun _ changed => absurd rfl changed

/-- A copy that is folded into a node with as many ports is gone, and the node has what its
ports had. -/
theorem foldCopy_spec {first copy : NodeId} {kept node : Node} (ne : first ≠ copy)
    (got : B.graph.nodes[first]? = some kept) (got' : B.graph.nodes[copy]? = some node)
    (length : node.inputs.length = kept.inputs.length)
    (length' : node.outputs.length = kept.outputs.length) :
    (B.foldCopy kept copy node).graph.Consistent ∧
      (∀ id : NodeId, (B.foldCopy kept copy node).graph.nodes[id]? =
        if id = copy then none else B.graph.nodes[id]?) ∧
      ∀ source target, (B.foldCopy kept copy node).graph.Feeds source target ↔
        ∃ source' target', B.graph.Feeds source' target' ∧
          replaced (node.outputs.zip kept.outputs) source' = source ∧
          replaced (node.inputs.zip kept.inputs) target' = target := by
  have handed := handed_ports graph wiring ne got got'
  have dropped := handed.graph.drop (handed.ports.nodes ▸ got')
  have still := @replaced_of_not_mem _ _ (node.inputs.zip kept.inputs)
  have still' := @replaced_of_not_mem _ _ (node.outputs.zip kept.outputs)
  rw [map_fst_zip length.le] at still
  rw [map_fst_zip length'.le] at still'
  refine ⟨dropped.wf, fun id => (dropped.nodes id).trans (by rw [handed.ports.nodes]),
    fun source target => ((dropped.feeds source target).trans
      (and_congr_left' (handed.feeds source target))).trans ⟨?_, ?_⟩⟩
  · rintro ⟨⟨source', target', fed, left, right⟩, free, free'⟩
    refine ⟨source', target', fed, ?_, ?_⟩
    · rcases left with rfl | rfl
      · exact still' free
      · rfl
    · rcases right with rfl | rfl
      · exact still free'
      · rfl
  · rintro ⟨source', target', fed, rfl, rfl⟩
    exact ⟨⟨source', target', fed, .inr rfl, .inr rfl⟩,
      replaced_not_mem (graph.outputsNodup _ _ got') length' (fun port own own' =>
        ne (graph.output_unique got own got' own')) source',
      replaced_not_mem (graph.inputsNodup _ _ got') length (fun port own own' =>
        ne (graph.input_unique got own got' own')) target'⟩

end Move

/-! ## All copies -/

theorem block_foldCopy (B : Placed) (kept : Node) (copy : NodeId) (node : Node) :
    (B.foldCopy kept copy node).block =
      { B.block with
        nodes := B.block.nodes.erase copy, origins := B.block.origins.erase copy } := by
  have inputs : ((node.inputs.zip kept.inputs).foldl moveInput B).block = B.block := by
    refine foldl_keeps (fun _ (post : Placed) => post.block = B.block) ?_ rfl
    exact fun _ _ _ eq => eq
  have outputs : ((node.outputs.zip kept.outputs).foldl moveOutput
      ((node.inputs.zip kept.inputs).foldl moveInput B)).block = B.block := by
    refine foldl_keeps (fun _ (post : Placed) => post.block = B.block) ?_ inputs
    exact fun _ _ _ eq => eq
  rw [foldCopy, outputs]

/-- The first copy of each node that has been seen is kept, and it is none of those to come. -/
structure Unified (P : Placed → Prop) (rest : List (NodeId × NodeId))
    (state : HandleMap .node NodeId × Placed) : Prop where
  holds : P state.2
  nodup : (rest.map Prod.fst).Nodup
  named : ∀ pair ∈ rest, state.2.block.origins[pair.1]? = some pair.2
  kept : ∀ origin first : NodeId, state.1[origin]? = some first → first ∈ state.2.block.nodes ∧
    state.2.block.origins[first]? = some origin ∧ first ∉ rest.map Prod.fst
  seen : ∀ copy origin : NodeId, copy ∈ state.2.block.nodes →
    state.2.block.origins[copy]? = some origin → copy ∉ rest.map Prod.fst →
      state.1[origin]? = some copy

namespace Unified

variable {copy origin : NodeId} {rest : List (NodeId × NodeId)}
  {state : HandleMap .node NodeId × Placed} (unified : Unified P ((copy, origin) :: rest) state)

include unified

private theorem later : (∀ pair ∈ rest, state.2.block.origins[pair.1]? = some pair.2) ∧
    (∀ origin first : NodeId, state.1[origin]? = some first → first ∈ state.2.block.nodes ∧
      state.2.block.origins[first]? = some origin ∧ first ∉ rest.map Prod.fst) ∧
    ∀ id origin : NodeId, id ≠ copy → id ∈ state.2.block.nodes →
      state.2.block.origins[id]? = some origin → id ∉ rest.map Prod.fst →
        state.1[origin]? = some id := by
  refine ⟨fun pair mem => unified.named pair (.tail _ mem), fun origin first chosen => ?_,
    fun id origin ne own copied absent => unified.seen id origin own copied ?_⟩
  · obtain ⟨own, copied, absent⟩ := unified.kept origin first chosen
    exact ⟨own, copied, fun later => absent (.tail _ later)⟩
  · rw [map_cons, mem_cons, not_or]
    exact ⟨ne, absent⟩

/-- A copy is gone already, the first of its node, or folded into the first one. -/
theorem step (folds : ∀ {state : Placed} {first copy origin : NodeId} {kept node : Node},
      P state → first ≠ copy → first ∈ state.block.nodes → copy ∈ state.block.nodes →
      state.block.origins[first]? = some origin → state.block.origins[copy]? = some origin →
      state.graph.nodes[first]? = some kept → state.graph.nodes[copy]? = some node →
      P (state.foldCopy kept copy node))
    {next : HandleMap .node NodeId × Placed} (run : unifyCopy state (copy, origin) = .ok next) :
    Unified P rest next := by
  obtain ⟨later, kept, seen⟩ := unified.later
  obtain ⟨fresh, nodup⟩ := nodup_cons.mp unified.nodup
  have named := unified.named _ (.head _)
  simp only [unifyCopy] at run
  split at run
  · next gone =>
    cases run
    exact ⟨unified.holds, nodup, later, kept, fun id origin own => seen id origin
      (fun eq => gone (eq ▸ own)) own⟩
  next mem =>
  rw [not_not] at mem
  split at run
  · next new =>
    cases run
    refine ⟨unified.holds, nodup, later, fun origin' first chosen => ?_,
      fun id origin' own copied absent => ?_⟩
    · rw [getElem?_insert] at chosen
      split at chosen
      · next eq =>
        cases chosen
        exact ⟨mem, eq ▸ named, fresh⟩
      · exact kept origin' first chosen
    · rw [getElem?_insert]
      by_cases eq : id = copy
      · cases eq
        rw [if_pos (Option.mem_unique named copied)]
      · have chosen := seen id origin' eq own copied absent
        rw [if_neg, chosen]
        rintro rfl
        cases new.symm.trans chosen
  next first chosen =>
  obtain ⟨record, got, run⟩ := of_bind run
  obtain ⟨node, got', run⟩ := of_bind run
  have settled : next = (state.1, state.2.foldCopy record copy node) := by
    split at run
    · obtain ⟨-, -, run⟩ := of_bind run
      split at run
      · obtain ⟨-, -, ⟨⟩⟩ := of_bind run
        rfl
      · exact (Except.ok.inj run).symm
    · split at run
      · obtain ⟨-, -, ⟨⟩⟩ := of_bind run
        rfl
      · exact (Except.ok.inj run).symm
  have apart : ∀ {origin first : NodeId}, state.1[origin]? = some first → first ≠ copy :=
    fun chosen eq => (unified.kept _ _ chosen).2.2 (eq ▸ .head _)
  have origins : ∀ id : NodeId, id ≠ copy →
      (state.2.foldCopy record copy node).block.origins[id]? = state.2.block.origins[id]? := by
    intro id other
    rw [block_foldCopy, getElem?_erase, if_neg (Ne.symm other)]
  have nodes : ∀ id, id ∈ (state.2.foldCopy record copy node).block.nodes ↔
      id ≠ copy ∧ id ∈ state.2.block.nodes := by
    intro id
    rw [block_foldCopy]
    exact HandleSet.mem_erase_iff _
  obtain ⟨own, copied, -⟩ := unified.kept origin first chosen
  subst settled
  refine ⟨folds unified.holds (apart chosen) own mem copied named (Graph.node_eq_ok got)
    (Graph.node_eq_ok got'), nodup, fun pair among => ?_, fun origin' first chosen => ?_,
    fun id origin' own copied => ?_⟩
  · refine (origins pair.1 ?_).trans (later pair among)
    rintro rfl
    exact fresh (mem_map.mpr ⟨pair, among, rfl⟩)
  · obtain ⟨own, copied, absent⟩ := kept origin' first chosen
    exact ⟨(nodes first).mpr ⟨apart chosen, own⟩, (origins first (apart chosen)).trans copied,
      absent⟩
  · obtain ⟨ne, own⟩ := (nodes id).mp own
    exact seen id origin' ne own ((origins id ne).symm.trans copied)

/-- A copy is looked at without a fault where the copies and block ports of the block exist. -/
private theorem exists_step (checked : state.2.wiring.checkInputs state.2.block.inputs = .ok ())
    (checked' : state.2.wiring.checkOutputs state.2.block.outputs = .ok ())
    (stored : ∀ id origin : NodeId, state.2.block.origins[id]? = some origin →
      id ∈ state.2.block.nodes → ∃ node, state.2.graph.nodes[id]? = some node) :
    ∃ next, unifyCopy state (copy, origin) = .ok next := by
  by_cases gone : copy ∉ state.2.block.nodes
  · exact ⟨state, by simp only [unifyCopy, if_pos gone]; rfl⟩
  cases seen : state.1[origin]? with
  | none => exact ⟨(state.1.insert origin copy, state.2), by
      simp only [unifyCopy, if_neg gone, seen]; rfl⟩
  | some first =>
    obtain ⟨own, copied, -⟩ := unified.kept _ _ seen
    obtain ⟨kept, got⟩ := stored first _ copied own
    obtain ⟨node, got'⟩ := stored copy _ (unified.named _ (.head _)) (not_not.mp gone)
    have read : state.2.graph.node first = .ok kept := by rw [Graph.node, got]
    have read' : state.2.graph.node copy = .ok node := by rw [Graph.node, got']
    refine ⟨(state.1, state.2.foldCopy kept copy node), ?_⟩
    simp only [unifyCopy, if_neg gone, seen]
    rw [bind_of_ok read, bind_of_ok read', bind_of_ok checked, bind_of_ok checked', ite_self,
      ite_self]
    rfl

end Unified

theorem unified_start {B : Placed} (holds : P B) : Unified P B.block.origins.toList (∅, B) :=
  ⟨holds, nodup_map_fst_toList _, fun pair => (mem_toList_iff _).mp, by simp,
    fun copy origin _ copied absent => absurd (mem_map.mpr ⟨(copy, origin),
      (mem_toList_iff _).mpr copied, rfl⟩) absent⟩

/-- All copies are looked at without a fault where each step keeps that they exist. -/
theorem exists_unified {P : Placed → Prop} {B : Placed} (holds : P B)
    (sound : ∀ {state : Placed}, P state → state.wiring.checkInputs state.block.inputs = .ok () ∧
      state.wiring.checkOutputs state.block.outputs = .ok () ∧
      ∀ id origin : NodeId, state.block.origins[id]? = some origin → id ∈ state.block.nodes →
        ∃ node, state.graph.nodes[id]? = some node)
    (folds : ∀ {state : Placed} {first copy origin : NodeId} {kept node : Node},
      P state → first ≠ copy → first ∈ state.block.nodes → copy ∈ state.block.nodes →
      state.block.origins[first]? = some origin → state.block.origins[copy]? = some origin →
      state.graph.nodes[first]? = some kept → state.graph.nodes[copy]? = some node →
      P (state.foldCopy kept copy node)) :
    ∃ firsts folded, Unified P [] (firsts, folded) ∧
      B.unify = .ok folded.mergeInputs.mergeOutputs := by
  obtain ⟨⟨firsts, folded⟩, run, unified⟩ := foldlM_keeps (Unified P)
    (fun pair rest state unified => by
      obtain ⟨checked, checked', stored⟩ := sound unified.holds
      obtain ⟨next, run⟩ := unified.exists_step checked checked' stored
      exact ⟨next, run, unified.step folds run⟩) (unified_start holds)
  obtain ⟨checked, checked', -⟩ := sound unified.holds
  refine ⟨firsts, folded, unified, ?_⟩
  rw [unify, bind_of_ok run]
  exact (bind_of_ok checked).trans (bind_of_ok checked')

end Placed

end Staging
