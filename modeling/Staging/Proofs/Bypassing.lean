import Staging.Proofs.Reductions

/-! # Bypassing identities in stages

An identity that is connected with nothing inside of its block can be passed
by: what fed it then feeds what it fed. Stages without reduce blocks get smaller
in this way, and they lose the blocks in which nothing is left.
-/

namespace Staging

open Std Relation List

variable {site : Site} {B : Placed} {source : Graph} {origins : Origins} {kind : BlockId → Bool}
  {place : Places} {free : BlockId → Prop} {entry : BlockInputId} {stages : List Stage}

namespace Placed

section Bypass

variable {others : List Block}
  (arranged : Arranged source origins kind place ⟨B.graph, B.wiring⟩ (B.block :: others))

include arranged

/-- A block input of the block that wraps a port is found by the port. -/
theorem mem_entriesOf_iff {port : InputId} : entry ∈ B.block.entriesOf B.wiring port ↔
    B.wiring.entryOf entry = some (B.block.id, port) := by
  have entries := arranged.entries _ (.head _) entry
  refine ⟨fun mem => ?_, fun entered => (mem_entriesOf entered).mpr
    ⟨entries.mpr ⟨port, entered⟩, rfl⟩⟩
  obtain ⟨port', entered⟩ := entries.mp (mem_of_mem_filter mem)
  obtain ⟨-, rfl⟩ := (mem_entriesOf entered).mp mem
  exact entered

theorem mem_exitsOf_iff {exit : BlockOutputId} {port : OutputId} :
    exit ∈ B.block.exitsOf B.wiring port ↔ B.wiring.exitOf exit = some (B.block.id, port) := by
  have exits := arranged.exits _ (.head _) exit
  refine ⟨fun mem => ?_, fun left => (mem_exitsOf left).mpr ⟨exits.mpr ⟨port, left⟩, rfl⟩⟩
  obtain ⟨port', left⟩ := exits.mp (mem_of_mem_filter mem)
  obtain ⟨-, rfl⟩ := (mem_exitsOf left).mp mem
  exact left

/-- Joining the links of an identity across it. -/
theorem joinAcross_spec {id : NodeId} {node : Node} {input : InputId} {out : OutputId}
    (mem : id ∈ B.block.nodes) (got : B.graph.nodes[id]? = some node)
    (entered : node.inputs = [input]) (left : node.outputs = [out]) :
    B.Rewired (B.joinAcross (B.block.entriesOf B.wiring input) (B.block.exitsOf B.wiring out)) ∧
      (∀ first last, (B.joinAcross (B.block.entriesOf B.wiring input)
          (B.block.exitsOf B.wiring out)).wiring.Joins first last ↔
        first ≠ out ∧ last ≠ input ∧ (B.wiring.Joins first last ∨
          B.wiring.Joins first input ∧ B.wiring.Joins out last)) ∧
      ¬ (B.joinAcross (B.block.entriesOf B.wiring input)
        (B.block.exitsOf B.wiring out)).wiring.Wraps out := by
  have wf : B.wiring.Consistent := arranged.wf
  let entries := B.block.entriesOf B.wiring input
  let exits := B.block.exitsOf B.wiring out
  have owned : B.graph.inputOwner? input = some id :=
    arranged.graph.input_of_mem got (by simp [entered])
  have owned' : B.graph.outputOwner? out = some id :=
    arranged.graph.output_of_mem got (by simp [left])
  have mem_entries : ∀ entry block port, B.wiring.entryOf entry = some (block, port) →
      (entry ∈ entries ↔ port = input) := fun entry block port wraps =>
    (mem_entriesOf wraps).trans (and_iff_right_of_imp fun eq =>
      mem_inputs_of_owner arranged mem (eq ▸ owned) wraps)
  have mem_exits : ∀ exit block port, B.wiring.exitOf exit = some (block, port) →
      (exit ∈ exits ↔ port = out) := fun exit block port wraps =>
    (mem_exitsOf wraps).trans (and_iff_right_of_imp fun eq =>
      mem_outputs_of_owner arranged mem (eq ▸ owned') wraps)
  have inputs : ∀ entry ∈ entries, entry ∈ B.block.inputs := fun _ => mem_of_mem_filter
  have outputs : ∀ exit ∈ exits, exit ∈ B.block.outputs := fun _ => mem_of_mem_filter
  obtain ⟨rewired, connects, unwrapped⟩ := connects_joinAcross wf inputs outputs
  refine ⟨rewired, fun first last => ?_, ?_⟩
  swap
  · rintro ⟨exit, block, wraps⟩
    have within := (mem_exits exit block out (rewired.exitOf_eq_some wraps)).mpr rfl
    cases (unwrapped exit within).symm.trans wraps
  rw [Wiring.joins_iff_connects]
  simp only [show ∀ left right, (B.joinAcross (B.block.entriesOf B.wiring input)
    (B.block.exitsOf B.wiring out)).wiring.Connects left right ↔ _ from connects]
  constructor
  · rintro ⟨block, block', exit, entry, from', to', link, kept, kept'⟩
    rw [mem_exits exit block first from'] at kept
    rw [mem_entries entry block' last to'] at kept'
    refine ⟨kept, kept', ?_⟩
    rcases link with link | ⟨⟨entry', within, link⟩, exit', within', link'⟩
    · exact .inl ⟨exit, entry, block, block', from', to', link⟩
    · exact .inr ⟨⟨exit, entry', block, _, from', (mem_entriesOf_iff arranged).mp within, link⟩,
        exit', entry, _, block', (mem_exitsOf_iff arranged).mp within', to', link'⟩
  · rintro ⟨ne, ne', joined | ⟨joined, joined'⟩⟩
    · obtain ⟨exit, entry, block, block', from', to', link⟩ := joined
      exact ⟨block, block', exit, entry, from', to', .inl link,
        fun within => ne ((mem_exits exit block first from').mp within),
        fun within => ne' ((mem_entries entry block' last to').mp within)⟩
    · obtain ⟨exit, entry', block, block', from', to', link⟩ := joined
      obtain ⟨exit', entry, block'', block''', from'', to'', link'⟩ := joined'
      exact ⟨block, block''', exit, entry, from', to'', .inr
        ⟨⟨entry', (mem_entries entry' block' input to').mpr rfl, link⟩,
          exit', (mem_exits exit' block'' out from'').mpr rfl, link'⟩,
        fun within => ne ((mem_exits exit block first from').mp within),
        fun within => ne' ((mem_entries entry block''' last to'').mp within)⟩

/-- The identity behind a block input of the block can be bypassed. -/
theorem bypassAt_eq_ok (allowed : free B.block.id)
    (own : ∀ block port, B.wiring.entryOf entry = some (block, port) → block = B.block.id) :
    ∃ post, B.bypassAt entry = .ok post ∧ B.Rewired post ∧
      Reduced source origins kind place free others B post := by
  have fits := arranged.fits B.block (.head _)
  obtain ⟨checked, checked'⟩ := (secluded_of_arranged arranged).checked
  have unchanged : B.Rewired B ∧ Reduced source origins kind place free others B B :=
    ⟨.refl B arranged.wf, reduced_refl arranged⟩
  cases known : B.wiring.inputs[entry]? with
  | none => exact ⟨B, by simp only [bypassAt, known]; rfl, unchanged⟩
  | some wrapped =>
    have entered : B.wiring.entryOf entry = some (wrapped.block, wrapped.port) := by
      rw [Wiring.entryOf, known, Option.map_some]
    obtain ⟨owner, owned, placed', -⟩ := arranged.entryPlaced entry _ _ entered
    obtain ⟨port, stored, rfl⟩ := Option.map_eq_some_iff.mp owned
    obtain ⟨node, got, -⟩ := arranged.graph.node_of_input owned
    have has : port.owner ∈ B.block.nodes :=
      (fits.nodes _).mpr ⟨placed'.trans (own _ _ entered), node, got⟩
    have looked : B.graph.input wrapped.port = .ok port := by
      rw [Graph.input, show B.graph.inputs[wrapped.port]? = some port from stored]
    have got' : B.graph.nodes[port.owner]? = some node := got
    simp only [bypassAt, known]
    rw [bind_of_ok looked]
    simp only [got']
    cases head : node.outputs.head? with
    | none => exact ⟨B, rfl, unchanged⟩
    | some out =>
      dsimp only
      split
      · next test =>
        simp only [Bool.and_eq_true] at test
        obtain ⟨⟨identity, unfed⟩, unused⟩ := test
        have shape := identity
        simp only [Node.isIdentity, Bool.and_eq_true, beq_iff_eq] at shape
        obtain ⟨input, inputs⟩ := length_eq_one_iff.mp shape.1.2
        obtain ⟨out', outputs⟩ := length_eq_one_iff.mp shape.2
        obtain rfl : out' = out := by simpa [outputs] using head
        obtain rfl : input = wrapped.port := by
          have mem := (arranged.graph.mem_inputs_iff got).mpr owned
          rw [inputs, mem_singleton] at mem
          exact mem.symm
        rw [bind_of_ok checked']
        split
        · exact ⟨B, rfl, unchanged⟩
        · next filled =>
          rw [bind_of_ok checked]
          obtain ⟨rewired, joins, unwrapped⟩ := joinAcross_spec arranged has got inputs outputs
          obtain ⟨exit, wraps⟩ := exists_mem_of_ne_nil _ fun none =>
            filled (isEmpty_iff.mpr none)
          refine ⟨_, rfl, rewired, Narrowed.reduced arranged
            (narrowed_joinAcross arranged.graph arranged.toRoster (fun _ => mem_of_mem_filter)
              fun _ => mem_of_mem_filter)
            (.bypass allowed rewired.graph got identity ((fits.nodes _).mp has).1 inputs outputs
              ?_ ?_ joins ⟨exit, _, (mem_exitsOf_iff arranged).mp wraps⟩ fun port wrapped =>
                ⟨rewired.wraps port wrapped, fun eq => unwrapped (eq ▸ wrapped)⟩)⟩
          · intro first fed
            have fed := (arranged.graph.agree first _).mp fed
            rw [Graph.sources, show B.graph.inputs[wrapped.port]? = some port from stored] at fed
            exact (HandleSet.isEmpty_iff _).mp unfed first fed
          · exact (HandleSet.isEmpty_iff _).mp unused
      · exact ⟨B, rfl, unchanged⟩

/-- The identities behind all block inputs of the block can be bypassed. -/
theorem bypassEach_eq_ok (allowed : free B.block.id) : ∃ post,
    B.block.inputs.foldlM bypassAt B = .ok post ∧
      Reduced source origins kind place free others B post := by
  let inv : List BlockInputId → Placed → Prop := fun rest state =>
    (∀ entry ∈ rest, entry ∈ B.block.inputs) ∧ B.Rewired state ∧
      Reduced source origins kind place free others B state
  obtain ⟨between, run, -, -, reduced⟩ : ∃ result,
      B.block.inputs.foldlM bypassAt B = .ok result ∧ inv [] result := by
    refine foldlM_keeps inv ?_ ⟨fun _ has => has, .refl B arranged.wf, reduced_refl arranged⟩
    rintro entry rest state ⟨mem, rewired, reduced⟩
    obtain ⟨port, entered⟩ := (arranged.entries _ (.head _) entry).mp (mem entry (.head _))
    have own : ∀ block port, state.wiring.entryOf entry = some (block, port) →
        block = state.block.id := by
      intro block port got
      rw [rewired.entryOf_eq_some got] at entered
      cases entered
      exact rewired.id.symm
    obtain ⟨next, stepped, rewired', reduced'⟩ := bypassAt_eq_ok reduced.arranged
      (reduced.id.symm ▸ allowed) own
    exact ⟨next, stepped, fun other later => mem other (.tail _ later),
      rewired.trans rewired', reduced.trans reduced'⟩
  exact ⟨between, run, reduced⟩

end Bypass

end Placed

end Staging
