import Staging.Proofs.Routes

/-! # Arrangements of blocks

Blocks are arranged in a site if each node lies in one block and each block has
the nodes and the block ports that lie in it. Block ports can be taken out of a
block.
-/

namespace Staging

open Std Relation List HandleSet

variable {block : Block} {site : Site} {place : Places} {origins : Origins}
  {source : Graph} {kind : BlockId → Bool}

/-- Copies are connected inside of blocks only, and no identity feeds another one. -/
structure Site.Bound (site : Site) (place : Places) : Prop where
  inside : ∀ output input first second, site.graph.Feeds output input →
    site.graph.outputOwner? output = some first → site.graph.inputOwner? input = some second →
    place first = place second
  bare : ∀ output input id, site.graph.Feeds output input →
    site.graph.outputOwner? output = some id → site.graph.isIdentity id = false

/-- Copies lie in blocks, are connected inside of blocks only, and block ports wrap ports of the
nodes of their block. Blocks of one kind are entered at shuffles, others elsewhere. -/
structure Arranged (source : Graph) (origins : Origins) (kind : BlockId → Bool)
    (place : Places) (site : Site) (blocks : List Block) : Prop
    extends Roster site.wiring blocks, site.Bound place where
  graph : site.graph.Consistent
  faithful : Faithful site.graph source origins
  entryPlaced : ∀ entry block port, site.wiring.entryOf entry = some (block, port) →
    ∃ owner, site.graph.inputOwner? port = some owner ∧ place owner = block ∧
      site.graph.isShuffleBoundary owner = kind block
  exitPlaced : ∀ exit block port, site.wiring.exitOf exit = some (block, port) →
    ∃ owner, site.graph.outputOwner? port = some owner ∧ place owner = block
  fits : ∀ block ∈ blocks, block.Fits site.graph place origins
  cover : ∀ id node, site.graph.nodes[id]? = some node → ∃ block ∈ blocks, place id = block.id

namespace Arranged

variable {blocks blocks' : List Block} (arranged : Arranged source origins kind place site blocks)

include arranged

/-- Blocks in which there is nothing can be left out. -/
private theorem subset (nodup : (blocks'.map (·.id)).Nodup)
    (mem : ∀ block ∈ blocks', block ∈ blocks)
    (kept : ∀ block ∈ blocks, block.isEmpty = false → block ∈ blocks') :
    Arranged source origins kind place site blocks' where
  toRoster := arranged.toRoster.subset nodup mem
  toBound := arranged.toBound
  graph := arranged.graph
  faithful := arranged.faithful
  entryPlaced := arranged.entryPlaced
  exitPlaced := arranged.exitPlaced
  fits block has := arranged.fits block (mem block has)
  cover id node got := by
    obtain ⟨block, has, placed⟩ := arranged.cover id node got
    have inside := ((arranged.fits block has).nodes id).mpr ⟨placed, node, got⟩
    exact ⟨block, kept block has ((isEmpty_eq_false_iff _).mpr ⟨id, inside⟩), placed⟩

theorem perm (permuted : blocks.Perm blocks') : Arranged source origins kind place site blocks' :=
  arranged.subset ((permuted.map _).nodup arranged.nodup) (fun _ => permuted.mem_iff.mpr)
    fun _ mem _ => permuted.mem_iff.mp mem

theorem sublist (sub : blocks'.Sublist blocks)
    (kept : ∀ block ∈ blocks, block.isEmpty = false → block ∈ blocks') :
    Arranged source origins kind place site blocks' :=
  arranged.subset ((sub.map _).nodup arranged.nodup) (fun _ mem => sub.subset mem) kept

end Arranged

/-! ## Block ports that are taken out -/

section Listed

variable {α β : Type} [DecidableEq α] {of of' : α → Option (BlockId × β)} {old new : List α}
  {id : BlockId} (mem : ∀ port, port ∈ old ↔ ∃ inner, of port = some (id, inner))
  (removed : ∀ port, of' port = if port ∈ old ∧ port ∉ new then none else of port)

include mem removed

/-- A block lists the block ports that are left of its own. -/
theorem mem_left_iff (sub : new ⊆ old) (port : α) :
    port ∈ new ↔ ∃ inner, of' port = some (id, inner) := by
  rw [removed]
  by_cases kept : port ∈ new
  · rw [if_neg fun gone => gone.2 kept, ← mem]
    exact iff_of_true kept (sub kept)
  · refine iff_of_false kept ?_
    rintro ⟨inner, has⟩
    split at has
    · cases has
    · next stays => exact stays ⟨(mem port).mpr ⟨inner, has⟩, kept⟩

/-- No block port of another block has been taken out. -/
theorem exists_left_iff {id' : BlockId} (ne : id' ≠ id) (port : α) :
    (∃ inner, of' port = some (id', inner)) ↔ ∃ inner, of port = some (id', inner) := by
  rw [removed]
  split
  · next gone =>
    obtain ⟨inner, has⟩ := (mem port).mp gone.1
    simp [has, ne.symm]
  · rfl

end Listed

/-- What is left out first or later is left out. -/
theorem ite_removed {α : Type} {old middle new : Prop} [Decidable old] [Decidable middle]
    [Decidable new] (sub : middle → old) (sub' : new → middle) {item : Option α} :
    (if middle ∧ ¬ new then none else if old ∧ ¬ middle then none else item) =
      if old ∧ ¬ new then none else item := by
  by_cases early : middle
  · simp [early, sub early]
  · have late : ¬ new := fun has => early (sub' has)
    simp [early, late]

/-- The block has lost block ports, and links may be others. -/
structure Placed.Rewired (pre post : Placed) : Prop where
  graph : post.graph = pre.graph
  id : post.block.id = pre.block.id
  nodes : post.block.nodes = pre.block.nodes
  origins : post.block.origins = pre.block.origins
  wf : post.wiring.Consistent
  next : post.wiring.next = pre.wiring.next
  inputs : post.block.inputs.Sublist pre.block.inputs
  outputs : post.block.outputs.Sublist pre.block.outputs
  entryOf : ∀ entry, post.wiring.entryOf entry =
    if entry ∈ pre.block.inputs ∧ entry ∉ post.block.inputs then none
    else pre.wiring.entryOf entry
  exitOf : ∀ exit, post.wiring.exitOf exit =
    if exit ∈ pre.block.outputs ∧ exit ∉ post.block.outputs then none
    else pre.wiring.exitOf exit

namespace Placed.Rewired

variable {first second third pre post : Placed}

theorem refl (placed : Placed) (wf : placed.wiring.Consistent) : placed.Rewired placed where
  graph := rfl
  id := rfl
  nodes := rfl
  origins := rfl
  wf := wf
  next := rfl
  inputs := .refl _
  outputs := .refl _
  entryOf entry := by simp
  exitOf exit := by simp

theorem trans (one : first.Rewired second) (two : second.Rewired third) : first.Rewired third where
  graph := two.graph.trans one.graph
  id := two.id.trans one.id
  nodes := two.nodes.trans one.nodes
  origins := two.origins.trans one.origins
  wf := two.wf
  next := two.next.trans one.next
  inputs := two.inputs.trans one.inputs
  outputs := two.outputs.trans one.outputs
  entryOf entry := by
    rw [two.entryOf, one.entryOf]
    exact ite_removed (fun has => one.inputs.subset has) fun has => two.inputs.subset has
  exitOf exit := by
    rw [two.exitOf, one.exitOf]
    exact ite_removed (fun has => one.outputs.subset has) fun has => two.outputs.subset has

variable (rewired : pre.Rewired post) {entry : BlockInputId} {exit : BlockOutputId}

include rewired

/-- The block inputs that are left wrap what they wrapped. -/
theorem entryOf_eq_some {wraps : BlockId × InputId} (got : post.wiring.entryOf entry = some wraps) :
    pre.wiring.entryOf entry = some wraps := by
  rw [rewired.entryOf] at got
  split at got
  · cases got
  · exact got

theorem exitOf_eq_some {wraps : BlockId × OutputId} (got : post.wiring.exitOf exit = some wraps) :
    pre.wiring.exitOf exit = some wraps := by
  rw [rewired.exitOf] at got
  split at got
  · cases got
  · exact got

/-- Block ports with links wrap what they wrapped. -/
theorem of_linked (link : post.wiring.Linked exit entry) :
    (post.wiring.exitOf exit = pre.wiring.exitOf exit ∧
      (exit ∈ post.block.outputs ↔ exit ∈ pre.block.outputs)) ∧
    post.wiring.entryOf entry = pre.wiring.entryOf entry ∧
      (entry ∈ post.block.inputs ↔ entry ∈ pre.block.inputs) := by
  obtain ⟨wraps, left⟩ := Wiring.exists_exitOf_of_linked link
  obtain ⟨wraps', entered⟩ := rewired.wf.exists_entryOf link
  rw [left, entered]
  rw [rewired.exitOf, Option.ite_none_left_eq_some] at left
  rw [rewired.entryOf, Option.ite_none_left_eq_some] at entered
  exact ⟨⟨left.2.symm, fun own => rewired.outputs.subset own, fun own =>
    by_contra fun gone => left.1 ⟨own, gone⟩⟩, entered.2.symm, fun own =>
      rewired.inputs.subset own, fun own => by_contra fun gone => entered.1 ⟨own, gone⟩⟩

end Placed.Rewired

end Staging
