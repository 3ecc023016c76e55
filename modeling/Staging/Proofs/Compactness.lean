import Staging.Proofs.Bypassing
import Staging.Proofs.Waking

/-! # Blocks that cannot be compacted further

Compaction stops when no block gets smaller any more. Then every block is tight: its block
ports wrap different ports and have links, and no node of it is dead. A block stays tight
while steps are taken in others.
-/

namespace Staging

open Std Relation List ExtTreeSet HandleSet

variable {pre site site' : Site} {source : Graph} {origins : Origins} {kind : BlockId → Bool}
  {place : Places} {blocks : List Block} {block : Block} {node : Node}

/-! ## Repetitions that have come to an end -/

/-- One more step does not make the result of a repetition smaller. -/
theorem exists_step_of_shrinkM {ε σ : Type} {size : σ → Nat} {step : σ → Except ε σ}
    {state result : σ} (run : shrinkM size step state = .ok result) :
    ∃ next, step result = .ok next ∧ ¬ size next < size result := by
  fun_induction shrinkM size step state with
  | case1 => cases run
  | case2 state next stepped _ ih => exact ih run
  | case3 state next stepped still =>
    cases run
    exact ⟨next, stepped, still⟩

/-- A repetition makes the state smaller, or leaves it as it is. -/
theorem shrinkM_eq {ε σ : Type} {size : σ → Nat} {step : σ → Except ε σ} {state result : σ}
    (run : shrinkM size step state = .ok result) : size result < size state ∨ result = state := by
  fun_induction shrinkM size step state with
  | case1 => cases run
  | case2 state next stepped smaller ih =>
    exact .inl ((ih run).elim (fun less => less.trans smaller) fun eq => eq ▸ smaller)
  | case3 state next stepped still =>
    cases run
    exact .inr rfl

/-- If each change makes an element smaller or leaves all as it is, then changes in turn
that make the elements no smaller leave each as it is. -/
theorem still_of_foldlM {ε α σ : Type} {size : α → Nat} {still : σ → α → Prop}
    {step : List α × σ → α → Except ε (List α × σ)}
    (shrinks : ∀ {done state item result}, step (done, state) item = .ok result →
      ∃ changed, result.1 = done ++ [changed] ∧ (size changed < size item ∨
        changed = item ∧ result.2 = state ∧ still state item))
    {items done : List α} {state : σ} {result : List α × σ}
    (run : items.foldlM step (done, state) = .ok result) :
    ∃ changed, result.1 = done ++ changed ∧ total size changed ≤ total size items ∧
      (¬ total size changed < total size items → ∀ item ∈ items, still state item) := by
  induction items generalizing done state with
  | nil =>
    cases run
    exact ⟨[], (append_nil _).symm, Nat.le_refl _, by simp⟩
  | cons item rest ih =>
    rw [foldlM_cons] at run
    obtain ⟨⟨done₁, state₁⟩, stepped, run⟩ := of_bind run
    obtain ⟨first, rfl, change⟩ := shrinks stepped
    obtain ⟨changed, eq, less, kept⟩ := ih run
    refine ⟨first :: changed, by rw [eq, append_assoc]; rfl, ?_⟩
    simp only [total, foldr_cons] at less kept ⊢
    rcases change with smaller | ⟨rfl, rfl, alike⟩
    · exact ⟨by omega, fun large => absurd (by omega) large⟩
    · exact ⟨by omega, fun large => forall_mem_cons.mpr ⟨alike, kept (by omega)⟩⟩

/-! ## Tight blocks -/

/-- The block ports of the block wrap different ports and have links, and no node of
the block is dead. -/
structure Block.Tight (site : Site) (block : Block) : Prop where
  entries : ∀ entry ∈ block.inputs, ∀ other ∈ block.inputs,
    site.wiring.entryOf entry = site.wiring.entryOf other → entry = other
  exits : ∀ exit ∈ block.outputs, ∀ other ∈ block.outputs,
    site.wiring.exitOf exit = site.wiring.exitOf other → exit = other
  entered : ∀ entry ∈ block.inputs, ∃ exit, site.wiring.Linked exit entry
  left : ∀ exit ∈ block.outputs, ∃ entry, site.wiring.Linked exit entry
  busy : ∀ id ∈ block.nodes, ∀ node, site.graph.nodes[id]? = some node →
    node.isBoundary = false → site.Busy node

section Arranged

variable (arranged : Arranged source origins kind place site blocks) (mem : block ∈ blocks)

include arranged mem

/-- Data gets to a port through the only block input of a block that wraps it. -/
theorem Arranged.exists_linked_entry (apart : ∀ entry ∈ block.inputs, ∀ other ∈ block.inputs,
      site.wiring.entryOf entry = site.wiring.entryOf other → entry = other)
    {entry : BlockInputId} {port : InputId} {out : OutputId}
    (entered : site.wiring.entryOf entry = some (block.id, port))
    (joined : site.wiring.Joins out port) : ∃ exit, site.wiring.Linked exit entry := by
  have entries := arranged.entries block mem
  obtain ⟨exit, other, -, place', -, entered', link⟩ := joined
  obtain ⟨owner, owned, placed, -⟩ := arranged.entryPlaced entry _ port entered
  obtain ⟨_, owned', rfl, -⟩ := arranged.entryPlaced other place' port entered'
  cases owned.symm.trans owned'
  rw [placed] at entered'
  obtain rfl := apart entry ((entries entry).mpr ⟨port, entered⟩) other
    ((entries other).mpr ⟨port, entered'⟩) (entered.trans entered'.symm)
  exact ⟨exit, link⟩

theorem Arranged.exists_linked_exit (apart : ∀ exit ∈ block.outputs, ∀ other ∈ block.outputs,
      site.wiring.exitOf exit = site.wiring.exitOf other → exit = other)
    {exit : BlockOutputId} {port : OutputId} {input : InputId}
    (left : site.wiring.exitOf exit = some (block.id, port))
    (joined : site.wiring.Joins port input) : ∃ entry, site.wiring.Linked exit entry := by
  have exits := arranged.exits block mem
  obtain ⟨other, entry, place', -, left', -, link⟩ := joined
  obtain ⟨owner, owned, placed⟩ := arranged.exitPlaced exit _ port left
  obtain ⟨_, owned', rfl⟩ := arranged.exitPlaced other place' port left'
  cases owned.symm.trans owned'
  rw [placed] at left'
  obtain rfl := apart exit ((exits exit).mpr ⟨port, left⟩) other
    ((exits other).mpr ⟨port, left'⟩) (left.trans left'.symm)
  exact ⟨entry, link⟩

/-- A block stays tight if its block ports wrap what they wrapped and steps keep what
there is at the ports of its nodes. -/
theorem Block.Tight.frame {former : Block} (tight : former.Tight pre) (wf : pre.wiring.Consistent)
    (nodes : ∀ id ∈ block.nodes, id ∈ former.nodes)
    (inputs : ∀ entry ∈ block.inputs, entry ∈ former.inputs)
    (outputs : ∀ exit ∈ block.outputs, exit ∈ former.outputs)
    (enters : ∀ entry port, site.wiring.entryOf entry = some (block.id, port) →
      pre.wiring.entryOf entry = some (block.id, port))
    (leaves : ∀ exit port, site.wiring.exitOf exit = some (block.id, port) →
      pre.wiring.exitOf exit = some (block.id, port))
    (stored : ∀ (id : NodeId) node, site.graph.nodes[id]? = some node →
      pre.graph.nodes[id]? = some node)
    (keeps : ∀ (id : NodeId) node, site.graph.nodes[id]? = some node →
      place id = block.id → pre.Keeps site node) : block.Tight site := by
  have fits := arranged.fits block mem
  have entryOf : ∀ entry ∈ block.inputs, site.wiring.entryOf entry = pre.wiring.entryOf entry := by
    intro entry own
    obtain ⟨port, entered⟩ := (arranged.entries block mem entry).mp own
    exact entered.trans (enters entry port entered).symm
  have exitOf : ∀ exit ∈ block.outputs, site.wiring.exitOf exit = pre.wiring.exitOf exit := by
    intro exit own
    obtain ⟨port, left⟩ := (arranged.exits block mem exit).mp own
    exact left.trans (leaves exit port left).symm
  have entries : ∀ entry ∈ block.inputs, ∀ other ∈ block.inputs,
      site.wiring.entryOf entry = site.wiring.entryOf other → entry = other := by
    intro entry own other own' eq
    rw [entryOf entry own, entryOf other own'] at eq
    exact tight.entries entry (inputs entry own) other (inputs other own') eq
  have exits : ∀ exit ∈ block.outputs, ∀ other ∈ block.outputs,
      site.wiring.exitOf exit = site.wiring.exitOf other → exit = other := by
    intro exit own other own' eq
    rw [exitOf exit own, exitOf other own'] at eq
    exact tight.exits exit (outputs exit own) other (outputs other own') eq
  refine ⟨entries, exits, fun entry own => ?_, fun exit own => ?_, fun id own node got clear => ?_⟩
  · obtain ⟨port, entered⟩ := (arranged.entries block mem entry).mp own
    obtain ⟨exit, link⟩ := tight.entered entry (inputs entry own)
    obtain ⟨⟨from', out⟩, left⟩ := Wiring.exists_exitOf_of_linked link
    obtain ⟨owner, owned, placed, -⟩ := arranged.entryPlaced entry _ port entered
    obtain ⟨node, got, has⟩ := arranged.graph.node_of_input owned
    obtain ⟨out', joined⟩ := (keeps owner node got placed).entered port has out
      ⟨exit, entry, from', block.id, left, enters entry port entered, link⟩
    exact arranged.exists_linked_entry mem entries entered joined
  · obtain ⟨port, left⟩ := (arranged.exits block mem exit).mp own
    obtain ⟨entry, link⟩ := tight.left exit (outputs exit own)
    obtain ⟨owner, owned, placed⟩ := arranged.exitPlaced exit _ port left
    obtain ⟨node, got, has⟩ := arranged.graph.node_of_output owned
    have joined : ∃ input, pre.wiring.Joins port input := by
      obtain ⟨⟨to', input⟩, entered⟩ := wf.exists_entryOf link
      exact ⟨input, exit, entry, block.id, to', leaves exit port left, entered, link⟩
    obtain ⟨input, joined⟩ := joined
    obtain ⟨input', joined'⟩ := (keeps owner node got placed).left port has input joined
    exact arranged.exists_linked_exit mem exits left joined'
  · exact (keeps id node got ((fits.nodes id).mp own).1).busy
      (tight.busy id (nodes id own) node (stored id node got) clear)

/-- Nodes of a tight block are lively. -/
theorem Block.Tight.lively (tight : block.Tight site) {id : NodeId} (own : id ∈ block.nodes)
    (got : site.graph.nodes[id]? = some node) (clear : node.isBoundary = false) :
    site.Lively node := by
  refine ⟨tight.busy id own node got clear, ?_⟩
  rintro out has ⟨exit, other, left⟩
  have fits := arranged.fits block mem
  obtain ⟨owner, owned, rfl⟩ := arranged.exitPlaced exit other out left
  cases owned.symm.trans (arranged.graph.output_of_mem got has)
  have left' := left
  rw [((fits.nodes id).mp own).1] at left'
  obtain ⟨entry, link⟩ := tight.left exit ((arranged.exits block mem exit).mpr ⟨out, left'⟩)
  obtain ⟨⟨to', input⟩, entered⟩ := arranged.wf.exists_entryOf link
  exact ⟨input, .inr ⟨exit, entry, _, to', left, entered, link⟩⟩

end Arranged

namespace Placed

section Still

variable {others : List Block} {placed : Placed}
  (arranged : Arranged source origins kind place ⟨placed.graph, placed.wiring⟩
    (placed.block :: others))

include arranged

/-- A dense block is tight. -/
theorem tight_of_dense (dense : placed.Dense) :
    placed.block.Tight ⟨placed.graph, placed.wiring⟩ := by
  refine ⟨dense.entries, dense.exits, dense.linked, dense.linked', fun id own node got clear => ?_⟩
  obtain ⟨fed, used⟩ := dense.busy arranged.graph own got clear
  constructor
  · refine fed.imp_right fun ⟨port, own, either⟩ => ⟨port, own, ?_⟩
    rcases either with ⟨out, feeds⟩ | ⟨entry, -, exit, wraps, link⟩
    · exact ⟨out, .inl feeds⟩
    · rw [Wiring.inputPort?_eq, Option.map_eq_some_iff] at wraps
      obtain ⟨⟨block, _⟩, entered, rfl⟩ := wraps
      obtain ⟨⟨block', out⟩, left⟩ := Wiring.exists_exitOf_of_linked link
      exact ⟨out, .inr ⟨exit, entry, block', block, left, entered, link⟩⟩
  · refine used.imp_right fun ⟨port, own, either⟩ => ⟨port, own, ?_⟩
    rcases either with ⟨input, feeds⟩ | ⟨exit, -, entry, wraps, link⟩
    · exact ⟨input, .inl feeds⟩
    · rw [Wiring.outputPort?_eq, Option.map_eq_some_iff] at wraps
      obtain ⟨⟨block, _⟩, left, rfl⟩ := wraps
      obtain ⟨⟨block', input⟩, entered⟩ := arranged.wf.exists_entryOf link
      exact ⟨input, .inr ⟨exit, entry, block, block', left, entered, link⟩⟩

/-- A block that one round of compaction does not make smaller is tight. -/
theorem tight_of_still (still : ¬ placed.compactRound.size < placed.size) :
    placed.block.Tight ⟨placed.graph, placed.wiring⟩ :=
  tight_of_dense arranged (dense_of_still (secluded_of_arranged arranged).toSeated still)

/-- Compaction leaves a tight block as it is. -/
theorem compact_eq_self (tight : placed.block.Tight ⟨placed.graph, placed.wiring⟩) :
    placed.compact = .ok placed := by
  have secluded := secluded_of_arranged arranged
  refine Dense.compact_eq_self ⟨tight.entries, tight.exits, tight.entered, tight.left, ?_,
    fun id own id' own' entries entries' targets door => ?_⟩ secluded
  · refine eq_nil_iff_forall_not_mem.mpr fun id dead => ?_
    obtain ⟨mem, node, got, clear, idle⟩ := (mem_deadNodes secluded.graph).mp dead
    have busy := tight.busy id mem node got clear
    rcases idle with ⟨unfed, empty⟩ | ⟨unused, plain⟩
    · rcases busy.fed with ⟨bare, full⟩ | ⟨input, own, out, carries⟩
      · exact full (empty bare)
      · exact not_carries_of_looseInput arranged mem got own (unfed input own) out carries
    · rcases busy.used with mandatory | ⟨out, own, input, carries⟩
      · cases plain.symm.trans mandatory
      · exact not_carries_of_looseOutput arranged mem got own (unused out own) input carries
  · exact absurd door (entryIdentity?_ne_some arranged)

/-- A block that has been compacted is tight. -/
theorem tight_compacted :
    placed.compacted.block.Tight ⟨placed.compacted.graph, placed.compacted.wiring⟩ := by
  have seated := (secluded_of_arranged arranged).toSeated
  have reduced : Reduced source origins kind place (fun _ => False) others placed _ :=
    reduced_of_steps arranged (steps_compacted seated)
  exact tight_of_dense reduced.arranged (dense_compacted seated)

end Still

/-- Compaction makes a block smaller, or leaves it as it is. -/
theorem compacted_eq (placed : Placed) : placed.compacted.size < placed.size ∨
    placed.compacted = placed ∧ ¬ placed.compactRound.size < placed.size := by
  rw [compacted]
  split
  · next smaller =>
    exact .inl (Nat.lt_of_le_of_lt (fewer_removeNodes _ _).size_le smaller)
  · next still => exact .inr ⟨rfl, not_size_step_lt still⟩

/-- Compaction tells whether it has changed a block. -/
theorem compaction_eq_false_iff {placed after : Placed} {changed : Bool}
    (run : placed.compaction = .ok (changed, after)) : changed = false ↔ after = placed := by
  obtain ⟨_, run, eq⟩ := of_bind run
  obtain ⟨_, -, kept⟩ := of_bind run
  cases kept
  obtain ⟨rfl, rfl⟩ := Prod.mk.inj (Except.ok.inj eq)
  simp only [BlockFrame.hasShrunk, decide_eq_false_iff_not]
  refine ⟨fun still => ?_, fun same => ?_⟩
  · exact (placed.compacted_eq.resolve_left still).1
  · rw [same]
    exact Nat.lt_irrefl _

end Placed

/-! ## Blocks and stages in turn -/

/-- The blocks that are left when blocks have been compacted cannot be compacted further. -/
theorem still_of_compactBlocks {blocks' : List Block}
    {events : List Event} (run : Planner.compactBlocks blocks site = .ok (events, blocks', site'))
    (mem : block ∈ blocks') :
    ¬ (Placed.compactRound ⟨site'.graph, site'.wiring, block⟩).size < block.size := by
  obtain ⟨⟨compacted, site'⟩, compacts, ⟨⟩⟩ := of_bind run
  obtain ⟨⟨post, last⟩, turned, large⟩ := exists_step_of_shrinkM compacts
  obtain ⟨_, rfl, -, still⟩ := @still_of_foldlM _ _ _ (fun block : Block => block.size + 1)
    (fun site block => ¬ (Placed.compactRound ⟨site.graph, site.wiring, block⟩).size < block.size) _
    (fun {done site block result} run => by
      obtain ⟨placed, changes, eq⟩ := of_bind run
      obtain ⟨_, -, eq'⟩ := of_bind changes
      cases eq'
      cases eq
      refine ⟨_, rfl, (Placed.compacted_eq ⟨site.graph, site.wiring, block⟩).imp Nat.succ_lt_succ
        ?_⟩
      rintro ⟨eq, still⟩
      rw [eq]
      exact ⟨rfl, rfl, still⟩) _ _ _ _ turned
  exact still large block (mem_of_mem_filter mem)

/-- The stages that are left when stages have been compacted cannot be compacted further. -/
theorem Stage.compact_eq_self {stages stages' : List Stage}
    (run : Stage.compactAll stages site = .ok (stages', site')) {stage : Stage}
    (mem : stage ∈ stages') : stage.compact site' = .ok (stage, site') := by
  have either : ∀ {stage stage' : Stage} {site site' : Site},
      stage.compact site = .ok (stage', site') →
        stage'.size < stage.size ∨ stage' = stage ∧ site' = site := by
    intro stage stage' site site' run
    rw [Stage.compact] at run
    split at run
    · cases run
      exact .inr ⟨rfl, rfl⟩
    · obtain ⟨⟨maps, _⟩, shrinks, ⟨⟩⟩ := of_bind run
      refine (shrinkM_eq shrinks).imp_right fun eq => ?_
      cases eq
      exact ⟨rfl, rfl⟩
  obtain ⟨⟨compacted, site'⟩, compacts, ⟨⟩⟩ := of_bind run
  obtain ⟨⟨post, last⟩, turned, large⟩ := exists_step_of_shrinkM compacts
  obtain ⟨_, rfl, -, still⟩ := @still_of_foldlM _ _ _ Stage.size
    (fun site stage => stage.compact site = .ok (stage, site)) _
    (fun {done site stage result} run => by
      obtain ⟨⟨stage', site'⟩, changes, ⟨⟩⟩ := of_bind run
      refine ⟨stage', rfl, (either changes).imp_right ?_⟩
      rintro ⟨rfl, rfl⟩
      exact ⟨rfl, rfl, changes⟩) _ _ _ _ turned
  exact still large stage (mem_of_mem_filter mem)

end Staging
