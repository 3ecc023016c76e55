import Staging.Proofs.Connectivity
import Staging.Proofs.Levels
import Staging.Proofs.Passages

/-! # What unification keeps

A copy is read as the node that it copies, and a port of it as its position there. Read
like that, the connections between the nodes of a block and the links that enter and
leave it are the same once the copies of each node have been folded into one.
-/

namespace Staging

open Std List HandleMap

variable {source : Graph} {id : NodeId} {spot : NodeId × Nat}

namespace Placed

variable {B placed pre between post : Placed}

/-- The port stands at the place among the ports of a copy of the node. -/
def Reads {α : Type} (placed : Placed) (ports : Node → List α) (port : α)
    (spot : NodeId × Nat) : Prop :=
  ∃ copy node, (copy ∈ placed.block.nodes ∧ placed.block.origins[copy]? = some spot.1) ∧
    placed.graph.nodes[copy]? = some node ∧ (ports node)[spot.2]? = some port

/-- Nodes, connections and links of a block are the same if they are read by origin. -/
structure Projects (pre post : Placed) : Prop where
  inputs : post.block.inputs ⊆ pre.block.inputs
  outputs : post.block.outputs ⊆ pre.block.outputs
  origins : ∀ origin : NodeId,
    (∃ copy ∈ post.block.nodes, post.block.origins[copy]? = some origin) ↔
      ∃ copy ∈ pre.block.nodes, pre.block.origins[copy]? = some origin
  feeds : ∀ first second,
    (∃ out input, post.Reads Node.outputs out first ∧ post.Reads Node.inputs input second ∧
      post.graph.Feeds out input) ↔
    ∃ out input, pre.Reads Node.outputs out first ∧ pre.Reads Node.inputs input second ∧
      pre.graph.Feeds out input
  enters : ∀ exit, exit ∉ pre.block.outputs → ∀ spot,
    (∃ port, post.Reads Node.inputs port spot ∧ post.Enters exit port) ↔
      ∃ port, pre.Reads Node.inputs port spot ∧ pre.Enters exit port
  leaves : ∀ entry, entry ∉ pre.block.inputs → ∀ spot,
    (∃ port, post.Reads Node.outputs port spot ∧ post.Leaves port entry) ↔
      ∃ port, pre.Reads Node.outputs port spot ∧ pre.Leaves port entry

theorem Projects.refl (B : Placed) : B.Projects B :=
  ⟨fun _ own => own, fun _ own => own, fun _ => .rfl, fun _ _ => .rfl, fun _ _ _ => .rfl,
    fun _ _ _ => .rfl⟩

theorem Projects.trans (one : pre.Projects between) (two : between.Projects post) :
    pre.Projects post where
  inputs := Subset.trans two.inputs one.inputs
  outputs := Subset.trans two.outputs one.outputs
  origins origin := (two.origins origin).trans (one.origins origin)
  feeds first second := (two.feeds first second).trans (one.feeds first second)
  enters exit outside spot := (two.enters exit (fun own => outside (one.outputs own)) spot).trans
      (one.enters exit outside spot)
  leaves entry outside spot := (two.leaves entry (fun own => outside (one.inputs own)) spot).trans
      (one.leaves entry outside spot)

/-- Block ports that repeat others do not count. -/
theorem Relinked.projects (relinked : pre.Relinked post) : pre.Projects post := by
  have reads : ∀ {α : Type} (ports : Node → List α) port spot,
      post.Reads ports port spot ↔ pre.Reads ports port spot := by
    intro α ports port spot
    rw [Reads, Reads, relinked.graph, relinked.nodes, relinked.origins]
  refine ⟨relinked.inputs.subset, relinked.outputs.subset, fun origin => ?_, fun first second => ?_,
    fun exit outside spot => ?_, fun entry outside spot => ?_⟩
  · rw [relinked.nodes, relinked.origins]
  · simp only [reads, relinked.graph]
  · simp only [reads, relinked.enters_iff outside]
  · simp only [reads, relinked.leaves_iff outside]

/-! ## One copy -/

/-- Where block ports wrap what stands for a port, links are read as before. -/
private theorem exists_reads_rewrapped {role : Role} {γ : Type} {own : List (Handle role)}
    {of of' : Handle role → Option (BlockId × γ)} {f : γ → γ} {link link' : Handle role → Prop}
    {reads reads' : γ → Prop} (rewraps : ∀ handle, of' handle = if handle ∈ own then
        (of handle).map fun wraps => (wraps.1, f wraps.2)
      else of handle)
    (linked : ∀ handle, link' handle ↔ link handle) (image : ∀ port, reads' (f port) ↔ reads port) :
    (∃ port, reads' port ∧ ∃ handle, (handle ∈ own ∧ (of' handle).map Prod.snd = some port) ∧
      link' handle) ↔
    ∃ port, reads port ∧ ∃ handle, (handle ∈ own ∧ (of handle).map Prod.snd = some port) ∧
      link handle := by
  have wraps : ∀ handle ∈ own, (of' handle).map Prod.snd = ((of handle).map Prod.snd).map f := by
    intro handle mem
    rw [rewraps, if_pos mem, Option.map_map, Option.map_map]
    rfl
  constructor
  · rintro ⟨port, read, handle, ⟨mem, wraps'⟩, link⟩
    rw [wraps handle mem] at wraps'
    obtain ⟨port, before, rfl⟩ := Option.map_eq_some_iff.mp wraps'
    exact ⟨port, (image port).mp read, handle, ⟨mem, before⟩, (linked handle).mp link⟩
  · rintro ⟨port, read, handle, ⟨mem, before⟩, link⟩
    exact ⟨f port, (image port).mpr read, handle,
      ⟨mem, by rw [wraps handle mem, before, Option.map_some]⟩, (linked handle).mpr link⟩

section Fold

variable (seated : B.Seated) {first copy origin : NodeId} {kept node : Node}
  (ne : first ≠ copy) (own : first ∈ B.block.nodes) (own' : copy ∈ B.block.nodes)
  (named : B.block.origins[first]? = some origin) (named' : B.block.origins[copy]? = some origin)
  (got : B.graph.nodes[first]? = some kept) (got' : B.graph.nodes[copy]? = some node)
  (length : node.inputs.length = kept.inputs.length)
  (length' : node.outputs.length = kept.outputs.length)

/-- The nodes with origins that are left. -/
theorem copied_foldCopy {origin : NodeId} : (id ∈ (B.foldCopy kept copy node).block.nodes ∧
    (B.foldCopy kept copy node).block.origins[id]? = some origin) ↔
    id ≠ copy ∧ id ∈ B.block.nodes ∧ B.block.origins[id]? = some origin := by
  rw [block_foldCopy, HandleSet.mem_erase_iff, getElem?_erase, and_assoc]
  refine and_congr_right fun other => ?_
  rw [if_neg other.symm]

include seated ne got got' length length'

theorem seated_foldCopy : (B.foldCopy kept copy node).Seated := by
  have handed := handed_ports seated.graph seated.wiring ne got got'
  have block := block_foldCopy B kept copy node
  refine ⟨(foldCopy_spec seated.graph seated.wiring ne got got' length length').1,
    handed.wiring.wf, fun entry mem => ?_, fun exit mem => ?_, ?_, ?_⟩
  all_goals rw [block] at *
  · obtain ⟨port, wraps⟩ := seated.entries entry mem
    exact ⟨_, (handed.entryOf entry).trans (by rw [if_pos mem, wraps, Option.map_some])⟩
  · obtain ⟨port, wraps⟩ := seated.exits exit mem
    exact ⟨_, (handed.exitOf exit).trans (by rw [if_pos mem, wraps, Option.map_some])⟩
  · exact seated.entriesNodup
  · exact seated.exitsNodup

theorem copiesFrom_foldCopy (copies : B.block.CopiesFrom source B.graph) :
    (B.foldCopy kept copy node).block.CopiesFrom source (B.foldCopy kept copy node).graph := by
  obtain ⟨-, nodes, -⟩ := foldCopy_spec seated.graph seated.wiring ne got got' length length'
  intro id origin named
  rw [nodes]
  rw [block_foldCopy, getElem?_erase] at named
  split at named
  · cases named
  · next other =>
    obtain ⟨mem, rest⟩ := copies id origin named
    rw [if_neg (Ne.symm other), block_foldCopy]
    exact ⟨(HandleSet.mem_erase_iff _).mpr ⟨Ne.symm other, mem⟩, rest⟩

include own own' named named'

/-- A port is read as the one that replaces it. -/
theorem reads_foldCopy {α : Type} [DecidableEq α] {ports : Node → List α}
    (nodup : ∀ (id : NodeId) node, B.graph.nodes[id]? = some node → (ports node).Nodup)
    (unique : ∀ {id id' : NodeId} {one two port}, B.graph.nodes[id]? = some one →
      port ∈ ports one → B.graph.nodes[id']? = some two → port ∈ ports two → id = id')
    (even : (ports node).length = (ports kept).length) (port : α) (spot : NodeId × Nat) :
    (B.foldCopy kept copy node).Reads ports
      (replaced ((ports node).zip (ports kept)) port) spot ↔ B.Reads ports port spot := by
  obtain ⟨-, nodes, -⟩ := foldCopy_spec seated.graph seated.wiring ne got got' length length'
  have reads : ∀ port, (B.foldCopy kept copy node).Reads ports port spot ↔
      ∃ id record, id ≠ copy ∧ (id ∈ B.block.nodes ∧ B.block.origins[id]? = some spot.1) ∧
        B.graph.nodes[id]? = some record ∧ (ports record)[spot.2]? = some port := by
    refine fun port => exists_congr fun id => exists_congr fun record => ?_
    rw [copied_foldCopy, nodes, and_assoc]
    exact and_congr_right fun other => by rw [if_neg other]
  -- a port stands at one place of one node
  have only : ∀ {id id' : NodeId} {one two port} {place place' : Nat},
      B.graph.nodes[id]? = some one → (ports one)[place]? = some port →
      B.graph.nodes[id']? = some two → (ports two)[place']? = some port →
      id = id' ∧ place = place' := by
    intro id id' one two port place place' stored at' stored' at''
    obtain rfl := unique stored (mem_of_getElem? at') stored' (mem_of_getElem? at'')
    cases stored.symm.trans stored'
    obtain ⟨within, -⟩ := List.getElem?_eq_some_iff.mp at'
    exact ⟨rfl, (getElem?_inj within (nodup _ _ stored)).mp (at'.trans at''.symm)⟩
  rw [reads]
  by_cases here : port ∈ ports node
  · obtain ⟨place, at'⟩ := mem_iff_getElem?.mp here
    have image : (ports kept)[place]? = some (replaced ((ports node).zip (ports kept)) port) := by
      rw [← map_replaced (nodup _ _ got') even, getElem?_map, at', Option.map_some,
        map_replaced (nodup _ _ got') even]
    constructor
    · rintro ⟨id, record, -, ⟨-, copied⟩, stored, at''⟩
      obtain ⟨rfl, rfl⟩ := only stored at'' got image
      exact ⟨copy, node, ⟨own', named'.trans (named.symm.trans copied)⟩, got', at'⟩
    · rintro ⟨id, record, ⟨-, copied⟩, stored, at''⟩
      obtain ⟨rfl, rfl⟩ := only stored at'' got' at'
      exact ⟨first, kept, ne, ⟨own, named.trans (named'.symm.trans copied)⟩, got, image⟩
  · rw [replaced_of_not_mem (by rwa [map_fst_zip even.le])]
    constructor
    · rintro ⟨id, record, -, rest⟩
      exact ⟨id, record, rest⟩
    · rintro ⟨id, record, copied, stored, at'⟩
      refine ⟨id, record, ?_, copied, stored, at'⟩
      rintro rfl
      cases stored.symm.trans got'
      exact here (mem_of_getElem? at')

/-- Folding a copy into another one of the same node changes nothing that can be read. -/
theorem projects_foldCopy : B.Projects (B.foldCopy kept copy node) := by
  have wf := seated.graph
  have handed := handed_ports wf seated.wiring ne got got'
  obtain ⟨-, -, feeds⟩ := foldCopy_spec wf seated.wiring ne got got' length length'
  have readsIn := reads_foldCopy seated ne own own' named named' got got' length length'
    wf.inputsNodup wf.input_unique length
  have readsOut := reads_foldCopy seated ne own own' named named' got got' length length'
    wf.outputsNodup wf.output_unique length'
  have block := block_foldCopy B kept copy node
  refine ⟨by simp [block], by simp [block], fun origin => ⟨?_, ?_⟩, fun first second => ⟨?_, ?_⟩,
    fun exit _ spot => ?_, fun entry _ spot => ?_⟩
  · rintro ⟨id, mem⟩
    exact ⟨id, (copied_foldCopy.mp mem).2⟩
  · rintro ⟨id, mem, copied⟩
    by_cases eq : id = copy
    · subst eq
      exact ⟨first, copied_foldCopy.mpr ⟨ne, own, named.trans (named'.symm.trans copied)⟩⟩
    · exact ⟨id, copied_foldCopy.mpr ⟨eq, mem, copied⟩⟩
  · rintro ⟨out, input, left, right, fed⟩
    obtain ⟨out, input, before, rfl, rfl⟩ := (feeds out input).mp fed
    exact ⟨out, input, (readsOut out first).mp left, (readsIn input second).mp right, before⟩
  · rintro ⟨out, input, left, right, fed⟩
    exact ⟨_, _, (readsOut out first).mpr left, (readsIn input second).mpr right,
      (feeds _ _).mpr ⟨out, input, fed, rfl, rfl⟩⟩
  · simp only [Enters, Wiring.inputPort?_eq, block]
    exact exists_reads_rewrapped handed.entryOf (handed.wiring.linked exit) (readsIn · spot)
  · simp only [Leaves, Wiring.outputPort?_eq, block]
    exact exists_reads_rewrapped handed.exitOf (handed.wiring.linked · entry) (readsOut · spot)

end Fold

/-! ## All copies -/

section Merge

variable (seated : B.Seated)

include seated

/-- Merging the block ports that wrap one port changes nothing that can be read, and each port
is then wrapped by one block port. -/
theorem merge_projects {after : Placed} (eq : B.mergeInputs.mergeOutputs = after) :
    (B.Rewired after ∧ B.Projects after) ∧
    (∀ entry ∈ after.block.inputs, ∀ other ∈ after.block.inputs,
      after.wiring.entryOf entry = after.wiring.entryOf other → entry = other) ∧
    ∀ exit ∈ after.block.outputs, ∀ other ∈ after.block.outputs,
      after.wiring.exitOf exit = after.wiring.exitOf other → exit = other := by
  obtain ⟨⟨rewired, projects⟩, apart⟩ := mergeInputs_keeps seated.entriesNodup seated.entries
    (fun state => B.Rewired state ∧ B.Projects state)
    (fun holds has has' ne => by
      obtain ⟨rewired, projects⟩ := holds
      rw [← rewired.id] at has has'
      have relinked := relinked_mergeInput rewired.wf has has' ne
      exact ⟨rewired.trans relinked.toRewired, projects.trans relinked.projects⟩)
    ⟨.refl B seated.wiring, .refl B⟩
  have seated' := rewired.seated seated
  obtain ⟨⟨rewired', projects'⟩, apart'⟩ := mergeOutputs_keeps seated'.exitsNodup seated'.exits
    (fun state => B.mergeInputs.Rewired state ∧ B.mergeInputs.Projects state)
    (fun holds has has' ne => by
      obtain ⟨rewired, projects⟩ := holds
      rw [← rewired.id] at has has'
      have relinked := relinked_mergeOutput rewired.wf has has' ne
      exact ⟨rewired.trans relinked.toRewired, projects.trans relinked.projects⟩)
    ⟨.refl _ seated'.wiring, .refl _⟩
  rw [eq] at rewired' projects' apart'
  refine ⟨⟨rewired.trans rewired', projects.trans projects'⟩, fun entry own other own' alike => ?_,
    apart'⟩
  rw [rewired'.entryOf, if_neg fun gone => gone.2 own, rewired'.entryOf,
    if_neg fun gone => gone.2 own'] at alike
  exact apart entry (rewired'.inputs.subset own) other (rewired'.inputs.subset own') alike

end Merge

/-- Unification of a block merged from blocks of copies leaves one copy of each node and one
block port around each port. Nodes, connections and links are the same if read by origin, and a
second unification finds nothing to do. -/
theorem unify_folds_copies {blocks : List Block} {mapping : PortMapping} {before wiring : Wiring}
    (seated : placed.Seated)
    (merged : Block.merge ⟨placed.graph, before⟩ blocks = .ok (placed.block, mapping, wiring))
    (copies : ∀ block ∈ blocks, block.CopiesFrom source placed.graph) :
    ∃ after, placed.unify = .ok after ∧ after.Seated ∧ placed.Projects after ∧
      (∀ first ∈ after.block.nodes, ∀ second ∈ after.block.nodes, ∀ origin : NodeId,
        after.block.origins[first]? = some origin → after.block.origins[second]? = some origin →
          first = second) ∧
      (∀ entry ∈ after.block.inputs, ∀ other ∈ after.block.inputs,
        after.wiring.entryOf entry = after.wiring.entryOf other → entry = other) ∧
      (∀ exit ∈ after.block.outputs, ∀ other ∈ after.block.outputs,
        after.wiring.exitOf exit = after.wiring.exitOf other → exit = other) ∧
      after.unification = .ok (false, after) := by
  have copies : placed.block.CopiesFrom source placed.graph := by
    rw [Block.merge] at merged
    split at merged
    · cases merged
    obtain ⟨_, -, merged⟩ := of_bind merged
    obtain ⟨_, -, merged⟩ := of_bind merged
    rw [← (Prod.mk.inj (Except.ok.inj merged)).1]
    exact Block.copiesFrom_gather rfl rfl copies
  let inv : Placed → Prop := fun state => state.Seated ∧
    state.block.CopiesFrom source state.graph ∧ placed.Projects state
  have sound : ∀ {state : Placed}, state.Seated → state.block.CopiesFrom source state.graph →
      state.wiring.checkInputs state.block.inputs = .ok () ∧
      state.wiring.checkOutputs state.block.outputs = .ok () ∧
      ∀ id origin : NodeId, state.block.origins[id]? = some origin → id ∈ state.block.nodes →
        ∃ node, state.graph.nodes[id]? = some node := by
    intro state seated copies
    obtain ⟨checked, checked'⟩ := seated.checked
    refine ⟨checked, checked', fun id origin named _ => ?_⟩
    obtain ⟨-, node, -, got, -⟩ := copies id origin named
    exact ⟨node, got⟩
  obtain ⟨firsts, folded, unified, run⟩ := exists_unified (P := inv)
    ⟨seated, copies, .refl placed⟩ (fun holds => sound holds.1 holds.2.1)
    (fun holds ne own own' named named' got got' => by
      obtain ⟨seated, copies, projects⟩ := holds
      obtain ⟨-, length, length'⟩ := copies.twins named named' got got'
      exact ⟨seated_foldCopy seated ne got got' length length',
        copiesFrom_foldCopy seated ne got got' length length' copies, projects.trans
        (projects_foldCopy seated ne own own' named named' got got' length length')⟩)
  obtain ⟨seated', copies', projects⟩ := unified.holds
  generalize eq : folded.mergeInputs.mergeOutputs = after at run
  obtain ⟨⟨rewired, projects'⟩, apart, apart'⟩ := merge_projects seated' eq
  have seated'' := rewired.seated seated'
  have single : ∀ first ∈ after.block.nodes, ∀ second ∈ after.block.nodes, ∀ origin : NodeId,
      after.block.origins[first]? = some origin → after.block.origins[second]? = some origin →
        first = second := by
    rw [rewired.nodes, rewired.origins]
    intro first own second own' origin named named'
    exact Option.mem_unique (unified.seen first origin own named not_mem_nil)
      (unified.seen second origin own' named' not_mem_nil)
  refine ⟨after, run, seated'', projects.trans projects', single, apart, apart', ?_⟩
  obtain ⟨_, again, unified', rerun⟩ := exists_unified (P := (· = after)) rfl (fun eq => by
      subst eq
      refine sound seated'' ?_
      rwa [Block.CopiesFrom, rewired.nodes, rewired.origins, rewired.graph])
    (fun eq ne own own' named named' _ _ => absurd
      (single _ (eq ▸ own) _ (eq ▸ own') _ (eq ▸ named) (eq ▸ named')) ne)
  have still : again = after := unified'.holds
  rw [still, mergeInputs_eq seated''.entriesNodup seated''.entries apart,
    mergeOutputs_eq seated''.exitsNodup seated''.exits apart'] at rerun
  rw [unification, bind_of_ok rerun]
  simp only [BlockFrame.hasShrunk, Nat.lt_irrefl, decide_false]
  rfl

/-- The block of the isthmus, with both nodes as copies of the first one. -/
def twins : Block :=
  { isthmus.block with origins := .insert (.insert ∅ ⟨0⟩ ⟨0⟩) ⟨3⟩ ⟨0⟩ }

theorem unify_folds_copies_isthmus : ∃ block mapping wiring after,
    Block.merge ⟨isthmus.graph, isthmus.wiring⟩ [twins] = .ok (block, mapping, wiring) ∧
      Placed.unify ⟨isthmus.graph, wiring, block⟩ = .ok after ∧
      after.unification = .ok (false, after) := by
  have ports := roster_isthmus
  have roster : Roster isthmus.wiring [twins] :=
    ⟨ports.wf, nodup_singleton _, forall_mem_singleton.mpr (ports.below isthmus.block (.head _)),
      ports.entryBelow, ports.exitBelow,
      forall_mem_singleton.mpr (ports.entries isthmus.block (.head _)),
      forall_mem_singleton.mpr (ports.exits isthmus.block (.head _)),
      forall_mem_singleton.mpr (nodup_singleton _), forall_mem_singleton.mpr (nodup_singleton _)⟩
  obtain ⟨block, mapping, wiring, run, -, -, spec⟩ :=
    @Roster.merge_spec _ ⟨isthmus.graph, isthmus.wiring⟩ roster (cons_ne_nil _ _) rfl
  have copies : twins.CopiesFrom isthmus.graph isthmus.graph := by
    intro copy origin named
    have : copy = ⟨3⟩ ∨ copy = ⟨0⟩ := by
      rw [twins, HandleMap.getElem?_insert, HandleMap.getElem?_insert] at named
      split at named
      · next eq => exact .inl eq.symm
      · split at named <;> simp_all
    rcases this with rfl | rfl <;> cases named <;>
      exact ⟨by decide +kernel, _, _, rfl, rfl, rfl, rfl, rfl⟩
  have roster' : Roster wiring ([] ++ [block]) := spec.roster roster
  obtain ⟨after, runs, -, -, -, -, -, again⟩ := @unify_folds_copies isthmus.graph
    ⟨isthmus.graph, wiring, block⟩ _ _ _ _ (seated_of_roster secluded_isthmus.graph roster') run
      (forall_mem_singleton.mpr copies)
  exact ⟨block, mapping, wiring, after, run, runs, again⟩

end Placed

end Staging
