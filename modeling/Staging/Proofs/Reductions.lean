import Staging.Proofs.Moving
import Staging.Proofs.Narrowing
import Staging.Proofs.Turns

/-! # Reductions of arranged blocks

Compaction takes out block ports that repeat others or have no link, and nodes
that are idle. Unification folds copies into others. The blocks stay arranged,
and what is carried changes by moves only.
-/

namespace Staging

open Std Relation List ExtTreeSet HandleSet

variable {B : Placed} {source : Graph} {origins : Origins} {kind : BlockId → Bool}
  {place : Places} {free : BlockId → Prop} {entry : BlockInputId} {block : BlockId}
  {exit : BlockOutputId} {id : NodeId} {site : Site} {blocks : List Block} {fixed : List Block}

/-- An arranged block faces the side of its kind. -/
theorem Arranged.faces (arranged : Arranged source origins kind place site blocks) {block : Block}
    (mem : block ∈ blocks) :
    Placed.Faces source (· = kind block.id) ⟨site.graph, site.wiring, block⟩ := by
  have fits := arranged.fits block mem
  refine ⟨⟨fun entry port entered => ?_, fun exit port left => ?_⟩, fun copy origin named => ?_⟩
  · obtain ⟨owner, owned, inside, shuffled⟩ := arranged.entryPlaced entry _ port entered
    obtain ⟨node, got, -⟩ := arranged.graph.node_of_input owned
    exact ⟨owner, ⟨(fits.nodes owner).mpr ⟨inside, node, got⟩, shuffled⟩, owned⟩
  · obtain ⟨owner, owned, inside⟩ := arranged.exitPlaced exit _ port left
    obtain ⟨node, got, -⟩ := arranged.graph.node_of_output owned
    exact ⟨owner, (fits.nodes owner).mpr ⟨inside, node, got⟩, owned⟩
  · obtain ⟨own, rfl⟩ := (fits.origins copy origin).mp named
    obtain ⟨-, node, got⟩ := (fits.nodes copy).mp own
    exact ⟨own, node, _, got, arranged.faithful copy node got, rfl, by simp [Origins.original],
      by simp [Origins.original]⟩

namespace Placed

/-! ## Reductions -/

/-- A block has been made smaller: the blocks are still arranged, what is carried has
changed by moves in this block, and block ports of others wrap what they wrapped. -/
structure Reduced (source : Graph) (origins : Origins) (kind : BlockId → Bool)
    (place : Places) (free : BlockId → Prop) (others : List Block)
    (pre post : Placed) : Prop where
  id : post.block.id = pre.block.id
  arranged : Arranged source origins kind place ⟨post.graph, post.wiring⟩ (post.block :: others)
  moves : Moves origins place free (· = pre.block.id) ⟨pre.graph, pre.wiring⟩
    ⟨post.graph, post.wiring⟩
  enters : ∀ entry block port, block ≠ pre.block.id →
    post.wiring.entryOf entry = some (block, port) → pre.wiring.entryOf entry = some (block, port)
  leaves : ∀ exit block port, block ≠ pre.block.id →
    post.wiring.exitOf exit = some (block, port) → pre.wiring.exitOf exit = some (block, port)

section Reductions

variable {others : List Block} {pre post : Placed}

theorem Reduced.trans {between : Placed}
    (one : Reduced source origins kind place free others pre between)
    (two : Reduced source origins kind place free others between post) :
    Reduced source origins kind place free others pre post where
  id := two.id.trans one.id
  arranged := two.arranged
  moves := one.moves.trans (one.id ▸ two.moves)
  enters entry block port other got :=
    one.enters entry block port other (two.enters entry block port (one.id ▸ other) got)
  leaves exit block port other got :=
    one.leaves exit block port other (two.leaves exit block port (one.id ▸ other) got)

variable (arranged : Arranged source origins kind place ⟨B.graph, B.wiring⟩ (B.block :: others))

include arranged

theorem reduced_refl : Reduced source origins kind place free others B B :=
  ⟨rfl, arranged, .refl, fun _ _ _ _ got => got, fun _ _ _ _ got => got⟩

omit arranged in
/-- No more ports are wrapped when block ports are taken out. -/
theorem Rewired.wraps (rewired : pre.Rewired post) (port : OutputId)
    (wraps : post.wiring.Wraps port) : pre.wiring.Wraps port := by
  obtain ⟨exit, block, left⟩ := wraps
  exact ⟨exit, block, rewired.exitOf_eq_some left⟩

/-- A block that is narrowed by a step stays arranged beside the others. -/
theorem Narrowed.reduced (narrowed : Narrowed others B post)
    (move : Move origins place free B.block.id ⟨B.graph, B.wiring⟩ ⟨post.graph, post.wiring⟩) :
    Reduced source origins kind place free others B post := by
  have fits := arranged.fits B.block (.head _)
  have faced := narrowed.faces (arranged.faces (.head _))
  have outside : ∀ {id}, place id ≠ B.block.id →
      post.graph.nodes[id]? = B.graph.nodes[id]? := fun ne =>
    narrowed.outside fun own => ne ((fits.nodes _).mp own).1
  have nodup := arranged.nodup
  rw [map_cons, nodup_cons] at nodup
  refine ⟨narrowed.id, ?_, .single ⟨⟨_, rfl, move⟩, narrowed.graph⟩, narrowed.entries,
    narrowed.exits⟩
  refine
    { toRoster := narrowed.roster
      toBound := move.bound arranged.graph narrowed.graph arranged.faithful arranged.toBound
      graph := narrowed.graph
      faithful := move.faithful arranged.faithful
      entryPlaced := fun entry block port entered => ?_
      exitPlaced := fun exit block port left => ?_
      fits := forall_mem_cons.mpr ⟨⟨fun id => ?_, fun id origin => ?_⟩,
        fun block mem => ⟨fun id => ?_, (arranged.fits block (.tail _ mem)).origins⟩⟩
      cover := fun id node got => ?_ }
  · by_cases here : block = B.block.id
    · subst here
      obtain ⟨owner, ⟨own, shuffled⟩, owned⟩ := faced.entered entry port (narrowed.id ▸ entered)
      exact ⟨owner, owned, ((fits.nodes owner).mp (narrowed.nodes owner own)).1, shuffled⟩
    · obtain ⟨owner, owned, rfl, shuffled⟩ := arranged.entryPlaced entry block port
        (narrowed.entries entry block port here entered)
      obtain ⟨node, got, own⟩ := arranged.graph.node_of_input owned
      refine ⟨owner, narrowed.graph.input_of_mem ((outside here).trans got) own, rfl, ?_⟩
      rwa [Graph.isShuffleBoundary, outside here]
  · by_cases here : block = B.block.id
    · subst here
      obtain ⟨owner, own, owned⟩ := faced.left exit port (narrowed.id ▸ left)
      exact ⟨owner, owned, ((fits.nodes owner).mp (narrowed.nodes owner own)).1⟩
    · obtain ⟨owner, owned, rfl⟩ := arranged.exitPlaced exit block port
        (narrowed.exits exit block port here left)
      obtain ⟨node, got, own⟩ := arranged.graph.node_of_output owned
      exact ⟨owner, narrowed.graph.output_of_mem ((outside here).trans got) own, rfl⟩
  · constructor
    · intro own
      obtain ⟨inside, node, got⟩ := (fits.nodes id).mp (narrowed.nodes id own)
      exact ⟨inside.trans narrowed.id.symm, node, (narrowed.inside own).trans got⟩
    · rintro ⟨inside, node, got⟩
      have own := (fits.nodes id).mpr ⟨inside.trans narrowed.id, node, move.stored got⟩
      by_contra lost
      cases ((narrowed.stored id).trans (if_pos ⟨own, lost⟩)).symm.trans got
  · rw [narrowed.origins, Option.ite_none_left_eq_some, fits.origins]
    constructor
    · rintro ⟨stays, own, eq⟩
      exact ⟨not_not.mp fun lost => stays ⟨own, lost⟩, eq⟩
    · rintro ⟨own, eq⟩
      exact ⟨fun lost => lost.2 own, narrowed.nodes id own, eq⟩
  · rw [(arranged.fits block (.tail _ mem)).nodes]
    refine and_congr_right fun inside => ?_
    rw [outside fun here => nodup.1 (mem_map.mpr ⟨block, mem, inside.symm.trans here⟩)]
  · obtain ⟨block, mem, inside⟩ := arranged.cover id node (move.stored got)
    rcases mem_cons.mp mem with rfl | later
    · exact ⟨post.block, .head _, inside.trans narrowed.id.symm⟩
    · exact ⟨block, .tail _ later, inside⟩

/-- Block ports are taken out that connect nothing more than others do. -/
theorem Relinked.reduced (relinked : B.Relinked post) :
    Reduced source origins kind place free others B post := by
  have joins : ∀ out input, post.wiring.Joins out input ↔ B.wiring.Joins out input := by
    simp only [Wiring.joins_iff_connects, relinked.connects, implies_true]
  have eq := relinked.graph
  have narrowed := relinked.narrowed_of_connects arranged.graph arranged.toRoster
    fun left right => (relinked.connects left right).mp
  refine narrowed.reduced arranged (.trim ?_ ?_ ?_ ?_ relinked.wraps)
  · intro id node got
    rwa [eq] at got
  · intro id node got
    exact .inl (eq ▸ got)
  · intro out input
    rw [eq]
    refine ⟨fun feeds => ⟨feeds, Graph.exists_outputOwner_of_feeds feeds, ?_⟩, And.left⟩
    exact arranged.graph.exists_inputOwner feeds
  · intro out input
    rw [joins]
    refine ⟨fun joined => ⟨joined, ?_⟩, And.left⟩
    obtain ⟨exit, entry, block, block', left, entered, -⟩ := joined
    obtain ⟨owner, owned, -⟩ := arranged.exitPlaced exit block out left
    obtain ⟨owner', owned', -⟩ := arranged.entryPlaced entry block' input entered
    exact ⟨⟨owner, eq ▸ owned⟩, owner', eq ▸ owned'⟩

/-- A block input that wraps a port of a node of the block is one of the block. -/
theorem mem_inputs_of_owner {port : InputId} (has : id ∈ B.block.nodes)
    (owned : B.graph.inputOwner? port = some id)
    (entered : B.wiring.entryOf entry = some (block, port)) : entry ∈ B.block.inputs := by
  have fits := arranged.fits B.block (.head _)
  obtain ⟨owner, owned', rfl, -⟩ := arranged.entryPlaced entry block port entered
  cases owned.symm.trans owned'
  exact (arranged.entries _ (.head _) entry).mpr ⟨port, ((fits.nodes id).mp has).1 ▸ entered⟩

/-- A block output that wraps a port of a node of the block is one of the block. -/
theorem mem_outputs_of_owner {port : OutputId} (has : id ∈ B.block.nodes)
    (owned : B.graph.outputOwner? port = some id)
    (left : B.wiring.exitOf exit = some (block, port)) : exit ∈ B.block.outputs := by
  have fits := arranged.fits B.block (.head _)
  obtain ⟨owner, owned', rfl⟩ := arranged.exitPlaced exit block port left
  cases owned.symm.trans owned'
  exact (arranged.exits _ (.head _) exit).mpr ⟨port, ((fits.nodes id).mp has).1 ▸ left⟩

/-- An arranged block is secluded. -/
theorem secluded_of_arranged : B.Secluded := by
  have fits := arranged.fits B.block (.head _)
  have faced := arranged.faces (.head _)
  refine ⟨seated_of_roster arranged.graph arranged.toRoster,
    fun id own => ((fits.nodes id).mp own).2, fun entry own port wraps => ?_,
    fun exit own port wraps => ?_, fun first second prec => ?_⟩
  · obtain ⟨port', entered⟩ := (arranged.entries _ (.head _) entry).mp own
    rw [Wiring.inputPort?_eq, show B.wiring.entryOf entry = _ from entered] at wraps
    cases wraps
    obtain ⟨owner, ⟨inside, -⟩, owned⟩ := faced.entered entry port' entered
    exact ⟨owner, inside, owned⟩
  · obtain ⟨port', left⟩ := (arranged.exits _ (.head _) exit).mp own
    rw [Wiring.outputPort?_eq, show B.wiring.exitOf exit = _ from left] at wraps
    cases wraps
    exact faced.left exit port' left
  · have got := arranged.graph.precedes_left prec
    have got' := arranged.graph.precedes_right prec
    obtain ⟨out, input, owned, owned', fed⟩ := prec
    rw [fits.nodes, fits.nodes, arranged.inside out input first second fed owned owned',
      and_iff_left got, and_iff_left got']

section Loose

variable {node : Node} (has : id ∈ B.block.nodes) (got : B.graph.nodes[id]? = some node)

include has got

/-- Nothing is carried to a loose input port. -/
theorem not_carries_of_looseInput {port : InputId} (own : port ∈ node.inputs)
    (loose : B.LooseInput port) (out : OutputId) :
    ¬ Site.Carries ⟨B.graph, B.wiring⟩ out port := by
  rintro (feeds | ⟨exit, entry, block, block', -, entered, -⟩)
  · exact loose.1 out feeds
  · refine loose.2 entry (mem_inputs_of_owner arranged has
      (arranged.graph.input_of_mem got own) entered) ?_
    rw [Wiring.inputPort?_eq, show B.wiring.entryOf entry = _ from entered, Option.map_some]

/-- Nothing is carried from a loose output port. -/
theorem not_carries_of_looseOutput {port : OutputId} (own : port ∈ node.outputs)
    (loose : B.LooseOutput port) (input : InputId) :
    ¬ Site.Carries ⟨B.graph, B.wiring⟩ port input := by
  rintro (feeds | ⟨exit, entry, block, block', left, -, -⟩)
  · exact loose.1 input feeds
  · refine loose.2 exit (mem_outputs_of_owner arranged has
      (arranged.graph.output_of_mem got own) left) ?_
    rw [Wiring.outputPort?_eq, show B.wiring.exitOf exit = _ from left, Option.map_some]

/-- Taking an idle node out of a block, with the block ports that wrap its ports. -/
theorem reduced_removeNode (idle : B.Idle node) :
    Reduced source origins kind place free others B (B.removeNode id) := by
  have fits := arranged.fits B.block (.head _)
  have wf : B.graph.Consistent := arranged.graph
  have idle' : Site.Idle ⟨B.graph, B.wiring⟩ node := by
    have input := fun port own loose =>
      @not_carries_of_looseInput _ _ _ _ _ _ _ arranged _ has got port own loose
    have out := fun port own loose =>
      @not_carries_of_looseOutput _ _ _ _ _ _ _ arranged _ has got port own loose
    exact idle.imp (.imp (fun unfed port own => input port own (unfed port own))
        (.imp_right fun unused port own => out port own (unused port own)))
      (.imp_left fun unused port own => out port own (unused port own))
  let entries := node.inputs.flatMap (B.block.entriesOf B.wiring)
  let exits := node.outputs.flatMap (B.block.exitsOf B.wiring)
  have mem_entries : ∀ entry block port, B.wiring.entryOf entry = some (block, port) →
      (entry ∈ entries ↔ port ∈ node.inputs) := fun entry block port entered =>
    (mem_flatMap_entriesOf entered).trans (and_iff_right_of_imp fun own =>
      mem_inputs_of_owner arranged has (wf.input_of_mem got own) entered)
  have mem_exits : ∀ exit block port, B.wiring.exitOf exit = some (block, port) →
      (exit ∈ exits ↔ port ∈ node.outputs) := fun exit block port left =>
    (mem_flatMap_exitsOf left).trans (and_iff_right_of_imp fun own =>
      mem_outputs_of_owner arranged has (wf.output_of_mem got own) left)
  obtain ⟨rewired, dropped⟩ := removeNode_spec (secluded_of_arranged arranged).toSeated got
  have W : (B.removeNode id).wiring = (B.removePorts entries exits).wiring := by
    rw [removeNode_eq got]
    rfl
  refine (narrowed_removeNode wf arranged.toRoster got has).reduced arranged
    (.trim ?_ ?_ ?_ ?_ (W ▸ rewired.wraps))
  · intro other record stored
    simp only [dropped.nodes, Option.ite_none_left_eq_some] at stored
    exact stored.2
  · intro other record stored
    simp only [dropped.nodes]
    by_cases here : other = id
    · subst here
      rw [show B.graph.nodes[other]? = some record from stored] at got
      cases got
      exact .inr ⟨((fits.nodes other).mp has).1, idle'⟩
    · rw [if_neg here]
      exact .inl stored
  · intro out input
    simp only [dropped.feeds, dropped.outputOwner, dropped.inputOwner]
    refine and_congr_right fun fed => ?_
    obtain ⟨owner, owned⟩ := Graph.exists_outputOwner_of_feeds fed
    obtain ⟨owner', owned'⟩ := wf.exists_inputOwner fed
    simp [owned, owned']
  · intro out input
    simp only [W, dropped.outputOwner, dropped.inputOwner, Wiring.joins_iff_connects,
      connects_removePorts arranged.wf]
    constructor
    · rintro ⟨block, block', exit, entry, left, entered, link, kept, kept'⟩
      rw [mem_exits exit block out left] at kept
      rw [mem_entries entry block' input entered] at kept'
      obtain ⟨owner, owned, -⟩ := arranged.exitPlaced exit block out left
      obtain ⟨owner', owned', -⟩ := arranged.entryPlaced entry block' input entered
      exact ⟨⟨block, block', exit, entry, left, entered, link⟩, ⟨owner, by rwa [if_neg kept]⟩,
        owner', by rwa [if_neg kept']⟩
    · rintro ⟨⟨block, block', exit, entry, left, entered, link⟩, ⟨owner, owned⟩, owner', owned'⟩
      have kept := (Option.ite_none_left_eq_some.mp owned).1
      have kept' := (Option.ite_none_left_eq_some.mp owned').1
      rw [← mem_exits exit block out left] at kept
      rw [← mem_entries entry block' input entered] at kept'
      exact ⟨block, block', exit, entry, left, entered, link, kept, kept'⟩

end Loose

/-- No identity of an arranged block feeds a node of the block. -/
theorem entryIdentity?_ne_some {item : NodeId × List BlockInputId × InputSet} :
    B.entryIdentity? id ≠ some item := by
  intro door
  have wf : B.graph.Consistent := arranged.graph
  obtain ⟨node, input, out, door, -⟩ := (entryIdentity?_eq_some_iff wf).mp door
  obtain ⟨target, fed⟩ := door.used
  have bare := arranged.bare out target id fed
    (wf.output_of_mem door.found (door.outputs ▸ mem_singleton_self out))
  rw [Graph.isIdentity, show B.graph.nodes[id]? = _ from door.found, Option.any_some,
    door.identity] at bare
  cases bare

/-- Each step of compaction makes an arranged block smaller. -/
theorem reduced_step (sheds : B.Sheds post) :
    Reduced source origins kind place free others B post := by
  have secluded := secluded_of_arranged arranged
  have wf := secluded.wiring
  cases sheds with
  | mergeInput own own' ne => exact (relinked_mergeInput wf own own' ne).reduced arranged
  | mergeOutput own own' ne => exact (relinked_mergeOutput wf own own' ne).reduced arranged
  | trim any useless => exact (secluded.relinked_trim useless).reduced arranged
  | drop own got idle => exact reduced_removeNode arranged own got idle
  | fold own own' door => exact absurd door (entryIdentity?_ne_some arranged)

theorem reduced_of_steps (steps : ReflTransGen Sheds B post) :
    Reduced source origins kind place free others B post := by
  induction steps with
  | refl => exact reduced_refl arranged
  | tail _ sheds reduced => exact reduced.trans (reduced_step reduced.arranged sheds)

/-- An arranged block can be compacted. -/
theorem compact_eq_ok : ∃ post, B.compact = .ok post ∧
    Reduced source origins kind place free others B post :=
  have secluded := secluded_of_arranged arranged
  ⟨B.compacted, secluded.compact_eq_ok,
    reduced_of_steps arranged (steps_compacted secluded.toSeated)⟩

/-! ## Folded copies -/

section Twins

variable {first copy : NodeId} {kept node : Node} (got : B.graph.nodes[first]? = some kept)
  (got' : B.graph.nodes[copy]? = some node) (eq : origins.node first = origins.node copy)

include got got' eq

private theorem original_twins : origins.original node = origins.original kept := by
  have original := arranged.faithful first kept got
  rw [eq] at original
  exact Option.mem_unique (arranged.faithful copy node got') original

end Twins

/-- A copy is folded into another one. -/
theorem reduced_foldCopy {first copy origin : NodeId} {kept node : Node} (ne : first ≠ copy)
    (has : first ∈ B.block.nodes) (member : copy ∈ B.block.nodes)
    (named : B.block.origins[first]? = some origin) (named' : B.block.origins[copy]? = some origin)
    (got : B.graph.nodes[first]? = some kept) (got' : B.graph.nodes[copy]? = some node) :
    Reduced source origins kind place free others B (B.foldCopy kept copy node) := by
  have wf : B.graph.Consistent := arranged.graph
  have fits := arranged.fits B.block (.head _)
  have near : place first = place copy :=
    ((fits.nodes first).mp has).1.trans ((fits.nodes copy).mp member).1.symm
  have eq : origins.node first = origins.node copy :=
    ((fits.origins _ _).mp named).2.symm.trans ((fits.origins _ _).mp named').2
  have handed := handed_ports wf arranged.wf ne got got'
  obtain ⟨-, length, length'⟩ := (arranged.faces (.head _)).copies.twins named named' got got'
  have images := map_replaced (wf.inputsNodup _ _ got') length
  have images' := map_replaced (wf.outputsNodup _ _ got') length'
  have twins := original_twins arranged got got' eq
  have origin := apply_replaced (congrArg Node.inputs twins)
  have origin' := apply_replaced (congrArg Node.outputs twins)
  have still := @replaced_of_not_mem _ _ (node.inputs.zip kept.inputs)
  have still' := @replaced_of_not_mem _ _ (node.outputs.zip kept.outputs)
  rw [map_fst_zip length.le] at still
  rw [map_fst_zip length'.le] at still'
  -- the ports of the copy are wrapped by ports of this block only
  have inside : ∀ entry block port, B.wiring.entryOf entry = some (block, port) →
      entry ∉ B.block.inputs → replaced (node.inputs.zip kept.inputs) port = port :=
    fun entry block port wraps foreign => still fun own => foreign
      (mem_inputs_of_owner arranged member (wf.input_of_mem got' own) wraps)
  have inside' : ∀ exit block port, B.wiring.exitOf exit = some (block, port) →
      exit ∉ B.block.outputs → replaced (node.outputs.zip kept.outputs) port = port :=
    fun exit block port wraps foreign => still' fun own => foreign
      (mem_outputs_of_owner arranged member (wf.output_of_mem got' own) wraps)
  obtain ⟨-, nodes, feeds⟩ := foldCopy_spec wf arranged.wf ne got got' length length'
  refine (narrowed_foldCopy wf arranged.toRoster ne has member named named' got got').reduced
    arranged ?_
  refine @Move.fold _ _ _ _ _ _ (fun id => if id = copy then first else id) _ _ ?_ ?_ origin
    origin' feeds (handed.joins inside inside') ?_
  · intro id record stored
    rw [nodes] at stored
    obtain ⟨other, stored⟩ := Option.ite_none_left_eq_some.mp stored
    exact ⟨stored, if_neg other⟩
  · intro id record stored
    by_cases here : id = copy
    · subst here
      cases got'.symm.trans stored
      rw [if_pos rfl]
      exact ⟨kept, by rw [nodes, if_neg ne, got], images.symm, images'.symm, near, eq⟩
    · have apart : ∀ port ∈ record.inputs, port ∉ node.inputs := fun port own own' =>
        here (wf.input_unique stored own got' own')
      have apart' : ∀ port ∈ record.outputs, port ∉ node.outputs := fun port own own' =>
        here (wf.output_unique stored own got' own')
      rw [if_neg here]
      refine ⟨record, by rw [nodes, if_neg here]; exact stored, ?_, ?_, rfl, rfl⟩
      · rw [map_congr_left fun port own => still (apart port own), map_id']
      · rw [map_congr_left fun port own => still' (apart' port own), map_id']
  · rintro port ⟨exit, block, wraps⟩
    obtain ⟨port', wraps', rfl⟩ := (rewraps_iff handed.exitOf inside').mp wraps
    obtain ⟨owner, owned, -⟩ := arranged.exitPlaced exit block port' wraps'
    exact ⟨port', owner, ⟨exit, block, wraps'⟩, owned, rfl⟩

/-- Unification of a block succeeds and is a sequence of steps in it. -/
theorem unify_eq_ok : ∃ post, B.unify = .ok post ∧
    Reduced source origins kind place free others B post := by
  obtain ⟨_, folded, unified, run⟩ := exists_unified
    (reduced_refl arranged : Reduced source origins kind place free others B B)
    (fun reduced => by
      have secluded := secluded_of_arranged reduced.arranged
      exact ⟨secluded.checked.1, secluded.checked.2, fun id _ _ => secluded.nodes id⟩)
    (fun reduced ne has mem named named' got got' => reduced.trans
      (reduced_foldCopy reduced.arranged ne has mem named named' got got'))
  have reduced := unified.holds
  have seated := (secluded_of_arranged reduced.arranged).toSeated
  have merges := steps_mergeInputs seated
  exact ⟨folded.mergeInputs.mergeOutputs, run, reduced.trans (reduced_of_steps reduced.arranged
    (merges.trans (steps_mergeOutputs (seated.of_steps merges))))⟩

end Reductions

end Placed

/-! ## Blocks in turn -/

/-- Blocks without nodes can be left out behind others. -/
theorem Arranged.sparse {blocks' : List Block}
    (arranged : Arranged source origins kind place site (fixed ++ blocks))
    (sub : blocks'.Sublist blocks) (filled : ∀ block ∈ blocks, block.isEmpty = false →
      block ∈ blocks') : Arranged source origins kind place site (fixed ++ blocks') :=
  arranged.sublist ((Sublist.refl fixed).append sub) fun block mem full =>
    (mem_append.mp mem).elim (mem_append_left _) fun late =>
      mem_append_right _ (filled block late full)

/-- Compaction of all blocks, without those that end up empty. -/
theorem compactBlocks_eq_ok (arranged : Arranged source origins kind place site (fixed ++ blocks)) :
    ∃ events blocks' site', Planner.compactBlocks blocks site = .ok (events, blocks', site') ∧
      Arranged source origins kind place site' (fixed ++ blocks') ∧
      Moves origins place (fun _ => False) (fun _ => True) site site' := by
  let inv : List Block → Site → Prop := fun blocks now =>
    Arranged source origins kind place now (fixed ++ blocks) ∧
      Moves origins place (fun _ => False) (fun _ => True) site now
  have lasting : Lasting inv :=
    ⟨fun held permuted => ⟨held.1.perm ((Perm.refl _).append permuted), held.2⟩,
      fun held sub filled => ⟨held.1.sparse sub filled, held.2⟩⟩
  have upholds : Upholds True inv (fun _ => True) Placed.compact := by
    rintro block rest now - ⟨arranged, moves⟩
    obtain ⟨post, run, reduced⟩ :=
      @Placed.compact_eq_ok ⟨now.graph, now.wiring, block⟩ _ _ _ _ _ _ (arranged.perm perm_middle)
    exact .of_exists ⟨post, run, reduced.id, reduced.arranged.perm perm_middle.symm,
      moves.trans (reduced.moves.mono fun _ _ => trivial)⟩
  obtain ⟨⟨blocks', site'⟩, run, held, -⟩ :=
    (lasting.compactBlocks upholds (fun _ _ => trivial) ⟨arranged, .refl⟩).exists'
  exact ⟨_, _, site', bind_of_ok run, lasting.sparse held filter_sublist fun block mem filled =>
    mem_filter.mpr ⟨mem, by simp [filled]⟩⟩

end Staging
