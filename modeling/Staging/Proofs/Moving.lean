import Staging.Proofs.Arrangement

/-! # Steps in blocks

A step in a block moves data only in a few ways: it takes idle nodes away, it
lets data go past an identity, or it folds copies into others. What is carried
after a step was carried before it, and what was shown before it is shown after
it.
-/

namespace Staging

open Std Relation List

variable {source : Graph} {origins : Origins} {place : Places} {free : BlockId → Prop}
  {block : BlockId} {pre post : Site} {id : NodeId}

/-- No data gets into the node, or none gets out of it that anyone asks for. -/
def Site.Idle (site : Site) (node : Node) : Prop :=
  (∀ input ∈ node.inputs, ∀ out, ¬ site.Carries out input) ∧
      (node.isBoundary = false ∧ (node.inputs = [] → node.kind = .pseudo .empty) ∨
        ∀ out ∈ node.outputs, ∀ input, ¬ site.Carries out input) ∨
    (∀ out ∈ node.outputs, ∀ input, ¬ site.Carries out input) ∧
      node.isBoundary = false ∧ node.hasMandatoryEffect = false

/-- How one step in a block changes what is carried. Only in free blocks data
goes past identities. -/
inductive Move (origins : Origins) (place : Places) (free : BlockId → Prop)
    (block : BlockId) (pre post : Site) : Prop where
  /-- Idle nodes are taken away. -/
  | trim
      (nodes : ∀ (id : NodeId) node, post.graph.nodes[id]? = some node →
        pre.graph.nodes[id]? = some node)
      (idle : ∀ (id : NodeId) node, pre.graph.nodes[id]? = some node →
        post.graph.nodes[id]? = some node ∨ place id = block ∧ pre.Idle node)
      (feeds : ∀ output input, post.graph.Feeds output input ↔
        pre.graph.Feeds output input ∧ (∃ id, post.graph.outputOwner? output = some id) ∧
          ∃ id, post.graph.inputOwner? input = some id)
      (joins : ∀ output input, post.wiring.Joins output input ↔
        pre.wiring.Joins output input ∧ (∃ id, post.graph.outputOwner? output = some id) ∧
          ∃ id, post.graph.inputOwner? input = some id)
      (wraps : ∀ port, post.wiring.Wraps port → pre.wiring.Wraps port)
  /-- Links go past an identity. -/
  | bypass {id : NodeId} {node : Node} {entry : InputId} {exit : OutputId}
      (allowed : free block) (graph : post.graph = pre.graph)
      (got : pre.graph.nodes[id]? = some node) (identity : node.isIdentity = true)
      (placed : place id = block) (inputs : node.inputs = [entry]) (outputs : node.outputs = [exit])
      (unfed : ∀ output, ¬ pre.graph.Feeds output entry)
      (unused : ∀ input, ¬ pre.graph.Feeds exit input)
      (joins : ∀ output input, post.wiring.Joins output input ↔
        output ≠ exit ∧ input ≠ entry ∧ (pre.wiring.Joins output input ∨
          pre.wiring.Joins output entry ∧ pre.wiring.Joins exit input))
      (wrapped : pre.wiring.Wraps exit)
      (wraps : ∀ port, post.wiring.Wraps port → pre.wiring.Wraps port ∧ port ≠ exit)
  /-- Nodes are mapped to copies of the same nodes in the same blocks. -/
  | fold {node : NodeId → NodeId} {input : InputId → InputId} {output : OutputId → OutputId}
      (kept : ∀ (id : NodeId) record, post.graph.nodes[id]? = some record →
        pre.graph.nodes[id]? = some record ∧ node id = id)
      (nodes : ∀ (id : NodeId) record, pre.graph.nodes[id]? = some record →
        ∃ image, post.graph.nodes[node id]? = some image ∧
          image.inputs = record.inputs.map input ∧ image.outputs = record.outputs.map output ∧
          place (node id) = place id ∧ origins.node (node id) = origins.node id)
      (inputs : ∀ port, origins.input (input port) = origins.input port)
      (outputs : ∀ port, origins.output (output port) = origins.output port)
      (feeds : ∀ source target, post.graph.Feeds source target ↔
        ∃ source' target', pre.graph.Feeds source' target' ∧ output source' = source ∧
          input target' = target)
      (joins : ∀ source target, post.wiring.Joins source target ↔
        ∃ source' target', pre.wiring.Joins source' target' ∧ output source' = source ∧
          input target' = target)
      (wraps : ∀ port, post.wiring.Wraps port →
        ∃ port' id, pre.wiring.Wraps port' ∧ pre.graph.outputOwner? port' = some id ∧
          output port' = port)

/-- Data is asked for at the outputs of the whole graph and at operators with an
effect of their own. -/
def Graph.Observed (graph : Graph) (id : NodeId) : Prop :=
  id ∈ graph.root.outputs ∨ ∃ node, graph.nodes[id]? = some node ∧
    node.hasMandatoryEffect = true ∧ node.isPseudo = false ∧ node.isStageBoundary = false

/-- The trace leads from an input of the source to a node at which data is asked for. -/
def Site.Shows (site : Site) (source : Graph) (origins : Origins) (trace : Trace) : Prop :=
  (site.flow origins).Traces (fun id => origins.node id ∈ source.root.inputs)
    (fun id => source.Observed (origins.node id)) trace

namespace Move

variable (move : Move origins place free block pre post)

include move

/-- No step makes a node. -/
theorem stored {node : Node} (got : post.graph.nodes[id]? = some node) :
    pre.graph.nodes[id]? = some node := by
  cases move with
  | trim nodes => exact nodes id node got
  | bypass _ G => exact G ▸ got
  | fold kept => exact (kept id node got).1

theorem faithful (faithful : Faithful pre.graph source origins) :
    Faithful post.graph source origins :=
  fun id node got => faithful id node (move.stored got)

/-- What is carried after a step was carried before it, through silent nodes at most. -/
theorem reaches (faithful : Faithful pre.graph source origins)
    (sound : ∀ output input, pre.Carries output input →
      source.leakingFlow.Reaches (origins.output output) (origins.input input))
    {output : OutputId} {input : InputId} (carries : post.Carries output input) :
    source.leakingFlow.Reaches (origins.output output) (origins.input input) := by
  cases move with
  | trim nodes idle feeds joins =>
    refine sound output input (carries.imp (fun fed => ?_) fun joined => ?_)
    · exact ((feeds output input).mp fed).1
    · exact ((joins output input).mp joined).1
  | @bypass id node entry exit _ G got identity placed inputs outputs unfed unused joins =>
    rcases carries with fed | joined
    · exact sound output input (.inl (G ▸ fed))
    · obtain ⟨-, -, direct | ⟨into, out⟩⟩ := (joins output input).mp joined
      · exact sound output input (.inr direct)
      · have original := faithful id node got
        have silent : (origins.original node).isSilent := by
          rw [origins.isSilent_original, Node.isSilent, identity, Bool.true_or]
        exact .trans original silent (by simp [Origins.original, inputs])
          (by simp [Origins.original, outputs]) (sound output entry (.inr into))
          (sound exit input (.inr out))
  | fold kept nodes inputs outputs feeds joins =>
    rcases carries with fed | joined
    · obtain ⟨source', target', fed', rfl, rfl⟩ := (feeds output input).mp fed
      rw [inputs, outputs]
      exact sound source' target' (.inl fed')
    · obtain ⟨source', target', joined', rfl, rfl⟩ := (joins output input).mp joined
      rw [inputs, outputs]
      exact sound source' target' (.inr joined')

end Move

section Shows

variable (normal : source.Normal) (faithful : Faithful pre.graph source origins) {node : Node}
  (got : pre.graph.nodes[id]? = some node) (clear : node.isBoundary = false)

include normal faithful got clear

private theorem not_mem_inputs : origins.node id ∉ source.root.inputs := by
  intro root
  have clear' := faithful.isBoundary got
  rw [Graph.isBoundary_iff.mpr (.inl (normal.isStageBoundary_input root)), Graph.isBoundary, got,
    Option.any_some, clear] at clear'
  cases clear'

private theorem not_observed (plain : node.hasMandatoryEffect = false ∨ node.isPseudo) :
    ¬ source.Observed (origins.node id) := by
  rintro (root | ⟨record, stored, mandatory, plain', -⟩)
  · have clear' := faithful.isBoundary got
    rw [normal.isBoundary_output root, Graph.isBoundary, got, Option.any_some, clear] at clear'
    cases clear'
  · rw [faithful id node got] at stored
    cases stored
    rcases plain with plain | pseudo
    · cases plain.symm.trans mandatory
    · cases pseudo.symm.trans plain'

end Shows

/-- What is shown before a step is shown after it. -/
theorem Move.shows (move : Move origins place free block pre post)
    (normal : source.Normal) (faithful : Faithful pre.graph source origins)
    (wf : pre.graph.Consistent) (wf' : post.graph.Consistent) {trace : Trace}
    (shown : pre.Shows source origins trace) : post.Shows source origins trace := by
  have faithful' := move.faithful faithful
  cases move with
  | trim nodes idle feeds joins =>
    have trimmed : (pre.flow origins).Trimmed (post.flow origins)
        (fun id => origins.node id ∈ source.root.inputs)
        (fun id => source.Observed (origins.node id)) := by
      refine ⟨rfl, fun id node got => (idle id node got).imp_right fun dropped => ?_,
        fun output input carries one two => ?_⟩
      · rcases dropped.2 with ⟨unfed, ⟨clear, -⟩ | unused⟩ | ⟨unused, clear, plain⟩
        · exact .inr (.inl ⟨unfed, not_mem_inputs normal faithful got clear⟩)
        · exact .inl ⟨unfed, unused⟩
        · exact .inr (.inr ⟨unused, not_observed normal faithful got clear (.inl plain)⟩)
      · obtain ⟨id, node, stored, own⟩ := one
        obtain ⟨id', node', stored', own'⟩ := two
        have left := wf'.output_of_mem stored own
        have entered := wf'.input_of_mem stored' own'
        exact carries.imp (fun fed => (feeds output input).mpr ⟨fed, ⟨id, left⟩, id', entered⟩)
          fun joined => (joins output input).mpr ⟨joined, ⟨id, left⟩, id', entered⟩
    exact trimmed.traces shown
  | @bypass id node entry exit _ G got identity placed inputs outputs unfed unused joins =>
    have clear := Node.isBoundary_of_isIdentity identity
    have bypassed : (pre.flow origins).Bypassed (post.flow origins) id entry exit := by
      refine ⟨G, rfl, ⟨node, got, inputs, outputs, by rw [Node.isSilent, identity]; rfl⟩,
        fun other record stored own => ?_, fun other record stored own => ?_,
        fun output input ne ne' carries => ?_⟩
      · have owned := wf.input_of_mem got (inputs ▸ mem_singleton_self entry)
        exact Option.mem_unique (wf.input_of_mem stored own) owned
      · have owned := wf.output_of_mem got (outputs ▸ mem_singleton_self exit)
        exact Option.mem_unique (wf.output_of_mem stored own) owned
      · rcases carries with (fed | joined) | ⟨into, out⟩
        · exact .inl (G ▸ fed)
        · exact .inr ((joins output input).mpr ⟨ne, ne', .inl joined⟩)
        · exact .inr ((joins output input).mpr ⟨ne, ne', .inr
            ⟨into.resolve_left (unfed output), out.resolve_left (unused input)⟩⟩)
    exact bypassed.traces (not_mem_inputs normal faithful got clear)
      (not_observed normal faithful got clear (.inr (Node.isPseudo_of_isIdentity identity)))
      shown
  | @fold node input output kept nodes inputs outputs feeds joins =>
    have folded : (pre.flow origins).Folded (post.flow origins)
        (fun id => origins.node id ∈ source.root.inputs)
        (fun id => source.Observed (origins.node id))
        (fun id => origins.node id ∈ source.root.inputs)
        (fun id => source.Observed (origins.node id)) node input output := by
      refine ⟨fun id record got => ?_, fun source target carries => .of_carries
        (carries.imp (fun fed => ?_) fun joined => ?_)⟩
      · obtain ⟨image, stored, inputs', outputs', -, eq⟩ := nodes id record got
        refine ⟨image, stored, inputs', outputs', ?_, eq, fun root => ?_, fun observed => ?_⟩
        · have original := faithful' (node id) image stored
          rw [eq, faithful id record got] at original
          rw [← origins.isSilent_original image, ← Option.some.inj original,
            origins.isSilent_original record]
        · rwa [eq]
        · rwa [eq]
      · exact (feeds _ _).mpr ⟨source, target, fed, rfl, rfl⟩
      · exact (joins _ _).mpr ⟨source, target, joined, rfl, rfl⟩
    exact folded.traces shown

/-! ## Links between originals -/

/-- A link leads from a copy in the one block to a port of a copy in the other. -/
def Site.Links (site : Site) (origins : Origins) (place : Places)
    (first second : BlockId) (source target : NodeId) (port : InputId) : Prop :=
  ∃ out input id id', site.graph.outputOwner? out = some id ∧
    site.graph.inputOwner? input = some id' ∧ site.wiring.Joins out input ∧
    place id = first ∧ place id' = second ∧ origins.node id = source ∧
    origins.node id' = target ∧ origins.input input = port

/-- Joined ports belong to nodes. -/
def Site.Ended (site : Site) : Prop :=
  ∀ out input, site.wiring.Joins out input → (∃ id, site.graph.outputOwner? out = some id) ∧
      ∃ id, site.graph.inputOwner? input = some id

section Fold

variable {node : NodeId → NodeId} {input : InputId → InputId} {out : OutputId → OutputId}
  (wf : pre.graph.Consistent) (wf' : post.graph.Consistent)
  (nodes : ∀ id record, pre.graph.nodes[id]? = some record →
    ∃ image, post.graph.nodes[node id]? = some image ∧
      image.inputs = record.inputs.map input ∧ image.outputs = record.outputs.map out ∧
      place (node id) = place id ∧ origins.node (node id) = origins.node id)

include wf wf' nodes

/-- A folded output port belongs to the node that its node is mapped to. -/
theorem outputOwner_fold {port : OutputId} (owned : pre.graph.outputOwner? port = some id) :
    post.graph.outputOwner? (out port) = some (node id) ∧ place (node id) = place id ∧
      origins.node (node id) = origins.node id := by
  obtain ⟨record, got, own⟩ := wf.node_of_output owned
  obtain ⟨image, stored, -, outputs, eq⟩ := nodes id record got
  exact ⟨wf'.output_of_mem stored (outputs ▸ mem_map_of_mem own), eq⟩

theorem inputOwner_fold {port : InputId} (owned : pre.graph.inputOwner? port = some id) :
    post.graph.inputOwner? (input port) = some (node id) ∧ place (node id) = place id ∧
      origins.node (node id) = origins.node id := by
  obtain ⟨record, got, own⟩ := wf.node_of_input owned
  obtain ⟨image, stored, inputs, -, eq⟩ := nodes id record got
  exact ⟨wf'.input_of_mem stored (inputs ▸ mem_map_of_mem own), eq⟩

end Fold

section Links

variable (move : Move origins place free block pre post)
  (wf : pre.graph.Consistent) (wf' : post.graph.Consistent) (ends : pre.Ended)

include move wf wf' ends

theorem Move.ended : post.Ended := by
  intro output input joined
  cases move with
  | trim nodes idle feeds joins => exact ((joins output input).mp joined).2
  | @bypass id node entry exit _ G got identity placed inputs outputs unfed unused joins =>
    rw [G]
    obtain ⟨-, -, direct | ⟨into, out⟩⟩ := (joins output input).mp joined
    · exact ends output input direct
    · exact ⟨(ends output entry into).1, (ends exit input out).2⟩
  | @fold node input' output' kept nodes inputs outputs feeds joins =>
    obtain ⟨source', target', joined', rfl, rfl⟩ := (joins output input).mp joined
    obtain ⟨⟨id, owned⟩, id', owned'⟩ := ends source' target' joined'
    exact ⟨⟨_, (outputOwner_fold wf wf' nodes owned).1⟩, _, (inputOwner_fold wf wf' nodes owned').1⟩

omit ends in
/-- Copies are still connected inside of blocks only. -/
theorem Move.bound (faithful : Faithful pre.graph source origins) (bound : pre.Bound place) :
    post.Bound place := by
  -- a connection after a step comes from one between copies of the same nodes
  have before : ∀ {output input first second}, post.graph.Feeds output input →
      post.graph.outputOwner? output = some first → post.graph.inputOwner? input = some second →
      ∃ output' input' first' second', pre.graph.Feeds output' input' ∧
        pre.graph.outputOwner? output' = some first' ∧
        pre.graph.inputOwner? input' = some second' ∧ place first = place first' ∧
        place second = place second' ∧ origins.node first = origins.node first' := by
    intro output input first second fed owned owned'
    cases move with
    | trim nodes idle feeds =>
      obtain ⟨record, stored, own⟩ := wf'.node_of_output owned
      obtain ⟨record', stored', own'⟩ := wf'.node_of_input owned'
      exact ⟨output, input, first, second, ((feeds output input).mp fed).1,
        wf.output_of_mem (nodes first record stored) own,
        wf.input_of_mem (nodes second record' stored') own', rfl, rfl, rfl⟩
    | bypass _ G =>
      rw [G] at fed owned owned'
      exact ⟨output, input, first, second, fed, owned, owned', rfl, rfl, rfl⟩
    | fold kept nodes inputs outputs feeds =>
      obtain ⟨output', input', fed', rfl, rfl⟩ := (feeds output input).mp fed
      obtain ⟨giver, given⟩ := Graph.exists_outputOwner_of_feeds fed'
      obtain ⟨taker, taken⟩ := wf.exists_inputOwner fed'
      obtain ⟨given', near, eq⟩ := outputOwner_fold wf wf' nodes given
      obtain ⟨taken', near', -⟩ := inputOwner_fold wf wf' nodes taken
      cases given'.symm.trans owned
      cases taken'.symm.trans owned'
      exact ⟨output', input', giver, taker, fed', given, taken, near, near', eq⟩
  refine ⟨fun output input first second fed owned owned' => ?_, fun output input id fed owned => ?_⟩
  · obtain ⟨output', input', first', second', fed', given, taken, near, near', -⟩ :=
      before fed owned owned'
    rw [near, near', bound.inside output' input' first' second' fed' given taken]
  · obtain ⟨next, owned'⟩ := wf'.exists_inputOwner fed
    obtain ⟨output', input', first', -, fed', given, -, -, -, eq⟩ := before fed owned owned'
    obtain ⟨record, got, -⟩ := wf'.node_of_output owned
    obtain ⟨record', got', -⟩ := wf.node_of_output given
    rw [← (move.faithful faithful).isIdentity got, eq, faithful.isIdentity got',
      bound.bare output' input' first' fed' given]

/-- A link after a step was there before it, or it goes past an identity. -/
theorem Move.links (faithful : Faithful pre.graph source origins) {first second : BlockId}
    {start target : NodeId} {port : InputId}
    (links : post.Links origins place first second start target port) :
    pre.Links origins place first second start target port ∨
      free block ∧ ∃ identity entry, source.isIdentity identity ∧
        pre.Links origins place first block start identity entry ∧
        pre.Links origins place block second identity target port := by
  obtain ⟨output, input, id, id', owned, owned', joined, rfl, rfl, rfl, rfl, rfl⟩ := links
  cases move with
  | trim nodes idle feeds joins =>
    obtain ⟨direct, -⟩ := (joins output input).mp joined
    obtain ⟨record, stored, own⟩ := wf'.node_of_output owned
    obtain ⟨record', stored', own'⟩ := wf'.node_of_input owned'
    exact .inl ⟨output, input, id, id', wf.output_of_mem (nodes id record stored) own,
      wf.input_of_mem (nodes id' record' stored') own', direct, rfl, rfl, rfl, rfl,
      rfl⟩
  | @bypass other node entry exit allowed G got identity placed inputs outputs unfed unused
      joins =>
      rw [G] at owned owned'
      obtain ⟨-, -, direct | ⟨into, out⟩⟩ := (joins output input).mp joined
      · exact .inl ⟨output, input, id, id', owned, owned', direct, rfl, rfl, rfl, rfl, rfl⟩
      · have entered := wf.input_of_mem got (inputs ▸ mem_singleton_self entry)
        have left := wf.output_of_mem got (outputs ▸ mem_singleton_self exit)
        refine .inr ⟨allowed, origins.node other, origins.input entry, ?_, ?_, ?_⟩
        · rw [faithful.isIdentity got, Graph.isIdentity, got, Option.any_some, identity]
        · exact ⟨output, entry, id, other, owned, entered, into, rfl, placed, rfl, rfl, rfl⟩
        · exact ⟨exit, input, other, id', left, owned', out, placed, rfl, rfl, rfl, rfl⟩
  | @fold node input' output' kept nodes inputs outputs feeds joins =>
    obtain ⟨source', target', joined', rfl, rfl⟩ := (joins output input).mp joined
    obtain ⟨⟨id₁, given⟩, id₂, taken⟩ := ends source' target' joined'
    obtain ⟨given', placed, origin⟩ := outputOwner_fold wf wf' nodes given
    obtain ⟨taken', placed', origin'⟩ := inputOwner_fold wf wf' nodes taken
    cases given'.symm.trans owned
    cases taken'.symm.trans owned'
    exact .inl ⟨source', target', id₁, id₂, given, taken, joined', placed.symm, placed'.symm,
      origin.symm, origin'.symm, (inputs target').symm⟩

end Links

/-- Steps in blocks one after the other. -/
abbrev Moves (origins : Origins) (place : Places) (free within : BlockId → Prop) :
    Site → Site → Prop :=
  ReflTransGen fun pre post =>
    (∃ block, within block ∧ Move origins place free block pre post) ∧ post.graph.Consistent

section Moves

variable {within within' : BlockId → Prop}

theorem Moves.mono (moves : Moves origins place free within pre post)
    (wider : ∀ block, within block → within' block) : Moves origins place free within' pre
    post := by
  refine ReflTransGen.mono ?_ _ _ moves
  rintro first second ⟨⟨block, inside, move⟩, wf⟩
  exact ⟨⟨block, wider block inside, move⟩, wf⟩

/-- What each step keeps is kept by all of them. -/
theorem Moves.keeps (moves : Moves origins place free within pre post) (inv : Site → Prop)
    (kept : ∀ block pre post, within block → Move origins place free block pre post →
      pre.graph.Consistent → post.graph.Consistent → inv pre → inv post)
    (wf : pre.graph.Consistent) (holds : inv pre) : inv post := by
  suffices post.graph.Consistent ∧ inv post from this.2
  induction moves with
  | refl => exact ⟨wf, holds⟩
  | tail _ step ih =>
    obtain ⟨⟨block, inside, move⟩, wf'⟩ := step
    exact ⟨wf', kept block _ _ inside move ih.1 wf' ih.2⟩

end Moves

end Staging
