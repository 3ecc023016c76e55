import Staging.Proofs.Building

/-! # What splices do

Each splice is described by the nodes that it makes and takes out and by the
nodes that precede each other afterwards. All of them keep a graph consistent.
-/

namespace Staging

open Std Relation List ExtTreeSet

variable {role : Role} {bound place : Nat} {exit out : OutputId} {entry input : InputId}
  {ahead behind first id second : NodeId} {made node : Node} {pre middle post : Graph}
  {moved : List InputId} {pairs : List (OutputId × InputId)} {pair : OutputId × InputId}

/-- A handle that exists is none of those to come. -/
theorem Handle.ne_of_raw_lt {handle : Handle role}
    (early : handle.raw < bound) (later : Nat) : handle ≠ ⟨bound + later⟩ := by
  rintro rfl
  exact Nat.not_lt.mpr (Nat.le_add_right bound later) early

namespace Graph

variable {G : Graph} {port : InputId} {other : NodeId}

/-! ## Neighbours after elementary changes -/

section Neighbours

variable (wf : G.Consistent)

private theorem precedes_insertConnection {giver taker : NodeId}
    (given : G.outputOwner? out = some giver)
    (taken : G.inputOwner? input = some taker) :
    (G.insertConnection out input).Precedes first second ↔
      G.Precedes first second ∨ first = giver ∧ second = taker := by
  have eq := samePorts_insertConnection G out input
  simp only [Precedes, eq.inputOwner, eq.outputOwner, feeds_insertConnection given]
  constructor
  · rintro ⟨source, target, owned, owned', feeds | ⟨rfl, rfl⟩⟩
    · exact .inl ⟨source, target, owned, owned', feeds⟩
    · rw [given] at owned
      rw [taken] at owned'
      cases owned
      cases owned'
      exact .inr ⟨rfl, rfl⟩
  · rintro (⟨source, target, owned, owned', feeds⟩ | ⟨rfl, rfl⟩)
    · exact ⟨source, target, owned, owned', .inl feeds⟩
    · exact ⟨out, input, given, taken, .inr ⟨rfl, rfl⟩⟩

include wf

private theorem precedes_create {decl : NodeDecl} :
    (G.create decl).2.Precedes first second ↔ G.Precedes first second := by
  have created := wf.create decl
  -- the ports of the new node are not connected with anything
  have eq : ∀ {out : OutputId} {input : InputId}, G.Feeds out input →
      (G.create decl).2.outputOwner? out = G.outputOwner? out ∧
        (G.create decl).2.inputOwner? input = G.inputOwner? input := by
    intro out input feeds
    obtain ⟨giver, given⟩ := exists_outputOwner_of_feeds feeds
    obtain ⟨taker, taken⟩ := wf.exists_inputOwner feeds
    exact ⟨(created.outputOwner_old wf given).trans given.symm,
      (created.inputOwner_old wf taken).trans taken.symm⟩
  constructor
  · rintro ⟨out, input, owned, owned', feeds⟩
    rw [created.feeds] at feeds
    rw [(eq feeds).1] at owned
    rw [(eq feeds).2] at owned'
    exact ⟨out, input, owned, owned', feeds⟩
  · rintro ⟨out, input, owned, owned', feeds⟩
    refine ⟨out, input, ?_, ?_, (created.feeds out input).mpr feeds⟩
    · rw [(eq feeds).1, owned]
    · rw [(eq feeds).2, owned']

theorem precedes_drop (got : G.nodes[id]? = some node) : (G.drop id node).Precedes first second ↔
    G.Precedes first second ∧ first ≠ id ∧ second ≠ id := by
  have dropped := wf.drop got
  constructor
  · rintro ⟨out, input, owned, owned', feeds⟩
    obtain ⟨feeds, loose, loose'⟩ := (dropped.feeds out input).mp feeds
    rw [dropped.outputOwner, if_neg loose] at owned
    rw [dropped.inputOwner, if_neg loose'] at owned'
    refine ⟨⟨out, input, owned, owned', feeds⟩, ?_, ?_⟩
    · rintro rfl
      exact loose ((wf.mem_outputs_iff got).mpr owned)
    · rintro rfl
      exact loose' ((wf.mem_inputs_iff got).mpr owned')
  · rintro ⟨⟨out, input, owned, owned', feeds⟩, ne, ne'⟩
    have loose : out ∉ node.outputs := fun mem => ne (Option.mem_unique owned
      ((wf.mem_outputs_iff got).mp mem))
    have loose' : input ∉ node.inputs := fun mem => ne' (Option.mem_unique owned'
      ((wf.mem_inputs_iff got).mp mem))
    refine ⟨out, input, ?_, ?_, (dropped.feeds out input).mpr ⟨feeds, loose, loose'⟩⟩
    · rw [dropped.outputOwner, if_neg loose, owned]
    · rw [dropped.inputOwner, if_neg loose', owned']

end Neighbours

/-! ## Nodes with one input and one output -/

theorem node_of_found (got : G.nodes[id]? = some node) : G.node id = .ok node := by
  rw [Graph.node, got]

private theorem exists_input {owner : NodeId} (owned : G.inputOwner? port = some owner) :
    ∃ record, G.input port = .ok record ∧ record.connected = G.sources port := by
  obtain ⟨record, got, -⟩ := Option.map_eq_some_iff.mp owned
  refine ⟨record, ?_, ?_⟩
  · rw [Graph.input, got]
  · rw [sources, got]

theorem exists_output {port : OutputId} {owner : NodeId}
    (owned : G.outputOwner? port = some owner) :
    ∃ record, G.output port = .ok record ∧ G.outputs[port]? = some record ∧
      record.connected = G.targets port := by
  obtain ⟨record, got, -⟩ := Option.map_eq_some_iff.mp owned
  refine ⟨record, ?_, got, ?_⟩
  · rw [Graph.output, got]
  · rw [targets, got]

theorem Consistent.below_of_feeds (wf : G.Consistent) (feeds : G.Feeds out input) :
    out.raw < G.next ∧ input.raw < G.next := by
  obtain ⟨giver, given⟩ := exists_outputOwner_of_feeds feeds
  obtain ⟨taker, taken⟩ := wf.exists_inputOwner feeds
  exact ⟨wf.outputBelow out giver given, wf.inputBelow input taker taken⟩

theorem Consistent.output_ne (wf : G.Consistent) {port : OutputId} {owner : NodeId}
    (owned : G.outputOwner? port = some owner) (later : Nat) :
    port ≠ ⟨G.next + later⟩ :=
  Handle.ne_of_raw_lt (wf.outputBelow _ _ owned) later

theorem Consistent.input_ne (wf : G.Consistent) {owner : NodeId}
    (owned : G.inputOwner? port = some owner) (later : Nat) :
    port ≠ ⟨G.next + later⟩ :=
  Handle.ne_of_raw_lt (wf.inputBelow _ _ owned) later

/-- One node with one input and one output has been added. -/
structure Passaged (pre : Graph) (made : Node) (post : Graph) : Prop
    extends Added pre made post where
  next : post.next = pre.next + 3
  inputs : made.inputs = [⟨pre.next + 1⟩]
  outputs : made.outputs = [⟨pre.next + 2⟩]

namespace Passaged

variable (passaged : Passaged pre made post)

include passaged

theorem takes : post.inputOwner? ⟨pre.next + 1⟩ = some ⟨pre.next⟩ :=
  passaged.wf.input_of_mem passaged.new (passaged.inputs ▸ mem_singleton_self _)

private theorem gives : post.outputOwner? ⟨pre.next + 2⟩ = some ⟨pre.next⟩ :=
  passaged.wf.output_of_mem passaged.new (passaged.outputs ▸ mem_singleton_self _)

/-- A change of connections only, after the node has been created. -/
theorem congr {post' : Graph} (eq : SamePorts post post') (wf : post'.Consistent) :
    Passaged pre made post' where
  wf := wf
  root := eq.root.trans passaged.root
  nodes other := by rw [eq.nodes, passaged.nodes]
  next := eq.next.trans passaged.next
  inputs := passaged.inputs
  outputs := passaged.outputs

end Passaged

private theorem Consistent.createPassage (wf : G.Consistent) (decl : NodeDecl)
    (inputs : decl.inputs.length = 1) (outputs : decl.outputs.length = 1) :
    Passaged G (G.created decl) (G.createPassage decl).2 ∧
      ∀ output input, (G.createPassage decl).2.Feeds output input ↔
        G.Feeds output input := by
  have created := wf.create decl
  refine ⟨⟨created.toAdded, ?_, ?_, ?_⟩, created.feeds⟩
  · rw [← inputs] at outputs
    exact created.next.trans (by omega)
  · rw [Graph.created, inputs]
    rfl
  · rw [Graph.created, inputs, outputs]
    rfl

/-! ## Nodes on connections -/

/-- What putting a new node between an output port and some of its targets does. -/
structure Spliced (pre : Graph) (output : OutputId) (moved : List InputId) (made : Node)
    (post : Graph) : Prop extends Passaged pre made post where
  feeds : ∀ source target, post.Feeds source target ↔
    pre.Feeds source target ∧ ¬ (source = output ∧ target ∈ moved) ∨
      source = output ∧ target = ⟨pre.next + 1⟩ ∨ source = ⟨pre.next + 2⟩ ∧ target ∈ moved

/-- Targets of one output port are given to another one. -/
theorem feeds_redirect {other : OutputId} (wf : G.Consistent) (ne : other ≠ out)
    (given : ∃ owner, G.outputOwner? other = some owner)
    (taken : ∀ target ∈ moved, ∃ owner, G.inputOwner? target = some owner) :
    let post := moved.foldl (fun G target =>
      (G.eraseConnection out target).insertConnection other target) G
    post.Consistent ∧ SamePorts G post ∧ ∀ source target, post.Feeds source target ↔
      G.Feeds source target ∧ ¬ (source = out ∧ target ∈ moved) ∨
        source = other ∧ target ∈ moved := by
  induction moved generalizing G with
  | nil => exact ⟨wf, .refl G, by simp⟩
  | cons first rest ih =>
    obtain ⟨giver, given⟩ := given
    obtain ⟨taker, taken'⟩ := taken first (.head _)
    have erased := samePorts_eraseConnection G out first
    have given' := (erased.outputOwner other).trans given
    have stepped := erased.trans (samePorts_insertConnection _ other first)
    obtain ⟨wf, eq, feeds⟩ := ih ((wf.eraseConnection).insertConnection given'
        ((erased.inputOwner first).trans taken'))
      ⟨giver, (stepped.outputOwner other).trans given⟩ fun target later => by
        obtain ⟨owner, owned⟩ := taken target (.tail _ later)
        exact ⟨owner, (stepped.inputOwner target).trans owned⟩
    refine ⟨wf, stepped.trans eq, fun source target => ?_⟩
    rw [foldl_cons, feeds, feeds_insertConnection given', feeds_eraseConnection]
    simp only [mem_cons]
    by_cases here : source = other
    · subst here
      simp only [ne, true_and, false_and, not_false_eq_true, and_true]
      tauto
    · simp only [here, false_and, or_false]
      tauto

theorem Consistent.insertPassage (wf : G.Consistent)
    {port : OutputPort} (got : G.outputs[out]? = some port)
    (fed : ∀ target ∈ moved, G.Feeds out target) (pseudo : Pseudo) (boundary : Boundary) :
    Spliced G out moved
      (G.created (passage (G.portName port.owner port.name) pseudo boundary port.dataType))
      (G.insertPassage out port moved pseudo boundary).2 := by
  obtain ⟨passaged, kept⟩ := wf.createPassage (passage (G.portName port.owner port.name) pseudo
    boundary port.dataType) rfl rfl
  have given : G.outputOwner? out = some port.owner := by rw [outputOwner?, got]; rfl
  obtain ⟨wf', eq, feeds⟩ := feeds_redirect passaged.wf (wf.output_ne given 2).symm
    ⟨_, passaged.gives⟩ fun target mem => by
      obtain ⟨owner, owned⟩ := wf.exists_inputOwner (fed target mem)
      exact ⟨owner, passaged.inputOwner_old wf owned⟩
  have given' := (eq.outputOwner out).trans (passaged.outputOwner_old wf given)
  have taken' := (eq.inputOwner _).trans passaged.takes
  refine ⟨passaged.congr (eq.trans (samePorts_insertConnection _ out ⟨G.next + 1⟩))
    (wf'.insertConnection given' taken'), fun source target => ?_⟩
  refine (feeds_insertConnection given').trans ?_
  rw [feeds, kept]
  tauto

namespace Spliced

variable (spliced : Spliced pre out moved made post)

include spliced

/-- Two nodes that precede each other afterwards did so before, or the new node
is one of them and the one with the output port precedes the other. -/
theorem prec (wf : pre.Consistent) {owner : NodeId} (owned : pre.outputOwner? out = some owner)
    (fed : ∀ target ∈ moved, pre.Feeds out target) (prec : post.Precedes first second) :
    pre.Precedes first second ∨ first = owner ∧ second = ⟨pre.next⟩ ∨
      first = ⟨pre.next⟩ ∧ ∃ target ∈ moved, pre.inputOwner? target = some second := by
  obtain ⟨source, target, given, taken, feeds⟩ := prec
  rcases (spliced.feeds source target).mp feeds with ⟨feeds, -⟩ | ⟨rfl, rfl⟩ | ⟨rfl, mem⟩
  · obtain ⟨giver, given'⟩ := exists_outputOwner_of_feeds feeds
    obtain ⟨taker, taken'⟩ := wf.exists_inputOwner feeds
    cases given.symm.trans (spliced.outputOwner_old wf given')
    cases taken.symm.trans (spliced.inputOwner_old wf taken')
    exact .inl ⟨source, target, given', taken', feeds⟩
  · cases given.symm.trans (spliced.outputOwner_old wf owned)
    cases taken.symm.trans spliced.takes
    exact .inr (.inl ⟨rfl, rfl⟩)
  · obtain ⟨taker, taken'⟩ := wf.exists_inputOwner (fed target mem)
    cases given.symm.trans spliced.gives
    cases taken.symm.trans (spliced.inputOwner_old wf taken')
    exact .inr (.inr ⟨rfl, target, mem, taken'⟩)

end Spliced

theorem Consistent.insertSink (wf : G.Consistent)
    {port : OutputPort} (got : G.outputs[out]? = some port) :
    ∃ made : Node, made.isPseudo ∧ G.Added made (G.insertSink out port).2 ∧
      (G.insertSink out port).2.next = G.next + 2 ∧
      ∀ first second, (G.insertSink out port).2.Precedes first second →
        G.Precedes first second ∨ first = port.owner ∧ second = ⟨G.next⟩ := by
  have created := wf.create (sink (G.portName port.owner port.name ++ "-sink") port.dataType)
  have owned : G.outputOwner? out = some port.owner := by rw [outputOwner?, got]; rfl
  have given := created.outputOwner_old wf owned
  have taken := created.wf.input_of_mem created.new (mem_singleton_self (⟨G.next + 1⟩ : InputId))
  refine ⟨_, rfl, ⟨created.wf.insertConnection given taken, created.root, created.nodes⟩,
    created.next, fun first second prec => ?_⟩
  rcases (precedes_insertConnection given taken).mp prec with old | added
  · exact .inl ((precedes_create wf).mp old)
  · exact .inr added

/-! ## Nodes taken out -/

/-- What taking a node out between what feeds it and what it feeds does. -/
structure Skipped (pre : Graph) (id : NodeId) (post : Graph) : Prop
    extends Removed pre id post where
  feeds : ∀ output input, post.Feeds output input ↔
    pre.outputOwner? output ≠ some id ∧ pre.inputOwner? input ≠ some id ∧
      (pre.Feeds output input ∨ ∃ entry exit, pre.inputOwner? entry = some id ∧
        pre.outputOwner? exit = some id ∧ pre.Feeds output entry ∧ pre.Feeds exit input)

theorem remove_eq_ok (run : G.remove id = .ok post) :
    ∃ node, G.nodes[id]? = some node ∧ post = G.drop id node := by
  obtain ⟨node, run', ⟨⟩⟩ := of_bind run
  exact ⟨node, node_eq_ok run', rfl⟩

theorem Consistent.skip (wf : G.Consistent) (run : G.skip id = .ok post) : Skipped G id post := by
  obtain ⟨node, run', run⟩ := of_bind run
  have got := node_eq_ok run'
  have dropped := wf.drop got
  obtain ⟨joinable, rfl⟩ := linkAll_eq_ok_iff.mp run
  have own : ∀ port, port ∈ node.inputs ↔ G.inputOwner? port = some id :=
    fun _ => wf.mem_inputs_iff got
  have own' : ∀ port, port ∈ node.outputs ↔ G.outputOwner? port = some id :=
    fun _ => wf.mem_outputs_iff got
  have eq := samePorts_connectPairs (G.drop id node)
  refine ⟨⟨dropped.wf.connectPairs joinable, (eq _).next.trans dropped.next,
    (eq _).root.trans dropped.root, fun other => ?_⟩, fun out input => ?_⟩
  · rw [(eq _).nodes, dropped.nodes]
  · rw [feeds_connectPairs joinable, dropped.feeds, own, own']
    constructor
    · rintro (⟨fed, clear, clear'⟩ | linked)
      · exact ⟨clear, clear', .inl fed⟩
      · -- ports that are linked are still there
        obtain ⟨⟨giver, given⟩, taker, taken⟩ := joinable _ linked
        rw [dropped.outputOwner] at given
        rw [dropped.inputOwner] at taken
        have clear : out ∉ node.outputs := fun mem => by simp [mem] at given
        have clear' : input ∉ node.inputs := fun mem => by simp [mem] at taken
        obtain ⟨source, target⟩ := pair_mem_product.mp linked
        obtain ⟨entry, enters, fed⟩ := mem_flatMap.mp source
        obtain ⟨exit, leaves, fed'⟩ := mem_flatMap.mp target
        exact ⟨mt (own' out).mpr clear, mt (own input).mpr clear', .inr ⟨entry, exit,
          (own entry).mp enters, (own' exit).mp leaves, (wf.agree out entry).mpr
          (mem_toList.mp fed), mem_toList.mp fed'⟩⟩
    · rintro ⟨clear, clear', fed | ⟨entry, exit, enters, leaves, fed, fed'⟩⟩
      · exact .inl ⟨fed, clear, clear'⟩
      · exact .inr (pair_mem_product.mpr ⟨mem_flatMap.mpr ⟨entry, (own entry).mpr enters,
          mem_toList.mpr ((wf.agree out entry).mp fed)⟩,
          mem_flatMap.mpr ⟨exit, (own' exit).mpr leaves, mem_toList.mpr fed'⟩⟩)

namespace Skipped

variable (skipped : Skipped pre id post) (wf : pre.Consistent)

include skipped wf

theorem inputOwner {owner : NodeId} :
    post.inputOwner? port = some owner ↔ owner ≠ id ∧ pre.inputOwner? port = some owner := by
  rw [skipped.wf.inputOwner, wf.inputOwner, skipped.nodes]
  by_cases eq : owner = id <;> simp [eq]

theorem outputOwner {port : OutputId} {owner : NodeId} :
    post.outputOwner? port = some owner ↔ owner ≠ id ∧ pre.outputOwner? port = some owner := by
  rw [skipped.wf.outputOwner, wf.outputOwner, skipped.nodes]
  by_cases eq : owner = id <;> simp [eq]

theorem prec (prec : post.Precedes first second) : first ≠ id ∧ second ≠ id ∧
    (pre.Precedes first second ∨ pre.Precedes first id ∧ pre.Precedes id second) := by
  obtain ⟨out, input, given, taken, feeds⟩ := prec
  obtain ⟨ne, given⟩ := (skipped.outputOwner wf).mp given
  obtain ⟨ne', taken⟩ := (skipped.inputOwner wf).mp taken
  refine ⟨ne, ne', ?_⟩
  obtain ⟨-, -, feeds | ⟨entry, exit, own, own', enters, leaves⟩⟩ := (skipped.feeds _ _).mp feeds
  · exact .inl ⟨out, input, given, taken, feeds⟩
  · exact .inr ⟨⟨out, entry, given, own, enters⟩, exit, input, own', taken, leaves⟩

end Skipped

/-! ## Identities split -/

/-- What is new stands for one node, and what was there before for itself. -/
def attached {role : Role} (bound : Nat) (owner other : Handle role) : Handle role :=
  if other.raw < bound then other else owner

theorem attached_old {owner other : Handle role}
    (old : other.raw < bound) : attached bound owner other = other :=
  if_pos old

/-- A node has been taken out, and there may be new ones. -/
structure Vacated (pre : Graph) (id : NodeId) (post : Graph) : Prop where
  wf : post.Consistent
  next : pre.next ≤ post.next
  root : post.root = pre.root
  gone : post.nodes[id]? = none
  old : ∀ other : NodeId, other.raw < pre.next → other ≠ id → post.nodes[other]? = pre.nodes[other]?

theorem Vacated.nodes_old (vacated : Vacated pre id post)
    (has : post.nodes[other]? = some made) (early : other.raw < pre.next) :
    other ≠ id ∧ pre.nodes[other]? = some made := by
  have ne : other ≠ id := by
    rintro rfl
    cases vacated.gone.symm.trans has
  exact ⟨ne, (vacated.old other early ne).symm.trans has⟩

/-- A node has been taken out, and ports of new nodes stand for two ports that there were. -/
structure Recast (pre : Graph) (id : NodeId) (entry : InputId) (exit : OutputId)
    (post : Graph) : Prop extends Vacated pre id post where
  late : ∀ (other : NodeId) made, pre.next ≤ other.raw →
    post.nodes[other]? = some made → (∀ port ∈ made.inputs, pre.next ≤ port.raw) ∧
      ∀ port ∈ made.outputs, pre.next ≤ port.raw
  folds : ∀ output input, post.Feeds output input →
    pre.Feeds (attached pre.next exit output) (attached pre.next entry input)

namespace Recast

variable {owner : NodeId} (recast : Recast pre id entry exit post) (wf : pre.Consistent)

include recast wf

theorem giver (given : pre.outputOwner? exit = some ahead)
    (own : post.outputOwner? out = some owner) :
    pre.outputOwner? (attached pre.next exit out) = some (attached pre.next ahead owner) := by
  obtain ⟨made, has, mem⟩ := recast.wf.node_of_output own
  by_cases early : owner.raw < pre.next
  · have own := wf.output_of_mem (recast.nodes_old has early).2 mem
    rw [attached_old early, attached_old (wf.outputBelow out owner own), own]
  · have late := (recast.late owner made (Nat.not_lt.mp early) has).2 out mem
    rw [attached, if_neg (Nat.not_lt.mpr late), attached, if_neg early, given]

theorem taker (taken : pre.inputOwner? entry = some behind)
    (own : post.inputOwner? input = some owner) :
    pre.inputOwner? (attached pre.next entry input) = some (attached pre.next behind owner) := by
  obtain ⟨made, has, mem⟩ := recast.wf.node_of_input own
  by_cases early : owner.raw < pre.next
  · have own := wf.input_of_mem (recast.nodes_old has early).2 mem
    rw [attached_old early, attached_old (wf.inputBelow input owner own), own]
  · have late := (recast.late owner made (Nat.not_lt.mp early) has).1 input mem
    rw [attached, if_neg (Nat.not_lt.mpr late), attached, if_neg early, taken]

end Recast

/-- The node is the copy of an identity between the ports of the pair at a place. -/
def IsCopy (bound place : Nat) (node : Node) : Prop :=
  node.isIdentity = true ∧ node.inputs = [⟨bound + (3 * place + 1)⟩] ∧
    node.outputs = [⟨bound + (3 * place + 2)⟩]

/-- Identities have been added, one between the two ports of each pair. -/
structure Forked (pre : Graph) (pairs : List (OutputId × InputId)) (post : Graph) : Prop where
  wf : post.Consistent
  next : post.next = pre.next + 3 * pairs.length
  root : post.root = pre.root
  old : ∀ id : NodeId, id.raw < pre.next → post.nodes[id]? = pre.nodes[id]?
  new : ∀ (id : NodeId) node, pre.next ≤ id.raw → post.nodes[id]? = some node →
    ∃ place, place < pairs.length ∧ IsCopy pre.next place node
  feeds : ∀ output input, post.Feeds output input ↔ pre.Feeds output input ∨
    ∃ place pair, pairs[place]? = some pair ∧
      (output = pair.1 ∧ input = ⟨pre.next + (3 * place + 1)⟩ ∨
        output = ⟨pre.next + (3 * place + 2)⟩ ∧ input = pair.2)

private theorem forked_refl (wf : G.Consistent) : Forked G [] G where
  wf := wf
  next := rfl
  root := rfl
  old _ _ := rfl
  new id node late got := absurd (wf.early got) (Nat.not_lt.mpr late)
  feeds := by simp

/-- One copy more, between two ports that are there. -/
theorem Forked.step {now : Graph} (forked : Forked pre pairs now)
    (wf : pre.Consistent) (joinable : pre.Joinable pair) (name : String)
    (dataType : DataType) (observation : Observation) : Forked pre (pairs ++ [pair])
      ((((now.createPassage { passage name .identity .none dataType with observation }).2
        ).insertConnection pair.1 ⟨now.next + 1⟩).insertConnection ⟨now.next + 2⟩ pair.2) := by
  obtain ⟨passaged, kept⟩ := forked.wf.createPassage
    { passage name .identity .none dataType with observation } rfl rfl
  obtain ⟨⟨giver, given⟩, taker, taken⟩ := joinable
  have given' : now.outputOwner? pair.1 = some giver := by
    obtain ⟨node, got, mem⟩ := wf.node_of_output given
    exact forked.wf.output_of_mem ((forked.old giver (wf.early got)).trans got) mem
  have taken' : now.inputOwner? pair.2 = some taker := by
    obtain ⟨node, got, mem⟩ := wf.node_of_input taken
    exact forked.wf.input_of_mem ((forked.old taker (wf.early got)).trans got) mem
  -- the owners of the ports that the two connections join
  have own₁ := passaged.outputOwner_old forked.wf given'
  have eq := samePorts_insertConnection (now.createPassage
    { passage name .identity .none dataType with observation }).2 pair.1 ⟨now.next + 1⟩
  have own₂ := (eq.outputOwner _).trans passaged.gives
  have own₃ := (eq.inputOwner _).trans (passaged.inputOwner_old forked.wf taken')
  have after := passaged.congr (eq.trans (samePorts_insertConnection _ ⟨now.next + 2⟩ pair.2))
    ((passaged.wf.insertConnection own₁ passaged.takes).insertConnection own₂ own₃)
  have length : (pairs ++ [pair]).length = pairs.length + 1 := by simp
  refine ⟨after.wf, ?_, after.root.trans forked.root, fun other early => ?_,
    fun other node late got => ?_, fun out input => ?_⟩
  · rw [after.next, forked.next, length]
    omega
  · refine (after.nodes other).trans ((if_neg ?_).trans (forked.old other early))
    rintro rfl
    rw [forked.next] at early
    exact Nat.not_lt.mpr (Nat.le_add_right _ _) early
  · rcases after.cases got with ⟨-, rfl⟩ | got
    · refine ⟨pairs.length, by omega, ?_⟩
      rw [IsCopy, ← Nat.add_assoc, ← Nat.add_assoc, ← forked.next]
      exact ⟨rfl, rfl, rfl⟩
    · obtain ⟨place, inside, copy⟩ := forked.new other node late got
      exact ⟨place, by omega, copy⟩
  · rw [feeds_insertConnection own₂, feeds_insertConnection own₁, kept, forked.feeds,
      forked.next, Nat.add_assoc, Nat.add_assoc]
    simp only [getElem?_concat_eq_some]
    constructor
    · rintro (((old | ⟨place, pair, mem, joins⟩) | new) | new)
      · exact .inl old
      · exact .inr ⟨place, pair, .inl mem, joins⟩
      · exact .inr ⟨pairs.length, pair, .inr ⟨rfl, rfl⟩, .inl new⟩
      · exact .inr ⟨pairs.length, pair, .inr ⟨rfl, rfl⟩, .inr new⟩
    · rintro (old | ⟨place, _, mem | ⟨rfl, rfl⟩, joins⟩)
      · exact .inl (.inl (.inl old))
      · exact .inl (.inl (.inr ⟨place, _, mem, joins⟩))
      · exact joins.elim (fun new => .inl (.inr new)) .inr

/-- Copies are made one after the other, as many as there are pairs. -/
theorem Consistent.forked (wf : G.Consistent)
    (joinable : ∀ pair ∈ pairs, G.Joinable pair) (name : String) (dataType : DataType)
    (observation : Observation) :
    let split := pairs.foldl (fun (state : List NodeId × Graph) (pair : OutputId × InputId) =>
      let made := state.2.createPassage { passage name .identity .none dataType with observation }
      (state.1 ++ [made.1.node],
        (made.2.insertConnection pair.1 made.1.input).insertConnection made.1.output pair.2))
      ([], G)
    Forked G pairs split.2 ∧ split.1.length = pairs.length := by
  intro split
  have holds : ∃ done, done ++ [] = pairs ∧ Forked G done split.2 ∧
      split.1.length = done.length := by
    refine foldl_keeps (fun rest (state : List NodeId × Graph) => ∃ done, done ++ rest = pairs ∧
      Forked G done state.2 ∧ state.1.length = done.length) ?_
      ⟨[], rfl, forked_refl wf, rfl⟩
    rintro pair rest ⟨copies, now⟩ ⟨done, eq, forked, length⟩
    refine ⟨done ++ [pair], by rw [append_assoc]; exact eq, forked.step wf
      (joinable pair (eq ▸ mem_append_right _ (.head _))) name dataType observation, ?_⟩
    rw [length_append, length_append]
    exact congrArg (· + 1) length
  obtain ⟨done, eq, holds⟩ := holds
  rw [append_nil] at eq
  exact eq ▸ holds

/-- At most one connection leads to the node. -/
def SingleIn (graph : Graph) (id : NodeId) : Prop :=
  ∀ entry entry' first second, graph.inputOwner? entry = some id →
    graph.inputOwner? entry' = some id → graph.Feeds first entry → graph.Feeds second entry' →
    first = second ∧ entry = entry'

/-- At most one connection leads away from the node. -/
def SingleOut (graph : Graph) (id : NodeId) : Prop :=
  ∀ exit exit' first second, graph.outputOwner? exit = some id →
    graph.outputOwner? exit' = some id → graph.Feeds exit first → graph.Feeds exit' second →
    first = second ∧ exit = exit'

/-- There is at most one connection on each side of the node. -/
structure OneToOne (graph : Graph) (id : NodeId) : Prop where
  single : graph.SingleIn id
  single' : graph.SingleOut id

theorem OneToOne.before (slim : G.OneToOne id)
    (one : G.Precedes first id) (two : G.Precedes second id) : first = second := by
  obtain ⟨out, entry, given, own, feeds⟩ := one
  obtain ⟨out', entry', given', own', feeds'⟩ := two
  obtain ⟨rfl, -⟩ := slim.single entry entry' out out' own own' feeds feeds'
  exact Option.mem_unique given given'

theorem OneToOne.after (slim : G.OneToOne id)
    (one : G.Precedes id first) (two : G.Precedes id second) : first = second := by
  obtain ⟨exit, input, own, taken, feeds⟩ := one
  obtain ⟨exit', input', own', taken', feeds'⟩ := two
  obtain ⟨rfl, -⟩ := slim.single' exit exit' input input' own own' feeds feeds'
  exact Option.mem_unique taken taken'

/-- What replacing an identity by one copy for each pair of ports does. -/
structure Split (pre : Graph) (id : NodeId) (entry : InputId) (exit : OutputId)
    (pairs : List (OutputId × InputId)) (post : Graph) : Prop extends Vacated pre id post where
  nodup : pairs.Nodup
  between : ∀ source target, (source, target) ∈ pairs ↔
    pre.Feeds source entry ∧ pre.Feeds exit target
  new : ∀ (other : NodeId) node, pre.next ≤ other.raw →
    post.nodes[other]? = some node → ∃ place, place < pairs.length ∧ IsCopy pre.next place node
  feeds : ∀ output input, post.Feeds output input ↔ (pre.Feeds output input ∨
    ∃ place pair, pairs[place]? = some pair ∧
      (output = pair.1 ∧ input = ⟨pre.next + (3 * place + 1)⟩ ∨
        output = ⟨pre.next + (3 * place + 2)⟩ ∧ input = pair.2)) ∧
    output ≠ exit ∧ input ≠ entry

/-- What replacing an identity by copies of it does. -/
structure Separated (pre : Graph) (id : NodeId) (post : Graph) : Prop
    extends Vacated pre id post where
  identity : pre.isIdentity id = true
  new : ∀ (other : NodeId) node, pre.next ≤ other.raw →
    post.nodes[other]? = some node → node.isIdentity = true
  prec : ∀ first second, post.Precedes first second →
    pre.Precedes (attached pre.next id first) (attached pre.next id second)

section Split

variable (wf : G.Consistent) (got : G.nodes[id]? = some node)

include wf got

private theorem Forked.split (forked : Forked G pairs middle) (nodup : pairs.Nodup)
    (between : ∀ source target, (source, target) ∈ pairs ↔
      G.Feeds source entry ∧ G.Feeds exit target)
    (inputs : node.inputs = [entry]) (outputs : node.outputs = [exit]) :
    Split G id entry exit pairs (middle.drop id node) := by
  have dropped := forked.wf.drop ((forked.old id (wf.early got)).trans got)
  refine ⟨⟨dropped.wf, ?_, dropped.root.trans forked.root, (dropped.nodes id).trans (if_pos rfl),
    fun other below ne => (dropped.kept ne).trans (forked.old other below)⟩, nodup, between,
    fun other record late there => forked.new other record late (dropped.nodes_old there).2,
    fun out input => ?_⟩
  · rw [dropped.next, forked.next]
    exact Nat.le_add_right _ _
  · rw [dropped.feeds, forked.feeds, inputs, outputs, mem_singleton, mem_singleton]

omit wf got

variable (split : Split G id entry exit pairs post)

include split

/-- The ports of a pair are those of connections of the identity. -/
theorem Split.feeds_pair
    (mem : pairs[place]? = some pair) : G.Feeds pair.1 entry ∧ G.Feeds exit pair.2 :=
  (split.between pair.1 pair.2).mp (mem_of_getElem? mem)

theorem Split.place_eq {place' : Nat}
    (mem : pairs[place]? = some pair) (mem' : pairs[place']? = some pair) :
    place = place' := by
  obtain ⟨inside, -⟩ := List.getElem?_eq_some_iff.mp mem
  exact (getElem?_inj inside split.nodup).mp (mem.trans mem'.symm)

private theorem Split.source_old (early : input.raw < G.next)
    (feeds : post.Feeds out input) : G.Feeds out input ∧ out ≠ exit ∨
      ∃ place source, pairs[place]? = some (source, input) ∧ out = ⟨G.next + (3 * place + 2)⟩ := by
  obtain ⟨old | ⟨place, pair, mem, ⟨-, rfl⟩ | ⟨rfl, rfl⟩⟩, clear, -⟩ := (split.feeds _ _).mp feeds
  · exact .inl ⟨old, clear⟩
  · exact (Handle.ne_of_raw_lt early _ rfl).elim
  · exact .inr ⟨place, pair.1, mem, rfl⟩

theorem Split.target_old (early : out.raw < G.next)
    (feeds : post.Feeds out input) : G.Feeds out input ∧ input ≠ entry ∨
      ∃ place target, pairs[place]? = some (out, target) ∧ input = ⟨G.next + (3 * place + 1)⟩ := by
  obtain ⟨old | ⟨place, pair, mem, ⟨rfl, rfl⟩ | ⟨rfl, -⟩⟩, -, clear⟩ := (split.feeds _ _).mp feeds
  · exact .inl ⟨old, clear⟩
  · exact .inr ⟨place, pair.2, mem, rfl⟩
  · exact (Handle.ne_of_raw_lt early _ rfl).elim

include wf

/-- A copy is fed by the source of its pair alone. -/
theorem Split.source (feeds : post.Feeds out ⟨G.next + (3 * place + 1)⟩) :
    ∃ target, pairs[place]? = some (out, target) := by
  obtain ⟨old | ⟨place', pair, mem, ⟨rfl, eq⟩ | ⟨-, eq⟩⟩, -⟩ := (split.feeds _ _).mp feeds
  · exact (Handle.ne_of_raw_lt (wf.below_of_feeds old).2 _ rfl).elim
  · obtain rfl : place = place' := by
      have eq := congrArg Handle.raw eq
      simp only at eq
      omega
    exact ⟨pair.2, mem⟩
  · exact (Handle.ne_of_raw_lt (wf.below_of_feeds (split.feeds_pair mem).2).2 _ eq.symm).elim

/-- A copy feeds the target of its pair alone. -/
theorem Split.target (feeds : post.Feeds ⟨G.next + (3 * place + 2)⟩ input) :
    ∃ source, pairs[place]? = some (source, input) := by
  obtain ⟨old | ⟨place', pair, mem, ⟨eq, -⟩ | ⟨eq, rfl⟩⟩, -⟩ := (split.feeds _ _).mp feeds
  · exact (Handle.ne_of_raw_lt (wf.below_of_feeds old).1 _ rfl).elim
  · exact (Handle.ne_of_raw_lt (wf.below_of_feeds (split.feeds_pair mem).1).1 _ eq.symm).elim
  · obtain rfl : place = place' := by
      have eq := congrArg Handle.raw eq
      simp only at eq
      omega
    exact ⟨pair.1, mem⟩

/-- What copies feed, and what feeds them, the identity did. -/
theorem Split.recast : Recast G id entry exit post := by
  refine ⟨split.toVacated, fun other made late has => ?_, fun out input feeds => ?_⟩
  · obtain ⟨place, -, -, inputs, outputs⟩ := split.new other made late has
    simp [inputs, outputs]
  · obtain ⟨old | ⟨place, pair, mem, joins⟩, -⟩ := (split.feeds out input).mp feeds
    · obtain ⟨early, early'⟩ := wf.below_of_feeds old
      rwa [attached_old early, attached_old early']
    · obtain ⟨enters, leaves⟩ := split.feeds_pair mem
      rcases joins with ⟨rfl, rfl⟩ | ⟨rfl, rfl⟩
      · rw [attached_old (wf.below_of_feeds enters).1, attached, if_neg (by simp)]
        exact enters
      · rw [attached_old (wf.below_of_feeds leaves).2, attached, if_neg (by simp)]
        exact leaves

/-- What has an input of a copy is that copy. -/
theorem Split.copy {owner : NodeId}
    (taken : post.inputOwner? ⟨G.next + (3 * place + 1)⟩ = some owner) :
    ∃ record, post.nodes[owner]? = some record ∧ IsCopy G.next place record := by
  obtain ⟨record, there, mem⟩ := split.wf.node_of_input taken
  have late : G.next ≤ owner.raw := by
    by_contra early
    have old := (split.nodes_old there (Nat.not_le.mp early)).2
    exact wf.input_ne (wf.input_of_mem old mem) _ rfl
  obtain ⟨place', -, copy⟩ := split.new owner record late there
  obtain rfl : place = place' := by
    rw [copy.2.1, mem_singleton] at mem
    have eq := congrArg Handle.raw mem
    simp only at eq
    omega
  exact ⟨record, there, copy⟩

/-- Copies connect one port with one other. -/
theorem Split.oneToOne_new (late : G.next ≤ other.raw) :
    post.OneToOne other := by
  constructor
  · intro port port' first second own own' feeds feeds'
    obtain ⟨record, there, mem⟩ := split.wf.node_of_input own
    rw [← split.wf.mem_inputs_iff there] at own'
    obtain ⟨place, -, -, inputs, -⟩ := split.new other record late there
    rw [inputs, mem_singleton] at mem own'
    subst mem own'
    obtain ⟨target, known⟩ := split.source wf feeds
    obtain ⟨target', known'⟩ := split.source wf feeds'
    cases known.symm.trans known'
    exact ⟨rfl, rfl⟩
  · intro port port' first second own own' feeds feeds'
    obtain ⟨record, there, mem⟩ := split.wf.node_of_output own
    rw [← split.wf.mem_outputs_iff there] at own'
    obtain ⟨place, -, -, -, outputs⟩ := split.new other record late there
    rw [outputs, mem_singleton] at mem own'
    subst mem own'
    obtain ⟨source, known⟩ := split.target wf feeds
    obtain ⟨source', known'⟩ := split.target wf feeds'
    cases known.symm.trans known'
    exact ⟨rfl, rfl⟩

include got

theorem Split.separated (identity : node.isIdentity) (inputs : node.inputs = [entry])
    (outputs : node.outputs = [exit]) : Separated G id post := by
  refine ⟨split.toVacated, ?_, fun other record late there => ?_, ?_⟩
  · rw [isIdentity, got, Option.any_some, identity]
  · obtain ⟨_, _, copy⟩ := split.new other record late there
    exact copy.1
  · rintro first second ⟨out, input, given, taken, feeds⟩
    have recast := split.recast wf
    have here := wf.input_of_mem got (inputs ▸ mem_singleton_self entry)
    have there := wf.output_of_mem got (outputs ▸ mem_singleton_self exit)
    exact ⟨_, _, recast.giver wf there given, recast.taker wf here taken, recast.folds _ _ feeds⟩

/-- A single source stays single, if the identity in its place has a single source. -/
theorem Split.singleIn (inputs : node.inputs = [entry])
    (outputs : node.outputs = [exit]) (early : other.raw < G.next) (ne : other ≠ id)
    (single : G.SingleIn other) (fed : G.Precedes id other → G.SingleIn id) :
    post.SingleIn other := by
  intro port port' first second own own' feeds feeds'
  rw [split.wf.inputOwner, split.old other early ne, ← wf.inputOwner] at own own'
  rcases split.source_old (wf.inputBelow port other own) feeds with
    ⟨old, clear⟩ | ⟨place, giver, known, rfl⟩
  all_goals rcases split.source_old (wf.inputBelow port' other own') feeds' with
    ⟨old', clear'⟩ | ⟨place', giver', known', rfl⟩
  · exact single port port' first second own own' old old'
  · have leaves := (split.feeds_pair known').2
    exact (clear (single port port' first exit own own' old leaves).1).elim
  · have leaves := (split.feeds_pair known).2
    exact (clear' (single port' port second exit own' own old' leaves).1).elim
  · obtain ⟨enters, leaves⟩ := split.feeds_pair known
    obtain ⟨enters', leaves'⟩ := split.feeds_pair known'
    obtain ⟨-, rfl⟩ := single port port' exit exit own own' leaves leaves'
    have here := wf.input_of_mem got (inputs ▸ mem_singleton_self entry)
    have there := wf.output_of_mem got (outputs ▸ mem_singleton_self exit)
    obtain ⟨rfl, -⟩ := fed ⟨exit, port, there, own, leaves⟩ entry entry giver giver' here here
      enters enters'
    rw [split.place_eq known known']
    exact ⟨rfl, rfl⟩

/-- A single target stays single, if the identity in its place has a single target. -/
theorem Split.singleOut (inputs : node.inputs = [entry])
    (outputs : node.outputs = [exit]) (early : other.raw < G.next) (ne : other ≠ id)
    (single : G.SingleOut other) (used : G.Precedes other id → G.SingleOut id) :
    post.SingleOut other := by
  intro port port' first second own own' feeds feeds'
  rw [split.wf.outputOwner, split.old other early ne, ← wf.outputOwner] at own own'
  rcases split.target_old (wf.outputBelow port other own) feeds with
    ⟨old, clear⟩ | ⟨place, taker, known, rfl⟩
  all_goals rcases split.target_old (wf.outputBelow port' other own') feeds' with
    ⟨old', clear'⟩ | ⟨place', taker', known', rfl⟩
  · exact single port port' first second own own' old old'
  · have enters := (split.feeds_pair known').1
    exact (clear (single port port' first entry own own' old enters).1).elim
  · have enters := (split.feeds_pair known).1
    exact (clear' (single port' port second entry own' own old' enters).1).elim
  · obtain ⟨enters, leaves⟩ := split.feeds_pair known
    obtain ⟨enters', leaves'⟩ := split.feeds_pair known'
    obtain ⟨-, rfl⟩ := single port port' entry entry own own' enters enters'
    have here := wf.input_of_mem got (inputs ▸ mem_singleton_self entry)
    have there := wf.output_of_mem got (outputs ▸ mem_singleton_self exit)
    obtain ⟨rfl, -⟩ := used ⟨port, entry, own, here, enters⟩ exit exit taker taker' there there
      leaves leaves'
    rw [split.place_eq known known']
    exact ⟨rfl, rfl⟩

end Split

private theorem length_le_one_iff {set : HandleSet role} :
    set.toList.length ≤ 1 ↔ ∀ first ∈ set, ∀ second ∈ set, first = second := by
  simp only [← mem_toList]
  match set.toList, HandleSet.nodup_toList set with
  | [], _ => simp
  | [_], _ => simp
  | first :: second :: rest, nodup =>
    have ne : first ≠ second := fun eq => by simp [eq] at nodup
    constructor
    · intro short
      simp at short
    · intro eq
      exact (ne (eq first (.head _) second (.tail _ (.head _)))).elim

/-- An identity can be split. It stays if it has at most one connection on each side,
and otherwise copies replace it. -/
theorem Consistent.exists_splitIdentity (wf : G.Consistent) (got : G.nodes[id]? = some node)
    (identity : node.isIdentity) (inputs : node.inputs = [entry])
    (outputs : node.outputs = [exit]) : ∃ copies post,
    G.splitIdentity id = .ok (copies, post) ∧ (G.OneToOne id ∧ copies = [] ∧ post = G ∨
        ¬ G.OneToOne id ∧ ∃ pairs, copies.length = pairs.length ∧
          Split G id entry exit pairs post) := by
  have own : ∀ port, G.inputOwner? port = some id ↔ port = entry := fun port => by
    rw [← wf.mem_inputs_iff got, inputs, mem_singleton]
  have own' : ∀ port, G.outputOwner? port = some id ↔ port = exit := fun port => by
    rw [← wf.mem_outputs_iff got, outputs, mem_singleton]
  obtain ⟨port, read, connected⟩ := exists_input ((own entry).mpr rfl)
  have short : port.connected.toList.length ≤ 1 ∧ (G.targets exit).toList.length ≤ 1 ↔
      G.OneToOne id := by
    rw [connected, length_le_one_iff, length_le_one_iff]
    simp only [← wf.agree]
    refine ⟨fun ⟨one, two⟩ => ⟨fun port port' first second here here' => ?_,
      fun port port' first second here here' => ?_⟩, fun slim => ⟨fun first fed second => ?_,
      fun first fed second => ?_⟩⟩
    · rw [(own port).mp here, (own port').mp here']
      exact fun fed fed' => ⟨one first fed second fed', rfl⟩
    · rw [(own' port).mp here, (own' port').mp here']
      exact fun fed fed' => ⟨two first fed second fed', rfl⟩
    · have here := (own entry).mpr rfl
      exact fun fed' => (slim.single entry entry first second here here fed fed').1
    · have here := (own' exit).mpr rfl
      exact fun fed' => (slim.single' exit exit first second here here fed fed').1
  rw [Graph.splitIdentity, bind_of_ok (node_of_found got)]
  simp only [identity, inputs, outputs]
  rw [bind_of_ok read]
  split
  · next single => exact ⟨[], G, rfl, .inl ⟨short.mp single, rfl, rfl⟩⟩
  · next several =>
    let pairs := port.connected.toList.product (G.targets exit).toList
    have between : ∀ source target, (source, target) ∈ pairs ↔
        G.Feeds source entry ∧ G.Feeds exit target := by
      intro source target
      rw [pair_mem_product, mem_toList, mem_toList, connected, wf.agree]
      rfl
    have joinable : ∀ pair ∈ pairs, G.Joinable pair := by
      rintro ⟨source, target⟩ mem
      obtain ⟨enters, leaves⟩ := (between source target).mp mem
      exact ⟨exists_outputOwner_of_feeds enters, wf.exists_inputOwner leaves⟩
    obtain ⟨forked, length⟩ := wf.forked joinable node.name port.dataType node.observation
    have nodup : pairs.Nodup := (HandleSet.nodup_toList _).product (HandleSet.nodup_toList _)
    have removed : ∀ {middle : Graph}, Forked G pairs middle →
        middle.remove id = .ok (middle.drop id node) := by
      intro middle forked
      rw [Graph.remove, Graph.node, (forked.old id (wf.early got)).trans got]
      rfl
    exact ⟨_, _, bind_of_ok (removed forked), .inr ⟨mt short.mpr several, pairs, length,
      forked.split wf got nodup between inputs outputs⟩⟩

theorem identity_of_splitIdentity {result : List NodeId × Graph}
    (run : G.splitIdentity id = .ok result) : ∃ node entry exit, G.nodes[id]? = some node ∧
      node.isIdentity ∧ node.inputs = [entry] ∧ node.outputs = [exit] := by
  obtain ⟨node, run', run⟩ := of_bind run
  split at run
  · next input inputs out outputs identity inputs_eq outputs_eq =>
    obtain ⟨rfl, rfl⟩ : inputs = [] ∧ outputs = [] := by
      simp only [Node.isIdentity, inputs_eq, outputs_eq, length_cons, Bool.and_eq_true,
        beq_iff_eq, Nat.add_eq_right, length_eq_zero_iff] at identity
      exact ⟨identity.1.2, identity.2⟩
    exact ⟨node, input, out, node_eq_ok run', identity, inputs_eq, outputs_eq⟩
  · cases run

/-! ## Seams -/

/-- What replacing an endpoint by a node does: what feeds one port feeds the new node, and
it feeds what another port does. -/
structure Seamed (pre : Graph) (inner : NodeId) (record : Node) (entry : InputId)
    (exit : OutputId) (made : Node) (post : Graph) : Prop where
  wf : post.Consistent
  next : post.next = pre.next + 3
  root : post.root = pre.root
  nodes : ∀ other : NodeId, post.nodes[other]? = if other = inner then none
    else if other = ⟨pre.next⟩ then some made else pre.nodes[other]?
  pseudo : made.isPseudo = true
  inputs : made.inputs = [⟨pre.next + 1⟩]
  outputs : made.outputs = [⟨pre.next + 2⟩]
  feeds : ∀ output input, post.Feeds output input ↔
    (pre.Feeds output input ∨ pre.Feeds output entry ∧ input = ⟨pre.next + 1⟩ ∨
      output = ⟨pre.next + 2⟩ ∧ pre.Feeds exit input) ∧
      output ∉ record.outputs ∧ input ∉ record.inputs

/-- What that means for the nodes: the new one is fed by what feeds one node and feeds
what another one does. -/
def Sewn (pre : Graph) (behind ahead : NodeId) (post : Graph) : Prop :=
  ∀ first second, post.Precedes first second →
    pre.Precedes first second ∨ second = ⟨pre.next⟩ ∧ pre.Precedes first behind ∨
      first = ⟨pre.next⟩ ∧ pre.Precedes ahead second

section Seam

variable {inner : NodeId} {record : Node} (wf : G.Consistent) (has : G.nodes[inner]? = some record)

include wf has

omit has in
theorem Seamed.sewn (seamed : Seamed G inner record entry exit made post)
    (taken : G.inputOwner? entry = some behind) (given : G.outputOwner? exit = some ahead) :
    Sewn G behind ahead post := by
  have giver : ∀ {out : OutputId} {owner : NodeId}, post.outputOwner? out = some owner →
      owner = ⟨G.next⟩ ∧ out = ⟨G.next + 2⟩ ∨ G.outputOwner? out = some owner := by
    intro out owner own
    obtain ⟨node, got, mem⟩ := seamed.wf.node_of_output own
    rw [seamed.nodes] at got
    split_ifs at got with gone new
    · cases got
      rw [seamed.outputs, mem_singleton] at mem
      exact .inl ⟨new, mem⟩
    · exact .inr (wf.output_of_mem got mem)
  have taker : ∀ {input : InputId} {owner : NodeId}, post.inputOwner? input = some owner →
      owner = ⟨G.next⟩ ∧ input = ⟨G.next + 1⟩ ∨ G.inputOwner? input = some owner := by
    intro input owner own
    obtain ⟨node, got, mem⟩ := seamed.wf.node_of_input own
    rw [seamed.nodes] at got
    split_ifs at got with gone new
    · cases got
      rw [seamed.inputs, mem_singleton] at mem
      exact .inl ⟨new, mem⟩
    · exact .inr (wf.input_of_mem got mem)
  rintro first second ⟨out, input, own, own', feeds⟩
  obtain ⟨fed | ⟨fed, rfl⟩ | ⟨rfl, fed⟩, -⟩ := (seamed.feeds out input).mp feeds
  · obtain ⟨early, early'⟩ := wf.below_of_feeds fed
    have own := (giver own).resolve_left fun new => Handle.ne_of_raw_lt early 2 new.2
    have own' := (taker own').resolve_left fun new => Handle.ne_of_raw_lt early' 1 new.2
    exact .inl ⟨out, input, own, own', fed⟩
  · have early := (wf.below_of_feeds fed).1
    have own := (giver own).resolve_left fun new => Handle.ne_of_raw_lt early 2 new.2
    have new := (taker own').resolve_right fun old => wf.input_ne old 1 rfl
    exact .inr (.inl ⟨new.1, out, entry, own, taken, fed⟩)
  · have early := (wf.below_of_feeds fed).2
    have own' := (taker own').resolve_left fun new => Handle.ne_of_raw_lt early 1 new.2
    have new := (giver own).resolve_right fun old => wf.output_ne old 2 rfl
    exact .inr (.inr ⟨new.1, exit, input, given, own', fed⟩)

private theorem Consistent.exists_seam (entry : InputId) (exit : OutputId) (name : String)
    (dataType : DataType) (boundary : Boundary) : ∃ made post,
    G.seam name dataType boundary (G.sources entry) (G.targets exit) inner =
      .ok (⟨G.next⟩, post) ∧ made.boundary = boundary ∧
      Seamed G inner record entry exit made post := by
  let pseudo := if boundary = .stage then Pseudo.checkpoint else .identity
  let made := G.created (passage name pseudo boundary dataType)
  let middle := (G.createPassage (passage name pseudo boundary dataType)).2
  obtain ⟨passaged, kept⟩ : Passaged G made middle ∧
      ∀ output input, middle.Feeds output input ↔ G.Feeds output input :=
    wf.createPassage (passage name pseudo boundary dataType) rfl rfl
  let pairs : List (OutputId × InputId) := (G.sources entry).toList.map (·, ⟨G.next + 1⟩) ++
    (G.targets exit).toList.map (⟨G.next + 2⟩, ·)
  have mem : ∀ out input, (out, input) ∈ pairs ↔ G.Feeds out entry ∧ input = ⟨G.next + 1⟩ ∨
        out = ⟨G.next + 2⟩ ∧ G.Feeds exit input := by
    intro out input
    simp only [pairs, mem_append, mem_map, mem_toList, Prod.mk.injEq, ← wf.agree]
    constructor
    · rintro (⟨_, fed, rfl, rfl⟩ | ⟨_, fed, rfl, rfl⟩)
      · exact .inl ⟨fed, rfl⟩
      · exact .inr ⟨rfl, fed⟩
    · rintro (⟨fed, rfl⟩ | ⟨rfl, fed⟩)
      · exact .inl ⟨out, fed, rfl, rfl⟩
      · exact .inr ⟨input, fed, rfl, rfl⟩
  have joinable : ∀ pair ∈ pairs, middle.Joinable pair := by
    rintro ⟨out, input⟩ member
    rcases (mem out input).mp member with ⟨fed, rfl⟩ | ⟨rfl, fed⟩
    · obtain ⟨owner, owned⟩ := exists_outputOwner_of_feeds fed
      exact ⟨⟨owner, passaged.outputOwner_old wf owned⟩, _, passaged.takes⟩
    · obtain ⟨owner, owned⟩ := wf.exists_inputOwner fed
      exact ⟨⟨_, passaged.gives⟩, owner, passaged.inputOwner_old wf owned⟩
  have connected := passaged.congr (samePorts_connectPairs middle pairs)
    (passaged.wf.connectPairs joinable)
  have has' := connected.nodes_old wf has
  have dropped := connected.wf.drop has'
  -- both loops together connect a list of pairs
  have joined : (G.targets exit).toList.foldl (·.insertConnection ⟨G.next + 2⟩ ·)
      ((G.sources entry).toList.foldl (·.insertConnection · ⟨G.next + 1⟩) middle) =
        middle.connectPairs pairs := by
    rw [Graph.connectPairs, foldl_append, foldl_map, foldl_map]
  have removed : ((G.targets exit).toList.foldl (·.insertConnection ⟨G.next + 2⟩ ·)
      ((G.sources entry).toList.foldl (·.insertConnection · ⟨G.next + 1⟩) middle)).remove
        inner = .ok ((middle.connectPairs pairs).drop inner record) := by
    rw [joined, Graph.remove, bind_of_ok (node_of_found has')]
    rfl
  refine ⟨made, _, bind_of_ok removed, rfl, dropped.wf, dropped.next.trans connected.next,
    dropped.root.trans connected.root, fun other => ?_, rfl, rfl, rfl, fun out input => ?_⟩
  · rw [dropped.nodes, connected.nodes]
  · rw [dropped.feeds, feeds_connectPairs joinable, kept, mem]

/-- A seam can be put at an input port of a flow part. -/
theorem Consistent.exists_inputSeam {owner : NodeId}
    {rest : List OutputId} (owned : G.inputOwner? port = some owner)
    (outputs : record.outputs = exit :: rest) (part : Node) (boundary : Boundary) :
    ∃ made post, G.inputSeam part boundary port inner = .ok (⟨G.next⟩, post) ∧
      made.boundary = boundary ∧ Seamed G inner record port exit made post := by
  obtain ⟨face, read, connected⟩ := exists_input owned
  have first : G.firstOutput inner = .ok exit := by
    rw [firstOutput, bind_of_ok (node_of_found has), outputs]
  rw [Graph.inputSeam, bind_of_ok read, bind_of_ok first, connected]
  exact wf.exists_seam has port exit _ _ boundary

/-- A seam can be put at an output port of a flow part. -/
theorem Consistent.exists_outputSeam {port : OutputId} {owner : NodeId}
    {rest : List InputId} (owned : G.outputOwner? port = some owner)
    (inputs : record.inputs = entry :: rest) (part : Node) (boundary : Boundary) :
    ∃ made post, G.outputSeam part boundary port inner = .ok (⟨G.next⟩, post) ∧
      made.boundary = boundary ∧ Seamed G inner record entry port made post := by
  obtain ⟨face, read, -, connected⟩ := exists_output owned
  have first : G.firstInput inner = .ok entry := by
    rw [firstInput, bind_of_ok (node_of_found has), inputs]
  rw [Graph.outputSeam, bind_of_ok read, bind_of_ok first, connected]
  exact wf.exists_seam has entry port _ _ boundary

end Seam

end Graph

end Staging
