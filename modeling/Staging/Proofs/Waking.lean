import Staging.Proofs.Layout

/-! # Nodes that are awake

Once blocks have been compacted, each of their nodes that is no boundary gets data and is of
use. Steps in blocks keep this. The only nodes that they take away from then on are nodes
that nothing gets into or out of.
-/

namespace Staging

open Std Relation List

variable {node : Node} {G source : Graph} {origins : Origins} {place : Places}
  {free : BlockId → Prop} {out : OutputId} {input : InputId} {id : NodeId}

/-! ## Cycles of data -/

namespace Graph

variable (wf : G.Consistent)

include wf

/-- Data that is fed or leaks gets from a node to one behind it. -/
theorem Consistent.transGen_of_leakingFlow {first : NodeId}
    (carries : G.leakingFlow.carries out input) (given : G.outputOwner? out = some first) :
    ∃ second, G.inputOwner? input = some second ∧ TransGen G.Precedes first second := by
  rcases carries with feeds | ⟨-, shuffle, entered, left, -, taken, given', feeds, feeds'⟩
  · obtain ⟨second, taken⟩ := wf.exists_inputOwner feeds
    exact ⟨second, taken, .single ⟨out, input, given, taken, feeds⟩⟩
  · obtain ⟨second, taken'⟩ := wf.exists_inputOwner feeds'
    exact ⟨second, taken', .tail (.single ⟨out, entered, given, taken, feeds⟩)
      ⟨left, input, given', taken', feeds'⟩⟩

/-- Data gets from a node to one behind it through silent nodes. -/
theorem Consistent.transGen_of_reaches {first second : NodeId}
    (reaches : G.leakingFlow.Reaches out input)
    (given : G.outputOwner? out = some first) (taken : G.inputOwner? input = some second) :
    TransGen G.Precedes first second := by
  obtain ⟨next, carries, hops⟩ := reaches
  have behind : ∃ owner, G.inputOwner? input = some owner ∧ TransGen G.Precedes first owner := by
    clear taken
    induction hops with
    | refl => exact wf.transGen_of_leakingFlow carries given
    | tail _ hop ih =>
      obtain ⟨id, node, left, got, -, entered, left', carries'⟩ := hop
      obtain ⟨owner, taken, behind⟩ := ih
      obtain rfl := Option.mem_unique taken (wf.input_of_mem got entered)
      obtain ⟨owner', taken', further⟩ := wf.transGen_of_leakingFlow carries'
        (wf.output_of_mem got left')
      exact ⟨owner', taken', behind.trans further⟩
  obtain ⟨owner, taken', behind⟩ := behind
  exact Option.mem_unique taken' taken ▸ behind

end Graph

/-! ## Quiet and lively nodes -/

/-- Nothing gets into the node or out of it. -/
structure Site.Quiet (site : Site) (node : Node) : Prop where
  unfed : ∀ input ∈ node.inputs, ∀ output, ¬ site.Carries output input
  unused : ∀ output ∈ node.outputs, ∀ input, ¬ site.Carries output input
  unwrapped : ∀ output ∈ node.outputs, ¬ site.wiring.Wraps output

/-- The node gets data and is of use. -/
structure Site.Busy (site : Site) (node : Node) : Prop where
  fed : node.inputs = [] ∧ node.kind ≠ .pseudo .empty ∨
    ∃ input ∈ node.inputs, ∃ output, site.Carries output input
  used : node.hasMandatoryEffect = true ∨
    ∃ output ∈ node.outputs, ∃ input, site.Carries output input

/-- The node is busy, and what leaves it at a port that is wrapped gets somewhere. -/
structure Site.Lively (site : Site) (node : Node) : Prop extends site.Busy node where
  joined : ∀ output ∈ node.outputs, site.wiring.Wraps output → ∃ input, site.Carries output input

/-- What is fed, used or joined at the ports of a node before is so after. -/
structure Site.Keeps (pre post : Site) (node : Node) : Prop where
  fed : ∀ input ∈ node.inputs, ∀ output, pre.graph.Feeds output input →
    ∃ output', post.graph.Feeds output' input
  used : ∀ output ∈ node.outputs, ∀ input, pre.graph.Feeds output input →
    ∃ input', post.graph.Feeds output input'
  entered : ∀ input ∈ node.inputs, ∀ output, pre.wiring.Joins output input →
    ∃ output', post.wiring.Joins output' input
  left : ∀ output ∈ node.outputs, ∀ input, pre.wiring.Joins output input →
    ∃ input', post.wiring.Joins output input'

namespace Site.Keeps

variable {pre between post : Site}

/-- The ports keep what is carried elsewhere as well. -/
theorem of_imp (feeds : ∀ {out input}, pre.graph.Feeds out input → post.graph.Feeds out input)
    (joins : ∀ {out input}, pre.wiring.Joins out input →
      post.wiring.Joins out input) : pre.Keeps post node :=
  ⟨fun _ _ out fed => ⟨out, feeds fed⟩, fun _ _ input fed => ⟨input, feeds fed⟩,
    fun _ _ out joined => ⟨out, joins joined⟩, fun _ _ input joined => ⟨input, joins joined⟩⟩

theorem trans (one : pre.Keeps between node) (two : between.Keeps post node) :
    pre.Keeps post node where
  fed input own out fed := (one.fed input own out fed).elim (two.fed input own)
  used out own input fed := (one.used out own input fed).elim (two.used out own)
  entered input own out joined := (one.entered input own out joined).elim (two.entered input own)
  left out own input joined := (one.left out own input joined).elim (two.left out own)

variable (keeps : pre.Keeps post node)

include keeps

theorem carries_input (own : input ∈ node.inputs) (carries : pre.Carries out input) :
    ∃ out', post.Carries out' input :=
  carries.elim (fun fed => (keeps.fed input own out fed).imp fun _ => .inl)
    fun joined => (keeps.entered input own out joined).imp fun _ => .inr

theorem carries_output (own : out ∈ node.outputs) (carries : pre.Carries out input) :
    ∃ input', post.Carries out input' :=
  carries.elim (fun fed => (keeps.used out own input fed).imp fun _ => .inl)
    fun joined => (keeps.left out own input joined).imp fun _ => .inr

/-- A node whose ports carry data as long as they did stays busy. -/
theorem busy (busy : pre.Busy node) : post.Busy node :=
  ⟨busy.fed.imp_right fun ⟨input, own, _, carries⟩ => ⟨input, own, keeps.carries_input own carries⟩,
    busy.used.imp_right fun ⟨out, own, _, carries⟩ =>
      ⟨out, own, keeps.carries_output own carries⟩⟩

theorem lively (lively : pre.Lively node)
    (wraps : ∀ out ∈ node.outputs, post.wiring.Wraps out → pre.wiring.Wraps out) :
    post.Lively node := by
  refine ⟨keeps.busy lively.toBusy, fun out own wrapped => ?_⟩
  obtain ⟨input, carries⟩ := lively.joined out own (wraps out own wrapped)
  exact keeps.carries_output own carries

end Site.Keeps

/-- What a lively node is mapped to, port by port, is lively. -/
private theorem Site.Lively.image {pre post : Site} {image : Node} {input : InputId → InputId}
    {out : OutputId → OutputId} (lively : pre.Lively node)
    (inputs : image.inputs = node.inputs.map input)
    (outputs : image.outputs = node.outputs.map out) (kind : image.kind = node.kind)
    (mandatory : image.hasMandatoryEffect = node.hasMandatoryEffect)
    (onto : ∀ {first last}, pre.Carries first last → post.Carries (out first) (input last))
    (joined : ∀ port ∈ image.outputs, post.wiring.Wraps port →
      ∃ target, post.Carries port target) : post.Lively image := by
  refine ⟨⟨?_, ?_⟩, joined⟩
  · rw [inputs, map_eq_nil_iff, kind]
    refine lively.fed.imp_right ?_
    rintro ⟨port, own, first, carries⟩
    exact ⟨input port, mem_map_of_mem own, _, onto carries⟩
  · rw [outputs, mandatory]
    refine lively.used.imp_right ?_
    rintro ⟨port, own, last, carries⟩
    exact ⟨out port, mem_map_of_mem own, _, onto carries⟩

/-- Copies are of members, and those that are no boundaries are lively, unless
nothing gets into them or out of them. -/
structure Awake (source : Graph) (origins : Origins) (site : Site) : Prop where
  ended : site.Ended
  member : ∀ (id : NodeId) node, site.graph.nodes[id]? = some node → source.Member (origins.node id)
  lively : ∀ (id : NodeId) node, site.graph.nodes[id]? = some node →
    node.isBoundary = false → site.Quiet node ∨ site.Lively node

/-- Nodes are awake in a site that carries the same and wraps no more. -/
theorem Awake.congr {pre post : Wiring} (awake : Awake source origins ⟨G, pre⟩)
    (joins : ∀ out input, post.Joins out input ↔ pre.Joins out input)
    (wraps : ∀ port, post.Wraps port → pre.Wraps port) :
    Awake source origins ⟨G, post⟩ := by
  have eq : Site.Carries ⟨G, post⟩ = Site.Carries ⟨G, pre⟩ := by
    funext out input
    rw [Site.Carries, Site.Carries, joins]
  refine ⟨fun out input joined => awake.ended out input ((joins out input).mp joined),
    awake.member, fun id node got clear => (awake.lively id node got clear).imp ?_ ?_⟩
  · intro quiet
    exact ⟨eq ▸ quiet.unfed, eq ▸ quiet.unused,
      fun out own wrapped => quiet.unwrapped out own (wraps out wrapped)⟩
  · intro lively
    have keeps : Site.Keeps ⟨G, pre⟩ ⟨G, post⟩ node := .of_imp (fun fed => fed) (joins _ _).mpr
    exact keeps.lively lively fun out _ => wraps out

/-- Nothing gets into an idle node, or out of it, if all are awake. -/
theorem Awake.not_carries {site : Site}
    (awake : Awake source origins site) (got : site.graph.nodes[id]? = some node)
    (idle : site.Idle node) :
    (∀ input ∈ node.inputs, ∀ out, ¬ site.Carries out input) ∧
      ∀ out ∈ node.outputs, ∀ input, ¬ site.Carries out input := by
  rcases idle with ⟨unfed, ⟨clear, empty⟩ | unused⟩ | ⟨unused, clear, plain⟩
  · rcases awake.lively id node got clear with quiet | lively
    · exact ⟨quiet.unfed, quiet.unused⟩
    · rcases lively.fed with ⟨bare, kind⟩ | ⟨input, own, out, carries⟩
      · exact absurd (empty bare) kind
      · exact absurd carries (unfed input own out)
  · exact ⟨unfed, unused⟩
  · rcases awake.lively id node got clear with quiet | lively
    · exact ⟨quiet.unfed, quiet.unused⟩
    · rcases lively.used with mandatory | ⟨out, own, input, carries⟩
      · cases plain.symm.trans mandatory
      · exact absurd carries (unused out own input)

/-! ## Steps in blocks -/

section Move

variable {block : BlockId} {pre post : Site}

/-- Two copies of one node are alike in all that is not about ports. -/
theorem Faithful.alike {β : Type} {graph' : Graph} (faithful : Faithful G source origins)
    (faithful' : Faithful graph' source origins) {id' : NodeId} {node' : Node}
    (got : G.nodes[id]? = some node) (got' : graph'.nodes[id']? = some node')
    (eq : origins.node id = origins.node id') (read : Node → β)
    (kept : ∀ node, read (origins.original node) = read node) : read node = read node' := by
  have one := faithful id node got
  rw [eq, faithful' id' node' got'] at one
  rw [← kept node, ← kept node', Option.some.inj one]

/-- No copy of an identity feeds itself. -/
theorem Conveys.not_joins_self (conveys : Conveys source origins pre) (normal : source.Normal)
    (wf : pre.graph.Consistent) (awake : Awake source origins pre)
    (got : pre.graph.nodes[id]? = some node) (left : out ∈ node.outputs)
    (entered : input ∈ node.inputs) : ¬ pre.Carries out input := by
  intro carries
  refine normal.acyclic (origins.node id) (awake.member id node got) ?_
  exact normal.wf.transGen_of_reaches (conveys.sound out input carries)
    (conveys.faithful.outputOwner wf normal.wf (wf.output_of_mem got left))
    (conveys.faithful.inputOwner wf normal.wf (wf.input_of_mem got entered))

/-- Taking idle nodes away changes nothing about what is carried. -/
private theorem carries_of_trim (awake : Awake source origins pre)
    (wf : pre.graph.Consistent) (wf' : post.graph.Consistent)
    (idle : ∀ (id : NodeId) node, pre.graph.nodes[id]? = some node →
      post.graph.nodes[id]? = some node ∨ place id = block ∧ pre.Idle node)
    (feeds : ∀ out input, post.graph.Feeds out input ↔
      pre.graph.Feeds out input ∧ (∃ id, post.graph.outputOwner? out = some id) ∧
        ∃ id, post.graph.inputOwner? input = some id)
    (joins : ∀ out input, post.wiring.Joins out input ↔
      pre.wiring.Joins out input ∧ (∃ id, post.graph.outputOwner? out = some id) ∧
        ∃ id, post.graph.inputOwner? input = some id) (carries : pre.Carries out input) :
    post.Carries out input ∧ (∀ id, pre.graph.outputOwner? out = some id →
        post.graph.outputOwner? out = some id) ∧
      ∀ id, pre.graph.inputOwner? input = some id → post.graph.inputOwner? input = some id := by
  -- what carries data is not idle, and so it stays
  have given : ∀ id, pre.graph.outputOwner? out = some id →
      post.graph.outputOwner? out = some id := by
    intro id owned
    obtain ⟨node, got, own⟩ := wf.node_of_output owned
    have stays := (idle id node got).resolve_right fun dropped =>
      (awake.not_carries got dropped.2).2 out own input carries
    exact wf'.output_of_mem stays own
  have taken : ∀ id, pre.graph.inputOwner? input = some id →
      post.graph.inputOwner? input = some id := by
    intro id owned
    obtain ⟨node, got, own⟩ := wf.node_of_input owned
    have stays := (idle id node got).resolve_right fun dropped =>
      (awake.not_carries got dropped.2).1 input own out carries
    exact wf'.input_of_mem stays own
  rcases carries with fed | joined
  · have one := (Graph.exists_outputOwner_of_feeds fed).imp given
    have two := (wf.exists_inputOwner fed).imp taken
    exact ⟨.inl ((feeds out input).mpr ⟨fed, one, two⟩), given, taken⟩
  · have one := (awake.ended out input joined).1.imp given
    have two := (awake.ended out input joined).2.imp taken
    exact ⟨.inr ((joins out input).mpr ⟨joined, one, two⟩), given, taken⟩

/-- A step keeps what there is at the ports of a node, or lets data go past the node. -/
theorem Move.keeps_or_quiet (move : Move origins place free block pre post)
    (normal : source.Normal) (conveys : Conveys source origins pre)
    (wf : pre.graph.Consistent) (wf' : post.graph.Consistent)
    (awake : Awake source origins pre) (got : post.graph.nodes[id]? = some node) :
    pre.Keeps post node ∨ free block ∧ place id = block ∧ post.Quiet node := by
  cases move with
  | trim nodes idle feeds joins wraps =>
    refine .inl (.of_imp (fun {out input} fed => ?_) fun {out input} joined => ?_)
    · obtain ⟨-, given, taken⟩ := carries_of_trim awake wf wf' idle feeds joins (.inl fed)
      exact (feeds out input).mpr ⟨fed, (Graph.exists_outputOwner_of_feeds fed).imp given,
        (wf.exists_inputOwner fed).imp taken⟩
    · obtain ⟨-, given, taken⟩ := carries_of_trim awake wf wf' idle feeds joins (.inr joined)
      exact (joins out input).mpr ⟨joined, (awake.ended out input joined).1.imp given,
        (awake.ended out input joined).2.imp taken⟩
  | @bypass passed identity entry exit allowed G got' silent placed inputs outputs unfed unused
      joins wrapped wraps =>
      have entered : entry ∈ identity.inputs := inputs ▸ mem_singleton_self entry
      have left : exit ∈ identity.outputs := outputs ▸ mem_singleton_self exit
      have loopless := conveys.not_joins_self normal wf awake got' left entered
      rw [G] at got
      by_cases here : id = passed
      · -- nothing leads to the identity or from it any more
        subst here
        obtain rfl : identity = node := Option.mem_unique got' got
        refine .inr ⟨allowed, placed, fun input own out carries => ?_,
          fun out own input carries => ?_, fun out own wrapped' => ?_⟩
        · rw [inputs, mem_singleton] at own
          subst own
          rcases carries with fed | joined
          · exact unfed out (G ▸ fed)
          · exact ((joins out input).mp joined).2.1 rfl
        · rw [outputs, mem_singleton] at own
          subst own
          rcases carries with fed | joined
          · exact unused input (G ▸ fed)
          · exact ((joins out input).mp joined).1 rfl
        · rw [outputs, mem_singleton] at own
          exact (wraps out wrapped').2 own
      · -- the identity gets data and passes it on, and the data now gets past it
        have lively : pre.Lively identity :=
          (awake.lively passed identity got' (Node.isBoundary_of_isIdentity silent)).resolve_left
            fun quiet => quiet.unwrapped exit left wrapped
        obtain ⟨target, onward⟩ := lively.joined exit left wrapped
        obtain ⟨origin, into⟩ : ∃ out, pre.Carries out entry := by
          obtain ⟨bare, -⟩ | ⟨input, own, carried⟩ := lively.fed
          · simp [inputs] at bare
          · rw [inputs, mem_singleton] at own
            exact own ▸ carried
        refine .inl ⟨fun input _ out fed => ⟨out, G ▸ fed⟩,
          fun out _ input fed => ⟨input, G ▸ fed⟩, fun input own out joined => ?_,
          fun out own input joined => ?_⟩
        · have ne : input ≠ entry := by
            rintro rfl
            exact here (wf.input_unique got own got' entered)
          by_cases eq : out = exit
          · refine ⟨origin, (joins origin input).mpr ⟨?_, ne,
              .inr ⟨into.resolve_left (unfed origin), eq ▸ joined⟩⟩⟩
            rintro rfl
            exact loopless into
          · exact ⟨out, (joins out input).mpr ⟨eq, ne, .inl joined⟩⟩
        · have ne : out ≠ exit := by
            rintro rfl
            exact here (wf.output_unique got own got' left)
          by_cases eq : input = entry
          · refine ⟨target, (joins out target).mpr ⟨ne, ?_,
              .inr ⟨eq ▸ joined, onward.resolve_left (unused target)⟩⟩⟩
            rintro rfl
            exact loopless onward
          · exact ⟨input, (joins out input).mpr ⟨ne, eq, .inl joined⟩⟩
  | @fold image input out kept nodes inputs outputs feeds joins wraps =>
    -- a node that is left is mapped to itself, port by port
    obtain ⟨stored, fixed⟩ := kept id node got
    obtain ⟨node', got', inputs', outputs', -⟩ := nodes id node stored
    rw [fixed, got] at got'
    cases got'
    have eq : ∀ port ∈ node.inputs, input port = port := by
      simpa using map_inj_left.mp (inputs'.symm.trans (map_id _).symm)
    have eq' : ∀ port ∈ node.outputs, out port = port := by
      simpa using map_inj_left.mp (outputs'.symm.trans (map_id _).symm)
    exact .inl ⟨fun port own other fed => ⟨_, (feeds _ _).mpr ⟨other, port, fed, rfl, eq port own⟩⟩,
      fun port own other fed => ⟨_, (feeds _ _).mpr ⟨port, other, fed, eq' port own, rfl⟩⟩,
      fun port own other joined => ⟨_, (joins _ _).mpr ⟨other, port, joined, rfl, eq port own⟩⟩,
      fun port own other joined => ⟨_, (joins _ _).mpr ⟨port, other, joined, eq' port own, rfl⟩⟩⟩

/-- What is carried between ports that others are mapped to was carried between these. -/
private theorem carries_of_fold {input : InputId → InputId} {out : OutputId → OutputId}
    (awake : Awake source origins pre) (wf : pre.graph.Consistent)
    (feeds : ∀ first last, post.graph.Feeds first last ↔ ∃ first' last',
      pre.graph.Feeds first' last' ∧ out first' = first ∧ input last' = last)
    (joins : ∀ first last, post.wiring.Joins first last ↔ ∃ first' last',
      pre.wiring.Joins first' last' ∧ out first' = first ∧ input last' = last)
    {first : OutputId} {last : InputId} (carries : post.Carries first last) :
    ∃ first' last' one two, pre.Carries first' last' ∧ out first' = first ∧
      input last' = last ∧ pre.graph.outputOwner? first' = some one ∧
      pre.graph.inputOwner? last' = some two := by
  rcases carries with fed | joined
  · obtain ⟨first', last', fed', one, two⟩ := (feeds first last).mp fed
    obtain ⟨owner, given⟩ := Graph.exists_outputOwner_of_feeds fed'
    obtain ⟨owner', taken⟩ := wf.exists_inputOwner fed'
    exact ⟨first', last', owner, owner', .inl fed', one, two, given, taken⟩
  · obtain ⟨first', last', joined', one, two⟩ := (joins first last).mp joined
    obtain ⟨⟨owner, given⟩, owner', taken⟩ := awake.ended first' last' joined'
    exact ⟨first', last', owner, owner', .inr joined', one, two, given, taken⟩

/-- A step in a block keeps all nodes awake. -/
theorem Move.awake (move : Move origins place free block pre post) (normal : source.Normal)
    (conveys : Conveys source origins pre) (wf : pre.graph.Consistent)
    (wf' : post.graph.Consistent) (awake : Awake source origins pre) :
    Awake source origins post := by
  have faithful' := move.faithful conveys.faithful
  refine ⟨move.ended wf wf' awake.ended, fun id node got => awake.member id node (move.stored got),
    fun id node got clear => ?_⟩
  have former := awake.lively id node (move.stored got) clear
  obtain keeps | ⟨-, -, quiet⟩ := move.keeps_or_quiet normal conveys wf wf' awake got
  swap
  · exact .inl quiet
  cases move with
  | trim nodes idle feeds joins wraps =>
    refine former.imp (fun quiet => ?_) fun lively => keeps.lively lively fun out _ => wraps out
    have old : ∀ {out input}, post.Carries out input → pre.Carries out input :=
      fun carries => carries.imp (fun fed => ((feeds _ _).mp fed).1)
        fun joined => ((joins _ _).mp joined).1
    exact ⟨fun input own out carries => quiet.unfed input own out (old carries),
      fun out own input carries => quiet.unused out own input (old carries),
      fun out own wrapped => quiet.unwrapped out own (wraps out wrapped)⟩
  | @bypass _ _ entry exit _ G _ _ _ _ _ _ _ joins _ wraps =>
    refine former.imp (fun quiet => ⟨fun input own out carries => ?_,
      fun out own input carries => ?_, fun out own wrapped =>
        quiet.unwrapped out own (wraps out wrapped).1⟩) fun lively =>
      keeps.lively lively fun out _ wrapped => (wraps out wrapped).1
    · rcases carries with fed | joined
      · exact quiet.unfed input own out (.inl (G ▸ fed))
      · obtain ⟨-, -, direct | ⟨-, onward⟩⟩ := (joins out input).mp joined
        · exact quiet.unfed input own out (.inr direct)
        · exact quiet.unfed input own exit (.inr onward)
    · rcases carries with fed | joined
      · exact quiet.unused out own input (.inl (G ▸ fed))
      · obtain ⟨-, -, direct | ⟨onward, -⟩⟩ := (joins out input).mp joined
        · exact quiet.unused out own input (.inr direct)
        · exact quiet.unused out own entry (.inr onward)
  | @fold image input out kept nodes inputs outputs feeds joins wraps =>
    have onto : ∀ {source' target'}, pre.Carries source' target' →
        post.Carries (out source') (input target') := fun carries =>
      carries.imp (fun fed => (feeds _ _).mpr ⟨_, _, fed, rfl, rfl⟩)
        fun joined => (joins _ _).mpr ⟨_, _, joined, rfl, rfl⟩
    -- nodes that are mapped to this one are awake too
    have twins : ∀ other, image other = id → ∀ record, pre.graph.nodes[other]? = some record →
        pre.Quiet record ∨ pre.Lively record := by
      rintro other rfl record stored
      refine awake.lively other record stored ?_
      obtain ⟨-, -, -, -, -, eq⟩ := nodes other record stored
      rw [← clear]
      exact conveys.faithful.alike faithful' stored got eq.symm Node.isBoundary fun _ => rfl
    have givenBy : ∀ {port other}, port ∈ node.outputs →
        (∃ port', pre.graph.outputOwner? port' = some other ∧ out port' = port) →
        image other = id := by
      rintro port other own ⟨port', given, rfl⟩
      have given' := (outputOwner_fold wf wf' nodes given).1
      exact Option.mem_unique given' (wf'.output_of_mem got own)
    have takenBy : ∀ {port other}, port ∈ node.inputs →
        (∃ port', pre.graph.inputOwner? port' = some other ∧ input port' = port) →
        image other = id := by
      rintro port other own ⟨port', taken, rfl⟩
      have taken' := (inputOwner_fold wf wf' nodes taken).1
      exact Option.mem_unique taken' (wf'.input_of_mem got own)
    have joined : ∀ port ∈ node.outputs, post.wiring.Wraps port →
        ∃ other record, image other = id ∧ pre.graph.nodes[other]? = some record ∧
          pre.Lively record ∧ ∃ target, post.Carries port target := by
      intro port own wrapped
      obtain ⟨port', other, wrapped', given, rfl⟩ := wraps port wrapped
      have eq := givenBy own ⟨port', given, rfl⟩
      obtain ⟨record, stored, own'⟩ := wf.node_of_output given
      have lively := (twins other eq record stored).resolve_left fun quiet =>
        quiet.unwrapped port' own' wrapped'
      obtain ⟨target, carries⟩ := lively.joined port' own' wrapped'
      exact ⟨other, record, eq, stored, lively, _, onto carries⟩
    by_cases alive : ∃ other record, image other = id ∧ pre.graph.nodes[other]? = some record ∧
        pre.Lively record
    · obtain ⟨other, record, rfl, stored, lively⟩ := alive
      obtain ⟨image', stored', inputs', outputs', -, eq⟩ := nodes other record stored
      obtain rfl := Option.mem_unique stored' got
      have kind := conveys.faithful.alike faithful' stored got eq.symm (·.kind) fun _ => rfl
      have mandatory := conveys.faithful.alike faithful' stored got eq.symm
        Node.hasMandatoryEffect fun _ => rfl
      refine .inr (lively.image inputs' outputs' kind.symm mandatory.symm onto
        fun port own wrapped => ?_)
      obtain ⟨-, -, -, -, -, carried⟩ := joined port own wrapped
      exact carried
    · have quiet : ∀ other, image other = id → ∀ record,
          pre.graph.nodes[other]? = some record → pre.Quiet record := fun other eq record
            stored => (twins other eq record stored).resolve_right fun lively =>
              alive ⟨other, record, eq, stored, lively⟩
      refine .inl ⟨fun port own first carries => ?_, fun port own last carries => ?_,
        fun port own wrapped => ?_⟩
      · obtain ⟨first', last', -, two, carries', -, eq, -, taken⟩ :=
          carries_of_fold awake wf feeds joins carries
        obtain ⟨record, stored, own'⟩ := wf.node_of_input taken
        exact (quiet two (takenBy own ⟨last', taken, eq⟩) record stored).unfed last' own' first'
          carries'
      · obtain ⟨first', last', one, -, carries', eq, -, given, -⟩ :=
          carries_of_fold awake wf feeds joins carries
        obtain ⟨record, stored, own'⟩ := wf.node_of_output given
        exact (quiet one (givenBy own ⟨first', given, eq⟩) record stored).unused first' own' last'
          carries'
      · obtain ⟨other, record, eq, stored, lively, -⟩ := joined port own wrapped
        exact alive ⟨other, record, eq, stored, lively⟩

/-- A link stays, unless data goes past one of its blocks. -/
theorem Move.links_of_awake (move : Move origins place free block pre post)
    (wf : pre.graph.Consistent) (wf' : post.graph.Consistent)
    (awake : Awake source origins pre) {first second : BlockId} {start target : NodeId}
    {port : InputId} (apart : free block → first ≠ block ∧ second ≠ block)
    (links : pre.Links origins place first second start target port) :
    post.Links origins place first second start target port := by
  obtain ⟨out, input, id, id', owned, owned', joined, rfl, rfl, rfl, rfl, rfl⟩ := links
  cases move with
  | trim nodes idle feeds joins =>
    obtain ⟨-, given, taken⟩ := carries_of_trim awake wf wf' idle feeds joins (.inr joined)
    exact ⟨out, input, id, id', given id owned, taken id' owned', (joins out input).mpr
      ⟨joined, ⟨id, given id owned⟩, id', taken id' owned'⟩, rfl, rfl, rfl, rfl, rfl⟩
  | @bypass other node entry exit allowed G got _ placed inputs outputs _ _ joins =>
    have entered := wf.input_of_mem got (inputs ▸ mem_singleton_self entry)
    have left := wf.output_of_mem got (outputs ▸ mem_singleton_self exit)
    refine ⟨out, input, id, id', G ▸ owned, G ▸ owned',
      (joins out input).mpr ⟨?_, ?_, .inl joined⟩, rfl, rfl, rfl, rfl, rfl⟩
    · rintro rfl
      cases owned.symm.trans left
      exact (apart allowed).1 placed
    · rintro rfl
      cases owned'.symm.trans entered
      exact (apart allowed).2 placed
  | @fold node input' out' kept nodes inputs outputs feeds joins =>
    obtain ⟨given, placed, origin⟩ := outputOwner_fold wf wf' nodes owned
    obtain ⟨taken, placed', origin'⟩ := inputOwner_fold wf wf' nodes owned'
    exact ⟨out' out, input' input, node id, node id', given, taken,
      (joins _ _).mpr ⟨out, input, joined, rfl, rfl⟩, placed, placed', origin, origin',
      inputs input⟩

end Move

section Moves

variable {within : BlockId → Prop} {pre post : Site}
  (moves : Moves origins place free within pre post) (normal : source.Normal)
  (wf : pre.graph.Consistent) (conveys : Conveys source origins pre)
  (awake : Awake source origins pre)

include moves normal wf conveys awake

/-- What steps in blocks keep while all nodes are awake, is kept. -/
theorem Moves.keeps_awake (inv : Site → Prop)
    (kept : ∀ block pre post, within block → Move origins place free block pre post →
      pre.graph.Consistent → post.graph.Consistent → Conveys source origins pre →
      Awake source origins pre → inv pre → inv post)
    (holds : inv pre) : Awake source origins post ∧ inv post := by
  obtain ⟨-, awake', holds'⟩ := moves.keeps
    (fun site => Conveys source origins site ∧ Awake source origins site ∧ inv site)
    (fun block pre post inside move wf wf' kept' => by
      obtain ⟨conveys, awake, holds⟩ := kept'
      have step : Moves origins place free within pre post := .single ⟨⟨block, inside, move⟩, wf'⟩
      exact ⟨step.conveys normal wf conveys, move.awake normal conveys wf wf' awake,
        kept block pre post inside move wf wf' conveys awake holds⟩)
    wf ⟨conveys, awake, holds⟩
  exact ⟨awake', holds'⟩

/-- Steps keep what there is at the ports of a node that is left, if no data goes past it. -/
theorem Moves.keeps_ports (got : post.graph.nodes[id]? = some node)
    (apart : ∀ block, within block → free block → place id ≠ block) : pre.Keeps post node := by
  refine (moves.keeps_awake normal wf conveys awake
    (fun site => site.graph.nodes[id]? = some node → pre.Keeps site node) ?_
    fun _ => .of_imp (fun fed => fed) fun joined => joined).2 got
  intro block now next inside move wf wf' conveys awake kept got
  refine (kept (move.stored got)).trans ((move.keeps_or_quiet normal conveys wf
    wf' awake got).resolve_right ?_)
  rintro ⟨allowed, placed, -⟩
  exact apart block inside allowed placed

/-- Steps that let no data past identities keep exactly the links that there are. -/
theorem Moves.links_iff (none : ∀ block, ¬ free block) : Awake source origins post ∧
    ∀ first second start target port, post.Links origins place first second start target port ↔
      pre.Links origins place first second start target port := by
  refine moves.keeps_awake normal wf conveys awake (fun site => ∀ first second start target port,
      site.Links origins place first second start target port ↔
        pre.Links origins place first second start target port) ?_ fun _ _ _ _ _ => Iff.rfl
  intro block now next _ move wf wf' conveys awake eq first second start target port
  rw [← eq]
  constructor
  · intro links
    exact (move.links wf wf' awake.ended conveys.faithful links).resolve_right
      fun passed => none block passed.1
  · exact move.links_of_awake wf wf' awake fun allowed => absurd allowed (none block)

end Moves

end Staging
