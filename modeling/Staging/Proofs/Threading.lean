import Staging.Proofs.Threads

/-! # Splices conserve threads

A splice on connections and its reverse change a thread by a node that only passes data on.
A split gives each pair of a source and a target a node of its own, and a seam leads data
where the endpoint of the flow part led it.
-/

namespace Staging

open Std Relation List ExtTreeSet

variable {made node record : Node} {boundary : Boundary} {inner : NodeId}
  {id owner other behind ahead : NodeId} {input entry : InputId} {out exit : OutputId}
  {moved : List InputId} {place : Nat}

namespace Graph

variable {G pre post : Graph}

/-! ## What is there -/

/-- The ports of a way belong to nodes. -/
theorem Hands.exists_nodes (hands : G.Hands input out) :
    (∃ (id : NodeId) (node : Node), G.nodes[id]? = some node ∧ input ∈ node.inputs) ∧
      ∃ (id : NodeId) (node : Node), G.nodes[id]? = some node ∧ out ∈ node.outputs := by
  cases hands with
  | through got _ enters leaves => exact ⟨⟨_, _, got, enters⟩, _, _, got, leaves⟩
  | into got _ port _ has leaves =>
    exact ⟨⟨_, _, got, mem_of_getElem? port⟩, _, _, has, leaves⟩
  | outOf got _ port _ has enters =>
    exact ⟨⟨_, _, has, enters⟩, _, _, got, mem_of_getElem? port⟩

theorem Consistent.below_of_hands (wf : G.Consistent) (hands : G.Hands input out) :
    input.raw < G.next ∧ out.raw < G.next := by
  obtain ⟨⟨taker, node, got, enters⟩, giver, node', got', leaves⟩ := hands.exists_nodes
  constructor
  · exact wf.inputBelow input taker (wf.input_of_mem got enters)
  · exact wf.outputBelow out giver (wf.output_of_mem got' leaves)

theorem Consistent.below_of_sends (wf : G.Consistent) (sends : G.Sends out) : out.raw < G.next := by
  obtain ⟨id, node, -, got, mem⟩ := sends
  exact wf.outputBelow out id (wf.output_of_mem got mem)

theorem Consistent.below_of_accepts (wf : G.Consistent) (accepts : G.Accepts input) :
    input.raw < G.next := by
  obtain ⟨id, node, -, got, mem⟩ := accepts
  exact wf.inputBelow input id (wf.input_of_mem got mem)

/-! ## A node more -/

/-- One node that passes data on has been added. -/
structure Grown (pre : Graph) (made : Node) (post : Graph) : Prop
    extends Passaged pre made post where
  passes : made.isPassThrough = true

namespace Grown

variable (grown : Grown pre made post)

include grown

theorem adds : pre.Adds post := by
  refine ⟨?_, fun id node got => ?_⟩
  · rw [grown.next]
    exact Nat.le_add_right _ 3
  · rcases grown.cases got with ⟨rfl, rfl⟩ | got
    · exact .inr ⟨Nat.le_refl _, grown.passes⟩
    · exact .inl got

variable (wf : pre.Consistent)

include wf

/-- There is one way more, through the new node. -/
theorem hands (rimmed : pre.Rimmed) (input : InputId) (out : OutputId) :
    post.Hands input out ↔ pre.Hands input out ∨ input = ⟨pre.next + 1⟩ ∧ out = ⟨pre.next + 2⟩ := by
  constructor
  · intro hands
    by_cases own : input ∈ made.inputs ∨ out ∈ made.outputs
    · obtain ⟨enters, leaves⟩ := (rimmed.of_adds grown.adds).hands_passThrough grown.wf
        grown.new grown.passes hands own
      rw [grown.inputs, mem_singleton] at enters
      rw [grown.outputs, mem_singleton] at leaves
      exact .inr ⟨enters, leaves⟩
    · apply Or.inl
      apply hands.of_kept
      intro id node got own'
      refine (grown.cases got).resolve_left ?_
      rintro ⟨-, rfl⟩
      exact own own'
  · rintro (hands | ⟨rfl, rfl⟩)
    · exact hands.of_kept fun _ _ got _ => grown.nodes_old wf got
    · apply Hands.through grown.new grown.passes
      · rw [grown.inputs]
        exact mem_singleton_self _
      · rw [grown.outputs]
        exact mem_singleton_self _

/-- A new node is conservative if threads stay and it joins nothing that was apart. -/
theorem conserves (image : NodeId → NodeId) (rimmed : pre.Rimmed)
    (fixed : ∀ id : NodeId, id.raw < pre.next → image id = id)
    (prec : ∀ first second, post.Precedes first second → pre.Joined (image first) (image second))
    (loose : ∀ id, post.Loose id → ∃ other, pre.Loose other ∧ pre.Joined other (image id))
    (threads : ∀ {out : OutputId} {input : InputId}, out ≠ ⟨pre.next + 2⟩ →
      input ≠ ⟨pre.next + 1⟩ → (post.Threads out input ↔ pre.Threads out input)) :
    pre.Conserves post where
  adds := grown.adds
  root := grown.root
  lasting id lasting := by
    obtain ⟨node, got, -⟩ := lasting
    rw [got]
    exact grown.nodes_old wf got
  joins first second early early' joined :=
    joins_of_image image rimmed grown.adds fixed wf prec early early' joined
  loose id loose' := by
    obtain ⟨other, loose'', near⟩ := loose id loose'
    exact loose_of_image image rimmed grown.adds fixed wf prec loose'' near
  threads out input sends accepts := by
    apply threads
    · exact Handle.ne_of_raw_lt (wf.below_of_sends sends) 2
    · exact Handle.ne_of_raw_lt (wf.below_of_accepts accepts) 1
  rims _ _ _ _ _ got _ _ _ _ := grown.nodes_old wf got

end Grown

/-- Data gets through a new node between an output port and some of its targets. -/
theorem Spliced.bypassed (spliced : Spliced pre out moved made post)
    (grown : Grown pre made post) (wf : pre.Consistent) (rimmed : pre.Rimmed)
    (fed : ∀ target ∈ moved, pre.Feeds out target) (owned : pre.outputOwner? out = some owner) :
    Bypassed post pre ⟨pre.next + 1⟩ ⟨pre.next + 2⟩ := by
  have late : out ≠ ⟨pre.next + 2⟩ := wf.output_ne owned 2
  have below : ∀ {one : OutputId} {two : InputId}, pre.Feeds one two →
      one ≠ ⟨pre.next + 2⟩ ∧ two ≠ ⟨pre.next + 1⟩ := by
    intro one two feeds
    obtain ⟨early, early'⟩ := wf.below_of_feeds feeds
    exact ⟨Handle.ne_of_raw_lt early 2, Handle.ne_of_raw_lt early' 1⟩
  refine ⟨fun feeds => ?_, grown.hands wf rimmed, fun input out' hands => ?_,
    fun one two => ⟨fun feeds => ?_, ?_⟩⟩
  · rcases (spliced.feeds _ _).mp feeds with ⟨feeds, -⟩ | ⟨eq, -⟩ | ⟨-, mem⟩
    · exact (below feeds).1 rfl
    · exact late eq.symm
    · exact (below (fed _ mem)).2 rfl
  · obtain ⟨early, early'⟩ := wf.below_of_hands hands
    exact ⟨Handle.ne_of_raw_lt early 1, Handle.ne_of_raw_lt early' 2⟩
  · by_cases own : one = out ∧ two ∈ moved
    · apply Or.inr
      exact ⟨(spliced.feeds _ _).mpr (.inr (.inl ⟨own.1, rfl⟩)),
        (spliced.feeds _ _).mpr (.inr (.inr ⟨rfl, own.2⟩))⟩
    · exact .inl ⟨(spliced.feeds _ _).mpr (.inl ⟨feeds, own⟩), below feeds⟩
  · rintro (⟨feeds, clear, clear'⟩ | ⟨enters, leaves⟩)
    · rcases (spliced.feeds _ _).mp feeds with ⟨feeds, -⟩ | ⟨-, eq⟩ | ⟨eq, -⟩
      · exact feeds
      · exact (clear' eq).elim
      · exact (clear eq).elim
    · have given : one = out := by
        rcases (spliced.feeds _ _).mp enters with ⟨feeds, -⟩ | ⟨eq, -⟩ | ⟨-, mem⟩
        · exact ((below feeds).2 rfl).elim
        · exact eq
        · exact ((below (fed _ mem)).2 rfl).elim
      have taken : two ∈ moved := by
        rcases (spliced.feeds _ _).mp leaves with ⟨feeds, -⟩ | ⟨eq, -⟩ | ⟨-, mem⟩
        · exact ((below feeds).1 rfl).elim
        · exact (late eq.symm).elim
        · exact mem
      rw [given]
      exact fed two taken

/-- A new node on connections has an open port only if there are no connections. -/
theorem Spliced.loose (spliced : Spliced pre out moved made post)
    (grown : Grown pre made post) (wf : pre.Consistent) (owned : pre.outputOwner? out = some owner)
    (all : moved = [] → ∀ input, ¬ pre.Feeds out input) (loose : post.Loose id) :
    ∃ other, pre.Loose other ∧ pre.Joined other (attached pre.next owner id) := by
  by_cases new : id = ⟨pre.next⟩
  · subst new
    rw [attached, if_neg (Nat.lt_irrefl _)]
    refine ⟨owner, ?_, .refl _⟩
    obtain ⟨node, got, mem⟩ := wf.node_of_output owned
    refine ⟨node, got, .inr ⟨out, mem, all ?_⟩⟩
    obtain ⟨record, has, open'⟩ := loose
    cases grown.new.symm.trans has
    rw [grown.inputs, grown.outputs] at open'
    simp only [mem_singleton, exists_eq_left] at open'
    rcases open' with unfed | unfed
    · exact (unfed out ((spliced.feeds _ _).mpr (.inr (.inl ⟨rfl, rfl⟩)))).elim
    · apply eq_nil_iff_forall_not_mem.mpr
      intro target member
      exact unfed target ((spliced.feeds _ _).mpr (.inr (.inr ⟨rfl, member⟩)))
  · have eq : post.nodes[id]? = pre.nodes[id]? := (grown.nodes id).trans (if_neg new)
    obtain ⟨node, got⟩ : ∃ node, pre.nodes[id]? = some node := by
      obtain ⟨node, got, -⟩ := loose
      exact ⟨node, eq ▸ got⟩
    rw [attached_old (wf.early got)]
    refine ⟨id, ?_, .refl _⟩
    by_contra tight
    obtain ⟨-, one, two, -, feeds, ⟨-, unfed⟩ | ⟨-, unfed⟩⟩ := loose.exists_lost eq tight
    all_goals by_cases own : one = out ∧ two ∈ moved
    · exact unfed _ ((spliced.feeds _ _).mpr (.inr (.inr ⟨rfl, own.2⟩)))
    · exact unfed one ((spliced.feeds _ _).mpr (.inl ⟨feeds, own⟩))
    · exact unfed _ ((spliced.feeds _ _).mpr (.inr (.inl ⟨own.1, rfl⟩)))
    · exact unfed two ((spliced.feeds _ _).mpr (.inl ⟨feeds, own⟩))

/-- Threads lead through a new node on connections. -/
theorem Spliced.conserves (spliced : Spliced pre out moved made post)
    (grown : Grown pre made post) (founded : pre.Founded) (rimmed : pre.Rimmed)
    (fed : ∀ target ∈ moved, pre.Feeds out target) (owned : pre.outputOwner? out = some owner)
    (all : moved = [] → ∀ input, ¬ pre.Feeds out input) : pre.Conserves post := by
  have reshaped := spliced.reshaped founded owned fed (Node.isPseudo_of_isPassThrough grown.passes)
  apply grown.conserves founded.wf (attached pre.next owner) rimmed
  · intro id early
    exact attached_old early
  · intro first second prec
    rcases reshaped.prec first second prec with led | ⟨eq, -⟩
    · exact joined_of_transGen led
    · rw [eq]
      exact .refl _
  · intro id loose
    exact spliced.loose grown founded.wf owned all loose
  · intro one two clear clear'
    exact ((spliced.bypassed grown founded.wf rimmed fed owned).threads clear clear').symm

/-- Checkpoints and identities can be put on connections. -/
theorem Founded.insertPassage (founded : G.Founded) (rimmed : G.Rimmed) {port : OutputPort}
    (got : G.outputs[out]? = some port) (fed : ∀ target ∈ moved, G.Feeds out target)
    (all : moved = [] → ∀ input, ¬ G.Feeds out input) (pseudo : Pseudo)
    (calm : boundary ≠ .shuffle) :
    G.Conserves (G.insertPassage out port moved pseudo boundary).2 := by
  have spliced := founded.wf.insertPassage got fed pseudo boundary
  have owned : G.outputOwner? out = some port.owner := by
    rw [outputOwner?, got]
    rfl
  refine spliced.conserves ⟨spliced.toPassaged, ?_⟩ founded rimmed fed owned all
  cases boundary
  · rfl
  · rfl
  · exact (calm rfl).elim

/-! ## A node less -/

/-- A node without logic of its own is none of those that stay. -/
theorem Lasting.ne (lasting : G.Lasting id) (got : G.nodes[other]? = some node)
    (passes : node.isPassThrough) : id ≠ other := by
  rintro rfl
  obtain ⟨node', got', logic, -⟩ := lasting
  cases got.symm.trans got'
  rw [logic] at passes
  cases passes

theorem Sends.not_mem (sends : G.Sends out) (wf : G.Consistent)
    (got : G.nodes[other]? = some node) (ne : ∀ id, G.Lasting id → id ≠ other) :
    out ∉ node.outputs := by
  intro mem
  obtain ⟨id, node', lasting, got', mem'⟩ := sends
  apply ne id lasting
  exact wf.output_unique got' mem' got mem

theorem Accepts.not_mem (accepts : G.Accepts input) (wf : G.Consistent)
    (got : G.nodes[other]? = some node) (ne : ∀ id, G.Lasting id → id ≠ other) :
    input ∉ node.inputs := by
  intro mem
  obtain ⟨id, node', lasting, got', mem'⟩ := accepts
  apply ne id lasting
  exact wf.input_unique got' mem' got mem

/-- A node that does not feed itself can be taken out. -/
theorem Consistent.exists_skip (wf : G.Consistent) (got : G.nodes[id]? = some node)
    (open' : ¬ G.Precedes id id) : ∃ post, G.skip id = .ok post := by
  have dropped := wf.drop got
  rw [Graph.skip, bind_of_ok (node_of_found got)]
  refine ⟨_, linkAll_eq_ok_iff.mpr ⟨?_, rfl⟩⟩
  rintro ⟨out, input⟩ mem
  obtain ⟨source, target⟩ := pair_mem_product.mp mem
  obtain ⟨entry, own, fed⟩ := mem_flatMap.mp source
  obtain ⟨exit, own', fed'⟩ := mem_flatMap.mp target
  have enters := (wf.agree out entry).mpr (mem_toList.mp fed)
  have leaves : G.Feeds exit input := mem_toList.mp fed'
  have here := wf.input_of_mem got own
  have there := wf.output_of_mem got own'
  obtain ⟨giver, given⟩ := exists_outputOwner_of_feeds enters
  obtain ⟨taker, taken⟩ := wf.exists_inputOwner leaves
  refine ⟨⟨giver, ?_⟩, taker, ?_⟩
  · rw [dropped.outputOwner, if_neg, given]
    intro mem
    exact open' ⟨out, entry, wf.output_of_mem got mem, here, enters⟩
  · rw [dropped.inputOwner, if_neg, taken]
    intro mem
    exact open' ⟨exit, input, there, wf.input_of_mem got mem, leaves⟩

/-- What feeds a node with one port on each side then feeds what it fed. -/
theorem Skipped.feeds_iff (skipped : Skipped pre id post) (wf : pre.Consistent)
    (got : pre.nodes[id]? = some node) (inputs : node.inputs = [entry])
    (outputs : node.outputs = [exit]) (open' : ¬ pre.Feeds exit entry) (out : OutputId)
    (input : InputId) : post.Feeds out input ↔ pre.Feeds out input ∧ out ≠ exit ∧ input ≠ entry ∨
        pre.Feeds out entry ∧ pre.Feeds exit input := by
  have own : ∀ port, pre.inputOwner? port = some id ↔ port = entry := fun port => by
    rw [← wf.mem_inputs_iff got, inputs, mem_singleton]
  have own' : ∀ port, pre.outputOwner? port = some id ↔ port = exit := fun port => by
    rw [← wf.mem_outputs_iff got, outputs, mem_singleton]
  simp only [skipped.feeds, own, own', ne_eq]
  constructor
  · rintro ⟨clear, clear', old | ⟨_, _, rfl, rfl, fed⟩⟩
    · exact .inl ⟨old, clear, clear'⟩
    · exact .inr fed
  · rintro (⟨old, clear, clear'⟩ | ⟨enters, leaves⟩)
    · exact ⟨clear, clear', .inl old⟩
    · refine ⟨?_, ?_, .inr ⟨entry, exit, rfl, rfl, enters, leaves⟩⟩
      · rintro rfl
        exact open' enters
      · rintro rfl
        exact open' leaves

/-- Fewer nodes are no new ones. -/
theorem Removed.adds (removed : Removed pre id post) : pre.Adds post :=
  ⟨Nat.le_of_eq removed.next.symm, fun _ _ got => .inl (removed.nodes_old got).2⟩

/-- A node without logic of its own can be taken out if threads stay and nothing is joined
that was apart. -/
theorem Removed.conserves (removed : Removed pre id post) (wf : pre.Consistent)
    (rimmed : pre.Rimmed) (got : pre.nodes[id]? = some node)
    (ne : ∀ other, pre.Lasting other → other ≠ id)
    (prec : ∀ one two, post.Precedes one two → pre.Joined one two)
    (loose : ∀ other, post.Loose other → ∃ near, pre.Loose near ∧ pre.Joined near other)
    (threads : ∀ {out : OutputId} {input : InputId}, out ∉ node.outputs → input ∉ node.inputs →
      (post.Threads out input ↔ pre.Threads out input))
    (bare : ∀ scope, node.kind = .flowPart scope → ∀ tip ∈ scope.endpoints,
      post.nodes[tip]? = none) : pre.Conserves post where
  adds := removed.adds
  root := removed.root
  lasting other lasting := removed.kept (ne other lasting)
  joins first second early early' joined :=
    joins_of_image (fun other => other) rimmed removed.adds (fun _ _ => rfl) wf prec
      early early' joined
  loose other open' := by
    obtain ⟨near, loose', joined⟩ := loose other open'
    exact loose_of_image (fun other => other) rimmed removed.adds (fun _ _ => rfl) wf prec
      loose' joined
  threads out input sends accepts := threads (sends.not_mem wf got ne) (accepts.not_mem wf got ne)
  rims part tip record inner scope got' kind mem _ has := by
    rw [removed.kept, got']
    rintro rfl
    cases got.symm.trans got'
    cases (bare scope kind tip mem).symm.trans has

/-- What feeds a node and what it feeds are connected afterwards, unless it has an open
port. -/
theorem Skipped.loose (skipped : Skipped pre id post) (wf : pre.Consistent)
    (got : pre.nodes[id]? = some node) (inputs : node.inputs = [entry])
    (outputs : node.outputs = [exit]) (feeds : ∀ out input, post.Feeds out input ↔
      pre.Feeds out input ∧ out ≠ exit ∧ input ≠ entry ∨
        pre.Feeds out entry ∧ pre.Feeds exit input) (loose : post.Loose other) :
    ∃ near, pre.Loose near ∧ pre.Joined near other := by
  by_cases tight : pre.Loose other
  · exact ⟨other, tight, .refl _⟩
  have own : entry ∈ node.inputs := inputs ▸ mem_singleton_self entry
  have own' : exit ∈ node.outputs := outputs ▸ mem_singleton_self exit
  have taken := wf.input_of_mem got own
  have given := wf.output_of_mem got own'
  have ne : other ≠ id := by
    obtain ⟨record, has, -⟩ := loose
    exact (skipped.nodes_old has).1
  have eq := skipped.kept ne
  obtain ⟨record, out, input, has, fed, ⟨mem, unfed⟩ | ⟨mem, unfed⟩⟩ := loose.exists_lost eq tight
  · have taken' := wf.input_of_mem has mem
    have through : out = exit := by
      by_contra outer
      refine unfed out ((feeds _ _).mpr (.inl ⟨fed, outer, ?_⟩))
      rintro rfl
      exact ne (Option.mem_unique taken' taken)
    subst through
    refine ⟨id, ⟨node, got, .inl ⟨entry, own, fun source enters => ?_⟩⟩,
      .rel _ _ (.inl (.inl ⟨out, input, given, taken', fed⟩))⟩
    exact unfed source ((feeds _ _).mpr (.inr ⟨enters, fed⟩))
  · have given' := wf.output_of_mem has mem
    have through : input = entry := by
      by_contra outer
      refine unfed input ((feeds _ _).mpr (.inl ⟨fed, ?_, outer⟩))
      rintro rfl
      exact ne (Option.mem_unique given' given)
    subst through
    refine ⟨id, ⟨node, got, .inr ⟨exit, own', fun target leaves => ?_⟩⟩,
      .rel _ _ (.inl (.inr ⟨out, input, given', taken, fed⟩))⟩
    exact unfed target ((feeds _ _).mpr (.inr ⟨fed, leaves⟩))

/-- Threads need no node that only passes data on. -/
theorem Rimmed.exists_skip (rimmed : G.Rimmed) (wf : G.Consistent)
    (got : G.nodes[id]? = some node) (passes : node.isPassThrough) (acyclic : ¬ G.Precedes id id) :
    ∃ post, G.skip id = .ok post ∧ G.Conserves post := by
  obtain ⟨entry, exit, inputs, outputs⟩ := Node.exists_ports_of_isPassThrough passes
  have own : entry ∈ node.inputs := inputs ▸ mem_singleton_self entry
  have own' : exit ∈ node.outputs := outputs ▸ mem_singleton_self exit
  have open' : ¬ G.Feeds exit entry := by
    intro feeds
    exact acyclic ⟨exit, entry, wf.output_of_mem got own', wf.input_of_mem got own, feeds⟩
  obtain ⟨post, run⟩ := wf.exists_skip got acyclic
  have skipped := wf.skip run
  have feeds := skipped.feeds_iff wf got inputs outputs open'
  have bypassed : Bypassed G post entry exit := by
    refine ⟨open', fun input out => ⟨fun hands => ?_, ?_⟩, fun input out hands => ?_, feeds⟩
    · by_cases through : input ∈ node.inputs ∨ out ∈ node.outputs
      · obtain ⟨enters, leaves⟩ := rimmed.hands_passThrough wf got passes hands through
        rw [inputs, mem_singleton] at enters
        rw [outputs, mem_singleton] at leaves
        exact .inr ⟨enters, leaves⟩
      · apply Or.inl
        apply hands.of_kept
        intro other record got' through'
        rw [skipped.kept, got']
        rintro rfl
        cases got.symm.trans got'
        exact through through'
    · rintro (hands | ⟨rfl, rfl⟩)
      · exact hands.of_kept fun _ _ got _ => (skipped.nodes_old got).2
      · exact .through got passes own own'
    · obtain ⟨⟨taker, node₁, got₁, enters⟩, giver, node₂, got₂, leaves⟩ := hands.exists_nodes
      obtain ⟨clear, got₁⟩ := skipped.nodes_old got₁
      obtain ⟨clear', got₂⟩ := skipped.nodes_old got₂
      constructor
      · rintro rfl
        exact clear (wf.input_unique got₁ enters got own)
      · rintro rfl
        exact clear' (wf.output_unique got₂ leaves got own')
  have prec : ∀ one two, post.Precedes one two → G.Joined one two := by
    intro one two prec
    obtain ⟨-, -, prec | ⟨enters, leaves⟩⟩ := skipped.prec wf prec
    · exact .rel _ _ (.inl (.inl prec))
    · exact (EqvGen.rel _ _ (.inl (.inl enters))).trans _ _ _ (.rel _ _ (.inl (.inl leaves)))
  refine ⟨post, run, skipped.conserves wf rimmed got (fun _ lasting => lasting.ne got passes) prec
    (fun _ => skipped.loose wf got inputs outputs feeds) (fun clear clear' => ?_)
    fun _ kind => (Node.kind_ne_of_isPseudo (Node.isPseudo_of_isPassThrough passes) kind).elim⟩
  apply bypassed.threads
  · rintro rfl
    exact clear own'
  · rintro rfl
    exact clear' own

/-- Ports connected with the node have other connections, unless it has an open port
itself. -/
def Held (graph : Graph) (id : NodeId) (node : Node) : Prop :=
  ¬ graph.Loose id → ∀ out input, graph.Feeds out input →
    (input ∈ node.inputs → ∃ other, other ∉ node.inputs ∧ graph.Feeds out other) ∧
      (out ∈ node.outputs → ∃ other, other ∉ node.outputs ∧ graph.Feeds other input)

theorem Dropped.loose (dropped : Dropped pre id node post)
    (got : pre.nodes[id]? = some node) (wf : pre.Consistent)
    (held : pre.Held id node) (loose : post.Loose other) :
    ∃ near, pre.Loose near ∧ pre.Joined near other := by
  by_cases tight : pre.Loose other
  · exact ⟨other, tight, .refl _⟩
  have ne : other ≠ id := by
    obtain ⟨record, has, -⟩ := loose
    exact (dropped.nodes_old has).1
  have eq := dropped.kept ne
  obtain ⟨record, out, input, has, fed, ⟨mem, unfed⟩ | ⟨mem, unfed⟩⟩ := loose.exists_lost eq tight
  · have taken := wf.input_of_mem has mem
    have outer : input ∉ node.inputs := by
      intro mem'
      exact ne (Option.mem_unique taken (wf.input_of_mem got mem'))
    have own : out ∈ node.outputs := by
      by_contra outer'
      exact unfed out ((dropped.feeds _ _).mpr ⟨fed, outer', outer⟩)
    refine ⟨id, ?_, .rel _ _ (.inl (.inl ⟨out, input, wf.output_of_mem got own, taken, fed⟩))⟩
    by_contra closed
    obtain ⟨source, outer', fed'⟩ := (held closed out input fed).2 own
    exact unfed source ((dropped.feeds _ _).mpr ⟨fed', outer', outer⟩)
  · have given := wf.output_of_mem has mem
    have outer : out ∉ node.outputs := by
      intro mem'
      exact ne (Option.mem_unique given (wf.output_of_mem got mem'))
    have own : input ∈ node.inputs := by
      by_contra outer'
      exact unfed input ((dropped.feeds _ _).mpr ⟨fed, outer, outer'⟩)
    refine ⟨id, ?_, .rel _ _ (.inl (.inr ⟨out, input, given, wf.input_of_mem got own, fed⟩))⟩
    by_contra closed
    obtain ⟨target, outer', fed'⟩ := (held closed out input fed).1 own
    exact unfed target ((dropped.feeds _ _).mpr ⟨fed', outer, outer'⟩)

/-- A node that no way has a port of can be removed, unless it has logic of its own or is
a flow part with endpoints. -/
theorem Dropped.conserves (dropped : Dropped pre id node post)
    (got : pre.nodes[id]? = some node) (wf : pre.Consistent)
    (rimmed : pre.Rimmed) (pathless : ∀ input out, pre.Hands input out →
      ¬ (input ∈ node.inputs ∨ out ∈ node.outputs)) (held : pre.Held id node)
    (ne : ∀ other, pre.Lasting other → other ≠ id)
    (bare : ∀ scope, node.kind = .flowPart scope → ∀ tip ∈ scope.endpoints,
      pre.nodes[tip]? = none) : pre.Conserves post := by
  refine dropped.toRemoved.conserves wf rimmed got ne ?_ (fun _ => dropped.loose got wf held)
    (dropped.threads got pathless) fun scope kind tip mem => ?_
  · rintro one two ⟨out, input, given, taken, feeds⟩
    rw [dropped.outputOwner] at given
    rw [dropped.inputOwner] at taken
    obtain ⟨-, given⟩ := Option.ite_none_left_eq_some.mp given
    obtain ⟨-, taken⟩ := Option.ite_none_left_eq_some.mp taken
    exact .rel _ _ (.inl (.inl ⟨out, input, given, taken, ((dropped.feeds _ _).mp feeds).1⟩))
  · rw [dropped.nodes, bare scope kind tip mem, ite_self]

/-! ## Nodes replaced -/

/-- A node has been taken out, and new ones lead from what fed one port to what another
one fed. The way between the two ports is the only one that needed the node. -/
structure Replaced (pre : Graph) (id : NodeId) (node : Node) (entry : InputId)
    (exit : OutputId) (post : Graph) : Prop extends Recast pre id entry exit post where
  passes : ∀ (other : NodeId) made, pre.next ≤ other.raw →
    post.nodes[other]? = some made → made.isPassThrough = true
  beside : ∀ output input, pre.Feeds output input → output ∉ node.outputs →
    input ∉ node.inputs → post.Feeds output input
  across : ∀ output input, pre.Feeds output entry → pre.Feeds exit input →
    output ∉ node.outputs → input ∉ node.inputs →
    ∃ middle between, post.Feeds output middle ∧ post.Hands middle between ∧
      post.Feeds between input
  loose : ∀ other : NodeId, pre.next ≤ other.raw → post.Loose other →
    (∀ output, ¬ pre.Feeds output entry) ∨ ∀ input, ¬ pre.Feeds exit input

section Replaced

variable (replaced : Replaced pre id node entry exit post) (wf : pre.Consistent)
  (rimmed : pre.Rimmed) (got : pre.nodes[id]? = some node)
  (taken : pre.inputOwner? entry = some behind) (given : pre.outputOwner? exit = some ahead)
  (joined : pre.Joined behind ahead) (hands : pre.Hands entry exit)
  (only : ∀ input out, pre.Hands input out → input ∈ node.inputs ∨ out ∈ node.outputs →
    input = entry ∧ out = exit)
  (entries : ∀ input ∈ node.inputs, input = entry) (exits : ∀ out ∈ node.outputs, out = exit)
  (open' : ¬ pre.Feeds exit entry)

include replaced

theorem Replaced.adds : pre.Adds post := by
  refine ⟨replaced.next, fun other made has => ?_⟩
  by_cases early : other.raw < pre.next
  · exact .inl (replaced.nodes_old has early).2
  · have late := Nat.not_lt.mp early
    exact .inr ⟨late, replaced.passes other made late has⟩

include wf

include rimmed hands in
theorem Replaced.hands_folded (handed : post.Hands input out) :
    pre.Hands (attached pre.next entry input) (attached pre.next exit out) := by
  by_cases own : ∃ (other : NodeId) (made : Node), pre.next ≤ other.raw ∧
      post.nodes[other]? = some made ∧ (input ∈ made.inputs ∨ out ∈ made.outputs)
  · obtain ⟨other, made, late, has, own⟩ := own
    obtain ⟨inputs, outputs⟩ := replaced.late other made late has
    obtain ⟨enters, leaves⟩ := (rimmed.of_adds replaced.adds).hands_passThrough replaced.wf
      has (replaced.passes other made late has) handed own
    rw [attached, if_neg (Nat.not_lt.mpr (inputs input enters)), attached,
      if_neg (Nat.not_lt.mpr (outputs out leaves))]
    exact hands
  · have old : ∀ (other : NodeId) (made : Node), post.nodes[other]? = some made →
        input ∈ made.inputs ∨ out ∈ made.outputs → pre.nodes[other]? = some made := by
      intro other made has own'
      refine (replaced.nodes_old has ?_).2
      by_contra late
      exact own ⟨other, made, Nat.not_lt.mp late, has, own'⟩
    obtain ⟨early, early'⟩ := wf.below_of_hands (handed.of_kept old)
    rw [attached_old early, attached_old early']
    exact handed.of_kept old

include rimmed hands got only open' in
/-- Threads lead through the new nodes where they led through the old one. -/
theorem Replaced.threads {first : OutputId} {last : InputId} (early : first.raw < pre.next)
    (early' : last.raw < pre.next) (outer : first ∉ node.outputs) (outer' : last ∉ node.inputs) :
    post.Threads first last ↔ pre.Threads first last := by
  constructor
  · refine Threads.simulate (fun one two => two = attached pre.next exit one) ?_ ?_
      (attached_old early).symm
    · rintro one two middle _ rfl feeds handed
      exact ⟨_, .single ⟨_, replaced.folds one middle feeds,
        replaced.hands_folded wf rimmed hands handed⟩, rfl⟩
    · rintro one _ rfl feeds
      have fed := replaced.folds one last feeds
      rw [attached_old early'] at fed
      exact .direct fed
  · refine Threads.around open' (fun input out handed => ?_) replaced.beside
      (fun out input enters leaves clear clear' => ?_) outer outer'
    · by_cases own : input ∈ node.inputs ∨ out ∈ node.outputs
      · exact .inl (only input out handed own)
      · obtain ⟨clear, clear'⟩ := not_or.mp own
        refine .inr ⟨clear, clear', handed.of_kept fun other record has own' => ?_⟩
        rw [replaced.old other (wf.early has), has]
        rintro rfl
        cases got.symm.trans has
        exact own own'
    · obtain ⟨middle, between, enters, through, leaves⟩ := replaced.across out input enters leaves
        clear clear'
      exact ⟨between, .single ⟨middle, enters, through⟩, leaves⟩

include got taken given joined entries exits open' in
/-- A port without connections is near where one of the way was. -/
theorem Replaced.exists_loose (loose : post.Loose other) :
    ∃ near, pre.Loose near ∧ pre.Joined near (attached pre.next behind other) := by
  have unfed : (∀ out, ¬ pre.Feeds out entry) → pre.Loose behind := by
    intro unfed
    obtain ⟨record, has, mem⟩ := wf.node_of_input taken
    exact ⟨record, has, .inl ⟨entry, mem, unfed⟩⟩
  have unfed' : (∀ input, ¬ pre.Feeds exit input) → pre.Loose ahead := by
    intro unfed
    obtain ⟨record, has, mem⟩ := wf.node_of_output given
    exact ⟨record, has, .inr ⟨exit, mem, unfed⟩⟩
  by_cases early : other.raw < pre.next
  · rw [attached_old early]
    by_cases tight : pre.Loose other
    · exact ⟨other, tight, .refl _⟩
    have eq : post.nodes[other]? = pre.nodes[other]? ∧ other ≠ id := by
      obtain ⟨record, has, -⟩ := loose
      obtain ⟨ne, there⟩ := replaced.nodes_old has early
      exact ⟨has.trans there.symm, ne⟩
    obtain ⟨record, out, input, has, fed, ⟨mem, none⟩ | ⟨mem, none⟩⟩ := loose.exists_lost eq.1 tight
    · have taken' := wf.input_of_mem has mem
      have clear' : input ∉ node.inputs := fun mem' => eq.2 (Option.mem_unique taken'
        (wf.input_of_mem got mem'))
      have through : out ∈ node.outputs := by
        by_contra clear
        exact none out (replaced.beside _ _ fed clear clear')
      obtain rfl := exits out through
      refine ⟨behind, unfed fun source enters => ?_, joined.trans _ _ _
        (.rel _ _ (.inl (.inl ⟨out, input, given, taken', fed⟩)))⟩
      obtain ⟨_, between, -, -, leaves⟩ := replaced.across source input enters fed
        (fun own => open' (exits source own ▸ enters)) clear'
      exact none between leaves
    · have given' := wf.output_of_mem has mem
      have clear : out ∉ node.outputs := fun mem' => eq.2 (Option.mem_unique given'
        (wf.output_of_mem got mem'))
      have through : input ∈ node.inputs := by
        by_contra clear'
        exact none input (replaced.beside _ _ fed clear clear')
      obtain rfl := entries input through
      refine ⟨ahead, unfed' fun target leaves => ?_, joined.symm.trans _ _ _
        (.rel _ _ (.inl (.inr ⟨out, input, given', taken, fed⟩)))⟩
      obtain ⟨middle, -, enters, -, -⟩ := replaced.across out target fed leaves clear
        fun own => open' (entries target own ▸ leaves)
      exact none middle enters
  · rw [attached, if_neg early]
    rcases replaced.loose other (Nat.not_lt.mp early) loose with none | none
    · exact ⟨behind, unfed none, .refl _⟩
    · exact ⟨ahead, unfed' none, joined.symm⟩

include rimmed got taken given joined hands only entries exits open' in
theorem Replaced.conserves (ne : ∀ other, pre.Lasting other → other ≠ id)
    (bare : ∀ scope, node.kind ≠ .flowPart scope) : pre.Conserves post := by
  have prec : ∀ first second, post.Precedes first second →
      pre.Joined (attached pre.next behind first) (attached pre.next behind second) := by
    rintro first second ⟨out, input, own, own', feeds⟩
    refine EqvGen.trans _ (attached pre.next ahead first) _ ?_ (.rel _ _ (.inl (.inl
      ⟨_, _, replaced.giver wf given own, replaced.taker wf taken own',
        replaced.folds out input feeds⟩)))
    by_cases early : first.raw < pre.next
    · rw [attached_old early, attached_old early]
      exact .refl _
    · rw [attached, if_neg early, attached, if_neg early]
      exact joined
  have fixed : ∀ other : NodeId, other.raw < pre.next →
      attached pre.next behind other = other := fun _ => attached_old
  refine ⟨replaced.adds, replaced.root, fun other lasting => ?_,
      fun first second early early' near =>
    joins_of_image _ rimmed replaced.adds fixed wf prec early early' near,
    fun other loose => ?_, fun out input sends accepts => ?_,
    fun part _ record _ scope has kind _ _ _ => ?_⟩
  · have stays := ne other lasting
    obtain ⟨record, has, -⟩ := lasting
    exact replaced.old other (wf.early has) stays
  · obtain ⟨near, loose', near'⟩ := replaced.exists_loose wf got taken given joined entries
      exits open' loose
    exact loose_of_image _ rimmed replaced.adds fixed wf prec loose' near'
  · exact replaced.threads wf rimmed got hands only open' (wf.below_of_sends sends)
      (wf.below_of_accepts accepts) (sends.not_mem wf got ne)
      (accepts.not_mem wf got ne)
  · rw [replaced.old part (wf.early has), has]
    rintro rfl
    cases got.symm.trans has
    exact bare scope kind

end Replaced

/-- The copies of an identity lead data where the identity did. -/
theorem Split.conserves {pairs : List (OutputId × InputId)}
    (split : Split pre id entry exit pairs post) (wf : pre.Consistent)
    (rimmed : pre.Rimmed) (got : pre.nodes[id]? = some node)
    (identity : node.isIdentity) (inputs : node.inputs = [entry])
    (outputs : node.outputs = [exit]) (open' : ¬ pre.Feeds exit entry) :
    pre.Conserves post := by
  have passes := Node.isPassThrough_of_isIdentity identity
  have own : entry ∈ node.inputs := inputs ▸ mem_singleton_self entry
  have own' : exit ∈ node.outputs := outputs ▸ mem_singleton_self exit
  have here := wf.input_of_mem got own
  have there := wf.output_of_mem got own'
  have joins : ∀ {place : Nat} {pair : OutputId × InputId}, pairs[place]? = some pair →
      post.Feeds pair.1 ⟨pre.next + (3 * place + 1)⟩ ∧
        post.Feeds ⟨pre.next + (3 * place + 2)⟩ pair.2 := by
    intro place pair mem
    obtain ⟨enters, leaves⟩ := split.feeds_pair mem
    refine ⟨(split.feeds _ _).mpr ⟨.inr ⟨place, pair, mem, .inl ⟨rfl, rfl⟩⟩, ?_, ?_⟩,
      (split.feeds _ _).mpr ⟨.inr ⟨place, pair, mem, .inr ⟨rfl, rfl⟩⟩, ?_, ?_⟩⟩
    · exact fun eq => open' (eq ▸ enters)
    · exact (wf.input_ne here _).symm
    · exact (wf.output_ne there _).symm
    · exact fun eq => open' (eq ▸ leaves)
  have replaced : Replaced pre id node entry exit post := by
    refine ⟨split.recast wf, fun other made late has => ?_,
      fun out input fed clear clear' => ?_, fun out input enters leaves _ _ => ?_,
      fun other late loose => ?_⟩
    · obtain ⟨_, _, copy, -⟩ := split.new other made late has
      exact Node.isPassThrough_of_isIdentity copy
    · rw [outputs, mem_singleton] at clear
      rw [inputs, mem_singleton] at clear'
      exact (split.feeds _ _).mpr ⟨.inl fed, clear, clear'⟩
    · obtain ⟨place, mem⟩ := mem_iff_getElem?.mp ((split.between out input).mpr ⟨enters, leaves⟩)
      obtain ⟨enters', leaves'⟩ := joins mem
      obtain ⟨copy, taken⟩ := split.wf.exists_inputOwner enters'
      obtain ⟨record, has, identity', inputs', outputs'⟩ := split.copy wf taken
      exact ⟨_, _, enters', .through has (Node.isPassThrough_of_isIdentity identity')
        (by simp [inputs']) (by simp [outputs']), leaves'⟩
    · -- copies have no open ports
      obtain ⟨record, has, unfed⟩ := loose
      obtain ⟨place, inside, -, inputs', outputs'⟩ := split.new other record late has
      obtain ⟨enters, leaves⟩ := joins (getElem?_eq_getElem inside)
      simp only [inputs', outputs', mem_singleton, exists_eq_left] at unfed
      exact (unfed.elim (· _ enters) (· _ leaves)).elim
  refine replaced.conserves wf rimmed got here there (.refl _)
    (.through got passes own own') (fun input out hands own => ?_) (by simp [inputs])
    (by simp [outputs]) open' (fun _ lasting => lasting.ne got passes)
    fun scope => Node.kind_ne_of_isPseudo (Node.isPseudo_of_isPassThrough passes)
  obtain ⟨enters, leaves⟩ := rimmed.hands_passThrough wf got passes hands own
  rw [inputs, mem_singleton] at enters
  rw [outputs, mem_singleton] at leaves
  exact ⟨enters, leaves⟩

/-! ## Seams -/

theorem Seamed.passes
    (seamed : Seamed pre inner record entry exit made post) (calm : made.boundary ≠ .shuffle) :
    made.isPassThrough := by
  simp [Node.isPassThrough, Node.isShuffleBoundary, seamed.pseudo, seamed.inputs, seamed.outputs,
    calm]

section Seams

variable {part : NodeId} {scope : Scope} (wf : G.Consistent) (rimmed : G.Rimmed)
  (got : G.nodes[part]? = some node) (kind : node.kind = .flowPart scope)
  (has : G.nodes[inner]? = some record)

include wf got kind has

include rimmed in
/-- A new node takes the place of the only way that an endpoint is part of. -/
theorem Seamed.conserves (seamed : Seamed G inner record entry exit made post)
    (calm : made.boundary ≠ .shuffle) (mem : inner ∈ scope.endpoints) (hands : G.Hands entry exit)
    (taken : G.inputOwner? entry = some behind) (given : G.outputOwner? exit = some ahead)
    (joined : G.Joined behind ahead) (only : ∀ input out, G.Hands input out →
      input ∈ record.inputs ∨ out ∈ record.outputs → input = entry ∧ out = exit)
    (entries : ∀ input ∈ record.inputs, input = entry)
    (exits : ∀ out ∈ record.outputs, out = exit) (open' : ¬ G.Feeds exit entry) :
    G.Conserves post := by
  have ne : (⟨G.next⟩ : NodeId) ≠ inner := (wf.node_ne has).symm
  have passes := seamed.passes calm
  have there : post.nodes[(⟨G.next⟩ : NodeId)]? = some made := by
    rw [seamed.nodes, if_neg ne, if_pos rfl]
  have made_of : ∀ (other : NodeId) made', G.next ≤ other.raw →
      post.nodes[other]? = some made' → made' = made := by
    intro other made' late has'
    rw [seamed.nodes] at has'
    split_ifs at has' with gone new
    · exact (Option.some.inj has').symm
    · exact (Nat.not_lt.mpr late (wf.early has')).elim
  have through : post.Hands ⟨G.next + 1⟩ ⟨G.next + 2⟩ :=
    .through there passes (by simp [seamed.inputs]) (by simp [seamed.outputs])
  have fresh : (⟨G.next + 1⟩ : InputId) ∉ record.inputs := fun mem =>
    wf.input_ne (wf.input_of_mem has mem) 1 rfl
  have fresh' : (⟨G.next + 2⟩ : OutputId) ∉ record.outputs := fun mem =>
    wf.output_ne (wf.output_of_mem has mem) 2 rfl
  have enters : ∀ out, G.Feeds out entry → post.Feeds out ⟨G.next + 1⟩ := by
    intro out fed
    refine (seamed.feeds _ _).mpr ⟨.inr (.inl ⟨fed, rfl⟩), fun own => ?_, fresh⟩
    exact open' (exits out own ▸ fed)
  have leaves : ∀ input, G.Feeds exit input → post.Feeds ⟨G.next + 2⟩ input := by
    intro input fed
    refine (seamed.feeds _ _).mpr ⟨.inr (.inr ⟨rfl, fed⟩), fresh', fun own => ?_⟩
    exact open' (entries input own ▸ fed)
  have replaced : Replaced G inner record entry exit post := by
    refine ⟨⟨⟨seamed.wf, ?_, seamed.root, (seamed.nodes inner).trans (if_pos rfl),
      fun other early clear => ?_⟩, fun other made' late has' => ?_, fun out input feeds => ?_⟩,
      fun other made' late has' => made_of other made' late has' ▸ passes,
      fun out input fed clear clear' => (seamed.feeds _ _).mpr ⟨.inl fed, clear, clear'⟩,
      fun out input fed fed' _ _ => ⟨_, _, enters out fed, through, leaves input fed'⟩,
      fun other late loose => ?_⟩
    · rw [seamed.next]
      exact Nat.le_add_right _ _
    · rw [seamed.nodes, if_neg clear, if_neg]
      rintro rfl
      exact Nat.lt_irrefl _ early
    · cases made_of other made' late has'
      exact ⟨by simp [seamed.inputs], by simp [seamed.outputs]⟩
    · obtain ⟨fed | ⟨fed, rfl⟩ | ⟨rfl, fed⟩, -⟩ := (seamed.feeds out input).mp feeds
      · obtain ⟨early, early'⟩ := wf.below_of_feeds fed
        rwa [attached_old early, attached_old early']
      · rw [attached_old (wf.below_of_feeds fed).1, attached, if_neg (by simp)]
        exact fed
      · rw [attached_old (wf.below_of_feeds fed).2, attached, if_neg (by simp)]
        exact fed
    · obtain ⟨made', has', open'⟩ := loose
      cases made_of other made' late has'
      rw [seamed.inputs, seamed.outputs] at open'
      simp only [mem_singleton, exists_eq_left] at open'
      exact open'.imp (fun unfed out fed => unfed out (enters out fed))
        fun unfed input fed => unfed input (leaves input fed)
  refine replaced.conserves wf rimmed has taken given joined hands only entries exits
    open' ?_ fun scope' kind' => ?_
  · rintro other ⟨-, -, -, -, outer⟩ rfl
    exact outer part node scope got kind mem
  · rcases rimmed.kind_of_endpoint got kind mem has with other | other <;>
      cases kind'.symm.trans other

include rimmed in
/-- The only way out of an inner input comes from the port of the flow part. -/
theorem Consistent.only_entry {port : InputId} (outer : node.inputs[place]? = some port)
    (tip : scope.inputs[place]? = some inner) (inputs : record.inputs = [])
    (outputs : record.outputs = [exit]) (input : InputId) (out : OutputId)
    (hands : G.Hands input out) (own : input ∈ record.inputs ∨ out ∈ record.outputs) :
    input = port ∧ out = exit := by
  have kind' := (rimmed.entries part node scope got kind inner (mem_of_getElem? tip) record has).1
  rw [inputs] at own
  have leaves := own.resolve_left not_mem_nil
  have eq : ∀ {other : NodeId} {record' : Node}, G.nodes[other]? = some record' →
      out ∈ record'.outputs → other = inner ∧ record' = record := by
    intro other record' got' leaves'
    cases wf.output_unique got' leaves' has leaves
    exact ⟨rfl, Option.mem_unique got' has⟩
  refine ⟨?_, by rwa [outputs, mem_singleton] at leaves⟩
  cases hands with
  | through got' passes _ leaves' =>
    cases (eq got' leaves').2
    have pseudo := Node.isPseudo_of_isPassThrough passes
    rw [Node.isPseudo, kind'] at pseudo
    cases pseudo
  | into got' kind'' port' tip' has' leaves' =>
    cases (eq has' leaves').1
    cases rimmed.apart _ _ _ _ _ _ inner got' kind'' got kind (Scope.endpoint_of_input tip')
      (Scope.endpoint_of_input tip)
    cases got.symm.trans got'
    cases kind.symm.trans kind''
    have nodup := (rimmed.nodup part node scope got kind).of_append_left
    obtain ⟨inside, -⟩ := List.getElem?_eq_some_iff.mp tip'
    cases (getElem?_inj inside nodup).mp (tip'.trans tip.symm)
    exact Option.mem_unique port' outer
  | outOf got' kind'' port' _ _ _ =>
    cases (eq got' (mem_of_getElem? port')).2
    cases kind'.symm.trans kind''

include rimmed in
/-- The only way into an inner output leads to the port of the flow part. -/
theorem Consistent.only_exit {port : OutputId} (outer : node.outputs[place]? = some port)
    (tip : scope.outputs[place]? = some inner) (outputs : record.outputs = [])
    (inputs : record.inputs = [entry]) (input : InputId) (out : OutputId)
    (hands : G.Hands input out) (own : input ∈ record.inputs ∨ out ∈ record.outputs) :
    input = entry ∧ out = port := by
  have kind' := (rimmed.exits part node scope got kind inner (mem_of_getElem? tip) record has).1
  rw [outputs] at own
  have enters := own.resolve_right not_mem_nil
  have eq : ∀ {other : NodeId} {record' : Node}, G.nodes[other]? = some record' →
      input ∈ record'.inputs → other = inner ∧ record' = record := by
    intro other record' got' enters'
    cases wf.input_unique got' enters' has enters
    exact ⟨rfl, Option.mem_unique got' has⟩
  refine ⟨by rwa [inputs, mem_singleton] at enters, ?_⟩
  cases hands with
  | through got' passes enters' _ =>
    cases (eq got' enters').2
    have pseudo := Node.isPseudo_of_isPassThrough passes
    rw [Node.isPseudo, kind'] at pseudo
    cases pseudo
  | into got' kind'' port' _ _ _ =>
    cases (eq got' (mem_of_getElem? port')).2
    cases kind'.symm.trans kind''
  | outOf got' kind'' port' tip' has' enters' =>
    cases (eq has' enters').1
    cases rimmed.apart _ _ _ _ _ _ inner got' kind'' got kind (Scope.endpoint_of_output tip')
      (Scope.endpoint_of_output tip)
    cases got.symm.trans got'
    cases kind.symm.trans kind''
    have nodup := (rimmed.nodup part node scope got kind).of_append_right
    obtain ⟨inside, -⟩ := List.getElem?_eq_some_iff.mp tip'
    cases (getElem?_inj inside nodup).mp (tip'.trans tip.symm)
    exact Option.mem_unique port' outer

variable (calm : boundary ≠ .shuffle)

include rimmed calm

/-- A seam can be put at an input port of a flow part. -/
theorem Rimmed.exists_inputSeam {port : InputId} (outer : node.inputs[place]? = some port)
    (tip : scope.inputs[place]? = some inner) (inputs : record.inputs = [])
    (outputs : record.outputs = [exit]) (open' : ¬ G.Precedes inner part) :
    ∃ made post, G.inputSeam node boundary port inner = .ok (⟨G.next⟩, post) ∧
      Seamed G inner record port exit made post ∧ made.isPassThrough ∧
      G.Conserves post := by
  have mem : inner ∈ scope.endpoints := Scope.endpoint_of_input tip
  have own : exit ∈ record.outputs := outputs ▸ mem_singleton_self exit
  have taken := wf.input_of_mem got (mem_of_getElem? outer)
  have given := wf.output_of_mem has own
  obtain ⟨made, post, run, rfl, seamed⟩ := wf.exists_inputSeam has taken outputs node boundary
  exact ⟨made, post, run, seamed, seamed.passes calm,
    seamed.conserves wf rimmed got kind has calm mem (.into got kind outer tip has own) taken given
      (.rel _ _ (.inr ⟨node, scope, got, kind, mem⟩))
      (wf.only_entry rimmed got kind has outer tip inputs outputs)
      (by simp [inputs]) (by simp [outputs])
      fun feeds => open' ⟨exit, port, given, taken, feeds⟩⟩

/-- A seam can be put at an output port of a flow part. -/
theorem Rimmed.exists_outputSeam {port : OutputId} (outer : node.outputs[place]? = some port)
    (tip : scope.outputs[place]? = some inner) (inputs : record.inputs = [entry])
    (outputs : record.outputs = []) (open' : ¬ G.Precedes part inner) :
    ∃ made post, G.outputSeam node boundary port inner = .ok (⟨G.next⟩, post) ∧
      Seamed G inner record entry port made post ∧ made.isPassThrough ∧
      G.Conserves post := by
  have mem : inner ∈ scope.endpoints := Scope.endpoint_of_output tip
  have own : entry ∈ record.inputs := inputs ▸ mem_singleton_self entry
  have given := wf.output_of_mem got (mem_of_getElem? outer)
  have taken := wf.input_of_mem has own
  obtain ⟨made, post, run, rfl, seamed⟩ := wf.exists_outputSeam has given inputs node boundary
  exact ⟨made, post, run, seamed, seamed.passes calm,
    seamed.conserves wf rimmed got kind has calm mem (.outOf got kind outer tip has own) taken given
      (EqvGen.rel _ _ (.inr ⟨node, scope, got, kind, mem⟩)).symm
      (wf.only_exit rimmed got kind has outer tip outputs inputs)
      (by simp [inputs]) (by simp [outputs])
      fun feeds => open' ⟨port, entry, given, taken, feeds⟩⟩

end Seams

end Graph

end Staging
