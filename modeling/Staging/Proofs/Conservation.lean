import Staging.Proofs.Rounds

/-! # Normalization conserves the flow of data

All passes of the normalization succeed on a built graph with isolated scopes and without
circuits. Nodes with logic of their own stay, with the threads between them, and no flow
part is left in the root scope. Nodes that only a flow part ties to the rest of the graph
are cut off with it. What hangs together with the endpoints of the graph by threads stays in
the root scope.
-/

namespace Staging

open Std Relation List

variable {id : NodeId}

namespace Graph

variable {G graph post : Graph} {home : Homes}

/-- All passes succeed and conserve threads. The loops over identities end with rounds that
change nothing, and the graph is in normal form then. -/
theorem Nested.exists_passes (nested : G.Nested home) (rimmed : G.Rimmed)
    (whole : G.Whole) (mode : FlowPartMode) : ∃ parts inlined effects effected shuffles
      shuffled inserted padded separated split removed reduced home',
      inlineScope mode.seam (G.nodes.size + 1) G G.root = .ok (parts, inlined) ∧
      inlined.checkpointGlobalEffects = .ok (effects, effected) ∧
      effected.pushDownShuffleCheckpoints = .ok (shuffles, shuffled) ∧
      shuffled.insertBoundaryIdentities = .ok (inserted, padded) ∧
      padded.splitIdentities = .ok (separated, split) ∧ split.splitRound = .ok (0, split) ∧
      split.reduceIdentities = .ok (removed, reduced) ∧ reduced.reduceRound = .ok (0, reduced) ∧
      G.normalize mode = .ok (⟨parts, effects + shuffles, inserted, separated, removed⟩, reduced) ∧
      G.Conserves reduced ∧ reduced.Done home' := by
  have trail : G.Trail home [] := by
    intro part rest within
    cases suffix_nil.mp within
  have deep : G.nodes.size < ([] : List NodeId).length + (G.nodes.size + 1) := by simp
  have calm : mode.seam ≠ .shuffle := by cases mode <;> exact nofun
  obtain ⟨parts, inlined, home₁, run₁, inlining, flat⟩ := nested.exists_inlineScope
    ⟨nested.root, fun _ => rfl, nofun⟩ (fun _ mem => nested.founded.exists_endpoint mem)
    rimmed whole trail (partsAtMost_size G) deep calm
  have tidy₁ : inlined.Tidy home₁ := ⟨inlining.nested, flat, rimmed.of_adds inlining.conserves.adds⟩
  obtain ⟨effects, effected, home₂, run₂, conserves₂, tidy₂, guarded⟩ :=
    tidy₁.exists_checkpointGlobalEffects
  obtain ⟨shuffles, shuffled, home₃, run₃, conserves₃, tidy₃, guarded', settled⟩ :=
    tidy₂.exists_pushDownShuffleCheckpoints guarded
  obtain ⟨inserted, padded, home₄, run₄, conserves₄, ready₄⟩ :=
    tidy₃.exists_insertBoundaryIdentities guarded' settled
  obtain ⟨separated, split, home₅, run₅, conserves₅, ready₅, slim⟩ := ready₄.exists_splitIdentities
  obtain ⟨removed, reduced, home₆, run₆, conserves₆, done⟩ := ready₅.exists_reduceIdentities slim
  refine ⟨parts, inlined, effects, effected, shuffles, shuffled, inserted, padded, separated, split,
    removed, reduced, home₆, run₁, run₂, run₃, run₄, run₅, ready₅.splitRound_eq slim, run₆,
    done.reduceRound_eq, ?_, ?_, done⟩
  · apply (bind_of_ok run₁).trans
    apply (bind_of_ok run₂).trans
    apply (bind_of_ok run₃).trans
    apply (bind_of_ok run₄).trans
    apply (bind_of_ok run₅).trans
    exact bind_of_ok run₆
  · exact inlining.conserves.trans (conserves₂.trans (conserves₃.trans
      (conserves₄.trans (conserves₅.trans conserves₆))))

theorem Nested.exists_normalize (nested : G.Nested home) (rimmed : G.Rimmed)
    (whole : G.Whole) (mode : FlowPartMode) : ∃ summary post home',
      G.normalize mode = .ok (summary, post) ∧ G.Conserves post ∧ post.Done home' := by
  obtain ⟨_, _, _, _, _, _, _, _, _, _, _, _, _, -, -, -, -, -, -, -, -, result⟩ :=
    nested.exists_passes rimmed whole mode
  exact ⟨_, _, _, result⟩

/-- Built graphs with isolated scopes and without circuits can be normalized. -/
theorem Built.exists_normalized (built : G.Built) (isolated : G.Isolated) (acyclic : G.Acyclic)
    (mode : FlowPartMode) : ∃ summary post home', G.normalize mode = .ok (summary, post) ∧
      G.Conserves post ∧ post.Done home' := by
  obtain ⟨rimmed, whole⟩ := built.rims
  exact (Nested.of_isolated built.founded isolated acyclic).exists_normalize rimmed whole mode

/-! ## What can be reached -/

/-- The node is in the root scope or in a scope that is nested in it. -/
def Reached (graph : Graph) (id : NodeId) : Prop :=
  ∃ path, graph.Within path id

/-- From nodes of isolated scopes no other scopes can be reached than those they are
nested in and those nested in theirs. -/
theorem Isolated.reached_iff (isolated : G.Isolated) {first second : NodeId}
    (joined : G.Joined first second) : G.Reached first ↔ G.Reached second := by
  induction joined with
  | rel first second adjoins =>
    rcases adjoins with touches | ⟨node, scope, got, kind, mem⟩
    · constructor
      · rintro ⟨path, within⟩
        exact ⟨path, within.touch touches⟩
      · rintro ⟨path, within⟩
        exact ⟨path, within.touch touches.symm⟩
    · constructor
      · rintro ⟨path, within⟩
        exact ⟨first :: path, .part within got kind mem .refl⟩
      · -- the scope of an endpoint is the one that its flow part has
        rintro ⟨path, within⟩
        have owner := isolated second _ _ within.inside ⟨scope, .part got kind, second, mem, .refl⟩
        cases within with
        | root => cases owner
        | part within =>
          cases owner
          exact ⟨_, within⟩
  | refl id => rfl
  | symm _ _ _ ih => exact ih.symm
  | trans _ _ _ _ _ ih ih' => exact ih.trans ih'

/-- Without flow parts in the root scope nothing is nested in it. -/
theorem Normal.member_of_within (normal : G.Normal) {path : List NodeId}
    (within : G.Within path id) : G.Member id := by
  induction within with
  | root mem led => exact ⟨_, mem, led⟩
  | part _ got kind _ _ has => exact (normal.flat _ _ has got _ kind).elim

/-- All that can be reached in a normal graph is in the root scope. -/
theorem Normal.reached_iff (normal : G.Normal) : G.Reached id ↔ G.Member id := by
  refine ⟨fun ⟨_, within⟩ => normal.member_of_within within, ?_⟩
  rintro ⟨tip, mem, led⟩
  exact ⟨[], .root mem led⟩

/-- The node can be reached from the root scope, is no flow part, no endpoint of one and
does not only pass data on. -/
def Operative (graph : Graph) (id : NodeId) : Prop :=
  graph.Reached id ∧ graph.Lasting id

/-- The output port belongs to an operative node. -/
def Emits (graph : Graph) (out : OutputId) : Prop :=
  ∃ id node, graph.Operative id ∧ graph.nodes[id]? = some node ∧ out ∈ node.outputs

/-- The input port belongs to an operative node. -/
def Absorbs (graph : Graph) (input : InputId) : Prop :=
  ∃ id node, graph.Operative id ∧ graph.nodes[id]? = some node ∧ input ∈ node.inputs

/-- What can be reached after a change could be reached before. -/
theorem Conserves.reached (conserves : G.Conserves post) (founded : G.Founded)
    (isolated : G.Isolated) (early : id.raw < G.next) (reached : post.Reached id) :
    G.Reached id := by
  obtain ⟨path, within⟩ := reached
  obtain ⟨tip, mem, led⟩ := within.adjoins
  rw [conserves.root] at mem
  obtain ⟨node, got⟩ := founded.exists_endpoint mem
  have joined := conserves.joins tip id (founded.wf.early got)
    early (EqvGen.reflTransGen_le_eqvGen _ _ _ led)
  exact (isolated.reached_iff joined).mp ⟨[], .root mem .refl⟩

/-- An operative node is not new, and was no endpoint of a flow part. -/
theorem Conserves.operative (conserves : G.Conserves post) (founded : G.Founded)
    (rimmed : G.Rimmed) (isolated : G.Isolated) (operative : post.Operative id) :
    G.Operative id := by
  obtain ⟨reached, node, got, logic, plain, outer⟩ := operative
  obtain old | ⟨-, passes⟩ := conserves.adds.2 id node got
  · have early := founded.wf.early old
    refine ⟨conserves.reached founded isolated early reached, node, old, logic, plain, ?_⟩
    intro part record scope got' kind mem
    have got'' := conserves.rims part id record node scope got' kind mem
      (rimmed.bounded part record scope got' kind id mem) got
    exact outer part record scope got'' kind mem
  · rw [logic] at passes
    cases passes

/-! ## What hangs together by threads -/

/-- The ports belong to the nodes, and data gets from the one to the other. -/
def Leads (graph : Graph) (first second : NodeId) (output : OutputId) (input : InputId) : Prop :=
  (∃ node, graph.nodes[first]? = some node ∧ output ∈ node.outputs) ∧
    (∃ node, graph.nodes[second]? = some node ∧ input ∈ node.inputs) ∧ graph.Threads output input

/-- Data gets from one operative node to another one. -/
def Ties (graph : Graph) (first second : NodeId) : Prop :=
  graph.Operative first ∧ graph.Operative second ∧
    ∃ output input, graph.Leads first second output input

/-- The node hangs together with an endpoint of the whole graph by threads. -/
def Woven (graph : Graph) (id : NodeId) : Prop :=
  ∃ tip ∈ graph.root.endpoints, EqvGen graph.Ties tip id

/-- Endpoints of the whole graph are no endpoints of flow parts. -/
theorem Isolated.lasting_of_endpoint (isolated : G.Isolated) (founded : G.Founded)
    (mem : id ∈ G.root.endpoints) : G.Lasting id := by
  have outer : ∀ (part : NodeId) record scope, G.nodes[part]? = some record →
      record.kind = .flowPart scope → id ∉ scope.endpoints := by
    intro part record scope got kind inner
    cases isolated id _ _ ⟨G.root, .root, id, mem, .refl⟩ ⟨scope, .part got kind, id, inner, .refl⟩
  rcases mem_append.mp mem with entry | exit
  · obtain ⟨node, got, kind, -⟩ := founded.inputs id entry
    exact ⟨node, got, by simp [Node.isPassThrough, Node.isPseudo, kind], by simp [kind], outer⟩
  · obtain ⟨node, got, kind, -⟩ := founded.outputs id exit
    exact ⟨node, got, by simp [Node.isPassThrough, Node.isPseudo, kind], by simp [kind], outer⟩

/-- Threads leave the root scope of a tidy graph nowhere, and enter it nowhere. -/
theorem Tidy.member_iff_of_leads (tidy : G.Tidy home) {first second : NodeId} {output : OutputId}
    {input : InputId} (leads : G.Leads first second output input) :
    G.Member first ↔ G.Member second := by
  obtain ⟨⟨node, got, leaves⟩, ⟨node', got', enters⟩, threads⟩ := leads
  have wf := tidy.wf
  have near : ∀ {one two : NodeId} {out : OutputId} {port : InputId} {record record' : Node},
      G.nodes[one]? = some record → out ∈ record.outputs → G.nodes[two]? = some record' →
      port ∈ record'.inputs → G.Feeds out port → (G.Member one ↔ G.Member two) := by
    intro one two out port record record' has mem has' mem' feeds
    have prec : G.Precedes one two :=
      ⟨out, port, wf.output_of_mem has mem, wf.input_of_mem has' mem', feeds⟩
    exact ⟨fun member => member.next prec, fun member => member.prev prec⟩
  have outer : ∀ {part : NodeId} {record : Node} {scope : Scope}, G.nodes[part]? = some record →
      record.kind = .flowPart scope → ¬ G.Member part := fun has kind member =>
    tidy.flat _ _ _ has kind (tidy.home_of_member member)
  have inner : ∀ {part tip : NodeId} {record : Node} {scope : Scope},
      G.nodes[part]? = some record → record.kind = .flowPart scope → tip ∈ scope.endpoints →
      ¬ G.Member tip := by
    intro part tip record scope has kind mem member
    cases tidy.nested.rims _ _ _ _ _ has kind mem (tidy.home_of_member member)
  induction threads generalizing first node with
  | direct feeds => exact near got leaves got' enters feeds
  | on feeds hands _ ih =>
    cases hands with
    | through has passes enters' leaves' =>
      exact (near got leaves has enters' feeds).trans (ih _ has leaves' enters)
    | into has kind port tip has' leaves' =>
      have beyond := ih _ has' leaves' enters
      have apart := near got leaves has (mem_of_getElem? port) feeds
      simp only [outer has kind, inner has kind (Scope.endpoint_of_input tip)] at beyond apart
      exact apart.trans beyond
    | outOf has kind port tip has' enters' =>
      have beyond := ih _ has (mem_of_getElem? port) enters
      have apart := near got leaves has' enters' feeds
      simp only [outer has kind, inner has kind (Scope.endpoint_of_output tip)] at beyond apart
      exact apart.trans beyond

namespace Conserves

variable (conserves : G.Conserves post)

include conserves

/-- Between nodes with logic of their own data gets where it got before. -/
theorem leads_iff {first second : NodeId} {output : OutputId} {input : InputId}
    (lasting : G.Lasting first) (lasting' : G.Lasting second) :
    post.Leads first second output input ↔ G.Leads first second output input := by
  rw [Leads, Leads, conserves.lasting first lasting, conserves.lasting second lasting']
  refine and_congr_right fun ⟨node, got, mem⟩ => and_congr_right fun ⟨node', got', mem'⟩ => ?_
  exact conserves.threads output input ⟨first, node, lasting, got, mem⟩
    ⟨second, node', lasting', got', mem'⟩

/-- What hangs together by threads after a change did so before. -/
theorem woven_of_post (founded : G.Founded) (rimmed : G.Rimmed) (isolated : G.Isolated)
    (woven : post.Woven id) : G.Woven id := by
  obtain ⟨tip, mem, tied⟩ := woven
  rw [conserves.root] at mem
  refine ⟨tip, mem, EqvGen.mono ?_ _ _ tied⟩
  rintro first second ⟨operative, operative', output, input, leads⟩
  have before := conserves.operative founded rimmed isolated operative
  have before' := conserves.operative founded rimmed isolated operative'
  exact ⟨before, before', output, input, (conserves.leads_iff before.2 before'.2).mp leads⟩

/-- Of two nodes that data gets between, both are in the root scope in the end or none is. -/
theorem operative_iff_of_ties (tidy : post.Tidy home) (normal : post.Normal)
    {first second : NodeId} (tied : G.Ties first second) :
    (post.Operative first ↔ post.Operative second) ∧
      (post.Operative first → post.Ties first second) := by
  obtain ⟨⟨-, lasting⟩, ⟨-, lasting'⟩, output, input, leads⟩ := tied
  have leads' := (conserves.leads_iff lasting lasting').mpr leads
  have reached_iff : post.Reached first ↔ post.Reached second := by
    rw [normal.reached_iff, normal.reached_iff]
    exact tidy.member_iff_of_leads leads'
  have kept := conserves.lasting_mono lasting
  have kept' := conserves.lasting_mono lasting'
  refine ⟨⟨fun ⟨reached, _⟩ => ⟨reached_iff.mp reached, kept'⟩,
    fun ⟨reached, _⟩ => ⟨reached_iff.mpr reached, kept⟩⟩, fun ⟨reached, _⟩ => ?_⟩
  exact ⟨⟨reached, kept⟩, ⟨reached_iff.mp reached, kept'⟩, output, input, leads'⟩

/-- What hangs together with the endpoints by threads still does so. -/
theorem woven_of_pre (founded : G.Founded) (isolated : G.Isolated) (tidy : post.Tidy home)
    (normal : post.Normal) (woven : G.Woven id) : post.Operative id ∧ post.Woven id := by
  obtain ⟨tip, mem, tied⟩ := woven
  have mem' : tip ∈ post.root.endpoints := conserves.root ▸ mem
  have operative : post.Operative tip := ⟨⟨[], .root mem' .refl⟩,
    conserves.lasting_mono (isolated.lasting_of_endpoint founded mem)⟩
  have run : ∀ {first second}, EqvGen G.Ties first second →
      (post.Operative first ↔ post.Operative second) ∧
        (post.Operative first → EqvGen post.Ties first second) := by
    intro first second tied
    induction tied with
    | rel first second tied =>
      obtain ⟨both, ties⟩ := conserves.operative_iff_of_ties tidy normal tied
      exact ⟨both, fun operative => .rel _ _ (ties operative)⟩
    | refl id => exact ⟨.rfl, fun _ => .refl id⟩
    | symm _ _ _ ih => exact ⟨ih.1.symm, fun operative => (ih.2 (ih.1.mpr operative)).symm⟩
    | trans _ _ _ _ _ ih ih' =>
      exact ⟨ih.1.trans ih'.1,
        fun operative => (ih.2 operative).trans _ _ _ (ih'.2 (ih.1.mp operative))⟩
  obtain ⟨both, ties⟩ := run tied
  exact ⟨both.mp operative, tip, mem', ties operative⟩

end Conserves

/-- Normalization succeeds. The operative nodes stay what they are and keep their threads, and
no flow part can be reached any more. What hangs together with the endpoints by threads is still
operative, and data gets to and from it as before. -/
theorem normalize_conserves_threads (built : graph.Built) (isolated : graph.Isolated)
    (acyclic : graph.Acyclic) (mode : FlowPartMode) :
    ∃ summary after, graph.normalize mode = .ok (summary, after) ∧
      (∀ id, graph.Operative id → after.nodes[id]? = graph.nodes[id]? ∧ after.Lasting id) ∧
      (∀ output input, graph.Emits output → graph.Absorbs input →
        (after.Threads output input ↔ graph.Threads output input)) ∧
      (∀ id, after.Operative id → graph.Operative id) ∧
      (∀ id, graph.Woven id → after.Operative id) ∧ (∀ id, after.Woven id ↔ graph.Woven id) ∧
      (∀ first second output input,
        after.Woven first ∧ after.Woven second ∧ after.Leads first second output input ↔
          graph.Woven first ∧ graph.Woven second ∧ graph.Leads first second output input) ∧
      ∀ (id : NodeId) (node : Node) (scope : Scope), after.Reached id →
        after.nodes[id]? = some node → node.kind ≠ .flowPart scope := by
  have founded := built.founded
  have rimmed := built.rims.1
  obtain ⟨summary, after, _, run, conserves, done⟩ := built.exists_normalized isolated acyclic mode
  have normal := done.normal
  have woven : ∀ {id}, graph.Woven id → after.Operative id ∧ after.Woven id :=
    conserves.woven_of_pre founded isolated done.tidy normal
  have woven_iff : ∀ id, after.Woven id ↔ graph.Woven id := fun id =>
    ⟨conserves.woven_of_post founded rimmed isolated, fun before => (woven before).2⟩
  refine ⟨summary, after, run, ?_, ?_, ?_, fun id before => (woven before).1, woven_iff, ?_, ?_⟩
  · rintro id ⟨-, lasting⟩
    exact ⟨conserves.lasting id lasting, conserves.lasting_mono lasting⟩
  · rintro output input ⟨source, node, ⟨-, lasting⟩, found, mem⟩
      ⟨target, node', ⟨-, lasting'⟩, found', mem'⟩
    exact conserves.threads output input ⟨source, node, lasting, found, mem⟩
      ⟨target, node', lasting', found', mem'⟩
  · intro id operative
    exact conserves.operative founded rimmed isolated operative
  · intro first second output input
    rw [woven_iff, woven_iff]
    refine and_congr_right fun before => and_congr_right fun before' => ?_
    exact conserves.leads_iff
      (conserves.operative founded rimmed isolated (woven before).1).2
      (conserves.operative founded rimmed isolated (woven before').1).2
  · rintro id node scope ⟨path, within⟩ found
    exact normal.flat id node (normal.member_of_within within) found scope

/-! ## Checks for graphs with nested scopes -/

/-- All flow parts of the graph, with their scopes. -/
def parts (graph : Graph) : List (NodeId × Scope) :=
  graph.nodes.toList.filterMap fun (id, node) =>
    match node.kind with
    | .flowPart scope => some (id, scope)
    | _ => none

theorem mem_parts {part : NodeId} {node : Node} {scope : Scope}
    (got : G.nodes[part]? = some node) (kind : node.kind = .flowPart scope) :
    (part, scope) ∈ G.parts := by
  apply mem_filterMap.mpr
  refine ⟨(part, node), (HandleMap.mem_toList_iff _).mpr got, ?_⟩
  simp only [kind]

/-- Labels tell the scopes of the graph apart. -/
def isLabelled (graph : Graph) (label : NodeId → Option NodeId) : Bool :=
  graph.root.endpoints.all (fun id => label id == none) &&
    graph.parts.all (fun (part, scope) => scope.endpoints.all fun id => label id == some part) &&
    graph.nodes.toList.all fun (id, _) =>
      (graph.successors id).toList.all fun next => label id == label next

theorem Consistent.isolated_of_isLabelled (wf : G.Consistent)
    (label : NodeId → Option NodeId) (labelled : G.isLabelled label) :
    G.Isolated := by
  simp only [isLabelled, Bool.and_eq_true, all_eq_true, beq_iff_eq, Prod.forall] at labelled
  obtain ⟨⟨root, inner⟩, joined⟩ := labelled
  have prec : ∀ {first second}, G.Precedes first second → label first = label second := by
    intro first second prec
    obtain ⟨node, got⟩ := wf.precedes_left prec
    exact joined first node ((HandleMap.mem_toList_iff _).mpr got) second
      (ExtTreeSet.mem_toList.mpr (wf.mem_successors.mpr prec))
  have inside : ∀ {owner : Option NodeId} {id : NodeId}, G.Inside owner id → label id = owner := by
    rintro owner id ⟨scope, has, tip, mem, led⟩
    induction led with
    | refl =>
      cases has with
      | root => exact root tip mem
      | part got kind => exact inner _ scope (mem_parts got kind) tip mem
    | tail _ touches ih => exact (touches.elim (fun ahead => (prec ahead).symm) prec).trans ih
  intro id first second one two
  exact (inside one).symm.trans (inside two)

/-- The node is no flow part, no endpoint of one and does not only pass data on. -/
def lasts (graph : Graph) (id : NodeId) : Bool :=
  graph.nodes[id]?.any (fun node => !node.isPassThrough) &&
    graph.parts.all fun (part, scope) => part != id && !scope.endpoints.contains id

theorem lasting_of_lasts (lasts : G.lasts id) : G.Lasting id := by
  simp only [Graph.lasts, Bool.and_eq_true, Option.any_eq_true, Bool.not_eq_true', all_eq_true,
    Prod.forall, bne_iff_ne, contains_eq_mem, decide_eq_false_iff_not] at lasts
  obtain ⟨⟨node, got, logic⟩, outer⟩ := lasts
  refine ⟨node, got, logic, fun scope kind => ?_, fun part record scope got' kind => ?_⟩
  · exact (outer id scope (mem_parts got kind)).1 rfl
  · exact (outer part scope (mem_parts got' kind)).2

/-- A declaration with one port on each side. -/
def wire (name : String) (kind : Kind) (boundary : Boundary) : NodeDecl :=
  { name, kind, boundary, inputs := [{ name := "in", dataType := ⟨"T"⟩ }],
    outputs := [{ name := "out", dataType := ⟨"T"⟩ }] }

/-- Draws a graph with one input and one output, the other nodes that are declared and
connections between the first ports of nodes. -/
def drawNested (decls : List NodeDecl) (pairs : List (NodeId × NodeId)) :
    Except BuildError Graph := do
  let (_, graph) := addInput {} "a" ⟨"T"⟩
  let (_, graph) := graph.addOutput "b" ⟨"T"⟩
  let graph ← decls.foldlM (fun graph decl => do
    let (_, graph) ← match decl.kind with
      | .flowPart _ => graph.addFlowPart decl
      | _ => graph.addNode decl
    return graph) graph
  pairs.foldlM (fun graph (source, target) => graph.connectNodes source 0 target 0) graph

theorem built_of_drawNested {decls : List NodeDecl} {pairs : List (NodeId × NodeId)}
    (drawn : drawNested decls pairs = .ok G) : G.Built := by
  have start : ((addInput {} "a" ⟨"T"⟩).2.addOutput "b" ⟨"T"⟩).2.Built :=
    .addOutput _ _ (.addInput _ _ .empty)
  obtain ⟨grown, added, drawn⟩ := of_bind drawn
  have built : grown.Built := by
    refine foldlM_carries (fun _ now => now.Built) ?_ start added
    intro decl _ now next built step
    dsimp only at step
    split at step
    · obtain ⟨⟨_, _⟩, run, ⟨⟩⟩ := of_bind step
      exact built.addFlowPart run
    · obtain ⟨⟨_, _⟩, run, ⟨⟩⟩ := of_bind step
      exact built.addNode run
  refine foldlM_carries (fun _ now => now.Built) ?_ built drawn
  rintro ⟨source, target⟩ _ now joined built connected
  exact built.connectNodes connected

theorem built_drawNested {decls : List NodeDecl} {pairs : List (NodeId × NodeId)}
    (drawn : (drawNested decls pairs).toOption.isSome) :
    ((drawNested decls pairs).toOption.getD {}).Built := by
  cases eq : drawNested decls pairs with
  | ok G => exact built_of_drawNested eq
  | error reason =>
    rw [eq] at drawn
    cases drawn

/-- Draws an operator in a flow part that is fed through a checkpoint, with more nodes and
connections. -/
def drawSealed (decls : List NodeDecl) (pairs : List (NodeId × NodeId)) :
    Except BuildError Graph :=
  drawNested (wire "c" (.pseudo .checkpoint) .stage :: wire "p" (.flowPart {}) .none ::
      wire "x" (.operator .map) .none :: decls)
    ((⟨0⟩, ⟨4⟩) :: (⟨4⟩, ⟨11⟩) :: (⟨11⟩, ⟨2⟩) :: (⟨7⟩, ⟨14⟩) :: (⟨14⟩, ⟨9⟩) :: pairs)

/-- An operator in a flow part that is fed through a checkpoint. -/
def sealed : Graph :=
  (drawSealed [] []).toOption.getD {}

/-- The graph is built, its scopes are isolated and nothing is wrong with them. -/
private theorem checks_sealed : (drawSealed [] []).toOption.isSome ∧
    (sealed.isLabelled fun id => if id ∈ [⟨7⟩, ⟨9⟩, ⟨14⟩] then some ⟨11⟩ else none) ∧
    (sealed.scopes.toOption.any fun scopes =>
      (scopes.flatMap sealed.scopeProblems).isEmpty) ∧
    ⟨0⟩ ∈ sealed.root.endpoints ∧ sealed.lasts ⟨0⟩ ∧ sealed.lasts ⟨14⟩ := by
  decide +kernel

/-- Its nodes, and what they are connected with. -/
private theorem shape_sealed :
    ((sealed.nodes[(⟨0⟩ : NodeId)]?.any fun node => node.outputs.contains ⟨1⟩) ∧
      (sealed.nodes[(⟨14⟩ : NodeId)]?.any fun node => node.inputs.contains ⟨15⟩) ∧
      (sealed.nodes[(⟨4⟩ : NodeId)]?.any fun node => node.isPassThrough &&
        node.inputs.contains ⟨5⟩ && node.outputs.contains ⟨6⟩) ∧
      (sealed.nodes[(⟨7⟩ : NodeId)]?.any fun node => node.outputs.contains ⟨8⟩) ∧
      (sealed.nodes[(⟨11⟩ : NodeId)]?.any fun node =>
        node.kind = .flowPart ⟨[⟨7⟩], [⟨9⟩]⟩ ∧ node.inputs = [⟨12⟩])) ∧
    (⟨4⟩ ∈ sealed.successors ⟨0⟩ ∧ ⟨11⟩ ∈ sealed.successors ⟨4⟩ ∧ ⟨14⟩ ∈ sealed.successors ⟨7⟩) ∧
    ⟨5⟩ ∈ sealed.targets ⟨1⟩ ∧ ⟨12⟩ ∈ sealed.targets ⟨6⟩ ∧ ⟨15⟩ ∈ sealed.targets ⟨8⟩ := by
  decide +kernel

theorem built_sealed : sealed.Built := built_drawNested checks_sealed.1

theorem isolated_sealed : sealed.Isolated :=
  built_sealed.founded.wf.isolated_of_isLabelled _ checks_sealed.2.1

theorem acyclic_sealed : sealed.Acyclic := by
  obtain ⟨scopes, run, none⟩ := any_toOption.mp checks_sealed.2.2.1
  exact built_sealed.founded.acyclic run (isEmpty_iff.mp none)

/-- The flow part, and the operator in it. -/
theorem parts_sealed : ∃ node, sealed.nodes[(⟨11⟩ : NodeId)]? = some node ∧
    node.kind = .flowPart ⟨[⟨7⟩], [⟨9⟩]⟩ ∧ node.inputs = [⟨12⟩] := by
  obtain ⟨⟨-, -, -, -, part⟩, -⟩ := shape_sealed
  simpa only [Option.any_eq_true, decide_eq_true_eq] using part

theorem within_sealed : sealed.Within [] ⟨11⟩ := by
  have wf := built_sealed.founded.wf
  obtain ⟨-, -, -, entry, -⟩ := checks_sealed
  obtain ⟨-, ⟨ahead, ahead', -⟩, -⟩ := shape_sealed
  exact .root entry ((ReflTransGen.single (.inl (wf.mem_successors.mp ahead))).tail
    (.inl (wf.mem_successors.mp ahead')))

theorem operative_sealed : sealed.Operative ⟨0⟩ ∧ sealed.Operative ⟨14⟩ := by
  obtain ⟨-, -, -, entry, lasts, lasts'⟩ := checks_sealed
  obtain ⟨-, ⟨-, -, inside⟩, -⟩ := shape_sealed
  obtain ⟨part, has, kind, -⟩ := parts_sealed
  have inner : sealed.Within [⟨11⟩] ⟨14⟩ := .part within_sealed has kind (.head _)
    (.single (.inl (built_sealed.founded.wf.mem_successors.mp inside)))
  exact ⟨⟨⟨[], .root entry .refl⟩, lasting_of_lasts lasts⟩, ⟨_, inner⟩, lasting_of_lasts lasts'⟩

/-- Data gets through the checkpoint and into the flow part. -/
theorem leads_sealed : sealed.Leads ⟨0⟩ ⟨14⟩ ⟨1⟩ ⟨15⟩ := by
  obtain ⟨⟨start, step, point, entry, -⟩, -, feeds, feeds', feeds''⟩ := shape_sealed
  simp only [Option.any_eq_true, Bool.and_eq_true, contains_iff_mem] at start step point entry
  obtain ⟨through, got, ⟨passes, enters⟩, leaves⟩ := point
  obtain ⟨inner, got', leaves'⟩ := entry
  obtain ⟨part, has, kind, inputs⟩ := parts_sealed
  have outer : part.inputs[0]? = some ⟨12⟩ := by
    rw [inputs]
    rfl
  have hands : sealed.Hands ⟨5⟩ ⟨6⟩ := .through got passes enters leaves
  have hands' : sealed.Hands ⟨12⟩ ⟨8⟩ := .into has kind outer rfl got' leaves'
  exact ⟨start, step, .on feeds hands (.on feeds' hands' (.direct feeds''))⟩

/-- An operator of a flow part is still fed when the flow part is gone. -/
theorem normalize_conserves_threads_sealed : sealed.Built ∧ sealed.Isolated ∧ sealed.Acyclic ∧
    ∃ summary after, sealed.normalize .segregate = .ok (summary, after) ∧
      sealed.Threads ⟨1⟩ ⟨15⟩ ∧ after.Threads ⟨1⟩ ⟨15⟩ ∧
      sealed.Woven ⟨14⟩ ∧ after.Operative ⟨14⟩ ∧
      ∀ (id : NodeId) (node : Node) (scope : Scope), after.Reached id →
        after.nodes[id]? = some node → node.kind ≠ .flowPart scope := by
  obtain ⟨summary, after, run, -, threads, -, woven, -, -, partless⟩ :=
    normalize_conserves_threads built_sealed isolated_sealed acyclic_sealed .segregate
  obtain ⟨operative, operative'⟩ := operative_sealed
  have tied : sealed.Woven ⟨14⟩ := ⟨⟨0⟩, checks_sealed.2.2.2.1,
    .rel _ _ ⟨operative, operative', _, _, leads_sealed⟩⟩
  obtain ⟨⟨start, got, leaves⟩, ⟨step, got', enters⟩, before⟩ := leads_sealed
  have after' := (threads ⟨1⟩ ⟨15⟩ ⟨_, start, operative, got, leaves⟩
    ⟨_, step, operative', got', enters⟩).mpr before
  exact ⟨built_sealed, isolated_sealed, acyclic_sealed, summary, after, run, before, after', tied,
    woven ⟨14⟩ tied, partless⟩

/-! ## A flow part that is the only tie -/

/-- Draws a flow part that takes data nowhere, while data that an operator in it makes gets
out of it. -/
def drawSevered : Except BuildError Graph :=
  drawNested [wire "part" (.flowPart {}) .none,
      { wire "src" (.operator .map) .none with inputs := [] },
      { wire "m" (.operator .map) .none with outputs := [] },
      { wire "n" (.operator .map) .none with outputs := [], observation := .exactlyOnce }]
    [(⟨0⟩, ⟨8⟩), (⟨8⟩, ⟨15⟩), (⟨0⟩, ⟨2⟩), (⟨4⟩, ⟨13⟩), (⟨11⟩, ⟨6⟩)]

/-- A flow part that takes data nowhere, while data that an operator in it makes gets out of
it. -/
def severed : Graph :=
  drawSevered.toOption.getD {}

private theorem checks_severed : drawSevered.toOption.isSome ∧
    (severed.isLabelled fun id => if id ∈ [⟨4⟩, ⟨6⟩, ⟨11⟩, ⟨13⟩] then some ⟨8⟩ else none) ∧
    (severed.scopes.toOption.any fun scopes =>
      (scopes.flatMap severed.scopeProblems).isEmpty) ∧
    ⟨0⟩ ∈ severed.root.endpoints ∧ severed.lasts ⟨11⟩ ∧ severed.lasts ⟨15⟩ := by
  decide +kernel

private theorem shape_severed :
    ((severed.nodes[(⟨11⟩ : NodeId)]?.any fun node => node.outputs.contains ⟨12⟩) ∧
      (severed.nodes[(⟨15⟩ : NodeId)]?.any fun node => node.inputs.contains ⟨16⟩) ∧
      (severed.nodes[(⟨6⟩ : NodeId)]?.any fun node => node.inputs.contains ⟨7⟩) ∧
      (severed.nodes[(⟨8⟩ : NodeId)]?.any fun node =>
        node.kind = .flowPart ⟨[⟨4⟩], [⟨6⟩]⟩ ∧ node.outputs = [⟨10⟩])) ∧
    (⟨8⟩ ∈ severed.successors ⟨0⟩ ∧ ⟨15⟩ ∈ severed.successors ⟨8⟩ ∧ ⟨6⟩ ∈ severed.successors ⟨11⟩) ∧
    ⟨7⟩ ∈ severed.targets ⟨12⟩ ∧ ⟨16⟩ ∈ severed.targets ⟨10⟩ := by
  decide +kernel

/-- Neither node that the thread is between is left in the root scope. -/
private theorem cut_severed (mode : FlowPartMode) :
    (severed.normalize mode).toOption.any fun (_, after) =>
      after.rootMembers.toOption.any fun members => ⟨11⟩ ∉ members ∧ ⟨15⟩ ∉ members := by
  cases mode <;> decide +kernel

/-- Data that an operator in a flow part makes for an operator outside is lost with the flow
part, if nothing else ties the two to the endpoints of the graph. -/
theorem normalize_cuts_off_threads : severed.Built ∧ severed.Isolated ∧ severed.Acyclic ∧
    severed.Operative ⟨11⟩ ∧ severed.Operative ⟨15⟩ ∧ severed.Leads ⟨11⟩ ⟨15⟩ ⟨12⟩ ⟨16⟩ ∧
    ∀ mode, ∃ summary after, severed.normalize mode = .ok (summary, after) ∧
      ¬ after.Operative ⟨11⟩ ∧ ¬ after.Operative ⟨15⟩ := by
  obtain ⟨drawn, labelled, sound, entry, lasts, lasts'⟩ := checks_severed
  obtain ⟨⟨source, target, tip, part⟩, ⟨ahead, ahead', inside⟩, feeds, feeds'⟩ := shape_severed
  simp only [Option.any_eq_true, contains_iff_mem, decide_eq_true_eq] at source target tip part
  obtain ⟨inner, has, enters⟩ := tip
  obtain ⟨record, has', kind, outputs⟩ := part
  have built : severed.Built := built_drawNested drawn
  have wf := built.founded.wf
  have isolated := wf.isolated_of_isLabelled _ labelled
  have acyclic : severed.Acyclic := by
    obtain ⟨scopes, run, none⟩ := any_toOption.mp sound
    exact built.founded.acyclic run (isEmpty_iff.mp none)
  have within : severed.Within [] ⟨8⟩ := .root entry (.single (.inl (wf.mem_successors.mp ahead)))
  have within' : severed.Within [⟨8⟩] ⟨11⟩ := .part within has' kind (.tail _ (.head _))
    (.single (.inr (wf.mem_successors.mp inside)))
  have outer : record.outputs[0]? = some ⟨10⟩ := by
    rw [outputs]
    rfl
  have hands : severed.Hands ⟨7⟩ ⟨10⟩ := .outOf has' kind outer rfl has enters
  refine ⟨built, isolated, acyclic, ⟨⟨_, within'⟩, lasting_of_lasts lasts⟩,
    ⟨⟨_, within.touch (.inl (wf.mem_successors.mp ahead'))⟩, lasting_of_lasts lasts'⟩,
    ⟨source, target, .on feeds hands (.direct feeds')⟩, fun mode => ?_⟩
  obtain ⟨summary, after, _, run, -, done⟩ := built.exists_normalized isolated acyclic mode
  obtain ⟨⟨_, _⟩, run', checked⟩ := any_toOption.mp (cut_severed mode)
  cases run.symm.trans run'
  obtain ⟨members, collected, cut⟩ := any_toOption.mp checked
  obtain ⟨_, collected', mem_members⟩ := done.normal.rootMembers_eq_ok
  cases collected.symm.trans collected'
  have left : ∀ {id}, after.Operative id → id ∈ members := fun ⟨⟨_, within⟩, _⟩ =>
    (mem_members _).mpr (done.normal.member_of_within within)
  obtain ⟨one, two⟩ := of_decide_eq_true cut
  exact ⟨summary, after, run, fun operative => one (left operative),
    fun operative => two (left operative)⟩

end Graph

end Staging
