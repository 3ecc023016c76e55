import Staging.Proofs.Guarding
import Staging.Proofs.Inlining

/-! # Checkpoints and identities on connections

Normalization first inlines all flow parts. Each of the passes that follow succeeds,
conserves threads, establishes one property of normal graphs and keeps those of the passes
before it: that nodes which run at most once feed checkpoints, that shuffles end in
checkpoints, and that stage boundaries do not feed boundaries directly. The search for the
place of a checkpoint behind a shuffle stops at the stage boundaries that have been inserted
meanwhile.
-/

namespace Staging

open Std Relation List ExtTreeSet

variable {home' home'' : Homes} {sort : Node → Prop} {second taker : NodeId}
  {levels limit : Nat} {rank : NodeId → Nat} {id owner first next other : NodeId} {node : Node}
  {out : OutputId} {input : InputId} {count : Nat}

namespace Graph

variable {G pre post : Graph} {home : Homes}

/-! ## Boundaries -/

/-- A stage boundary is no shuffle. -/
theorem Founded.unmixed (founded : G.Founded) (stage : G.isStageBoundary id) :
    G.isShuffleBoundary id = false := by
  rw [isStageBoundary] at stage
  rw [isShuffleBoundary]
  cases got : G.nodes[id]? with
  | none => rfl
  | some node =>
    rw [got, Option.any_some, Node.isStageBoundary] at stage
    simp only [Bool.or_eq_true, beq_iff_eq] at stage
    rw [Option.any_some, Node.isShuffleBoundary]
    rcases stage with (stage | kind) | kind
    · rw [stage]
      rfl
    · rw [founded.plain id node got (.inl kind)]
      rfl
    · rw [founded.plain id node got (.inr kind)]
      rfl

theorem isCalm_of_isStageBoundary (stage : G.isStageBoundary id) :
    G.isCalm id := by
  rw [isStageBoundary, Option.any_eq_true] at stage
  obtain ⟨node, got, stage⟩ := stage
  rw [isCalm, got, Option.any_some, stage, Bool.true_or]

/-- What runs at most once and does not end a stage is no identity. -/
theorem isBinding_of_isGuarded (guarded : G.isGuarded id) :
    G.isBinding id ∧ G.isStageBoundary id = false := by
  rw [isGuarded, Option.any_eq_true] at guarded
  obtain ⟨node, got, guarded⟩ := guarded
  simp only [Bool.and_eq_true, Bool.not_eq_true'] at guarded
  have plain : node.isIdentity = false := by
    by_contra identity
    have pseudo := Node.isPseudo_of_isIdentity (Bool.eq_true_of_not_eq_false identity)
    rw [Node.isPseudo] at pseudo
    split at pseudo
    · next kind => simp [Node.isOperator, kind] at guarded
    · cases pseudo
  rw [isBinding, isStageBoundary, got, Option.any_some, Option.any_some, Node.isBinding,
    guarded.1.2, plain, guarded.2]
  exact ⟨rfl, rfl⟩

/-! ## Graphs without flow parts -/

/-- The root scope has homes and no flow parts. -/
structure Tidy (graph : Graph) (home : Homes) : Prop where
  nested : graph.Nested home
  flat : graph.Flat home []
  rimmed : graph.Rimmed

namespace Tidy

theorem wf (tidy : G.Tidy home) : G.Consistent := tidy.nested.founded.wf

theorem reshaped {image : NodeId → NodeId} {height : NodeId → Nat} (tidy : pre.Tidy home)
    (reshaped : Reshaped pre post image height)
    (fixed : ∀ id : NodeId, id.raw < pre.next → image id = id) :
    post.Tidy (home ∘ image) :=
  ⟨tidy.nested.reshaped reshaped fixed, tidy.flat.reshaped tidy.wf reshaped fixed,
    tidy.rimmed.of_extends reshaped.extends'⟩

/-- Only members need to be at home in the root scope. -/
theorem narrow (tidy : G.Tidy home) {members : NodeSet}
    (run : G.rootMembers = .ok members) : ∃ home', G.Tidy home' ∧
      (∀ id, home' id = some [] → home id = some []) ∧
      ∀ id, home' id = some [] ↔ id ∈ members := by
  have at' : G.ScopeAt home [] G.root := ⟨tidy.nested.root, fun _ => rfl, nofun⟩
  refine ⟨narrowed home [] members, ⟨tidy.nested.narrow at' run,
    fun id node scope got kind homed => tidy.flat id node scope got kind
      (narrowed_eq_some homed).1, tidy.rimmed⟩, fun id homed => (narrowed_eq_some homed).1,
    fun id => ⟨fun homed => (narrowed_eq_some homed).2 rfl, fun mem => ?_⟩⟩
  rw [narrowed_of_mem mem]
  exact tidy.nested.home_of_mem at'.homed run mem

/-- Members are at home in the root scope. -/
theorem home_of_member (tidy : G.Tidy home) (has : G.Member id) : home id = some [] := by
  obtain ⟨tip, mem, led⟩ := has
  induction led with
  | refl => exact tidy.nested.root tip mem
  | tail _ touches ih =>
    rw [← ih]
    exact touches.elim (fun prec => (tidy.nested.touch _ _ prec).symm) (tidy.nested.touch _ _)

/-- An identity is no endpoint. -/
theorem not_endpoint (tidy : G.Tidy home) (identity : G.isIdentity id) : id ∉ G.root.endpoints := by
  rw [isIdentity, Option.any_eq_true] at identity
  obtain ⟨node, got, identity⟩ := identity
  exact tidy.nested.founded.not_endpoint got (Node.isPseudo_of_isIdentity identity)

end Tidy

/-! ## Nodes on connections -/

/-- New nodes have been put on connections, and all of them are of one sort. -/
structure Enlarged (sort : Node → Prop) (pre : Graph) (home : Homes)
    (post : Graph) (home' : Homes) : Prop where
  tidy : post.Tidy home'
  conserves : pre.Conserves post
  homes : ∀ id : NodeId, id.raw < pre.next → home' id = home id
  old : ∀ id : NodeId, id.raw < pre.next → post.nodes[id]? = pre.nodes[id]?
  new : ∀ (id : NodeId) node, pre.next ≤ id.raw → post.nodes[id]? = some node → sort node
  inputOwner : ∀ port owner, pre.inputOwner? port = some owner → post.inputOwner? port = some owner
  feeds : ∀ output owner input, pre.outputOwner? output = some owner →
    post.Feeds output input → pre.Feeds output input ∨
      ∃ taker, post.inputOwner? input = some taker ∧ pre.next ≤ taker.raw
  single : ∀ output owner, pre.outputOwner? output = some owner →
    pre.EndsIn (fun _ => True) output → post.EndsIn (fun _ => True) output

theorem Enlarged.grows (grown : Enlarged sort pre home post home') : pre.next ≤ post.next :=
  grown.conserves.adds.1

namespace Enlarged

theorem refl (tidy : G.Tidy home) : Enlarged sort G home G home where
  tidy := tidy
  conserves := .refl G
  homes _ _ := rfl
  old _ _ := rfl
  new id node late got := by
    have := tidy.wf.early got
    omega
  inputOwner _ _ owned := owned
  feeds _ _ _ _ feeds := .inl feeds
  single _ _ _ single := single

/-- One node is put between an output port and some of its targets. -/
theorem of_spliced (tidy : pre.Tidy home) {moved : List InputId} {made : Node}
    (conserves : pre.Conserves post) (spliced : Spliced pre out moved made post)
    (owned : pre.outputOwner? out = some owner) (fed : ∀ target ∈ moved, pre.Feeds out target)
    (all : moved = [] → ∀ input, ¬ pre.Feeds out input) (pseudo : made.isPseudo)
    (sorted : sort made) : Enlarged sort pre home post (home ∘ attached pre.next owner) := by
  have wf := tidy.wf
  have reshaped := spliced.reshaped tidy.nested.founded owned fed pseudo
  refine ⟨tidy.reshaped reshaped fun _ => attached_old, conserves,
    fun id early => ?_, fun id early => ?_, fun id node late got => ?_,
    fun port owner owned => ?_, fun source owner target owned feeds => ?_,
    fun port other own single => ?_⟩
  · rw [Function.comp, attached_old early]
  · rw [spliced.nodes, if_neg]
    rintro rfl
    exact Nat.lt_irrefl _ early
  · rcases spliced.cases got with ⟨-, rfl⟩ | got
    · exact sorted
    · have := wf.early got
      omega
  · exact spliced.inputOwner_old wf owned
  · rcases (spliced.feeds source target).mp feeds with ⟨feeds, -⟩ | ⟨rfl, rfl⟩ | ⟨rfl, -⟩
    · exact .inl feeds
    · exact .inr ⟨_, spliced.takes, Nat.le_refl _⟩
    · exact (wf.output_ne owned 2 rfl).elim
  · by_cases eq : port = out
    · subst eq
      exact spliced.endsIn_new wf owned fed all single trivial
    · exact single.kept (fun input => spliced.feeds_other wf own eq)
        fun input taker _ taken _ => ⟨spliced.inputOwner_old wf taken, trivial⟩

theorem outputOwner (grown : Enlarged sort pre home post home') (wf : pre.Consistent)
    {port : OutputId} (early : owner.raw < pre.next) :
    post.outputOwner? port = some owner ↔ pre.outputOwner? port = some owner := by
  rw [grown.tidy.wf.outputOwner, wf.outputOwner, grown.old owner early]

/-- A node feeds what it did, or a new node. -/
theorem precedes_or_new (grown : Enlarged sort pre home post home')
    (wf : pre.Consistent) (early : first.raw < pre.next) (prec : post.Precedes first second) :
    pre.Precedes first second ∨ pre.next ≤ second.raw := by
  obtain ⟨out, input, given, taken, feeds⟩ := prec
  rw [grown.outputOwner wf early] at given
  rcases grown.feeds out first input given feeds with feeds | ⟨taker, taken', late⟩
  · obtain ⟨owner, owned⟩ := wf.exists_inputOwner feeds
    cases (grown.inputOwner input owner owned).symm.trans taken
    exact .inl ⟨out, input, given, owned, feeds⟩
  · cases taken.symm.trans taken'
    exact .inr late

theorem trans {middle : Graph} (wf : pre.Consistent)
    (one : Enlarged sort pre home middle home') (two : Enlarged sort middle home' post home'') :
    Enlarged sort pre home post home'' where
  tidy := two.tidy
  conserves := one.conserves.trans two.conserves
  homes id early := (two.homes id (Nat.lt_of_lt_of_le early one.grows)).trans (one.homes id early)
  old id early := (two.old id (Nat.lt_of_lt_of_le early one.grows)).trans (one.old id early)
  new id node late got := by
    by_cases early : id.raw < middle.next
    · rw [two.old id early] at got
      exact one.new id node late got
    · exact two.new id node (Nat.not_lt.mp early) got
  inputOwner port owner owned := two.inputOwner port owner (one.inputOwner port owner owned)
  feeds out owner input owned feeds := by
    have owned' := (one.outputOwner wf (wf.early_of_output owned)).mpr owned
    rcases two.feeds out owner input owned' feeds with feeds | ⟨taker, taken, late⟩
    · refine (one.feeds out owner input owned feeds).imp_right ?_
      rintro ⟨taker, taken, late⟩
      exact ⟨taker, two.inputOwner input taker taken, late⟩
    · exact .inr ⟨taker, taken, Nat.le_trans one.grows late⟩
  single out owner owned single := by
    obtain ⟨node, got, -⟩ := wf.node_of_output owned
    exact two.single out owner ((one.outputOwner wf (wf.early got)).mpr owned)
      (one.single out owner owned single)

end Enlarged

/-- The nodes of the root scope can be collected, and all of them are there. -/
theorem Founded.exists_rootMembers (founded : G.Founded) : ∃ members, G.rootMembers = .ok members ∧
    ∀ id ∈ members, G.Member id ∧ ∃ node, G.nodes[id]? = some node := by
  obtain ⟨members, run, mem_members⟩ := founded.wf.members_eq_ok
    fun _ mem => founded.exists_endpoint mem
  refine ⟨members, run, fun id has => ?_⟩
  obtain ⟨tip, mem, reached⟩ := (mem_members id).mp has
  refine ⟨⟨tip, mem, reached⟩, ?_⟩
  rcases ReflTransGen.cases_tail reached with eq | ⟨pre, -, prec | prec⟩
  · rw [eq]
    exact founded.exists_endpoint mem
  · exact founded.wf.precedes_right prec
  · exact founded.wf.precedes_left prec

/-- A pass that changes the nodes of the root scope that pass a test, one after the
other, so that all their output ports are settled. -/
theorem Tidy.exists_eachMember (test : Node → Bool)
    (change : Graph → Node → Changed) (settled : Graph → OutputId → Prop)
    (step : Graph → Homes → Graph → Homes → Prop)
    (refl : ∀ {G home}, G.Tidy home → step G home G home)
    (grown : ∀ {pre home post home'}, step pre home post home' → Enlarged sort pre home post home')
    (trans : ∀ {pre home middle home' post home''}, pre.Consistent →
      step pre home middle home' → step middle home' post home'' →
      step pre home post home'')
    (stays : ∀ {pre home post home' out owner}, pre.Consistent →
      step pre home post home' → pre.outputOwner? out = some owner →
      settled pre out → settled post out)
    (changes : ∀ {now home id node}, now.Tidy home → home id = some [] →
      now.nodes[id]? = some node → test node → ∃ more post home',
        change now node = .ok (more, post) ∧ step now home post home' ∧
        ∀ port ∈ node.outputs, settled post port)
    (tidy : G.Tidy home) : ∃ count post home₀ home', (do
      let members ← G.rootMembers
      G.changeEach members.toList fun G id => do
        let node ← G.node id
        if test node then change G node else return (0, G)) = .ok (count, post) ∧
      G.Tidy home₀ ∧ (∀ id, home₀ id = some [] → home id = some []) ∧
      step G home₀ post home' ∧ ∀ id node, home₀ id = some [] → G.nodes[id]? = some node →
        test node → ∀ port ∈ node.outputs, settled post port := by
  have wf := tidy.wf
  obtain ⟨members, collected, has⟩ := tidy.nested.founded.exists_rootMembers
  obtain ⟨home₀, tidy₀, narrower, mem_members⟩ := tidy.narrow collected
  have kept : ∀ {now home' id node}, step G home₀ now home' →
      G.nodes[id]? = some node → now.nodes[id]? = some node := fun stepped got =>
    ((grown stepped).old _ (wf.early got)).trans got
  obtain ⟨count, post, run, ⟨home', stepped⟩, all⟩ := exists_changeEach
    members.toList (fun G id => do
      let node ← G.node id
      if test node then change G node else return (0, G))
    (fun now => ∃ home', step G home₀ now home')
    (fun now id => ∀ node, G.nodes[id]? = some node → test node = true →
      ∀ port ∈ node.outputs, settled now port) (by
    rintro now id ⟨home', stepped⟩ mem
    have member := mem_toList.mp mem
    obtain ⟨-, node, got⟩ := has id member
    have tidy' := (grown stepped).tidy
    rw [bind_of_ok (node_of_found (kept stepped got))]
    split
    · next passes =>
      have homed : home' id = some [] := by
        rw [(grown stepped).homes id (wf.early got), mem_members]
        exact member
      obtain ⟨more, next, home'', run, step', done⟩ := changes tidy' homed (kept stepped got) passes
      refine ⟨more, next, run, ⟨home'', trans wf stepped step'⟩, fun node' got' _ => ?_,
        fun other _ settled node' got' passes' port mem => ?_⟩
      · cases got.symm.trans got'
        exact done
      · exact stays tidy'.wf step' (tidy'.wf.output_of_mem (kept stepped got') mem)
          (settled node' got' passes' port mem)
    · next fails =>
      refine ⟨0, now, rfl, ⟨home', stepped⟩, fun node' got' passes => ?_, fun _ _ done => done⟩
      cases got.symm.trans got'
      exact (fails passes).elim) ⟨home₀, refl tidy₀⟩
  refine ⟨count, post, home₀, home', (bind_of_ok collected).trans run, tidy₀, narrower, stepped,
    fun id node homed => all id (mem_toList.mpr ((mem_members id).mp homed)) node⟩

/-! ## Checkpoints -/

/-- What inserting checkpoints does. -/
abbrev Checkpointed (pre : Graph) (home : Homes) (post : Graph) (home' : Homes) : Prop :=
  Enlarged (fun node => node.isStop = true ∧ node.isBinding = false) pre home post home'

theorem Checkpointed.isStop_new (checkpointed : Checkpointed pre home post home')
    (late : pre.next ≤ id.raw) (has : ∃ node, post.nodes[id]? = some node) :
    post.isStop id := by
  obtain ⟨node, got⟩ := has
  rw [isStop, got, Option.any_some, (checkpointed.new id node late got).1]

/-- An output port feeds what it fed, or a checkpoint. -/
theorem Checkpointed.feeds_or_stops (checkpointed : Checkpointed pre home post home')
    (owned : pre.outputOwner? out = some owner) (feeds : post.Feeds out input) :
    pre.Feeds out input ∨ ∃ taker, post.inputOwner? input = some taker ∧ post.isStop taker := by
  refine (checkpointed.feeds out owner input owned feeds).imp_right ?_
  rintro ⟨taker, taken, late⟩
  obtain ⟨node, got, -⟩ := checkpointed.tidy.wf.node_of_input taken
  exact ⟨taker, taken, checkpointed.isStop_new late ⟨node, got⟩⟩

theorem output_eq_ok {port : OutputPort} (run : G.output out = .ok port) :
    G.outputs[out]? = some port := by
  rw [Graph.output] at run
  split at run
  · next got =>
    cases run
    exact got
  · cases run

/-- What a port with one target at most feeds stays good, or is a checkpoint. -/
theorem Checkpointed.endsIn {good good' : NodeId → Prop}
    (checkpointed : Checkpointed pre home post home') (wf : pre.Consistent)
    (owned : pre.outputOwner? out = some owner) (ends : pre.EndsIn good out)
    (stops : ∀ taker, post.isStop taker → good' taker)
    (stays : ∀ taker, post.nodes[taker]? = pre.nodes[taker]? → good taker → good' taker) :
    post.EndsIn good' out := by
  have single := checkpointed.single out owner owned
    (ends.kept (fun _ => id) fun _ _ _ taken _ => ⟨taken, trivial⟩)
  intro input feeds
  refine ⟨(single input feeds).1, ?_⟩
  rcases checkpointed.feeds_or_stops owned feeds with feeds | ⟨taker, taken, stop⟩
  · obtain ⟨-, taker, taken, fits⟩ := ends input feeds
    exact ⟨taker, checkpointed.inputOwner input taker taken,
      stays taker (checkpointed.old taker (wf.early_of_input taken)) fits⟩
  · exact ⟨taker, taken, stops taker stop⟩

theorem Checkpointed.stopsOut (checkpointed : Checkpointed pre home post home')
    (wf : pre.Consistent) (owned : pre.outputOwner? out = some owner)
    (stops : pre.StopsOut out) : post.StopsOut out :=
  checkpointed.endsIn wf owned stops (fun _ stop => stop)
    fun _ eq stop => (isStop_of_kept eq).trans stop

theorem Tidy.exists_insertCheckpoint (tidy : G.Tidy home)
    (owned : G.outputOwner? out = some owner) :
    ∃ id post home', G.insertCheckpoint out = .ok (id, post) ∧
      Checkpointed G home post home' ∧ post.StopsOut out := by
  obtain ⟨port, read, got, connected⟩ := exists_output owned
  have wf := tidy.wf
  have moved : ∀ target, target ∈ port.connected.toList ↔ G.Feeds out target := by
    intro target
    rw [mem_toList, connected]
    rfl
  have fed : ∀ target ∈ port.connected.toList, G.Feeds out target := fun target => (moved target).mp
  have all : port.connected.toList = [] → ∀ input, ¬ G.Feeds out input :=
    fun none input feeds => not_mem_nil (none ▸ (moved input).mpr feeds)
  obtain ⟨id, post, run, spliced, conserves⟩ : ∃ id post,
      G.insertCheckpoint out = .ok (id, post) ∧ Spliced G out port.connected.toList
        (G.created (passage (G.portName port.owner port.name) .checkpoint .stage
          port.dataType)) post ∧ G.Conserves post :=
    ⟨_, _, bind_of_ok read, wf.insertPassage got fed .checkpoint .stage,
      tidy.nested.founded.insertPassage tidy.rimmed got fed all .checkpoint nofun⟩
  refine ⟨id, post, _, run, .of_spliced tidy conserves spliced owned fed all rfl ⟨rfl, rfl⟩,
    fun target feeds => ?_⟩
  have only : ∀ target, post.Feeds out target → target = ⟨G.next + 1⟩ := by
    intro target feeds
    rcases (spliced.feeds out target).mp feeds with ⟨feeds, stays⟩ | ⟨-, eq⟩ | ⟨eq, -⟩
    · exact (stays ⟨rfl, (moved target).mpr feeds⟩).elim
    · exact eq
    · exact (wf.output_ne owned 2 eq).elim
  refine ⟨fun other feeds' => (only other feeds').trans (only target feeds).symm, _,
    only target feeds ▸ spliced.takes, ?_⟩
  simp only [isStop, spliced.nodes, if_pos]
  rfl

theorem Tidy.exists_checkpointEach (tidy : G.Tidy home) {outputs : List OutputId}
    (owned : ∀ out ∈ outputs, ∃ owner, G.outputOwner? out = some owner) :
    ∃ count post home', G.checkpointEach outputs = .ok (count, post) ∧
      Checkpointed G home post home' ∧ ∀ out ∈ outputs, post.StopsOut out := by
  have wf := tidy.wf
  obtain ⟨count, post, run, ⟨home', checkpointed⟩, stopped⟩ : ∃ count post,
      G.checkpointEach outputs = .ok (count, post) ∧
        (∃ home', Checkpointed G home post home') ∧ ∀ out ∈ outputs, post.StopsOut out := by
    refine exists_changeEach outputs _ (fun now => ∃ home', Checkpointed G home now home')
      StopsOut ?_ ⟨home, .refl tidy⟩
    rintro now out ⟨home', checkpointed⟩ mem
    have owned' : ∀ out ∈ outputs, ∃ owner, now.outputOwner? out = some owner := by
      intro out mem
      obtain ⟨owner, given⟩ := owned out mem
      exact ⟨owner, (checkpointed.outputOwner wf (wf.early_of_output given)).mpr given⟩
    obtain ⟨owner, given⟩ := owned' out mem
    obtain ⟨id, next, home'', run, step, stopped⟩ := checkpointed.tidy.exists_insertCheckpoint given
    refine ⟨1, next, bind_of_ok run, ⟨home'', checkpointed.trans wf step⟩, stopped,
      fun other mem' stopped' => ?_⟩
    obtain ⟨owner', given'⟩ := owned' other mem'
    exact step.stopsOut checkpointed.tidy.wf given' stopped'
  exact ⟨count, post, home', run, checkpointed, stopped⟩

/-- Checkpoints behind nodes that run at most once. -/
theorem Tidy.exists_checkpointGlobalEffects (tidy : G.Tidy home) :
    ∃ count post home', G.checkpointGlobalEffects = .ok (count, post) ∧
      G.Conserves post ∧ post.Tidy home' ∧ post.Guarded home' := by
  obtain ⟨count, post, home₀, home', run, -, -, checkpointed, stopped⟩ := exists_eachMember
    Node.hasGlobalEffect (fun G node => G.checkpointEach (G.connectedOutputs node))
    StopsOut Checkpointed .refl (fun step => step) Enlarged.trans (fun wf step => step.stopsOut wf)
      (by
    intro now home' id node tidy homed got effect
    have owned : ∀ {port}, port ∈ node.outputs → now.outputOwner? port = some id :=
      fun mem => tidy.wf.output_of_mem got mem
    obtain ⟨more, post, home'', run, step, done⟩ := tidy.exists_checkpointEach
      fun port mem => ⟨id, owned (mem_filter.mp mem).1⟩
    refine ⟨more, post, home'', run, step, fun port mem => ?_⟩
    by_cases connected : port ∈ now.connectedOutputs node
    · exact done port connected
    · -- a port that feeds nothing feeds at most what is put behind it
      refine step.stopsOut tidy.wf (owned mem) fun input feeds => ?_
      refine absurd (mem_filter.mpr ⟨mem, ?_⟩) connected
      rw [Bool.not_eq_true']
      exact (HandleSet.isEmpty_eq_false_iff _).mpr ⟨input, feeds⟩) tidy
  refine ⟨count, post, home', run, checkpointed.conserves, checkpointed.tidy,
    fun id out homed binding own => ?_⟩
  rw [isBinding, Option.any_eq_true] at binding
  obtain ⟨node, got, binding⟩ := binding
  by_cases early : id.raw < G.next
  · rw [checkpointed.homes id early] at homed
    rw [Node.isBinding, Bool.and_eq_true] at binding
    exact (stopped id node homed ((checkpointed.old id early).symm.trans got)
      binding.1 out ((checkpointed.tidy.wf.mem_outputs_iff got).mpr own)).kept
      (fun _ feeds => feeds) fun _ _ _ taken stop => ⟨taken, .inl stop⟩
  · rw [(checkpointed.new id node (Nat.not_lt.mp early) got).2] at binding
    cases binding

/-! ## Checkpoints behind shuffles -/

/-- Walks from the output port get to stage boundaries through nodes that a
checkpoint may move below. -/
def SettledOut (graph : Graph) (out : OutputId) : Prop :=
  ∀ input taker next, graph.Feeds out input → graph.inputOwner? input = some taker →
    next = taker ∨ graph.isBoundary taker = false ∧ graph.Passes taker next →
    graph.isCalm next = true

/-- Walks end at checkpoints. -/
theorem isCalm_of_stops (stop : G.isStop taker)
    (arrives : next = taker ∨ G.isBoundary taker = false ∧ G.Passes taker next) :
    G.isCalm next := by
  have stage := isStageBoundary_of_isStop stop
  rcases arrives with rfl | ⟨clear, -⟩
  · exact isCalm_of_isStageBoundary stage
  · rw [isBoundary_of_isStageBoundary stage] at clear
    cases clear

theorem settledOut_of_stages (stops : ∀ input, G.Feeds out input →
    ∃ taker, G.inputOwner? input = some taker ∧ G.isStageBoundary taker) :
    G.SettledOut out := by
  intro input taker next feeds taken arrives
  obtain ⟨taker', taken', stage⟩ := stops input feeds
  cases taken.symm.trans taken'
  rcases arrives with rfl | ⟨clear, -⟩
  · exact isCalm_of_isStageBoundary stage
  · rw [isBoundary_of_isStageBoundary stage] at clear
    cases clear

/-- A walk from a node is a walk from one of its output ports. -/
theorem Passes.exists_output (passes : G.Passes first next) :
    ∃ out input taker, G.outputOwner? out = some first ∧ G.Feeds out input ∧
      G.inputOwner? input = some taker ∧
      (next = taker ∨ G.isBoundary taker = false ∧ G.Passes taker next) := by
  cases passes with
  | step prec =>
    obtain ⟨out, input, given, taken, feeds⟩ := prec
    exact ⟨out, input, next, given, feeds, taken, .inl rfl⟩
  | on prec clear passes =>
    obtain ⟨out, input, given, taken, feeds⟩ := prec
    exact ⟨out, input, _, given, feeds, taken, .inr ⟨clear, passes⟩⟩

theorem Consistent.exists_of_passes (wf : G.Consistent)
    (passes : G.Passes first next) : ∃ node, G.nodes[next]? = some node := by
  cases passes.transGen with
  | single prec => exact wf.precedes_right prec
  | tail _ prec => exact wf.precedes_right prec

theorem settled_of_outputs (wf : G.Consistent) (got : G.nodes[id]? = some node)
    (settled : ∀ port ∈ node.outputs, G.SettledOut port) (passes : G.Passes id next) :
    G.isCalm next := by
  obtain ⟨port, input, taker, owned, feeds, taken, arrives⟩ := passes.exists_output
  exact settled port ((wf.mem_outputs_iff got).mpr owned) input taker next feeds taken arrives

namespace Checkpointed

variable (checkpointed : Checkpointed pre home post home') (wf : pre.Consistent)

include checkpointed wf

/-- A node feeds what it did, or a stage boundary. -/
theorem prec (early : first.raw < pre.next) (prec : post.Precedes first second) :
    pre.Precedes first second ∨ post.isStageBoundary second := by
  refine (checkpointed.precedes_or_new wf early prec).imp_right fun late => ?_
  exact isStageBoundary_of_isStop (checkpointed.isStop_new late
    (checkpointed.tidy.wf.precedes_right prec))

/-- A walk is one that there was, or it arrives at a stage boundary. -/
theorem passes (early : first.raw < pre.next) (passes : post.Passes first next) :
    pre.Passes first next ∨ post.isStageBoundary next := by
  induction passes with
  | step prec =>
    exact (checkpointed.prec wf early prec).imp_left .step
  | on prec clear _ ih =>
    rcases checkpointed.prec wf early prec with prec | stage
    · have early' := (wf.below_of_precedes prec).2
      rw [isBoundary_of_kept (checkpointed.old _ early')] at clear
      exact (ih early').imp_left (.on prec clear)
    · rw [isBoundary_of_isStageBoundary stage] at clear
      cases clear

theorem settledOut (owned : pre.outputOwner? out = some owner)
    (settled : pre.SettledOut out) : post.SettledOut out := by
  intro input taker next feeds taken arrives
  rcases checkpointed.feeds_or_stops owned feeds with feeds | ⟨taker', taken', stop⟩
  · obtain ⟨taker', taken'⟩ := wf.exists_inputOwner feeds
    cases (checkpointed.inputOwner input taker' taken').symm.trans taken
    obtain ⟨node, got, -⟩ := wf.node_of_input taken'
    have early := wf.early got
    have kept := checkpointed.old taker early
    rcases arrives with rfl | ⟨clear, passes⟩
    · rw [isCalm_of_kept kept]
      exact settled input next next feeds taken' (.inl rfl)
    · rcases checkpointed.passes wf early passes with passes | stage
      · rw [isBoundary_of_kept kept] at clear
        have settled := settled input taker next feeds taken' (.inr ⟨clear, passes⟩)
        obtain ⟨node, got⟩ := wf.exists_of_passes passes
        rw [isCalm_of_kept (checkpointed.old next (wf.early got)), settled]
      · exact isCalm_of_isStageBoundary stage
  · cases taken.symm.trans taken'
    exact isCalm_of_stops stop arrives

theorem guarded (guarded : pre.Guarded home) : post.Guarded home' := by
  intro id out homed binding own
  by_cases early : id.raw < pre.next
  · have eq := checkpointed.old id early
    rw [isBinding_of_kept eq] at binding
    rw [checkpointed.homes id early] at homed
    rw [checkpointed.outputOwner wf early] at own
    exact checkpointed.endsIn wf own (guarded id out homed binding own)
      (fun _ => .inl) fun taker eq' stops => stops.kept wf checkpointed.tidy.wf
        eq eq' fun exit _ own stops => checkpointed.stopsOut wf own stops
  · rw [isBinding, Option.any_eq_true] at binding
    obtain ⟨node, got, binding⟩ := binding
    rw [(checkpointed.new id node (Nat.not_lt.mp early) got).2] at binding
    cases binding

end Checkpointed

/-- From a node of the root scope the rank goes up, or there is a stage boundary next. -/
def Climbs (graph : Graph) (home : Homes) (limit : Nat) (rank : NodeId → Nat) : Prop :=
  ∀ first second : NodeId, first.raw < limit → home first = some [] →
    graph.Precedes first second → graph.isStageBoundary second = true ∨
      second.raw < limit ∧ home second = some [] ∧ rank first < rank second

theorem Tidy.climbs (tidy : G.Tidy home) : G.Climbs home G.next G.rank := by
  intro first second _ homed prec
  have acyclic := tidy.nested.acyclic first (by rw [homed]; exact Option.some_ne_none _)
  refine .inr ⟨(tidy.wf.below_of_precedes prec).2, ?_, rank_lt tidy.wf prec acyclic⟩
  rw [← tidy.nested.touch first second prec, homed]

/-- Checkpoints do not make the climb longer. -/
theorem Checkpointed.climbs (checkpointed : Checkpointed pre home post home')
    (wf : pre.Consistent) (early : limit ≤ pre.next)
    (climbs : pre.Climbs home limit rank) : post.Climbs home' limit rank := by
  intro first second below homed prec
  have old := Nat.lt_of_lt_of_le below early
  rw [checkpointed.homes first old] at homed
  rcases checkpointed.prec wf old prec with prec | stage
  · have old' := (wf.below_of_precedes prec).2
    rw [isStageBoundary_of_kept (checkpointed.old second old'), checkpointed.homes second old']
    exact climbs first second below homed prec
  · exact .inl stage

/-- All outputs of a node are settled, one after the other. -/
theorem Tidy.exists_pushEach (tidy : G.Tidy home) (got : G.nodes[id]? = some node)
    (pushes : ∀ {now home' out}, Checkpointed G home now home' →
      now.outputOwner? out = some id → ∃ more post home'',
        Graph.pushDown levels now out = .ok (more, post) ∧
        Checkpointed now home' post home'' ∧ post.SettledOut out) :
    ∃ count post home', G.changeEach node.outputs (Graph.pushDown levels) = .ok (count, post) ∧
      Checkpointed G home post home' ∧ ∀ port ∈ node.outputs, post.SettledOut port := by
  have below := tidy.wf.early got
  obtain ⟨count, post, run, ⟨home', checkpointed⟩, settled⟩ := exists_changeEach
    node.outputs (Graph.pushDown levels) (fun now => ∃ home', Checkpointed G home now home')
    SettledOut (by
    rintro now port ⟨home', checkpointed⟩ mem
    have owned : ∀ {port}, port ∈ node.outputs → now.outputOwner? port = some id :=
      fun mem => checkpointed.tidy.wf.output_of_mem ((checkpointed.old id below).trans got) mem
    obtain ⟨more, next, home'', run, step, done⟩ := pushes checkpointed (owned mem)
    exact ⟨more, next, run, ⟨home'', checkpointed.trans tidy.wf step⟩, done,
      fun other mem' => step.settledOut checkpointed.tidy.wf (owned mem')⟩)
    ⟨home, .refl tidy⟩
  exact ⟨count, post, home', run, checkpointed, settled⟩

/-- The climb from an output port ends before the levels are used up, and the port is
settled then. -/
theorem Tidy.exists_pushDown {bound : Nat}
    (top : ∀ id, rank id ≤ bound) (tidy : G.Tidy home) (below : limit ≤ G.next)
    (climbs : G.Climbs home limit rank) (owned : G.outputOwner? out = some id)
    (early : id.raw < limit) (homed : home id = some []) (deep : bound < rank id + levels) :
    ∃ count post home', Graph.pushDown levels G out = .ok (count, post) ∧
      Checkpointed G home post home' ∧ post.SettledOut out := by
  induction levels generalizing G home out id with
  | zero =>
    have := top id
    omega
  | succ levels ih =>
    have wf := tidy.wf
    have checkpoint : ∃ count post home', G.checkpointEach [out] = .ok (count, post) ∧
        Checkpointed G home post home' ∧ post.SettledOut out := by
      obtain ⟨count, post, home', run, checkpointed, stops⟩ := tidy.exists_checkpointEach
        fun other mem => ⟨id, (mem_singleton.mp mem).symm ▸ owned⟩
      refine ⟨count, post, home', run, checkpointed, settledOut_of_stages fun input feeds => ?_⟩
      obtain ⟨-, taker, taken, stop⟩ := stops out (mem_singleton_self out) input feeds
      exact ⟨taker, taken, isStageBoundary_of_isStop stop⟩
    rw [Graph.pushDown]
    split
    · next empty =>
      refine ⟨0, G, home, rfl, .refl tidy, fun input _ _ feeds => ?_⟩
      exact (not_mem_nil (empty ▸ mem_toList.mpr feeds)).elim
    · next target single =>
      have feeds_iff : ∀ input, G.Feeds out input ↔ input = target := by
        intro input
        rw [Feeds, ← mem_toList, single, mem_singleton]
      have feeds := (feeds_iff target).mpr rfl
      obtain ⟨taker, taken⟩ := wf.exists_inputOwner feeds
      obtain ⟨node, got, -⟩ := wf.node_of_input taken
      rw [taken, Option.bind_some, got]
      simp only
      split
      · next stage =>
        refine ⟨0, G, home, rfl, .refl tidy, settledOut_of_stages fun input feeds => ?_⟩
        rw [(feeds_iff input).mp feeds]
        refine ⟨taker, taken, ?_⟩
        rw [isStageBoundary, got]
        exact stage
      · next moving =>
        split
        · next down =>
          -- all outputs of the node behind are pushed down in turn
          obtain ⟨early', homed', higher⟩ := (climbs id taker early homed
            ⟨out, target, owned, taken, feeds⟩).resolve_left fun stage => by
              rw [isStageBoundary, got] at stage
              exact moving stage
          obtain ⟨count, post, home', run, checkpointed, settled⟩ := tidy.exists_pushEach got
            fun checkpointed owned' => ih checkpointed.tidy (Nat.le_trans below checkpointed.grows)
              (checkpointed.climbs wf below climbs) owned' early'
              (by rw [checkpointed.homes taker (Nat.lt_of_lt_of_le early' below), homed'])
              (by omega)
          refine ⟨count, post, home', run, checkpointed,
            fun input taker' next feeds taken' arrives => ?_⟩
          rcases checkpointed.feeds_or_stops owned feeds with feeds | ⟨last, taken'', stop⟩
          · rw [(feeds_iff input).mp feeds, checkpointed.inputOwner target taker taken] at taken'
            cases taken'
            have kept := checkpointed.old taker (Nat.lt_of_lt_of_le early' below)
            rcases arrives with rfl | ⟨-, passes⟩
            · rw [isCalm_of_kept kept, isCalm, got, Option.any_some, down, Bool.or_true]
            · exact settled_of_outputs checkpointed.tidy.wf (kept.trans got) settled passes
          · cases taken'.symm.trans taken''
            exact isCalm_of_stops stop arrives
        · exact checkpoint
    · exact checkpoint

/-- Walks from shuffles get to stage boundaries through nodes that a checkpoint
may move below. -/
def Settled (graph : Graph) (home : Homes) : Prop :=
  ∀ id next, home id = some [] → graph.isShuffleBoundary id = true → graph.Passes id next →
    graph.isCalm next = true

/-- Every shuffle ends in checkpoints. -/
theorem Tidy.exists_pushDownShuffleCheckpoints (tidy : G.Tidy home) (guarded : G.Guarded home) :
    ∃ count post home', G.pushDownShuffleCheckpoints = .ok (count, post) ∧
      G.Conserves post ∧ post.Tidy home' ∧ post.Guarded home' ∧ post.Settled home' := by
  obtain ⟨count, post, home₀, home', run, tidy₀, narrower, checkpointed, settled⟩ :=
    exists_eachMember Node.isShuffleBoundary (fun G node =>
        G.changeEach node.outputs (Graph.pushDown (G.nodes.size + 1)))
      SettledOut Checkpointed .refl (fun step => step) Enlarged.trans (fun wf step =>
      step.settledOut wf)
      (fun {now home id node} tidy homed got _ => by
      have early := tidy.wf.early got
      refine tidy.exists_pushEach got fun step owned => step.tidy.exists_pushDown
        (rank_le now) step.grows (step.climbs tidy.wf (Nat.le_refl _) tidy.climbs) owned
        early ?_ (by omega)
      rw [step.homes id early, homed]) tidy
  refine ⟨count, post, home', run, checkpointed.conserves, checkpointed.tidy,
    checkpointed.guarded tidy₀.wf fun id out homed =>
      guarded id out (narrower id homed), fun id next homed shuffle passes => ?_⟩
  have has := shuffle
  rw [isShuffleBoundary, Option.any_eq_true] at has
  obtain ⟨node, got, shuffles⟩ := has
  by_cases early : id.raw < G.next
  · rw [checkpointed.homes id early] at homed
    exact settled_of_outputs checkpointed.tidy.wf got
      (settled id node homed ((checkpointed.old id early).symm.trans got) shuffles) passes
  · -- new nodes are checkpoints
    have stage := isStageBoundary_of_isStop (checkpointed.isStop_new (Nat.not_lt.mp early)
      ⟨node, got⟩)
    rw [checkpointed.tidy.nested.founded.unmixed stage] at shuffle
    cases shuffle

/-! ## Identities behind stage boundaries -/

/-- What putting identities behind stage boundaries does. -/
structure Padded (pre : Graph) (home : Homes) (post : Graph) (home' : Homes) : Prop extends
    Enlarged (fun node => node.isIdentity = true) pre home post home' where
  ahead : ∀ first second : NodeId, pre.next ≤ second.raw → post.Precedes first second →
    post.isStageBoundary first = true
  behind : ∀ first second : NodeId, pre.next ≤ first.raw → post.Precedes first second →
    post.isBoundary second = true
  guarded : pre.Guarded home → post.Guarded home'

namespace Padded

theorem refl (tidy : G.Tidy home) : Padded G home G home where
  toEnlarged := .refl tidy
  ahead first second late prec := by
    have := (tidy.wf.below_of_precedes prec).2
    omega
  behind first second late prec := by
    have := (tidy.wf.below_of_precedes prec).1
    omega
  guarded := id

variable (padded : Padded pre home post home') (wf : pre.Consistent)

include padded

/-- New nodes are no boundaries. -/
theorem isBoundary_new (late : pre.next ≤ id.raw) : post.isBoundary id = false := by
  cases got : post.nodes[id]? with
  | none => rw [isBoundary, got, Option.any_none]
  | some node =>
    rw [isBoundary, got]
    exact Node.isBoundary_of_isIdentity (padded.new id node late got)

include wf

/-- A walk that does not start at a stage boundary is one that there was. -/
theorem passes (early : first.raw < pre.next) (start : post.isStageBoundary first = false)
    (passes : post.Passes first next) : pre.Passes first next := by
  have old : ∀ {second}, post.Precedes first second → pre.Precedes first second := by
    intro second prec
    refine (padded.precedes_or_new wf early prec).resolve_right fun late => ?_
    rw [padded.ahead first second late prec] at start
    cases start
  induction passes with
  | step prec => exact .step (old prec)
  | @on first middle next prec clear _ ih =>
    have early' := (wf.below_of_precedes (old prec)).2
    have stageless : post.isStageBoundary middle = false := by
      by_contra stage
      rw [isBoundary_of_isStageBoundary (Bool.eq_true_of_not_eq_false stage)] at clear
      cases clear
    rw [isBoundary_of_kept (padded.old middle early')] at clear
    refine .on (old prec) clear (ih early' stageless fun prec' => ?_)
    refine (padded.precedes_or_new wf early' prec').resolve_right fun late => ?_
    rw [padded.ahead middle _ late prec'] at stageless
    cases stageless

theorem settled (settled : pre.Settled home) : post.Settled home' := by
  intro id next homed shuffle passes
  have stageless : post.isStageBoundary id = false := by
    by_contra stage
    rw [padded.tidy.nested.founded.unmixed (Bool.eq_true_of_not_eq_false stage)] at shuffle
    cases shuffle
  by_cases early : id.raw < pre.next
  · have passes := padded.passes wf early stageless passes
    rw [isShuffleBoundary_of_kept (padded.old id early)] at shuffle
    rw [padded.homes id early] at homed
    obtain ⟨node, got⟩ := wf.exists_of_passes passes
    rw [isCalm_of_kept (padded.old next (wf.early got))]
    exact settled id next homed shuffle passes
  · have boundary := isBoundary_iff.mpr (.inr shuffle)
    rw [padded.isBoundary_new (Nat.not_lt.mp early)] at boundary
    cases boundary

theorem trans {last : Graph}
    (two : Padded post home' last home'') : Padded pre home last home'' where
  toEnlarged := padded.toEnlarged.trans wf two.toEnlarged
  ahead first second late prec := by
    by_cases early : second.raw < post.next
    · by_cases early' : first.raw < post.next
      · have prec := (two.precedes_or_new padded.tidy.wf early' prec).resolve_right
          (Nat.not_le.mpr early)
        rw [isStageBoundary_of_kept (two.old first early')]
        exact padded.ahead first second late prec
      · have boundary := two.behind first second (Nat.not_lt.mp early') prec
        rw [isBoundary_of_kept (two.old second early), padded.isBoundary_new late] at boundary
        cases boundary
    · exact two.ahead first second (Nat.not_lt.mp early) prec
  behind first second late prec := by
    by_cases early : first.raw < post.next
    · rcases two.precedes_or_new padded.tidy.wf early prec with prec | late'
      · rw [isBoundary_of_kept (two.old second (padded.tidy.wf.below_of_precedes prec).2)]
        exact padded.behind first second late prec
      · have boundary := isBoundary_of_isStageBoundary (two.ahead first second late' prec)
        rw [isBoundary_of_kept (two.old first early), padded.isBoundary_new late] at boundary
        cases boundary
    · exact two.behind first second (Nat.not_lt.mp early) prec
  guarded := two.guarded ∘ padded.guarded

end Padded

/-- The output port feeds no boundaries. -/
def HoplessOut (graph : Graph) (out : OutputId) : Prop :=
  ∀ input taker, graph.Feeds out input → graph.inputOwner? input = some taker →
    graph.isBoundary taker = false

/-- What an output port feeds is what it fed, or no boundary. -/
theorem Padded.feeds_boundary (padded : Padded pre home post home') (wf : pre.Consistent)
    (owned : pre.outputOwner? out = some owner) (feeds : post.Feeds out input)
    (taken : post.inputOwner? input = some taker) (boundary : post.isBoundary taker) :
    pre.Feeds out input ∧ pre.inputOwner? input = some taker ∧ pre.isBoundary taker := by
  rcases padded.feeds out owner input owned feeds with feeds | ⟨taker', taken', late⟩
  · obtain ⟨taker', taken'⟩ := wf.exists_inputOwner feeds
    cases (padded.inputOwner input taker' taken').symm.trans taken
    rw [isBoundary_of_kept (padded.old taker (wf.early_of_input taken'))] at boundary
    exact ⟨feeds, taken', boundary⟩
  · cases taken.symm.trans taken'
    rw [padded.isBoundary_new late] at boundary
    cases boundary

theorem Padded.hoplessOut (padded : Padded pre home post home') (wf : pre.Consistent)
    (owned : pre.outputOwner? out = some owner) (hopless : pre.HoplessOut out) :
    post.HoplessOut out := by
  intro input taker feeds taken
  by_contra boundary
  obtain ⟨feeds', taken', boundary'⟩ := padded.feeds_boundary wf owned feeds taken
    (Bool.eq_true_of_not_eq_false boundary)
  rw [hopless input taker feeds' taken'] at boundary'
  cases boundary'

/-- An identity on one hop from a stage boundary into a boundary. -/
theorem Tidy.exists_insertIdentityBetween (tidy : G.Tidy home)
    (owned : G.outputOwner? out = some owner) (stage : G.isStageBoundary owner)
    (taken : G.inputOwner? input = some taker) (boundary : G.isBoundary taker)
    (feeds : G.Feeds out input) :
    ∃ id post home', G.insertIdentityBetween out input = .ok (id, post) ∧
      Padded G home post home' ∧ ∀ target : InputId, target.raw < G.next →
        (post.Feeds out target ↔ G.Feeds out target ∧ target ≠ input) := by
  obtain ⟨port, read, got, connected⟩ := exists_output owned
  have wf := tidy.wf
  have fed : ∀ target ∈ [input], G.Feeds out target :=
    fun target mem => (mem_singleton.mp mem).symm ▸ feeds
  have spliced := wf.insertPassage got fed .identity .none
  let post := (G.insertPassage out port [input] .identity .none).2
  have grown : Enlarged (fun node => node.isIdentity = true) G home post
      (home ∘ attached G.next owner) := .of_spliced tidy
    (tidy.nested.founded.insertPassage tidy.rimmed got fed nofun .identity nofun) spliced owned
    fed nofun rfl rfl
  have below : ∀ {id : NodeId}, (∃ node, G.nodes[id]? = some node) → id.raw < G.next :=
    fun ⟨node, got⟩ => wf.early got
  obtain ⟨giving, giver, -⟩ := wf.node_of_output owned
  obtain ⟨taking, takes, -⟩ := wf.node_of_input taken
  refine ⟨⟨G.next⟩, post, _, ?_, ⟨grown, fun first second late prec => ?_,
    fun first second late prec => ?_, spliced.guarded wf owned fed nofun rfl stage
      fun target mem => ?_⟩, fun target early => ?_⟩
  · rw [insertIdentityBetween, bind_of_ok read, if_pos (connected ▸ feeds)]
    rfl
  · rcases spliced.prec wf owned fed prec with
      prec | ⟨rfl, -⟩ | ⟨-, target, mem, taken'⟩
    · have := (wf.below_of_precedes prec).2
      omega
    · rw [isStageBoundary_of_kept (grown.old first (below ⟨giving, giver⟩)), stage]
    · rw [mem_singleton.mp mem, taken] at taken'
      cases taken'
      have := below ⟨taking, takes⟩
      omega
  · rcases spliced.prec wf owned fed prec with
      prec | ⟨rfl, -⟩ | ⟨-, target, mem, taken'⟩
    · have := (wf.below_of_precedes prec).1
      omega
    · have := below ⟨giving, giver⟩
      omega
    · rw [mem_singleton.mp mem, taken] at taken'
      cases taken'
      rw [isBoundary_of_kept (grown.old taker (below ⟨taking, takes⟩)), boundary]
  · exact ⟨taker, (mem_singleton.mp mem).symm ▸ taken, boundary⟩
  · rw [spliced.feeds out target, mem_singleton]
    have ne := Handle.ne_of_raw_lt early 1
    have ne' := wf.output_ne owned 2
    tauto

theorem mem_boundaryTargets : input ∈ G.boundaryTargets out ↔ G.Feeds out input ∧
    ∃ taker, G.inputOwner? input = some taker ∧ G.isBoundary taker := by
  rw [boundaryTargets, mem_filter, mem_toList, Option.any_eq_true, Feeds]

/-- Identities on all hops from an output port of a stage boundary into boundaries. -/
theorem Tidy.exists_padOutput (tidy : G.Tidy home)
    (owned : G.outputOwner? out = some owner) (stage : G.isStageBoundary owner) :
    ∃ count post home', G.changeEach (G.boundaryTargets out) (fun G input => do
      let (_, G) ← G.insertIdentityBetween out input
      return (1, G)) = .ok (count, post) ∧
      Padded G home post home' ∧ post.HoplessOut out := by
  have wf := tidy.wf
  have early := wf.early_of_output owned
  -- of the targets that are boundaries, those are left that wait for their turn
  let inv (rest : List InputId) (_ : Nat) (now : Graph) : Prop :=
    rest.Nodup ∧ rest ⊆ G.boundaryTargets out ∧
      (∀ input ∈ G.boundaryTargets out, now.Feeds out input ↔ input ∈ rest) ∧
      ∃ home', Padded G home now home'
  have step : ∀ input rest count now, inv (input :: rest) count now → ∃ more post, (do
        let (_, G) ← now.insertIdentityBetween out input
        return (1, G)) = .ok (more, post) ∧ inv rest (count + more) post := by
    rintro input rest count now ⟨nodup, within, waits, home', padded⟩
    obtain ⟨fresh, nodup⟩ := nodup_cons.mp nodup
    have mem := within (.head _)
    obtain ⟨-, taker, taken, boundary⟩ := mem_boundaryTargets.mp mem
    obtain ⟨node, got, -⟩ := wf.node_of_input taken
    rw [← isStageBoundary_of_kept (padded.old owner early)] at stage
    rw [← isBoundary_of_kept (padded.old taker (wf.early got))] at boundary
    obtain ⟨id, next, home'', run, step, feeds⟩ := padded.tidy.exists_insertIdentityBetween
      ((padded.outputOwner wf early).mpr owned) stage
      (padded.inputOwner input taker taken) boundary ((waits input mem).mpr (.head _))
    refine ⟨1, next, bind_of_ok run, nodup, fun _ later => within (.tail _ later),
      fun other mem' => ?_, home'', padded.trans wf step⟩
    obtain ⟨-, taker', taken', -⟩ := mem_boundaryTargets.mp mem'
    rw [feeds other (Nat.lt_of_lt_of_le (wf.inputBelow other taker' taken') padded.grows),
      waits other mem', mem_cons]
    constructor
    · rintro ⟨eq | later, ne⟩
      · exact (ne eq).elim
      · exact later
    · exact fun later => ⟨.inr later, fun eq => fresh (eq ▸ later)⟩
  have begin' : inv (G.boundaryTargets out) 0 G :=
    ⟨(HandleSet.nodup_toList _).filter _, Subset.refl _,
      fun input mem => ⟨fun _ => mem, fun _ => (mem_boundaryTargets.mp mem).1⟩,
      home, .refl tidy⟩
  obtain ⟨count, post, run, -, -, none, home', padded⟩ := changeEach_keeps inv step begin'
  refine ⟨count, post, home', run, padded, fun input taker feeds taken => ?_⟩
  by_contra boundary
  obtain ⟨feeds', taken', boundary'⟩ := padded.feeds_boundary wf owned feeds taken
    (Bool.eq_true_of_not_eq_false boundary)
  exact not_mem_nil
    ((none input (mem_boundaryTargets.mpr ⟨feeds', taker, taken', boundary'⟩)).mp feeds)

/-- Identities behind all outputs of a stage boundary. -/
theorem Tidy.exists_padNode (tidy : G.Tidy home) (got : G.nodes[id]? = some node)
    (stage : node.isStageBoundary) :
    ∃ count post home', G.changeEach node.outputs (fun G out =>
      G.changeEach (G.boundaryTargets out) fun G input => do
        let (_, G) ← G.insertIdentityBetween out input
        return (1, G)) = .ok (count, post) ∧
      Padded G home post home' ∧ ∀ port ∈ node.outputs, post.HoplessOut port := by
  have wf := tidy.wf
  have early := wf.early got
  obtain ⟨count, post, run, ⟨home', padded⟩, hopless⟩ := exists_changeEach
    node.outputs (fun G out =>
      G.changeEach (G.boundaryTargets out) fun G input => do
        let (_, G) ← G.insertIdentityBetween out input
        return (1, G)) (fun now => ∃ home', Padded G home now home') HoplessOut (by
    rintro now port ⟨home', padded⟩ mem
    have got' := (padded.old id early).trans got
    have owned {port} (mem : port ∈ node.outputs) := padded.tidy.wf.output_of_mem got' mem
    obtain ⟨more, next, home'', run, step, done⟩ := padded.tidy.exists_padOutput (owned mem)
      (by rw [isStageBoundary, got']; exact stage)
    exact ⟨more, next, run, ⟨home'', padded.trans wf step⟩, done,
      fun other mem' => step.hoplessOut padded.tidy.wf (owned mem')⟩)
    ⟨home, .refl tidy⟩
  exact ⟨count, post, home', run, padded, hopless⟩

/-- No stage boundary feeds a boundary directly. -/
def Hopless (graph : Graph) (home : Homes) : Prop :=
  ∀ id next, home id = some [] → graph.isStageBoundary id = true → graph.Precedes id next →
    graph.isBoundary next = false

/-- What holds from then on. -/
structure Ready (graph : Graph) (home : Homes) : Prop where
  tidy : graph.Tidy home
  guarded : graph.Guarded home
  settled : graph.Settled home
  hopless : graph.Hopless home

/-- There is an identity on every hop from a stage boundary straight into a boundary. -/
theorem Tidy.exists_insertBoundaryIdentities (tidy : G.Tidy home) (guarded : G.Guarded home)
    (settled : G.Settled home) :
    ∃ count post home', G.insertBoundaryIdentities = .ok (count, post) ∧
      G.Conserves post ∧ post.Ready home' := by
  obtain ⟨count, post, home₀, home', run, tidy₀, narrower, padded, hopless⟩ := exists_eachMember
    Node.isStageBoundary (fun G node => G.changeEach node.outputs fun G out =>
      G.changeEach (G.boundaryTargets out) fun G input => do
        let (_, G) ← G.insertIdentityBetween out input
        return (1, G)) HoplessOut Padded .refl Padded.toEnlarged (fun wf one => one.trans wf)
    (fun wf step => step.hoplessOut wf)
    (fun tidy _ got stage => tidy.exists_padNode got stage) tidy
  refine ⟨count, post, home', run, padded.conserves, padded.tidy,
    padded.guarded fun id out homed => guarded id out (narrower id homed),
    padded.settled tidy₀.wf fun id next homed => settled id next (narrower id homed),
    fun id next homed stage prec => ?_⟩
  by_cases early : id.raw < G.next
  · have kept := padded.old id early
    rw [padded.homes id early] at homed
    rw [isStageBoundary_of_kept kept, isStageBoundary, Option.any_eq_true] at stage
    obtain ⟨node, got, stage⟩ := stage
    obtain ⟨out, input, given, taken, feeds⟩ := prec
    exact hopless id node homed got stage out
      ((padded.tidy.wf.mem_outputs_iff (kept.trans got)).mpr given) input next feeds taken
  · have boundary := isBoundary_of_isStageBoundary stage
    rw [padded.isBoundary_new (Nat.not_lt.mp early)] at boundary
    cases boundary

end Graph

end Staging
