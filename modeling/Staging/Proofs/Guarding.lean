import Staging.Proofs.Splicing

/-! # Checkpoints behind nodes that run at most once

An output port is guarded if it feeds one checkpoint at most, and nothing else. A stage
boundary is allowed one identity before the checkpoint. Every later change of a graph keeps
that: new nodes take the place of all that a guarded port feeds, and an identity before a
checkpoint is neither split nor taken out.
-/

namespace Staging

open Std List

variable {id : NodeId} {good good' : NodeId → Prop} {owner other : NodeId} {node : Node}
  {out : OutputId} {input : InputId} {home : Homes}

/-- The node is a checkpoint that ends a stage. -/
def Node.isStop (node : Node) : Bool :=
  node.kind == .pseudo .checkpoint && node.boundary == .stage

/-- The node runs at most once and is no identity. -/
def Node.isBinding (node : Node) : Bool :=
  node.hasGlobalEffect && !node.isIdentity

private theorem Node.isStageBoundary_of_isStop (stop : node.isStop) :
    node.isStageBoundary := by
  rw [isStop, Bool.and_eq_true] at stop
  rw [isStageBoundary, stop.2, Bool.true_or, Bool.true_or]

namespace Graph

variable {G pre post : Graph}

/-- The node is a checkpoint that ends a stage. -/
def isStop (graph : Graph) (id : NodeId) : Bool :=
  graph.nodes[id]?.any Node.isStop

/-- The node runs at most once and is no identity. -/
def isBinding (graph : Graph) (id : NodeId) : Bool :=
  graph.nodes[id]?.any Node.isBinding

theorem isStageBoundary_of_isStop (stop : G.isStop id) :
    G.isStageBoundary id := by
  rw [isStop, Option.any_eq_true] at stop
  obtain ⟨node, got, stop⟩ := stop
  rw [isStageBoundary, got, Option.any_some, Node.isStageBoundary_of_isStop stop]

theorem isBoundary_of_isStageBoundary (stage : G.isStageBoundary id) : G.isBoundary id :=
  isBoundary_iff.mpr (.inl stage)

private theorem not_isStop_of_isIdentity (identity : G.isIdentity id) : G.isStop id = false := by
  by_contra stop
  have boundary := isBoundary_of_isStageBoundary (isStageBoundary_of_isStop
    (Bool.eq_true_of_not_eq_false stop))
  rw [isBoundary_of_isIdentity identity] at boundary
  cases boundary

private theorem not_isBinding_of_isIdentity (identity : G.isIdentity id) :
    G.isBinding id = false := by
  rw [isIdentity, Option.any_eq_true] at identity
  obtain ⟨node, got, identity⟩ := identity
  rw [isBinding, got, Option.any_some, Node.isBinding, identity, Bool.not_true, Bool.and_false]

/-! ## Nodes that stay -/

section Kept

variable (eq : post.nodes[id]? = pre.nodes[id]?)

include eq

theorem isBoundary_of_kept : post.isBoundary id = pre.isBoundary id := by
  rw [isBoundary, isBoundary, eq]

theorem isStageBoundary_of_kept : post.isStageBoundary id = pre.isStageBoundary id := by
  rw [isStageBoundary, isStageBoundary, eq]

theorem isShuffleBoundary_of_kept : post.isShuffleBoundary id = pre.isShuffleBoundary id := by
  rw [isShuffleBoundary, isShuffleBoundary, eq]

theorem isCalm_of_kept : post.isCalm id = pre.isCalm id := by
  rw [isCalm, isCalm, eq]

theorem isIdentity_of_kept : post.isIdentity id = pre.isIdentity id := by
  rw [isIdentity, isIdentity, eq]

theorem isStop_of_kept : post.isStop id = pre.isStop id := by
  rw [isStop, isStop, eq]

theorem isBinding_of_kept : post.isBinding id = pre.isBinding id := by
  rw [isBinding, isBinding, eq]

theorem inputOwner_of_kept (wf : pre.Consistent) (wf' : post.Consistent) :
    post.inputOwner? input = some id ↔ pre.inputOwner? input = some id := by
  rw [wf'.inputOwner, wf.inputOwner, eq]

theorem outputOwner_of_kept (wf : pre.Consistent) (wf' : post.Consistent) :
    post.outputOwner? out = some id ↔ pre.outputOwner? out = some id := by
  rw [wf'.outputOwner, wf.outputOwner, eq]

end Kept

/-! ## Guarded ports -/

/-- The output port feeds at most one input port, and what that belongs to is good. -/
def EndsIn (graph : Graph) (good : NodeId → Prop) (out : OutputId) : Prop :=
  ∀ input, graph.Feeds out input → (∀ other, graph.Feeds out other → other = input) ∧
    ∃ taker, graph.inputOwner? input = some taker ∧ good taker

/-- The output port feeds at most one checkpoint. -/
abbrev StopsOut (graph : Graph) : OutputId → Prop := graph.EndsIn (graph.isStop · = true)

/-- The node is a checkpoint, or an identity before one and behind a stage boundary. -/
def Stops (graph : Graph) (id taker : NodeId) : Prop :=
  graph.isStop taker = true ∨ graph.isStageBoundary id = true ∧ graph.isIdentity taker = true ∧
    ∀ exit, graph.outputOwner? exit = some taker → graph.StopsOut exit

/-- All outputs of nodes that run at most once are guarded. -/
def Guarded (graph : Graph) (home : Homes) : Prop :=
  ∀ id out, home id = some [] → graph.isBinding id = true →
    graph.outputOwner? out = some id → graph.EndsIn (graph.Stops id) out

/-- A port that feeds nothing else than it did. -/
theorem EndsIn.kept (ends : pre.EndsIn good out)
    (feeds : ∀ input, post.Feeds out input → pre.Feeds out input)
    (stays : ∀ input taker, pre.Feeds out input → pre.inputOwner? input = some taker →
      good taker → post.inputOwner? input = some taker ∧ good' taker) :
    post.EndsIn good' out := by
  intro input fed
  obtain ⟨only, taker, taken, fits⟩ := ends input (feeds input fed)
  obtain ⟨taken', fits'⟩ := stays input taker (feeds input fed) taken fits
  exact ⟨fun other fed' => only other (feeds other fed'), taker, taken', fits'⟩

/-- A port that feeds a checkpoint does not feed an identity. -/
theorem StopsOut.not_feeds (stops : G.StopsOut out)
    (own : G.inputOwner? input = some id) (identity : G.isIdentity id) :
    ¬ G.Feeds out input := by
  intro feeds
  obtain ⟨-, taker, taken, stop⟩ := stops input feeds
  cases own.symm.trans taken
  rw [not_isStop_of_isIdentity identity] at stop
  cases stop

theorem Stops.kept {taker : NodeId} (stops : pre.Stops id taker) (wf : pre.Consistent)
    (wf' : post.Consistent) (eq : post.nodes[id]? = pre.nodes[id]?)
    (eq' : post.nodes[taker]? = pre.nodes[taker]?)
    (exits : ∀ exit, pre.isIdentity taker → pre.outputOwner? exit = some taker →
      pre.StopsOut exit → post.StopsOut exit) : post.Stops id taker := by
  rcases stops with stop | ⟨stage, identity, stops⟩
  · exact .inl ((isStop_of_kept eq').trans stop)
  · refine .inr ⟨(isStageBoundary_of_kept eq).trans stage,
      (isIdentity_of_kept eq').trans identity, fun exit own => ?_⟩
    rw [outputOwner_of_kept eq' wf wf'] at own
    exact exits exit identity own (stops exit own)

/-! ## Nodes put on connections -/

section Spliced

variable {moved : List InputId} {made : Node} (spliced : Spliced pre out moved made post)
  (wf : pre.Consistent) (owned : pre.outputOwner? out = some owner)
  (fed : ∀ target ∈ moved, pre.Feeds out target) (all : moved = [] → ∀ input, ¬ pre.Feeds out input)

include spliced wf

/-- The other ports feed what they fed. -/
theorem Spliced.feeds_other {port : OutputId} (given : pre.outputOwner? port = some id)
    (ne : port ≠ out) (feeds : post.Feeds port input) : pre.Feeds port input := by
  rcases (spliced.feeds port input).mp feeds with ⟨feeds, -⟩ | ⟨eq, -⟩ | ⟨eq, -⟩
  · exact feeds
  · exact (ne eq).elim
  · exact (wf.output_ne given 2 eq).elim

include owned fed all

/-- A port with one target feeds nothing but the new node. -/
theorem Spliced.endsIn_new (ends : pre.EndsIn good out)
    (fits : good' ⟨pre.next⟩) : post.EndsIn good' out := by
  have only : ∀ input, post.Feeds out input → input = ⟨pre.next + 1⟩ := by
    intro input feeds
    rcases (spliced.feeds out input).mp feeds with ⟨feeds, stays⟩ | ⟨-, eq⟩ | ⟨eq, -⟩
    · obtain ⟨first, mem⟩ := exists_mem_of_ne_nil moved fun none => all none input feeds
      exact (stays ⟨rfl, (ends input feeds).1 first (fed first mem) ▸ mem⟩).elim
    · exact eq
    · exact (wf.output_ne owned 2 eq).elim
  intro input feeds
  refine ⟨fun other feeds' => (only other feeds').trans (only input feeds).symm, ⟨pre.next⟩, ?_,
    fits⟩
  rw [only input feeds, spliced.takes]

/-- An identity behind a stage boundary and before a boundary keeps all guards. -/
theorem Spliced.guarded (identity : made.isIdentity)
    (stage : pre.isStageBoundary owner) (boundary : ∀ target ∈ moved, ∃ taker,
      pre.inputOwner? target = some taker ∧ pre.isBoundary taker)
    (guarded : pre.Guarded home) : post.Guarded (home ∘ attached pre.next owner) := by
  have new := spliced.new
  have entry : ∀ input taker, pre.inputOwner? input = some taker →
      post.inputOwner? input = some taker ∧ post.nodes[taker]? = pre.nodes[taker]? := by
    intro input taker taken
    obtain ⟨node, got, -⟩ := wf.node_of_input taken
    exact ⟨spliced.inputOwner_old wf taken, (spliced.nodes_old wf got).trans got.symm⟩
  have exits : ∀ taker exit, pre.isIdentity taker = true →
      pre.outputOwner? exit = some taker → pre.StopsOut exit → post.StopsOut exit := by
    intro taker exit identity own stops
    have ne : exit ≠ out := by
      rintro rfl
      cases own.symm.trans owned
      have boundary := isBoundary_of_isStageBoundary stage
      rw [isBoundary_of_isIdentity identity] at boundary
      cases boundary
    refine stops.kept (fun input => spliced.feeds_other wf own ne)
      fun input taker _ taken stop => ⟨(entry input taker taken).1, ?_⟩
    rw [isStop_of_kept (entry input taker taken).2, stop]
  intro id port homed binding own
  have ne : id ≠ ⟨pre.next⟩ := by
    rintro rfl
    rw [not_isBinding_of_isIdentity (by rw [isIdentity, new, Option.any_some, identity])] at binding
    cases binding
  have eq : post.nodes[id]? = pre.nodes[id]? := (spliced.nodes id).trans (if_neg ne)
  rw [isBinding_of_kept eq] at binding
  rw [outputOwner_of_kept eq wf spliced.wf] at own
  rw [Function.comp, attached_old (wf.early_of_output own)] at homed
  have ends := guarded id port homed binding own
  by_cases here : port = out
  · subst here
    cases own.symm.trans owned
    refine spliced.endsIn_new wf owned fed all ends
      (.inr ⟨(isStageBoundary_of_kept eq).trans stage, ?_, fun exit own' => ?_⟩)
    · rw [isIdentity, new, Option.any_some, identity]
    · -- the new identity feeds what the port has fed, which is no identity
      have only : exit = ⟨pre.next + 2⟩ := by
        rwa [← spliced.wf.mem_outputs_iff new, spliced.outputs, mem_singleton] at own'
      have moves : ∀ input, post.Feeds exit input → input ∈ moved := by
        intro input feeds
        rw [only] at feeds
        rcases (spliced.feeds _ input).mp feeds with ⟨feeds, -⟩ | ⟨eq, -⟩ | ⟨-, mem⟩
        · obtain ⟨giver, given⟩ := exists_outputOwner_of_feeds feeds
          exact (wf.output_ne given 2 rfl).elim
        · exact (wf.output_ne owned 2 eq.symm).elim
        · exact mem
      intro input feeds
      have fed' := fed input (moves input feeds)
      obtain ⟨single, taker, taken, stops⟩ := ends input fed'
      refine ⟨fun other feeds' => single other (fed other (moves other feeds')), taker,
        (entry input taker taken).1, (isStop_of_kept (entry input taker taken).2).trans ?_⟩
      refine stops.resolve_right fun stands => ?_
      have identity := stands.2.1
      obtain ⟨taker', taken', boundary⟩ := boundary input (moves input feeds)
      cases taken.symm.trans taken'
      rw [isBoundary_of_isIdentity identity] at boundary
      cases boundary
  · exact ends.kept (fun input => spliced.feeds_other wf own here)
      fun input taker _ taken stops => ⟨(entry input taker taken).1,
        stops.kept wf spliced.wf eq (entry input taker taken).2 (exits taker)⟩

end Spliced

/-! ## Identities split and taken out -/

section Apart

variable (wf : pre.Consistent) (wf' : post.Consistent) (identity : pre.isIdentity id)
  (stays : ∀ other node, other ≠ id → pre.nodes[other]? = some node →
    post.nodes[other]? = pre.nodes[other]?)
  (feeds : ∀ out owner input, pre.outputOwner? out = some owner → owner ≠ id →
    post.Feeds out input → pre.Feeds out input ∨
      ∃ entry, pre.inputOwner? entry = some id ∧ pre.Feeds out entry)

include wf wf' identity stays

/-- Checkpoints are not concerned. -/
theorem isStop_apart (taken : pre.inputOwner? input = some owner) (stop : pre.isStop owner) :
    post.inputOwner? input = some owner ∧ post.isStop owner := by
  have ne : owner ≠ id := by
    rintro rfl
    rw [not_isStop_of_isIdentity identity] at stop
    cases stop
  obtain ⟨node, got, -⟩ := wf.node_of_input taken
  have eq := stays owner node ne got
  exact ⟨(inputOwner_of_kept eq wf wf').mpr taken, (isStop_of_kept eq).trans stop⟩

include feeds

private theorem StopsOut.apart (stops : pre.StopsOut out)
    (own : pre.outputOwner? out = some owner) (ne : owner ≠ id) :
    post.StopsOut out := by
  refine stops.kept (fun input fed => ?_) fun input taker fed =>
    isStop_apart wf wf' identity stays
  refine (feeds out owner input own ne fed).resolve_right fun ⟨entry, taken, fed⟩ => ?_
  exact stops.not_feeds taken identity fed

/-- Guards of ports that do not feed the identity stay. -/
theorem EndsIn.apart (ends : pre.EndsIn (pre.Stops other) out)
    (own : pre.outputOwner? out = some other) (ne : other ≠ id)
    (clear : ∀ entry, pre.inputOwner? entry = some id → ¬ pre.Feeds out entry) :
    post.EndsIn (post.Stops other) out := by
  refine ends.kept (fun input fed => ?_) fun input taker fed taken stops => ?_
  · exact (feeds out other input own ne fed).resolve_right fun ⟨entry, taken, fed⟩ =>
      clear entry taken fed
  · have ne' : taker ≠ id := by
      rintro rfl
      exact clear input taken fed
    obtain ⟨node, got, -⟩ := wf.node_of_output own
    obtain ⟨node', got', -⟩ := wf.node_of_input taken
    have eq := stays taker node' ne' got'
    exact ⟨(inputOwner_of_kept eq wf wf').mpr taken, stops.kept wf wf' (stays other node ne got) eq
        fun exit _ own stops => stops.apart wf wf' identity stays feeds own ne'⟩

end Apart

/-- An identity behind a guarded port has one target, and so has its copy there. -/
theorem Split.guarded {entry : InputId} {exit : OutputId} {pairs : List (OutputId × InputId)}
    (split : Split pre id entry exit pairs post) (wf : pre.Consistent)
    (got : pre.nodes[id]? = some node) (identity : node.isIdentity)
    (inputs : node.inputs = [entry]) (outputs : node.outputs = [exit])
    (guarded : pre.Guarded home) : post.Guarded (home ∘ attached pre.next id) := by
  have through : pre.isIdentity id := by rw [isIdentity, got, Option.any_some, identity]
  have stays : ∀ other node, other ≠ id → pre.nodes[other]? = some node →
      post.nodes[other]? = pre.nodes[other]? := fun other node ne got =>
    split.old other (wf.early got) ne
  have feeds : ∀ out owner input, pre.outputOwner? out = some owner → owner ≠ id →
      post.Feeds out input → pre.Feeds out input ∨
        ∃ entry, pre.inputOwner? entry = some id ∧ pre.Feeds out entry := by
    intro out owner input own ne feeds
    rcases split.target_old (wf.outputBelow out owner own) feeds with
      ⟨old, -⟩ | ⟨place, target, known, -⟩
    · exact .inl old
    · exact .inr ⟨entry, wf.input_of_mem got (by simp [inputs]), (split.feeds_pair known).1⟩
  intro other port homed binding own
  obtain ⟨record, there, mem⟩ := split.wf.node_of_output own
  have early : other.raw < pre.next := by
    by_contra late
    obtain ⟨place, -, copy, -⟩ := split.new other record (Nat.not_lt.mp late) there
    rw [not_isBinding_of_isIdentity (by rw [isIdentity, there, Option.any_some, copy])] at binding
    cases binding
  obtain ⟨ne, -⟩ := split.nodes_old there early
  have eq := split.old other early ne
  rw [outputOwner_of_kept eq wf split.wf] at own
  rw [isBinding_of_kept eq] at binding
  rw [Function.comp, attached_old early] at homed
  have ends := guarded other port homed binding own
  by_cases enters : pre.Feeds port entry
  · -- all that the port fed was the identity, which fed at most one checkpoint
    obtain ⟨only, taker, taken, stops⟩ := ends entry enters
    cases taken.symm.trans (wf.input_of_mem got (by simp [inputs]))
    obtain ⟨stage, -, stops⟩ := stops.resolve_left (by simp [not_isStop_of_isIdentity through])
    have stops := stops exit (wf.output_of_mem got (by simp [outputs]))
    have target : ∀ input, post.Feeds port input → ∃ place target,
        pairs[place]? = some (port, target) ∧ input = ⟨pre.next + (3 * place + 1)⟩ := by
      intro input feeds
      refine (split.target_old (wf.outputBelow port other own) feeds).resolve_left ?_
      exact fun kept => kept.2 (only input kept.1)
    intro input feeds
    obtain ⟨place, target', known, rfl⟩ := target input feeds
    obtain ⟨only', last, taken', stop⟩ := stops target' (split.feeds_pair known).2
    refine ⟨fun input' feeds' => ?_, ?_⟩
    · obtain ⟨place', target'', known', rfl⟩ := target input' feeds'
      cases only' target'' (split.feeds_pair known').2
      rw [split.place_eq known known']
    obtain ⟨copy, taken⟩ := split.wf.exists_inputOwner feeds
    obtain ⟨record', there', copied, -, outputs'⟩ := split.copy wf taken
    refine ⟨copy, taken, .inr ⟨(isStageBoundary_of_kept eq).trans stage, ?_, fun exit' own' => ?_⟩⟩
    · rw [isIdentity, there', Option.any_some, copied]
    rw [← split.wf.mem_outputs_iff there', outputs', mem_singleton] at own'
    have targets : ∀ input, post.Feeds exit' input → input = target' := by
      intro input feeds
      obtain ⟨source, known'⟩ := split.target wf (own' ▸ feeds)
      cases known.symm.trans known'
      rfl
    intro input feeds
    cases targets input feeds
    exact ⟨targets, last, isStop_apart wf split.wf through stays taken' stop⟩
  · refine ends.apart wf split.wf through stays feeds own ne fun entry' taken => ?_
    rw [← wf.mem_inputs_iff got, inputs, mem_singleton] at taken
    exact taken ▸ enters

/-- An identity behind a guarded port is needed, unless it feeds nothing. -/
theorem Skipped.guarded (skipped : Skipped pre id post) (wf : pre.Consistent)
    (identity : pre.isIdentity id)
    (spare : ∀ first next, pre.Precedes first id → pre.Precedes id next →
      pre.isStageBoundary first → pre.isBoundary next = false)
    (guarded : pre.Guarded home) : post.Guarded home := by
  have stays : ∀ other node, other ≠ id → pre.nodes[other]? = some node →
      post.nodes[other]? = pre.nodes[other]? := fun _ _ ne _ => skipped.kept ne
  have feeds : ∀ out owner input, pre.outputOwner? out = some owner → owner ≠ id →
      post.Feeds out input → pre.Feeds out input ∨
        ∃ entry, pre.inputOwner? entry = some id ∧ pre.Feeds out entry := by
    intro out owner input _ _ feeds
    obtain ⟨-, -, old | ⟨entry, exit, here, -, enters, -⟩⟩ := (skipped.feeds out input).mp feeds
    · exact .inl old
    · exact .inr ⟨entry, here, enters⟩
  intro other port homed binding own
  obtain ⟨ne, own⟩ := (skipped.outputOwner wf).mp own
  have ends := guarded other port homed
    ((isBinding_of_kept (skipped.kept ne)).symm.trans binding) own
  by_cases enters : ∃ entry, pre.inputOwner? entry = some id ∧ pre.Feeds port entry
  · obtain ⟨entry, here, enters⟩ := enters
    obtain ⟨only, taker, taken, stops⟩ := ends entry enters
    cases taken.symm.trans here
    obtain ⟨stage, -, stops⟩ := stops.resolve_left (by simp [not_isStop_of_isIdentity identity])
    intro input feeds
    obtain ⟨-, clear, old | ⟨entry', exit, -, there, -, leaves⟩⟩ :=
      (skipped.feeds port input).mp feeds
    · exact (clear (only input old ▸ here)).elim
    · obtain ⟨-, last, taken', stop⟩ := stops exit there input leaves
      have boundary := isBoundary_of_isStageBoundary (isStageBoundary_of_isStop stop)
      rw [spare other last ⟨port, entry, own, here, enters⟩ ⟨exit, input, there, taken', leaves⟩
        stage] at boundary
      cases boundary
  · exact ends.apart wf skipped.wf identity stays feeds own ne
      fun entry taken fed => enters ⟨entry, taken, fed⟩

end Graph

end Staging
