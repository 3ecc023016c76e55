import Staging.Proofs.Conservation
import Staging.Proofs.Sketches

/-! # The form of normalized graphs

What normalization promises about shuffles, identities and nodes that run at most
once holds of all nodes that can be reached from the root scope of its result.
-/

namespace Staging

open Relation

variable {G graph post : Graph} {id next : NodeId}

namespace Graph

/-- Normalization succeeds, and what holds in the end does so for all nodes that can be
reached. -/
theorem Built.exists_done (built : G.Built) (isolated : G.Isolated)
    (acyclic : G.Acyclic) (mode : FlowPartMode) : ∃ summary post home,
      G.normalize mode = .ok (summary, post) ∧ post.Done home ∧
      ∀ id, post.Reached id → post.Member id := by
  obtain ⟨summary, post, home, run, -, done⟩ := built.exists_normalized isolated acyclic mode
  exact ⟨summary, post, home, run, done, fun id ⟨_, within⟩ => done.normal.member_of_within within⟩

/-- Members of the root scope can be reached in the end. -/
theorem Built.reached_of_normalize (built : G.Built) (isolated : G.Isolated)
    (acyclic : G.Acyclic) {mode : FlowPartMode} {summary : NormalizeSummary}
    (run : G.normalize mode = .ok (summary, post)) {members : HandleSet .node}
    (mem : post.rootMembers = .ok members) (has : id ∈ members) : post.Reached id := by
  obtain ⟨_, _, _, run', done, -⟩ := built.exists_done isolated acyclic mode
  cases run.symm.trans run'
  obtain ⟨_, mem', mem_members⟩ := done.normal.rootMembers_eq_ok
  cases mem.symm.trans mem'
  obtain ⟨tip, entry, led⟩ := (mem_members id).mp has
  exact ⟨[], .root entry led⟩

end Graph

/-- The normalized graph of a sketch has the node in its root scope and passes a test. -/
def Sketch.normalizes (sketch : Sketch) (id : NodeId) (test : Graph → Bool) : Bool :=
  sketch.draw.toOption.any fun graph =>
    (graph.scopes.toOption.any fun scopes => (scopes.flatMap graph.scopeProblems).isEmpty) &&
    (graph.normalize .segregate).toOption.any fun (_, post) =>
      post.rootMembers.toOption.any (·.contains id) && test post

theorem Sketch.exists_of_normalizes {sketch : Sketch} {test : Graph → Bool}
    (checked : sketch.normalizes id test) : ∃ source : Graph,
      source.Built ∧ source.Isolated ∧ source.Acyclic ∧ ∃ summary post,
        source.normalize .segregate = .ok (summary, post) ∧ post.Reached id ∧
        test post := by
  simp only [normalizes, any_toOption, Bool.and_eq_true] at checked
  obtain ⟨source, drawn, ⟨scopes, got, none⟩, ⟨summary, post⟩, run,
    ⟨members, mem, has⟩, passed⟩ := checked
  obtain ⟨built, partless⟩ := built_of_draw drawn
  have isolated := Graph.isolated_of_flat partless
  have acyclic := built.founded.acyclic got (List.isEmpty_iff.mp none)
  exact ⟨source, built, isolated, acyclic, summary, post, run,
    built.reached_of_normalize isolated acyclic run mem
      (Std.ExtTreeSet.contains_iff_mem.mp has), passed⟩

namespace Graph

/-! ## Shuffles -/

/-- The last step of a walk leaves the start, or a node that is no boundary. -/
theorem Passes.exists_last (passes : G.Passes id next) : ∃ prev, G.Precedes prev next ∧
    (prev = id ∨ G.isBoundary prev = false) := by
  induction passes with
  | step prec => exact ⟨_, prec, .inl rfl⟩
  | on _ clear _ ih =>
    obtain ⟨prev, prec, rfl | clear'⟩ := ih
    · exact ⟨prev, prec, .inr clear⟩
    · exact ⟨prev, prec, .inr clear'⟩

/-- The first shuffle behind a node is at the end of a walk, unless stage boundaries come
before it. -/
theorem exists_passes_of_transGen (shuffle : G.isShuffleBoundary next)
    (led : TransGen (fun first second => G.Precedes first second ∧
      G.isStageBoundary second = false) id next) :
    ∃ other, G.isShuffleBoundary other ∧ G.Passes id other := by
  induction led using TransGen.head_induction_on with
  | single step => exact ⟨next, shuffle, .step step.1⟩
  | @head first second step _ ih =>
    by_cases here : G.isShuffleBoundary second = true
    · exact ⟨second, here, .step step.1⟩
    · obtain ⟨other, shuffle', passes⟩ := ih
      have clear : G.isBoundary second = false := by
        rw [← Bool.not_eq_true, isBoundary_iff]
        simp [step.2, here]
      exact ⟨other, shuffle', .on step.1 clear passes⟩

namespace Normal

variable (normal : G.Normal) (has : G.Member id)
  (shuffle : G.isShuffleBoundary id) (passes : G.Passes id next)

include normal has shuffle passes

/-- Walks from shuffles arrive at stage boundaries. -/
theorem arrives (boundary : G.isBoundary next) : G.isStageBoundary next := by
  obtain ⟨node, got, calm⟩ := (Option.any_eq_true _ _).mp (normal.calm id next has shuffle passes)
  rw [isBoundary, got, Option.any_some] at boundary
  rw [isStageBoundary, got, Option.any_some]
  refine (Bool.or_eq_true_iff.mp calm).resolve_right fun down => ?_
  rw [isBoundary_of_isPushDownTarget down] at boundary
  cases boundary

/-- Walks from shuffles pass branches and logging operators only. -/
theorem passing (clear : G.isBoundary next = false) : ∃ node, G.nodes[next]? = some node ∧
    (node.kind = .operator .branch ∨ node.kind = .operator .logging) := by
  obtain ⟨node, got, calm⟩ := (Option.any_eq_true _ _).mp (normal.calm id next has shuffle passes)
  refine ⟨node, got, ?_⟩
  simp only [Bool.or_eq_true, Node.isPushDownTarget, Bool.and_eq_true, beq_iff_eq] at calm
  rcases calm with stage | identity | ⟨-, kind⟩
  · have stage' : G.isStageBoundary next := by
      rw [isStageBoundary, got, Option.any_some, stage]
    cases (isBoundary_of_isStageBoundary stage').symm.trans clear
  · -- what feeds an identity is a stage boundary
    obtain ⟨prev, prec, eq⟩ := passes.exists_last
    have stage := normal.identityAfter next prev (has.passes passes)
      (by rw [isIdentity, got, Option.any_some, identity]) prec
    rcases eq with rfl | clear'
    · cases (normal.unmixed prev stage).symm.trans shuffle
    · cases (isBoundary_of_isStageBoundary stage).symm.trans clear'
  · exact kind

end Normal

/-- Walks from a shuffle pass branches and logging operators and arrive at stage
boundaries. Thus every way to another shuffle crosses a stage boundary. -/
theorem normalize_settles_shuffles (built : graph.Built) (isolated : graph.Isolated)
    (acyclic : graph.Acyclic) (mode : FlowPartMode) :
    ∃ summary after, graph.normalize mode = .ok (summary, after) ∧
      ∀ id, after.Reached id → after.isShuffleBoundary id = true →
        ∃ span, after.walk .forward (.of [id]) = .ok span ∧
          (∀ arrival ∈ span.arrivals, after.isStageBoundary arrival = true) ∧
          (∀ passing ∈ span.passings, ∃ node, after.nodes[passing]? = some node ∧
            node.isBoundary = false ∧
            (node.kind = .operator .branch ∨ node.kind = .operator .logging)) ∧
          ∀ other, after.isShuffleBoundary other = true →
            ¬ TransGen (fun first second => after.Precedes first second ∧
              after.isStageBoundary second = false) id other := by
  obtain ⟨summary, after, home, run, done, reaches⟩ := built.exists_done isolated acyclic mode
  have normal := done.normal
  refine ⟨summary, after, run, fun id reached shuffle => ?_⟩
  have member := reaches id reached
  have start : ∀ other ∈ HandleSet.of [id], other = id := by simp [HandleSet.mem_of]
  refine ⟨after.walkFrom .forward (.of [id]), ?_, fun arrival mem => ?_, fun passing mem => ?_,
    fun other shuffle' led => ?_⟩
  · rw [walk, checkNodes_eq_ok fun other mem => ?_]
    · rfl
    · rw [start other (Std.ExtTreeSet.mem_toList.mp mem)]
      exact normal.exists_node member
  · obtain ⟨boundary, other, mem, passes⟩ := (mem_arrivals_forward normal.wf).mp mem
    cases start other mem
    exact normal.arrives member shuffle passes boundary
  · obtain ⟨clear, other, mem, passes⟩ := (mem_passings_forward normal.wf).mp mem
    cases start other mem
    obtain ⟨node, found, kind⟩ := normal.passing member shuffle passes clear
    rw [isBoundary, found, Option.any_some] at clear
    exact ⟨node, found, clear, kind⟩
  · obtain ⟨last, shuffle', passes⟩ := exists_passes_of_transGen shuffle' led
    cases (normal.settled id last member shuffle passes).symm.trans shuffle'

/-- A shuffle that feeds a branch, which an input feeds too. -/
theorem normalize_settles_shuffles_leaking : ∃ source : Graph,
    source.Built ∧ source.Isolated ∧ source.Acyclic ∧ ∃ summary after span,
      source.normalize .segregate = .ok (summary, after) ∧
      after.Reached ⟨7⟩ ∧ after.isShuffleBoundary ⟨7⟩ = true ∧
      after.walk .forward (.of [⟨7⟩]) = .ok span ∧
      (∀ arrival ∈ span.arrivals, after.isStageBoundary arrival = true) ∧
      ∀ passing ∈ span.passings, ∃ node, after.nodes[passing]? = some node ∧
        node.isBoundary = false ∧
        (node.kind = .operator .branch ∨ node.kind = .operator .logging) := by
  have checked : (Sketch.leaking.normalizes ⟨7⟩ (isShuffleBoundary · ⟨7⟩)) = true := by
    decide +kernel
  obtain ⟨source, built, isolated, acyclic, summary, after, run, reached, shuffle⟩ :=
    Sketch.exists_of_normalizes checked
  obtain ⟨_, _, run', settles⟩ := normalize_settles_shuffles built isolated acyclic .segregate
  cases run.symm.trans run'
  obtain ⟨span, walked, arrivals, passings, -⟩ := settles ⟨7⟩ reached shuffle
  exact ⟨source, built, isolated, acyclic, summary, after, span, run, reached, shuffle, walked,
    arrivals, passings⟩

/-! ## Identities -/

/-- No stage boundary leads straight to a boundary. Each identity has one connection on
both sides, follows a stage boundary and precedes a boundary. -/
theorem normalize_slims_identities (built : graph.Built) (isolated : graph.Isolated)
    (acyclic : graph.Acyclic) (mode : FlowPartMode) :
    ∃ summary after, graph.normalize mode = .ok (summary, after) ∧
      (∀ id next, after.Reached id → after.isStageBoundary id = true →
        after.isBoundary next = true → ¬ after.Precedes id next) ∧
      ∀ id, after.Reached id → after.isIdentity id = true →
        (∃! link : OutputId × InputId, after.inputOwner? link.2 = some id ∧
          after.Feeds link.1 link.2) ∧
        (∃! link : OutputId × InputId, after.outputOwner? link.1 = some id ∧
          after.Feeds link.1 link.2) ∧
        (∀ prev, after.Precedes prev id → after.isStageBoundary prev = true) ∧
        ∀ next, after.Precedes id next → after.isBoundary next = true := by
  obtain ⟨summary, after, home, run, done, reaches⟩ := built.exists_done isolated acyclic mode
  refine ⟨summary, after, run, fun id next reached stage boundary prec => ?_,
    fun id reached identity => ?_⟩
  · cases (done.normal.hopless id next (reaches id reached) stage prec).symm.trans boundary
  · have homed := done.tidy.home_of_member (reaches id reached)
    have slim := done.slim id homed identity List.not_mem_nil
    obtain ⟨⟨_, first, entry, -, own, fed⟩, ⟨_, exit, last, own', -, feeds⟩, stages, boundaries⟩ :=
      done.tidy.wf.isNeeded_iff.mp (done.needed id homed identity)
    refine ⟨⟨(first, entry), ⟨own, fed⟩, fun other ⟨taken, fed'⟩ => ?_⟩,
      ⟨(exit, last), ⟨own', feeds⟩, fun other ⟨given, feeds'⟩ => ?_⟩, stages, boundaries⟩
    · obtain ⟨eq, eq'⟩ := slim.single _ _ _ _ taken own fed' fed
      exact Prod.ext eq eq'
    · obtain ⟨eq, eq'⟩ := slim.single' _ _ _ _ given own' feeds' feeds
      exact Prod.ext eq' eq

/-- An identity between a checkpoint and one of two shuffles. -/
theorem normalize_slims_identities_counted : ∃ source : Graph,
    source.Built ∧ source.Isolated ∧ source.Acyclic ∧ ∃ summary after,
      source.normalize .segregate = .ok (summary, after) ∧
      after.Reached ⟨18⟩ ∧ after.isIdentity ⟨18⟩ = true ∧
      (∃! link : OutputId × InputId, after.inputOwner? link.2 = some ⟨18⟩ ∧
        after.Feeds link.1 link.2) ∧
      ∃! link : OutputId × InputId, after.outputOwner? link.1 = some ⟨18⟩ ∧
        after.Feeds link.1 link.2 := by
  have checked : (Sketch.counted.normalizes ⟨18⟩ (isIdentity · ⟨18⟩)) = true := by decide +kernel
  obtain ⟨source, built, isolated, acyclic, summary, after, run, reached, identity⟩ :=
    Sketch.exists_of_normalizes checked
  obtain ⟨_, _, run', -, slim⟩ := normalize_slims_identities built isolated acyclic .segregate
  cases run.symm.trans run'
  obtain ⟨entry, exit, -⟩ := slim ⟨18⟩ reached identity
  exact ⟨source, built, isolated, acyclic, summary, after, run, reached, identity, entry, exit⟩

/-! ## Nodes that run at most once -/

/-- An output port of a node that runs at most once has one connection at most. It leads
to a checkpoint, from a stage boundary possibly through one identity. -/
theorem normalize_guards_effects (built : graph.Built) (isolated : graph.Isolated)
    (acyclic : graph.Acyclic) (mode : FlowPartMode) :
    ∃ summary after, graph.normalize mode = .ok (summary, after) ∧
      ∀ id node, after.Reached id → after.nodes[id]? = some node → node.isIdentity = false →
        node.hasGlobalEffect = true → ∀ output ∈ node.outputs, ∀ input,
          after.Feeds output input → (∀ other, after.Feeds output other → other = input) ∧
            ∃ taker, after.inputOwner? input = some taker ∧ (after.isStop taker = true ∨
              node.isStageBoundary = true ∧ after.isIdentity taker = true ∧
                ∃ stop, after.isStop stop = true ∧
                  ∀ next, after.Precedes taker next ↔ next = stop) := by
  obtain ⟨summary, after, home, run, done, reaches⟩ := built.exists_done isolated acyclic mode
  refine ⟨summary, after, run, fun id node reached found plain once output mem input feeds => ?_⟩
  have wf := done.tidy.wf
  have member := reaches id reached
  have own := wf.output_of_mem found mem
  have binding : after.isBinding id = true := by
    rw [isBinding, found, Option.any_some, Node.isBinding, once, plain, Bool.not_false,
      Bool.and_true]
  obtain ⟨only, taker, taken, stops⟩ :=
    done.guarded id output (done.tidy.home_of_member member) binding own input feeds
  refine ⟨only, taker, taken, stops.imp_right fun stands => ?_⟩
  obtain ⟨stage, identity, before⟩ := stands
  -- an identity is there to feed something, and it feeds one node only
  have homed := done.tidy.home_of_member (member.passes (.step ⟨output, input, own, taken, feeds⟩))
  obtain ⟨-, ⟨stop, exit, entry, given, own', fed⟩, -⟩ :=
    wf.isNeeded_iff.mp (done.needed taker homed identity)
  obtain ⟨-, _, own'', stops⟩ := before exit given entry fed
  cases own'.symm.trans own''
  rw [isStageBoundary, found, Option.any_some] at stage
  refine ⟨stage, identity, stop, stops, fun next => ⟨fun ahead => ?_, ?_⟩⟩
  · exact (done.slim taker homed identity List.not_mem_nil).after ahead
      ⟨exit, entry, given, own', fed⟩
  · rintro rfl
    exact ⟨exit, entry, given, own', fed⟩

/-- The operator feeds a checkpoint and no longer the shuffles. -/
theorem normalize_guards_effects_counted : ∃ source : Graph,
    source.Built ∧ source.Isolated ∧ source.Acyclic ∧ ∃ summary after,
      source.normalize .segregate = .ok (summary, after) ∧ after.Reached ⟨2⟩ ∧
      after.Feeds ⟨4⟩ ⟨16⟩ ∧ ∀ other, after.Feeds ⟨4⟩ other → other = ⟨16⟩ := by
  have checked : (Sketch.counted.normalizes ⟨2⟩ fun after =>
      after.nodes[(⟨2⟩ : NodeId)]?.any (fun node => !node.isIdentity && node.hasGlobalEffect &&
        node.outputs.contains ⟨4⟩) && (after.targets ⟨4⟩).contains ⟨16⟩) = true := by decide +kernel
  obtain ⟨source, built, isolated, acyclic, summary, after, run, reached, passed⟩ :=
    Sketch.exists_of_normalizes checked
  simp only [Bool.and_eq_true, Option.any_eq_true, Bool.not_eq_true', List.contains_iff_mem]
    at passed
  obtain ⟨⟨node, found, ⟨plain, once⟩, mem⟩, feeds⟩ := passed
  obtain ⟨_, _, run', guards⟩ := normalize_guards_effects built isolated acyclic .segregate
  cases run.symm.trans run'
  exact ⟨source, built, isolated, acyclic, summary, after, run, reached, feeds,
    (guards ⟨2⟩ node reached found plain once ⟨4⟩ mem ⟨16⟩ feeds).1⟩

end Graph

end Staging
