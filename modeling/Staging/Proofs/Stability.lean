import Staging.Proofs.Normalizing

/-! # Properties that checks and passes keep

Validation and normalization are made of a few changes: a sink behind a port, a
checkpoint or an identity on connections, an identity split or taken out, a flow part
inlined. A property of graphs that each of these keeps is kept by all passes, whatever
nodes they choose.
-/

namespace Staging

open List

variable {property : Graph → Prop} {boundary : Boundary} {levels : Nat}

namespace Graph

variable {G post : Graph}

/-- A change that succeeds keeps a property of graphs. -/
def Keeps {α : Type} (property : Graph → Prop) (change : Graph → Except Fault (α × Graph)) : Prop :=
  ∀ {graph post : Graph} {result : α}, property graph → change graph = .ok (result, post) →
    property post

private theorem Keeps.changeEach {α : Type} {change : Graph → α → Changed}
    {items : List α} (keeps : ∀ item, Keeps property fun G => change G item) :
    Keeps property fun G => G.changeEach items change := by
  intro G post count holds run
  refine foldlM_carries (fun _ state => property state.2) ?_ holds run
  rintro item rest ⟨count, G⟩ next holds stepped
  obtain ⟨⟨more, changed⟩, change, ⟨⟩⟩ := of_bind stepped
  exact keeps item holds change

private theorem Keeps.settle {round : Graph → Changed}
    (keeps : Keeps property round) {rounds : Nat} : Keeps property (settle round rounds) := by
  intro G post count holds run
  induction rounds generalizing G count with
  | zero => cases run
  | succ rounds ih =>
    obtain ⟨⟨changes, next⟩, run', run⟩ := of_bind run
    simp only at run
    split at run
    · cases run
      exact keeps holds run'
    · obtain ⟨⟨more, last⟩, rest, ⟨⟩⟩ := of_bind run
      exact ih (keeps holds run') rest

/-- Seams are made one after the other, and what holds of each of them holds of all. -/
theorem keeps_seams {α : Type} {marked : NodeId → Prop}
    (sew : Graph → α → Except Fault (NodeId × Graph)) {pairs : List α}
    (keeps : ∀ pair ∈ pairs, ∀ {G post : Graph} {seam : NodeId}, property G →
      sew G pair = .ok (seam, post) → property post ∧ marked seam)
    {made : List NodeId} (holds : property G)
    (run : pairs.foldlM (fun state pair => do
      let (seam, G) ← sew state.2 pair
      return (state.1 ++ [seam], G)) ([], G) = .ok (made, post)) :
    property post ∧ ∀ seam ∈ made, marked seam := by
  let inv : List α → List NodeId × Graph → Prop := fun rest state =>
    (∀ pair ∈ rest, pair ∈ pairs) ∧ property state.2 ∧ ∀ seam ∈ state.1, marked seam
  refine (foldlM_carries inv ?_ ⟨fun _ mem => mem, holds, by simp⟩ run).2
  rintro pair rest ⟨seams, now⟩ next ⟨mem, holds, known⟩ step
  obtain ⟨⟨seam, sewn⟩, sews, ⟨⟩⟩ := of_bind step
  obtain ⟨holds', known'⟩ := keeps pair (mem pair (.head _)) holds sews
  refine ⟨fun other later => mem other (.tail _ later), holds', fun other has => ?_⟩
  rcases mem_append.mp has with early | here
  · exact known other early
  · rwa [mem_singleton.mp here]

/-- What seams, removals and skips of seams keep, inlining a flow part keeps. -/
theorem keeps_inlineFlowPart_of (marked : NodeId → Prop) {id : NodeId}
    (inputSeam : ∀ {start G post : Graph} {part : Node} {scope : Scope} {port : InputId}
      {inner seam : NodeId}, property start → start.nodes[id]? = some part →
      part.kind = .flowPart scope → (port, inner) ∈ part.inputs.zip scope.inputs →
      property G → G.inputSeam part boundary port inner = .ok (seam, post) →
      property post ∧ marked seam)
    (outputSeam : ∀ {start G post : Graph} {part : Node} {scope : Scope} {port : OutputId}
      {inner seam : NodeId}, property start → start.nodes[id]? = some part →
      part.kind = .flowPart scope → (port, inner) ∈ part.outputs.zip scope.outputs →
      property G → G.outputSeam part boundary port inner = .ok (seam, post) →
      property post ∧ marked seam)
    (remove : ∀ {G post : Graph} {id : NodeId}, property G → G.remove id = .ok post → property post)
    (skip : ∀ {G post : Graph} {id : NodeId}, property G → marked id →
      G.skip id = .ok post → property post) :
    Keeps property fun G => G.inlineFlowPart id boundary := by
  intro G post seams holds run
  simp only [inlineFlowPart] at run
  split at run
  · cases run
  obtain ⟨part, looked, run⟩ := of_bind run
  have got := node_eq_ok looked
  split at run
  · next scope kind =>
    obtain ⟨⟨entries, entered⟩, run₁, run⟩ := of_bind run
    obtain ⟨⟨exits, opened⟩, run₂, run⟩ := of_bind run
    obtain ⟨bare, run₃, run⟩ := of_bind run
    obtain ⟨holds₁, known₁⟩ := keeps_seams
      (fun G (pair : InputId × NodeId) => G.inputSeam part boundary pair.1 pair.2)
      (fun _ mem _ _ _ => inputSeam holds got kind mem) holds run₁
    obtain ⟨holds₂, known₂⟩ := keeps_seams
      (fun G (pair : OutputId × NodeId) => G.outputSeam part boundary pair.1 pair.2)
      (fun _ mem _ _ _ => outputSeam holds got kind mem) holds₁ run₂
    have holds₃ := remove holds₂ run₃
    split at run
    · obtain ⟨skipped, run₄, ⟨⟩⟩ := of_bind run
      let inv : List NodeId → Graph → Prop := fun rest now =>
        (∀ seam ∈ rest, marked seam) ∧ property now
      refine (foldlM_carries inv ?_ ⟨fun seam mem => ?_, holds₃⟩ run₄).2
      · rintro seam rest now next ⟨known, holds⟩ step
        exact ⟨fun other later => known other (.tail _ later),
          skip holds (known seam (.head _)) step⟩
      · rcases mem_append.mp mem with entry | exit
        · exact known₁ seam entry
        · exact known₂ seam exit
    · cases run
      exact holds₃
  · cases run

/-- The property is kept by all that validation and normalization are made of. -/
structure Stable (property : Graph → Prop) : Prop where
  insertSink : ∀ {graph : Graph} {output : OutputId} {port : OutputPort}, property graph →
    graph.outputs[output]? = some port → property (graph.insertSink output port).2
  insertCheckpoint : ∀ {output : OutputId}, Keeps property fun graph =>
    graph.insertCheckpoint output
  insertIdentityBetween : ∀ {output : OutputId} {input : InputId}, Keeps property fun graph =>
    graph.insertIdentityBetween output input
  splitIdentity : ∀ {id : NodeId}, Keeps property fun graph => graph.splitIdentity id
  skip : ∀ {graph post : Graph} {id : NodeId}, property graph → graph.isIdentity id = true →
    graph.skip id = .ok post → property post
  inlineFlowPart : ∀ {id : NodeId} {boundary : Boundary}, Keeps property fun graph =>
    graph.inlineFlowPart id boundary

namespace Stable

variable (stable : Stable property)

include stable

/-! ## Checks -/

private theorem closeOutput (holds : property G) (out : OutputId) :
    property (G.closeOutput out) := by
  rw [Graph.closeOutput]
  split
  · next port got =>
    split
    · exact stable.insertSink holds got
    · exact holds
  · exact holds

private theorem closeNode (holds : property G) (id : NodeId) : property (G.closeNode id) := by
  rw [Graph.closeNode]
  split
  · exact foldl_keeps (fun _ now => property now)
      (fun out _ _ holds => stable.closeOutput holds out) holds
  · exact holds

theorem validate : Keeps property Graph.validate := by
  intro G post problems holds run
  obtain ⟨scopes, -, eq⟩ := of_bind run
  obtain ⟨-, rfl⟩ := Prod.mk.inj (Except.ok.inj eq)
  exact foldl_keeps (fun _ now => property now)
    (fun id _ _ holds => stable.closeNode holds id) holds

/-! ## Flow parts -/

private theorem inlineScope {scope : Scope} :
    Keeps property fun G => Graph.inlineScope boundary levels G scope := by
  induction levels generalizing scope with
  | zero =>
    intro _ _ _ _ run
    cases run
  | succ levels ih =>
    intro G post count holds run
    obtain ⟨members, -, run⟩ := of_bind run
    refine Keeps.changeEach (fun part G post count holds run => ?_) holds run
    obtain ⟨⟨nested, inlined⟩, run₁, run⟩ := of_bind run
    obtain ⟨⟨seams, opened⟩, run₂, ⟨⟩⟩ := of_bind run
    exact stable.inlineFlowPart (ih holds run₁) run₂

/-! ## Checkpoints -/

private theorem checkpointEach {outputs : List OutputId} :
    Keeps property fun G => G.checkpointEach outputs := by
  refine Keeps.changeEach fun out G post count holds run => ?_
  obtain ⟨⟨id, grown⟩, inserted, ⟨⟩⟩ := of_bind run
  exact stable.insertCheckpoint holds inserted

private theorem checkpointGlobalEffects : Keeps property Graph.checkpointGlobalEffects := by
  intro G post count holds run
  obtain ⟨members, -, run⟩ := of_bind run
  refine Keeps.changeEach (fun id G post count holds run => ?_) holds run
  obtain ⟨node, -, run⟩ := of_bind run
  split at run
  · exact stable.checkpointEach holds run
  · cases run
    exact holds

private theorem pushDown {out : OutputId} :
    Keeps property fun G => Graph.pushDown levels G out := by
  induction levels generalizing out with
  | zero =>
    intro _ _ _ _ run
    cases run
  | succ levels ih =>
    intro G post count holds run
    simp only [Graph.pushDown] at run
    split at run
    · cases run
      exact holds
    · split at run
      · cases run
        exact holds
      · split at run
        · cases run
          exact holds
        · split at run
          · exact Keeps.changeEach (fun _ => ih) holds run
          · exact stable.checkpointEach holds run
    · exact stable.checkpointEach holds run

private theorem pushDownShuffleCheckpoints : Keeps property Graph.pushDownShuffleCheckpoints := by
  intro G post count holds run
  obtain ⟨members, -, run⟩ := of_bind run
  refine Keeps.changeEach (fun id G post count holds run => ?_) holds run
  obtain ⟨node, -, run⟩ := of_bind run
  split at run
  · exact Keeps.changeEach (fun _ => stable.pushDown) holds run
  · cases run
    exact holds

/-! ## Identities -/

private theorem insertBoundaryIdentities : Keeps property Graph.insertBoundaryIdentities := by
  intro G post count holds run
  obtain ⟨members, -, run⟩ := of_bind run
  refine Keeps.changeEach (fun id G post count holds run => ?_) holds run
  obtain ⟨node, -, run⟩ := of_bind run
  split at run
  · refine Keeps.changeEach (fun out G post count holds run => ?_) holds run
    refine Keeps.changeEach (fun input G post count holds run => ?_) holds run
    obtain ⟨⟨between, grown⟩, inserted, ⟨⟩⟩ := of_bind run
    exact stable.insertIdentityBetween holds inserted
  · cases run
    exact holds

private theorem splitRound : Keeps property Graph.splitRound := by
  intro G post count holds run
  obtain ⟨members, -, run⟩ := of_bind run
  refine Keeps.changeEach (fun id G post count holds run => ?_) holds run
  simp only at run
  split at run
  · obtain ⟨⟨copies, split⟩, run', ⟨⟩⟩ := of_bind run
    exact stable.splitIdentity holds run'
  · cases run
    exact holds

private theorem reduceRound : Keeps property Graph.reduceRound := by
  intro G post count holds run
  obtain ⟨members, -, run⟩ := of_bind run
  refine Keeps.changeEach (fun id G post count holds run => ?_) holds run
  simp only at run
  split at run
  · next identity =>
    obtain ⟨skipped, run', ⟨⟩⟩ := of_bind run
    exact stable.skip holds (Bool.and_eq_true_iff.mp identity).1 run'
  · cases run
    exact holds

/-! ## All passes -/

theorem normalize {mode : FlowPartMode} : Keeps property fun G => G.normalize mode := by
  intro G post summary holds run
  obtain ⟨⟨parts, inlined⟩, run₁, run⟩ := of_bind run
  obtain ⟨⟨effects, effected⟩, run₂, run⟩ := of_bind run
  obtain ⟨⟨shuffles, shuffled⟩, run₃, run⟩ := of_bind run
  obtain ⟨⟨inserted, padded⟩, run₄, run⟩ := of_bind run
  obtain ⟨⟨separated, split⟩, run₅, run⟩ := of_bind run
  obtain ⟨⟨removed, reduced⟩, run₆, ⟨⟩⟩ := of_bind run
  have holds₁ := stable.inlineScope holds run₁
  have holds₂ := stable.checkpointGlobalEffects holds₁ run₂
  have holds₃ := stable.pushDownShuffleCheckpoints holds₂ run₃
  have holds₄ := stable.insertBoundaryIdentities holds₃ run₄
  have holds₅ := Keeps.settle stable.splitRound holds₄ run₅
  exact Keeps.settle stable.reduceRound holds₅ run₆

end Stable

end Graph

end Staging
