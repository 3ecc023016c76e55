import Staging.Proofs.Copying
import Staging.Proofs.Stability

/-! # Checks, normalization and copies keep graphs consistent

Whatever graph is checked, normalized or copied, connections stay known at both of their
ends and ports stay with their nodes. Nothing needs to be known about scopes.
-/

namespace Staging

open Std List HandleMap

variable {part : Node} {inner : NodeId} {out : OutputId} {boundary : Boundary} {id : NodeId}

namespace Graph

variable {G post : Graph}

/-! ## Flow parts -/

private theorem keeps_inputSeam {port : InputId} :
    Keeps Consistent fun G => G.inputSeam part boundary port inner := by
  intro G post seam wf run
  obtain ⟨outer, got, run'⟩ := of_bind run
  obtain ⟨exit, first, -⟩ := of_bind run'
  obtain ⟨record, has, first⟩ := of_bind first
  have owned : G.inputOwner? port = some outer.owner := by
    rw [Graph.input] at got
    split at got
    · next record mem =>
      cases got
      rw [inputOwner?, mem]
      rfl
    · cases got
  split at first
  · next outputs =>
    obtain ⟨made, post', run', -, seamed⟩ :=
      wf.exists_inputSeam (node_eq_ok has) owned outputs part boundary
    cases run.symm.trans run'
    exact seamed.wf
  · cases first

private theorem keeps_outputSeam {port : OutputId} :
    Keeps Consistent fun G => G.outputSeam part boundary port inner := by
  intro G post seam wf run
  obtain ⟨outer, got, run'⟩ := of_bind run
  obtain ⟨entry, first, -⟩ := of_bind run'
  obtain ⟨record, has, first⟩ := of_bind first
  have owned : G.outputOwner? port = some outer.owner := by
    rw [outputOwner?, output_eq_ok got]
    rfl
  split at first
  · next inputs =>
    obtain ⟨made, post', run', -, seamed⟩ :=
      wf.exists_outputSeam (node_eq_ok has) owned inputs part boundary
    cases run.symm.trans run'
    exact seamed.wf
  · cases first

theorem Consistent.remove (wf : G.Consistent) (run : G.remove id = .ok post) :
    post.Consistent := by
  obtain ⟨node, got, rfl⟩ := remove_eq_ok run
  exact (wf.drop got).wf

theorem keeps_inlineFlowPart : Keeps Consistent fun G => G.inlineFlowPart id boundary := by
  refine keeps_inlineFlowPart_of (fun _ => True) ?_ ?_ ?_ ?_
  · intro _ G post part scope port inner seam _ _ _ _ wf run
    exact ⟨keeps_inputSeam wf run, trivial⟩
  · intro _ G post part scope port inner seam _ _ _ _ wf run
    exact ⟨keeps_outputSeam wf run, trivial⟩
  · intro G post id wf run
    exact wf.remove run
  · intro G post id wf _ run
    exact (wf.skip run).wf

/-! ## Checkpoints and identities -/

theorem keeps_insertCheckpoint : Keeps Consistent fun G => G.insertCheckpoint out := by
  intro G post id wf run
  obtain ⟨port, run', eq⟩ := of_bind run
  have got := output_eq_ok run'
  have spliced := wf.insertPassage got (fun target mem => by
    rw [Feeds, targets, got]
    exact ExtTreeSet.mem_toList.mp mem) .checkpoint .stage
  rw [Except.ok.inj eq] at spliced
  exact spliced.wf

theorem keeps_insertIdentityBetween {input : InputId} :
    Keeps Consistent fun G => G.insertIdentityBetween out input := by
  intro G post id wf run
  obtain ⟨port, run', run⟩ := of_bind run
  have got := output_eq_ok run'
  split at run
  · next connected =>
    have spliced := wf.insertPassage got (fun target mem => by
      rw [mem_singleton.mp mem, Feeds, targets, got]
      exact connected) .identity .none
    rw [Except.ok.inj run] at spliced
    exact spliced.wf
  · cases run

theorem keeps_splitIdentity : Keeps Consistent fun G => G.splitIdentity id := by
  intro G post copies wf run
  obtain ⟨node, entry, exit, got, identity, inputs, outputs⟩ := identity_of_splitIdentity run
  obtain ⟨copies', post', run', split⟩ := wf.exists_splitIdentity got identity inputs outputs
  cases run.symm.trans run'
  rcases split with ⟨-, -, rfl⟩ | ⟨-, pairs, -, split⟩
  · exact wf
  · exact split.wf

/-- All passes keep graphs consistent. -/
theorem stable_consistent : Stable Consistent where
  insertSink wf got := by
    obtain ⟨_, -, added, -⟩ := wf.insertSink got
    exact added.wf
  insertCheckpoint := keeps_insertCheckpoint
  insertIdentityBetween := keeps_insertIdentityBetween
  splitIdentity := keeps_splitIdentity
  skip wf _ run := (wf.skip run).wf
  inlineFlowPart := keeps_inlineFlowPart

theorem keeps_validate : Keeps Consistent validate := stable_consistent.validate

theorem keeps_normalize {mode : FlowPartMode} : Keeps Consistent fun G => G.normalize mode :=
  stable_consistent.normalize

end Graph

end Staging
