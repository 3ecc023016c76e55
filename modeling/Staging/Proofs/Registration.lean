import Mathlib.Data.List.Nodup
import Mathlib.Data.Prod.Lex
import Mathlib.Data.String.Basic
import Staging.Planner
import Staging.Proofs.Loops

/-! # The order in which passes are registered

Passes run phase by phase, and within a phase by name, so that it does not matter in
which order they were registered. They go over a graph that has been checked until
one of them fails, and the graph is checked again if they changed it.
-/

namespace Staging

open List

variable {passes : List Pass} {G graph post : Graph} {flags : List Bool} {events : List Event}

namespace Pass

/-- What passes are ordered by: the phase and then the name. -/
def key (pass : Pass) : Nat ×ₗ String :=
  toLex (pass.phase.rank, pass.name)

theorem runsBefore_iff {first second : Pass} :
    first.runsBefore second ↔ first.key ≤ second.key := by
  simp [runsBefore, key, Prod.Lex.toLex_le_toLex]

theorem pairwise_sorted (passes : List Pass) :
    (sorted passes).Pairwise fun first second => first.key ≤ second.key := by
  simp only [← runsBefore_iff]
  refine pairwise_mergeSort (fun first second third => ?_) (fun first second => ?_) passes
  · simp only [runsBefore_iff]
    exact le_trans
  · rw [Bool.or_eq_true, runsBefore_iff, runsBefore_iff]
    exact le_total _ _

/-- Passes that differ in phase or name are sorted in one way only. -/
theorem sorted_eq_of_perm {passes' : List Pass} (perm : passes.Perm passes')
    (distinct : (passes.map key).Nodup) : sorted passes = sorted passes' := by
  have permuted := mergeSort_perm passes runsBefore
  refine Perm.eq_of_pairwise (fun first second has has' one two => ?_) (pairwise_sorted _)
    (pairwise_sorted _) (permuted.trans (perm.trans (mergeSort_perm ..).symm))
  exact inj_on_of_nodup_map distinct (permuted.mem_iff.mp has)
    (perm.mem_iff.mpr (mem_mergeSort.mp has')) (le_antisymm one two)

theorem pairwise_sorted_lt (distinct : (passes.map key).Nodup) :
    (sorted passes).Pairwise fun first second => first.key < second.key := by
  have nodup := ((mergeSort_perm passes runsBefore).map key).nodup_iff.mpr distinct
  exact (pairwise_sorted passes).imp₂ (fun _ _ => lt_of_le_of_ne) (pairwise_map.mp nodup)

end Pass

/-- The passes go over the graph one after the other without failure, each saying whether it
changed anything. -/
inductive Applied : List Pass → Graph → List Bool → Graph → Prop where
  | nil (graph : Graph) : Applied [] graph [] graph
  | cons {pass : Pass} {passes : List Pass} {graph next post : Graph} {changed : Bool}
      {flags : List Bool} (run : pass.run graph = .ok (.ok (changed, next)))
      (rest : Applied passes next flags post) : Applied (pass :: passes) graph (changed :: flags)
        post

/-- What is reported about passes that did not fail. -/
def appliedEvents (passes : List Pass) (flags : List Bool) : List Event :=
  passes.zipWith (fun pass changed => .passApplied pass.name pass.phase changed) flags

namespace Outcome

variable {α β : Type}

/-- The outcome with events before its own. -/
def after (events : List Event) (outcome : Outcome α) : Outcome α :=
  { outcome with events := events ++ outcome.events }

theorem after_append (before : List Event) (outcome : Outcome α) :
    after (before ++ events) outcome = after before (after events outcome) := by
  rw [after, after, after, append_assoc]

theorem andThen_ok (value : α) (next : α → Except Fault (Outcome β)) :
    andThen ⟨events, .ok value⟩ next = after events <$> next value :=
  bind_pure_comp ..

theorem map_after_append (before : List Event) (run : Except Fault (Outcome α)) :
    after (before ++ events) <$> run = after before <$> after events <$> run := by
  rw [Functor.map_map]
  exact congrArg (· <$> run) (funext (after_append before))

/-- Events from before stay before those of what follows. -/
theorem bind_andThen_after (run : Except Fault (Outcome α)) (next : α → Except Fault (Outcome β)) :
    (do (← after events <$> run).andThen next) = after events <$> (do (← run).andThen next) := by
  match run with
  | .error _ => rfl
  | .ok ⟨_, .error _⟩ => rfl
  | .ok ⟨events', .ok value⟩ =>
    calc andThen ⟨events ++ events', .ok value⟩ next
      _ = after events <$> after events' <$> next value := by rw [andThen_ok, map_after_append]
      _ = after events <$> andThen ⟨events', .ok value⟩ next := by rw [andThen_ok]

end Outcome

namespace Planner

theorem applyPasses_cons {pass : Pass} {changed here : Bool} {next : Graph}
    (run : pass.run G = .ok (.ok (here, next))) :
    applyPasses (pass :: passes) changed G = do
      let rest ← applyPasses passes (changed || here) next
      return { rest with events := .passApplied pass.name pass.phase here :: rest.events } :=
  bind_of_ok run

/-- A graph that passes went over is checked again if they changed it. -/
theorem bind_transform_of_applied {planner : Planner}
    (applied : applyPasses (Pass.sorted planner.passes) false G =
      .ok ⟨events, .ok (flags.any id, post)⟩) :
    (do (← planner.transform G).andThen planner.planChecked) = Outcome.after events <$>
      (if true ∈ flags then do (← check post).andThen planner.planChecked
        else planner.planChecked post) := by
  have any : flags.any id ↔ true ∈ flags := by simp
  rw [transform, bind_of_ok applied, Outcome.andThen_ok, Outcome.bind_andThen_after]
  by_cases changed : true ∈ flags
  · rw [if_pos changed, any.mpr changed]
    rfl
  · rw [if_neg changed, Bool.eq_false_iff.mpr (mt any.mp changed)]
    refine congrArg _ ((Outcome.andThen_ok post planner.planChecked).trans ?_)
    exact id_map (planner.planChecked post)

/-- Passes go over a graph up to the first one that fails. -/
theorem applyPasses_spec (passes : List Pass) (changed : Bool) (G : Graph) :
    (∃ flags post, Applied passes G flags post ∧ applyPasses passes changed G =
        .ok ⟨appliedEvents passes flags, .ok (changed || flags.any id, post)⟩) ∨
      ∃ early pass late flags now, passes = early ++ pass :: late ∧ Applied early G flags now ∧
        ((∃ reasons, pass.run now = .ok (.error reasons) ∧ applyPasses passes changed G =
          .ok ⟨appliedEvents early flags ++ [.diagnostic (pass.failure reasons)],
            .error ⟨[pass.failure reasons]⟩⟩) ∨
        ∃ fault, pass.run now = .error fault ∧ applyPasses passes changed G = .error fault) := by
  induction passes generalizing changed G with
  | nil => exact .inl ⟨[], G, .nil G, by simp [applyPasses, appliedEvents]⟩
  | cons pass rest ih =>
    match run : pass.run G with
    | .error fault =>
      refine .inr ⟨[], pass, rest, [], G, rfl, .nil G, .inr ⟨fault, run, ?_⟩⟩
      rw [applyPasses, run]
      rfl
    | .ok (.error reasons) =>
      refine .inr ⟨[], pass, rest, [], G, rfl, .nil G, .inl ⟨reasons, run, ?_⟩⟩
      exact bind_of_ok run
    | .ok (.ok (here, next)) =>
      rw [applyPasses_cons run]
      rcases ih (changed || here) next with ⟨flags, post, applied, eq⟩ |
        ⟨early, pass', late, flags, now, rfl, applied, fails⟩
      · refine .inl ⟨here :: flags, post, .cons run applied, ?_⟩
        rw [bind_of_ok eq, any_cons, id_eq, ← Bool.or_assoc]
        rfl
      · refine .inr ⟨pass :: early, pass', late, here :: flags, now, rfl, .cons run applied, ?_⟩
        refine fails.imp (fun ⟨reasons, failed, eq⟩ => ⟨reasons, failed, bind_of_ok eq⟩)
          fun ⟨fault, failed, eq⟩ => ⟨fault, failed, ?_⟩
        rw [eq]
        rfl

/-- Planning does not depend on the order in which passes were registered. Passes go over a
checked graph up to the first one that fails, and it is checked again if none failed and one
changed it. -/
theorem plan_eq_of_perm (options : Options) (passes passes' : List Pass) (source : Graph)
    (perm : passes.Perm passes') (distinct : (passes.map Pass.key).Nodup) :
    plan ⟨options, passes⟩ source = plan ⟨options, passes'⟩ source ∧
      ∃ sorted, sorted.Perm passes ∧ sorted.Pairwise (fun first second => first.key < second.key) ∧
        ∀ checks closed, check source = .ok ⟨checks, .ok closed⟩ →
          (∃ flags graph, Applied sorted closed flags graph ∧
            plan ⟨options, passes⟩ source = .after (checks ++ appliedEvents sorted flags) <$>
              (if true ∈ flags then do (← check graph).andThen (planChecked ⟨options, passes⟩)
                else planChecked ⟨options, passes⟩ graph)) ∨
          ∃ early pass late flags graph, sorted = early ++ pass :: late ∧
            Applied early closed flags graph ∧
            ((∃ reasons, pass.run graph = .ok (.error reasons) ∧
              plan ⟨options, passes⟩ source = .ok ⟨checks ++ appliedEvents early flags ++
                [.diagnostic (pass.failure reasons)], .error ⟨[pass.failure reasons]⟩⟩) ∨
            ∃ fault, pass.run graph = .error fault ∧
              plan ⟨options, passes⟩ source = .error fault) := by
  have sorted := Pass.sorted_eq_of_perm perm distinct
  refine ⟨?_, Pass.sorted passes, mergeSort_perm .., Pass.pairwise_sorted_lt distinct,
    fun checks closed checked => ?_⟩
  · simp only [plan, transform, sorted]
    rfl
  · rw [plan, bind_of_ok checked, Outcome.andThen_ok]
    rcases applyPasses_spec (Pass.sorted passes) false closed with ⟨flags, graph, applied, eq⟩ |
      ⟨early, pass, late, flags, now, split, applied, ⟨reasons, failed, eq⟩ | ⟨fault, failed, eq⟩⟩
    · refine .inl ⟨flags, graph, applied, ?_⟩
      rw [bind_transform_of_applied eq, Outcome.map_after_append]
    · refine .inr ⟨early, pass, late, flags, now, split, applied, .inl ⟨reasons, failed, ?_⟩⟩
      rw [transform, bind_of_ok eq, append_assoc]
      rfl
    · refine .inr ⟨early, pass, late, flags, now, split, applied, .inr ⟨fault, failed, ?_⟩⟩
      rw [transform, eq]
      rfl

/-- A pass that fails and one that runs before it, registered in both orders. -/
theorem plan_eq_of_perm_pair : plan ⟨{}, [⟨"b", .laterDebug, fun _ => .ok (.error ["refused"])⟩,
      ⟨"c", .earlyDebug, fun graph => .ok (.ok (true, graph))⟩]⟩ {} =
    plan ⟨{}, [⟨"c", .earlyDebug, fun graph => .ok (.ok (true, graph))⟩,
      ⟨"b", .laterDebug, fun _ => .ok (.error ["refused"])⟩]⟩ {} :=
  (plan_eq_of_perm {} _ _ {} (.swap ..) (by decide)).1

end Planner

end Staging
