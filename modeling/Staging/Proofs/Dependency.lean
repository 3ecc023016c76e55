import Mathlib.Data.Finset.Card
import Mathlib.Data.List.GetD
import Mathlib.Data.List.Nodup
import Mathlib.Data.Set.List
import Mathlib.Logic.Relation
import Mathlib.Order.Bounds.Defs
import Staging.Plan.Dependency
import Staging.Proofs.Loops

/-! # Distances and orders of stages

The distances of stages are found if and only if no stage waits for itself, and
then they grow along dependencies. The order has each stage once, and a stage
comes after all stages that feed it, up to those that wait for it.
-/

namespace Staging

open Relation List

variable {stage : Nat} {distances feeding : List Nat} {state : Visit} {steps idle : Nat}
  {known : List (Option Nat)} {waiting : List Nat}

namespace Dependencies

/-- The one stage feeds the other. -/
def Feeds (deps : Dependencies) (first second : Nat) : Prop :=
  first ∈ deps.feeding second

/-- Only stages feed stages. -/
def Bounded (deps : Dependencies) : Prop :=
  ∀ first second, deps.Feeds first second → first < deps.length

/-- No stage waits for itself. -/
def Acyclic (deps : Dependencies) : Prop :=
  ∀ stage, ¬ TransGen deps.Feeds stage stage

variable {deps : Dependencies}

/-! ## Distances -/

/-- So many steps lead to the stage one after the other. -/
inductive Chain (deps : Dependencies) : Nat → Nat → Prop where
  | start (stage : Nat) : Chain deps 0 stage
  | step {steps first second : Nat} : Chain deps steps first →
      deps.Feeds first second → Chain deps (steps + 1) second

/-- The longest chain that leads to the stage has so many steps. -/
def Longest (deps : Dependencies) (distance stage : Nat) : Prop :=
  IsGreatest {steps | deps.Chain steps stage} distance

theorem beyond_le_iff {bound : Nat} :
    beyond distances ≤ bound ↔ ∀ distance ∈ distances, distance + 1 ≤ bound := by
  have general : ∀ (rest : List Nat) longest,
      rest.foldl (fun longest distance => max longest (distance + 1)) longest ≤ bound ↔
        longest ≤ bound ∧ ∀ distance ∈ rest, distance + 1 ≤ bound := by
    intro rest
    induction rest with
    | nil => simp
    | cons first rest ih =>
      intro longest
      rw [foldl_cons, ih, max_le_iff, forall_mem_cons, and_assoc]
  rw [beyond, general]
  simp

theorem exists_of_beyond (positive : 0 < beyond distances) :
    ∃ distance ∈ distances, beyond distances = distance + 1 := by
  by_contra none
  push Not at none
  have below : ∀ distance ∈ distances, distance + 1 ≤ beyond distances - 1 := by
    intro distance mem
    have le := beyond_le_iff.mp (le_refl (beyond distances)) distance mem
    have := none distance mem
    omega
  have := beyond_le_iff.mpr below
  omega

/-- A chain to a stage goes on from one to a stage that feeds it. -/
theorem longest_beyond {of : Nat → Option Nat}
    (fed : ∀ other, deps.Feeds other stage → ∃ distance, of other = some distance)
    (longest : ∀ other distance, of other = some distance → deps.Longest distance other) :
    deps.Longest (beyond (((deps.feeding stage).map of).filterMap id)) stage := by
  have mem {distance : Nat} : distance ∈ ((deps.feeding stage).map of).filterMap id ↔
      ∃ other, deps.Feeds other stage ∧ of other = some distance := by
    simp [Feeds]
  constructor
  · rcases Nat.eq_zero_or_pos (beyond (((deps.feeding stage).map of).filterMap id)) with
      zero | positive
    · exact zero ▸ .start stage
    · obtain ⟨distance, has, eq⟩ := exists_of_beyond positive
      obtain ⟨other, feeds, got⟩ := mem.mp has
      exact eq ▸ Chain.step (longest other distance got).1 feeds
  · intro steps chain
    cases chain with
    | start => exact Nat.zero_le _
    | @step steps other _ chain feeds =>
      obtain ⟨distance, got⟩ := fed other feeds
      have le := beyond_le_iff.mp le_rfl distance (mem.mpr ⟨other, feeds, got⟩)
      exact (Nat.succ_le_succ ((longest other distance got).2 chain)).trans le

/-- Distances that are known are right, a stage without one waits, and those that went back to
the end of the line last wait for others in it. -/
structure Settling (deps : Dependencies) (known : List (Option Nat)) (idle : Nat)
    (waiting : List Nat) : Prop where
  length : known.length = deps.length
  waits : ∀ stage : Nat, known[stage]? = some none → stage ∈ waiting
  longest : ∀ (stage : Nat) distance, known[stage]? = some (some distance) →
    deps.Longest distance stage
  stuck : ∃ fresh tried, waiting = fresh ++ tried ∧ tried.length = idle ∧
    ∀ stage ∈ tried, ∃ other ∈ waiting, deps.Feeds other stage

/-- A stage that gets no distance waits for another one. -/
theorem Settling.exists_waiting (settling : deps.Settling known idle waiting)
    (bounded : deps.Bounded)
    (blocked : ¬ ((deps.feeding stage).map (known.getD · none)).all Option.isSome) :
    ∃ other ∈ waiting, deps.Feeds other stage := by
  simp only [all_map, all_eq_true, not_forall] at blocked
  obtain ⟨other, feeds, unknown⟩ := blocked
  have inside := settling.length ▸ bounded other stage feeds
  refine ⟨other, settling.waits other ?_, feeds⟩
  rw [getElem?_eq_getElem inside]
  simpa [inside] using unknown

/-- The loop ends with the distances of all stages, or among stages of which each waits for
another one. -/
theorem settle_spec (bounded : deps.Bounded) (settling : deps.Settling known idle waiting) :
    (∃ known', deps.settle known idle waiting = .ok known' ∧ deps.Settling known' 0 []) ∨
      deps.settle known idle waiting = .error .cyclicStages ∧ ∃ stages, stages ≠ [] ∧
        ∀ stage ∈ stages, ∃ other ∈ stages, deps.Feeds other stage := by
  fun_induction settle deps known idle waiting with
  | case1 =>
    exact .inl ⟨_, rfl, settling.length, settling.waits, settling.longest, [], [], by simp⟩
  | case2 known idle stage waiting feeding all ih =>
    have fed : ∀ other, deps.Feeds other stage → ∃ distance,
        known.getD other none = some distance :=
      fun other feeds => Option.isSome_iff_exists.mp (all_eq_true.mp all _ (mem_map_of_mem feeds))
    have longest := longest_beyond fed fun other distance got =>
      settling.longest other distance (by grind)
    refine ih ⟨by rw [length_set, settling.length], fun other got => ?_,
      fun other distance got => ?_, waiting, [], by simp⟩
    · have ne : other ≠ stage := by grind
      rw [getElem?_set_ne ne.symm] at got
      exact (mem_cons.mp (settling.waits other got)).resolve_left ne
    · by_cases eq : stage = other
      · grind
      · rw [getElem?_set_ne eq] at got
        exact settling.longest other distance got
  | case3 known idle stage waiting feeding blocked within ih =>
    obtain ⟨fresh, tried, eq, length, stuck⟩ := settling.stuck
    have alike : ∀ other, other ∈ waiting ++ [stage] ↔ other ∈ stage :: waiting := by
      simp [or_comm]
    have stuck' : ∀ other ∈ stage :: tried, ∃ first ∈ waiting ++ [stage],
        deps.Feeds first other := by
      simp only [alike, forall_mem_cons]
      exact ⟨settling.exists_waiting bounded blocked, stuck⟩
    cases fresh with
    | nil =>
      rw [nil_append] at eq
      grind
    | cons _ fresh =>
      obtain ⟨rfl, rfl⟩ := cons.inj eq
      exact ih ⟨settling.length, fun other got => (alike other).mpr (settling.waits other got),
        settling.longest, fresh, tried ++ [stage], by simp, by simp [length], by grind⟩
  | case4 known idle stage waiting feeding blocked full =>
    obtain ⟨fresh, tried, eq, length, stuck⟩ := settling.stuck
    have lengths := congrArg List.length eq
    rw [length_append, length_cons] at lengths
    obtain rfl : fresh = [] := length_eq_zero_iff.mp (by omega)
    rw [nil_append] at eq
    exact .inr ⟨rfl, stage :: waiting, cons_ne_nil _ _, fun other mem => stuck other (eq ▸ mem)⟩

section Distances

variable (bounded : deps.Bounded) (acyclic : deps.Acyclic)

include bounded acyclic

open scoped Classical in
/-- A chain is not longer than there are stages before its last one. -/
private theorem Chain.le_card (chain : deps.Chain steps stage) :
    steps ≤ ((Finset.range deps.length).filter fun other =>
      TransGen deps.Feeds other stage).card := by
  induction chain with
  | start => exact Nat.zero_le _
  | @step steps first second _ feeds ih =>
    refine Nat.succ_le_of_lt (lt_of_le_of_lt ih (Finset.card_lt_card ?_))
    refine (Finset.ssubset_iff_of_subset fun other mem => ?_).mpr ⟨first, ?_, ?_⟩
    · simp only [Finset.mem_filter] at mem ⊢
      exact ⟨mem.1, mem.2.tail feeds⟩
    · simp only [Finset.mem_filter, Finset.mem_range]
      exact ⟨bounded first second feeds, .single feeds⟩
    · simp only [Finset.mem_filter, not_and]
      exact fun _ => acyclic first

theorem Chain.lt_length (chain : deps.Chain steps stage)
    (inside : stage < deps.length) : steps < deps.length := by
  classical
  have proper : ((Finset.range deps.length).filter fun other =>
      TransGen deps.Feeds other stage) ⊂ Finset.range deps.length := by
    refine (Finset.ssubset_iff_of_subset (Finset.filter_subset _ _)).mpr
      ⟨stage, Finset.mem_range.mpr inside, ?_⟩
    simp only [Finset.mem_filter, not_and]
    exact fun _ => acyclic stage
  have fewer := Finset.card_lt_card proper
  rw [Finset.card_range] at fewer
  exact lt_of_le_of_lt (chain.le_card bounded acyclic) fewer

end Distances

/-- The loop finds the lengths of the longest chains, or some stage waits for itself. -/
theorem distances_spec (bounded : deps.Bounded) :
    (∃ distances, deps.distances = .ok distances ∧ distances.length = deps.length ∧
        ∀ (stage : Nat) distance, distances[stage]? = some distance → deps.Longest distance stage) ∨
      deps.distances = .error .cyclicStages ∧ ¬ deps.Acyclic := by
  have start : deps.Settling (replicate deps.length none) 0 (range deps.length) :=
    ⟨length_replicate, by grind, by grind, range deps.length, [], by simp⟩
  rcases settle_spec bounded start with ⟨known, run, settled⟩ | ⟨run, stages, some, feeds⟩
  · have settled' : ∀ distance ∈ known, distance ∈ Set.range Option.some := by
      intro distance mem
      obtain ⟨stage, got⟩ := mem_iff_getElem?.mp mem
      cases distance with
      | none => exact (not_mem_nil (settled.waits stage got)).elim
      | some distance => exact ⟨distance, rfl⟩
    obtain ⟨known, rfl⟩ : known ∈ Set.range (map some) := by
      rwa [Set.range_list_map]
    refine .inl ⟨known, ?_, ?_, fun stage distance got => settled.longest stage distance ?_⟩
    · rw [Dependencies.distances, bind_of_ok run]
      simp [pure, Except.pure]
    · rw [← settled.length, length_map]
    · rw [getElem?_map, got, Option.map_some]
  · refine .inr ⟨?_, fun acyclic => ?_⟩
    · rw [Dependencies.distances, run]
      rfl
    · -- chains of any length lead to these stages
      have chains : ∀ steps, ∀ stage ∈ stages, deps.Chain steps stage := by
        intro steps
        induction steps with
        | zero => exact fun stage _ => .start stage
        | succ steps ih =>
          intro stage mem
          obtain ⟨other, mem', feeds⟩ := feeds stage mem
          exact .step (ih other mem') feeds
      obtain ⟨stage, mem⟩ := exists_mem_of_ne_nil stages some
      obtain ⟨other, mem', feeds⟩ := feeds stage mem
      exact lt_irrefl _ ((chains deps.length other mem').lt_length bounded acyclic
        (bounded other stage feeds))

section Found

variable (bounded : deps.Bounded) (got : deps.distances = .ok distances)

include bounded got

theorem longest_of_distances : distances.length = deps.length ∧
    ∀ (stage : Nat) distance, distances[stage]? = some distance → deps.Longest distance stage := by
  rcases distances_spec bounded with ⟨_, run, spec⟩ | ⟨run, -⟩
  · cases got.symm.trans run
    exact spec
  · cases got.symm.trans run

/-- Distances that are found grow along dependencies. -/
theorem feeds_lt_of_distances {first second : Nat} (feeds : deps.Feeds first second) :
    distances.getD first 0 < distances.getD second 0 := by
  obtain ⟨length, longest⟩ := longest_of_distances bounded got
  have inside : first < distances.length := length ▸ bounded first second feeds
  have inside' : second < distances.length := by
    rw [length]
    by_contra outside
    rw [Feeds, feeding, getD_eq_default _ _ (by omega)] at feeds
    exact not_mem_nil feeds
  rw [getD_eq_getElem _ _ inside, getD_eq_getElem _ _ inside']
  exact (longest second _ (getElem?_eq_getElem inside')).2
    (Chain.step (longest first _ (getElem?_eq_getElem inside)).1 feeds)

theorem acyclic_of_distances : deps.Acyclic := by
  intro stage cycle
  have grows : ∀ first second, TransGen deps.Feeds first second →
      distances.getD first 0 < distances.getD second 0 := by
    intro first second led
    induction led with
    | single feeds => exact feeds_lt_of_distances bounded got feeds
    | tail _ feeds ih => exact ih.trans (feeds_lt_of_distances bounded got feeds)
  exact lt_irrefl _ (grows stage stage cycle)

end Found

/-! ## Orders -/

/-- The stages that have not been met yet. -/
def unmet (deps : Dependencies) (state : Visit) : Finset Nat :=
  (Finset.range deps.length).filter (· ∉ state.met)

/-- Each stage that is done has been met, and it was done once, after the stages
that feed it, up to those that wait for it. -/
structure Orderly (deps : Dependencies) (state : Visit) : Prop where
  met : ∀ stage ∈ state.done, stage ∈ state.met
  nodup : state.done.Nodup
  inside : ∀ stage ∈ state.met, stage < deps.length
  closed : ∀ early stage late, state.done = early ++ stage :: late →
    ∀ other, deps.Feeds other stage → other ∈ early ∨ TransGen deps.Feeds stage other

/-- The stage has been met and is not done. -/
def Visit.Waits (state : Visit) (stage : Nat) : Prop :=
  stage ∈ state.met ∧ stage ∉ state.done

/-- More has been met and done, and the same stages wait. -/
structure Visit.Extends (pre post : Visit) : Prop where
  met : ∀ stage ∈ pre.met, stage ∈ post.met
  waits : ∀ stage, post.Waits stage ↔ pre.Waits stage

theorem Visit.Extends.refl (state : Visit) : state.Extends state := ⟨fun _ => id, fun _ => .rfl⟩

theorem Visit.Extends.trans {first second third : Visit} (one : first.Extends second)
    (two : second.Extends third) : first.Extends third :=
  ⟨fun stage mem => two.met stage (one.met stage mem),
    fun stage => (two.waits stage).trans (one.waits stage)⟩

theorem Visit.Extends.card_unmet {pre post : Visit} (grown : pre.Extends post) :
    (deps.unmet post).card ≤ (deps.unmet pre).card := by
  refine Finset.card_le_card fun stage mem => ?_
  rw [unmet, Finset.mem_filter] at mem ⊢
  exact ⟨mem.1, fun early => mem.2 (grown.met stage early)⟩

/-- A stage that starts to be visited. -/
private def Visit.begin (state : Visit) (stage : Nat) : Visit :=
  { state with met := stage :: state.met }

section Visit

variable {post : Visit} (orderly : deps.Orderly state)
  (inside : stage < deps.length) (fresh : stage ∉ state.met)

include orderly inside in
private theorem Orderly.begin : deps.Orderly (state.begin stage) where
  met other mem := .tail _ (orderly.met other mem)
  nodup := orderly.nodup
  inside other mem := by
    rcases mem_cons.mp mem with rfl | mem
    · exact inside
    · exact orderly.inside other mem
  closed := orderly.closed

include orderly fresh in
private theorem waits_begin (other : Nat) :
    (state.begin stage).Waits other ↔ other = stage ∨ state.Waits other := by
  simp only [Visit.Waits, Visit.begin, mem_cons]
  constructor
  · rintro ⟨rfl | mem, undone⟩
    · exact .inl rfl
    · exact .inr ⟨mem, undone⟩
  · rintro (rfl | ⟨mem, undone⟩)
    · exact ⟨.inl rfl, fun done => fresh (orderly.met other done)⟩
    · exact ⟨.inr mem, undone⟩

include inside fresh in
private theorem card_unmet_begin :
    (deps.unmet (state.begin stage)).card < (deps.unmet state).card := by
  refine Finset.card_lt_card ((Finset.ssubset_iff_of_subset fun other mem => ?_).mpr
    ⟨stage, ?_, ?_⟩)
  · simp only [unmet, Visit.begin, Finset.mem_filter, mem_cons, not_or] at mem ⊢
    exact ⟨mem.1, mem.2.2⟩
  · simp only [unmet, Finset.mem_filter, Finset.mem_range]
    exact ⟨inside, fresh⟩
  · simp [unmet, Visit.begin]

include orderly fresh in
/-- A stage is done after the stages that feed it have been met. -/
private theorem Orderly.finish (orderly' : deps.Orderly post)
    (grown : (state.begin stage).Extends post)
    (waiting : ∀ other, state.Waits other → TransGen deps.Feeds stage other)
    (met : ∀ other, deps.Feeds other stage → other ∈ post.met) :
    deps.Orderly { post with done := post.done ++ [stage] } ∧
      state.Extends { post with done := post.done ++ [stage] } := by
  have waits := waits_begin orderly fresh
  obtain ⟨stageMet, undone⟩ := (grown.waits stage).mpr ((waits stage).mpr (.inl rfl))
  refine ⟨⟨fun other mem => ?_, ?_, orderly'.inside, ?_⟩,
    fun other mem => grown.met other (.tail _ mem), fun other => ?_⟩
  · rcases mem_append.mp mem with done | last
    · exact orderly'.met other done
    · exact mem_singleton.mp last ▸ stageMet
  · exact nodup_append.mpr ⟨orderly'.nodup, nodup_singleton _, by
      rintro first done second last rfl
      exact undone (mem_singleton.mp last ▸ done)⟩
  · intro early other late eq pre feeds
    rcases eq_nil_or_concat late with rfl | ⟨late, last, rfl⟩
    · obtain ⟨rfl, last⟩ := append_inj' eq rfl
      cases last
      by_cases done : pre ∈ post.done
      · exact .inl done
      · rcases (waits pre).mp ((grown.waits pre).mp ⟨met pre feeds, done⟩) with
          rfl | waits'
        · exact .inr (.single feeds)
        · exact .inr (waiting pre waits')
    · rw [concat_eq_append, ← cons_append, ← append_assoc] at eq
      exact orderly'.closed early other late (append_inj' eq rfl).1 pre feeds
  · have step : ({ post with done := post.done ++ [stage] } : Visit).Waits other ↔
        post.Waits other ∧ other ≠ stage := by
      simp only [Visit.Waits, mem_append, mem_singleton, not_or, and_assoc, ne_eq]
    rw [step, grown.waits, waits]
    constructor
    · exact fun known => known.1.resolve_left known.2
    · refine fun waits' => ⟨.inr waits', ?_⟩
      rintro rfl
      exact fresh waits'.1

end Visit

/-- A visit that goes deep enough does the stage after the stages that feed it. -/
theorem visit_spec (bounded : deps.Bounded) {depth : Nat}
    (orderly : deps.Orderly state) (inside : stage < deps.length)
    (deep : (deps.unmet state).card < depth)
    (waiting : ∀ other, state.Waits other → TransGen deps.Feeds stage other) :
    deps.Orderly (deps.visit depth state stage) ∧ state.Extends (deps.visit depth state stage) ∧
      stage ∈ (deps.visit depth state stage).met := by
  induction depth generalizing state stage with
  | zero => omega
  | succ depth ih =>
    rw [visit]
    by_cases known : stage ∈ state.met
    · rw [if_pos known]
      exact ⟨orderly, .refl state, known⟩
    · rw [if_neg known]
      have fewer := card_unmet_begin inside known
      have waits := waits_begin orderly known
      -- the fold over the stages that feed this one
      let inv : List Nat → Visit → Prop := fun rest post =>
        deps.Orderly post ∧ (state.begin stage).Extends post ∧
          (∀ other ∈ rest, deps.Feeds other stage) ∧
          ∀ other, deps.Feeds other stage → other ∉ rest → other ∈ post.met
      obtain ⟨orderly', grown, -, met⟩ : inv []
          ((deps.feeding stage).reverse.foldl (deps.visit depth) (state.begin stage)) := by
        refine foldl_keeps inv ?_ ⟨orderly.begin inside, .refl _,
          fun other has => mem_reverse.mp has,
          fun other feeds absent => (absent (mem_reverse.mpr feeds)).elim⟩
        rintro other rest post ⟨orderly', grown, mem, met⟩
        have feeds := mem other (.head _)
        have shallow := @Visit.Extends.card_unmet deps _ _ grown
        obtain ⟨orderly'', grown', met'⟩ := ih orderly' (bounded other stage feeds) (by omega) (by
          intro waiter waits'
          rcases (waits waiter).mp ((grown.waits waiter).mp waits') with rfl | early
          · exact .single feeds
          · exact .head feeds (waiting waiter early))
        refine ⟨orderly'', grown.trans grown', fun later has => mem later (.tail _ has),
          fun pre feeds' absent => ?_⟩
        by_cases eq : pre = other
        · exact eq ▸ met'
        · exact grown'.met pre (met pre feeds' (by simp [eq, absent]))
      obtain ⟨orderly'', grown'⟩ := orderly.finish known orderly' grown waiting
        fun other feeds => met other feeds not_mem_nil
      exact ⟨orderly'', grown', grown.met stage (.head _)⟩

/-- The order has each stage once, after the stages that feed it, up to those that
wait for it. -/
theorem order_spec (bounded : deps.Bounded) : deps.order.Perm (range deps.length) ∧
    ∀ early stage late, deps.order = early ++ stage :: late → ∀ other, deps.Feeds other stage →
        other ∈ early ∨ TransGen deps.Feeds stage other := by
  let inv : List Nat → Visit → Prop := fun rest state =>
    deps.Orderly state ∧ (∀ stage, ¬ state.Waits stage) ∧ (∀ stage ∈ rest, stage < deps.length) ∧
      ∀ stage < deps.length, stage ∉ rest → stage ∈ state.met
  obtain ⟨orderly, idle, -, met⟩ : inv [] ((range deps.length).foldl
      (deps.visit (deps.length + 1)) {}) := by
    refine foldl_keeps inv ?_ ⟨⟨by simp, by simp, by simp, by simp⟩, by simp [Visit.Waits],
      fun stage => mem_range.mp, fun stage inside absent => by simp [inside] at absent⟩
    rintro stage rest state ⟨orderly, idle, mem, met⟩
    have shallow : (deps.unmet state).card < deps.length + 1 := by
      refine Nat.lt_succ_of_le ((Finset.card_filter_le _ _).trans ?_)
      rw [Finset.card_range]
    obtain ⟨orderly', grown, met'⟩ := visit_spec bounded orderly (mem stage (.head _))
      shallow fun other waits => (idle other waits).elim
    refine ⟨orderly', fun other waits => idle other ((grown.waits other).mp waits),
      fun other has => mem other (.tail _ has),
      fun other inside absent => ?_⟩
    by_cases eq : other = stage
    · exact eq ▸ met'
    · exact grown.met other (met other inside (by simp [eq, absent]))
  refine ⟨(perm_ext_iff_of_nodup orderly.nodup nodup_range).mpr fun stage => ?_, orderly.closed⟩
  rw [mem_range]
  constructor
  · exact fun done => orderly.inside stage (orderly.met stage done)
  · intro inside
    by_contra undone
    exact idle stage ⟨met stage inside not_mem_nil, undone⟩

end Dependencies

end Staging
