import Staging.Proofs.Planning
import Staging.Proofs.Facing
import Staging.Proofs.Sketches

/-! # Numbers of stages

Stages of one kind and one distance are merged. Links between what is left of
different stages then lead to larger distances, so that no stage waits for
itself and the numbers of the stages are a topological order.
-/

namespace Staging

open Std Relation List

variable {stages : List Stage} {place : Nat} {fixed : List Block} {site : Site}
  {deps : Dependencies} {block : Block} {stage : Stage} {G : Graph}

/-! ## Places of blocks -/

namespace Stage

/-- The place of the stage with the block. -/
def spot (stages : List Stage) (id : BlockId) : Option Nat :=
  stages.findIdx? fun stage => stage.contains id

private theorem spot_eq_some_iff (nodup : ((stages.flatMap blocks).map (·.id)).Nodup)
    {id : BlockId} : spot stages id = some place ↔
      ∃ stage, stages[place]? = some stage ∧ ∃ block ∈ stage.blocks, block.id = id := by
  rw [spot, findIdx?_eq_some_iff_getElem]
  constructor
  · rintro ⟨inside, own, -⟩
    exact ⟨_, getElem?_eq_getElem inside, contains_iff.mp own⟩
  · rintro ⟨stage, got, own⟩
    obtain ⟨inside, rfl⟩ := List.getElem?_eq_some_iff.mp got
    refine ⟨inside, contains_iff.mpr own, fun earlier pre other => ?_⟩
    obtain ⟨block, mem, rfl⟩ := own
    obtain ⟨block', mem', eq⟩ := contains_iff.mp other
    exact ne_of_places nodup (Nat.ne_of_lt pre)
      (getElem?_eq_getElem (Nat.lt_trans pre inside)) got mem' mem eq

private theorem at_iff {α : Type} {level : BlockId → Option α} {height : α} :
    stage.At level (fun _ => height) ↔ ∀ block ∈ stage.blocks, level block.id = some height := by
  simp only [At, blocks, mem_append, or_imp, forall_and]

/-- Links lead inside of a bucket, or to a larger distance. -/
def Rises (first second : Bool × Nat) : Prop :=
  first = second ∨ first.2 < second.2

instance isTrans_rises : IsTrans (Bool × Nat) Rises where
  trans first second third one two := by
    rcases one with rfl | one
    · exact two
    · rcases two with rfl | two
      · exact .inr one
      · exact .inr (Nat.lt_trans one two)

/-- The kind and the distance of the stage with the block. -/
def bucketOf (stages : List Stage) (distances : List Nat) (id : BlockId) : Option (Bool × Nat) :=
  (spot stages id).map fun place => ((stages[place]?).any hasReduce, distances.getD place 0)

section Buckets

variable {distances : List Nat} (roster : Roster site.wiring (fixed ++ stages.flatMap blocks))
  (known : Stage.dependencies stages site.wiring = .ok deps)
  (measured : deps.distances = .ok distances)
include roster

private theorem distinct_of_roster : ((stages.flatMap blocks).map (·.id)).Nodup :=
  roster.nodup.sublist ((sublist_append_right ..).map _)

include known measured

/-- The blocks of stages stand at the levels of their buckets. -/
theorem leveled_bucketOf {side : BlockId → Option Bool}
    (facing : Facing side fixed (stages.flatMap blocks) site) :
    Leveled Rises (fun _ _ => True) (bucketOf stages distances) fixed (stages.flatMap blocks)
      site where
  graph := facing.graph
  roster := roster
  known block mem := by
    obtain ⟨stage, has, own⟩ := mem_flatMap.mp mem
    obtain ⟨place, got⟩ := mem_iff_getElem?.mp has
    have spotted := (spot_eq_some_iff (distinct_of_roster roster)).mpr ⟨stage, got, block, own, rfl⟩
    exact ⟨_, by rw [bucketOf, spotted, Option.map_some]⟩
  rises first second height height' leads stands stands' := by
    obtain ⟨place, spotted, rfl⟩ := Option.map_eq_some_iff.mp stands
    obtain ⟨place', spotted', rfl⟩ := Option.map_eq_some_iff.mp stands'
    by_cases eq : place = place'
    · exact .inl (eq ▸ rfl)
    · obtain ⟨stage, got, block, own, rfl⟩ :=
        (spot_eq_some_iff (distinct_of_roster roster)).mp spotted
      obtain ⟨stage', got', block', own', rfl⟩ :=
        (spot_eq_some_iff (distinct_of_roster roster)).mp spotted'
      obtain ⟨_, known', length, feeds⟩ := dependencies_eq_ok roster
      cases known.symm.trans known'
      have bounded := bounded_of_places length feeds
      exact .inr (Dependencies.feeds_lt_of_distances bounded measured ((feeds place place').mpr
        ⟨eq, stage, stage', got, got', block, own, block', own', leads⟩))
  apart := facing.apart
  faces := by
    obtain ⟨source, faced⟩ := facing.faces
    refine ⟨source, fun block mem _ _ => ?_⟩
    obtain ⟨side, known⟩ := facing.known block mem
    exact (faced block mem side known).mono fun _ _ => trivial

omit known measured in
private theorem bucketOf_eq {distance : Nat} (got : stages[place]? = some stage)
    (away : distances[place]? = some distance) :
    stage.At (bucketOf stages distances) fun _ => (stage.hasReduce, distance) := by
  rw [at_iff]
  intro block own
  rw [bucketOf, (spot_eq_some_iff (distinct_of_roster roster)).mpr ⟨stage, got, block, own, rfl⟩,
    Option.map_some, got, getD_eq_getElem?_getD, away]
  rfl

end Buckets

/-! ## Stages at different levels -/

/-- The blocks of a stage are of one level, which is no other stage's. -/
structure Separate {α : Type} (level : BlockId → Option α) (stages : List Stage) : Prop where
  even : ∀ stage ∈ stages, ∃ height, stage.At level fun _ => height
  ne : stages.Pairwise fun first second => ∀ block ∈ first.blocks, ∀ other ∈ second.blocks,
    level block.id ≠ level other.id

section Separate

variable {α : Type} {level : BlockId → Option α} {stages' : List Stage}

private theorem separate_of_forall₂ {keys : List α} (nodup : keys.Nodup)
    (stands : Forall₂ (fun stage key => stage.At level fun _ => key) stages keys) :
    Separate level stages := by
  have key : ∀ (place : Nat) (stage : Stage), stages[place]? = some stage →
      ∃ key, keys[place]? = some key ∧ stage.At level fun _ => key := by
    intro place stage got
    obtain ⟨inside, rfl⟩ := List.getElem?_eq_some_iff.mp got
    have inside' : place < keys.length := stands.length_eq ▸ inside
    exact ⟨keys[place], getElem?_eq_getElem inside', stands.get inside inside'⟩
  refine ⟨fun stage mem => ?_, ?_⟩
  · obtain ⟨place, got⟩ := mem_iff_getElem?.mp mem
    obtain ⟨height, -, stands⟩ := key place stage got
    exact ⟨height, stands⟩
  · rw [pairwise_iff_getElem]
    intro first second inside inside' pre block own other own' eq
    obtain ⟨height, got, stands⟩ := key first _ (getElem?_eq_getElem inside)
    obtain ⟨height', got', stands'⟩ := key second _ (getElem?_eq_getElem inside')
    rw [at_iff.mp stands block own, at_iff.mp stands' other own'] at eq
    cases eq
    exact Nat.ne_of_lt pre ((getElem?_inj (List.getElem?_eq_some_iff.mp got).1 nodup).mp
      (got.trans got'.symm))

private theorem Shrinks.exists_block {pre post : Stage} (shrinks : pre.Shrinks post)
    (own : block ∈ post.blocks) : ∃ other ∈ pre.blocks, other.id = block.id := by
  rcases mem_append.mp own with map | reduce
  · obtain ⟨other, mem, eq⟩ := mem_map.mp (shrinks.maps.subset (mem_map_of_mem map))
    exact ⟨other, mem_append_left _ mem, eq⟩
  · exact ⟨block, mem_append_right _ (shrinks.reduces ▸ reduce), rfl⟩

private theorem Separate.shrinks {early late : List Stage} {stage' : Stage}
    (shrinks : stage.Shrinks stage')
    (separate : Separate level (early ++ stage :: late)) :
    Separate level (early ++ stage' :: late) := by
  obtain ⟨even, ne⟩ := separate
  rw [pairwise_append, pairwise_cons] at ne
  obtain ⟨early', ⟨later, late'⟩, across⟩ := ne
  refine ⟨fun other mem => ?_, pairwise_append.mpr ⟨early', pairwise_cons.mpr
    ⟨fun other mem block own => ?_, late'⟩, fun other mem third mem' => ?_⟩⟩
  · rcases mem_append.mp mem with pre | behind
    · exact even other (mem_append_left _ pre)
    · rcases mem_cons.mp behind with rfl | behind
      · obtain ⟨height, stands⟩ := even stage (mem_append_right _ (.head _))
        refine ⟨height, at_iff.mpr fun block own => ?_⟩
        obtain ⟨whole, own', eq⟩ := shrinks.exists_block own
        rw [← eq]
        exact at_iff.mp stands whole own'
      · exact even other (mem_append_right _ (.tail _ behind))
  · obtain ⟨whole, own', eq⟩ := shrinks.exists_block own
    rw [← eq]
    exact later other mem whole own'
  · rcases mem_cons.mp mem' with rfl | behind
    · intro block own block' own'
      obtain ⟨whole, own'', eq⟩ := shrinks.exists_block own'
      rw [← eq]
      exact across other mem stage (.head _) block own whole own''
    · exact across other mem third (.tail _ behind)

private theorem Separate.sublist (separate : Separate level stages) (sub : stages'.Sublist stages) :
    Separate level stages' where
  even stage mem := separate.even stage (sub.subset mem)
  ne := separate.ne.sublist sub

private theorem Separate.ne_of_places (separate : Separate level stages) {first second : Nat}
    {one two : Stage} (ne : first ≠ second) (got : stages[first]? = some one)
    (got' : stages[second]? = some two) {other : Block} (own : block ∈ one.blocks)
    (own' : other ∈ two.blocks) : level block.id ≠ level other.id := by
  obtain ⟨inside, rfl⟩ := List.getElem?_eq_some_iff.mp got
  obtain ⟨inside', rfl⟩ := List.getElem?_eq_some_iff.mp got'
  have apart := pairwise_iff_getElem.mp separate.ne
  rcases Nat.lt_or_gt_of_ne ne with pre | behind
  · exact apart first second inside inside' pre block own other own'
  · exact (apart second first inside' inside behind other own' block own).symm

/-- Stages of levels that grow along links do not wait for themselves. -/
theorem Separate.acyclic {level : BlockId → Option (Bool × Nat)} {faces : Bool × Nat → Bool → Prop}
    (leveled : Leveled Rises faces level fixed (stages.flatMap blocks) site)
    (separate : Separate level stages)
    (known : Stage.dependencies stages site.wiring = .ok deps) : deps.Acyclic := by
  have stands : ∀ place : Nat, ∃ away : Nat, ∀ stage, stages[place]? = some stage →
      ∃ kind, stage.At level fun _ => (kind, away) := by
    intro place
    cases got : stages[place]? with
    | none => exact ⟨0, nofun⟩
    | some stage =>
      obtain ⟨⟨kind, away⟩, stands⟩ := separate.even stage (mem_of_getElem? got)
      exact ⟨away, fun other eq => ⟨kind, Option.some.inj eq ▸ stands⟩⟩
  choose away stands using stands
  obtain ⟨_, known', -, feeds⟩ := dependencies_eq_ok leveled.roster
  cases known.symm.trans known'
  have grows : ∀ first second, deps.Feeds first second → away first < away second := by
    intro first second fed
    obtain ⟨ne, one, two, got, got', block, own, other, own', leads⟩ := (feeds first second).mp fed
    obtain ⟨kind, stands₁⟩ := stands first one got
    obtain ⟨kind', stands₂⟩ := stands second two got'
    rw [at_iff] at stands₁ stands₂
    rcases leveled.rises _ _ _ _ leads (stands₁ block own) (stands₂ other own') with eq | less
    · refine absurd ?_ (separate.ne_of_places ne got got' own own')
      rw [stands₁ block own, stands₂ other own', eq]
    · exact less
  intro stage cycle
  have less : ∀ {other}, TransGen deps.Feeds stage other → away stage < away other := by
    intro other path
    induction path with
    | single step => exact grows _ _ step
    | tail _ step ih => exact Nat.lt_trans ih (grows _ _ step)
  exact Nat.lt_irrefl _ (less cycle)

end Separate

end Stage

/-! ## Plans -/

/-- Stages are numbered from one in the order in which they are listed, and links
between two of them lead to the one with the larger number. -/
structure Plan.Topological (plan : Plan) : Prop where
  numbers : plan.stages.map Stage.number = (range' 1 plan.stages.length).map some
  rises : ∀ exit entry, (exit, entry) ∈ plan.wiring.links →
    ∃ output input, plan.wiring.outputs[exit]? = some output ∧
      plan.wiring.inputs[entry]? = some input ∧
      ∀ (first second : Nat) (one two : Stage), plan.stages[first]? = some one →
        plan.stages[second]? = some two → first ≠ second → one.contains output.block = true →
        two.contains input.block = true →
        ∃ pre behind, one.number = some pre ∧ two.number = some behind ∧ pre < behind

private theorem Wiring.mem_links {W : Wiring} {exit : BlockOutputId} {entry : BlockInputId} :
    (exit, entry) ∈ W.links ↔ W.Linked exit entry := by
  simp only [links, mem_flatMap, mem_map, Prod.exists, Prod.mk.injEq, Linked, targets]
  constructor
  · rintro ⟨_, record, mem, _, linked, rfl, rfl⟩
    rw [(HandleMap.mem_toList_iff _).mp mem]
    exact ExtTreeSet.mem_toList.mp linked
  · intro linked
    split at linked
    · next record got =>
      exact ⟨exit, record, (HandleMap.mem_toList_iff _).mpr got, entry,
        ExtTreeSet.mem_toList.mpr linked, rfl, rfl⟩
    · simp at linked

/-- Stages that do not wait for themselves are numbered in a topological order. -/
theorem Stage.topological_of_ordered {ordered : List Stage} {input out : Block}
    (roster : Roster site.wiring ([input, out] ++ stages.flatMap Stage.blocks))
    (known : Stage.dependencies stages site.wiring = .ok deps)
    (acyclic : deps.Acyclic) (run : Stage.ordered stages site.wiring = .ok ordered) :
    Plan.Topological ⟨site.graph, site.wiring, input, out, ordered⟩ := by
  obtain ⟨_, run', spec, later⟩ := Stage.ordered_eq_ok roster
  cases run.symm.trans run'
  refine ⟨?_, fun exit entry mem => ?_⟩
  · refine ext_getElem? fun place => ?_
    rw [getElem?_map, getElem?_map]
    cases got : ordered[place]? with
    | none =>
      have short := getElem?_eq_none_iff.mp got
      rw [getElem?_eq_none_iff.mpr (by simpa using short)]
      rfl
    | some stage =>
      have inside := (List.getElem?_eq_some_iff.mp got).1
      rw [getElem?_range' (by simpa using inside), Option.map_some, Option.map_some,
        spec.number place stage got, Nat.add_comm, Nat.one_mul]
  · have linked := Wiring.mem_links.mp mem
    obtain ⟨_, leaves⟩ := Wiring.exists_exitOf_of_linked linked
    obtain ⟨_, entered⟩ := roster.wf.exists_entryOf linked
    obtain ⟨out', got, -⟩ := Option.map_eq_some_iff.mp leaves
    obtain ⟨input', got', -⟩ := Option.map_eq_some_iff.mp entered
    refine ⟨out', input', got, got', fun first second one two at' at'' ne own own' => ?_⟩
    obtain ⟨block, has, eq⟩ := contains_iff.mp own
    obtain ⟨block', has', eq'⟩ := contains_iff.mp own'
    have feeds : one.Feeds site.wiring two :=
      ⟨block, has, block', has', exit, entry, out'.port, input'.port,
        Option.map_eq_some_iff.mpr ⟨out', got, by rw [eq]⟩,
        Option.map_eq_some_iff.mpr ⟨input', got', by rw [eq']⟩, linked⟩
    exact ⟨first + 1, second + 1, spec.number first one at', spec.number second two at'',
      Nat.succ_lt_succ (later deps known acyclic first second one two at' at'' ne feeds)⟩

/-- Whatever graph is planned, merged stages are numbered in a topological order. -/
theorem Planner.topological_of_assemble {events : List Event} {plan : Plan} (wf : G.Consistent)
    (run : assemble G true = .ok (events, plan)) : plan.Topological := by
  obtain ⟨⟨grouped, input, out, stages, site⟩, gathered, run⟩ := of_bind run
  obtain ⟨⟨merged, stages', site'⟩, merges, run⟩ := of_bind run
  obtain ⟨ordered, orders, ⟨⟩⟩ := of_bind run
  obtain ⟨⟨stages₁, site₁⟩, buckets, merges⟩ := of_bind merges
  obtain ⟨⟨stages₂, site₂⟩, compacts, ⟨⟩⟩ := of_bind merges
  obtain ⟨side, facing, -⟩ := facing_stages wf gathered
  have roster := facing.roster
  obtain ⟨deps, known, measures⟩ := of_bind buckets
  obtain ⟨distances, measured, -⟩ := of_bind measures
  have leveled := Stage.leveled_bucketOf roster known measured facing
  obtain ⟨level, keys, leveled₁, nodup, stands, -⟩ :=
    leveled.mergeAll (fun key _ => key) known measured
      (fun place stage distance got away => Stage.bucketOf_eq roster got away) buckets
  obtain ⟨leveled₂, separate⟩ := leveled₁.compactStages (Stage.Separate level)
    (fun _ _ _ _ shrinks separate => separate.shrinks shrinks)
    (fun _ _ sub separate => separate.sublist sub) (Stage.separate_of_forall₂ nodup stands)
    compacts
  obtain ⟨deps', known', -⟩ := Stage.dependencies_eq_ok leveled₂.roster
  exact Stage.topological_of_ordered leveled₂.roster known'
    (separate.acyclic leveled₂ known') orders

/-! ## Passes -/

/-- The pass does not break the graphs that it goes over. -/
def Pass.KeepsConsistent (pass : Pass) : Prop :=
  ∀ {graph post : Graph} {changed : Bool}, graph.Consistent →
    pass.run graph = .ok (.ok (changed, post)) → post.Consistent

namespace Planner

variable {planner : Planner} {source : Graph} {plan : Plan} {events : List Event}

private theorem consistent_of_applyPasses {passes : List Pass}
    (keep : ∀ pass ∈ passes, pass.KeepsConsistent) {changed changed' : Bool} {post : Graph}
    (wf : G.Consistent) (run : applyPasses passes changed G = .ok ⟨events, .ok (changed', post)⟩) :
    post.Consistent := by
  induction passes generalizing changed G events with
  | nil =>
    cases run
    exact wf
  | cons pass rest ih =>
    obtain ⟨result, passed, run⟩ := of_bind run
    cases result with
    | error reasons => cases run
    | ok result =>
      obtain ⟨⟨events', result'⟩, later, ⟨⟩⟩ := of_bind run
      exact ih (fun other mem => keep other (.tail _ mem)) (keep pass (.head _) wf passed) later

private theorem consistent_of_transform (keep : ∀ pass ∈ planner.passes, pass.KeepsConsistent)
    {post : Graph} (wf : G.Consistent)
    (run : planner.transform G = .ok ⟨events, .ok post⟩) : post.Consistent := by
  obtain ⟨⟨events', passed⟩, applied, run⟩ := of_bind run
  obtain ⟨⟨changed, graph'⟩, events'', rfl, rest⟩ := andThen_eq_ok_iff.mp ⟨_, run⟩
  have wf' := consistent_of_applyPasses
    (fun pass mem => keep pass (mem_mergeSort.mp mem)) wf applied
  cases changed with
  | false =>
    cases rest
    exact wf'
  | true => exact Graph.keeps_validate wf' (check_eq_ok_iff.mp ⟨_, rest⟩)

/-- What is planned is assembled from a consistent graph. -/
theorem exists_assemble_of_plan (wf : source.Consistent)
    (keep : ∀ pass ∈ planner.passes, pass.KeepsConsistent)
    (returned : planner.plan source = .ok ⟨events, .ok plan⟩) :
    ∃ working events', working.Consistent ∧
      assemble working planner.options.compression.enabled = .ok (events', plan) := by
  obtain ⟨⟨events₁, checked⟩, checks, run⟩ := of_bind returned
  obtain ⟨closed, events₂, rfl, run'⟩ := andThen_eq_ok_iff.mp ⟨_, run⟩
  obtain ⟨⟨events₃, transformed⟩, passes, rest⟩ := of_bind run'
  obtain ⟨G, events₄, rfl, rest'⟩ := andThen_eq_ok_iff.mp ⟨_, rest⟩
  obtain ⟨summary, working, events₅, normalized, assembled⟩ := planChecked_eq_ok_iff.mp ⟨_, rest'⟩
  have closed' := Graph.keeps_validate wf (check_eq_ok_iff.mp ⟨_, checks⟩)
  exact ⟨working, events₅,
    Graph.keeps_normalize (consistent_of_transform keep closed' passes) normalized, assembled⟩

/-- With merging, the numbers of the stages are a topological order. -/
theorem plan_topological (built : source.Built)
    (keep : ∀ pass ∈ planner.passes, pass.KeepsConsistent)
    (merges : planner.options.compression.enabled = true)
    (returned : planner.plan source = .ok ⟨events, .ok plan⟩) : plan.Topological := by
  obtain ⟨working, events', wf, assembled⟩ := exists_assemble_of_plan built.founded.wf keep returned
  exact topological_of_assemble wf (merges ▸ assembled)

set_option maxRecDepth 100000 in
theorem plan_topological_shuffled : ∃ source events plan,
    ({} : Planner).plan source = .ok ⟨events, .ok plan⟩ ∧ plan.stages.length = 2 ∧
      plan.Topological := by
  have planned : Sketch.shuffled.plans {} (fun _ plan => plan.stages.length == 2) = true := by
    decide +kernel
  obtain ⟨source, events, plan, -, built, -, returned, several⟩ := Sketch.exists_of_plans planned
  exact ⟨source, events, plan, returned, beq_iff_eq.mp several,
    plan_topological built (by simp) rfl returned⟩

end Planner

end Staging
