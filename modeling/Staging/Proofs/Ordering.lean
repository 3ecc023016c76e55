import Mathlib.Data.List.Flatten
import Staging.Plan.Staged
import Staging.Proofs.Dependency
import Staging.Proofs.Rosters

/-! # The order of stages

A stage waits for another one if a block of the other leads to one of its own.
Stages are numbered in an order in which each stage comes after those that it
waits for, unless these wait for it as well.
-/

namespace Staging

open Std Relation List

variable {stages : List Stage} {id : BlockId} {deps : Dependencies} {distances : List Nat}
  {stage : Stage} {fixed : List Block} {W : Wiring} {α : Type}

namespace Stage

/-- A block of the one stage leads to a block of the other. -/
def Feeds (wiring : Wiring) (first second : Stage) : Prop :=
  ∃ block ∈ first.blocks, ∃ other ∈ second.blocks, wiring.Leads block.id other.id

/-- A block output of the one stage is linked with a block input that the other one lists. -/
def Supplies (wiring : Wiring) (first second : Stage) : Prop :=
  ∃ block ∈ first.blocks, ∃ other ∈ second.blocks, ∃ exit port, ∃ entry ∈ other.inputs,
    wiring.exitOf exit = some (block.id, port) ∧ wiring.Linked exit entry

theorem contains_iff : stage.contains id ↔ ∃ block ∈ stage.blocks, block.id = id := by
  simp only [contains, any_eq_true, beq_iff_eq]

/-- The block is a reduce block of one of the stages. -/
def reducedIn (stages : List Stage) (id : BlockId) : Bool :=
  stages.any fun stage => stage.reduces.any fun block => block.id == id

theorem reducedIn_iff : reducedIn stages id ↔
    ∃ stage ∈ stages, ∃ block ∈ stage.reduces, block.id = id := by
  simp only [reducedIn, any_eq_true, beq_iff_eq]

/-- Blocks of stages that are listed at different places differ. -/
theorem ne_of_places (nodup : ((stages.flatMap blocks).map (·.id)).Nodup)
    {first second : Nat} {one two : Stage} (ne : first ≠ second)
    (got : stages[first]? = some one) (got' : stages[second]? = some two) {block other : Block}
    (own : block ∈ one.blocks) (own' : other ∈ two.blocks) : block.id ≠ other.id := by
  have apart : stages.Pairwise fun one two => ∀ block ∈ one.blocks, ∀ other ∈ two.blocks,
      block.id ≠ other.id := by
    rw [map_flatMap, nodup_flatMap] at nodup
    refine nodup.2.imp fun disjoint block own other own' eq => ?_
    exact disjoint (mem_map_of_mem own) (eq ▸ mem_map_of_mem own')
  have inside := (List.getElem?_eq_some_iff.mp got).1
  have inside' := (List.getElem?_eq_some_iff.mp got').1
  rw [pairwise_iff_getElem] at apart
  rcases Nat.lt_or_gt_of_ne ne with pre | post
  · have := apart first second inside inside' pre
    rw [(List.getElem?_eq_some_iff.mp got).2, (List.getElem?_eq_some_iff.mp got').2] at this
    exact this block own other own'
  · have := apart second first inside' inside post
    rw [(List.getElem?_eq_some_iff.mp got).2, (List.getElem?_eq_some_iff.mp got').2] at this
    exact (this other own' block own).symm

/-- The blocks that supply a stage from outside of it. -/
theorem predecessorBlocks_eq_ok (known : ∀ block ∈ stage.blocks, ∀ entry ∈ block.inputs,
      ∃ wraps, W.entryOf entry = some wraps) :
    ∃ feeding, stage.predecessorBlocks W = .ok feeding ∧ ∀ id, id ∈ feeding ↔
      (∃ block ∈ stage.blocks, id ∈ block.before W) ∧ stage.contains id = false := by
  have looked := mapM_eq_ok fun block own => Block.predecessors_eq_before (known block own)
  refine ⟨_, bind_of_ok looked, fun id => ?_⟩
  rw [HandleSet.mem_filter_iff, HandleSet.mem_gather, Bool.not_eq_true']
  simp only [id_eq, mem_map, exists_exists_and_eq_and]

/-- The dependencies of stages that list block inputs of the wiring. -/
theorem exists_dependencies (wf : W.Consistent) (nodup : ((stages.flatMap blocks).map (·.id)).Nodup)
    (known : ∀ stage ∈ stages, ∀ block ∈ stage.blocks, ∀ entry ∈ block.inputs,
      ∃ wraps, W.entryOf entry = some wraps) :
    ∃ deps, Stage.dependencies stages W = .ok deps ∧
      deps.length = stages.length ∧ ∀ first second, deps.Feeds first second ↔
        first ≠ second ∧ ∃ one two, stages[first]? = some one ∧ stages[second]? = some two ∧
          one.Supplies W two := by
  have looked : ∀ stage, ∃ feeding, stage ∈ stages → stage.predecessorBlocks W = .ok feeding ∧
      ∀ id, id ∈ feeding ↔
        (∃ block ∈ stage.blocks, id ∈ block.before W) ∧ stage.contains id = false := by
    intro stage
    by_cases has : stage ∈ stages
    · obtain ⟨feeding, run, spec⟩ := predecessorBlocks_eq_ok (known stage has)
      exact ⟨feeding, fun _ => ⟨run, spec⟩⟩
    · exact ⟨∅, fun has' => (has has').elim⟩
  choose feeding looked using looked
  refine ⟨_, bind_of_ok (mapM_eq_ok fun stage has => (looked stage has).1), ?_,
    fun first second => ?_⟩
  · simp
  · rw [Dependencies.Feeds, Dependencies.feeding, getD_eq_getElem?_getD, getElem?_map,
      getElem?_zipIdx, getElem?_map]
    cases got : stages[second]? with
    | none => simp
    | some two =>
      have has := mem_of_getElem? got
      simp only [Option.map_some, Option.getD_some, mem_filter, mem_range, ne_eq,
        Nat.zero_add, Bool.and_eq_true, decide_eq_true_eq, Option.any_eq_true, any_eq_true,
        ExtTreeSet.mem_toList, (looked two has).2, contains_iff, Block.mem_before_iff wf]
      constructor
      · rintro ⟨-, ne, one, got', id, ⟨⟨other, own', supplied⟩, -⟩, block, own, rfl⟩
        exact ⟨ne, one, two, got', rfl, block, own, other, own', supplied⟩
      · rintro ⟨ne, one, _, got', ⟨⟩, block, own, other, own', supplied⟩
        refine ⟨(List.getElem?_eq_some_iff.mp got').1, ne, one, got', block.id,
          ⟨⟨other, own', supplied⟩, ?_⟩, block, own, rfl⟩
        rw [← Bool.not_eq_true, contains_iff]
        rintro ⟨inner, own'', eq⟩
        exact ne_of_places nodup ne got' got own own'' eq.symm

/-- The dependencies of stages that list their block ports. -/
theorem dependencies_eq_ok (roster : Roster W (fixed ++ stages.flatMap blocks)) :
    ∃ deps, Stage.dependencies stages W = .ok deps ∧
      deps.length = stages.length ∧ ∀ first second, deps.Feeds first second ↔
        first ≠ second ∧ ∃ one two, stages[first]? = some one ∧ stages[second]? = some two ∧
          one.Feeds W two := by
  have own := roster.sublist (sublist_append_right fixed _)
  have mem : ∀ stage ∈ stages, ∀ block ∈ stage.blocks, block ∈ stages.flatMap blocks :=
    fun stage has block own => mem_flatMap.mpr ⟨stage, has, own⟩
  obtain ⟨deps, run, length, feeds⟩ := exists_dependencies own.wf own.nodup
    fun stage has block inside entry listed =>
      ((own.entries block (mem stage has block inside) entry).mp listed).imp' _ fun _ => id
  refine ⟨deps, run, length, fun first second => (feeds first second).trans ?_⟩
  refine and_congr_right fun _ => exists_congr fun one => exists_congr fun two =>
    and_congr_right fun _ => and_congr_right fun got => ?_
  refine exists_congr fun block => and_congr_right fun _ => exists_congr fun other =>
    and_congr_right fun inside => ?_
  rw [← Block.mem_before_iff own.wf, own.mem_before (mem two (mem_of_getElem? got) other inside)]

theorem bounded_of_places {leads : Stage → Stage → Prop} (length : deps.length = stages.length)
    (feeds : ∀ first second, deps.Feeds first second ↔ first ≠ second ∧
      ∃ one two, stages[first]? = some one ∧ stages[second]? = some two ∧ leads one two) :
    deps.Bounded := by
  intro first second fed
  obtain ⟨-, one, -, got, -⟩ := (feeds first second).mp fed
  rw [length]
  exact (List.getElem?_eq_some_iff.mp got).1

/-- The stages are the listed ones in another order, numbered from one. -/
structure Ordered (stages ordered : List Stage) : Prop where
  blocks : (ordered.flatMap blocks).Perm (stages.flatMap blocks)
  number : ∀ place stage, ordered[place]? = some stage → stage.number = some (place + 1)
  mem : ∀ stage ∈ ordered, ∃ other ∈ stages, other.maps = stage.maps ∧ other.reduces = stage.reduces

theorem filterMap_range_getElem? (items : List α) :
    (range items.length).filterMap (items[·]?) = items := by
  induction items using reverseRecOn with
  | nil => rfl
  | append_singleton items last ih =>
    have early : (range items.length).filterMap ((items ++ [last])[·]?) =
        (range items.length).filterMap (items[·]?) :=
      filterMap_congr fun place inside =>
        getElem?_append_left (mem_range.mp inside)
    rw [length_append, length_singleton, range_succ, filterMap_append, early, ih]
    simp

/-- Numbers do not change blocks. -/
theorem flatMap_blocks_numbered (stages : List Stage) (start : Nat) :
    ((stages.zipIdx start).map fun (stage, place) =>
      { stage with number := some (place + 1) }).flatMap blocks = stages.flatMap blocks := by
  induction stages generalizing start with
  | nil => rfl
  | cons stage rest ih =>
    rw [zipIdx_cons, map_cons, flatMap_cons, ih, flatMap_cons]
    rfl

/-- Places that all exist are found in the order in which they are listed. -/
theorem getElem?_filterMap_places {items : List α} {places : List Nat}
    (inside : ∀ place ∈ places, place < items.length) (index : Nat) :
    (places.filterMap (items[·]?))[index]? = places[index]?.bind (items[·]?) := by
  induction places generalizing index with
  | nil => rfl
  | cons first rest ih =>
    have got := getElem?_eq_getElem (inside first (.head _))
    rw [filterMap_cons_some got]
    cases index with
    | zero => exact got.symm
    | succ index => exact ih (fun other later => inside other (.tail _ later)) index

/-- Stages that list their block ports can be ordered. If none of them waits for
itself through others, each comes after those that it waits for. -/
theorem ordered_eq_ok (roster : Roster W (fixed ++ stages.flatMap blocks)) :
    ∃ ordered, Stage.ordered stages W = .ok ordered ∧ Ordered stages ordered ∧
      ∀ deps, Stage.dependencies stages W = .ok deps →
        deps.Acyclic → ∀ (first second : Nat) (one two : Stage),
          ordered[first]? = some one → ordered[second]? = some two → first ≠ second →
          one.Feeds W two → first < second := by
  obtain ⟨deps, run, length, feeds⟩ := dependencies_eq_ok roster
  obtain ⟨perm, closed⟩ := Dependencies.order_spec (bounded_of_places length feeds)
  rw [length] at perm
  have inside : ∀ place ∈ deps.order, place < stages.length :=
    fun place mem => mem_range.mp (perm.mem_iff.mp mem)
  let sorted := deps.order.filterMap (stages[·]?)
  let ordered : List Stage := sorted.zipIdx.map fun (stage, place) =>
    { stage with number := some (place + 1) }
  have permuted : sorted.Perm stages := by
    have := perm.filterMap (stages[·]?)
    rwa [filterMap_range_getElem?] at this
  have got : ∀ (place : Nat) (stage : Stage), ordered[place]? = some stage →
      ∃ origin other, deps.order[place]? = some origin ∧ stages[origin]? = some other ∧
        stage = { other with number := some (place + 1) } := by
    intro place stage got
    rw [getElem?_map, getElem?_zipIdx, Option.map_map, Nat.zero_add,
      getElem?_filterMap_places inside] at got
    obtain ⟨other, got', rfl⟩ := Option.map_eq_some_iff.mp got
    obtain ⟨origin, mem, got'⟩ := Option.bind_eq_some_iff.mp got'
    exact ⟨origin, other, mem, got', rfl⟩
  refine ⟨ordered, bind_of_ok run, ⟨?_, fun place stage mem => ?_, fun stage mem => ?_⟩, ?_⟩
  · rw [flatMap_blocks_numbered]
    exact permuted.flatMap_right blocks
  · obtain ⟨-, -, -, -, rfl⟩ := got place stage mem
    rfl
  · obtain ⟨place, mem⟩ := mem_iff_getElem?.mp mem
    obtain ⟨origin, other, -, got, rfl⟩ := got place stage mem
    exact ⟨other, mem_of_getElem? got, rfl, rfl⟩
  · intro deps' run' acyclic first second one two mem mem' ne fed
    cases run.symm.trans run'
    obtain ⟨origin, one, at', got', rfl⟩ := got first _ mem
    obtain ⟨origin', two, at'', got'', rfl⟩ := got second _ mem'
    have nodup := perm.nodup_iff.mpr nodup_range
    have ne' : origin ≠ origin' := by
      rintro rfl
      exact ne ((getElem?_inj (List.getElem?_eq_some_iff.mp at').1 nodup).mp (at'.trans at''.symm))
    have feeds' := (feeds origin origin').mpr ⟨ne', one, two, got', got'', fed⟩
    -- what feeds a stage comes before it, or waits for it
    obtain ⟨within, eq⟩ := List.getElem?_eq_some_iff.mp at''
    have cut : deps.order = deps.order.take second ++ origin' :: deps.order.drop (second + 1) := by
      rw [← eq, cons_getElem_drop_succ, take_append_drop]
    rcases closed _ _ _ cut origin feeds' with early | waits
    · obtain ⟨place, pre⟩ := mem_iff_getElem?.mp early
      rw [getElem?_take] at pre
      split at pre
      · next lower =>
        rwa [← (getElem?_inj (List.getElem?_eq_some_iff.mp pre).1 nodup).mp (pre.trans at'.symm)]
      · cases pre
    · exact (acyclic origin' (waits.tail feeds')).elim

end Stage

/-! ## Buckets of stages -/

/-- A list is divided by tests of which each element passes one. -/
theorem perm_flatten_filter {κ : Type} {keys : List κ} {test : κ → α → Bool} {items : List α}
    (nodup : keys.Nodup)
    (single : ∀ item ∈ items, ∃ key ∈ keys, ∀ other, test other item ↔ other = key) :
    (keys.map fun key => items.filter (test key)).flatten.Perm items := by
  induction keys generalizing items with
  | nil =>
    cases items with
    | nil => rfl
    | cons item rest =>
      obtain ⟨key, mem, -⟩ := single item (.head _)
      cases mem
  | cons key keys ih =>
    rw [nodup_cons] at nodup
    -- what passes the first test passes none of the others
    have later : (keys.map fun other => items.filter (test other)) =
        keys.map fun other => (items.filter fun item => !test key item).filter (test other) := by
      refine map_congr_left fun other mem => ?_
      rw [filter_filter]
      refine filter_congr fun item has => ?_
      obtain ⟨own, -, passes⟩ := single item has
      by_cases passed : test other item = true
      · have ne : test key item = false := by
          rw [← Bool.not_eq_true, passes]
          rintro rfl
          rw [(passes other).mp passed] at mem
          exact nodup.1 mem
        simp [passed, ne]
      · simp [passed]
    rw [map_cons, flatten_cons, later]
    refine ((Perm.refl _).append (ih nodup.2 fun item has => ?_)).trans
      (filter_append_perm (test key) items)
    obtain ⟨has, other⟩ := mem_filter.mp has
    obtain ⟨own, mem, passes⟩ := single item has
    refine ⟨own, (mem_cons.mp mem).resolve_left ?_, passes⟩
    rintro rfl
    simp [(passes own).mpr rfl] at other

namespace Stage

theorem perm_flatMap_blocks (stages : List Stage) : (stages.flatMap blocks).Perm
    (stages.flatMap reduces ++ stages.flatMap maps) := by
  induction stages with
  | nil => rfl
  | cons stage rest ih =>
    simp only [flatMap_cons, blocks]
    refine (((perm_append_comm).append ih)).trans ?_
    simp only [append_assoc]
    refine (Perm.refl _).append ?_
    rw [← append_assoc, ← append_assoc]
    exact perm_append_comm.append (Perm.refl _)

/-- Kinds and distances in the order of the buckets. -/
def bucketKeys (count : Nat) : List (Bool × Nat) :=
  [false, true].flatMap fun kind => (range count).map fun distance => (kind, distance)

theorem nodup_bucketKeys (count : Nat) : (bucketKeys count).Nodup := by
  simp only [bucketKeys, flatMap_cons, flatMap_nil, append_nil, nodup_append]
  refine ⟨nodup_range.map fun _ _ eq => (Prod.mk.inj eq).2,
    nodup_range.map fun _ _ eq => (Prod.mk.inj eq).2, ?_⟩
  simp

/-- The stages of one kind and one distance. -/
def bucket (stages : List Stage) (distances : List Nat) (key : Bool × Nat) : List Stage :=
  ((stages.zip distances).filter fun entry =>
    entry.1.hasReduce == key.1 && entry.2 == key.2).map Prod.fst

theorem buckets_eq (stages : List Stage) (distances : List Nat) :
    buckets stages distances = (bucketKeys stages.length).map (bucket stages distances) := by
  simp only [buckets, bucketKeys, bucket, map_flatMap, List.map_map, Function.comp_def]

theorem mem_bucket {key : Bool × Nat}
    (mem : stage ∈ bucket stages distances key) : ∃ place : Nat, stages[place]? = some stage ∧
      distances[place]? = some key.2 ∧ stage.hasReduce = key.1 := by
  obtain ⟨⟨_, away⟩, has, rfl⟩ := mem_map.mp mem
  obtain ⟨has, test⟩ := mem_filter.mp has
  obtain ⟨place, got⟩ := mem_iff_getElem?.mp has
  rw [getElem?_zip_eq_some] at got
  simp only [Bool.and_eq_true, beq_iff_eq] at test
  exact ⟨place, got.1, test.2 ▸ got.2, test.1⟩

/-- The stages of a bucket are of one kind. -/
theorem hasReduce_eq_of_mem_buckets {members : List Stage}
    (has : members ∈ buckets stages distances) :
    ∀ stage ∈ members, ∀ other ∈ members, stage.hasReduce = other.hasReduce := by
  rw [buckets_eq] at has
  obtain ⟨key, -, rfl⟩ := mem_map.mp has
  intro stage mem other mem'
  obtain ⟨-, -, -, kind⟩ := mem_bucket mem
  obtain ⟨-, -, -, kind'⟩ := mem_bucket mem'
  exact kind.trans kind'.symm

/-- Each stage is in the bucket of its kind and distance. -/
private theorem perm_flatten_buckets (length : distances.length = stages.length)
    (short : ∀ distance ∈ distances, distance < stages.length) :
    (buckets stages distances).flatten.Perm stages := by
  let test : Bool × Nat → Stage × Nat → Bool := fun key entry =>
    entry.1.hasReduce == key.1 && entry.2 == key.2
  have divided : (buckets stages distances).flatten = (((bucketKeys stages.length).map fun key =>
        (stages.zip distances).filter (test key)).flatten).map Prod.fst := by
    rw [buckets_eq, map_flatten, List.map_map]
    rfl
  have single : ∀ entry ∈ stages.zip distances, ∃ key ∈ bucketKeys stages.length,
      ∀ other, test other entry = true ↔ other = key := by
    intro entry mem
    have inside := short entry.2 (of_mem_zip mem).2
    refine ⟨(entry.1.hasReduce, entry.2), ?_, fun other => ?_⟩
    · cases entry.1.hasReduce <;> simp [bucketKeys, inside]
    · simp only [test, Bool.and_eq_true, beq_iff_eq, Prod.ext_iff]
      exact and_congr eq_comm eq_comm
  rw [divided]
  have := (perm_flatten_filter (nodup_bucketKeys _) single).map Prod.fst
  rwa [map_fst_zip (Nat.le_of_eq length.symm)] at this

/-- The stages are divided by their distances if these are found. -/
theorem perm_buckets (roster : Roster W (fixed ++ stages.flatMap blocks))
    (run : Stage.dependencies stages W = .ok deps) (run' : deps.distances = .ok distances) :
    (buckets stages distances).flatten.Perm stages := by
  obtain ⟨_, ran, length, feeds⟩ := dependencies_eq_ok roster
  cases run.symm.trans ran
  have bounded := bounded_of_places length feeds
  have acyclic := Dependencies.acyclic_of_distances bounded run'
  obtain ⟨length', longest⟩ := Dependencies.longest_of_distances bounded run'
  refine perm_flatten_buckets (length'.trans length) fun distance mem => ?_
  obtain ⟨stage, got⟩ := mem_iff_getElem?.mp mem
  have inside := (List.getElem?_eq_some_iff.mp got).1
  exact length ▸ (longest stage distance got).1.lt_length bounded acyclic (length' ▸ inside)

end Stage

end Staging
