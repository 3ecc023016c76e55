import Mathlib.Data.List.Pairwise
import Staging.Proofs.Reducing

/-! # Nodes that lie in one region only

Regions may share nodes, and each of them gets copies of its own. A node that runs at most
once lies in one region only, unless a checkpoint may move below it: it leads to no shuffle
before a stage boundary, and spans between stage boundaries that share a node have become
one.
-/

namespace Staging

open Std List ExtTreeSet HandleSet

variable {span : Span} {id shuffle : NodeId} {free : NodeSet} {chart : Chart}

/-- At most one element passes a test that no two elements pass. -/
theorem eq_of_pairwise {α : Type} {items : List α} {test : α → Prop}
    (apart : items.Pairwise fun first second => ¬ (test first ∧ test second)) {first second : α}
    (mem : first ∈ items) (mem' : second ∈ items) (one : test first)
    (two : test second) : first = second := by
  have symmetric : Symm fun first second : α => ¬ (test first ∧ test second) :=
    ⟨fun _ _ apart both => apart both.symm⟩
  by_contra ne
  exact apart.forall mem mem' ne ⟨one, two⟩

namespace Graph

variable {G : Graph}

section Guarded

variable (normal : G.Normal) (has : G.Member id) (guarded : G.isGuarded id)

include normal has guarded

/-- What runs at most once leads to stage boundaries only. -/
theorem Normal.isStageBoundary_of_guarded {next : NodeId} (passes : G.Passes id next) :
    G.isStageBoundary next := by
  cases passes with
  | step prec => exact normal.guarded id next has guarded prec
  | on prec clear _ =>
    have stage := normal.guarded id _ has guarded prec
    rw [isBoundary_iff.mpr (.inl stage)] at clear
    cases clear

/-- What runs at most once is a free node of no span. -/
theorem Normal.mem_of_mem_withFree (clear : ∀ other ∈ span.passings, G.isBoundary other = false)
    (passed : id ∈ (G.withFree free span).passings) : id ∈ span.passings := by
  rcases mem_union_iff.mp passed with own | added
  · exact own
  · obtain ⟨-, start, own, passes⟩ := (mem_passings_backward normal.wf).mp
      (mem_inter_iff.mp added).1
    have stage := normal.isStageBoundary_of_guarded has guarded passes
    have plain := clear start own
    rw [isBoundary_iff.mpr (.inl stage)] at plain
    cases plain

/-- What runs at most once lies between no stage boundary and a shuffle. -/
theorem Normal.not_mem_shuffleSpans (marked : G.isShuffleBoundary shuffle) :
    ∀ span ∈ Span.mergeOverlapping (G.shuffleSpans free shuffle), id ∉ span.passings := by
  have backward : ∀ other, other ∈ (G.walkFrom .backward (.of [shuffle])).passings →
      G.isBoundary other = false ∧ G.Passes other shuffle := by
    intro other passed
    simpa using (mem_passings_backward normal.wf).mp passed
  apply Span.mergeOverlapping_keeps
  · intro first second one two passed
    exact (mem_union_iff.mp passed).elim one two
  · intro span mem passed
    obtain ⟨bare, kept, rfl⟩ := mem_map.mp mem
    obtain ⟨origin, -, rfl⟩ := mem_map.mp (mem_of_mem_filter kept)
    have own := normal.mem_of_mem_withFree has guarded
      (fun other inside => (backward other (mem_inter_iff.mp inside).2).1) passed
    have stage := normal.isStageBoundary_of_guarded has guarded
      (backward id (mem_inter_iff.mp own).2).2
    rw [normal.unmixed shuffle stage] at marked
    cases marked

end Guarded

section Partitioned

variable {members : NodeSet} {W : Wiring} {input out : Chart}
  {reduces maps : List Chart} (parts : G.Partitioned members W input out reduces maps)

include parts

/-- A reduce region holds a shuffle and what this leads to. -/
theorem Partitioned.exists_shuffle (mem : chart ∈ reduces) (inside : id ∈ chart.2.nodes) :
    ∃ shuffle, G.isShuffleBoundary shuffle = true ∧
      (id = shuffle ∨ G.isBoundary id = false ∧ G.Passes shuffle id) := by
  have outlined := mem_map_of_mem (f := Prod.snd) mem
  rw [parts.surveyed.reduces] at outlined
  obtain ⟨span, made, eq⟩ := mem_map.mp outlined
  obtain ⟨shuffle, has, rfl⟩ := mem_map.mp made
  obtain ⟨-, marked⟩ := (mem_filter_iff _).mp (mem_toList.mp has)
  rw [← eq] at inside
  refine ⟨shuffle, marked, ?_⟩
  rcases Span.mem_outline_nodes.mp inside with passed | ⟨-, started⟩
  · exact .inr (by simpa using (mem_passings_forward parts.normal.wf).mp passed)
  · exact .inl (by simpa [walkFrom] using started)

/-- A map region holds what a span between boundaries passes. -/
theorem Partitioned.exists_bridging (mem : chart ∈ maps) (inside : id ∈ chart.2.nodes) :
    ∃ span, G.Bridging span ∧ id ∈ span.passings := by
  have outlined := mem_map_of_mem (f := Prod.snd) mem
  rw [parts.surveyed.maps] at outlined
  obtain ⟨span, made, eq⟩ := mem_map.mp outlined
  rw [← eq] at inside
  rcases Span.mem_outline_nodes.mp inside with passed | ⟨wrong, -⟩
  · exact ⟨span, (bridging_mapSpans parts.normal parts.known span made).1, passed⟩
  · cases wrong

theorem Partitioned.isBoundary_of_mem_map (mem : chart ∈ maps)
    (inside : id ∈ chart.2.nodes) : G.isBoundary id = false := by
  obtain ⟨span, bridging, passed⟩ := parts.exists_bridging mem inside
  exact (bridging.passings id passed).2

/-- Stage boundaries lie in the regions of the inputs and the outputs only. -/
theorem Partitioned.isStageBoundary_eq_false
    (mem : chart ∈ reduces ++ maps) (inside : id ∈ chart.2.nodes) :
    G.isStageBoundary id = false := by
  by_contra stage
  have stage := Bool.eq_true_of_not_eq_false stage
  have bounded : G.isBoundary id = true := isBoundary_iff.mpr (.inl stage)
  rcases mem_append.mp mem with reduce | map
  · obtain ⟨shuffle, marked, rfl | ⟨clear, -⟩⟩ := parts.exists_shuffle reduce inside
    · cases marked.symm.trans (parts.normal.unmixed id stage)
    · cases clear.symm.trans bounded
  · cases (parts.isBoundary_of_mem_map map inside).symm.trans bounded

/-- What lies in the regions of the stages and is no boundary is anchored. -/
theorem Partitioned.anchored (mem : chart ∈ reduces ++ maps) (inside : id ∈ chart.2.nodes)
    (clear : G.isBoundary id = false) : G.Anchored id := by
  rcases mem_append.mp mem with reduce | map
  · obtain ⟨shuffle, marked, own⟩ := parts.exists_shuffle reduce inside
    have bounded : G.isBoundary shuffle = true := isBoundary_iff.mpr (.inr marked)
    rcases own with rfl | ⟨-, led⟩
    · cases clear.symm.trans bounded
    · exact ⟨shuffle, id, bounded, led, clear, .inl rfl⟩
  · obtain ⟨span, bridging, passed⟩ := parts.exists_bridging map inside
    exact bridging.anchored id passed

theorem Partitioned.mem_input_iff : id ∈ input.2.nodes ↔ id ∈ G.root.inputs := by
  rw [parts.surveyed.input, inputOutline, mem_of]

theorem Partitioned.mem_output_iff : id ∈ out.2.nodes ↔ id ∈ G.root.outputs := by
  rw [parts.surveyed.output, outputOutline, mem_of]

theorem Partitioned.pairwise_maps (has : G.Member id) (guarded : G.isGuarded id) :
    maps.Pairwise fun first second => ¬ (id ∈ first.2.nodes ∧ id ∈ second.2.nodes) := by
  have nodes : ∀ span : Span, id ∈ (span.outline G false).nodes ↔ id ∈ span.passings := by
    intro span
    simp [Span.mem_outline_nodes]
  have outlines : (maps.map Prod.snd).Pairwise fun first second =>
      ¬ (id ∈ first.nodes ∧ id ∈ second.nodes) := by
    rw [parts.surveyed.maps, pairwise_map]
    simp only [nodes]
    have shuffled : ∀ span ∈ ((G.boundariesOf members).filter G.isShuffleBoundary).toList
        |>.flatMap fun shuffle =>
          Span.mergeOverlapping (G.shuffleSpans (G.freeNodes members) shuffle),
        id ∉ span.passings := by
      intro span mem
      obtain ⟨shuffle, marked, mem⟩ := mem_flatMap.mp mem
      exact parts.normal.not_mem_shuffleSpans has guarded
        ((mem_filter_iff _).mp (mem_toList.mp marked)).2 span mem
    rw [mapSpans, pairwise_append]
    refine ⟨?_, ?_, ?_⟩
    · apply (Span.pairwise_mergeOverlapping _).imp
      intro first second apart both
      exact apart id both.1 both.2
    · apply pairwise_of_forall_mem_list
      intro first mem _ _ both
      exact shuffled first mem both.1
    · intro _ _ second mem both
      exact shuffled second mem both.2
  exact pairwise_map.mp outlines

variable (solitary : G.isSolitary id)

include solitary

/-- In the region of a shuffle, only the shuffle itself may run at most once. -/
theorem Partitioned.eq_of_mem_reduce
    (mem : shuffle ∈ ((G.boundariesOf members).filter G.isShuffleBoundary).toList)
    (inside : id ∈ ((G.walkFrom .forward (.of [shuffle])).outline G true).nodes) :
    id = shuffle := by
  obtain ⟨boundary, marked⟩ := (mem_filter_iff _).mp (mem_toList.mp mem)
  have has := ((mem_boundariesOf parts.known).mp boundary).1
  rcases Span.mem_outline_nodes.mp inside with passed | ⟨-, started⟩
  · obtain ⟨clear, start, here, passes⟩ := (mem_passings_forward parts.normal.wf).mp passed
    obtain rfl : start = shuffle := by simpa using here
    have calm := parts.normal.calm start id has marked passes
    rw [isSolitary, Option.any_eq_true] at solitary
    obtain ⟨node, got, solitary⟩ := solitary
    simp only [Bool.and_eq_true, Bool.not_eq_true'] at solitary
    rw [isCalm, got, Option.any_some, solitary.2, Bool.or_false] at calm
    rw [isBoundary, got, Option.any_some, Node.isBoundary, calm, Bool.true_or] at clear
    cases clear
  · simpa [walkFrom] using started

theorem Partitioned.not_mem_ends : id ∉ input.2.nodes ∧ id ∉ out.2.nodes := by
  rw [isSolitary, Option.any_eq_true] at solitary
  obtain ⟨node, got, solitary⟩ := solitary
  simp only [Bool.and_eq_true] at solitary
  rw [parts.mem_input_iff, parts.mem_output_iff]
  constructor
  · intro mem
    obtain ⟨node', got', kind, -⟩ := parts.normal.inputs id mem
    cases got.symm.trans got'
    simp [Node.isOperator, kind] at solitary
  · intro mem
    obtain ⟨node', got', kind, -⟩ := parts.normal.outputs id mem
    cases got.symm.trans got'
    simp [Node.isOperator, kind] at solitary

theorem Partitioned.pairwise_reduces :
    reduces.Pairwise fun first second => ¬ (id ∈ first.2.nodes ∧ id ∈ second.2.nodes) := by
  have outlines : (reduces.map Prod.snd).Pairwise fun first second =>
      ¬ (id ∈ first.nodes ∧ id ∈ second.nodes) := by
    rw [parts.surveyed.reduces, reduceSpans, map_map, pairwise_map]
    apply (nodup_toList _).imp_of_mem
    intro first second mem mem' ne both
    apply ne
    rw [← parts.eq_of_mem_reduce solitary mem both.1, ← parts.eq_of_mem_reduce solitary mem' both.2]
  exact pairwise_map.mp outlines

/-- What runs at most once lies in one region only. -/
theorem Partitioned.chart_eq {chart' : Chart} (mem : chart ∈ input :: out :: (reduces ++ maps))
    (mem' : chart' ∈ input :: out :: (reduces ++ maps)) (inside : id ∈ chart.2.nodes)
    (inside' : id ∈ chart'.2.nodes) : chart = chart' := by
  have inner : ∀ {chart : Chart}, chart ∈ input :: out :: (reduces ++ maps) →
      id ∈ chart.2.nodes → chart ∈ reduces ++ maps := by
    intro chart mem inside
    obtain ⟨outside, outside'⟩ := parts.not_mem_ends solitary
    rcases mem_cons.mp mem with rfl | mem
    · exact absurd inside outside
    rcases mem_cons.mp mem with rfl | mem
    · exact absurd inside outside'
    · exact mem
  have has := ((parts.surveyed.chartered parts.normal parts.known).outlined chart mem).member
    parts.normal inside
  have guarded : G.isGuarded id := by
    have plain := parts.isStageBoundary_eq_false (inner mem inside) inside
    rw [isSolitary, Option.any_eq_true] at solitary
    obtain ⟨node, got, solitary⟩ := solitary
    simp only [Bool.and_eq_true] at solitary
    rw [isStageBoundary, got, Option.any_some] at plain
    rw [isGuarded, got, Option.any_some, plain, solitary.1.1, solitary.1.2]
    rfl
  have apart : (reduces ++ maps).Pairwise fun first second =>
      ¬ (id ∈ first.2.nodes ∧ id ∈ second.2.nodes) := by
    rw [pairwise_append]
    refine ⟨parts.pairwise_reduces solitary, parts.pairwise_maps has guarded, ?_⟩
    intro reduce here map there both
    -- a shuffle is a boundary, and no region of maps has any
    have outlined := mem_map_of_mem (f := Prod.snd) here
    rw [parts.surveyed.reduces, reduceSpans, map_map] at outlined
    obtain ⟨shuffle, mem, eq⟩ := mem_map.mp outlined
    have inside := both.1
    rw [← eq] at inside
    have clear := parts.isBoundary_of_mem_map there both.2
    rw [parts.eq_of_mem_reduce solitary mem inside] at clear
    obtain ⟨-, marked⟩ := (mem_filter_iff _).mp (mem_toList.mp mem)
    rw [isBoundary_iff.mpr (.inr marked)] at clear
    cases clear
  exact eq_of_pairwise apart (inner mem inside) (inner mem' inside') inside inside'

end Partitioned

end Graph

end Staging
