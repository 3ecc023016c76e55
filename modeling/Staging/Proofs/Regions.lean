import Staging.Proofs.Cutting
import Staging.Proofs.Overlaps

/-! # The regions of a normal graph

Every walk that starts at a boundary of a normal graph lies in one of its
regions up to the next boundary: behind a shuffle in the reduce region, and
behind a stage boundary in a map region that is chosen by where the walk leads.
Data enters and leaves regions only at boundaries.
-/

namespace Staging

open Std List ExtTreeSet HandleSet

variable {origin shuffle : NodeId} {ids : List NodeId} {out : OutputId} {input : InputId}
  {id : NodeId} {span : Span}

namespace Graph

variable {G : Graph}

/-- A boundary leads to the node or to one that the node leads to, without another boundary
between. -/
def Anchored (graph : Graph) (id : NodeId) : Prop :=
  ∃ first second, graph.isBoundary first = true ∧ graph.Passes first second ∧
    graph.isBoundary second = false ∧ (second = id ∨ graph.Passes id second)

/-- A span of a map region lies between boundaries and passes none. -/
structure Bridging (graph : Graph) (span : Span) : Prop where
  forward : span.direction = .forward
  filled : ∃ id, id ∈ span.passings
  startings : ∀ id ∈ span.startings, graph.Member id ∧ graph.isStageBoundary id = true
  passings : ∀ id ∈ span.passings, graph.Member id ∧ graph.isBoundary id = false
  arrivals : ∀ id ∈ span.arrivals, graph.Member id ∧ graph.isBoundary id = true
  anchored : ∀ id ∈ span.passings, graph.Anchored id

theorem Bridging.join {first second : Span} (one : G.Bridging first)
    (two : G.Bridging second) : G.Bridging (first.join second) where
  forward := one.forward
  filled := by
    obtain ⟨id, mem⟩ := one.filled
    exact ⟨id, mem_union_iff.mpr (.inl mem)⟩
  startings id mem := (mem_union_iff.mp mem).elim (one.startings id) (two.startings id)
  passings id mem := (mem_union_iff.mp mem).elim (one.passings id) (two.passings id)
  arrivals id mem := (mem_union_iff.mp mem).elim (one.arrivals id) (two.arrivals id)
  anchored id mem := (mem_union_iff.mp mem).elim (one.anchored id) (two.anchored id)

/-- A span of a map region arrives at stage boundaries only, or at one shuffle to
which all of its nodes lead. -/
inductive Aimed (graph : Graph) (span : Span) : Prop where
  | stages : (∀ id ∈ span.arrivals, graph.isStageBoundary id = true) → graph.Aimed span
  | shuffle {shuffle : NodeId} : graph.Member shuffle → graph.isShuffleBoundary shuffle = true →
      (∀ id ∈ span.arrivals, id = shuffle) → (∀ id ∈ span.passings, graph.Passes id shuffle) →
      graph.Aimed span

/-! ## Spans behind a boundary -/

/-- The spans behind a boundary before spans are united: all walks behind a
shuffle, the walks from a stage boundary to others, and those to a shuffle. -/
inductive Base (graph : Graph) (origin : NodeId) : Span → Prop where
  | shuffle : graph.isShuffleBoundary origin = true →
      graph.Base origin (graph.walkFrom .forward (.of [origin]))
  | stage : graph.isStageBoundary origin = true → graph.Base origin (graph.stageSpan origin)
  | bridge {shuffle : NodeId} : graph.isStageBoundary origin = true →
      graph.isShuffleBoundary shuffle = true →
      graph.Base origin ((graph.walkFrom .forward (.of [origin])).meet
        (graph.walkFrom .backward (.of [shuffle])))

section Base

variable (wf : G.Consistent)

include wf

private theorem mem_ahead_passings : id ∈ (G.walkFrom .forward (.of [origin])).passings ↔
    G.isBoundary id = false ∧ G.Passes origin id := by
  simp [mem_passings_forward wf]

private theorem mem_ahead_arrivals : id ∈ (G.walkFrom .forward (.of [origin])).arrivals ↔
    G.isBoundary id ∧ G.Passes origin id := by
  simp [mem_arrivals_forward wf]

/-- Nothing leads from the node to a boundary. -/
private def Stranded (graph : Graph) (id : NodeId) : Prop :=
  ∀ boundary, graph.isBoundary boundary = true → ¬ graph.Passes id boundary

/-- The span behind a stage boundary passes what leads to a stage boundary and
what leads to a node that leads to no boundary. -/
theorem mem_stageSpan_passings : id ∈ (G.stageSpan origin).passings ↔
    (G.isBoundary id = false ∧ G.Passes origin id) ∧
      ((∃ stage, G.isStageBoundary stage ∧ G.Passes id stage) ∨
        ∃ last, G.isBoundary last = false ∧ G.Passes origin last ∧
          Stranded G last ∧ (id = last ∨ G.Passes id last)) := by
  simp only [stageSpan, Span.join, Span.meet, ExtTreeSet.mem_union_iff, ExtTreeSet.mem_inter_iff,
    mem_diff_iff, mem_ahead_passings wf, mem_passings_backward wf,
    mem_filter_iff, mem_ahead_arrivals wf]
  constructor
  · rintro (⟨here, -, stage, ⟨-, marked⟩, passes⟩ |
      ⟨⟨clear, last, ⟨⟨clear', led⟩, apart⟩, passes⟩, here⟩ | ⟨⟨clear, led⟩, apart⟩)
    · exact ⟨here, .inl ⟨stage, marked, passes⟩⟩
    · refine ⟨here, .inr ⟨last, clear', led, fun boundary marked beyond => apart ⟨clear', ?_⟩,
        .inr passes⟩⟩
      exact ⟨boundary, ⟨marked, led.append clear' beyond⟩, beyond⟩
    · refine ⟨⟨clear, led⟩, .inr ⟨id, clear, led, fun boundary marked beyond => apart ⟨clear, ?_⟩,
        .inl rfl⟩⟩
      exact ⟨boundary, ⟨marked, led.append clear beyond⟩, beyond⟩
  · rintro ⟨⟨clear, led⟩, ⟨stage, marked, passes⟩ | ⟨last, clear', led', dangles, reached⟩⟩
    · refine .inl ⟨⟨clear, led⟩, clear, stage, ⟨⟨?_, led.append clear passes⟩, marked⟩, passes⟩
      exact isBoundary_iff.mpr (.inl marked)
    · have apart : ¬ (G.isBoundary last = false ∧ ∃ start,
          (G.isBoundary start = true ∧ G.Passes origin start) ∧ G.Passes last start) := by
        rintro ⟨-, boundary, ⟨marked, -⟩, beyond⟩
        exact dangles boundary marked beyond
      rcases reached with rfl | passes
      · exact .inr (.inr ⟨⟨clear', led'⟩, apart⟩)
      · exact .inr (.inl ⟨⟨clear, last, ⟨⟨clear', led'⟩, apart⟩, passes⟩, clear, led⟩)

theorem mem_stageSpan_arrivals : id ∈ (G.stageSpan origin).arrivals ↔
    G.isStageBoundary id ∧ G.Passes origin id := by
  simp only [stageSpan, Span.join, Span.meet, walkFrom, ExtTreeSet.mem_union_iff,
    not_mem_empty, or_false]
  change id ∈ (G.walkFrom .forward (.of [origin])).arrivals ∩
    (G.walkFrom .forward (.of [origin])).arrivals.filter G.isStageBoundary ↔ _
  simp only [ExtTreeSet.mem_inter_iff, mem_filter_iff, mem_ahead_arrivals wf, isBoundary_iff]
  tauto

omit wf in
theorem mem_stageSpan_startings : id ∈ (G.stageSpan origin).startings ↔ id = origin := by
  simp only [stageSpan, Span.join, Span.meet, ExtTreeSet.mem_union_iff, ExtTreeSet.mem_inter_iff,
    mem_of, mem_singleton]
  constructor
  · rintro (⟨here, -⟩ | here)
    · simpa [walkFrom] using here
    · exact here
  · exact .inr

/-- A span behind a boundary passes only nodes that walks from it pass. -/
theorem Base.passes (base : G.Base origin span) (mem : id ∈ span.passings) :
    G.isBoundary id = false ∧ G.Passes origin id := by
  cases base with
  | shuffle => exact (mem_ahead_passings wf).mp mem
  | stage => exact ((mem_stageSpan_passings wf).mp mem).1
  | bridge =>
    exact (mem_ahead_passings wf).mp (mem_inter_iff.mp mem).1

/-- What leads to a node of a span from its boundary belongs to the span. -/
theorem Base.back (base : G.Base origin span) {first second : NodeId}
    (has : second ∈ span.passings) (clear : G.isBoundary first = false)
    (led : G.Passes origin first) (prec : G.Precedes first second) :
    first ∈ span.passings := by
  have open' := (base.passes wf has).1
  cases base with
  | shuffle => exact (mem_ahead_passings wf).mpr ⟨clear, led⟩
  | stage =>
    obtain ⟨-, ⟨stage, marked, passes⟩ | ⟨last, clear', led', dangles, reached⟩⟩ :=
      (mem_stageSpan_passings wf).mp has
    · exact (mem_stageSpan_passings wf).mpr
        ⟨⟨clear, led⟩, .inl ⟨stage, marked, .on prec open' passes⟩⟩
    · refine (mem_stageSpan_passings wf).mpr
        ⟨⟨clear, led⟩, .inr ⟨last, clear', led', dangles, .inr ?_⟩⟩
      rcases reached with rfl | passes
      · exact .step prec
      · exact .on prec open' passes
  | bridge _ marked =>
    obtain ⟨-, beyond⟩ := mem_inter_iff.mp has
    obtain ⟨-, shuffle, mem, passes⟩ := (mem_passings_backward wf).mp beyond
    refine mem_inter_iff.mpr ⟨(mem_ahead_passings wf).mpr ⟨clear, led⟩, ?_⟩
    exact (mem_passings_backward wf).mpr ⟨clear, shuffle, mem, .on prec open' passes⟩

/-- Where a walk from a boundary arrives at another, some span has both. -/
theorem exists_base_of_precedes (marked : G.isBoundary origin) {next : NodeId}
    (clear : G.isBoundary id = false) (led : G.Passes origin id)
    (prec : G.Precedes id next) (arrived : G.isBoundary next) :
    ∃ span, G.Base origin span ∧ id ∈ span.passings ∧ next ∈ span.arrivals := by
  have passes := led.append clear (.step prec)
  rcases isBoundary_iff.mp marked with stage | shuffle
  · rcases isBoundary_iff.mp arrived with stage' | shuffle'
    · refine ⟨_, .stage stage, (mem_stageSpan_passings wf).mpr ⟨⟨clear, led⟩, .inl ?_⟩,
        (mem_stageSpan_arrivals wf).mpr ⟨stage', passes⟩⟩
      exact ⟨next, stage', .step prec⟩
    · refine ⟨_, .bridge stage shuffle', mem_inter_iff.mpr
        ⟨(mem_ahead_passings wf).mpr ⟨clear, led⟩, ?_⟩, mem_inter_iff.mpr
        ⟨(mem_ahead_arrivals wf).mpr ⟨arrived, passes⟩, by simp [walkFrom]⟩⟩
      exact (mem_passings_backward wf).mpr ⟨clear, next, by simp, .step prec⟩
  · exact ⟨_, .shuffle shuffle, (mem_ahead_passings wf).mpr ⟨clear, led⟩,
      (mem_ahead_arrivals wf).mpr ⟨arrived, passes⟩⟩

/-- Each node that walks from a boundary pass is in some span. -/
theorem exists_base_of_passes (marked : G.isBoundary origin)
    (clear : G.isBoundary id = false) (led : G.Passes origin id) :
    ∃ span, G.Base origin span ∧ id ∈ span.passings := by
  rcases isBoundary_iff.mp marked with stage | shuffle
  · by_cases stranded : Stranded G id
    · exact ⟨_, .stage stage, (mem_stageSpan_passings wf).mpr
        ⟨⟨clear, led⟩, .inr ⟨id, clear, led, stranded, .inl rfl⟩⟩⟩
    · obtain ⟨boundary, marked', passes⟩ : ∃ boundary, G.isBoundary boundary = true ∧
          G.Passes id boundary := by
        simpa [Stranded] using stranded
      rcases isBoundary_iff.mp marked' with stage' | shuffle'
      · exact ⟨_, .stage stage, (mem_stageSpan_passings wf).mpr
          ⟨⟨clear, led⟩, .inl ⟨boundary, stage', passes⟩⟩⟩
      · refine ⟨_, .bridge stage shuffle', mem_inter_iff.mpr
          ⟨(mem_ahead_passings wf).mpr ⟨clear, led⟩, ?_⟩⟩
        exact (mem_passings_backward wf).mpr ⟨clear, boundary, by simp, passes⟩
  · exact ⟨_, .shuffle shuffle, (mem_ahead_passings wf).mpr ⟨clear, led⟩⟩

end Base

/-! ## Outlines -/

/-- The outline of the region of the inputs of the whole graph. -/
def inputOutline (graph : Graph) : Outline :=
  ⟨.of graph.root.inputs, ∅, graph.outgoing graph.root.inputs⟩

/-- The outline of the region of the outputs of the whole graph. -/
def outputOutline (graph : Graph) : Outline :=
  ⟨.of graph.root.outputs, graph.incoming graph.root.outputs, ∅⟩

/-- The outlines that a graph is cut along: those of the reduce regions, of the
map regions, and of the inputs and the outputs of the whole graph. -/
inductive Outlined (graph : Graph) : Outline → Prop where
  | reduce {shuffle : NodeId} : graph.Member shuffle → graph.isShuffleBoundary shuffle = true →
      graph.Outlined ((graph.walkFrom .forward (.of [shuffle])).outline graph true)
  | map {span : Span} : graph.Bridging span → graph.Aimed span →
      graph.Outlined (span.outline graph false)
  | input : graph.Outlined graph.inputOutline
  | output : graph.Outlined graph.outputOutline

/-- The region of the outline holds a span behind a boundary: its nodes, the ports to its
arrivals and, behind a stage boundary, the ports at which it is entered. -/
structure Holds (graph : Graph) (outline : Outline) (origin : NodeId) (span : Span) : Prop where
  nodes : ∀ id ∈ span.passings, id ∈ outline.nodes
  leaves : ∀ output input id, id ∈ span.passings → graph.outputOwner? output = some id →
    graph.Feeds output input →
    (∃ arrival ∈ span.arrivals, graph.inputOwner? input = some arrival) →
      outline.Leaves output input
  enters : graph.isStageBoundary origin = true → ∀ output input id, id ∈ span.passings →
    graph.outputOwner? output = some origin → graph.Feeds output input →
    graph.inputOwner? input = some id → input ∈ outline.inputs

theorem holds_of_within (wf : G.Consistent) {inner outer : Span}
    (within : inner.Within outer) (started : origin ∈ inner.startings) :
    G.Holds (outer.outline G false) origin inner where
  nodes id has := Span.mem_outline_nodes.mpr (.inl (within.passings id has))
  leaves out input id has owned feeds arrived := by
    obtain ⟨arrival, mem, taken⟩ := arrived
    exact (Span.leaves_outline wf).mpr ⟨feeds,
      ⟨id, Span.mem_outline_nodes.mpr (.inl (within.passings id has)), owned⟩,
      arrival, within.arrivals arrival mem, taken⟩
  enters _ out input id has owned feeds taken := (Span.mem_outline_inputs_behind wf).mpr
      ⟨⟨id, within.passings id has, taken⟩, origin, within.startings origin started, out,
        owned, feeds⟩

section Spans

variable (normal : G.Normal) {members : NodeSet} (known : ∀ id, id ∈ members ↔ G.Member id)

include known in
theorem mem_boundariesOf : id ∈ G.boundariesOf members ↔ G.Member id ∧ G.isBoundary id := by
  rw [boundariesOf, mem_filter_iff, known]

include known in
private theorem free_clear (free : id ∈ G.freeNodes members) :
    G.Member id ∧ G.isBoundary id = false := by
  simp only [freeNodes, mem_filter_iff, Bool.and_eq_true, Bool.not_eq_eq_eq_not,
    Bool.not_true, known] at free
  exact ⟨free.1, free.2.1⟩

theorem within_withFree (free : NodeSet) (span : Span) : span.Within (G.withFree free span) :=
  ⟨fun _ => id, fun _ mem => mem_union_iff.mpr (.inl mem), fun _ => id⟩

include known in
private theorem bridging_withFree (wf : G.Consistent) (bridging : G.Bridging span) :
    G.Bridging (G.withFree (G.freeNodes members) span) where
  forward := bridging.forward
  filled := by
    obtain ⟨id, mem⟩ := bridging.filled
    exact ⟨id, (within_withFree _ span).passings id mem⟩
  startings := bridging.startings
  passings id mem := by
    rcases mem_union_iff.mp mem with own | free
    · exact bridging.passings id own
    · exact free_clear known (mem_inter_iff.mp free).2
  arrivals := bridging.arrivals
  anchored id mem := by
    rcases mem_union_iff.mp mem with own | free
    · exact bridging.anchored id own
    · -- a free node leads to a node of the span
      obtain ⟨-, next, own, led⟩ := (mem_passings_backward wf).mp (mem_inter_iff.mp free).1
      obtain ⟨first, second, bounded, passes, clear, rfl | led'⟩ := bridging.anchored next own
      · exact ⟨first, second, bounded, passes, clear, .inr led⟩
      · exact ⟨first, second, bounded, passes, clear,
          .inr (led.append (bridging.passings next own).2 led')⟩

include normal

private theorem bridging_of_base (has : G.Member origin) (base : G.Base origin span)
    (stage : G.isStageBoundary origin) (filled : ∃ id, id ∈ span.passings) :
    G.Bridging span := by
  have wf := normal.wf
  refine ⟨?_, filled, ?_, ?_, ?_, fun id mem => ?_⟩
  · cases base <;> rfl
  · intro id mem
    suffices id = origin by rw [this]; exact ⟨has, stage⟩
    cases base with
    | shuffle => simpa [walkFrom] using mem
    | stage => exact mem_stageSpan_startings.mp mem
    | bridge => simpa [walkFrom] using (mem_inter_iff.mp mem).1
  · intro id mem
    obtain ⟨clear, led⟩ := base.passes wf mem
    exact ⟨has.passes led, clear⟩
  · intro id mem
    suffices G.isBoundary id = true ∧ G.Passes origin id from
      ⟨has.passes this.2, this.1⟩
    cases base with
    | shuffle => exact (mem_ahead_arrivals wf).mp mem
    | stage =>
      obtain ⟨marked, led⟩ := (mem_stageSpan_arrivals wf).mp mem
      exact ⟨isBoundary_iff.mpr (.inl marked), led⟩
    | bridge => exact (mem_ahead_arrivals wf).mp (mem_inter_iff.mp mem).1
  · obtain ⟨clear, led⟩ := base.passes wf mem
    exact ⟨origin, id, isBoundary_iff.mpr (.inl stage), led, clear, .inl rfl⟩

include known

private theorem bridging_stageSpans {origins : NodeSet}
    (stages : ∀ id ∈ origins, G.Member id ∧ G.isStageBoundary id) :
    ∀ span ∈ G.stageSpans (G.freeNodes members) origins, G.Bridging span ∧
      ∀ id ∈ span.arrivals, G.isStageBoundary id := by
  intro span mem
  obtain ⟨plain, kept, rfl⟩ := mem_map.mp mem
  obtain ⟨made, filled⟩ := mem_filter.mp kept
  obtain ⟨origin, has, rfl⟩ := mem_map.mp made
  obtain ⟨inside, stage⟩ := stages origin (mem_toList.mp has)
  exact ⟨bridging_withFree known normal.wf (bridging_of_base normal inside (.stage stage) stage
    ((isEmpty_eq_false_iff _).mp (by simpa using filled))),
    fun id arrived => ((mem_stageSpan_arrivals normal.wf).mp arrived).1⟩

private theorem bridging_shuffleSpans (has : G.Member shuffle)
    (marked : G.isShuffleBoundary shuffle) :
    ∀ span ∈ G.shuffleSpans (G.freeNodes members) shuffle, G.Bridging span ∧
      (∀ id ∈ span.arrivals, id = shuffle) ∧ ∀ id ∈ span.passings, G.Passes id shuffle := by
  intro span mem
  obtain ⟨plain, kept, rfl⟩ := mem_map.mp mem
  obtain ⟨made, filled⟩ := mem_filter.mp kept
  obtain ⟨origin, arrived, rfl⟩ := mem_map.mp made
  obtain ⟨arrived, stage⟩ := mem_filter.mp arrived
  obtain ⟨-, last, eq, passes⟩ := (mem_arrivals_backward normal.wf).mp (mem_toList.mp arrived)
  rw [mem_of, mem_singleton] at eq
  subst eq
  refine ⟨bridging_withFree known normal.wf (bridging_of_base normal (has.passesBack passes)
    (.bridge stage marked) stage
    ((isEmpty_eq_false_iff _).mp (by simpa using filled))), ?_, ?_⟩
  · intro id arrived
    simpa [walkFrom] using (mem_inter_iff.mp arrived).2
  · have leads : ∀ id ∈ ((G.walkFrom .forward (.of [origin])).meet
        (G.walkFrom .backward (.of [last]))).passings,
        G.isBoundary id = false ∧ G.Passes id last := by
      intro id inside
      obtain ⟨clear, end', eq, passes⟩ :=
        (mem_passings_backward normal.wf).mp (mem_inter_iff.mp inside).2
      rw [mem_of, mem_singleton] at eq
      exact eq ▸ ⟨clear, passes⟩
    intro id inside
    rcases mem_union_iff.mp inside with own | free
    · exact (leads id own).2
    · obtain ⟨-, inner, own, passes⟩ :=
        (mem_passings_backward normal.wf).mp (mem_inter_iff.mp free).1
      exact passes.append (leads inner own).1 (leads inner own).2

/-- The spans of map regions lie between boundaries. -/
theorem bridging_mapSpans : ∀ span ∈ G.mapSpans members, G.Bridging span ∧ G.Aimed span := by
  intro span mem
  rcases mem_append.mp mem with plain | shuffled
  · obtain ⟨bridging, stages⟩ := @Span.mergeOverlapping_keeps (fun span => G.Bridging span ∧
        ∀ id ∈ span.arrivals, G.isStageBoundary id = true)
      (fun first second one two => ⟨one.1.join two.1, fun id arrived =>
        (mem_union_iff.mp arrived).elim (one.2 id) (two.2 id)⟩) _
      (bridging_stageSpans normal known fun id has => by
        obtain ⟨bounded, unshuffled⟩ := (mem_filter_iff _).mp has
        obtain ⟨inside, marked⟩ := (mem_boundariesOf known).mp bounded
        exact ⟨inside, (isBoundary_iff.mp marked).resolve_right (by simpa using unshuffled)⟩)
      span plain
    exact ⟨bridging, .stages stages⟩
  · obtain ⟨shuffle, has, merged⟩ := mem_flatMap.mp shuffled
    obtain ⟨bounded, marked⟩ := (mem_filter_iff _).mp (mem_toList.mp has)
    obtain ⟨inside, -⟩ := (mem_boundariesOf known).mp bounded
    obtain ⟨bridging, arrivals, passings⟩ := @Span.mergeOverlapping_keeps
      (fun span => G.Bridging span ∧ (∀ id ∈ span.arrivals, id = shuffle) ∧
        ∀ id ∈ span.passings, G.Passes id shuffle)
      (fun first second one two => ⟨one.1.join two.1,
        fun id arrived => (mem_union_iff.mp arrived).elim (one.2.1 id) (two.2.1 id),
        fun id passed => (mem_union_iff.mp passed).elim (one.2.2 id) (two.2.2 id)⟩) _
      (bridging_shuffleSpans normal known inside marked) span merged
    exact ⟨bridging, .shuffle inside marked arrivals passings⟩

/-- Each span behind a stage boundary is held by a map region. -/
theorem exists_holds_mapSpans (has : G.Member origin) (base : G.Base origin span)
    (stage : G.isStageBoundary origin) (filled : ∃ id, id ∈ span.passings) :
    ∃ outer ∈ G.mapSpans members, G.Holds (outer.outline G false) origin span := by
  have wf := normal.wf
  have unshuffled := normal.unmixed origin stage
  have marked : G.isBoundary origin := isBoundary_iff.mpr (.inl stage)
  have nonempty : (!span.passings.isEmpty) := by
    simpa using (isEmpty_eq_false_iff span.passings).mpr filled
  have spread := @within_withFree G (G.freeNodes members) span
  cases base with
  | shuffle shuffled => rw [unshuffled] at shuffled; cases shuffled
  | stage =>
    have origins : origin ∈ (G.boundariesOf members).filter fun id => !G.isShuffleBoundary id :=
      (mem_filter_iff _).mpr ⟨(mem_boundariesOf known).mpr ⟨has, marked⟩, by simpa using unshuffled⟩
    have mem : G.withFree (G.freeNodes members) (G.stageSpan origin) ∈
        G.stageSpans (G.freeNodes members) _ :=
      mem_map.mpr ⟨_, mem_filter.mpr
        ⟨mem_map.mpr ⟨origin, mem_toList.mpr origins, rfl⟩, nonempty⟩, rfl⟩
    obtain ⟨outer, merged, within⟩ := Span.exists_within_mergeOverlapping mem
    exact ⟨outer, mem_append_left _ merged,
      holds_of_within wf (spread.trans within) (mem_stageSpan_startings.mpr rfl)⟩
  | @bridge shuffle _ shuffled =>
    obtain ⟨id, inside⟩ := filled
    obtain ⟨ahead, beyond⟩ := mem_inter_iff.mp inside
    obtain ⟨clear, led⟩ := (mem_ahead_passings wf).mp ahead
    obtain ⟨-, last, eq, passes⟩ := (mem_passings_backward wf).mp beyond
    rw [mem_of, mem_singleton] at eq
    subst eq
    have through := led.append clear passes
    have arrived : origin ∈ (G.walkFrom .backward (.of [last])).arrivals :=
      (mem_arrivals_backward wf).mpr ⟨marked, last, by simp, through⟩
    have mem : G.withFree (G.freeNodes members)
        ((G.walkFrom .forward (.of [origin])).meet (G.walkFrom .backward (.of [last]))) ∈
        G.shuffleSpans (G.freeNodes members) last :=
      mem_map.mpr ⟨_, mem_filter.mpr ⟨mem_map.mpr ⟨origin, mem_filter.mpr
        ⟨mem_toList.mpr arrived, stage⟩, rfl⟩, nonempty⟩, rfl⟩
    obtain ⟨outer, merged, within⟩ := Span.exists_within_mergeOverlapping mem
    refine ⟨outer, mem_append_right _ (mem_flatMap.mpr ⟨last, ?_, merged⟩),
      holds_of_within wf (spread.trans within) (mem_inter_iff.mpr ⟨by simp [walkFrom], arrived⟩)⟩
    refine mem_toList.mpr ((mem_filter_iff _).mpr ⟨?_, shuffled⟩)
    exact (mem_boundariesOf known).mpr ⟨has.passes through, isBoundary_iff.mpr (.inr shuffled)⟩

end Spans

/-! ## The cut of a normal graph -/

/-- The regions of a graph follow the outlines of its spans. -/
structure Surveyed (graph : Graph) (members : NodeSet) (wiring : Wiring)
    (input output : Chart) (reduces maps : List Chart) : Prop where
  charted : Charted wiring (input :: (reduces ++ maps) ++ [output])
  input : input.2 = graph.inputOutline
  output : output.2 = graph.outputOutline
  reduces : reduces.map Prod.snd = (graph.reduceSpans members).map (·.outline graph true)
  maps : maps.map Prod.snd = (graph.mapSpans members).map (·.outline graph false)

theorem getElem?_outgoing (wf : G.Consistent) {targets : InputSet} :
    (G.outgoing ids)[out]? = some targets ↔
      targets = G.targets out ∧ ∃ id ∈ ids, G.outputOwner? out = some id := by
  have keys : out ∈ ((ids.filterMap (G.nodes[·]?)).flatMap fun node =>
      node.outputs.map fun out => (out, G.targets out)).map Prod.fst ↔
        ∃ id ∈ ids, G.outputOwner? out = some id := by
    simp only [map_flatMap, map_map, Function.comp_def, map_id', mem_flatMap,
      mem_filterMap, wf.outputOwner]
    constructor
    · rintro ⟨node, ⟨id, has, got⟩, own⟩
      exact ⟨id, has, node, got, own⟩
    · rintro ⟨id, has, node, got, own⟩
      exact ⟨node, ⟨id, has, got⟩, own⟩
  rw [outgoing, ExtTreeMap.ofList_eq_insertMany_empty,
    HandleMap.getElem?_insertMany_of_determined (f := G.targets)]
  · split
    · next has =>
      rw [Option.some.injEq, and_iff_left (keys.mp has), eq_comm]
    · next absent =>
      constructor
      · intro got
        simp at got
      · exact fun owned => (absent (keys.mpr owned.2)).elim
  · intro entry has
    obtain ⟨node, -, mem⟩ := mem_flatMap.mp has
    obtain ⟨port, -, rfl⟩ := mem_map.mp mem
    rfl

theorem mem_incoming (wf : G.Consistent) :
    input ∈ G.incoming ids ↔ ∃ id ∈ ids, G.inputOwner? input = some id := by
  simp only [incoming, mem_of, mem_flatMap, mem_filterMap, wf.inputOwner]
  constructor
  · rintro ⟨node, ⟨id, mem, got⟩, own⟩
    exact ⟨id, mem, node, got, own⟩
  · rintro ⟨id, mem, node, got, own⟩
    exact ⟨node, ⟨id, mem, got⟩, own⟩

theorem leaves_inputOutline (wf : G.Consistent) : G.inputOutline.Leaves out input ↔
    G.Feeds out input ∧ ∃ id ∈ G.root.inputs, G.outputOwner? out = some id := by
  simp only [Outline.Leaves, inputOutline, getElem?_outgoing wf]
  constructor
  · rintro ⟨targets, ⟨rfl, own⟩, feeds⟩
    exact ⟨feeds, own⟩
  · rintro ⟨feeds, own⟩
    exact ⟨_, ⟨rfl, own⟩, feeds⟩

section Cut

variable (normal : G.Normal)

include normal

private theorem cuttable_reduce (has : G.Member shuffle) (marked : G.isShuffleBoundary shuffle) :
    (G.walkFrom .forward (.of [shuffle])).Cuttable G true where
  forward := rfl
  filled := .inl rfl
  startings id mem := by
    have eq : id = shuffle := by simpa [walkFrom] using mem
    exact eq ▸ normal.exists_node has
  arrivals id mem := by
    obtain ⟨-, led⟩ := (mem_ahead_arrivals normal.wf).mp mem
    exact normal.exists_node (has.passes led)
  uniform := by
    have owner : ∀ port ∈ ((G.walkFrom .forward (.of [shuffle])).outline G true).inputs,
        G.inputOwner? port = some shuffle := by
      intro port mem
      obtain ⟨start, here, owned⟩ := (Span.mem_outline_inputs_within normal.wf).mp mem
      have eq : start = shuffle := by simpa [walkFrom] using here
      exact eq ▸ owned
    refine checkUniform_eq_ok (fun port mem => ⟨shuffle, owner port mem⟩) (.inl ?_)
    intro port mem other owned
    rw [owner port mem] at owned
    cases owned
    exact marked

private theorem cuttable_map (bridging : G.Bridging span) : span.Cuttable G false where
  forward := bridging.forward
  filled := .inr bridging.filled
  startings id mem := normal.exists_node (bridging.startings id mem).1
  arrivals id mem := normal.exists_node (bridging.arrivals id mem).1
  uniform := by
    refine checkUniform_eq_ok (fun port mem => ?_) (.inr fun port mem other owned => ?_)
    · obtain ⟨⟨owner, -, owned⟩, -⟩ := (Span.mem_outline_inputs_behind normal.wf).mp mem
      exact ⟨owner, owned⟩
    · obtain ⟨⟨owner, inside, owned'⟩, -⟩ := (Span.mem_outline_inputs_behind normal.wf).mp mem
      rw [owned] at owned'
      cases owned'
      have clear := (bridging.passings other inside).2
      rw [← Bool.not_eq_true, isBoundary_iff, not_or] at clear
      simpa using clear.2

private theorem uniform_outputs : Region.checkUniform G G.outputOutline.inputs = .ok () := by
  have owner : ∀ port ∈ G.outputOutline.inputs, ∃ id ∈ G.root.outputs,
      G.inputOwner? port = some id := fun port => (mem_incoming normal.wf).mp
  refine checkUniform_eq_ok (fun port mem => ?_) (.inr fun port mem other owned => ?_)
  · obtain ⟨id, -, owned⟩ := owner port mem
    exact ⟨id, owned⟩
  · obtain ⟨id, root, owned'⟩ := owner port mem
    rw [owned] at owned'
    cases owned'
    obtain ⟨node, got, -, plain, -⟩ := normal.outputs other root
    simp [Graph.isShuffleBoundary, got, Node.isShuffleBoundary, plain]

/-- A normal graph is cut along the outlines of its spans. -/
theorem cut_eq_ok : ∃ members W input out reduces maps, G.rootMembers = .ok members ∧
    (∀ id, id ∈ members ↔ G.Member id) ∧
    G.cut = .ok (⟨input.1, out.1, reduces.map Prod.fst, maps.map Prod.fst⟩, W) ∧
    G.Surveyed members W input out reduces maps := by
  obtain ⟨members, mem, known⟩ := normal.rootMembers_eq_ok
  have cuttable : ∀ span ∈ G.reduceSpans members, span.Cuttable G true := by
    intro span mem
    obtain ⟨shuffle, has, rfl⟩ := mem_map.mp mem
    obtain ⟨bounded, marked⟩ := (mem_filter_iff _).mp (mem_toList.mp has)
    exact cuttable_reduce normal ((mem_boundariesOf known).mp bounded).1 marked
  obtain ⟨reduces, afterReduces, reduced, reduceOutlines, charted⟩ :=
    Span.cutEach_eq_ok cuttable charted_empty
  obtain ⟨maps, afterMaps, mapped, mapOutlines, charted⟩ := Span.cutEach_eq_ok (fun span mem =>
      cuttable_map normal (bridging_mapSpans normal known span mem).1) charted
  obtain ⟨input, afterInput, madeInput, -⟩ :=
    @Region.ofPorts_eq_ok ⟨G, afterMaps⟩ charted.wf G.inputOutline
      (checkUniform_eq_ok (by simp [inputOutline]) (by simp [inputOutline]))
  have charted := charted.ofPorts madeInput
  obtain ⟨out, W, madeOutput, -⟩ := @Region.ofPorts_eq_ok ⟨G, afterInput⟩ charted.wf G.outputOutline
      (uniform_outputs normal)
  have charted := charted.ofPorts madeOutput
  refine ⟨members, W, (input, G.inputOutline), (out, G.outputOutline),
    reduces, maps, mem, known, ?_, ?_, rfl, rfl, reduceOutlines, mapOutlines⟩
  · rw [Graph.cut]
    refine (bind_of_ok mem).trans ((bind_of_ok reduced).trans ((bind_of_ok mapped).trans ?_))
    exact (bind_of_ok madeInput).trans (bind_of_ok madeOutput)
  · refine charted.perm ?_
    simp only [nil_append, append_assoc, cons_append]
    rw [← append_assoc, ← append_assoc]
    exact perm_middle

end Cut

end Graph

end Staging
