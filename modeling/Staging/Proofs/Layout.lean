import Staging.Proofs.Moving

/-! # The layout of a normal graph

The blocks that a normal graph is cut into are arranged. They carry what the
graph carries, with its leaks, and steps in blocks keep this.
-/

namespace Staging

open Std Relation List HandleSet

variable {G source : Graph} {origins : Origins} {place : Places}

/-- What a site carries, the source carries or leaks through silent nodes, and
what the source shows with its leaks, the site shows. -/
structure Conveys (source : Graph) (origins : Origins) (site : Site) : Prop where
  faithful : Faithful site.graph source origins
  sound : ∀ output input, site.Carries output input →
    source.leakingFlow.Reaches (origins.output output) (origins.input input)
  complete : ∀ trace, source.leakingFlow.Traces (· ∈ source.root.inputs) source.Observed trace →
    site.Shows source origins trace

/-- Steps in blocks keep what is conveyed. -/
theorem Moves.conveys {free within : BlockId → Prop} {pre post : Site}
    (moves : Moves origins place free within pre post) (normal : source.Normal)
    (wf : pre.graph.Consistent) (conveys : Conveys source origins pre) :
    Conveys source origins post := by
  refine moves.keeps (Conveys source origins) ?_ wf conveys
  intro block pre post _ move wf wf' conveys
  exact ⟨move.faithful conveys.faithful, fun out input => move.reaches conveys.faithful
    conveys.sound, fun trace traced => move.shows normal conveys.faithful wf wf'
    (conveys.complete trace traced)⟩

/-- A site that carries the same through the same nodes conveys the same. -/
theorem Conveys.congr {pre post : Wiring} (conveys : Conveys source origins ⟨G, pre⟩)
    (joins : ∀ out input, post.Joins out input ↔ pre.Joins out input) :
    Conveys source origins ⟨G, post⟩ := by
  have eq : Site.Carries ⟨G, post⟩ = Site.Carries ⟨G, pre⟩ := by
    funext out input
    rw [Site.Carries, Site.Carries, joins]
  refine ⟨conveys.faithful, ?_, fun trace traced => ?_⟩
  · rw [eq]
    exact conveys.sound
  · rw [Site.Shows, Site.flow, eq]
    exact conveys.complete trace traced

namespace Graph

theorem Observed.stops {id : NodeId} (observed : G.Observed id) :
    G.isStageBoundary id = false ∨ id ∈ G.root.outputs := by
  rcases observed with root | ⟨node, got, -, -, unstaged⟩
  · exact .inr root
  · exact .inl (by rw [isStageBoundary, got, Option.any_some, unstaged])

/-- Inside of a region nothing leads from a node that is no boundary to a boundary. -/
theorem Outlined.isBoundary_eq_false {outline : Outline} (normal : G.Normal)
    (outlined : G.Outlined outline) {first second : NodeId} (inside : first ∈ outline.nodes)
    (inside' : second ∈ outline.nodes) (clear : G.isBoundary first = false)
    (prec : G.Precedes first second) : G.isBoundary second = false := by
  cases outlined with
  | @reduce shuffle mem marked =>
    rcases Span.mem_outline_nodes.mp inside' with passed | ⟨-, started⟩
    · exact ((mem_passings_forward normal.wf).mp passed).1
    · -- otherwise the shuffle would lead to itself without a stage boundary between
      obtain rfl : second = shuffle := by simpa [walkFrom] using started
      rcases Span.mem_outline_nodes.mp inside with passed | ⟨-, started'⟩
      · obtain ⟨-, start, eq, passes⟩ := (mem_passings_forward normal.wf).mp passed
        rw [mem_of, mem_singleton] at eq
        subst eq
        have settled := normal.settled start start mem marked (passes.append clear (.step prec))
        rw [marked] at settled
        cases settled
      · obtain rfl : first = second := by simpa [walkFrom] using started'
        rw [isBoundary_iff.mpr (.inr marked)] at clear
        cases clear
  | map bridging =>
    rcases Span.mem_outline_nodes.mp inside' with passed | ⟨wrong, -⟩
    · exact (bridging.passings second passed).2
    · cases wrong
  | input =>
    have stage := normal.isStageBoundary_input (mem_of.mp inside)
    rw [isBoundary_iff.mpr (.inl stage)] at clear
    cases clear
  | output =>
    rw [normal.isBoundary_output (mem_of.mp inside)] at clear
    cases clear

end Graph

section Layout

variable {members : NodeSet} {W : Wiring} {input out : Chart}
  {reduces maps : List Chart} (normal : G.Normal) (known : ∀ id, id ∈ members ↔ G.Member id)
  (surveyed : G.Surveyed members W input out reduces maps)

/-- The block is the one of a shuffle. -/
def reducing (reduces : List Chart) (block : BlockId) : Bool :=
  reduces.any fun chart => chart.1.id == block

include normal known surveyed in
/-- Data enters the regions of shuffles at shuffles, and other regions elsewhere. -/
theorem Graph.Surveyed.isShuffleBoundary_entered
    (nodup : ((input :: out :: (reduces ++ maps)).map fun chart => chart.1.id).Nodup)
    {chart : Chart} (mem : chart ∈ input :: out :: (reduces ++ maps))
    {port : InputId} (entered : port ∈ chart.2.inputs) {owner : NodeId}
    (owned : G.inputOwner? port = some owner) :
    G.isShuffleBoundary owner = reducing reduces chart.1.id := by
  have wf := normal.wf
  by_cases reduce : chart ∈ reduces
  · have outlined := mem_map_of_mem (f := Prod.snd) reduce
    rw [surveyed.reduces] at outlined
    obtain ⟨span, made, eq⟩ := mem_map.mp outlined
    obtain ⟨shuffle, has, rfl⟩ := mem_map.mp made
    obtain ⟨-, marked⟩ := (mem_filter_iff _).mp (ExtTreeSet.mem_toList.mp has)
    rw [← eq] at entered
    obtain ⟨start, started, owned'⟩ := (Span.mem_outline_inputs_within wf).mp entered
    obtain rfl : start = shuffle := by simpa [walkFrom] using started
    rw [owned] at owned'
    cases owned'
    rw [marked, reducing, eq_comm, any_eq_true]
    exact ⟨chart, reduce, beq_self_eq_true _⟩
  · have other : reducing reduces chart.1.id = false := by
      rw [reducing, any_eq_false]
      intro chart' reduce' eq
      have mem' : chart' ∈ input :: out :: (reduces ++ maps) := by simp [reduce']
      rw [← inj_on_of_nodup_map nodup mem' mem (eq_of_beq eq)] at reduce
      exact reduce reduce'
    rw [other]
    simp only [mem_cons, mem_append] at mem
    rcases mem with rfl | rfl | reduce' | map
    · rw [surveyed.input, inputOutline] at entered
      exact (ExtTreeSet.not_mem_empty entered).elim
    · rw [surveyed.output] at entered
      obtain ⟨id, root, owned'⟩ := (mem_incoming wf).mp entered
      rw [owned] at owned'
      cases owned'
      obtain ⟨node, got, ending, plain, -⟩ := normal.outputs owner root
      refine normal.unmixed owner ?_
      rw [isStageBoundary, got, Option.any_some]
      simp [Node.isStageBoundary, ending]
    · exact (reduce reduce').elim
    · have outlined := mem_map_of_mem (f := Prod.snd) map
      rw [surveyed.maps] at outlined
      obtain ⟨span, made, eq⟩ := mem_map.mp outlined
      rw [← eq] at entered
      obtain ⟨⟨owner', passed, owned'⟩, -⟩ := (Span.mem_outline_inputs_behind wf).mp entered
      rw [owned] at owned'
      cases owned'
      have clear := ((bridging_mapSpans normal known span made).1.passings owner passed).2
      rw [← Bool.not_eq_true]
      intro shuffle
      rw [isBoundary_iff.mpr (.inr shuffle)] at clear
      cases clear

variable {blocks : List Block} {site : Site}
  (blocked : Blocked G (input :: out :: (reduces ++ maps)) blocks site place origins)

include normal known surveyed blocked

/-- The blocks of a normal graph are arranged. -/
theorem Blocked.arranged : Arranged G origins (reducing reduces) place site blocks := by
  have extracted := blocked.extracted
  have chartered := surveyed.chartered normal known
  have wf := normal.wf
  have covered : ∀ chart ∈ input :: out :: (reduces ++ maps), ∃ block ∈ blocks,
      block.id = chart.1.id := by
    intro chart mem
    have mem := mem_map_of_mem (f := fun chart : Chart => chart.1.id) mem
    rw [← blocked.ids] at mem
    exact mem_map.mp mem
  have inside : ∀ out input first second, site.graph.Feeds out input →
      site.graph.outputOwner? out = some first → site.graph.inputOwner? input = some second →
      place first = place second := fun out input first second feeds owned owned' =>
    ((extracted.feeds out input first second owned owned').mp feeds).1
  have nodup := blocked.ids ▸ blocked.roster.nodup
  refine ⟨blocked.roster, ⟨inside, ?_⟩, extracted.graph, extracted.faithful, ?_,
    extracted.exitPlaced, blocked.fits, ?_⟩
  · intro out input id feeds owned
    obtain ⟨next, owned'⟩ := extracted.graph.exists_inputOwner feeds
    obtain ⟨node, got, -⟩ := extracted.graph.node_of_output owned
    obtain ⟨node', got', -⟩ := extracted.graph.node_of_input owned'
    obtain ⟨chart, mem, placed, has⟩ := extracted.placed id node got
    obtain ⟨chart', mem', placed', has'⟩ := extracted.placed next node' got'
    have together := inside out input id next feeds owned owned'
    obtain rfl := inj_on_of_nodup_map nodup mem mem' (placed.symm.trans (together.trans placed'))
    have outlined := chartered.outlined chart mem
    have prec : G.Precedes (origins.node id) (origins.node next) :=
      ⟨_, _, extracted.faithful.outputOwner extracted.graph wf owned,
        extracted.faithful.inputOwner extracted.graph wf owned',
        ((extracted.feeds out input id next owned owned').mp feeds).2⟩
    rw [← extracted.faithful.isIdentity got, ← Bool.not_eq_true]
    intro identity
    have clear := outlined.isBoundary_eq_false normal has has'
      (Graph.isBoundary_of_isIdentity identity) prec
    rw [normal.identityBefore _ _ (outlined.member normal has) identity prec] at clear
    cases clear
  · intro entry block port wraps
    obtain ⟨owner, owned, placed⟩ := extracted.entryPlaced entry block port wraps
    obtain ⟨chart, mem, rfl, entered⟩ := extracted.entered entry block port wraps
    obtain ⟨node, got, -⟩ := extracted.graph.node_of_input owned
    refine ⟨owner, owned, placed, ?_⟩
    rw [← extracted.faithful.isShuffleBoundary got]
    exact surveyed.isShuffleBoundary_entered normal known nodup mem entered
      (extracted.faithful.inputOwner extracted.graph wf owned)
  · intro id node got
    obtain ⟨chart, mem, placed, -⟩ := extracted.placed id node got
    obtain ⟨block, mem', eq⟩ := covered chart mem
    exact ⟨block, mem', placed.trans eq.symm⟩

/-- The blocks of a normal graph convey what it shows. -/
theorem Blocked.conveys : Conveys G origins site where
  faithful := blocked.extracted.faithful
  sound _ _ := blocked.extracted.reaches normal (surveyed.chartered normal known)
  complete _ := blocked.extracted.traces normal (surveyed.chartered normal known)
    fun _ => Graph.Observed.stops

end Layout

end Staging
