import Staging.Proofs.Layout

/-! # What feeds shuffles

Only the map blocks that are cut out for a shuffle feed its reduce block. What
else they feed are the ports at which the shuffle leaks, and they all feed the
same of these. Steps in blocks that feed no shuffle keep this.
-/

namespace Staging

open Std Relation

variable {G : Graph} {out : OutputId} {input : InputId} {charts : List Chart}
  {place : Places} {origins : Origins} {shuffle : NodeId}

namespace Graph

/-- The outline is that of a map region whose nodes all lead to the shuffle, which
is the only boundary that data leaves it for. -/
structure AimsAt (graph : Graph) (outline : Outline) (shuffle : NodeId) : Prop where
  member : graph.Member shuffle
  marked : graph.isShuffleBoundary shuffle = true
  leaves : ∀ output input, outline.Leaves output input → graph.inputOwner? input = some shuffle
  clear : ∀ id ∈ outline.nodes, graph.isBoundary id = false
  passes : ∀ id ∈ outline.nodes, graph.Passes id shuffle

/-- Data leaves a region for a shuffle only if all of its nodes lead to it. -/
theorem Outlined.aimsAt {outline : Outline} (normal : G.Normal) (outlined : G.Outlined outline)
    (leaves : outline.Leaves out input) (owned : G.inputOwner? input = some shuffle)
    (marked : G.isShuffleBoundary shuffle) : G.AimsAt outline shuffle := by
  have wf := normal.wf
  cases outlined with
  | @reduce other mem marked' =>
    obtain ⟨-, -, arrival, arrived, owned'⟩ := (Span.leaves_outline wf).mp leaves
    rw [owned] at owned'
    cases owned'
    obtain ⟨-, start, eq, passes⟩ := (mem_arrivals_forward wf).mp arrived
    rw [HandleSet.mem_of, List.mem_singleton] at eq
    rw [normal.settled other shuffle mem marked' (eq ▸ passes)] at marked
    cases marked
  | @map span bridging aimed =>
    obtain ⟨-, -, arrival, arrived, owned'⟩ := (Span.leaves_outline wf).mp leaves
    rw [owned] at owned'
    cases owned'
    cases aimed with
    | stages stages =>
      rw [normal.unmixed shuffle (stages shuffle arrived)] at marked
      cases marked
    | shuffle mem _ only passes =>
      obtain rfl := only shuffle arrived
      have passed : ∀ id ∈ (span.outline G false).nodes, id ∈ span.passings :=
        fun id inside => (Span.mem_outline_nodes.mp inside).resolve_right (by simp)
      refine ⟨mem, marked, fun out input leaves => ?_,
        fun id inside => (bridging.passings id (passed id inside)).2,
        fun id inside => passes id (passed id inside)⟩
      · obtain ⟨-, -, arrival, arrived, owned'⟩ := (Span.leaves_outline wf).mp leaves
        exact only arrival arrived ▸ owned'
  | input =>
    obtain ⟨feeds, id, root, given⟩ := (leaves_inputOutline wf).mp leaves
    have clear := normal.hopless id shuffle ⟨id, List.mem_append_left _ root, .refl⟩
      (normal.isStageBoundary_input root) ⟨out, input, given, owned, feeds⟩
    rw [isBoundary_iff.mpr (.inr marked)] at clear
    cases clear
  | output =>
    obtain ⟨targets, got, -⟩ := leaves
    simp [outputOutline] at got

end Graph

/-- The block was cut out for the shuffle. -/
def Aims (graph : Graph) (charts : List Chart) (block : BlockId) (shuffle : NodeId) :
    Prop :=
  ∃ chart ∈ charts, chart.1.id = block ∧ graph.AimsAt chart.2 shuffle

/-- Shuffles are linked with the blocks that were cut out for them, and not with free blocks.
All else that these are linked with are ports at which the shuffle leaks, and each is linked
with them all. -/
structure Routed (source : Graph) (charts : List Chart) (origins : Origins)
    (place : Places) (free : BlockId → Prop) (feeds : BlockId → BlockId → Prop)
    (site : Site) : Prop where
  faithful : Faithful site.graph source origins
  ended : site.Ended
  spares : ∀ first second start target port, free first →
    site.Links origins place first second start target port →
    source.isShuffleBoundary target = false
  into : ∀ first second start target port, site.Links origins place first second start target port →
    source.isShuffleBoundary target = true → Aims source charts first target ∧ feeds first second
  outOf : ∀ first second start target port shuffle,
    site.Links origins place first second start target port → Aims source charts first shuffle →
    target = shuffle ∨ source.Opens port ∧ source.Precedes shuffle target
  shared : ∀ output output' input input' id id' other shuffle,
    site.graph.outputOwner? output = some id → site.graph.outputOwner? output' = some id' →
    site.graph.inputOwner? input = some other → origins.node other ≠ shuffle →
    Aims source charts (place id) shuffle → Aims source charts (place id') shuffle →
    site.wiring.Joins output input → site.wiring.Joins output' input' →
    site.wiring.Joins output' input

section Extracted

variable {site : Site} (normal : G.Normal)
  (chartered : G.Chartered charts) (extracted : Extracted G charts site place origins)

include extracted in
theorem Extracted.ended : site.Ended := by
  intro out input joins
  obtain ⟨exit, entry, block, block', left, entered, -⟩ := joins
  obtain ⟨owner, owned, -⟩ := extracted.exitPlaced exit block out left
  obtain ⟨owner', owned', -⟩ := extracted.entryPlaced entry block' input entered
  exact ⟨⟨owner, owned⟩, owner', owned'⟩

include normal chartered extracted

/-- How a port is joined with a block that was cut out for a shuffle. -/
private theorem Extracted.joins_of_aims {id id' : NodeId}
    (owned : site.graph.outputOwner? out = some id)
    (owned' : site.graph.inputOwner? input = some id') (joins : site.wiring.Joins out input)
    (aims : Aims G charts (place id) shuffle) :
    ∃ chart ∈ charts, place id = chart.1.id ∧ ∃ chart' ∈ charts, place id' = chart'.1.id ∧
      origins.input input ∈ chart'.2.inputs ∧ ∃ got,
      chart.2.Leaves (origins.output out) got ∧
      G.Feeds (origins.output out) got ∧ G.inputOwner? got = some shuffle ∧
      (origins.node id' = shuffle ∨ G.Opens (origins.input input) ∧
        G.Precedes shuffle (origins.node id') ∧
        ∀ port, G.inputOwner? port = some shuffle →
          LooksThrough G charts (origins.input input) port) := by
  obtain ⟨two, got', -⟩ := extracted.graph.node_of_input owned'
  obtain ⟨chart, mem, placed, aimed⟩ := aims
  obtain ⟨chart', mem', placed', -⟩ := extracted.placed id' two got'
  obtain ⟨entered, got, leaves, feeds, looked⟩ := (extracted.joins chart mem chart' mem'
    out input id id' owned placed.symm owned' placed').mp joins
  have arrived := aimed.leaves _ _ leaves
  refine ⟨chart, mem, placed.symm, chart', mem', placed', entered, got, leaves, feeds, arrived, ?_⟩
  have original := extracted.faithful.inputOwner extracted.graph normal.wf owned'
  rcases looked.cases_head with eq | ⟨second, looks, looked⟩
  · rw [eq, arrived] at original
    exact .inl (Option.some.inj original).symm
  · obtain ⟨owner, taken, has, bounded | opens⟩ := chartered.member_entered normal mem' entered
    · exact (chartered.not_looksThrough normal taken has bounded looks).elim
    · rw [original] at taken
      cases taken
      obtain ⟨left, boundary, fed, unwrapped, given, marked, taken⟩ := looks
      have prec : G.Precedes boundary (origins.node id') := ⟨left, _, given, original, fed⟩
      rcases looked.cases_head with rfl | ⟨third, looks', -⟩
      · rw [arrived] at taken
        cases taken
        exact .inr ⟨opens, prec, fun port taken =>
          ⟨left, shuffle, fed, unwrapped, given, marked, taken⟩⟩
      · exact (chartered.not_looksThrough normal taken (has.prev prec) marked looks').elim

/-- The blocks of a normal graph are linked with shuffles as they were cut out. -/
theorem Extracted.routed :
    Routed G charts origins place (fun _ => False) (fun _ _ => True) site where
  faithful := extracted.faithful
  ended := extracted.ended
  spares _ _ _ _ _ none := none.elim
  into first second start target port links marked := by
    obtain ⟨out, input, id, id', owned, owned', joins, rfl, rfl, rfl, rfl, rfl⟩ := links
    obtain ⟨one, got, -⟩ := extracted.graph.node_of_output owned
    obtain ⟨two, got', -⟩ := extracted.graph.node_of_input owned'
    obtain ⟨chart, mem, placed, -⟩ := extracted.placed id one got
    obtain ⟨chart', mem', placed', has⟩ := extracted.placed id' two got'
    obtain ⟨entered, between, leaves, feeds, looked⟩ := (extracted.joins chart mem chart'
      mem' out input id id' owned placed owned' placed').mp joins
    have original := extracted.faithful.inputOwner extracted.graph normal.wf owned'
    have inside := (chartered.outlined chart' mem').member normal has
    rcases looked.cases_head with rfl | ⟨second, looks, -⟩
    · exact ⟨⟨chart, mem, placed.symm, (chartered.outlined chart mem).aimsAt normal leaves
        original marked⟩, trivial⟩
    · exact (chartered.not_looksThrough normal original inside
        (Graph.isBoundary_iff.mpr (.inr marked)) looks).elim
  outOf first second start target port shuffle links aims := by
    obtain ⟨out, input, id, id', owned, owned', joins, rfl, rfl, rfl, rfl, rfl⟩ := links
    obtain ⟨-, -, -, -, -, -, -, -, -, -, -, here | ⟨opens, prec, -⟩⟩ :=
      extracted.joins_of_aims normal chartered owned owned' joins aims
    · exact .inl here
    · exact .inr ⟨opens, prec⟩
  shared out out' input input' id id' other shuffle owned given taken ne aims aims' joins
      joins' := by
    obtain ⟨-, other', taken'⟩ := extracted.ended out' input' joins'
    obtain ⟨-, -, -, chart', mem', placed', entered, -, -, -, -, here | ⟨-, -, looks⟩⟩ :=
      extracted.joins_of_aims normal chartered owned taken joins aims
    · exact (ne here).elim
    · obtain ⟨chart, mem, placed, -, -, -, -, got, leaves, feeds, arrived, -⟩ :=
        extracted.joins_of_aims normal chartered given taken' joins' aims'
      exact (extracted.joins chart mem chart' mem' out' input id' other given placed taken
        placed').mpr ⟨entered, got, leaves, feeds, .single (looks got arrived)⟩

end Extracted

section Moves

variable {source : Graph} {free within : BlockId → Prop} {feeds : BlockId → BlockId → Prop}
  {block : BlockId} {pre post : Site} (normal : source.Normal)

include normal

/-- A block of a shuffle is not linked with an identity. -/
theorem Routed.isIdentity_eq_false (routed : Routed source charts origins place free feeds pre)
    {first second : BlockId} {start target : NodeId} {port : InputId}
    (aims : Aims source charts first shuffle)
    (links : pre.Links origins place first second start target port) :
    source.isIdentity target = false := by
  obtain ⟨chart, -, -, aimed⟩ := id aims
  rw [← Bool.not_eq_true]
  intro identity
  rcases routed.outOf first second start target port shuffle links aims with rfl | ⟨-, prec⟩
  · have clear := Graph.isBoundary_of_isIdentity identity
    rw [Graph.isBoundary_iff.mpr (.inr aimed.marked)] at clear
    cases clear
  · have stage := normal.identityAfter target shuffle (aimed.member.next prec) identity prec
    have unmarked := normal.unmixed shuffle stage
    rw [aimed.marked] at unmarked
    cases unmarked

/-- A step in a block keeps how shuffles are linked. -/
theorem Move.routed (move : Move origins place free block pre post)
    (wf : pre.graph.Consistent) (wf' : post.graph.Consistent)
    (routed : Routed source charts origins place free feeds pre) :
    Routed source charts origins place free feeds post := by
  have inversion := fun {first second start target port} =>
    @Move.links source origins place free block pre post move wf wf'
      routed.ended routed.faithful first second start target port
  refine ⟨move.faithful routed.faithful, move.ended wf wf' routed.ended, ?_, ?_, ?_, ?_⟩
  · intro first second start target port free' links
    rcases inversion links with old | ⟨allowed, identity, entry, -, -, old⟩
    · exact routed.spares first second start target port free' old
    · exact routed.spares block second identity target port allowed old
  · intro first second start target port links marked
    rcases inversion links with old | ⟨allowed, identity, entry, -, -, old⟩
    · exact routed.into first second start target port old marked
    · rw [routed.spares block second identity target port allowed old] at marked
      cases marked
  · intro first second start target port shuffle links aims
    rcases inversion links with old | ⟨-, identity, entry, silent, old, -⟩
    · exact routed.outOf first second start target port shuffle old aims
    · rw [routed.isIdentity_eq_false normal aims old] at silent
      cases silent
  · intro out out' input input' id id' other shuffle owned given taken ne aims aims' joined joined'
    cases move with
    | trim nodes idle fed joins =>
      obtain ⟨direct, -, entered⟩ := (joins out input).mp joined
      obtain ⟨direct', left, -⟩ := (joins out' input').mp joined'
      obtain ⟨record, stored, own⟩ := wf'.node_of_output owned
      obtain ⟨record', stored', own'⟩ := wf'.node_of_output given
      obtain ⟨record'', stored'', own''⟩ := wf'.node_of_input taken
      exact (joins out' input).mpr ⟨routed.shared out out' input input' id id' other
        shuffle (wf.output_of_mem (nodes id record stored) own)
        (wf.output_of_mem (nodes id' record' stored') own')
        (wf.input_of_mem (nodes other record'' stored'') own'') ne aims aims'
        direct direct', left, entered⟩
    | @bypass passed node entry exit _ G got identity placed inputs outputs unfed unused joins =>
      rw [G] at owned given taken
      have entered := wf.input_of_mem got (inputs ▸ List.mem_singleton_self entry)
      have silent : source.isIdentity (origins.node passed) := by
        rw [routed.faithful.isIdentity got, Graph.isIdentity, got, Option.any_some, identity]
      -- blocks of shuffles are not linked with the identity, so their links are old
      have old : ∀ first last start, pre.graph.outputOwner? first = some start →
          Aims source charts (place start) shuffle → post.wiring.Joins first last →
          pre.wiring.Joins first last := by
        intro first last start owned aims joined
        obtain ⟨-, -, direct | ⟨into, -⟩⟩ := (joins first last).mp joined
        · exact direct
        · have other := routed.isIdentity_eq_false normal aims ⟨first, entry, start, passed, owned,
            entered, into, rfl, rfl, rfl, rfl, rfl⟩
          rw [silent] at other
          cases other
      refine (joins out' input).mpr ⟨((joins out' input').mp joined').1,
        ((joins out input).mp joined).2.1, .inl ?_⟩
      exact routed.shared out out' input input' id id' other shuffle owned given taken ne
        aims aims' (old out input id owned aims joined) (old out' input' id' given aims'
        joined')
    | @fold node inputOf outputOf kept nodes inputs outputs fed joins =>
      obtain ⟨first, last, old, rfl, rfl⟩ := (joins out input).mp joined
      obtain ⟨first', last', old', rfl, rfl⟩ := (joins out' input').mp joined'
      obtain ⟨⟨id₁, owned₁⟩, id₂, owned₂⟩ := routed.ended first last old
      obtain ⟨⟨id₃, owned₃⟩, -⟩ := routed.ended first' last' old'
      obtain ⟨eq₁, placed₁, -⟩ := outputOwner_fold wf wf' nodes owned₁
      obtain ⟨eq₂, -, origin₂⟩ := inputOwner_fold wf wf' nodes owned₂
      obtain ⟨eq₃, placed₃, -⟩ := outputOwner_fold wf wf' nodes owned₃
      cases eq₁.symm.trans owned
      cases eq₂.symm.trans taken
      cases eq₃.symm.trans given
      rw [placed₁] at aims
      rw [placed₃] at aims'
      rw [origin₂] at ne
      exact (joins _ _).mpr ⟨first', last, routed.shared first first' last last' id₁ id₃ id₂ shuffle
        owned₁ owned₃ owned₂ ne aims aims' old old', rfl, rfl⟩

/-- Steps in blocks keep how shuffles are linked. -/
theorem Moves.routed (moves : Moves origins place free within pre post) (wf : pre.graph.Consistent)
    (routed : Routed source charts origins place free feeds pre) :
    Routed source charts origins place free feeds post :=
  moves.keeps (Routed source charts origins place free feeds)
    (fun _ _ _ _ move wf wf' => move.routed normal wf wf')
    wf routed

end Moves

end Staging
