import Staging.Proofs.Normalizing

/-! # Rounds over identities

Both kinds of rounds over the identities of the root scope settle. A round of splits gives
each identity one connection on each side. Splits of others can undo that, but an identity
with a single source passes on as many connections as it had, so that after each round the
identities of one more rank from either end have single connections for good. Each round of
removals but the last takes out a node.
-/

namespace Staging

open Std Relation List ExtTreeSet

variable {id : NodeId} {entry : InputId} {exit : OutputId} {pairs : List (OutputId × InputId)}
  {waiting : List NodeId} {base : Nat} {first next other : NodeId} {node : Node}

namespace Graph

variable {G pre post : Graph} {home : Homes} {rank : NodeId → Nat} {size level : Nat}

/-- A round that brings a number down unless it changes nothing settles in time. -/
theorem exists_settle {round : Graph → Changed} (final : Graph → Prop) (inv : Nat → Graph → Prop)
    (kept : ∀ {left now}, inv left now → ∃ count next,
      round now = .ok (count, next) ∧ (count = 0 → final next) ∧
        (count ≠ 0 → ∃ fewer, fewer < left ∧ inv fewer next))
    {rounds left : Nat} (enough : left < rounds) (start : inv left G) :
    ∃ count post, settle round rounds G = .ok (count, post) ∧ final post := by
  induction rounds generalizing left G with
  | zero => omega
  | succ rounds ih =>
    obtain ⟨count, next, run, settled, down⟩ := kept start
    rw [settle, bind_of_ok run]
    by_cases calm : count = 0
    · refine ⟨0, next, ?_, settled calm⟩
      simp only [calm, ↓reduceIte]
      rfl
    · obtain ⟨fewer, less, holds⟩ := down calm
      obtain ⟨more, last, run', settled'⟩ := ih (Nat.lt_of_lt_of_le less (by omega)) holds
      refine ⟨count + more, last, ?_, settled'⟩
      simp only [calm, ↓reduceIte]
      exact bind_of_ok run'

/-! ## Splits -/

namespace Separated

variable (separated : Separated pre id post)

include separated

/-- A copy is like the identity that it stands for in all that no identity is. -/
theorem any_nodes {test : Node → Bool}
    (fails : ∀ node : Node, node.isIdentity → test node = false) (other : NodeId) :
    post.nodes[other]?.any test = pre.nodes[attached pre.next id other]?.any test := by
  have identity := separated.identity
  rw [isIdentity, Option.any_eq_true] at identity
  obtain ⟨node, got, identity⟩ := identity
  rw [attached]
  split
  · next early =>
    by_cases eq : other = id
    · rw [eq, separated.gone, got, Option.any_none, Option.any_some, fails node identity]
    · rw [separated.old other early eq]
  · next late =>
    rw [got, Option.any_some, fails node identity]
    cases got' : post.nodes[other]? with
    | none => rfl
    | some node' => exact fails node' (separated.new other node' (Nat.not_lt.mp late) got')

theorem isBoundary (other : NodeId) :
    post.isBoundary other = pre.isBoundary (attached pre.next id other) :=
  separated.any_nodes (fun _ => Node.isBoundary_of_isIdentity) other

theorem isStageBoundary (other : NodeId) :
    post.isStageBoundary other = pre.isStageBoundary (attached pre.next id other) :=
  separated.any_nodes (fun _ identity => by
    have := Node.isBoundary_of_isIdentity identity
    rw [Node.isBoundary, Bool.or_eq_false_iff] at this
    exact this.1) other

theorem isShuffleBoundary (other : NodeId) :
    post.isShuffleBoundary other = pre.isShuffleBoundary (attached pre.next id other) :=
  separated.any_nodes (fun _ identity => by
    have := Node.isBoundary_of_isIdentity identity
    rw [Node.isBoundary, Bool.or_eq_false_iff] at this
    exact this.2) other

/-- What stands for a calm node is calm: copies are identities. -/
theorem isCalm (has : ∃ node, post.nodes[other]? = some node)
    (calm : pre.isCalm (attached pre.next id other)) : post.isCalm other := by
  obtain ⟨node, got⟩ := has
  by_cases early : other.raw < pre.next
  · obtain ⟨ne, -⟩ := separated.nodes_old got early
    rw [attached_old early] at calm
    rw [isCalm_of_kept (separated.old other early ne), calm]
  · have identity := separated.new other node (Nat.not_lt.mp early) got
    rw [Graph.isCalm, got, Option.any_some, Node.isPushDownTarget, identity]
    simp

theorem passes (passes : post.Passes first next) :
    pre.Passes (attached pre.next id first) (attached pre.next id next) := by
  induction passes with
  | step prec => exact .step (separated.prec _ _ prec)
  | on prec clear _ ih =>
    rw [separated.isBoundary] at clear
    exact .on (separated.prec _ _ prec) clear ih

end Separated

theorem Ready.split (ready : pre.Ready home) (got : pre.nodes[id]? = some node)
    (identity : node.isIdentity) (inputs : node.inputs = [entry])
    (outputs : node.outputs = [exit]) (split : Split pre id entry exit pairs post) :
    post.Ready (home ∘ attached pre.next id) := by
  have wf := ready.tidy.wf
  have separated := split.separated wf got identity inputs outputs
  have reshaped := separated.reshaped ready.tidy.nested.founded
    (ready.tidy.not_endpoint separated.identity)
  refine ⟨ready.tidy.reshaped reshaped fun _ => attached_old,
    split.guarded wf got identity inputs outputs ready.guarded,
    fun first next homed shuffle passes => ?_, fun first next homed stage prec => ?_⟩
  · rw [separated.isShuffleBoundary] at shuffle
    exact separated.isCalm (separated.wf.exists_of_passes passes)
      (ready.settled _ _ homed shuffle (separated.passes passes))
  · rw [separated.isStageBoundary] at stage
    rw [separated.isBoundary]
    exact ready.hopless _ _ homed stage (separated.prec _ _ prec)

/-- Each identity has at most one connection on each side, except those that wait for
their turn. -/
def Slim (graph : Graph) (home : Homes) (waiting : List NodeId) : Prop :=
  ∀ id, home id = some [] → graph.isIdentity id = true → id ∉ waiting → graph.OneToOne id

theorem OneToOne.mono (slim : pre.OneToOne id) (wf : pre.Consistent)
    (wf' : post.Consistent) (eq : post.nodes[id]? = pre.nodes[id]?)
    (feeds : ∀ out input, post.Feeds out input → pre.Feeds out input) :
    post.OneToOne id where
  single entry entry' first second own own' fed fed' := by
    rw [inputOwner_of_kept eq wf wf'] at own own'
    exact slim.single entry entry' first second own own' (feeds _ _ fed) (feeds _ _ fed')
  single' exit exit' first second own own' fed fed' := by
    rw [outputOwner_of_kept eq wf wf'] at own own'
    exact slim.single' exit exit' first second own own' (feeds _ _ fed) (feeds _ _ fed')

/-- A split without copies takes the identity out. -/
theorem Slim.split_nil (slim : pre.Slim home (id :: waiting)) (wf : pre.Consistent)
    (split : Split pre id entry exit [] post) :
    post.Slim (home ∘ attached pre.next id) waiting := by
  intro other homed identity later
  obtain ⟨node, got, -⟩ := (Option.any_eq_true _ _).mp identity
  have ne : other ≠ id := by
    rintro rfl
    cases split.gone.symm.trans got
  have early : other.raw < pre.next := by
    by_contra late
    obtain ⟨place, none, -⟩ := split.new other node (Nat.not_lt.mp late) got
    cases none
  have eq := split.old other early ne
  rw [Function.comp, attached_old early] at homed
  rw [isIdentity_of_kept eq] at identity
  refine (slim other homed identity (by simp [ne, later])).mono wf split.wf eq
    fun out input fed => ?_
  simpa using ((split.feeds out input).mp fed).1

theorem Ready.narrow (ready : G.Ready home) {members : NodeSet}
    (run : G.rootMembers = .ok members) : ∃ home', G.Ready home' ∧
      (∀ id, home' id = some [] → home id = some []) ∧
      ∀ id, home' id = some [] ↔ id ∈ members := by
  obtain ⟨home', tidy, narrower, mem_members⟩ := ready.tidy.narrow run
  exact ⟨home', ⟨tidy, fun id out homed => ready.guarded id out (narrower id homed),
    fun id next homed => ready.settled id next (narrower id homed),
    fun id next homed => ready.hopless id next (narrower id homed)⟩, narrower, mem_members⟩

/-! ## Ranks -/

/-- Ranks of the nodes of the root scope, which go up along connections. -/
structure Graded (graph : Graph) (home : Homes) (rank : NodeId → Nat) (size : Nat) : Prop where
  rises : ∀ first second, home first = some [] → graph.Precedes first second →
    rank first < rank second
  bounded : ∀ id node, home id = some [] → graph.nodes[id]? = some node → rank id < size

open Classical in
theorem rank_lt_size (got : G.nodes[id]? = some node)
    (acyclic : ¬ TransGen G.Precedes id id) : G.rank id < G.nodes.size := by
  rw [← card_nodeIds, Graph.rank]
  apply Finset.card_lt_card
  apply (Finset.ssubset_iff_of_subset (Finset.filter_subset _ _)).mpr
  refine ⟨id, mem_nodeIds.mpr ⟨node, got⟩, fun mem => ?_⟩
  exact acyclic (Finset.mem_filter.mp mem).2

theorem Tidy.graded (tidy : G.Tidy home) : Graded G home G.rank G.nodes.size := by
  have acyclic : ∀ id, home id = some [] → ¬ TransGen G.Precedes id id := by
    intro id homed
    apply tidy.nested.acyclic id
    rw [homed]
    exact Option.some_ne_none _
  constructor
  · intro first second homed prec
    exact rank_lt tidy.wf prec (acyclic first homed)
  · intro id node homed got
    exact rank_lt_size got (acyclic id homed)

/-- A copy has the rank of the identity that it stands for. -/
theorem Graded.separated (graded : Graded pre home rank size) (separated : Separated pre id post) :
    Graded post (home ∘ attached pre.next id) (rank ∘ attached pre.next id) size := by
  constructor
  · intro first second homed prec
    exact graded.rises _ _ homed (separated.prec first second prec)
  · intro other node homed got
    obtain ⟨record, there⟩ : ∃ record, pre.nodes[attached pre.next id other]? = some record := by
      rw [attached]
      split
      · next early =>
        refine ⟨node, ?_⟩
        rw [← separated.old other early, got]
        rintro rfl
        rw [separated.gone] at got
        cases got
      · have identity := separated.identity
        rw [isIdentity, Option.any_eq_true] at identity
        obtain ⟨record, there, -⟩ := identity
        exact ⟨record, there⟩
    exact graded.bounded _ record homed there

/-- Identities below the level have single sources and those as far from the other
end single targets, except those that wait for their turn. -/
def Thin (graph : Graph) (home : Homes) (rank : NodeId → Nat)
    (size level : Nat) (waiting : List NodeId) : Prop :=
  ∀ id, home id = some [] → graph.isIdentity id = true → id ∉ waiting →
    (rank id < level → graph.SingleIn id) ∧ (size ≤ rank id + level → graph.SingleOut id)

/-- A split keeps single connections, if those one level before are settled. -/
theorem Thin.split (thin : pre.Thin home rank size level (id :: waiting))
    (settled : pre.Thin home rank size base []) (near : level ≤ base + 1)
    (split : Split pre id entry exit pairs post) (tidy : pre.Tidy home)
    (graded : Graded pre home rank size) (got : pre.nodes[id]? = some node)
    (identity : node.isIdentity) (inputs : node.inputs = [entry])
    (outputs : node.outputs = [exit]) :
    post.Thin (home ∘ attached pre.next id) (rank ∘ attached pre.next id) size level waiting := by
  have wf := tidy.wf
  have identity' : pre.isIdentity id := by
    rw [isIdentity, got]
    exact identity
  intro other homed eq later
  by_cases early : other.raw < pre.next
  · rw [Function.comp, attached_old early] at homed
    rw [Function.comp, attached_old early]
    have ne : other ≠ id := by
      rintro rfl
      rw [isIdentity, split.gone] at eq
      cases eq
    rw [isIdentity_of_kept (split.old other early ne)] at eq
    obtain ⟨single, single'⟩ := thin other homed eq (by simp [ne, later])
    constructor
    · intro low
      apply split.singleIn wf got inputs outputs early ne (single low)
      intro prec
      have homed' := (tidy.nested.touch id other prec).trans homed
      have less := graded.rises id other homed' prec
      exact (settled id homed' identity' not_mem_nil).1 (by omega)
    · intro high
      apply split.singleOut wf got inputs outputs early ne (single' high)
      intro prec
      have homed' := (tidy.nested.touch other id prec).symm.trans homed
      have less := graded.rises other id homed prec
      exact (settled id homed' identity' not_mem_nil).2 (by omega)
  · have slim := split.oneToOne_new wf (Nat.not_lt.mp early)
    exact ⟨fun _ => slim.single, fun _ => slim.single'⟩

theorem Thin.mono {waiting' : List NodeId}
    (thin : G.Thin home rank size level waiting) (more : waiting ⊆ waiting') :
    G.Thin home rank size level waiting' :=
  fun id homed identity later => thin id homed identity fun mem => later (more mem)

/-! ## Rounds of splits -/

/-- What holds in the middle of a round of splits that settles one more rank from either
end, and while nothing has been split. -/
structure Splitting (graph : Graph) (size base : Nat) (waiting : List NodeId) (calm : Prop)
    (now : Graph) (home : Homes) (rank : NodeId → Nat) : Prop where
  ready : now.Ready home
  conserves : graph.Conserves now
  graded : Graded now home rank size
  settled : now.Thin home rank size base []
  thin : now.Thin home rank size (base + 1) waiting
  slim : calm → now.Slim home waiting

section Round

variable {calm : Prop} {rest : List NodeId} {now : Graph}

/-- An identity of the root scope can be split. It stays if all ranks are settled. -/
theorem Splitting.step (splitting : Splitting G size base (id :: rest) calm now home rank)
    (homed : home id = some []) (identity : now.isIdentity id) :
    ∃ copies post home' rank', now.splitIdentity id = .ok (copies, post) ∧
      Splitting G size base rest (calm ∧ copies = []) post home' rank' ∧
      (∀ other : NodeId, other.raw < now.next → home' other = home other) ∧
      (size ≤ base → copies = []) := by
  have ⟨ready, conserves, graded, settled, thin, slim⟩ := splitting
  have tidy := ready.tidy
  have wf := tidy.wf
  obtain ⟨node, got, identity'⟩ := (Option.any_eq_true _ _).mp identity
  obtain ⟨entry, exit, inputs, outputs⟩ :=
    Node.exists_ports_of_isPassThrough (Node.isPassThrough_of_isIdentity identity')
  have own : entry ∈ node.inputs := inputs ▸ mem_singleton_self entry
  have own' : exit ∈ node.outputs := outputs ▸ mem_singleton_self exit
  have open' : ¬ now.Feeds exit entry := by
    intro feeds
    apply tidy.nested.acyclic id
    · rw [homed]
      exact Option.some_ne_none _
    · exact .single ⟨exit, entry, wf.output_of_mem got own', wf.input_of_mem got own, feeds⟩
  obtain ⟨copies, post, run, ⟨single, none, eq⟩ | ⟨several, pairs, length, split⟩⟩ :=
    wf.exists_splitIdentity got identity' inputs outputs
  · subst eq
    refine ⟨copies, _, home, rank, run, ⟨ready, conserves, graded, settled,
      fun other homed' eq later => ?_, fun still other homed' eq later => ?_⟩, fun _ _ => rfl,
      fun _ => none⟩
    · by_cases this : other = id
      · subst this
        exact ⟨fun _ => single.single, fun _ => single.single'⟩
      · exact thin other homed' eq (by simp [this, later])
    · by_cases this : other = id
      · subst this
        exact single
      · exact slim still.1 other homed' eq (by simp [this, later])
  · have separated := split.separated wf got identity' inputs outputs
    refine ⟨copies, post, _, _, run, ⟨ready.split got identity' inputs outputs split,
      conserves.trans (split.conserves wf tidy.rimmed got identity' inputs outputs open'),
      graded.separated separated,
      (settled.mono (nil_subset _)).split settled (Nat.le_succ base) split tidy graded got
        identity' inputs outputs,
      thin.split settled (Nat.le_refl _) split tidy graded got identity' inputs outputs,
      fun still => ?_⟩, fun other early => ?_, fun done => ?_⟩
    · rw [still.2, length_nil] at length
      cases length_eq_zero_iff.mp length.symm
      exact (slim still.1).split_nil wf split
    · rw [Function.comp, attached_old early]
    · have low := graded.bounded id node homed got
      obtain ⟨single, single'⟩ := settled id homed identity not_mem_nil
      exact (several ⟨single (by omega), single' (by omega)⟩).elim

/-- One round settles one more rank from either end. Identities are slim if it splits
nothing. -/
theorem Ready.exists_splitRound (ready : G.Ready home) (graded : Graded G home rank size)
    (settled : G.Thin home rank size base []) : ∃ count post home' rank',
    G.splitRound = .ok (count, post) ∧
      Splitting G size base [] (count = 0) post home' rank' ∧ (size ≤ base → count = 0) := by
  obtain ⟨members, collected, has⟩ := ready.tidy.nested.founded.exists_rootMembers
  obtain ⟨home₀, ready₀, narrower, mem_members⟩ := ready.narrow collected
  let inv (rest : List NodeId) (count : Nat) (now : Graph) : Prop :=
    ∃ home' rank', rest ⊆ members.toList ∧ Splitting G size base rest (count = 0) now home' rank' ∧
      (∀ id ∈ members, home' id = some []) ∧ (size ≤ base → count = 0)
  have begin' : inv members.toList 0 G := by
    have none : ∀ {id}, home₀ id = some [] → id ∈ members.toList :=
      fun homed => mem_toList.mpr ((mem_members _).mp homed)
    exact ⟨home₀, rank, Subset.refl _, ⟨ready₀, .refl G,
      ⟨fun first second homed => graded.rises first second (narrower first homed),
        fun id node homed => graded.bounded id node (narrower id homed)⟩,
      fun id homed => settled id (narrower id homed),
      fun id homed _ later => (later (none homed)).elim,
      fun _ id homed _ later => (later (none homed)).elim⟩,
      fun id member => (mem_members id).mpr member, fun _ => rfl⟩
  obtain ⟨count, post, run, home', rank', -, splitting, -, still⟩ : ∃ count post,
      G.splitRound = .ok (count, post) ∧ inv [] count post := by
    rw [splitRound, bind_of_ok collected]
    refine changeEach_keeps inv ?_ begin'
    rintro id rest count now ⟨home', rank', within, splitting, homed, still⟩
    have member := mem_toList.mp (within (.head _))
    have within' : rest ⊆ members.toList := fun _ later => within (.tail _ later)
    split
    · next identity =>
      obtain ⟨copies, next, home'', rank'', run, ⟨ready', conserves, graded', settled', thin, slim⟩,
        homes, none⟩ := splitting.step (homed id member) identity
      refine ⟨_, next, bind_of_ok run, home'', rank'', within', ⟨ready', conserves, graded',
        settled', thin, fun zero => slim ⟨Nat.eq_zero_of_add_eq_zero_right zero, ?_⟩⟩,
        fun other member' => ?_, fun done => ?_⟩
      · have := Nat.eq_zero_of_add_eq_zero_left zero
        split at this
        · simp_all
        · cases this
      · obtain ⟨-, node, got⟩ := has other member'
        rw [homes other, homed other member']
        exact Nat.lt_of_lt_of_le (ready.tidy.wf.early got) splitting.conserves.adds.1
      · rw [still done, none done]
        rfl
    · next plain =>
      have waits : ∀ {other}, now.isIdentity other = true → other ∉ rest → other ∉ id :: rest := by
        intro other eq later mem
        rcases mem_cons.mp mem with rfl | mem
        · exact plain eq
        · exact later mem
      exact ⟨0, now, rfl, home', rank', within', ⟨splitting.ready, splitting.conserves,
        splitting.graded, splitting.settled, fun other homed' eq later =>
          splitting.thin other homed' eq (waits eq later), fun zero other homed' eq later =>
          splitting.slim zero other homed' eq (waits eq later)⟩, homed, still⟩
  exact ⟨count, post, home', rank', run, splitting, still⟩

end Round

/-- Identities of the root scope can be split until each has single connections. -/
theorem Ready.exists_splitIdentities (ready : G.Ready home) :
    ∃ count post home', G.splitIdentities = .ok (count, post) ∧ G.Conserves post ∧
      post.Ready home' ∧ post.Slim home' [] := by
  -- The number of ranks that are not settled goes down until there is nothing to split.
  let inv (left : Nat) (now : Graph) : Prop :=
    ∃ home' rank' level, G.Conserves now ∧ now.Ready home' ∧ Graded now home' rank' G.nodes.size ∧
      now.Thin home' rank' G.nodes.size level [] ∧ left + level = G.nodes.size
  let final (last : Graph) : Prop :=
    ∃ home', G.Conserves last ∧ last.Ready home' ∧ last.Slim home' []
  have kept : ∀ {left now}, inv left now → ∃ count next,
      now.splitRound = .ok (count, next) ∧ (count = 0 → final next) ∧
        (count ≠ 0 → ∃ fewer, fewer < left ∧ inv fewer next) := by
    rintro left now ⟨home', rank', level, conserves, ready', graded, thin, total⟩
    obtain ⟨count, next, home'', rank'', run, splitting, still⟩ :=
      ready'.exists_splitRound graded thin
    have conserves' := conserves.trans splitting.conserves
    refine ⟨count, next, run, fun zero => ⟨home'', conserves', splitting.ready,
      splitting.slim zero⟩, fun some => ⟨left - 1, ?_⟩⟩
    have more : level < G.nodes.size := by
      by_contra done
      exact some (still (Nat.not_lt.mp done))
    exact ⟨by omega, home'', rank'', level + 1, conserves', splitting.ready, splitting.graded,
      splitting.thin, by omega⟩
  have enough : G.nodes.size < G.splitBound := by
    have : G.nodes.size * 1 ≤ G.nodes.size * Nat.pow (G.connectionCount + 1) (2 * G.nodes.size) :=
      Nat.mul_le_mul_left _ (Nat.one_le_pow _ _ (Nat.succ_pos _))
    rw [splitBound]
    omega
  have begin' : inv G.nodes.size G := by
    refine ⟨home, G.rank, 0, .refl G, ready, ready.tidy.graded, ?_, rfl⟩
    intro id homed identity _
    obtain ⟨node, got, -⟩ := (Option.any_eq_true _ _).mp identity
    have low := ready.tidy.graded.bounded id node homed got
    exact ⟨fun none => absurd none (Nat.not_lt_zero _), fun high => by omega⟩
  obtain ⟨count, post, run, home', last⟩ := exists_settle final inv kept enough begin'
  exact ⟨count, post, home', run, last⟩

/-- A round changes nothing if it changes nothing at each node of the root scope. -/
theorem changeEach_eq_self {α : Type} {items : List α} {change : Graph → α → Changed}
    (still : ∀ item ∈ items, change G item = .ok (0, G)) :
    G.changeEach items change = .ok (0, G) := by
  let inv (rest : List α) (count : Nat) (now : Graph) : Prop :=
    rest ⊆ items ∧ count = 0 ∧ now = G
  have step : ∀ item rest count now, inv (item :: rest) count now → ∃ more post,
      change now item = .ok (more, post) ∧ inv rest (count + more) post := by
    rintro item rest count now ⟨within, zero, eq⟩
    exact ⟨0, G, eq ▸ still item (within (.head _)),
      fun _ later => within (.tail _ later), zero, rfl⟩
  obtain ⟨count, post, run, -, rfl, rfl⟩ := changeEach_keeps inv step ⟨Subset.refl _, rfl, rfl⟩
  exact run

/-- Nothing is left to split then. -/
theorem Ready.splitRound_eq (ready : G.Ready home) (slim : G.Slim home []) :
    G.splitRound = .ok (0, G) := by
  obtain ⟨members, collected, -⟩ := ready.tidy.nested.founded.exists_rootMembers
  obtain ⟨home', -, narrower, mem_members⟩ := ready.narrow collected
  rw [splitRound, bind_of_ok collected]
  refine changeEach_eq_self fun id mem => ?_
  split
  · next identity =>
    have homed := narrower id ((mem_members id).mpr (mem_toList.mp mem))
    obtain ⟨node, got, identity'⟩ := (Option.any_eq_true _ _).mp identity
    obtain ⟨entry, exit, inputs, outputs⟩ := Node.exists_ports_of_isPassThrough
      (Node.isPassThrough_of_isIdentity identity')
    obtain ⟨copies, post, run, ⟨-, rfl, rfl⟩ | ⟨several, -⟩⟩ :=
      ready.tidy.wf.exists_splitIdentity got identity' inputs outputs
    · exact bind_of_ok run
    · exact absurd (slim id homed identity not_mem_nil) several
  · rfl

/-! ## Rounds of removals -/

namespace Skipped

variable (skipped : Skipped pre id post)

include skipped

variable (wf : pre.Consistent)

include wf

/-- A walk led through the node that is taken out. -/
theorem passes (clear : pre.isBoundary id = false) (passes : post.Passes first next) :
    pre.Passes first next ∧ next ≠ id := by
  have on : ∀ {first second next}, post.Precedes first second →
      next = second ∨ pre.isBoundary second = false ∧ pre.Passes second next →
      pre.Passes first next := by
    intro first second next prec arrives
    have walk : ∀ {first}, pre.Precedes first second → pre.Passes first next :=
      fun prec => arrives.elim (fun eq => eq ▸ .step prec)
        fun ⟨clear, passes⟩ => .on prec clear passes
    obtain ⟨-, -, prec | ⟨ahead, behind⟩⟩ := skipped.prec wf prec
    · exact walk prec
    · exact .on ahead clear (walk behind)
  induction passes with
  | step prec => exact ⟨on prec (.inl rfl), (skipped.prec wf prec).2.1⟩
  | on prec stays _ ih =>
    rw [isBoundary_of_kept (skipped.kept (skipped.prec wf prec).2.1)] at stays
    exact ⟨on prec (.inr ⟨stays, ih.1⟩), ih.2⟩

/-- With the node, one way between two nodes that have one way only is gone. -/
theorem oneToOne (slim : pre.OneToOne id) (slim' : pre.OneToOne other) : post.OneToOne other where
  single port port' first second own own' fed fed' := by
    obtain ⟨-, own⟩ := (skipped.inputOwner wf).mp own
    obtain ⟨-, own'⟩ := (skipped.inputOwner wf).mp own'
    obtain ⟨out, -, one⟩ := (skipped.feeds first port).mp fed
    obtain ⟨out', -, two⟩ := (skipped.feeds second port').mp fed'
    rcases one with one | ⟨entry, exit, here, there, one, leaves⟩ <;>
      rcases two with two | ⟨entry', exit', here', there', two, leaves'⟩
    · exact slim'.single _ _ _ _ own own' one two
    · exact (out ((slim'.single _ _ _ _ own own' one leaves').1 ▸ there')).elim
    · exact (out' ((slim'.single _ _ _ _ own own' leaves two).1 ▸ there)).elim
    · exact ⟨(slim.single _ _ _ _ here here' one two).1,
        (slim'.single _ _ _ _ own own' leaves leaves').2⟩
  single' port port' first second own own' fed fed' := by
    obtain ⟨-, own⟩ := (skipped.outputOwner wf).mp own
    obtain ⟨-, own'⟩ := (skipped.outputOwner wf).mp own'
    obtain ⟨-, out, one⟩ := (skipped.feeds port first).mp fed
    obtain ⟨-, out', two⟩ := (skipped.feeds port' second).mp fed'
    rcases one with one | ⟨entry, exit, here, there, enters, one⟩ <;>
      rcases two with two | ⟨entry', exit', here', there', enters', two⟩
    · exact slim'.single' _ _ _ _ own own' one two
    · exact (out ((slim'.single' _ _ _ _ own own' one enters').1 ▸ here')).elim
    · exact (out' ((slim'.single' _ _ _ _ own own' enters two).1 ▸ here)).elim
    · exact ⟨(slim.single' _ _ _ _ there there' one two).1,
        (slim'.single' _ _ _ _ own own' enters enters').2⟩

end Skipped

/-- Something feeds a needed identity, it feeds something, and all of that are boundaries. -/
theorem Consistent.isNeeded_iff (wf : G.Consistent) :
    G.isNeeded id ↔ (∃ prev, G.Precedes prev id) ∧ (∃ next, G.Precedes id next) ∧
      (∀ prev, G.Precedes prev id → G.isStageBoundary prev) ∧
      ∀ next, G.Precedes id next → G.isBoundary next := by
  simp only [isNeeded, Bool.and_eq_true, Bool.not_eq_true', HandleSet.isEmpty_eq_false_iff,
    all_eq_true, mem_toList, wf.mem_successors, wf.mem_predecessors]
  tauto

open Classical in
theorem Skipped.size_add_one (skipped : Skipped pre id post)
    (got : pre.nodes[id]? = some node) : post.nodes.size + 1 = pre.nodes.size := by
  have erased : post.nodeIds = pre.nodeIds.erase id := by
    ext other
    rw [Finset.mem_erase, mem_nodeIds, mem_nodeIds, skipped.nodes]
    split
    · next eq => simp [eq]
    · next ne => simp [ne]
  rw [← card_nodeIds, ← card_nodeIds, erased]
  exact Finset.card_erase_add_one (mem_nodeIds.mpr ⟨node, got⟩)

/-- An identity that is not needed can be taken out, which keeps all that holds. -/
theorem Ready.exists_skip (ready : G.Ready home) (slim : G.Slim home [])
    (homed : home id = some []) (identity : G.isIdentity id) (spare : G.isNeeded id = false) :
    ∃ post, G.skip id = .ok post ∧ G.Conserves post ∧ post.Ready home ∧
      post.Slim home [] ∧ post.nodes.size + 1 = G.nodes.size := by
  have wf := ready.tidy.wf
  obtain ⟨node, got, passes⟩ := (Option.any_eq_true _ _).mp identity
  obtain ⟨post, run, conserves, -, skipped⟩ := ready.tidy.nested.exists_skip ready.tidy.rimmed
    got (Node.isPassThrough_of_isIdentity passes) (homed ▸ Option.some_ne_none _)
  have slim' := slim id homed identity not_mem_nil
  have clear := isBoundary_of_isIdentity identity
  -- the node itself is gone, and what is left is as it was
  have left : ∀ {test : Node → Bool} {other : NodeId}, post.nodes[other]?.any test = true →
      other ≠ id := by
    rintro test _ holds rfl
    rw [skipped.nodes, if_pos rfl, Option.any_none] at holds
    cases holds
  -- a stage boundary before it and a boundary behind it would make the identity needed
  have spare' : ∀ first next, G.Precedes first id → G.Precedes id next →
      G.isStageBoundary first = true → G.isBoundary next = false := by
    intro first next ahead behind stage
    by_contra boundary
    have needed : G.isNeeded id := by
      rw [wf.isNeeded_iff]
      refine ⟨⟨first, ahead⟩, ⟨next, behind⟩, fun prev prec => ?_, fun other prec => ?_⟩
      · rw [slim'.before prec ahead, stage]
      · rw [slim'.after prec behind]
        exact Bool.eq_true_of_not_eq_false boundary
    rw [needed] at spare
    cases spare
  have reshaped := skipped.reshaped wf (ready.tidy.not_endpoint identity)
  refine ⟨post, run, conserves, ⟨ready.tidy.reshaped reshaped fun _ _ => rfl,
    skipped.guarded wf identity spare' ready.guarded,
    fun first next homed' shuffle passes => ?_, fun first next homed' stage prec => ?_⟩,
    fun other homed' identity' _ => ?_, skipped.size_add_one got⟩
  · obtain ⟨passes, ne⟩ := skipped.passes wf clear passes
    rw [isShuffleBoundary_of_kept (skipped.kept (left shuffle))] at shuffle
    rw [isCalm_of_kept (skipped.kept ne)]
    exact ready.settled first next homed' shuffle passes
  · obtain ⟨ne, ne', prec⟩ := skipped.prec wf prec
    rw [isStageBoundary_of_kept (skipped.kept ne)] at stage
    rw [isBoundary_of_kept (skipped.kept ne')]
    rcases prec with prec | ⟨ahead, behind⟩
    · exact ready.hopless first next homed' stage prec
    · exact spare' first next ahead behind stage
  · rw [isIdentity_of_kept (skipped.kept (left identity'))] at identity'
    exact skipped.oneToOne wf slim' (slim other homed' identity' not_mem_nil)

/-- A round of removals counts the nodes that it takes out, and if it takes out none, all
identities are needed. -/
theorem Ready.exists_reduceRound (ready : G.Ready home) (slim : G.Slim home []) :
    ∃ count post home', G.reduceRound = .ok (count, post) ∧ G.Conserves post ∧
      post.Ready home' ∧ post.Slim home' [] ∧ post.nodes.size + count = G.nodes.size ∧
      (count = 0 → ∀ id, home' id = some [] → post.isIdentity id → post.isNeeded id) := by
  obtain ⟨members, collected, -⟩ := ready.tidy.nested.founded.exists_rootMembers
  obtain ⟨home', ready, narrower, mem_members⟩ := ready.narrow collected
  let inv (rest : List NodeId) (count : Nat) (now : Graph) : Prop :=
    rest ⊆ members.toList ∧ G.Conserves now ∧ now.Ready home' ∧
      now.Slim home' [] ∧ now.nodes.size + count = G.nodes.size ∧
      (count = 0 → ∀ id ∈ members, id ∈ rest ∨ (now.isIdentity id && !now.isNeeded id) = false)
  have step : ∀ id rest count now, inv (id :: rest) count now →
      ∃ more post, (if now.isIdentity id && !now.isNeeded id then do
          let now ← now.skip id
          return (1, now)
        else .ok (0, now) : Changed) = .ok (more, post) ∧ inv rest (count + more) post := by
    rintro id rest count now ⟨within, conserves, ready', slim', total, last⟩
    have homed := (mem_members id).mpr (mem_toList.mp (within (.head _)))
    have within' : rest ⊆ members.toList := fun _ later => within (.tail _ later)
    split
    · next spare =>
      rw [Bool.and_eq_true, Bool.not_eq_true'] at spare
      obtain ⟨next, run, step, ready'', slim'', less⟩ :=
        ready'.exists_skip slim' homed spare.1 spare.2
      exact ⟨1, next, bind_of_ok run, within', conserves.trans step, ready'', slim'', by omega,
        nofun⟩
    · next stays =>
      refine ⟨0, now, rfl, within', conserves, ready', slim', total, fun none other mem => ?_⟩
      rcases last none other mem with waiting | done
      · rcases mem_cons.mp waiting with rfl | later
        · exact .inr (Bool.eq_false_of_not_eq_true stays)
        · exact .inl later
      · exact .inr done
  have begin' : inv members.toList 0 G :=
    ⟨Subset.refl _, .refl G, ready, fun id homed => slim id (narrower id homed), rfl,
      fun _ id mem => .inl (mem_toList.mpr mem)⟩
  obtain ⟨count, post, run, -, conserves, ready', slim', total, last⟩ :=
    changeEach_keeps inv step begin'
  refine ⟨count, post, home', ?_, conserves, ready', slim', total, fun none id homed identity => ?_⟩
  · rw [reduceRound, bind_of_ok collected]
    exact run
  · have done := (last none id ((mem_members id).mp homed)).resolve_left not_mem_nil
    rw [identity, Bool.true_and, Bool.not_eq_false'] at done
    exact done

/-- What holds in the end: identities have one connection on each side, and are needed. -/
structure Done (graph : Graph) (home : Homes) : Prop extends
    Ready graph home where
  slim : graph.Slim home []
  needed : ∀ id, home id = some [] → graph.isIdentity id = true → graph.isNeeded id = true

/-- Identities of the root scope can be taken out until all are needed. -/
theorem Ready.exists_reduceIdentities (ready : G.Ready home) (slim : G.Slim home []) :
    ∃ count post home', G.reduceIdentities = .ok (count, post) ∧ G.Conserves post ∧
      post.Done home' := by
  let inv (left : Nat) (now : Graph) : Prop := G.Conserves now ∧ now.nodes.size = left ∧
      ∃ home', now.Ready home' ∧ now.Slim home' []
  let final (last : Graph) : Prop := ∃ home', G.Conserves last ∧ last.Done home'
  have kept : ∀ {left now}, inv left now → ∃ count next,
      now.reduceRound = .ok (count, next) ∧ (count = 0 → final next) ∧
        (count ≠ 0 → ∃ fewer, fewer < left ∧ inv fewer next) := by
    rintro left now ⟨conserves, total, home', ready', slim'⟩
    obtain ⟨count, next, home'', run, step, ready'', slim'', less, needed⟩ :=
      ready'.exists_reduceRound slim'
    exact ⟨count, next, run,
      fun none => ⟨home'', conserves.trans step, ready'', slim'', needed none⟩,
      fun some => ⟨next.nodes.size, by omega, conserves.trans step, rfl, home'', ready'', slim''⟩⟩
  have begin' : inv G.nodes.size G := ⟨.refl G, rfl, home, ready, slim⟩
  obtain ⟨count, post, run, home', last⟩ := exists_settle final inv kept (Nat.lt_succ_self _) begin'
  exact ⟨count, post, home', run, last⟩

/-- Nothing is left to take out then. -/
theorem Done.reduceRound_eq (done : G.Done home) : G.reduceRound = .ok (0, G) := by
  obtain ⟨members, collected, -⟩ := done.tidy.nested.founded.exists_rootMembers
  obtain ⟨home', -, narrower, mem_members⟩ := done.toReady.narrow collected
  rw [reduceRound, bind_of_ok collected]
  refine changeEach_eq_self fun id mem => if_neg fun spare => ?_
  rw [Bool.and_eq_true, Bool.not_eq_true'] at spare
  have homed := narrower id ((mem_members id).mpr (mem_toList.mp mem))
  cases spare.2.symm.trans (done.needed id homed spare.1)

/-- What is left then is normal. -/
theorem Done.normal (done : G.Done home) : G.Normal where
  wf := done.tidy.wf
  inputs id mem := by
    obtain ⟨node, got, kind, none⟩ := done.tidy.nested.founded.inputs id mem
    exact ⟨node, got, kind, done.tidy.nested.founded.plain id node got (.inl kind), none⟩
  outputs id mem := by
    obtain ⟨node, got, kind, none⟩ := done.tidy.nested.founded.outputs id mem
    exact ⟨node, got, kind, done.tidy.nested.founded.plain id node got (.inr kind), none⟩
  unmixed _ := done.tidy.nested.founded.unmixed
  flat id node has got scope kind :=
    done.tidy.flat id node scope got kind (done.tidy.home_of_member has)
  identityAfter id prev has identity :=
    ((done.tidy.wf.isNeeded_iff.mp (done.needed id (done.tidy.home_of_member has)
      identity)).2.2.1 prev)
  identityBefore id next has identity :=
    ((done.tidy.wf.isNeeded_iff.mp (done.needed id (done.tidy.home_of_member has)
      identity)).2.2.2 next)
  hopless id next has := done.hopless id next (done.tidy.home_of_member has)
  calm id next has := done.settled id next (done.tidy.home_of_member has)
  guarded id next has guarded := by
    rintro ⟨out, input, given, taken, feeds⟩
    obtain ⟨binding, stageless⟩ := isBinding_of_isGuarded guarded
    obtain ⟨-, taker, taken', stop | ⟨stage, -⟩⟩ := done.guarded id out
      (done.tidy.home_of_member has) binding given input feeds
    · cases taken.symm.trans taken'
      exact isStageBoundary_of_isStop stop
    · cases stage.symm.trans stageless
  acyclic id has := done.tidy.nested.acyclic id (by
    rw [done.tidy.home_of_member has]
    exact Option.some_ne_none _)

end Graph

end Staging
