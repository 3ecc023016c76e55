import Staging.Plan.Linking
import Staging.Proofs.Regions

/-! # Links between regions

A block output is linked with a block input exactly if data leaves through it
for a port from which the search, going back through boundaries that no region
wraps, finds the wrapped port.
-/

namespace Staging

open Std Relation List ExtTreeSet HandleSet

variable {out : OutputId} {exit : BlockOutputId} {first second : InputId} {input : InputId}

/-- The search for what feeds the first port looks on from the second: some
output of a boundary feeds the first port, no region wraps that output for it,
and the second port belongs to the boundary. -/
def LooksThrough (graph : Graph) (charts : List Chart) (first second : InputId) :
    Prop :=
  ∃ out boundary, graph.Feeds out first ∧ (∀ chart ∈ charts, ¬ chart.2.Leaves out first) ∧
    graph.outputOwner? out = some boundary ∧ graph.isBoundary boundary = true ∧
    graph.inputOwner? second = some boundary

/-- The links that are made lead from the block outputs that the search finds. -/
theorem Regions.exists_linkPairs (regions : Regions) (G : Graph) (W : Wiring) :
    ∃ pairs, regions.link G W = W.linkPairs pairs ∧ ∀ exit entry,
      (exit, entry) ∈ pairs ↔ (∃ region ∈ regions.all, entry ∈ region.inputs) ∧
        ∃ port, W.inputPort? entry = some port ∧ exit ∈ (regions.producers W).feeding G port := by
  refine ⟨_, rfl, fun exit entry => ?_⟩
  rw [mem_flatMap]
  constructor
  · rintro ⟨other, own, made⟩
    split at made
    · next port wraps =>
      obtain ⟨exit', fed, eq⟩ := mem_map.mp made
      cases eq
      exact ⟨mem_flatMap.mp own, port, wraps, fed⟩
    · cases made
  · rintro ⟨own, port, wraps, fed⟩
    refine ⟨entry, mem_flatMap.mpr own, ?_⟩
    rw [wraps]
    exact mem_map.mpr ⟨exit, fed, rfl⟩

section Producers

theorem mem_foldl_producers
    (all : List (OutputId × BlockOutputId × InputSet)) (producers : Producers)
    (out : OutputId) (entry : BlockOutputId × InputSet) :
    entry ∈ (all.foldl (fun producers (port, exit, targets) =>
      producers.insert port (producers.getD port [] ++ [(exit, targets)])) producers).getD out [] ↔
      entry ∈ producers.getD out [] ∨ (out, entry) ∈ all := by
  induction all generalizing producers with
  | nil => simp
  | cons first rest ih =>
    obtain ⟨port, exit, targets⟩ := first
    rw [foldl_cons, ih]
    simp only [ExtTreeMap.getD_eq_getD_getElem?, HandleMap.getElem?_insert, mem_cons, Prod.ext_iff]
    by_cases eq : port = out
    · subst eq
      simp [or_assoc, Prod.ext_iff]
    · simp [eq, Ne.symm eq]

variable {W : Wiring} {regions : Regions} {charts : List Chart}
  (charted : Charted W charts) (mem : regions.all = charts.map Prod.fst)

include charted mem

/-- The block outputs between two ports are those of regions that data leaves
through the one port for the other. -/
theorem mem_between : exit ∈ (regions.producers W).between out input ↔
    ∃ chart ∈ charts, W.exitOf exit = some (chart.1.id, out) ∧ chart.2.Leaves out input := by
  have produced : ∀ targets, (exit, targets) ∈ (regions.producers W).getD out [] ↔
      ∃ chart ∈ charts, W.exitOf exit = some (chart.1.id, out) ∧
        chart.1.targets[exit]? = some targets := by
    intro targets
    rw [Regions.producers, mem_foldl_producers, mem]
    simp only [ExtTreeMap.getD_empty, not_mem_nil, false_or, mem_flatMap, mem_map,
      mem_filterMap, exists_exists_and_eq_and]
    constructor
    · rintro ⟨chart, has, other, own, made⟩
      obtain ⟨port, wraps, made⟩ := Option.bind_eq_some_iff.mp made
      obtain ⟨targets', got, made⟩ := Option.bind_eq_some_iff.mp made
      cases made
      obtain ⟨port', wraps'⟩ := ((charted.follows chart has).exits _).mp own
      rw [Wiring.outputPort?_eq, wraps'] at wraps
      cases wraps
      exact ⟨chart, has, wraps', got⟩
    · rintro ⟨chart, has, wraps, got⟩
      refine ⟨chart, has, exit, ((charted.follows chart has).exits exit).mpr ⟨_, wraps⟩, ?_⟩
      rw [Wiring.outputPort?_eq, wraps, got]
      rfl
  rw [Producers.between, mem_filterMap]
  constructor
  · rintro ⟨⟨other, targets⟩, has, kept⟩
    simp only [Option.ite_none_right_eq_some, Option.some.injEq] at kept
    obtain ⟨inside, rfl⟩ := kept
    obtain ⟨chart, has, wraps, got⟩ := (produced targets).mp has
    refine ⟨chart, has, wraps, targets, ?_, contains_iff_mem.mp inside⟩
    exact ((charted.follows chart has).leaves out targets).mpr ⟨other, wraps, got⟩
  · rintro ⟨chart, has, wraps, targets, got, inside⟩
    obtain ⟨targets', got'⟩ := (charted.follows chart has).targeted exit out wraps
    have eq := ((charted.follows chart has).leaves out targets').mpr ⟨exit, wraps, got'⟩
    rw [got] at eq
    cases eq
    refine ⟨(exit, targets), (produced targets).mpr ⟨chart, has, wraps, got'⟩, ?_⟩
    simp [inside]

private theorem between_isEmpty : ((regions.producers W).between out input).isEmpty ↔
    ∀ chart ∈ charts, ¬ chart.2.Leaves out input := by
  rw [List.isEmpty_iff, eq_nil_iff_forall_not_mem]
  simp only [mem_between charted mem, not_exists, not_and]
  constructor
  · rintro none chart has ⟨targets, got, inside⟩
    obtain ⟨exit, wraps, -⟩ := ((charted.follows chart has).leaves out targets).mp got
    exact none exit chart has wraps ⟨targets, got, inside⟩
  · exact fun none exit chart has _ => none chart has

variable {G : Graph} (wf : G.Consistent)

include wf

private theorem mem_behind : second ∈ (regions.producers W).behind G first ↔
    LooksThrough G charts first second := by
  rw [Producers.behind, mem_gather]
  constructor
  · rintro ⟨out, fed, inside⟩
    split at inside
    · next unwrapped =>
      split at inside
      · next node got =>
        split at inside
        · next marked =>
          obtain ⟨owner, owned, got⟩ := Option.bind_eq_some_iff.mp got
          refine ⟨out, owner, (wf.agree _ _).mpr (mem_toList.mp fed),
            (between_isEmpty charted mem).mp unwrapped, owned, ?_, ?_⟩
          · simp [Graph.isBoundary, got, marked]
          · exact wf.input_of_mem got (mem_of.mp inside)
        · exact (not_mem_empty inside).elim
      · exact (not_mem_empty inside).elim
    · exact (not_mem_empty inside).elim
  · rintro ⟨out, owner, feeds, unwrapped, owned, marked, own⟩
    refine ⟨out, mem_toList.mpr ((wf.agree _ _).mp feeds), ?_⟩
    obtain ⟨node, got, has⟩ := wf.node_of_input own
    rw [if_pos ((between_isEmpty charted mem).mpr unwrapped), owned]
    have marked' : node.isBoundary := by simpa [Graph.isBoundary, got] using marked
    simp [got, marked', has]

private theorem leads_behind : Leads ((regions.producers W).behind G) first second ↔
    ReflTransGen (LooksThrough G charts) first second := by
  simp only [Leads, mem_behind charted mem wf]

/-- The block outputs that feed a port are those that data leaves through for a
port that the search finds. -/
theorem mem_feeding {owner : NodeId} (owned : G.inputOwner? input = some owner) :
    exit ∈ (regions.producers W).feeding G input ↔
      ∃ chart ∈ charts, ∃ out got, W.exitOf exit = some (chart.1.id, out) ∧
        G.Feeds out got ∧ chart.2.Leaves out got ∧
          ReflTransGen (LooksThrough G charts) input got := by
  have has : ∀ port owner, G.inputOwner? port = some owner → port ∈ G.inputs.keys.toFinset := by
    intro port owner owned
    obtain ⟨record, got, -⟩ := Option.map_eq_some_iff.mp owned
    rw [mem_toFinset, ExtTreeMap.mem_keys, ← ExtTreeMap.isSome_getElem?_iff_mem, got]
    rfl
  have searched : ∀ port, port ∈ spread ((regions.producers W).behind G)
      G.inputs.size ∅ (.of [input]) ↔ ReflTransGen (LooksThrough G charts) input port := by
    intro port
    rw [@mem_spread_iff _ _ G.inputs.keys.toFinset]
    · simp only [mem_of, mem_singleton, exists_eq_left]
      exact leads_behind charted mem wf
    · intro handle member
      rw [mem_of, mem_singleton] at member
      exact member ▸ has input owner owned
    · intro handle _ next member
      obtain ⟨-, boundary, -, -, -, -, own⟩ := (mem_behind charted mem wf).mp member
      exact has next boundary own
    · rw [toFinset_card_of_nodup ExtTreeMap.nodup_keys, ExtTreeMap.length_keys]
  simp only [Producers.feeding, mem_flatMap, mem_toList, searched,
    mem_between charted mem, ← wf.agree]
  constructor
  · rintro ⟨got, led, out, feeds, chart, member, wraps, leaves⟩
    exact ⟨chart, member, out, got, wraps, feeds, leaves, led⟩
  · rintro ⟨chart, member, out, got, wraps, feeds, leaves, led⟩
    exact ⟨got, led, out, feeds, chart, member, wraps, leaves⟩

/-- Linking keeps the block ports and links those between which data flows. -/
theorem link_spec (owned : ∀ chart ∈ charts, ∀ port ∈ chart.2.inputs,
      ∃ owner, G.inputOwner? port = some owner) :
    (regions.link G W).Consistent ∧ W.SameFrame (regions.link G W) ∧
      ∀ exit entry source target out input, source ∈ charts → target ∈ charts →
        W.exitOf exit = some (source.1.id, out) →
        W.entryOf entry = some (target.1.id, input) →
        ((regions.link G W).Linked exit entry ↔ ∃ got, G.Feeds out got ∧
          source.2.Leaves out got ∧ ReflTransGen (LooksThrough G charts) input got) := by
  obtain ⟨pairs, linked, linking⟩ := regions.exists_linkPairs G W
  have unique : ∀ first ∈ charts, ∀ second ∈ charts, first.1.id = second.1.id →
      first = second := fun first has second has' =>
    inj_on_of_nodup_map charted.nodup has has'
  have mem_pairs : ∀ exit entry, (exit, entry) ∈ pairs ↔
      ∃ target ∈ charts, ∃ input, W.entryOf entry = some (target.1.id, input) ∧
        exit ∈ (regions.producers W).feeding G input := by
    intro exit entry
    simp only [linking, mem, mem_map, exists_exists_and_eq_and, Wiring.inputPort?_eq]
    constructor
    · rintro ⟨⟨target, has, own⟩, port, led, fed⟩
      obtain ⟨input, wraps⟩ := ((charted.follows target has).entries entry).mp own
      rw [wraps] at led
      cases led
      exact ⟨target, has, input, wraps, fed⟩
    · rintro ⟨target, has, input, wraps, fed⟩
      exact ⟨⟨target, has, ((charted.follows target has).entries entry).mpr ⟨input, wraps⟩⟩,
        input, by rw [wraps]; rfl, fed⟩
  have entered : ∀ target ∈ charts, ∀ entry input, W.entryOf entry = some (target.1.id, input) →
        ∃ owner, G.inputOwner? input = some owner := fun target has entry input wraps =>
    owned target has input (((charted.follows target has).enters input).mpr ⟨entry, wraps⟩)
  have linkable : ∀ pair ∈ pairs, W.Linkable pair := by
    rintro ⟨exit, entry⟩ has
    obtain ⟨target, has, input, wraps, fed⟩ := (mem_pairs exit entry).mp has
    obtain ⟨owner, own⟩ := entered target has entry input wraps
    obtain ⟨chart, -, out, -, wraps', -⟩ := (mem_feeding charted mem wf own).mp fed
    exact ⟨⟨_, wraps'⟩, _, wraps⟩
  rw [linked]
  refine ⟨charted.wf.linkPairs linkable, Wiring.sameFrame_linkPairs _ _, ?_⟩
  intro exit entry source target out input sourced targeted left entered'
  rw [Wiring.linked_linkPairs linkable, or_iff_right (charted.unlinked exit entry), mem_pairs]
  constructor
  · rintro ⟨target', has, input', wraps, fed⟩
    obtain rfl : input = input' := congrArg Prod.snd (Option.mem_unique entered' wraps)
    obtain ⟨owner, own⟩ := entered target targeted entry input entered'
    obtain ⟨chart, has', out', got, wraps, feeds, leaves, led⟩ :=
      (mem_feeding charted mem wf own).mp fed
    rw [left] at wraps
    have eq := unique source sourced chart has' (congrArg Prod.fst (Option.some.inj wraps))
    subst eq
    cases wraps
    exact ⟨got, feeds, leaves, led⟩
  · rintro ⟨got, feeds, leaves, led⟩
    obtain ⟨owner, own⟩ := entered target targeted entry input entered'
    exact ⟨target, targeted, input, entered', (mem_feeding charted mem wf own).mpr
      ⟨source, sourced, out, got, left, feeds, leaves, led⟩⟩

end Producers

end Staging
