import Staging.Plan.Regions
import Staging.Proofs.Links
import Staging.Proofs.Walks

/-! # Outlines of regions

An outline says which nodes a region has, through which ports data enters it,
and through which ports data leaves it for which others. A normalized graph is
cut into regions that follow the outlines of its spans, and each block port
belongs to exactly one of them.
-/

namespace Staging

open Std List ExtTreeSet HandleSet HandleMap

variable {site : Site} {targets : InputSet} {W pre post : Wiring} {region : Region}
  {G : Graph} {span : Span} {withStartings : Bool} {out : OutputId} {charts : List Chart}

/-- The nodes of a region and the ports through which data enters and leaves it. -/
structure Outline where
  nodes : NodeSet
  inputs : InputSet
  outputs : HandleMap .output InputSet

/-- A region with the outline that it was cut out for. -/
abbrev Chart := Region × Outline

/-- Data leaves through the output port for the input port. -/
def Outline.Leaves (outline : Outline) (out : OutputId) (input : InputId) : Prop :=
  ∃ targets, outline.outputs[out]? = some targets ∧ input ∈ targets

/-- The block ports of a region are those of its block in the wiring, and they
wrap the ports of the outline. -/
structure Region.Follows (region : Region) (wiring : Wiring) (outline : Outline) : Prop where
  nodes : region.nodes = outline.nodes
  idBelow : region.id.raw < wiring.next
  entries : ∀ entry, entry ∈ region.inputs ↔ ∃ port, wiring.entryOf entry = some (region.id, port)
  exits : ∀ exit, exit ∈ region.outputs ↔ ∃ port, wiring.exitOf exit = some (region.id, port)
  entriesNodup : region.inputs.Nodup
  exitsNodup : region.outputs.Nodup
  enters : ∀ port, port ∈ outline.inputs ↔ ∃ entry, wiring.entryOf entry = some (region.id, port)
  leaves : ∀ port targets, outline.outputs[port]? = some targets ↔
    ∃ exit, wiring.exitOf exit = some (region.id, port) ∧ region.targets[exit]? = some targets
  targeted : ∀ exit port, wiring.exitOf exit = some (region.id, port) →
    ∃ targets, region.targets[exit]? = some targets

namespace Wiring

/-- A block port with the next handle wraps the first port, and later ones the other ports. -/
private theorem wraps_cons_iff {role : Role} {β : Type} {old : Handle role → Option (BlockId × β)}
    {next : Nat} (unused : old ⟨next⟩ = none) {block : BlockId} {port : β} {rest : List β}
    (handle : Handle role) (wraps : BlockId × β) :
    ((if handle = ⟨next⟩ then some (block, port) else old handle) = some wraps ∨
      wraps.1 = block ∧ next + 1 ≤ handle.raw ∧ rest[handle.raw - (next + 1)]? = some wraps.2) ↔
    old handle = some wraps ∨ wraps.1 = block ∧ next ≤ handle.raw ∧
      (port :: rest)[handle.raw - next]? = some wraps.2 := by
  by_cases first : handle = ⟨next⟩
  · subst first
    have later : ¬ next + 1 ≤ next := by omega
    simp only [↓reduceIte, later, false_and, and_false, or_false, unused, reduceCtorEq,
      false_or, Nat.sub_self, getElem?_cons_zero, Nat.le_refl, true_and]
    simp only [Option.some.injEq, Prod.ext_iff, eq_comm]
  · rw [if_neg first]
    refine or_congr_right (and_congr_right fun _ => ?_)
    have ne : handle.raw ≠ next := fun eq => first (Handle.ext eq)
    constructor
    · rintro ⟨above, got⟩
      refine ⟨by omega, ?_⟩
      rw [show handle.raw - next = (handle.raw - (next + 1)) + 1 by omega, getElem?_cons_succ]
      exact got
    · rintro ⟨above, got⟩
      refine ⟨by omega, ?_⟩
      rw [show handle.raw - next = (handle.raw - (next + 1)) + 1 by omega,
        getElem?_cons_succ] at got
      exact got

/-- Block ports that are added one after the other have consecutive handles. -/
private theorem foldl_add_spec {role : Role} {β : Type} {block : BlockId} (inv : Wiring → Prop)
    {add : Wiring → β → Wiring} {of : Wiring → Handle role → Option (BlockId × β)}
    (below : ∀ {W : Wiring}, W.Consistent →
      ∀ handle wraps, of W handle = some wraps → handle.raw < W.next)
    (step : ∀ {W : Wiring} port, W.Consistent → inv W → (add W port).Consistent ∧ inv (add W port) ∧
        (add W port).next = W.next + 1 ∧ ∀ handle, of (add W port) handle =
          if handle = ⟨W.next⟩ then some (block, port) else of W handle)
    (wf : W.Consistent) (start : inv W) (ports : List β) (made : List (Handle role)) :
    ∃ post, ports.foldl (fun (made, W) port => (made ++ [⟨W.next⟩], add W port))
        (made, W) = (made ++ Handle.consecutive W.next ports.length, post) ∧
      post.Consistent ∧ inv post ∧ post.next = W.next + ports.length ∧
      ∀ handle wraps, of post handle = some wraps ↔ of W handle = some wraps ∨
        wraps.1 = block ∧ W.next ≤ handle.raw ∧ ports[handle.raw - W.next]? = some wraps.2 := by
  induction ports generalizing W made with
  | nil => exact ⟨W, by simp [Handle.consecutive], wf, start, rfl, by simp⟩
  | cons port rest ih =>
    obtain ⟨kept, holds, grown, wraps⟩ := step port wf start
    obtain ⟨post, eq, wf', holds', next, wraps'⟩ := ih kept holds (made ++ [⟨W.next⟩])
    refine ⟨post, ?_, wf', holds', ?_, fun handle pair => ?_⟩
    · rw [foldl_cons, eq, grown, append_assoc]
      rfl
    · rw [next, grown, length_cons, Nat.add_assoc, Nat.add_comm 1]
    · have unused : of W ⟨W.next⟩ = none := Option.eq_none_iff_forall_ne_some.mpr fun wraps got =>
          Nat.lt_irrefl _ (below wf _ wraps got)
      rw [wraps', wraps, grown]
      exact wraps_cons_iff unused handle pair

/-- Block inputs are added with consecutive handles, in the order of the ports. -/
theorem addInputs_spec (wf : W.Consistent) (block : BlockId) (ports : List InputId) :
    ∃ post, W.addInputs block ports = (Handle.consecutive W.next ports.length, post) ∧
      post.Consistent ∧ (post.exitOf = W.exitOf ∧
        ∀ exit entry, post.Linked exit entry ↔ W.Linked exit entry) ∧
      post.next = W.next + ports.length ∧
      ∀ entry wraps, post.entryOf entry = some wraps ↔ W.entryOf entry = some wraps ∨
        wraps.1 = block ∧ W.next ≤ entry.raw ∧ ports[entry.raw - W.next]? = some wraps.2 :=
  foldl_add_spec _ Consistent.entryBelow (fun port wf same =>
    ⟨wf.addInput block port, same, rfl, entryOf_addInput _ _ _⟩) wf ⟨rfl, fun _ _ => .rfl⟩ ports []

/-- Block outputs are added with consecutive handles, in the order of the ports. -/
theorem addOutputs_spec (wf : W.Consistent) (block : BlockId) (ports : List OutputId) :
    ∃ post, W.addOutputs block ports = (Handle.consecutive W.next ports.length, post) ∧
      post.Consistent ∧ (post.entryOf = W.entryOf ∧
        ∀ exit entry, post.Linked exit entry ↔ W.Linked exit entry) ∧
      post.next = W.next + ports.length ∧
      ∀ exit wraps, post.exitOf exit = some wraps ↔ W.exitOf exit = some wraps ∨
        wraps.1 = block ∧ W.next ≤ exit.raw ∧ ports[exit.raw - W.next]? = some wraps.2 :=
  foldl_add_spec _ Consistent.exitBelow (fun port wf same =>
    ⟨wf.addOutput block port, ⟨same.1, fun exit entry => (linked_addOutput wf _ _ _ _).trans
      (same.2 exit entry)⟩, rfl, exitOf_addOutput _ _ _⟩) wf ⟨rfl, fun _ _ => .rfl⟩ ports []

end Wiring

/-- The block ports of a wiring are those of regions that follow outlines. -/
structure Plotted (wiring : Wiring) (charts : List Chart) : Prop where
  wf : wiring.Consistent
  follows : ∀ chart ∈ charts, chart.1.Follows wiring chart.2
  nodup : (charts.map fun chart => chart.1.id).Nodup
  entryOwned : ∀ entry wrapped, wiring.entryOf entry = some wrapped →
    ∃ chart ∈ charts, chart.1.id = wrapped.1
  exitOwned : ∀ exit wrapped, wiring.exitOf exit = some wrapped →
    ∃ chart ∈ charts, chart.1.id = wrapped.1

/-- Links do not matter to regions. -/
theorem Plotted.relink (plotted : Plotted pre charts)
    (eq : pre.SameFrame post) (wf : post.Consistent) : Plotted post charts := by
  refine ⟨wf, fun chart mem => ?_,
    plotted.nodup, by simpa only [eq.entryOf] using plotted.entryOwned,
    by simpa only [eq.exitOf] using plotted.exitOwned⟩
  have follows := plotted.follows chart mem
  refine ⟨follows.nodes, eq.next ▸ follows.idBelow, ?_, ?_, follows.entriesNodup,
    follows.exitsNodup, ?_, ?_, ?_⟩
  · simpa only [eq.entryOf] using follows.entries
  · simpa only [eq.exitOf] using follows.exits
  · simpa only [eq.entryOf] using follows.enters
  · simpa only [eq.exitOf] using follows.leaves
  · simpa only [eq.exitOf] using follows.targeted

/-- Moreover there are no links yet. -/
structure Charted (wiring : Wiring) (charts : List Chart) : Prop
    extends Plotted wiring charts where
  unlinked : ∀ exit entry, ¬ wiring.Linked exit entry

theorem charted_empty : Charted {} [] where
  wf :=
    { entryBelow := fun entry wraps got => by simp [Wiring.entryOf] at got
      exitBelow := fun exit wraps got => by simp [Wiring.exitOf] at got
      agree := fun exit entry => by simp [Wiring.Linked, Wiring.targets, Wiring.sources] }
  follows chart mem := by simp at mem
  nodup := nodup_nil
  entryOwned entry wraps got := by simp [Wiring.entryOf] at got
  exitOwned exit wraps got := by simp [Wiring.exitOf] at got
  unlinked exit entry := by simp [Wiring.Linked, Wiring.targets]

theorem Charted.perm {charts' : List Chart} (charted : Charted W charts)
    (permuted : charts.Perm charts') : Charted W charts' where
  wf := charted.wf
  follows chart mem := charted.follows chart (permuted.mem_iff.mpr mem)
  nodup := (permuted.map _).nodup_iff.mp charted.nodup
  entryOwned entry wraps got := by
    obtain ⟨chart, mem, eq⟩ := charted.entryOwned entry wraps got
    exact ⟨chart, permuted.mem_iff.mp mem, eq⟩
  exitOwned exit wraps got := by
    obtain ⟨chart, mem, eq⟩ := charted.exitOwned exit wraps got
    exact ⟨chart, permuted.mem_iff.mp mem, eq⟩
  unlinked := charted.unlinked

namespace Region

/-- The wiring has grown by the block ports of a new region. -/
structure Extends (region : Region) (pre post : Wiring) : Prop where
  wf : post.Consistent
  fresh : region.id = ⟨pre.next⟩
  next : pre.next < post.next
  linked : ∀ exit entry, post.Linked exit entry ↔ pre.Linked exit entry
  entryOf : ∀ entry wrapped, wrapped.1 ≠ region.id →
    (post.entryOf entry = some wrapped ↔ pre.entryOf entry = some wrapped)
  exitOf : ∀ exit wrapped, wrapped.1 ≠ region.id →
    (post.exitOf exit = some wrapped ↔ pre.exitOf exit = some wrapped)

/-- A region that follows an outline still does when another region is added. -/
theorem Follows.extend {new : Region} {outline : Outline} (follows : region.Follows pre outline)
    (grown : new.Extends pre post) : region.Follows post outline := by
  have other : region.id ≠ new.id := by
    intro eq
    have below := follows.idBelow
    rw [eq, grown.fresh] at below
    exact Nat.lt_irrefl _ below
  have entryOf := fun entry port => grown.entryOf entry (region.id, port) other
  have exitOf := fun exit port => grown.exitOf exit (region.id, port) other
  refine ⟨follows.nodes, Nat.lt_trans follows.idBelow grown.next, ?_, ?_,
    follows.entriesNodup, follows.exitsNodup, ?_, ?_, ?_⟩
  · simpa only [entryOf] using follows.entries
  · simpa only [exitOf] using follows.exits
  · simpa only [entryOf] using follows.enters
  · simpa only [exitOf] using follows.leaves
  · simpa only [exitOf] using follows.targeted

end Region

/-- A region more is charted by its own outline. -/
theorem Charted.snoc (charted : Charted pre charts)
    {outline : Outline} (grown : region.Extends pre post)
    (follows : region.Follows post outline) : Charted post (charts ++ [(region, outline)]) where
  wf := grown.wf
  follows chart has := by
    rcases mem_append.mp has with old | new
    · exact (charted.follows chart old).extend grown
    · rw [mem_singleton] at new
      subst new
      exact follows
  nodup := by
    rw [map_append, map_singleton, nodup_append]
    refine ⟨charted.nodup, nodup_singleton _, ?_⟩
    intro id has other new eq
    rw [mem_singleton] at new
    obtain ⟨earlier, mem, rfl⟩ := mem_map.mp has
    have below := (charted.follows earlier mem).idBelow
    rw [eq, new, grown.fresh] at below
    exact Nat.lt_irrefl _ below
  entryOwned entry wraps got := by
    by_cases own : wraps.1 = region.id
    · exact ⟨_, mem_append_right _ (mem_singleton_self _), own.symm⟩
    · obtain ⟨earlier, mem, eq⟩ :=
        charted.entryOwned entry wraps ((grown.entryOf entry wraps own).mp got)
      exact ⟨earlier, mem_append_left _ mem, eq⟩
  exitOwned exit wraps got := by
    by_cases own : wraps.1 = region.id
    · exact ⟨_, mem_append_right _ (mem_singleton_self _), own.symm⟩
    · obtain ⟨earlier, mem, eq⟩ :=
        charted.exitOwned exit wraps ((grown.exitOf exit wraps own).mp got)
      exact ⟨earlier, mem_append_left _ mem, eq⟩
  unlinked exit entry linked := charted.unlinked exit entry ((grown.linked exit entry).mp linked)

namespace Region

/-- Where the block ports of a new region stand and what they wrap. -/
structure Placing (region : Region) (pre post : Wiring) (outline : Outline) : Prop where
  wf : post.Consistent
  fresh : region.id = ⟨pre.next⟩
  nodes : region.nodes = outline.nodes
  linked : ∀ exit entry, post.Linked exit entry ↔ pre.Linked exit entry
  inputs : region.inputs = Handle.consecutive (pre.next + 1) outline.inputs.toList.length
  outputs : region.outputs = Handle.consecutive (pre.next + 1 + outline.inputs.toList.length)
      outline.outputs.toList.length
  next : post.next = pre.next + 1 + outline.inputs.toList.length +
    outline.outputs.toList.length
  entryOf : ∀ entry wrapped, post.entryOf entry = some wrapped ↔
    pre.entryOf entry = some wrapped ∨ wrapped.1 = region.id ∧ pre.next + 1 ≤ entry.raw ∧
        outline.inputs.toList[entry.raw - (pre.next + 1)]? = some wrapped.2
  exitOf : ∀ exit wrapped, post.exitOf exit = some wrapped ↔
    pre.exitOf exit = some wrapped ∨ wrapped.1 = region.id ∧
      pre.next + 1 + outline.inputs.toList.length ≤ exit.raw ∧
        (outline.outputs.toList.map Prod.fst)[exit.raw -
          (pre.next + 1 + outline.inputs.toList.length)]? = some wrapped.2
  targets : region.targets =
    ExtTreeMap.ofList (region.outputs.zip (outline.outputs.toList.map Prod.snd))

/-- A region is made of an outline whose inputs are uniform. -/
theorem ofPorts_eq_ok (wf : site.wiring.Consistent) {outline : Outline}
    (uniform : checkUniform site.graph outline.inputs = .ok ()) :
    ∃ region W, ofPorts site outline.nodes outline.inputs outline.outputs = .ok (region, W) ∧
        region.Placing site.wiring W outline := by
  let id : BlockId := ⟨site.wiring.next⟩
  obtain ⟨entered, added, kept, ⟨exitsKept, links⟩, next, entryOf⟩ :=
    Wiring.addInputs_spec wf.newBlock id outline.inputs.toList
  obtain ⟨left, added', kept', ⟨entriesKept, links'⟩, next', exitOf⟩ :=
    Wiring.addOutputs_spec kept id outline.outputs.keys
  have started : site.wiring.newBlock.2.next = site.wiring.next + 1 := rfl
  have length : outline.outputs.keys.length = outline.outputs.toList.length := by
    rw [← ExtTreeMap.map_fst_toList_eq_keys, length_map]
  rw [length] at added' next'
  have new : site.wiring.newBlock = (id, site.wiring.newBlock.2) := rfl
  refine ⟨_, left, by rw [ofPorts, uniform, bind_of_ok rfl, new]; simp only [added, added']; rfl,
    ?_⟩
  refine ⟨kept', rfl, rfl, fun exit entry => (links' exit entry).trans (links exit entry),
    rfl, ?_, ?_, ?_, ?_, rfl⟩
  · rw [next]
    rfl
  · rw [next', next, started]
  · intro entry wraps
    rw [entriesKept, entryOf]
    rfl
  · intro exit wraps
    rw [exitOf, exitsKept, next, started, ExtTreeMap.map_fst_toList_eq_keys]
    rfl

/-- A new region follows its outline if its handle names no other block. -/
theorem Placing.follows {outline : Outline} (placing : region.Placing pre post outline)
    (noEntry : ∀ entry port, pre.entryOf entry ≠ some (region.id, port))
    (noExit : ∀ exit port, pre.exitOf exit ≠ some (region.id, port)) :
    region.Follows post outline := by
  have ownEntry : ∀ entry port, post.entryOf entry = some (region.id, port) ↔
      pre.next + 1 ≤ entry.raw ∧
        outline.inputs.toList[entry.raw - (pre.next + 1)]? = some port := by
    intro entry port
    rw [placing.entryOf]
    simp [noEntry]
  have ownExit : ∀ exit port, post.exitOf exit = some (region.id, port) ↔
      pre.next + 1 + outline.inputs.toList.length ≤ exit.raw ∧
        (outline.outputs.toList.map Prod.fst)[exit.raw -
          (pre.next + 1 + outline.inputs.toList.length)]? = some port := by
    intro exit port
    rw [placing.exitOf]
    simp [noExit]
  -- the `place`-th exit wraps the `place`-th output of the outline and has its targets
  have targeted : ∀ (exit : BlockOutputId) targets, region.targets[exit]? = some targets ↔
      pre.next + 1 + outline.inputs.toList.length ≤ exit.raw ∧
        (outline.outputs.toList.map Prod.snd)[exit.raw -
          (pre.next + 1 + outline.inputs.toList.length)]? = some targets := by
    intro exit targets
    have keys : ((region.outputs.zip (outline.outputs.toList.map Prod.snd)).map
        Prod.fst).Nodup := by
      rw [map_fst_zip (by simp [placing.outputs]), placing.outputs]
      exact Handle.nodup_consecutive _ _
    rw [placing.targets, getElem?_ofList_iff keys, mem_iff_getElem?]
    simp only [getElem?_zip_eq_some, placing.outputs, Handle.getElem?_consecutive]
    constructor
    · rintro ⟨place, here, got⟩
      split at here
      · cases here
        refine ⟨by simp, ?_⟩
        simpa using got
      · cases here
    · rintro ⟨above, got⟩
      have inside := (List.getElem?_eq_some_iff.mp got).1
      rw [length_map] at inside
      refine ⟨_, ?_, got⟩
      rw [if_pos inside]
      congr 1
      ext
      simp only
      omega
  refine ⟨placing.nodes, ?_, ?_, ?_, ?_, ?_, ?_, ?_, ?_⟩
  · rw [placing.fresh, placing.next]
    simp only
    omega
  · intro entry
    simp only [placing.inputs, Handle.mem_consecutive, ownEntry]
    constructor
    · rintro ⟨above, below⟩
      exact ⟨_, above, getElem?_eq_getElem (by omega)⟩
    · rintro ⟨port, above, got⟩
      have := (List.getElem?_eq_some_iff.mp got).1
      exact ⟨above, by omega⟩
  · intro exit
    simp only [placing.outputs, Handle.mem_consecutive, ownExit]
    constructor
    · rintro ⟨above, below⟩
      exact ⟨_, above, getElem?_eq_getElem (by rw [length_map]; omega)⟩
    · rintro ⟨port, above, got⟩
      have := (List.getElem?_eq_some_iff.mp got).1
      rw [length_map] at this
      exact ⟨above, by omega⟩
  · rw [placing.inputs]
    exact Handle.nodup_consecutive _ _
  · rw [placing.outputs]
    exact Handle.nodup_consecutive _ _
  · intro port
    simp only [ownEntry]
    rw [← mem_toList, mem_iff_getElem?]
    constructor
    · rintro ⟨place, got⟩
      exact ⟨⟨pre.next + 1 + place⟩, by simp, by simpa using got⟩
    · rintro ⟨entry, -, got⟩
      exact ⟨_, got⟩
  · intro port targets
    simp only [ownExit, targeted]
    rw [← mem_toList_iff, mem_iff_getElem?]
    simp only [getElem?_map, Option.map_eq_some_iff]
    constructor
    · rintro ⟨place, got⟩
      refine ⟨⟨pre.next + 1 + outline.inputs.toList.length + place⟩, ?_, ?_⟩
      · exact ⟨by simp, (port, targets), by simpa using got, rfl⟩
      · exact ⟨by simp, (port, targets), by simpa using got, rfl⟩
    · rintro ⟨exit, ⟨-, pair, got, rfl⟩, -, pair', got', rfl⟩
      rw [got] at got'
      cases got'
      exact ⟨_, got⟩
  · intro exit port got
    obtain ⟨above, got⟩ := (ownExit exit port).mp got
    have inside := (List.getElem?_eq_some_iff.mp got).1
    exact ⟨_, (targeted exit _).mpr ⟨above, getElem?_eq_getElem (by simpa using inside)⟩⟩

end Region

/-- A region that is made is charted. -/
theorem Charted.ofPorts (charted : Charted site.wiring charts) {outline : Outline} {W : Wiring}
    (run : Region.ofPorts site outline.nodes outline.inputs outline.outputs = .ok (region, W)) :
    Charted W (charts ++ [(region, outline)]) := by
  obtain ⟨_, uniform, -⟩ := of_bind run
  obtain ⟨_, _, run', placing⟩ := Region.ofPorts_eq_ok charted.wf uniform
  cases run.symm.trans run'
  have unused : ∀ block, (∃ chart ∈ charts, chart.1.id = block) → block ≠ region.id := by
    rintro block ⟨chart, mem, rfl⟩ eq
    have below := (charted.follows chart mem).idBelow
    rw [eq, placing.fresh] at below
    exact Nat.lt_irrefl _ below
  refine charted.snoc ⟨placing.wf, placing.fresh, ?_, placing.linked, ?_, ?_⟩
    (placing.follows ?_ ?_)
  · rw [placing.next]
    omega
  · intro entry wraps other
    rw [placing.entryOf]
    simp [other]
  · intro exit wraps other
    rw [placing.exitOf]
    simp [other]
  · exact fun entry port got => unused _ (charted.entryOwned entry _ got) rfl
  · exact fun exit port got => unused _ (charted.exitOwned exit _ got) rfl

/-- Input ports that all belong to shuffles, or none of which does, are uniform. -/
theorem checkUniform_eq_ok {ports : InputSet}
    (owned : ∀ port ∈ ports, ∃ owner, G.inputOwner? port = some owner)
    (uniform : (∀ port ∈ ports, ∀ owner, G.inputOwner? port = some owner →
        G.isShuffleBoundary owner) ∨
      ∀ port ∈ ports, ∀ owner, G.inputOwner? port = some owner →
        G.isShuffleBoundary owner = false) : Region.checkUniform G ports = .ok () := by
  have known : ∀ port ∈ ports.toList, (do
      return G.isShuffleBoundary (← G.input port).owner : Except Fault Bool) =
        .ok ((G.inputOwner? port).any G.isShuffleBoundary) := by
    intro port mem
    obtain ⟨owner, own⟩ := owned port (mem_toList.mp mem)
    obtain ⟨record, got, eq⟩ := Option.map_eq_some_iff.mp own
    rw [Graph.input, got, own, ← eq]
    rfl
  rw [Region.checkUniform, mapM_eq_ok known]
  suffices ((ports.toList.map fun port =>
      (G.inputOwner? port).any G.isShuffleBoundary).all id ||
      (ports.toList.map fun port =>
        (G.inputOwner? port).any G.isShuffleBoundary).all not) = true by
    simp only [bind, Except.bind, this]
    rfl
  rw [Bool.or_eq_true, all_map, all_map, all_eq_true, all_eq_true]
  refine uniform.imp (fun all port mem => ?_) fun none port mem => ?_
  · obtain ⟨owner, own⟩ := owned port (mem_toList.mp mem)
    simpa [own] using all port (mem_toList.mp mem) owner own
  · obtain ⟨owner, own⟩ := owned port (mem_toList.mp mem)
    simpa [own] using none port (mem_toList.mp mem) owner own

/-! ## Regions along spans -/

namespace Span

/-- The outline of the region along a span whose arrivals stay outside. -/
def outline (span : Span) (graph : Graph) (withStartings : Bool) : Outline :=
  let content := span.content withStartings false
  { nodes := content
    inputs := gather span.startings.toList (entryPorts graph content withStartings)
    outputs := (span.arrivals.toList.flatMap (exitPorts graph content false)).foldl addTargets ∅ }

theorem mem_outline_nodes {id : NodeId} : id ∈ (span.outline G withStartings).nodes ↔
    id ∈ span.passings ∨ withStartings ∧ id ∈ span.startings := by
  rw [outline, content]
  cases withStartings <;> simp [ExtTreeSet.mem_union_iff]

/-- Data enters behind startings that are part of the region through their inputs. -/
theorem mem_outline_inputs_within (wf : G.Consistent) {port : InputId} :
    port ∈ (span.outline G true).inputs ↔
      ∃ start ∈ span.startings, G.inputOwner? port = some start := by
  simp only [outline, mem_gather, mem_toList]
  refine exists_congr fun start => and_congr_right fun _ => ?_
  rw [entryPorts, wf.inputOwner]
  cases got : G.nodes[start]? with
  | none => simp
  | some node => simp

/-- Data enters behind other startings through the ports that they feed. -/
theorem mem_outline_inputs_behind (wf : G.Consistent) {port : InputId} :
    port ∈ (span.outline G false).inputs ↔
      (∃ owner ∈ span.passings, G.inputOwner? port = some owner) ∧
        ∃ start ∈ span.startings, ∃ out, G.outputOwner? out = some start ∧
          G.Feeds out port := by
  have content : ∀ id, id ∈ span.content false false ↔ id ∈ span.passings := by
    simp [Span.content, ExtTreeSet.mem_union_iff]
  simp only [outline, mem_gather, mem_toList]
  constructor
  · rintro ⟨start, has, entered⟩
    rw [entryPorts] at entered
    split at entered
    · exact (not_mem_empty entered).elim
    · next node got =>
      obtain ⟨out, mem, fed⟩ := mem_gather.mp entered
      obtain ⟨feeds, inside⟩ := (mem_filter_iff _).mp fed
      obtain ⟨owner, owned, inside⟩ := (Option.any_eq_true _ _).mp inside
      exact ⟨⟨owner, (content owner).mp (of_decide_eq_true inside), owned⟩, start, has,
        out, wf.output_of_mem got mem, feeds⟩
  · rintro ⟨⟨owner, inside, owned⟩, start, has, out, given, feeds⟩
    obtain ⟨node, got, mem⟩ := wf.node_of_output given
    refine ⟨start, has, ?_⟩
    rw [entryPorts, got]
    refine mem_gather.mpr ⟨out, mem, (mem_filter_iff _).mpr
      ⟨feeds, (Option.any_eq_true _ _).mpr ⟨owner, owned, ?_⟩⟩⟩
    exact decide_eq_true ((content owner).mpr inside)

private theorem leaves_foldl_addTargets (entries : List (OutputId × InputSet))
    (outputs : HandleMap .output InputSet) (out : OutputId) (input : InputId) :
    (∃ targets, (entries.foldl addTargets outputs)[out]? = some targets ∧ input ∈ targets) ↔
      (∃ targets, outputs[out]? = some targets ∧ input ∈ targets) ∨
        ∃ targets, (out, targets) ∈ entries ∧ input ∈ targets := by
  induction entries generalizing outputs with
  | nil => simp
  | cons entry rest ih =>
    obtain ⟨first, targets⟩ := entry
    rw [foldl_cons, ih]
    simp only [addTargets, getElem?_insert, ExtTreeMap.getD_eq_getD_getElem?,
      mem_cons, Prod.mk.injEq]
    by_cases eq : first = out
    · subst eq
      cases outputs[first]? with
      | none => simp [or_and_right, exists_or]
      | some known =>
        simp [or_and_right, exists_or, or_assoc, ExtTreeSet.mem_union_iff]
    · simp [eq, Ne.symm eq]

private theorem known_foldl_addTargets {entries : List (OutputId × InputSet)}
    {outputs : HandleMap .output InputSet}
    (got : (entries.foldl addTargets outputs)[out]? = some targets) :
    (∃ targets, outputs[out]? = some targets) ∨ ∃ targets, (out, targets) ∈ entries := by
  induction entries generalizing outputs with
  | nil => exact .inl ⟨targets, got⟩
  | cons entry rest ih =>
    rcases ih got with ⟨known, stored⟩ | ⟨known, mem⟩
    · rw [addTargets, getElem?_insert] at stored
      by_cases eq : entry.1 = out
      · exact .inr ⟨entry.2, by simp [← eq]⟩
      · rw [if_neg eq] at stored
        exact .inl ⟨known, stored⟩
    · exact .inr ⟨known, .tail _ mem⟩

/-- The ports through which data leaves are ports of the region. -/
theorem exists_owner_of_outline_outputs
    (got : (span.outline G withStartings).outputs[out]? = some targets) :
    ∃ owner ∈ (span.outline G withStartings).nodes, G.outputOwner? out = some owner := by
  rcases known_foldl_addTargets got with ⟨_, absent⟩ | ⟨known, mem⟩
  · simp at absent
  · obtain ⟨arrival, -, mem⟩ := mem_flatMap.mp mem
    rw [exitPorts] at mem
    split at mem
    · simp at mem
    · simp only [Bool.false_eq_true, ↓reduceIte] at mem
      obtain ⟨port, -, fed⟩ := mem_flatMap.mp mem
      obtain ⟨source, kept, eq⟩ := mem_map.mp fed
      cases eq
      obtain ⟨owner, owned, inContent⟩ := (Option.any_eq_true _ _).mp (mem_filter.mp kept).2
      exact ⟨owner, of_decide_eq_true inContent, owned⟩

/-- Data leaves through the ports of the region that feed an arrival. -/
theorem leaves_outline (wf : G.Consistent) {input : InputId} :
    (span.outline G withStartings).Leaves out input ↔ G.Feeds out input ∧
        (∃ owner ∈ (span.outline G withStartings).nodes, G.outputOwner? out = some owner) ∧
        ∃ arrival ∈ span.arrivals, G.inputOwner? input = some arrival := by
  rw [Outline.Leaves]
  change (∃ targets, (foldl addTargets ∅ _)[out]? = some targets ∧ _) ↔ _
  rw [leaves_foldl_addTargets]
  simp only [ExtTreeMap.getElem?_empty, reduceCtorEq, false_and, exists_false, false_or,
    mem_flatMap, mem_toList]
  constructor
  · rintro ⟨targets, ⟨arrival, has, mem⟩, inside⟩
    rw [exitPorts] at mem
    split at mem
    · simp at mem
    · next node got =>
      simp only [Bool.false_eq_true, ↓reduceIte] at mem
      obtain ⟨port, own, fed⟩ := mem_flatMap.mp mem
      obtain ⟨source, kept, eq⟩ := mem_map.mp fed
      cases eq
      obtain ⟨sourced, inContent⟩ := mem_filter.mp kept
      obtain ⟨owner, owned, inContent⟩ := (Option.any_eq_true _ _).mp inContent
      rw [mem_of, mem_singleton] at inside
      subst inside
      exact ⟨(wf.agree _ _).mpr (mem_toList.mp sourced),
        ⟨owner, of_decide_eq_true inContent, owned⟩, arrival, has,
        wf.input_of_mem got own⟩
  · rintro ⟨feeds, ⟨owner, inside, owned⟩, arrival, has, arrived⟩
    obtain ⟨node, got, own⟩ := wf.node_of_input arrived
    refine ⟨.of [input], ⟨arrival, has, ?_⟩, by simp⟩
    rw [exitPorts, got]
    simp only [Bool.false_eq_true, ↓reduceIte]
    refine mem_flatMap.mpr ⟨input, own, mem_map.mpr ⟨out, ?_, rfl⟩⟩
    refine mem_filter.mpr ⟨mem_toList.mpr ((wf.agree _ _).mp feeds), ?_⟩
    exact (Option.any_eq_true _ _).mpr ⟨owner, owned, decide_eq_true inside⟩

/-- A forward span with some content whose ends exist is cut along its outline. -/
theorem cut_eq (forward : span.direction = .forward)
    (filled : withStartings ∨ ∃ id, id ∈ span.passings)
    (startings : ∀ id ∈ span.startings, ∃ node, site.graph.nodes[id]? = some node)
    (arrivals : ∀ id ∈ span.arrivals, ∃ node, site.graph.nodes[id]? = some node) :
    span.cut site withStartings false =
      Region.ofPorts site (span.outline site.graph withStartings).nodes
        (span.outline site.graph withStartings).inputs
        (span.outline site.graph withStartings).outputs := by
  have content : (!withStartings && !false && span.passings.isEmpty) = false := by
    rcases filled with included | ⟨id, mem⟩
    · simp [included]
    · have := (isEmpty_eq_false_iff span.passings).mpr ⟨id, mem⟩
      simp [this]
  rw [cut, forward, content, Graph.checkNodes_eq_ok fun id mem =>
    startings id (mem_toList.mp mem), Graph.checkNodes_eq_ok fun id mem =>
    arrivals id (mem_toList.mp mem)]
  rfl

/-- What a span must have for a region to be cut along it. -/
structure Cuttable (span : Span) (graph : Graph) (withStartings : Bool) : Prop where
  forward : span.direction = .forward
  filled : withStartings = true ∨ ∃ id, id ∈ span.passings
  startings : ∀ id ∈ span.startings, ∃ node, graph.nodes[id]? = some node
  arrivals : ∀ id ∈ span.arrivals, ∃ node, graph.nodes[id]? = some node
  uniform : Region.checkUniform graph (span.outline graph withStartings).inputs = .ok ()

/-- Regions are cut along all spans that allow it, and charted. -/
theorem cutEach_eq_ok {spans : List Span}
    (cuttable : ∀ span ∈ spans, span.Cuttable G withStartings) (charted : Charted W charts) :
    ∃ new wiring', cutEach spans ⟨G, W⟩ withStartings = .ok (new.map Prod.fst, ⟨G, wiring'⟩) ∧
        new.map Prod.snd = spans.map (·.outline G withStartings) ∧
        Charted wiring' (charts ++ new) := by
  let inv (rest : List Span) (state : List Region × Site) : Prop := ∃ done new wiring',
      done ++ rest = spans ∧ state = (new.map Prod.fst, ⟨G, wiring'⟩) ∧
      new.map Prod.snd = done.map (·.outline G withStartings) ∧
      Charted wiring' (charts ++ new)
  obtain ⟨result, run, done, new, wiring', all, rfl, outlines, charted'⟩ : ∃ result,
      cutEach spans ⟨G, W⟩ withStartings = .ok result ∧ inv [] result := by
    refine foldlM_keeps inv ?_ ⟨[], [], W, rfl, rfl, rfl, by simpa using charted⟩
    rintro span rest state ⟨done, new, wiring', all, rfl, outlines, charted'⟩
    have first := cuttable span (all ▸ mem_append_right _ (.head _))
    obtain ⟨region, wiring'', made, -⟩ :=
      @Region.ofPorts_eq_ok ⟨G, wiring'⟩ charted'.wf _ first.uniform
    have cut : span.cut ⟨G, wiring'⟩ withStartings false = .ok (region, wiring'') := by
      rw [cut_eq first.forward first.filled first.startings first.arrivals]
      exact made
    refine ⟨_, bind_of_ok cut, done ++ [span],
      new ++ [(region, span.outline G withStartings)], wiring'', by simpa using all, ?_,
      by simp [outlines], append_assoc charts _ _ ▸ charted'.ofPorts made⟩
    simp
  rw [append_nil] at all
  exact ⟨new, wiring', run, all ▸ outlines, charted'⟩

end Span

end Staging
