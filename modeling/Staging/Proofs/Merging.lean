import Staging.Proofs.Grouping

/-! # Merging arranged blocks

Merging gives each block port of the merged blocks a counterpart that belongs to the new
block. Links lead between counterparts as they led between the ports, so that the same ports
are joined, and the new block is arranged in the place of the merged ones.
-/

namespace Staging

open Std Relation List HandleMap

variable {blocks : List Block} {role : Role} {base : Nat} {done made : List (Handle role)}
  {new old : Handle role} {entries : List BlockInputId} {exits : List BlockOutputId}
  {rename : Handle role → Handle role} {input : BlockInputId → BlockInputId}
  {out : BlockOutputId → BlockOutputId} {origins : Origins} {site : Site} {block id : BlockId}
  {ids : List BlockId}

/-! ## Counterparts -/

section Counterparts

variable {γ : Type}

/-- Some block ports have counterparts that belong to a new block and wrap what
they wrap. Handles from `base` on are those of counterparts. -/
structure Counterparts (pre post : Handle role → Option (BlockId × γ)) (id : BlockId)
    (base : Nat) (done : List (Handle role)) (mapping : HandleMap role (Handle role))
    (made : List (Handle role)) : Prop where
  keys : ∀ old : Handle role, (∃ new, mapping[old]? = some new) ↔ old ∈ done
  old : ∀ handle : Handle role, handle.raw < base → post handle = pre handle
  new : ∀ old new : Handle role, mapping[old]? = some new → base ≤ new.raw ∧
    ∃ block port, pre old = some (block, port) ∧ post new = some (id, port)
  onto : ∀ handle wrapped, post handle = some wrapped →
    handle.raw < base ∨ ∃ old : Handle role, mapping[old]? = some handle
  mem : ∀ handle, handle ∈ made ↔ ∃ old : Handle role, mapping[old]? = some handle
  inj : ∀ one two new : Handle role, mapping[one]? = some new → mapping[two]? = some new → one = two
  nodup : made.Nodup

namespace Counterparts

variable {pre post post' : Handle role → Option (BlockId × γ)} {id : BlockId}
  {mapping : HandleMap role (Handle role)}

theorem empty (below : ∀ handle wraps, pre handle = some wraps → handle.raw < base) :
    Counterparts pre pre id base [] ∅ [] where
  keys old := by simp
  old _ _ := rfl
  new old new got := by simp at got
  onto handle wraps got := .inl (below handle wraps got)
  mem handle := by simp
  inj one two new got := by simp at got
  nodup := nodup_nil

/-- One more counterpart. -/
theorem insert (counterparts : Counterparts pre post id base done mapping made)
    {port : γ} (has : pre old = some (block, port))
    (other : old ∉ done) (late : base ≤ new.raw) (fresh : post new = none)
    (grown : ∀ handle, post' handle = if handle = new then some (id, port) else post handle) :
    Counterparts pre post' id base (done ++ [old]) (mapping.insert old new) (made ++ [new]) := by
  have unseen : ∀ handle : Handle role, mapping[handle]? ≠ some new := by
    intro handle got
    obtain ⟨-, block, port, -, there⟩ := counterparts.new handle new got
    cases fresh.symm.trans there
  refine ⟨fun handle => ?_, fun handle early => ?_, fun handle handle' got => ?_,
    fun handle wraps got => ?_, fun handle => ?_, fun one two handle got got' => ?_, ?_⟩
  · rw [mem_append, mem_singleton, ← counterparts.keys, getElem?_insert]
    by_cases eq : old = handle
    · simp [eq]
    · simp [eq, Ne.symm eq]
  · rw [grown, if_neg, counterparts.old handle early]
    rintro rfl
    omega
  · rw [getElem?_insert] at got
    split at got
    · next eq =>
      cases got
      subst eq
      exact ⟨late, block, port, has, by rw [grown, if_pos rfl]⟩
    · obtain ⟨late', block', port', has', there⟩ := counterparts.new handle handle' got
      refine ⟨late', block', port', has', ?_⟩
      rw [grown, if_neg, there]
      rintro rfl
      exact unseen handle got
  · rw [grown] at got
    split at got
    · next eq => exact .inr ⟨old, by rw [getElem?_insert, if_pos rfl, eq]⟩
    · refine (counterparts.onto handle wraps got).imp_right fun ⟨old', got'⟩ => ⟨old', ?_⟩
      rw [getElem?_insert, if_neg, got']
      rintro rfl
      exact other ((counterparts.keys old).mp ⟨handle, got'⟩)
  · rw [mem_append, mem_singleton, counterparts.mem]
    constructor
    · rintro (⟨old', got⟩ | rfl)
      · refine ⟨old', ?_⟩
        rw [getElem?_insert, if_neg, got]
        rintro rfl
        exact other ((counterparts.keys old).mp ⟨handle, got⟩)
      · exact ⟨old, by rw [getElem?_insert, if_pos rfl]⟩
    · rintro ⟨old', got⟩
      rw [getElem?_insert] at got
      split at got
      · exact .inr (Option.some.inj got).symm
      · exact .inl ⟨old', got⟩
  · rw [getElem?_insert] at got got'
    split at got <;> split at got'
    · next eq eq' => exact eq.symm.trans eq'
    · cases got
      exact absurd got' (unseen two)
    · cases got'
      exact absurd got (unseen one)
    · exact counterparts.inj one two handle got got'
  · refine counterparts.nodup.append (nodup_singleton new) ?_
    rw [disjoint_singleton, counterparts.mem]
    rintro ⟨handle, got⟩
    exact unseen handle got

/-- A counterpart has none itself. -/
theorem not_mem_keys (counterparts : Counterparts pre post id base done mapping made)
    (below : ∀ handle wraps, pre handle = some wraps → handle.raw < base)
    (got : mapping[old]? = some new) : new ∉ mapping.keys := by
  intro key
  obtain ⟨new', got'⟩ := mapping.mem_keys_iff.mp key
  obtain ⟨-, block, port, has, -⟩ := counterparts.new new new' got'
  have := (counterparts.new old new got).1
  have := below new _ has
  omega

theorem getD_not_mem_keys (counterparts : Counterparts pre post id base done mapping made)
    (below : ∀ handle wraps, pre handle = some wraps → handle.raw < base)
    (handle : Handle role) : mapping.getD handle handle ∉ mapping.keys := by
  rw [ExtTreeMap.getD_eq_getD_getElem?]
  cases got : mapping[handle]? with
  | none =>
    rw [Option.getD_none, mem_keys_iff, got]
    simp
  | some new => exact counterparts.not_mem_keys below got

/-- No block port is the counterpart of another one and has one itself. -/
theorem ne_of_mem (counterparts : Counterparts pre post id base done mapping made)
    (below : ∀ handle wraps, pre handle = some wraps → handle.raw < base)
    {pair other : Handle role × Handle role} (mem : pair ∈ mapping.toList)
    (mem' : other ∈ mapping.toList) : pair.1 ≠ other.2 := fun eq =>
  counterparts.not_mem_keys below (mapping.mem_toList_iff.mp mem')
    (eq ▸ mapping.mem_keys_iff.mpr ⟨pair.2, mapping.mem_toList_iff.mp mem⟩)

end Counterparts

/-- Block ports of merged blocks have become ports of the new block that wrap
the same, and all others are as they were. -/
structure PortsMerged (ids : List BlockId) (id : BlockId)
    (pre post : Handle role → Option (BlockId × γ)) (rename : Handle role → Handle role)
    (made : List (Handle role)) : Prop where
  image : ∀ handle block port, pre handle = some (block, port) →
    post (rename handle) = some (if block ∈ ids then id else block, port)
  onto : ∀ handle block port, post handle = some (block, port) →
    ∃ old block', pre old = some (block', port) ∧ rename old = handle
  stays : ∀ handle block port, pre handle = some (block, port) → block ∉ ids →
    rename handle = handle
  gone : ∀ handle block port, pre handle = some (block, port) → block ∈ ids → post handle = none
  inj : ∀ one two wraps wraps', pre one = some wraps → pre two = some wraps' →
    rename one = rename two → one = two
  mem : ∀ handle, handle ∈ made ↔ ∃ port, post handle = some (id, port)
  nodup : made.Nodup

/-- Once the ports with counterparts are erased, ports are merged. -/
theorem Counterparts.merged {pre state post : Handle role → Option (BlockId × γ)}
    {mapping : HandleMap role (Handle role)}
    (counterparts : Counterparts pre state id base done mapping made)
    (below : ∀ handle wraps, pre handle = some wraps → handle.raw < base)
    (unused : ∀ handle port, pre handle ≠ some (id, port))
    (covers : ∀ handle block port, pre handle = some (block, port) → (handle ∈ done ↔ block ∈ ids))
    (erased : ∀ handle, post handle = if handle ∈ mapping.keys then none else state handle) :
    PortsMerged ids id pre post (fun handle => mapping.getD handle handle) made := by
  have keys := @mem_keys_iff _ _ mapping
  have rename : ∀ handle, mapping.getD handle handle = (mapping[handle]?).getD handle :=
    fun handle => ExtTreeMap.getD_eq_getD_getElem?
  have kept : ∀ old new : Handle role, mapping[old]? = some new → post new = state new := by
    intro old new got
    rw [erased, if_neg (counterparts.not_mem_keys below got)]
  have absent : ∀ handle block port, pre handle = some (block, port) → block ∉ ids →
      mapping[handle]? = none := by
    intro handle block port has outside
    rw [Option.eq_none_iff_forall_ne_some]
    intro new got
    exact outside ((covers handle block port has).mp ((counterparts.keys handle).mp ⟨new, got⟩))
  refine ⟨fun handle block port has => ?_, fun handle block port has => ?_,
    fun handle block port has outside => ?_, fun handle block port has merged => ?_,
    fun one two wraps wraps' has has' eq => ?_, fun handle => ?_, counterparts.nodup⟩
  · by_cases merged : block ∈ ids
    · obtain ⟨new, got⟩ :=
        (counterparts.keys handle).mpr ((covers handle block port has).mpr merged)
      obtain ⟨-, block', port', has', there⟩ := counterparts.new handle new got
      cases has.symm.trans has'
      rw [rename, got, Option.getD_some, kept handle new got, there, if_pos merged]
    · have none := absent handle block port has merged
      rw [rename, none, Option.getD_none, if_neg merged, erased, if_neg,
        counterparts.old handle (below handle _ has), has]
      rw [keys, none]
      rintro ⟨new, got⟩
      cases got
  · rw [erased] at has
    split at has
    · cases has
    · next other =>
      rcases counterparts.onto handle _ has with early | ⟨old, got⟩
      · rw [counterparts.old handle early] at has
        refine ⟨handle, block, has, ?_⟩
        have none : mapping[handle]? = none := by
          rw [Option.eq_none_iff_forall_ne_some]
          exact fun new got => other (keys.mpr ⟨new, got⟩)
        rw [rename, none, Option.getD_none]
      · obtain ⟨-, block', port', has', there⟩ := counterparts.new old handle got
        cases has.symm.trans there
        exact ⟨old, block', has', by rw [rename, got, Option.getD_some]⟩
  · rw [rename, absent handle block port has outside, Option.getD_none]
  · rw [erased, if_pos (keys.mpr ((counterparts.keys handle).mpr
      ((covers handle block port has).mpr merged)))]
  · -- A port that stays is older than every counterpart.
    have older := below one wraps has
    have older' := below two wraps' has'
    rw [rename, rename] at eq
    cases got : mapping[one]? <;> cases got' : mapping[two]? <;> rw [got, got'] at eq
    · exact eq
    · have := (counterparts.new two _ got').1
      simp only [Option.getD_none, Option.getD_some] at eq
      subst eq
      omega
    · have := (counterparts.new one _ got).1
      simp only [Option.getD_none, Option.getD_some] at eq
      subst eq
      omega
    · rw [Option.getD_some, Option.getD_some] at eq
      exact counterparts.inj one two _ got (eq ▸ got')
  · rw [counterparts.mem]
    constructor
    · rintro ⟨old, got⟩
      obtain ⟨-, block, port, -, there⟩ := counterparts.new old handle got
      exact ⟨port, by rw [kept old handle got, there]⟩
    · rintro ⟨port, has⟩
      rw [erased] at has
      split at has
      · cases has
      · refine (counterparts.onto handle _ has).resolve_left fun early => ?_
        rw [counterparts.old handle early] at has
        exact unused handle port has

end Counterparts

/-! ## Making the counterparts -/

namespace MergeState

/-- The listed block ports have counterparts without links. -/
structure Built (wiring : Wiring) (id : BlockId) (entries : List BlockInputId)
    (exits : List BlockOutputId) (state : MergeState) : Prop where
  wf : state.wiring.Consistent
  next : wiring.next < state.wiring.next
  inputs : Counterparts wiring.entryOf state.wiring.entryOf id wiring.next entries
    state.mapping.inputs state.inputs
  outputs : Counterparts wiring.exitOf state.wiring.exitOf id wiring.next exits
    state.mapping.outputs state.outputs
  linked : ∀ exit entry, state.wiring.Linked exit entry ↔ wiring.Linked exit entry

variable {W : Wiring} {id : BlockId} {state : MergeState}

theorem built_empty (wf : W.Consistent) : Built W id [] [] { wiring := W.newBlock.2 } where
  wf := wf.newBlock
  next := Nat.lt_succ_self _
  inputs := .empty wf.entryBelow
  outputs := .empty wf.exitBelow
  linked _ _ := .rfl

variable (wf : W.Consistent) (built : Built W id entries exits state)

include wf built

theorem addInput_eq_ok {entry : BlockInputId}
    (has : ∃ wraps, W.entryOf entry = some wraps) (other : entry ∉ entries) :
    ∃ next, state.addInput id entry = .ok next ∧ Built W id (entries ++ [entry]) exits next := by
  obtain ⟨⟨block, port⟩, has⟩ := has
  have there := built.inputs.old entry (wf.entryBelow entry _ has)
  obtain ⟨record, read, -, rfl⟩ := Wiring.input_eq_ok (there.trans has)
  exact ⟨_, bind_of_ok read, built.wf.addInput _ _, Nat.lt_succ_of_lt built.next,
    built.inputs.insert has other built.next.le built.wf.entryOf_next
      (Wiring.entryOf_addInput _ _ _),
    built.outputs, built.linked⟩

theorem addOutput_eq_ok {exit : BlockOutputId}
    (has : ∃ wraps, W.exitOf exit = some wraps) (other : exit ∉ exits) :
    ∃ next, state.addOutput id exit = .ok next ∧ Built W id entries (exits ++ [exit]) next := by
  obtain ⟨⟨block, port⟩, has⟩ := has
  have there := built.outputs.old exit (wf.exitBelow exit _ has)
  obtain ⟨record, read, -, rfl, -⟩ := Wiring.output_eq_ok (there.trans has)
  exact ⟨_, bind_of_ok read, built.wf.addOutput _ _, Nat.lt_succ_of_lt built.next, built.inputs,
    built.outputs.insert has other built.next.le built.wf.exitOf_next
      (Wiring.exitOf_addOutput _ _ _),
    fun exit entry => (Wiring.linked_addOutput built.wf _ _ _ _).trans (built.linked exit entry)⟩

omit wf built in
/-- Block ports that are known and not repeated are added one after the other. -/
private theorem addEach_eq_ok {α : Type} {add : MergeState → α → Except Fault MergeState}
    (holds : List α → MergeState → Prop) {known : α → Prop}
    (step : ∀ {done state item}, holds done state → known item → item ∉ done →
      ∃ next, add state item = .ok next ∧ holds (done ++ [item]) next)
    {done more : List α} (start : holds done state) (nodup : (done ++ more).Nodup)
    (has : ∀ item ∈ more, known item) :
    ∃ next, more.foldlM add state = .ok next ∧ holds (done ++ more) next := by
  induction more generalizing done state with
  | nil => exact ⟨state, rfl, by rwa [append_nil]⟩
  | cons item rest ih =>
    obtain ⟨next, run, start⟩ := step start (has item (.head _)) fun early =>
      (nodup_append.mp nodup).2.2 item early item (.head _) rfl
    obtain ⟨last, run', whole⟩ := ih start (by simpa using nodup)
      fun other later => has other (.tail _ later)
    exact ⟨last, by rw [foldlM_cons, bind_of_ok run, run'], by simpa using whole⟩

/-- The ports of all blocks get counterparts. -/
theorem addBlocks_eq_ok (nodup : (entries ++ blocks.flatMap fun block => block.inputs).Nodup)
    (nodup' : (exits ++ blocks.flatMap fun block => block.outputs).Nodup)
    (has : ∀ block ∈ blocks, ∀ entry ∈ block.inputs, ∃ wraps, W.entryOf entry = some wraps)
    (has' : ∀ block ∈ blocks, ∀ exit ∈ block.outputs, ∃ wraps, W.exitOf exit = some wraps) :
    ∃ next, blocks.foldlM (addBlock id) state = .ok next ∧
      Built W id (entries ++ blocks.flatMap fun block => block.inputs)
        (exits ++ blocks.flatMap fun block => block.outputs) next := by
  induction blocks generalizing entries exits state with
  | nil => exact ⟨state, rfl, by simpa using built⟩
  | cons block rest ih =>
    rw [flatMap_cons, ← append_assoc] at nodup nodup'
    obtain ⟨middle, run, built'⟩ := addEach_eq_ok (fun done state =>
      Built W id done exits state) (fun built => addInput_eq_ok wf built) built
        (nodup_append.mp nodup).1 (has block (.head _))
    obtain ⟨next, run', built''⟩ := addEach_eq_ok (fun done state =>
      Built W id _ done state) (fun built => addOutput_eq_ok wf built) built'
        (nodup_append.mp nodup').1 (has' block (.head _))
    obtain ⟨last, run'', whole⟩ := ih built'' nodup nodup'
      (fun other later => has other (.tail _ later))
      (fun other later => has' other (.tail _ later))
    refine ⟨last, ?_, by simpa using whole⟩
    have added : state.addBlock id block = .ok next := by rw [addBlock, bind_of_ok run, run']
    rw [foldlM_cons, bind_of_ok added, run'']

end MergeState

/-! ## Handing links over -/

namespace PortMapping

/-- Links are added one batch after the other, if no batch depends on those before it. -/
private theorem foldl_links_spec {α : Type} {move : Wiring → α → Wiring} {W : Wiring}
    {links : Wiring → α → List (BlockOutputId × BlockInputId)}
    (moved : ∀ W item, move W item = W.linkPairs (links W item))
    (wf : W.Consistent) (items : List α)
    (linkable : ∀ item ∈ items, ∀ link ∈ links W item, W.Linkable link)
    (still : ∀ now : Wiring, now.Consistent → (∀ exit entry, W.Linked exit entry →
        now.Linked exit entry) → (∀ exit entry, now.Linked exit entry →
          W.Linked exit entry ∨ ∃ item ∈ items, (exit, entry) ∈ links W item) →
      ∀ item ∈ items, ∀ link, link ∈ links now item ↔ link ∈ links W item) :
    Wiring.SameFrame W (items.foldl move W) ∧ (items.foldl move W).Consistent ∧
      ∀ exit entry, (items.foldl move W).Linked exit entry ↔
        W.Linked exit entry ∨ ∃ item ∈ items, (exit, entry) ∈ links W item := by
  let inv : List α → Wiring → Prop := fun rest now => ∃ done, done ++ rest = items ∧
    Wiring.SameFrame W now ∧ now.Consistent ∧ ∀ exit entry, now.Linked exit entry ↔
      W.Linked exit entry ∨ ∃ item ∈ done, (exit, entry) ∈ links W item
  obtain ⟨done, all, spec⟩ : inv [] (items.foldl move W) := by
    refine foldl_keeps inv ?_ ⟨[], rfl, .refl W, wf, by simp⟩
    rintro item rest now ⟨done, rfl, frame, wf', linked⟩
    have eq := still now wf' (fun exit entry link => (linked exit entry).mpr (.inl link))
      (fun exit entry link => ((linked exit entry).mp link).imp_right fun ⟨item, early, mem⟩ =>
        ⟨item, mem_append_left _ early, mem⟩) item (mem_append_right _ (.head _))
    have linkable' : ∀ link ∈ links now item, now.Linkable link := fun link mem =>
      frame.linkable (linkable item (mem_append_right _ (.head _)) link ((eq link).mp mem))
    rw [moved]
    refine ⟨done ++ [item], by simp, frame.trans (Wiring.sameFrame_linkPairs _ _),
      wf'.linkPairs linkable', fun exit entry => ?_⟩
    rw [Wiring.linked_linkPairs linkable', linked, eq, or_assoc]
    simp [or_and_right, exists_or]
  rw [append_nil] at all
  exact all ▸ spec

variable {mapping : PortMapping} {W : Wiring} {exit : BlockOutputId} {entry : BlockInputId}

/-- The links that the counterpart of a block input gets. -/
private def inputLinks (mapping : PortMapping) (wiring : Wiring)
    (pair : BlockInputId × BlockInputId) : List (BlockOutputId × BlockInputId) :=
  (wiring.sources pair.1).toList.map fun source => (mapping.outputs.getD source source, pair.2)

/-- The links that the counterpart of a block output gets: those that lead elsewhere. -/
private def outputLinks (mapping : PortMapping) (wiring : Wiring)
    (pair : BlockOutputId × BlockOutputId) : List (BlockOutputId × BlockInputId) :=
  ((wiring.targets pair.1).toList.filter fun target => !mapping.inputs.contains target).map
    fun target => (pair.2, target)

private theorem moveInput_eq (mapping : PortMapping) (W : Wiring)
    (pair : BlockInputId × BlockInputId) :
    mapping.moveInput W pair = W.linkPairs (mapping.inputLinks W pair) := by
  rw [moveInput, Wiring.linkPairs, inputLinks, foldl_map]

private theorem moveOutput_eq (mapping : PortMapping) (W : Wiring)
    (pair : BlockOutputId × BlockOutputId) :
    mapping.moveOutput W pair = W.linkPairs (mapping.outputLinks W pair) := by
  rw [moveOutput, Wiring.linkPairs, outputLinks, foldl_map]

private theorem mem_inputLinks (wf : W.Consistent) {pair : BlockInputId × BlockInputId} :
    (exit, entry) ∈ mapping.inputLinks W pair ↔ entry = pair.2 ∧
      ∃ source, W.Linked source pair.1 ∧ exit = mapping.outputs.getD source source := by
  simp only [inputLinks, mem_map, ExtTreeSet.mem_toList, ← wf.agree, Prod.mk.injEq]
  grind

private theorem mem_outputLinks {pair : BlockOutputId × BlockOutputId} :
    (exit, entry) ∈ mapping.outputLinks W pair ↔ exit = pair.2 ∧
      W.Linked pair.1 entry ∧ mapping.inputs.contains entry = false := by
  simp only [outputLinks, mem_map, mem_filter, ExtTreeSet.mem_toList, Prod.mk.injEq,
    Bool.not_eq_true', Wiring.Linked]
  grind

end PortMapping

/-- Counterparts take the places of the block ports in all links. -/
theorem MergeState.Built.apply_spec {W : Wiring}
    {state : MergeState} (built : Built W id entries exits state) (wf : W.Consistent) :
    (state.mapping.apply state.wiring).Consistent ∧
      (state.mapping.apply state.wiring).next = state.wiring.next ∧
      (∀ entry, (state.mapping.apply state.wiring).entryOf entry =
        if entry ∈ state.mapping.inputs.keys then none else state.wiring.entryOf entry) ∧
      (∀ exit, (state.mapping.apply state.wiring).exitOf exit =
        if exit ∈ state.mapping.outputs.keys then none else state.wiring.exitOf exit) ∧
      ∀ exit entry, (state.mapping.apply state.wiring).Linked exit entry ↔
        ∃ exit' entry', W.Linked exit' entry' ∧ state.mapping.outputs.getD exit' exit' = exit ∧
          state.mapping.inputs.getD entry' entry' = entry := by
  have inputs := built.inputs.getD_not_mem_keys wf.entryBelow
  have outputs := built.outputs.getD_not_mem_keys wf.exitBelow
  obtain ⟨frame, wf₁, linked₁⟩ := PortMapping.foldl_links_spec
    state.mapping.moveInput_eq built.wf state.mapping.inputs.toList
    (by
      rintro ⟨old, new⟩ mem ⟨exit, entry⟩ added
      obtain ⟨rfl, source, link, rfl⟩ := (PortMapping.mem_inputLinks built.wf).mp added
      obtain ⟨-, block, port, -, there⟩ := built.inputs.new old _ ((mem_toList_iff _).mp mem)
      refine ⟨?_, _, there⟩
      obtain ⟨wraps, has⟩ := Wiring.exists_exitOf_of_linked link
      cases got : state.mapping.outputs[source]? with
      | none =>
        rw [ExtTreeMap.getD_eq_getD_getElem?, got, Option.getD_none]
        exact ⟨wraps, has⟩
      | some new =>
        obtain ⟨-, block, port, -, there⟩ := built.outputs.new source new got
        exact ⟨_, by rw [getD_of_getElem? _ got, there]⟩)
    (by
      rintro now wf' more fewer pair mem ⟨exit, entry⟩
      rw [PortMapping.mem_inputLinks wf', PortMapping.mem_inputLinks built.wf]
      refine and_congr_right fun _ => exists_congr fun source => and_congr_left fun _ =>
        ⟨fun link => (fewer _ _ link).resolve_right ?_, more _ _⟩
      rintro ⟨other, mem', link⟩
      exact built.inputs.ne_of_mem wf.entryBelow mem mem'
        ((PortMapping.mem_inputLinks built.wf).mp link).1)
  obtain ⟨frame', wf₂, linked₂⟩ := PortMapping.foldl_links_spec
    state.mapping.moveOutput_eq wf₁ state.mapping.outputs.toList
    (by
      rintro ⟨old, new⟩ mem ⟨exit, entry⟩ added
      obtain ⟨rfl, link, -⟩ := PortMapping.mem_outputLinks.mp added
      obtain ⟨-, block, port, -, there⟩ := built.outputs.new old _ ((mem_toList_iff _).mp mem)
      exact ⟨⟨_, by rw [frame.exitOf, there]⟩, wf₁.exists_entryOf link⟩)
    (by
      rintro now wf' more fewer pair mem ⟨exit, entry⟩
      rw [PortMapping.mem_outputLinks, PortMapping.mem_outputLinks]
      refine and_congr_right fun _ => and_congr_left fun _ =>
        ⟨fun link => (fewer _ _ link).resolve_right ?_, more _ _⟩
      rintro ⟨other, mem', link⟩
      exact built.outputs.ne_of_mem wf.exitBelow mem mem' (PortMapping.mem_outputLinks.mp link).1)
  simp only [PortMapping.mem_inputLinks built.wf] at linked₁
  simp only [PortMapping.mem_outputLinks] at linked₂
  obtain ⟨wf₃, next, entryOf, exitOf, linked₃⟩ :=
    Wiring.eraseInputs_spec wf₂ state.mapping.inputs.keys
  obtain ⟨wf₄, next', entryOf', exitOf', linked₄⟩ :=
    Wiring.eraseOutputs_spec wf₃ state.mapping.outputs.keys
  refine ⟨wf₄, ?_, fun entry => ?_, fun exit => ?_, fun exit entry => ?_⟩
  · exact next'.trans (next.trans (frame'.next.trans frame.next))
  · exact (entryOf' entry).trans (by rw [entryOf, frame'.entryOf, frame.entryOf])
  · exact (exitOf' exit).trans (by rw [exitOf, frame'.exitOf, frame.exitOf])
  · refine (linked₄ exit entry).trans ?_
    rw [linked₃, linked₂]
    constructor
    · rintro ⟨⟨link | ⟨⟨old, new⟩, mem, rfl, link, -⟩, other⟩, other'⟩
      · rcases (linked₁ exit entry).mp link with link' | ⟨⟨old, _⟩, mem, rfl, source, link', rfl⟩
        · exact ⟨exit, entry, (built.linked exit entry).mp link', getD_of_not_mem_keys _ other',
            getD_of_not_mem_keys _ other⟩
        · exact ⟨source, old, (built.linked source old).mp link', rfl,
            getD_of_getElem? _ ((mem_toList_iff _).mp mem)⟩
      · have got := (mem_toList_iff _).mp mem
        rcases (linked₁ old entry).mp link with link' | ⟨-, -, -, source, -, rfl⟩
        · exact ⟨old, entry, (built.linked old entry).mp link', getD_of_getElem? _ got,
            getD_of_not_mem_keys _ other⟩
        · exact absurd ((mem_keys_iff _).mpr ⟨_, got⟩) (outputs source)
    · rintro ⟨exit', entry', link, rfl, rfl⟩
      refine ⟨⟨?_, inputs entry'⟩, outputs exit'⟩
      have link' := (built.linked exit' entry').mpr link
      by_cases key : entry' ∈ state.mapping.inputs.keys
      · obtain ⟨new, got⟩ := (mem_keys_iff _).mp key
        exact .inl ((linked₁ _ _).mpr (.inr ⟨(entry', new), (mem_toList_iff _).mpr got,
          getD_of_getElem? _ got, exit', link', rfl⟩))
      · rw [getD_of_not_mem_keys _ key]
        by_cases key' : exit' ∈ state.mapping.outputs.keys
        · obtain ⟨new, got⟩ := (mem_keys_iff _).mp key'
          refine .inr ⟨(exit', new), (mem_toList_iff _).mpr got,
            getD_of_getElem? _ got, (linked₁ _ _).mpr (.inl link'), ?_⟩
          rwa [← Bool.not_eq_true, ← ExtTreeMap.mem_iff_contains, ← ExtTreeMap.mem_keys]
        · rw [getD_of_not_mem_keys _ key']
          exact .inl ((linked₁ _ _).mpr (.inl link'))

/-! ## Merged blocks -/

/-- The block that a block has become when some blocks are merged into one. -/
def merging (ids : List BlockId) (id block : BlockId) : BlockId :=
  if block ∈ ids then id else block

theorem merging_eq_iff {other : BlockId} (outside : other ∉ ids) (ne : other ≠ id) :
    merging ids id block = other ↔ block = other := by
  rw [merging]
  split
  · next merged =>
    refine ⟨fun eq => absurd eq.symm ne, fun eq => absurd (eq ▸ merged) outside⟩
  · rfl

/-- A block port stands for an old one of the block that became its block. -/
theorem PortsMerged.exists_old {γ : Type} {pre post : Handle role → Option (BlockId × γ)}
    (merged : PortsMerged ids id pre post rename made) {handle : Handle role} {port : γ}
    (has : post handle = some (block, port)) : ∃ old block', pre old = some (block', port) ∧
      rename old = handle ∧ block = merging ids id block' := by
  obtain ⟨old, block', has', rfl⟩ := merged.onto handle block port has
  have image := merged.image old block' port has'
  rw [has, Option.some.injEq, Prod.mk.injEq] at image
  exact ⟨old, block', has', rfl, image.1⟩

/-- Ports of other blocks stay. -/
theorem PortsMerged.exists_iff {γ : Type} {pre post : Handle role → Option (BlockId × γ)}
    (merged : PortsMerged ids id pre post rename made)
    (outside : block ∉ ids) (ne : block ≠ id) (handle : Handle role) :
    (∃ port, post handle = some (block, port)) ↔ ∃ port, pre handle = some (block, port) := by
  constructor
  · rintro ⟨port, has⟩
    obtain ⟨old, block', has', rfl, eq⟩ := merged.exists_old has
    obtain rfl := (merging_eq_iff outside ne).mp eq.symm
    exact ⟨port, by rw [merged.stays old block' port has' outside, has']⟩
  · rintro ⟨port, has⟩
    have image := merged.image handle block port has
    rw [merged.stays handle block port has outside, if_neg outside] at image
    exact ⟨port, image⟩

/-- Ports of other blocks wrap what they wrapped. -/
theorem PortsMerged.of_other {γ : Type} {pre post : Handle role → Option (BlockId × γ)}
    (merged : PortsMerged ids id pre post rename made)
    {handle : Handle role} {port : γ} (ne : block ≠ id)
    (got : post handle = some (block, port)) : pre handle = some (block, port) := by
  obtain ⟨old, block', got', rfl, eq⟩ := merged.exists_old got
  rw [merging] at eq
  split at eq
  · exact absurd eq ne
  · next outside => rw [merged.stays old block' port got' outside, got', eq]

/-- What merged ports join is what they joined before. -/
theorem PortsMerged.joins {pre post : Wiring}
    (inputs : PortsMerged ids id pre.entryOf post.entryOf input entries)
    (outputs : PortsMerged ids id pre.exitOf post.exitOf out exits)
    (linked : ∀ exit entry, post.Linked exit entry ↔ ∃ exit' entry',
      pre.Linked exit' entry' ∧ out exit' = exit ∧ input entry' = entry)
    (wf : pre.Consistent) (source : OutputId) (target : InputId) :
    post.Joins source target ↔ pre.Joins source target := by
  constructor
  · rintro ⟨exit, entry, block, block', left, entered, link⟩
    obtain ⟨exit', entry', link', rfl, rfl⟩ := (linked exit entry).mp link
    obtain ⟨⟨block₁, source'⟩, left'⟩ := Wiring.exists_exitOf_of_linked link'
    obtain ⟨⟨block₂, target'⟩, entered'⟩ := wf.exists_entryOf link'
    cases left.symm.trans (outputs.image exit' block₁ source' left')
    cases entered.symm.trans (inputs.image entry' block₂ target' entered')
    exact ⟨exit', entry', block₁, block₂, left', entered', link'⟩
  · rintro ⟨exit, entry, block, block', left, entered, link⟩
    exact ⟨out exit, input entry, _, _, outputs.image exit block source left,
      inputs.image entry block' target entered, (linked _ _).mpr ⟨exit, entry, link, rfl, rfl⟩⟩

/-- The origins of all nodes of some blocks. -/
private theorem getElem?_origins
    (known : ∀ block ∈ blocks, ∀ id origin : NodeId, block.origins[id]? = some origin ↔
      id ∈ block.nodes ∧ origin = origins.node id) (map : HandleMap .node NodeId) (id : NodeId) :
    (blocks.foldl (fun origins block => origins.insertMany block.origins.toList) map)[id]? =
      if ∃ block ∈ blocks, id ∈ block.nodes then some (origins.node id) else map[id]? := by
  induction blocks generalizing map with
  | nil => simp
  | cons block rest ih =>
    have determined : ∀ entry ∈ block.origins.toList, entry.2 = origins.node entry.1 := by
      rintro ⟨copy, origin⟩ mem
      exact ((known block (.head _) copy origin).mp ((mem_toList_iff _).mp mem)).2
    have keys : id ∈ block.origins.toList.map Prod.fst ↔ id ∈ block.nodes := by
      rw [ExtTreeMap.map_fst_toList_eq_keys, mem_keys_iff]
      simp [known block (.head _)]
    rw [foldl_cons, ih fun other later => known other (.tail _ later),
      getElem?_insertMany_of_determined _ determined]
    simp only [exists_mem_cons_iff, keys]
    by_cases here : id ∈ block.nodes
    · simp [here]
    · simp [here]

/-- What is collected as an origin is an origin in one of the blocks. -/
theorem exists_origin {map : HandleMap .node NodeId} {copy origin : NodeId} (named : (blocks.foldl
      (fun origins block => origins.insertMany block.origins.toList) map)[copy]? = some origin) :
    map[copy]? = some origin ∨ ∃ block ∈ blocks, block.origins[copy]? = some origin := by
  induction blocks generalizing map with
  | nil => exact .inl named
  | cons block rest ih =>
    rcases ih named with early | ⟨other, mem, late⟩
    · rcases HandleMap.of_getElem?_insertMany _ early with here | pre
      · exact .inr ⟨block, (.head _), (HandleMap.mem_toList_iff _).mp here⟩
      · exact .inl pre
    · exact .inr ⟨other, .tail _ mem, late⟩

/-- What merging blocks does to a wiring: block ports of the blocks are replaced
by those of a new block, in all links. -/
structure Wiring.Merged (pre : Wiring) (blocks : List Block) (merged : Block) (post : Wiring)
    (input : BlockInputId → BlockInputId) (output : BlockOutputId → BlockOutputId) : Prop where
  id : merged.id = ⟨pre.next⟩
  wf : post.Consistent
  next : pre.next < post.next
  inputs : PortsMerged (blocks.map (·.id)) merged.id pre.entryOf post.entryOf input merged.inputs
  outputs : PortsMerged (blocks.map (·.id)) merged.id pre.exitOf post.exitOf output merged.outputs
  linked : ∀ exit entry, post.Linked exit entry ↔ ∃ exit' entry',
    pre.Linked exit' entry' ∧ output exit' = exit ∧ input entry' = entry

/-- The counterpart of a block input, or the block input itself. -/
def PortMapping.entry (mapping : PortMapping) (entry : BlockInputId) : BlockInputId :=
  mapping.inputs.getD entry entry

/-- The counterpart of a block output, or the block output itself. -/
def PortMapping.exit (mapping : PortMapping) (exit : BlockOutputId) : BlockOutputId :=
  mapping.outputs.getD exit exit

/-- Blocks that list their block ports and are entered alike can be merged. -/
theorem Roster.merge_spec (roster : Roster site.wiring blocks) (some : blocks ≠ [])
    (alike : Block.checkAlike site blocks = .ok ()) :
    ∃ merged mapping W, Block.merge site blocks = .ok (merged, mapping, W) ∧
      merged.nodes = HandleSet.gather blocks (·.nodes) ∧
      merged.origins =
        blocks.foldl (fun origins block => origins.insertMany block.origins.toList) ∅ ∧
      Wiring.Merged site.wiring blocks merged W mapping.entry mapping.exit := by
  have wf := roster.wf
  obtain ⟨nodup, listed⟩ := roster.flatMap_spec roster.entries roster.entriesNodup
  obtain ⟨nodup', listed'⟩ := roster.flatMap_spec roster.exits roster.exitsNodup
  obtain ⟨state, run, built⟩ := MergeState.addBlocks_eq_ok wf
    (@MergeState.built_empty _ ⟨site.wiring.next⟩ wf) nodup nodup'
    (fun block mem entry member => by
      obtain ⟨port, has⟩ := (roster.entries block mem entry).mp member
      exact ⟨_, has⟩)
    (fun block mem exit member => by
      obtain ⟨port, has⟩ := (roster.exits block mem exit).mp member
      exact ⟨_, has⟩)
  obtain ⟨wf', next, entryOf, exitOf, linked⟩ := built.apply_spec wf
  let merged : Block :=
    { id := ⟨site.wiring.next⟩
      nodes := HandleSet.gather blocks fun block => block.nodes
      inputs := state.inputs
      outputs := state.outputs
      origins := blocks.foldl (fun origins block => origins.insertMany block.origins.toList) ∅ }
  refine ⟨merged, state.mapping, state.mapping.apply state.wiring, ?_, rfl, rfl,
    { id := rfl
      wf := wf'
      next := next ▸ built.next
      inputs := built.inputs.merged wf.entryBelow roster.entry_unused
        (fun _ _ _ => listed) entryOf
      outputs := built.outputs.merged wf.exitBelow roster.exit_unused
        (fun _ _ _ => listed') exitOf
      linked }⟩
  rw [Block.merge, if_neg (by simpa using some), alike]
  exact bind_of_ok run

/-- Blocks with inputs of one kind are alike. -/
theorem Block.checkAlike_eq_ok {side : Bool}
    (alike : ∀ block ∈ blocks, block.inputs ≠ [] → block.isReduce site = .ok side) :
    Block.checkAlike site blocks = .ok () := by
  have kinds : (blocks.filter fun block => !block.inputs.isEmpty).mapM
      (fun block => block.isReduce site) =
      .ok ((blocks.filter fun block => !block.inputs.isEmpty).map fun _ => side) := by
    refine mapM_eq_ok fun block mem => ?_
    obtain ⟨mem, entered⟩ := mem_filter.mp mem
    exact alike block mem (by simpa using entered)
  rw [Block.checkAlike, bind_of_ok kinds]
  cases side <;> simp [pure, Except.pure]

section Merge

variable {source : Graph} {kind : BlockId → Bool} {place : Places}
  {fixed : List Block} {side : Bool} {pre post : Wiring} {merged : Block}

/-- Blocks beside the merged ones have other handles. -/
theorem Wiring.Merged.outside (spec : pre.Merged blocks merged post input out)
    (roster : Roster pre (fixed ++ blocks)) {block : Block} (mem : block ∈ fixed) :
    block.id ∉ (blocks.map (·.id)) ∧ block.id ≠ merged.id := by
  have nodup := roster.nodup
  rw [map_append, nodup_append] at nodup
  refine ⟨fun has => ?_, fun eq => ?_⟩
  · exact nodup.2.2 _ (mem_map_of_mem mem) _ has rfl
  · have below := roster.below block (mem_append_left _ mem)
    rw [eq, spec.id] at below
    exact Nat.lt_irrefl _ below

/-- The merged block lists its block ports, and the others still do. -/
theorem Wiring.Merged.roster (spec : pre.Merged blocks merged post input out)
    (roster : Roster pre (fixed ++ blocks)) : Roster post (fixed ++ [merged]) := by
  have nodup := roster.nodup
  rw [map_append, nodup_append] at nodup
  have outside : ∀ block ∈ fixed, block.id ∉ (blocks.map (·.id)) ∧
      block.id ≠ merged.id := fun block => spec.outside roster
  have below : ∀ block : BlockId, block.raw < pre.next →
      (if block ∈ blocks.map (·.id) then merged.id else block).raw < post.next := by
    intro block below
    split
    · rw [spec.id]
      exact spec.next
    · exact below.trans spec.next
  refine
    { wf := spec.wf
      nodup := ?_
      below := fun block mem => ?_
      entryBelow := fun entry block port has => ?_
      exitBelow := fun exit block port has => ?_
      entries := fun block mem entry => ?_
      exits := fun block mem exit => ?_
      entriesNodup := fun block mem => ?_
      exitsNodup := fun block mem => ?_ }
  · rw [map_append, nodup_append]
    refine ⟨nodup.1, nodup_singleton _, fun first early second late => ?_⟩
    obtain ⟨block, mem, rfl⟩ := mem_map.mp early
    rw [mem_singleton.mp late]
    exact (outside block mem).2
  · rcases mem_append.mp mem with other | here
    · exact (roster.below block (mem_append_left _ other)).trans spec.next
    · rw [mem_singleton.mp here, spec.id]
      exact spec.next
  · obtain ⟨old, block', has', -, rfl⟩ := spec.inputs.exists_old has
    exact below block' (roster.entryBelow old block' port has')
  · obtain ⟨old, block', has', -, rfl⟩ := spec.outputs.exists_old has
    exact below block' (roster.exitBelow old block' port has')
  all_goals rcases mem_append.mp mem with other | here
  · rw [spec.inputs.exists_iff (outside block other).1 (outside block other).2]
    exact roster.entries block (mem_append_left _ other) entry
  · rw [mem_singleton.mp here]
    exact spec.inputs.mem entry
  · rw [spec.outputs.exists_iff (outside block other).1 (outside block other).2]
    exact roster.exits block (mem_append_left _ other) exit
  · rw [mem_singleton.mp here]
    exact spec.outputs.mem exit
  · exact roster.entriesNodup block (mem_append_left _ other)
  · rw [mem_singleton.mp here]
    exact spec.inputs.nodup
  · exact roster.exitsNodup block (mem_append_left _ other)
  · rw [mem_singleton.mp here]
    exact spec.outputs.nodup

variable (arranged : Arranged source origins kind place site (fixed ++ blocks))

include arranged

/-- Merged blocks are one block in the place of all of them. -/
private theorem arranged_merge (alike : ∀ block ∈ blocks, block.inputs ≠ [] → kind block.id = side)
    (spec : site.wiring.Merged blocks merged post input out)
    (nodes : ∀ id, id ∈ merged.nodes ↔ ∃ block ∈ blocks, id ∈ block.nodes)
    (known : ∀ id : NodeId, merged.origins[id]? =
      if ∃ block ∈ blocks, id ∈ block.nodes then some (origins.node id) else none) :
    Arranged source origins (Function.update kind merged.id side)
      (fun id => merging (blocks.map (·.id)) merged.id (place id))
      ⟨site.graph, post⟩ (fixed ++ [merged]) := by
  have ne : ∀ {id : NodeId} {node : Node}, site.graph.nodes[id]? = some node →
      place id ≠ merged.id := by
    intro id node got eq
    have below := arranged.place_below got
    rw [eq, spec.id] at below
    exact Nat.lt_irrefl _ below
  have placed : ∀ id node, site.graph.nodes[id]? = some node →
      (merging (blocks.map (·.id)) merged.id (place id) = merged.id ↔
        place id ∈ blocks.map (·.id)) := by
    intro id node got
    rw [merging]
    split
    · next member => exact iff_of_true rfl member
    · next outside => exact iff_of_false (ne got) outside
  refine
    { toRoster := spec.roster arranged.toRoster
      graph := arranged.graph
      faithful := arranged.faithful
      inside := fun out input first second feeds owned owned' => by
        simp only [arranged.inside out input first second feeds owned owned']
      bare := arranged.bare
      entryPlaced := fun entry block port has => ?_
      exitPlaced := fun exit block port has => ?_
      fits := fun block mem => ?_
      cover := fun id node got => ?_ }
  · obtain ⟨old, block', has', -, rfl⟩ := spec.inputs.exists_old has
    obtain ⟨owner, owned, rfl, shuffled⟩ := arranged.entryPlaced old block' port has'
    refine ⟨owner, owned, rfl, shuffled.trans ?_⟩
    rw [merging]
    split
    · next member =>
      obtain ⟨other, mem, eq⟩ := mem_map.mp member
      have listed := arranged.entries other (mem_append_right _ mem) old
      rw [Function.update_self, ← eq]
      exact alike other mem (ne_nil_of_mem (listed.mpr ⟨port, by rw [has', ← eq]⟩))
    · obtain ⟨node, got, -⟩ := arranged.graph.node_of_input owned
      rw [Function.update_of_ne (ne got)]
  · obtain ⟨old, block', has', -, rfl⟩ := spec.outputs.exists_old has
    obtain ⟨owner, owned, rfl⟩ := arranged.exitPlaced old block' port has'
    exact ⟨owner, owned, rfl⟩
  · rcases mem_append.mp mem with other | here
    · obtain ⟨outside, ne⟩ := spec.outside arranged.toRoster other
      have fits := arranged.fits block (mem_append_left _ other)
      refine ⟨fun id => ?_, fits.origins⟩
      rw [fits.nodes, merging_eq_iff outside ne]
    · obtain rfl := mem_singleton.mp here
      have inside : ∀ id, (∃ other ∈ blocks, id ∈ other.nodes) ↔ (place id ∈ blocks.map (·.id)) ∧
            ∃ node, site.graph.nodes[id]? = some node := by
        intro id
        simp only [mem_map, ← exists_and_right, and_assoc]
        refine exists_congr fun other => and_congr_right fun mem => ?_
        rw [(arranged.fits other (mem_append_right _ mem)).nodes, eq_comm]
      refine ⟨fun id => ?_, fun id origin => ?_⟩
      · rw [nodes, inside]
        constructor
        · rintro ⟨member, node, got⟩
          exact ⟨(placed id node got).mpr member, node, got⟩
        · rintro ⟨member, node, got⟩
          exact ⟨(placed id node got).mp member, node, got⟩
      · rw [known, nodes]
        split
        · next member => simp [member, eq_comm]
        · next outside => simp [outside]
  · obtain ⟨block, mem, eq⟩ := arranged.cover id node got
    rcases mem_append.mp mem with other | here
    · obtain ⟨outside, ne⟩ := spec.outside arranged.toRoster other
      exact ⟨block, mem_append_left _ other, (merging_eq_iff outside ne).mpr eq⟩
    · exact ⟨merged, by simp, (placed id node got).mpr (eq ▸ mem_map_of_mem here)⟩

/-- Merging succeeds, the merged blocks are arranged, and the same ports are joined
and wrapped. -/
theorem merge_eq_ok (some : blocks ≠ [])
    (alike : ∀ block ∈ blocks, block.inputs ≠ [] → kind block.id = side) :
    ∃ merged mapping W, Block.merge site blocks = .ok (merged, mapping, W) ∧
      merged.id = ⟨site.wiring.next⟩ ∧
      Arranged source origins (Function.update kind merged.id side)
        (fun id => merging (blocks.map (·.id)) merged.id (place id))
        ⟨site.graph, W⟩ (fixed ++ [merged]) ∧
      (∀ out input, W.Joins out input ↔ site.wiring.Joins out input) ∧
      (∀ port, W.Wraps port → site.wiring.Wraps port) ∧
      (∀ entry block port, block ≠ merged.id → W.entryOf entry = .some (block, port) →
        site.wiring.entryOf entry = .some (block, port)) ∧
      ∀ exit block port, block ≠ merged.id → W.exitOf exit = .some (block, port) →
        site.wiring.exitOf exit = .some (block, port) := by
  have roster := arranged.toRoster.sublist (sublist_append_right fixed blocks)
  obtain ⟨merged, mapping, W, run, nodes, known, spec⟩ :=
    roster.merge_spec some (Block.checkAlike_eq_ok fun block mem entered => by
      rw [arranged.isReduce_eq_ok (mem_append_right _ mem), alike block mem entered,
        isEmpty_eq_false_iff.mpr entered])
  refine ⟨merged, mapping, W, run, spec.id, ?_,
    spec.inputs.joins spec.outputs spec.linked arranged.wf, fun port wraps => ?_,
    fun _ _ _ => spec.inputs.of_other, fun _ _ _ => spec.outputs.of_other⟩
  swap
  · obtain ⟨exit, block, left⟩ := wraps
    obtain ⟨old, block', left', -⟩ := spec.outputs.onto exit block port left
    exact ⟨old, block', left'⟩
  refine arranged_merge arranged alike spec (fun id => by rw [nodes, HandleSet.mem_gather])
    fun id => ?_
  rw [known]
  simpa using getElem?_origins
    (fun block mem => (arranged.fits block (mem_append_right fixed mem)).origins) ∅ id

end Merge

end Staging
