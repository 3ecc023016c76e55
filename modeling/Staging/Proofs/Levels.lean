import Staging.Proofs.Merging
import Staging.Proofs.Narrowing
import Staging.Proofs.Ordering
import Staging.Proofs.Turns

/-! # Levels of blocks

Blocks stand at levels such that links rise from block to block, and a level
says at which nodes the blocks of it are entered. Changes of one block keep the
levels, because what they add leads through the block, and blocks of one level
can be merged into a block of that level.
-/

namespace Staging

open Std List

variable {blocks : List Block} {stage : Stage} {G graph source : Graph} {sides : Bool → Prop}
  {block : Block} {stages stages' : List Stage} {α : Type} {rises : α → α → Prop}
  {faces : α → Bool → Prop} {level : BlockId → Option α} {fixed blocks' rest : List Block}
  {site site' : Site}

/-- The blocks have nodes of their own. -/
def Block.Apart (first second : Block) : Prop :=
  ∀ id ∈ first.nodes, id ∉ second.nodes

theorem Block.Apart.symm {first second : Block} (apart : first.Apart second) : second.Apart first :=
  fun id own own' => apart id own' own

/-- Blocks list their block ports, links between levels rise, and the blocks of a level are
entered at the nodes that the level faces. -/
structure Leveled (rises : α → α → Prop) (faces : α → Bool → Prop) (level : BlockId → Option α)
    (fixed blocks : List Block) (site : Site) : Prop where
  graph : site.graph.Consistent
  roster : Roster site.wiring (fixed ++ blocks)
  known : ∀ block ∈ blocks, ∃ height, level block.id = some height
  rises : ∀ first second height height', site.wiring.Leads first second →
    level first = some height → level second = some height' → rises height height'
  apart : blocks.Pairwise Block.Apart
  faces : ∃ source, ∀ block ∈ blocks, ∀ height, level block.id = some height →
    Placed.Faces source (faces height) ⟨site.graph, site.wiring, block⟩

namespace Leveled

theorem perm (leveled : Leveled rises faces level fixed blocks site)
    (permuted : blocks.Perm blocks') :
    Leveled rises faces level fixed blocks' site where
  graph := leveled.graph
  roster := leveled.roster.perm ((Perm.refl _).append permuted)
  known block mem := leveled.known block (permuted.mem_iff.mpr mem)
  rises := leveled.rises
  apart := leveled.apart.perm permuted Block.Apart.symm
  faces := by
    obtain ⟨source, faced⟩ := leveled.faces
    exact ⟨source, fun block mem => faced block (permuted.mem_iff.mpr mem)⟩

theorem sublist (leveled : Leveled rises faces level fixed blocks site)
    (sub : blocks'.Sublist blocks) :
    Leveled rises faces level fixed blocks' site where
  graph := leveled.graph
  roster := leveled.roster.sublist ((Sublist.refl _).append sub)
  known block mem := leveled.known block (sub.subset mem)
  rises := leveled.rises
  apart := leveled.apart.sublist sub
  faces := by
    obtain ⟨source, faced⟩ := leveled.faces
    exact ⟨source, fun block mem => faced block (sub.subset mem)⟩

theorem subperm (leveled : Leveled rises faces level fixed blocks site)
    (part : blocks'.Subperm blocks) : Leveled rises faces level fixed blocks' site := by
  obtain ⟨mem, permuted, sub⟩ := part
  exact (leveled.sublist sub).perm permuted

theorem lasting : Lasting (Leveled rises faces level fixed) :=
  ⟨fun leveled => leveled.perm, fun leveled sub _ => leveled.sublist sub⟩

/-! ## Changes of blocks -/

section Narrow

variable [IsTrans α rises]

/-- A block whose changes lead through it keeps its level. -/
theorem narrowed {post : Placed} (leveled : Leveled rises faces level fixed (block :: rest) site)
    (narrowed : Placed.Narrowed (fixed ++ rest) ⟨site.graph, site.wiring, block⟩ post) :
    Leveled rises faces level fixed (post.block :: rest) ⟨post.graph, post.wiring⟩ where
  graph := narrowed.graph
  roster := narrowed.roster.perm perm_middle.symm
  known other mem := by
    rcases mem_cons.mp mem with rfl | later
    · rw [narrowed.id]
      exact leveled.known block (.head _)
    · exact leveled.known other (.tail _ later)
  rises first second height height' leads one two := by
    rcases narrowed.leads first second leads with direct | ⟨into, outOf⟩
    · exact leveled.rises first second height height' direct one two
    · obtain ⟨middle, between⟩ := leveled.known block (.head _)
      exact IsTrans.trans height middle height'
        (leveled.rises first block.id height middle into one between)
        (leveled.rises block.id second middle height' outOf between two)
  apart := by
    obtain ⟨front, rest⟩ := pairwise_cons.mp leveled.apart
    exact pairwise_cons.mpr ⟨fun other mem id own => front other mem id
      (narrowed.nodes id own), rest⟩
  faces := by
    obtain ⟨source, faced⟩ := leveled.faces
    refine ⟨source, fun other mem height stands => ?_⟩
    rcases mem_cons.mp mem with rfl | later
    · exact narrowed.faces (faced block (.head _) height (narrowed.id ▸ stands))
    · have nodup := (leveled.roster.sublist (sublist_append_right _ _)).nodup
      rw [map_cons, nodup_cons] at nodup
      have ne : other.id ≠ block.id := by
        intro eq
        exact nodup.1 (mem_map.mpr ⟨other, later, eq⟩)
      have foreign := (pairwise_cons.mp leveled.apart).1 other later
      refine (faced other (.tail _ later) height stands).congr leveled.graph
        narrowed.graph (fun id own => narrowed.outside (foreign.symm id own)) (fun _ _ => id)
        (fun entry port => narrowed.entries entry other.id port ne)
        fun exit port => narrowed.exits exit other.id port ne

theorem upholds {change : Placed → Except Fault Placed}
    (narrows : ∀ {B post : Placed} {others : List Block}, B.graph.Consistent →
      Roster B.wiring (B.block :: others) → change B = .ok post →
      Placed.Narrowed others B post) :
    Upholds False (Leveled rises faces level fixed) (fun _ => True) change := by
  refine fun _ leveled => ⟨False.elim, fun post run => ?_⟩
  have narrowed := narrows leveled.graph (leveled.roster.perm perm_middle) run
  exact ⟨narrowed.id, leveled.narrowed narrowed⟩

theorem compactAll (leveled : Leveled rises faces level fixed blocks site)
    (run : Block.compactAll blocks site = .ok (blocks', site')) :
    Leveled rises faces level fixed blocks' site' :=
  ((lasting.compactBlocks (upholds Placed.narrowed_compact) (fun _ _ => trivial) leveled).good _
    run).1

/-- Compaction keeps whatever is kept when stages shrink or are left out. -/
theorem compactStages (keep : List Stage → Prop)
    (shrinks : ∀ early stage stage' late, stage.Shrinks stage' →
      keep (early ++ stage :: late) → keep (early ++ stage' :: late))
    (fewer : ∀ stages stages', stages'.Sublist stages → keep stages → keep stages')
    (leveled : Leveled rises faces level fixed (stages.flatMap Stage.blocks) site)
    (start : keep stages) (run : Stage.compactAll stages site = .ok (stages', site')) :
    Leveled rises faces level fixed (stages'.flatMap Stage.blocks) site' ∧ keep stages' :=
  (Stage.compactAll_yields lasting (upholds Placed.narrowed_bypass) keep shrinks
    (fun _ _ _ => trivial) fewer leveled start).good _ run

end Narrow

end Leveled

/-! ## Merged blocks -/

section Merge

variable {pre post : Wiring} {merged : Block} {input : BlockInputId → BlockInputId}
  {out : BlockOutputId → BlockOutputId} {height : Bool → α}

/-- Links between merged blocks come from links between the blocks. -/
theorem Wiring.Merged.leads (spec : pre.Merged blocks merged post input out)
    (wf : pre.Consistent) {first second : BlockId} (leads : post.Leads first second) :
    ∃ source target, pre.Leads source target ∧
      merging (blocks.map (·.id)) merged.id source = first ∧
      merging (blocks.map (·.id)) merged.id target = second := by
  obtain ⟨exit, entry, port, port', leaves, entered, link⟩ := leads
  obtain ⟨exit', entry', link', rfl, rfl⟩ := (spec.linked exit entry).mp link
  obtain ⟨⟨source, out⟩, leaves'⟩ := Wiring.exists_exitOf_of_linked link'
  obtain ⟨⟨target, input⟩, entered'⟩ := wf.exists_entryOf link'
  have image := spec.outputs.image exit' source out leaves'
  have image' := spec.inputs.image entry' target input entered'
  rw [leaves, Option.some.injEq, Prod.mk.injEq] at image
  rw [entered, Option.some.injEq, Prod.mk.injEq] at image'
  exact ⟨source, target, ⟨exit', entry', out, input, leaves', entered', link'⟩, image.1.symm,
    image'.1.symm⟩

/-- Block ports of the merged block wrap what those of the blocks wrapped. -/
private theorem opensAt_merged {role : Role} {γ : Type} {ids : List BlockId} {id : BlockId}
    {of of' : Handle role → Option (BlockId × γ)} {rename : Handle role → Handle role}
    {made : List (Handle role)} {owner? : γ → Option NodeId} {known : NodeId → Prop}
    (merged : PortsMerged ids id of of' rename made)
    (unused : ∀ handle port, of handle ≠ some (id, port))
    (opens : ∀ block ∈ ids, OpensAt of owner? block known) : OpensAt of' owner? id known := by
  intro handle port wraps
  obtain ⟨old, block, has, -, eq⟩ := merged.exists_old wraps
  have member : block ∈ ids := by
    by_contra absent
    rw [merging, if_neg absent] at eq
    exact unused old port (eq ▸ has)
  exact opens block member old port has

/-- The copies of merged blocks are copies in the merged block. -/
theorem Block.copiesFrom_gather (nodes : merged.nodes = HandleSet.gather blocks (·.nodes))
    (origins : merged.origins =
      blocks.foldl (fun origins block => origins.insertMany block.origins.toList) ∅)
    (copies : ∀ block ∈ blocks, block.CopiesFrom source G) : merged.CopiesFrom source G := by
  intro copy origin named
  rw [origins] at named
  obtain ⟨block, mem, named⟩ := (exists_origin named).resolve_left (by simp)
  obtain ⟨own, rest⟩ := copies block mem copy origin named
  exact ⟨nodes ▸ HandleSet.mem_gather.mpr ⟨block, mem, own⟩, rest⟩

/-- The merged block faces what the blocks faced. -/
theorem Wiring.Merged.faces_merged (spec : pre.Merged blocks merged post input out)
    (roster : Roster pre blocks)
    (nodes : merged.nodes = HandleSet.gather blocks fun block => block.nodes)
    (origins : merged.origins =
      blocks.foldl (fun origins block => origins.insertMany block.origins.toList) ∅)
    (faced : ∀ block ∈ blocks, Placed.Faces source sides ⟨G, pre, block⟩) :
    Placed.Faces source sides ⟨G, post, merged⟩ := by
  have inside : ∀ {id : NodeId} {block : Block}, block ∈ blocks → id ∈ block.nodes →
      id ∈ merged.nodes := by
    intro id block mem own
    rw [nodes, HandleSet.mem_gather]
    exact ⟨block, mem, own⟩
  refine ⟨⟨opensAt_merged spec.inputs (spec.id ▸ roster.entry_unused) ?_,
    opensAt_merged spec.outputs (spec.id ▸ roster.exit_unused) ?_⟩,
    Block.copiesFrom_gather nodes origins fun block mem => (faced block mem).copies⟩
  · exact forall_mem_map.mpr fun block mem => (faced block mem).entered.mono
      fun owner port own owned => ⟨own.imp_left (inside mem), owned⟩
  · exact forall_mem_map.mpr fun block mem => (faced block mem).left.mono
      fun owner port own owned => ⟨inside mem own, owned⟩

/-- Blocks that are not merged face what they faced. -/
theorem Wiring.Merged.faces_other (spec : pre.Merged blocks merged post input out)
    (old : block.id ≠ merged.id) (faced : Placed.Faces source sides ⟨G, pre, block⟩) :
    Placed.Faces source sides ⟨G, post, block⟩ where
  entered := faced.entered.imp (fun _ _ => spec.inputs.of_other old) fun _ _ => .intro
  left := faced.left.imp (fun _ _ => spec.outputs.of_other old) fun _ _ => .intro
  copies := faced.copies

namespace Leveled

variable [IsTrans α rises]

/-- Blocks of one level are merged into a block of that level. -/
theorem mergeBlocks {height : α} (leveled : Leveled rises faces level fixed (rest ++ blocks) site)
    (even : ∀ block ∈ blocks, level block.id = some height)
    (run : Stage.mergeBlocks blocks site = .ok (blocks', site')) :
    ∃ level', Leveled rises faces level' fixed (rest ++ blocks') site' ∧
      (∀ block ∈ blocks', level' block.id = some height) ∧
      ∀ block ∈ fixed ++ rest, level' block.id = level block.id := by
  rw [Stage.mergeBlocks] at run
  split at run
  · next none =>
    cases run
    rw [isEmpty_iff.mp none] at leveled
    exact ⟨level, leveled, by simp, fun _ _ => rfl⟩
  next filled =>
  obtain ⟨⟨merged, mapping, W⟩, merges, run⟩ := of_bind run
  obtain ⟨unified, unifies, run⟩ := of_bind run
  obtain ⟨B, compacts, ⟨⟩⟩ := of_bind run
  have roster := leveled.roster
  rw [← append_assoc] at roster
  have alike : Block.checkAlike site blocks = .ok () := by
    rw [Block.merge, if_neg filled] at merges
    obtain ⟨_, alike, -⟩ := of_bind merges
    exact alike
  have roster' := roster.sublist (sublist_append_right _ _)
  obtain ⟨_, _, _, merges', nodes, origins, spec⟩ :=
    roster'.merge_spec (by simpa using filled) alike
  cases merges.symm.trans merges'
  let level' := Function.update level merged.id (some height)
  have old : ∀ id : BlockId, id.raw < site.wiring.next → level' id = level id := by
    intro id below
    refine Function.update_of_ne ?_ _ _
    rintro rfl
    rw [spec.id] at below
    exact Nat.lt_irrefl _ below
  -- a merged block has the level of each block that it is made of
  have traced : ∀ id reached, id.raw < site.wiring.next →
      level' (merging (blocks.map (·.id)) merged.id id) = some reached →
      level id = some reached := by
    intro id reached below got
    rw [merging] at got
    split at got
    · next has =>
      obtain ⟨block, mem, rfl⟩ := mem_map.mp has
      rw [even block mem, ← got]
      exact (Function.update_self merged.id (some height) level).symm
    · rwa [old id below] at got
  have front : Leveled rises faces level' fixed (merged :: rest) ⟨site.graph, W⟩ := by
    refine ⟨leveled.graph, ?_, fun block mem => ?_, fun first second one two leads got got' => ?_,
      ?_, ?_⟩
    · refine (spec.roster roster).perm ?_
      rw [append_assoc]
      exact (Perm.refl _).append (perm_append_singleton _ _)
    · rcases mem_cons.mp mem with rfl | later
      · exact ⟨height, Function.update_self ..⟩
      · rw [old block.id (roster.below block (by simp [later]))]
        exact leveled.known block (mem_append_left _ later)
    · obtain ⟨source, target, led, rfl, rfl⟩ := spec.leads roster.wf leads
      obtain ⟨exit, entry, out, input, leaves, entered, link⟩ := led
      refine leveled.rises source target one two ⟨exit, entry, out, input, leaves, entered, link⟩
        (traced source one ?_ got) (traced target two ?_ got')
      · exact roster.exitBelow exit source out leaves
      · exact roster.entryBelow entry target input entered
    · obtain ⟨early, -, across⟩ := pairwise_append.mp leveled.apart
      refine pairwise_cons.mpr ⟨fun other mem id own own' => ?_, early⟩
      rw [nodes, HandleSet.mem_gather] at own
      obtain ⟨block, has, own⟩ := own
      exact across other mem block has id own' own
    · obtain ⟨source, faced⟩ := leveled.faces
      refine ⟨source, fun block mem reached stands => ?_⟩
      rcases mem_cons.mp mem with eq | later
      · have stands' : level' merged.id = some height := Function.update_self ..
        rw [eq, stands'] at stands
        cases stands
        rw [eq]
        exact spec.faces_merged roster' nodes origins fun part has =>
          faced part (mem_append_right _ has) height (even part has)
      · have ne := (spec.outside roster (mem_append_right fixed later)).2
        rw [old block.id (roster.below block (by simp [later]))] at stands
        exact spec.faces_other ne (faced block (mem_append_left _ later) reached stands)
  have narrowed := Placed.narrowed_unify front.graph (front.roster.perm perm_middle) unifies
  have narrowed' := narrowed.trans (Placed.narrowed_compact narrowed.graph narrowed.roster compacts)
  refine ⟨level', (front.narrowed narrowed').perm (perm_append_singleton _ _).symm,
    fun block mem => ?_, fun block mem => ?_⟩
  · rw [mem_singleton.mp mem, narrowed'.id]
    exact Function.update_self ..
  · exact old block.id (roster.below block (mem_append_left _ mem))

end Leveled

/-- The map blocks of a stage are of one level, and its reduce blocks of one. -/
def Stage.At (level : BlockId → Option α) (height : Bool → α) (stage : Stage) : Prop :=
  (∀ block ∈ stage.maps, level block.id = some (height false)) ∧
    ∀ block ∈ stage.reduces, level block.id = some (height true)

theorem Stage.At.congr {level' : BlockId → Option α} (at' : stage.At level height)
    (eq : ∀ block ∈ stage.blocks, level' block.id = level block.id) : stage.At level' height :=
  ⟨fun block own => (eq block (mem_append_left _ own)).trans (at'.1 block own),
    fun block own => (eq block (mem_append_right _ own)).trans (at'.2 block own)⟩

theorem Stage.At.shrinks {pre post : Stage} (stands : pre.At level height)
    (shrinks : pre.Shrinks post) : post.At level height := by
  refine ⟨fun block own => ?_, fun block own => stands.2 block (shrinks.reduces ▸ own)⟩
  obtain ⟨other, mem, eq⟩ := mem_map.mp (shrinks.maps.subset (mem_map_of_mem own))
  exact eq ▸ stands.1 other mem

namespace Leveled

variable [IsTrans α rises]

/-- Stages at the same levels are merged into one, if there are any. -/
theorem mergeStages
    (leveled : Leveled rises faces level fixed (rest ++ stages.flatMap Stage.blocks) site)
    (even : ∀ stage ∈ stages, stage.At level height)
    (run : Stage.mergeStages stages site = .ok (stages', site')) :
    ∃ level', Leveled rises faces level' fixed (rest ++ stages'.flatMap Stage.blocks) site' ∧
      (∀ stage ∈ stages', stage.At level' height) ∧ stages'.length ≤ 1 ∧
      ∀ block ∈ fixed ++ rest, level' block.id = level block.id := by
  rw [Stage.mergeStages.eq_def] at run
  split at run
  · cases run
    exact ⟨level, leveled, even, Nat.zero_le _, fun _ _ => rfl⟩
  · cases run
    exact ⟨level, leveled, even, Nat.le_refl _, fun _ _ => rfl⟩
  · obtain ⟨⟨maps, site₁⟩, mapped, run⟩ := of_bind run
    obtain ⟨⟨reduces, site₂⟩, reduced, ⟨⟩⟩ := of_bind run
    replace leveled := leveled.perm ((Perm.refl rest).append (Stage.perm_flatMap_blocks stages))
    rw [← append_assoc] at leveled
    obtain ⟨level₁, leveled₁, even₁, kept₁⟩ := leveled.mergeBlocks (fun block mem => by
      obtain ⟨stage, has, own⟩ := mem_flatMap.mp mem
      exact (even stage has).1 block own) mapped
    obtain ⟨level₂, leveled₂, even₂, kept₂⟩ :=
      (leveled₁.perm (perm_append_right_comm ..)).mergeBlocks (fun block mem => by
        obtain ⟨stage, has, own⟩ := mem_flatMap.mp mem
        rw [kept₁ block (mem_append_right _ (mem_append_right _ mem))]
        exact (even stage has).2 block own) reduced
    refine ⟨level₂, by simpa [Stage.blocks] using leveled₂, fun stage mem => ?_, Nat.le_refl _,
      fun block mem => ?_⟩
    · rw [mem_singleton.mp mem]
      exact ⟨fun block own => (kept₂ block (mem_append_right _
        (mem_append_right _ own))).trans (even₁ block own), even₂⟩
    · rw [kept₂ block, kept₁ block]
      · rw [← append_assoc]
        exact mem_append_left _ mem
      · rw [← append_assoc]
        exact mem_append_left _ mem

/-- Stages of one kind and distance stand at the same levels and are merged. -/
theorem mergeAll (height : Bool × Nat → Bool → α)
    (leveled : Leveled rises faces level fixed (stages.flatMap Stage.blocks) site)
    {deps : Dependencies} {distances : List Nat}
    (known : Stage.dependencies stages site.wiring = .ok deps)
    (measured : deps.distances = .ok distances)
    (even : ∀ (place : Nat) (stage : Stage) (distance : Nat), stages[place]? = some stage →
      distances[place]? = some distance → stage.At level (height (stage.hasReduce, distance)))
    (run : Stage.mergeAll stages site = .ok (stages', site')) :
    ∃ level' keys, Leveled rises faces level' fixed (stages'.flatMap Stage.blocks) site' ∧
      keys.Nodup ∧ Forall₂ (fun stage key => stage.At level' (height key)) stages' keys ∧
      ∀ block ∈ fixed, level' block.id = level block.id := by
  have permuted := Stage.perm_buckets leveled.roster known measured
  obtain ⟨_, known', run⟩ := of_bind run
  cases known.symm.trans known'
  obtain ⟨_, measured', run⟩ := of_bind run
  cases measured.symm.trans measured'
  let inv : List (List Stage) → List Stage × Site → Prop := fun later state =>
    ∃ level' done todo, later = todo.map (Stage.bucket stages distances) ∧
      Leveled rises faces level' fixed
        (state.1.flatMap Stage.blocks ++ later.flatten.flatMap Stage.blocks) state.2 ∧
      (done ++ todo).Nodup ∧
      Forall₂ (fun stage key => stage.At level' (height key)) state.1 done ∧
      (∀ key ∈ todo, ∀ stage ∈ Stage.bucket stages distances key, stage.At level' (height key)) ∧
      ∀ block ∈ fixed, level' block.id = level block.id
  obtain ⟨level', done, todo, -, leveled', nodup, heights, -, kept⟩ : inv [] (stages', site') := by
    have start : inv (Stage.buckets stages distances) ([], site) := by
      refine ⟨level, [], Stage.bucketKeys stages.length, Stage.buckets_eq stages distances,
        leveled.perm (permuted.symm.flatMap_right Stage.blocks), Stage.nodup_bucketKeys _, .nil,
        fun key _ stage mem => ?_, fun _ _ => rfl⟩
      obtain ⟨place, got, got', eq⟩ := Stage.mem_bucket mem
      have := even place stage key.2 got got'
      rwa [eq] at this
    refine foldlM_carries inv ?_ start run
    rintro bucket later ⟨merged, now⟩ ⟨merged', next⟩
      ⟨level', done, todo, mem, leveled, nodup, heights, even, kept⟩ stepped
    obtain ⟨⟨new, _⟩, ran, ⟨⟩⟩ := of_bind stepped
    cases todo with
    | nil => cases mem
    | cons key todo =>
      obtain ⟨rfl, rfl⟩ := cons.inj mem
      rw [flatten_cons, flatMap_append, ← append_assoc] at leveled
      obtain ⟨level'', leveled', even', single, kept'⟩ :=
        (leveled.perm (perm_append_right_comm ..)).mergeStages (even key (.head _)) ran
      replace leveled' := leveled'.perm (perm_append_right_comm ..)
      rw [← flatMap_append] at leveled'
      have heights' : Forall₂ (fun stage key => stage.At level'' (height key)) merged done := by
        refine forall₂_iff_get.mpr ⟨heights.length_eq, fun place inside inside' => ?_⟩
        refine (heights.get inside inside').congr fun block own => kept' block ?_
        exact mem_append_right _ (mem_append_left _ (mem_flatMap.mpr ⟨_, get_mem _ _, own⟩))
      have todo' : ∀ other ∈ todo, ∀ stage ∈ Stage.bucket stages distances other,
          stage.At level'' (height other) := by
        intro other later stage mem
        refine (even other (.tail _ later) stage mem).congr fun block own =>
          kept' block (mem_append_right _ (mem_append_right _ ?_))
        exact mem_flatMap.mpr ⟨stage, mem_flatten.mpr ⟨_, mem_map_of_mem later, mem⟩, own⟩
      have fixed' : ∀ block ∈ fixed, level'' block.id = level block.id := fun block mem =>
        (kept' block (mem_append_left _ mem)).trans (kept block mem)
      match new, single, even' with
      | [], _, _ =>
        exact ⟨level'', done, todo, rfl, leveled',
          nodup.sublist ((Sublist.refl _).append (sublist_cons_self _ _)),
          by simpa using heights', todo', fixed'⟩
      | [stage], _, even' =>
        refine ⟨level'', done ++ [key], todo, rfl, leveled', by simpa using nodup,
          ?_, todo', fixed'⟩
        exact rel_append heights' (.cons (even' stage (mem_singleton_self _)) .nil)
  exact ⟨level', done, by simpa using leveled', (nodup_append.mp nodup).1, heights, kept⟩

end Leveled

end Merge

end Staging
