import Mathlib.Data.List.Flatten
import Staging.Proofs.Loops
import Staging.Stage

/-! # Blocks and stages in turn

Blocks are changed one after the other, and stages are compacted in turn until they do not
get smaller. What is known of blocks lasts through these loops if it depends neither on
their order nor on empty ones and a change of one block keeps it.
-/

namespace Staging

open List

variable {sure : Prop} {inv : List Block → Site → Prop} {target : BlockId → Prop}
  {change : Placed → Except Fault Placed} {rest : List Block} {site : Site}

/-- It depends neither on the order of blocks nor on empty ones. -/
structure Lasting (inv : List Block → Site → Prop) : Prop where
  perm : ∀ {blocks blocks' site}, inv blocks site → blocks.Perm blocks' → inv blocks' site
  sparse : ∀ {blocks blocks' site}, inv blocks site → blocks'.Sublist blocks →
    (∀ block ∈ blocks, block.isEmpty = false → block ∈ blocks') → inv blocks' site

/-- A change of one of the blocks in question keeps what is known. -/
def Upholds (sure : Prop) (inv : List Block → Site → Prop) (target : BlockId → Prop)
    (change : Placed → Except Fault Placed) : Prop :=
  ∀ {block rest site}, target block.id → inv (block :: rest) site →
    Yields sure (change ⟨site.graph, site.wiring, block⟩) fun post =>
      post.block.id = block.id ∧ inv (post.block :: rest) ⟨post.graph, post.wiring⟩

private theorem Lasting.changeEach {blocks : List Block} (lasting : Lasting inv)
    (upholds : Upholds sure inv target change)
    (within : ∀ id ∈ blocks.map (·.id), target id) (start : inv (rest ++ blocks) site) :
    Yields sure (site.changeEach change blocks) fun state =>
      inv (rest ++ state.1) state.2 ∧ state.1.map (·.id) = blocks.map (·.id) := by
  refine (Yields.foldlM (fun later state => inv (rest ++ state.1 ++ later) state.2 ∧
      (state.1 ++ later).map (·.id) = blocks.map (·.id)) ?_ (by simpa using start)).mono
    fun _ held => by simpa using held
  rintro block later ⟨done, now⟩ ⟨held, ids⟩
  have mem : block.id ∈ blocks.map (·.id) := by simp [← ids]
  refine (upholds (within block.id mem) (lasting.perm held perm_middle)).bind
    fun post ⟨eq, held'⟩ => .pure ⟨lasting.perm held' ?_, ?_⟩
  · rw [← append_assoc, append_assoc _ [post.block], singleton_append]
    exact perm_middle.symm
  · rw [← ids]
    simp [eq]

theorem Lasting.compactBlocks {blocks : List Block} (lasting : Lasting inv)
    (upholds : Upholds sure inv target Placed.compact)
    (within : ∀ id ∈ blocks.map (·.id), target id) (start : inv blocks site) :
    Yields sure (Block.compactAll blocks site) fun state =>
      inv state.1 state.2 ∧ state.1.map (·.id) = blocks.map (·.id) := by
  refine .shrinkM (fun state : List Block × Site => inv state.1 state.2 ∧
    state.1.map (·.id) = blocks.map (·.id)) (fun state ⟨held, ids⟩ => ?_) ⟨start, rfl⟩
  have alone : inv ([] ++ state.1) state.2 := held
  exact (lasting.changeEach upholds (ids ▸ within) alone).mono fun _ ⟨held', ids'⟩ =>
    ⟨held', ids'.trans ids⟩

namespace Stage

/-! ## Stages that shrink -/

/-- A stage without reduce blocks has lost map blocks at most, and a stage with
reduce blocks is the same. -/
structure Shrinks (pre post : Stage) : Prop where
  reduces : post.reduces = pre.reduces
  maps : (post.maps.map (·.id)).Sublist (pre.maps.map (·.id))
  eq : pre.hasReduce = true → post = pre

theorem Shrinks.refl (stage : Stage) : stage.Shrinks stage := ⟨rfl, .refl _, fun _ => rfl⟩

theorem Shrinks.trans {first second third : Stage} (one : first.Shrinks second)
    (two : second.Shrinks third) : first.Shrinks third where
  reduces := two.reduces.trans one.reduces
  maps := two.maps.trans one.maps
  eq reduce := (two.eq (one.eq reduce ▸ reduce)).trans (one.eq reduce)

theorem Shrinks.hasReduce {pre post : Stage} (shrinks : pre.Shrinks post) :
    post.hasReduce = pre.hasReduce := by
  rw [Stage.hasReduce, shrinks.reduces, Stage.hasReduce]

/-- What stages keep when they shrink is kept by all when one shrinks. -/
theorem Shrinks.forall_mem {fits : Stage → Prop}
    (kept : ∀ {stage stage'}, stage.Shrinks stage' → fits stage → fits stage')
    (early : List Stage) (stage stage' : Stage) (late : List Stage) (shrinks : stage.Shrinks stage')
    (all : ∀ other ∈ early ++ stage :: late, fits other) :
    ∀ other ∈ early ++ stage' :: late, fits other := by
  simp only [forall_mem_append, forall_mem_cons] at all ⊢
  exact ⟨all.1, kept shrinks all.2.1, all.2.2⟩

/-- The handle is that of a map block of a stage without reduce blocks. -/
def Loose (stages : List Stage) (id : BlockId) : Prop :=
  ∃ stage ∈ stages, stage.hasReduce = false ∧ id ∈ stage.maps.map (·.id)

theorem Loose.of_shrinks {stages stages' : List Stage}
    (shrinks : ∀ stage ∈ stages', ∃ whole ∈ stages, whole.Shrinks stage) {id : BlockId}
    (loose : Loose stages' id) : Loose stages id := by
  obtain ⟨stage, mem, plain, own⟩ := loose
  obtain ⟨whole, mem', shrinks⟩ := shrinks stage mem
  exact ⟨whole, mem', shrinks.hasReduce ▸ plain, shrinks.maps.subset own⟩

/-! ## Compaction of stages -/

section Compact

variable {stage : Stage} {stages : List Stage} (lasting : Lasting inv)
  (upholds : Upholds sure inv target Placed.bypass)

include lasting upholds

private theorem bypassRound_yields {maps : List Block} (within : ∀ id ∈ maps.map (·.id), target id)
    (start : inv (rest ++ maps) site) : Yields sure (bypassRound (maps, site)) fun state =>
      inv (rest ++ state.1) state.2 ∧ (state.1.map (·.id)).Sublist (maps.map (·.id)) := by
  refine (lasting.changeEach upholds within start).bind fun state ⟨held, ids⟩ =>
    .pure ⟨lasting.sparse held ((Sublist.refl _).append filter_sublist) fun block mem filled => ?_,
      ids ▸ filter_sublist.map _⟩
  rcases mem_append.mp mem with early | late
  · exact mem_append_left _ early
  · exact mem_append_right _ (mem_filter.mpr ⟨late, by simp [filled]⟩)

private theorem compact_yields (within : ∀ id, Loose [stage] id → target id)
    (start : inv (rest ++ stage.blocks) site) : Yields sure (stage.compact site) fun state =>
      inv (rest ++ state.1.blocks) state.2 ∧ stage.Shrinks state.1 := by
  rw [compact]
  split
  · exact .pure ⟨start, .refl stage⟩
  · next plain =>
    have bare : stage.reduces = [] := by simpa [hasReduce] using plain
    rw [blocks, bare, append_nil] at start
    refine (Yields.shrinkM (fun state : List Block × Site => inv (rest ++ state.1) state.2 ∧
        (state.1.map (·.id)).Sublist (stage.maps.map (·.id))) (fun state ⟨held, ids⟩ => ?_)
      ⟨start, .refl _⟩).bind fun state ⟨held, ids⟩ => .pure ⟨?_, rfl, ids, fun reduce =>
        absurd reduce plain⟩
    · exact (bypassRound_yields lasting upholds (fun id own => within id
        ⟨stage, mem_singleton_self _, by simpa using plain, ids.subset own⟩) held).mono
        fun _ ⟨held', ids'⟩ => ⟨held', ids'.trans ids⟩
    · rwa [blocks, bare, append_nil]

variable (keep : List Stage → Prop) (shrinks : ∀ early stage stage' late, stage.Shrinks stage' →
  keep (early ++ stage :: late) → keep (early ++ stage' :: late))
  (within : ∀ {stages}, keep stages → ∀ id, Loose stages id → target id)

include shrinks within

private theorem compactRound_yields (start : inv (stages.flatMap blocks) site) (fit : keep stages) :
    Yields sure (compactRound (stages, site)) fun state =>
      inv (state.1.flatMap blocks) state.2 ∧ keep state.1 := by
  refine (Yields.foldlM (fun later (state : List Stage × Site) =>
    inv (state.1.flatMap blocks ++ later.flatMap blocks) state.2 ∧ keep (state.1 ++ later)) ?_
    (by exact ⟨start, fit⟩)).mono fun _ held => by simpa using held
  rintro stage later ⟨done, now⟩ ⟨held, fit⟩
  rw [flatMap_cons, ← append_assoc] at held
  refine (compact_yields lasting upholds (fun id ⟨other, has, loose⟩ => within fit id
    ⟨other, by simp_all, loose⟩) (lasting.perm held (perm_append_right_comm ..))).bind
    fun state ⟨held', shrunk⟩ =>
      .pure ⟨lasting.perm held' ?_, by simpa using shrinks _ _ _ _ shrunk fit⟩
  rw [flatMap_append, flatMap_singleton]
  exact perm_append_right_comm ..

/-- Compaction keeps what lasts, and whatever is kept when stages shrink or are left out. -/
theorem compactAll_yields (fewer : ∀ stages stages', stages'.Sublist stages → keep stages →
      keep stages') (start : inv (stages.flatMap blocks) site) (fit : keep stages) :
    Yields sure (compactAll stages site) fun state =>
      inv (state.1.flatMap blocks) state.2 ∧ keep state.1 := by
  refine (Yields.shrinkM (fun state : List Stage × Site => inv (state.1.flatMap blocks) state.2 ∧
      keep state.1) (fun state ⟨held, fit⟩ => compactRound_yields lasting upholds keep shrinks
        within held fit) ⟨start, fit⟩).bind fun state ⟨held, fit⟩ => .pure
    ⟨lasting.sparse held (filter_sublist.flatMap blocks) fun block mem filled => ?_,
      fewer _ _ filter_sublist fit⟩
  obtain ⟨stage, within, own⟩ := mem_flatMap.mp mem
  refine mem_flatMap.mpr ⟨stage, mem_filter.mpr ⟨within, ?_⟩, own⟩
  rcases mem_append.mp own with map | reduce
  · have : ¬ (stage.maps.all fun block => block.isEmpty) := fun all => by
      simp [all_eq_true.mp all block map] at filled
    simp [isEmpty, this]
  · simp [isEmpty, ne_nil_of_mem reduce]

end Compact

end Stage

end Staging
