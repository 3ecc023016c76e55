import Mathlib.Logic.Relation
import Staging.Proofs.Handles
import Staging.Spread

/-! # Searches find what steps reach

A search that may take as many rounds as there are handles to find ends only
when its frontier is empty. What it has seen by then is closed under steps, so
that it is exactly what any number of steps reaches.
-/

namespace Staging

open Std Relation ExtTreeSet HandleSet

variable {role : Role}

/-- Some number of steps leads from one handle to another. -/
def Leads (step : Handle role → HandleSet role) : Handle role → Handle role → Prop :=
  ReflTransGen fun first second => second ∈ step first

variable {step : Handle role → HandleSet role}

/-- Whatever a search returns was seen or is reached from its frontier. -/
theorem leads_of_mem_spread {rounds : Nat} {seen frontier : HandleSet role} {got : Handle role}
    (has : got ∈ spread step rounds seen frontier) :
    got ∈ seen ∨ ∃ start ∈ frontier, Leads step start got := by
  induction rounds generalizing seen frontier with
  | zero =>
    rw [spread, mem_union_iff] at has
    exact has.imp_right fun here => ⟨got, here, .refl⟩
  | succ rounds ih =>
    rw [spread] at has
    split at has
    · exact .inl has
    · rcases ih has with known | ⟨start, fresh, led⟩
      · rw [mem_union_iff] at known
        exact known.imp_right fun here => ⟨got, here, .refl⟩
      · obtain ⟨gathered, -⟩ := mem_diff_iff.mp fresh
        obtain ⟨origin, mem, stepped⟩ := mem_gather.mp gathered
        exact .inr ⟨origin, mem_toList.mp mem, .head stepped led⟩

/-- What has been looked at: all that was seen or is at the frontier lies among
`all`, and all that is one step away from what was seen is known. -/
structure Searched (step : Handle role → HandleSet role) (all : Finset (Handle role))
    (seen frontier : HandleSet role) : Prop where
  seenInside : seen.members ⊆ all
  frontierInside : frontier.members ⊆ all
  apart : Disjoint seen.members frontier.members
  followed : ∀ handle ∈ seen, ∀ next ∈ step handle, next ∈ seen ∨ next ∈ frontier

namespace Searched

variable {all : Finset (Handle role)} {seen frontier : HandleSet role}

/-- One round moves the frontier to what was seen. -/
theorem advance (searched : Searched step all seen frontier)
    (inside : ∀ handle ∈ all, ∀ next ∈ step handle, next ∈ all) :
    Searched step all (seen ∪ frontier) (gather frontier.toList step \ (seen ∪ frontier)) where
  seenInside := by
    intro handle has
    rw [mem_members, mem_union_iff] at has
    rcases has with old | new
    · exact searched.seenInside (seen.mem_members.mpr old)
    · exact searched.frontierInside (frontier.mem_members.mpr new)
  frontierInside := by
    intro handle has
    rw [mem_members, mem_diff_iff, mem_gather] at has
    obtain ⟨⟨origin, mem, stepped⟩, -⟩ := has
    have known : origin ∈ frontier.members := frontier.mem_members.mpr (mem_toList.mp mem)
    exact inside origin (searched.frontierInside known) handle stepped
  apart := by
    rw [Finset.disjoint_left]
    intro handle known fresh
    rw [mem_members, mem_diff_iff] at fresh
    exact fresh.2 ((mem_members _).mp known)
  followed := by
    intro handle has next stepped
    rw [mem_diff_iff]
    by_cases known : next ∈ seen ∪ frontier
    · exact .inl known
    · refine .inr ⟨?_, known⟩
      rcases mem_union_iff.mp has with old | new
      · have := searched.followed handle old next stepped
        exact (known (mem_union_iff.mpr this)).elim
      · exact mem_gather.mpr ⟨handle, mem_toList.mpr new, stepped⟩

/-- A search with enough rounds returns all that it knew and all that is one
step away from anything that it returns. -/
theorem spread_closed (searched : Searched step all seen frontier)
    (inside : ∀ handle ∈ all, ∀ next ∈ step handle, next ∈ all) (rounds : Nat)
    (enough : all.card ≤ seen.members.card + rounds) :
    (∀ handle, handle ∈ seen ∨ handle ∈ frontier → handle ∈ spread step rounds seen frontier) ∧
    ∀ handle ∈ spread step rounds seen frontier, ∀ next ∈ step handle,
      next ∈ spread step rounds seen frontier := by
  induction rounds generalizing seen frontier with
  | zero =>
    -- everything has been seen, so that nothing is left at the frontier
    have full : seen.members = all :=
      Finset.eq_of_subset_of_card_le searched.seenInside (by simpa using enough)
    have done : ∀ handle, handle ∉ frontier := by
      intro handle here
      have known : handle ∈ seen.members :=
        full ▸ searched.frontierInside (frontier.mem_members.mpr here)
      exact Finset.disjoint_left.mp searched.apart known (frontier.mem_members.mpr here)
    simp only [spread, mem_union_iff]
    refine ⟨fun handle known => known, fun handle known next stepped => ?_⟩
    exact searched.followed handle (known.resolve_right (done handle)) next stepped
  | succ rounds ih =>
    rw [spread]
    split
    · next empty =>
      have done := (isEmpty_iff frontier).mp empty
      refine ⟨fun handle known => known.resolve_right (done handle), fun handle known next
        stepped => ?_⟩
      exact (searched.followed handle known next stepped).resolve_right (done next)
    · next active =>
      obtain ⟨fresh, here⟩ := (isEmpty_eq_false_iff frontier).mp (by simpa using active)
      have grown : (seen ∪ frontier).members = seen.members ∪ frontier.members := by
        ext handle
        simp [mem_union_iff]
      have larger : seen.members.card + 1 ≤ (seen ∪ frontier).members.card := by
        rw [grown, Finset.card_union_of_disjoint searched.apart]
        have : 0 < frontier.members.card :=
          Finset.card_pos.mpr ⟨fresh, frontier.mem_members.mpr here⟩
        omega
      obtain ⟨kept, closed⟩ := ih (searched.advance inside) (by omega)
      refine ⟨fun handle known => kept handle (.inl (mem_union_iff.mpr known)), closed⟩

end Searched

/-- A search from a start among finitely many handles returns exactly what steps
lead to. -/
theorem mem_spread_iff {all : Finset (Handle role)} {rounds : Nat} {start : HandleSet role}
    (startInside : ∀ handle ∈ start, handle ∈ all)
    (inside : ∀ handle ∈ all, ∀ next ∈ step handle, next ∈ all) (enough : all.card ≤ rounds)
    {got : Handle role} :
    got ∈ spread step rounds ∅ start ↔ ∃ origin ∈ start, Leads step origin got := by
  constructor
  · intro mem
    exact (leads_of_mem_spread mem).resolve_left not_mem_empty
  · rintro ⟨origin, here, led⟩
    have searched : Searched step all ∅ start :=
      { seenInside := by
          intro handle mem
          simp at mem
        frontierInside := fun handle mem => startInside handle (start.mem_members.mp mem)
        apart := by
          rw [Finset.disjoint_left]
          intro handle mem
          simp at mem
        followed := fun handle mem => (not_mem_empty mem).elim }
    obtain ⟨kept, closed⟩ := searched.spread_closed inside rounds (by omega)
    induction led with
    | refl => exact kept origin (.inr here)
    | tail _ stepped ih => exact closed _ ih _ stepped

end Staging
