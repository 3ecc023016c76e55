import Staging.Proofs.NormalForm

/-! # Normalization comes to an end

The bounds that normalization puts on its recursion and on its loops are never met. The
search for the place of a checkpoint behind a shuffle gives the same result under any
bound that is larger than the number of nodes, and after finitely many rounds over the
identities there is one that changes nothing.
-/

namespace Staging

variable {result : Nat × Graph}

namespace Graph

/-- Rounds are repeated until one of them counts no change. There are finitely many. -/
inductive Ends (round : Graph → Changed) : Graph → Nat → Graph → Prop where
  /-- The last round. -/
  | still {graph post : Graph} (run : round graph = .ok (0, post)) : Ends round graph 0 post
  /-- A round that counts changes, and those that follow it. -/
  | again {graph next post : Graph} {count more : Nat} (run : round graph = .ok (count, next))
      (changed : count ≠ 0) (rest : Ends round next more post) :
      Ends round graph (count + more) post

variable {G graph post : Graph} {count : Nat}

/-- A loop that stays within its bound ends. -/
theorem ends_of_settle {round : Graph → Changed} {rounds : Nat}
    (run : settle round rounds G = .ok (count, post)) : Ends round G count post := by
  induction rounds generalizing G count with
  | zero => cases run
  | succ rounds ih =>
    obtain ⟨⟨first, next⟩, stepped, run⟩ := of_bind run
    dsimp only at run
    by_cases calm : first = 0
    · rw [if_pos calm] at run
      cases run
      exact .still (calm ▸ stepped)
    · rw [if_neg calm] at run
      obtain ⟨⟨more, last⟩, rest, ⟨⟩⟩ := of_bind run
      exact .again stepped calm (ih rest)

/-- Changes that succeed in turn do so if each is replaced by one with the same results. -/
theorem changeEach_mono {α : Type} {items : List α} {change change' : Graph → α → Changed}
    (eq : ∀ {now item result}, change now item = .ok result → change' now item = .ok result)
    (run : G.changeEach items change = .ok result) :
    G.changeEach items change' = .ok result := by
  rw [changeEach] at run ⊢
  generalize ((0 : Nat), G) = state at run ⊢
  induction items generalizing state with
  | nil => exact run
  | cons item rest ih =>
    rw [List.foldlM_cons] at run ⊢
    obtain ⟨next, stepped, run⟩ := of_bind run
    obtain ⟨changed, ran, last⟩ := of_bind stepped
    rw [bind_of_ok ((bind_of_ok (eq ran)).trans last)]
    exact ih _ run

/-- A search that ends within a bound ends within any larger one, with the same result. -/
theorem pushDown_mono {levels levels' : Nat} (wider : levels ≤ levels') {out : OutputId}
    (run : pushDown levels G out = .ok result) :
    pushDown levels' G out = .ok result := by
  induction levels generalizing levels' G out result with
  | zero => cases run
  | succ levels ih =>
    obtain ⟨levels', rfl⟩ := Nat.exists_eq_succ_of_ne_zero (Nat.ne_zero_of_lt wider)
    rw [pushDown] at run ⊢
    split
    · next empty => rwa [empty] at run
    · next single =>
      rw [single] at run
      dsimp only at run
      split
      · next missing => rwa [missing] at run
      · next taker met =>
        rw [met] at run
        dsimp only at run
        split
        · next stage => rwa [if_pos stage] at run
        · next moving =>
          rw [if_neg moving] at run
          split
          · next target =>
            rw [if_pos target] at run
            exact changeEach_mono (fun ran => ih (Nat.le_of_succ_le_succ wider) ran) run
          · next target => rwa [if_neg target] at run
    · next several => simpa only [several] using run

/-- Makes every shuffle end in checkpoints, within any bound on the depth of the search. -/
def pushDownWithin (levels : Graph → Nat) (graph : Graph) : Changed := do
  let members ← graph.rootMembers
  graph.changeEach members.toList fun graph id => do
    let node ← graph.node id
    if node.isShuffleBoundary then graph.changeEach node.outputs (pushDown (levels graph))
    else return (0, graph)

theorem pushDownWithin_eq {levels : Graph → Nat} (wide : ∀ G, G.nodes.size < levels G)
    (run : G.pushDownShuffleCheckpoints = .ok result) :
    G.pushDownWithin levels = .ok result := by
  obtain ⟨members, collected, run⟩ := of_bind run
  refine (bind_of_ok collected).trans (changeEach_mono (fun {now id result} ran => ?_) run)
  obtain ⟨node, got, ran⟩ := of_bind ran
  rw [bind_of_ok got]
  split
  · next shuffle =>
    rw [if_pos shuffle] at ran
    exact changeEach_mono (fun ran => pushDown_mono (wide now) ran) ran
  · next plain => rwa [if_neg plain] at ran

/-- Normalization ends: the search behind shuffles under every bound beyond the number of
nodes, with one result, and the loops over identities with rounds that change nothing. -/
theorem normalize_terminates (built : graph.Built) (isolated : graph.Isolated)
    (acyclic : graph.Acyclic) (mode : FlowPartMode) : ∃ parts inlined effects effected shuffles
      shuffled inserted padded separated split removed reduced,
      inlineScope mode.seam (graph.nodes.size + 1) graph graph.root = .ok (parts, inlined) ∧
      inlined.checkpointGlobalEffects = .ok (effects, effected) ∧
      (∀ levels : Graph → Nat, (∀ graph, graph.nodes.size < levels graph) →
        effected.pushDownWithin levels = .ok (shuffles, shuffled)) ∧
      shuffled.insertBoundaryIdentities = .ok (inserted, padded) ∧
      Ends splitRound padded separated split ∧ split.splitRound = .ok (0, split) ∧
      Ends reduceRound split removed reduced ∧ reduced.reduceRound = .ok (0, reduced) ∧
      graph.normalize mode =
        .ok (⟨parts, effects + shuffles, inserted, separated, removed⟩, reduced) := by
  obtain ⟨rimmed, whole⟩ := built.rims
  obtain ⟨parts, inlined, effects, effected, shuffles, shuffled, inserted, padded, separated, split,
    removed, reduced, -, run₁, run₂, run₃, run₄, run₅, still, run₆, still', run, -⟩ :=
    (Nested.of_isolated built.founded isolated acyclic).exists_passes rimmed whole mode
  exact ⟨parts, inlined, effects, effected, shuffles, shuffled, inserted, padded, separated, split,
    removed, reduced, run₁, run₂, fun _ wide => pushDownWithin_eq wide run₃, run₄,
    ends_of_settle run₅, still, ends_of_settle run₆, still', run⟩

/-- A flow part between a checkpoint and an output is normalized in finitely many rounds. -/
theorem normalize_terminates_sealed : sealed.Built ∧ sealed.Isolated ∧ sealed.Acyclic ∧
    ∃ padded separated split removed reduced, Ends splitRound padded separated split ∧
      split.splitRound = .ok (0, split) ∧ Ends reduceRound split removed reduced ∧
      ∃ summary, sealed.normalize .segregate = .ok (summary, reduced) := by
  obtain ⟨_, _, _, _, _, _, _, padded, separated, split, removed, reduced, -, -, -, -, splits,
    still, removes, -, run⟩ :=
    normalize_terminates built_sealed isolated_sealed acyclic_sealed .segregate
  exact ⟨built_sealed, isolated_sealed, acyclic_sealed, padded, separated, split, removed, reduced,
    splits, still, removes, _, run⟩

end Graph

end Staging
