import Staging.Spread

/-! # Loops that keep an invariant

What holds at the start of a loop and is kept by each of its rounds holds at its end. A loop
that can fail does not, if no round of it fails while the invariant holds.
-/

namespace Staging

open List

variable {α β ε σ : Type} {first : Except ε α} {next f : α → Except ε β} {items : List α}
  {state : σ} {step : σ → α → Except ε σ} {size : σ → Nat} {results : List β}

/-- What a successful computation is followed by. -/
theorem of_bind {result : β} (run : (first >>= next) = .ok result) :
    ∃ value, first = .ok value ∧ next value = .ok result := by
  cases first with
  | error fault => cases run
  | ok value => exact ⟨value, rfl, run⟩

/-- A successful computation is followed by the next one on its result. -/
theorem bind_of_ok {value : α} (run : first = .ok value) : (first >>= next) = next value := by
  rw [run]
  rfl

/-- A fold keeps an invariant that each of its steps keeps. -/
theorem foldl_keeps {step : σ → α → σ} (inv : List α → σ → Prop)
    (kept : ∀ item rest state, inv (item :: rest) state → inv rest (step state item))
    (start : inv items state) :
    inv [] (items.foldl step state) := by
  induction items generalizing state with
  | nil => exact start
  | cons item rest ih => exact ih (kept item rest state start)

/-- What the computation returns is good, and it does return something if that is sure. -/
structure Yields (sure : Prop) (result : Except ε α) (good : α → Prop) : Prop where
  returns : sure → ∃ value, result = .ok value
  good : ∀ value, result = .ok value → good value

namespace Yields

variable {sure : Prop} {result : Except ε α} {good : α → Prop}

theorem of_exists (run : ∃ value, result = .ok value ∧ good value) : Yields sure result good := by
  obtain ⟨value, run, holds⟩ := run
  refine ⟨fun _ => ⟨value, run⟩, fun value' run' => ?_⟩
  cases run.symm.trans run'
  exact holds

theorem pure {value : α} (holds : good value) : Yields sure (.ok value : Except ε α) good :=
  of_exists ⟨value, rfl, holds⟩

theorem exists' (yields : Yields True result good) : ∃ value, result = .ok value ∧ good value := by
  obtain ⟨value, run⟩ := yields.returns trivial
  exact ⟨value, run, yields.good value run⟩

theorem imp {sure' : Prop} (yields : Yields sure result good) (certain : sure' → sure) :
    Yields sure' result good :=
  ⟨fun sure' => yields.returns (certain sure'), yields.good⟩

theorem mono {good' : α → Prop} (yields : Yields sure result good)
    (holds : ∀ value, good value → good' value) : Yields sure result good' :=
  ⟨yields.returns, fun value run => holds value (yields.good value run)⟩

theorem bind {good' : β → Prop} (yields : Yields sure result good)
    (then' : ∀ value, good value → Yields sure (next value) good') :
    Yields sure (result >>= next) good' where
  returns certain := by
    obtain ⟨value, run⟩ := yields.returns certain
    rw [bind_of_ok run]
    exact (then' value (yields.good value run)).returns certain
  good value' run := by
    obtain ⟨value, ran, run⟩ := of_bind run
    exact (then' value (yields.good value ran)).good value' run

theorem foldlM (inv : List α → σ → Prop)
    (kept : ∀ item rest state, inv (item :: rest) state → Yields sure (step state item) (inv rest))
    (start : inv items state) :
    Yields sure (items.foldlM step state) (inv []) := by
  induction items generalizing state with
  | nil => exact pure start
  | cons item rest ih => exact (kept item rest state start).bind fun _ => ih

theorem shrinkM {step : σ → Except ε σ} (inv : σ → Prop)
    (kept : ∀ state, inv state → Yields sure (step state) inv) (start : inv state) :
    Yields sure (shrinkM size step state) inv := by
  fun_induction Staging.shrinkM size step state with
  | case1 state fault failed =>
    refine ⟨fun certain => ?_, fun _ => nofun⟩
    obtain ⟨value, run⟩ := (kept state start).returns certain
    cases failed.symm.trans run
  | case2 state next stepped _ ih => exact ih ((kept state start).good next stepped)
  | case3 state next stepped _ => exact pure start

end Yields

/-- A fold whose steps succeed under an invariant succeeds and keeps it. -/
theorem foldlM_keeps (inv : List α → σ → Prop) (kept : ∀ item rest state, inv (item :: rest) state →
      ∃ next, step state item = .ok next ∧ inv rest next) (start : inv items state) :
    ∃ result, items.foldlM step state = .ok result ∧ inv [] result :=
  (Yields.foldlM inv (fun item rest state held => .of_exists (kept item rest state held))
    start).exists'

/-- A fold that succeeds keeps an invariant that each of its steps keeps if it succeeds. -/
theorem foldlM_carries (inv : List α → σ → Prop)
    (kept : ∀ item rest state next, inv (item :: rest) state →
      step state item = .ok next → inv rest next) {result : σ} (start : inv items state)
    (run : items.foldlM step state = .ok result) : inv [] result :=
  (Yields.foldlM inv (fun item rest state held =>
    ⟨False.elim, fun next => kept item rest state next held⟩) start).good result run

/-- A fold whose steps succeed for fitting elements, which stay fitting, succeeds if all fit. -/
theorem foldlM_eq_ok_iff {next : σ → α → σ} (fits : σ → α → Prop)
    (spec : ∀ {state item post}, step state item = .ok post ↔
      fits state item ∧ post = next state item)
    (kept : ∀ {state item other}, fits (next state item) other ↔ fits state other) {post : σ} :
    items.foldlM step state = .ok post ↔
      (∀ item ∈ items, fits state item) ∧ post = items.foldl next state := by
  induction items generalizing state with
  | nil => simp [pure, Except.pure, eq_comm]
  | cons first rest ih =>
    rw [foldlM_cons, foldl_cons]
    constructor
    · intro run
      obtain ⟨middle, run, run'⟩ := of_bind run
      obtain ⟨fits, rfl⟩ := spec.mp run
      simpa [fits, kept] using ih.mp run'
    · rintro ⟨fits, eq⟩
      rw [bind_of_ok (spec.mpr ⟨fits first (.head _), rfl⟩), ih]
      exact ⟨fun other later => kept.mpr (fits other (.tail _ later)), eq⟩

/-- A traversal whose steps have known results has the list of them as its result. -/
theorem mapM_eq_ok {g : α → β} (known : ∀ item ∈ items, f item = .ok (g item)) :
    items.mapM f = .ok (items.map g) := by
  induction items with
  | nil => rfl
  | cons item rest ih =>
    rw [mapM_cons, known item (.head _), ih fun other mem => known other (.tail _ mem)]
    rfl

/-- Each step of a traversal that succeeds has a result. -/
theorem exists_of_mapM (run : items.mapM f = .ok results) {item : α} (mem : item ∈ items) :
    ∃ result ∈ results, f item = .ok result := by
  induction items generalizing results with
  | nil => cases mem
  | cons first rest ih =>
    rw [mapM_cons] at run
    obtain ⟨result, head, run⟩ := of_bind run
    obtain ⟨others, tail, ⟨⟩⟩ := of_bind run
    rcases mem_cons.mp mem with rfl | later
    · exact ⟨result, (.head _), head⟩
    · obtain ⟨other, has, ran⟩ := ih tail later
      exact ⟨other, .tail _ has, ran⟩

/-- Each result of a traversal that succeeds is one of its steps. -/
theorem exists_of_mem_mapM
    (run : items.mapM f = .ok results) {result : β} (mem : result ∈ results) :
    ∃ item ∈ items, f item = .ok result := by
  induction items generalizing results with
  | nil =>
    cases run
    cases mem
  | cons first rest ih =>
    rw [mapM_cons] at run
    obtain ⟨head, ran, run⟩ := of_bind run
    obtain ⟨others, tail, ⟨⟩⟩ := of_bind run
    rcases mem_cons.mp mem with rfl | later
    · exact ⟨first, (.head _), ran⟩
    · obtain ⟨item, has, ran⟩ := ih tail later
      exact ⟨item, .tail _ has, ran⟩

/-- A traversal whose steps succeed does. -/
theorem exists_mapM (each : ∀ item ∈ items, ∃ result, f item = .ok result) :
    ∃ results, items.mapM f = .ok results := by
  induction items with
  | nil => exact ⟨[], rfl⟩
  | cons item rest ih =>
    obtain ⟨⟨result, got⟩, each⟩ := forall_mem_cons.mp each
    obtain ⟨results, run⟩ := ih each
    rw [mapM_cons]
    exact ⟨result :: results, (bind_of_ok got).trans (bind_of_ok run)⟩

/-- The results of a traversal that succeeds are those of its steps. -/
theorem exists_map_of_mapM [Nonempty β] (run : items.mapM f = .ok results) :
    ∃ g, results = items.map g ∧ ∀ item ∈ items, f item = .ok (g item) := by
  have each : ∀ item, ∃ result, item ∈ items → f item = .ok result := by
    intro item
    by_cases mem : item ∈ items
    · obtain ⟨result, -, got⟩ := exists_of_mapM run mem
      exact ⟨result, fun _ => got⟩
    · exact ⟨Classical.ofNonempty, fun other => (mem other).elim⟩
  obtain ⟨g, known⟩ := Classical.skolem.mp each
  exact ⟨g, Except.ok.inj (run.symm.trans (mapM_eq_ok known)), known⟩

/-- A traversal of checks that all pass, passes. -/
theorem forM_eq_ok {f : α → Except ε PUnit} (passes : ∀ item ∈ items, f item = .ok ⟨⟩) :
    items.forM f = .ok ⟨⟩ := by
  induction items with
  | nil => rfl
  | cons item rest ih =>
    change (f item >>= fun _ => rest.forM f) = .ok ⟨⟩
    rw [passes item (.head _)]
    exact ih fun other mem => passes other (.tail _ mem)

/-- A repetition keeps an invariant that its step keeps. -/
theorem shrink_keeps {step : σ → σ} (inv : σ → Prop) (kept : ∀ state, inv state → inv (step state))
    (start : inv state) : inv (shrink size step state) := by
  fun_induction shrink size step state with
  | case1 state next _ ih => exact ih (kept state start)
  | case2 => exact start

/-- A repetition that does not make the state smaller ends at once. -/
theorem not_size_step_lt {step : σ → σ}
    (still : ¬ size (shrink size step state) < size state) : ¬ size (step state) < size state := by
  intro smaller
  rw [shrink, if_pos smaller] at still
  exact still (Nat.lt_of_le_of_lt (size_shrink_le size step (step state)) smaller)

/-- Of two lists behind another one the second can come first. -/
theorem perm_append_right_comm (first second third : List α) :
    (first ++ second ++ third).Perm (first ++ third ++ second) := by
  rw [append_assoc, append_assoc]
  exact perm_append_comm.append_left first

/-- What a list with one element more has at a place. -/
theorem getElem?_concat_eq_some {last item : α} {place : Nat} :
    (items ++ [last])[place]? = some item ↔
      items[place]? = some item ∨ place = items.length ∧ item = last := by
  rw [getElem?_append]
  split
  · next inside =>
    constructor
    · exact .inl
    · rintro (got | ⟨eq, -⟩)
      · exact got
      · omega
  · next outside =>
    rw [getElem?_eq_none (Nat.not_lt.mp outside), getElem?_singleton]
    constructor
    · intro got
      split at got
      · cases got
        exact .inr ⟨by omega, rfl⟩
      · cases got
    · rintro (got | ⟨eq, rfl⟩)
      · cases got
      · rw [if_pos (by omega)]

/-- A test of what a computation returns. -/
theorem any_toOption {ε α : Type} {result : Except ε α} {test : α → Bool} :
    result.toOption.any test ↔ ∃ value, result = .ok value ∧ test value := by
  cases result <;> simp [Except.toOption]

end Staging
