import Mathlib.Data.List.Flatten
import Mathlib.Logic.Relation
import Staging.Proofs.Handles
import Staging.Proofs.Loops
import Staging.Span

/-! # Spans that overlap are united

Spans pass common nodes directly or through others. The classes of such spans are
found by taking one span after the other: the new span belongs together with all
classes that pass a node with it, and no other class gets any nearer to it by that.
-/

namespace Staging

open Std Relation List ExtTreeSet HandleSet

variable {spans : List Span} {span : Span} {id : NodeId} {places : List Nat} {first second : Nat}

namespace Span

/-- The spans at the two places pass a common node. -/
def Overlap (spans : List Span) (first second : Nat) : Prop :=
  ∃ one two, spans[first]? = some one ∧ spans[second]? = some two ∧
    ∃ id ∈ one.passings, id ∈ two.passings

/-- The sets of nodes that make up a span. -/
def parts : List (Span → NodeSet) :=
  [startings, passings, arrivals]

/-- The places are those of spans that overlap, directly or through others, and the span has
the nodes of these. -/
structure Unites (spans : List Span) (places : List Nat) (span : Span) : Prop where
  filled : places ≠ []
  linked : ∀ first ∈ places, ∀ second ∈ places, EqvGen (Overlap spans) first second
  closed : ∀ first ∈ places, ∀ second, Overlap spans first second → second ∈ places
  union : ∀ part ∈ parts, ∀ id, id ∈ part span ↔
    ∃ place ∈ places, ∃ other, spans[place]? = some other ∧ id ∈ part other

theorem mem_foldl_join {part : Span → NodeSet} (has : part ∈ parts) :
    id ∈ part (spans.foldl (fun united other => other.join united) span) ↔
      id ∈ part span ∨ ∃ other ∈ spans, id ∈ part other := by
  induction spans generalizing span with
  | nil => simp
  | cons first rest ih =>
    have joined : id ∈ part (first.join span) ↔ id ∈ part first ∨ id ∈ part span := by
      simp only [parts, mem_cons, not_mem_nil, or_false] at has
      rcases has with rfl | rfl | rfl <;> exact mem_union_iff
    rw [foldl_cons, ih, joined, exists_mem_cons_iff]
    tauto

theorem Overlap.symm (overlap : Overlap spans first second) : Overlap spans second first := by
  obtain ⟨one, two, got, got', id, mem, mem'⟩ := overlap
  exact ⟨two, one, got', got, id, mem', mem⟩

theorem getElem?_snoc_iff {place : Nat} {other : Span} : (spans ++ [span])[place]? = some other ↔
    spans[place]? = some other ∨ place = spans.length ∧ other = span := by
  grind

theorem Overlap.snoc (overlap : Overlap spans first second) :
    Overlap (spans ++ [span]) first second := by
  obtain ⟨one, two, got, got', common⟩ := overlap
  exact ⟨one, two, getElem?_snoc_iff.mpr (.inl got), getElem?_snoc_iff.mpr (.inl got'), common⟩

/-- A class that passes no node with a new span stays as it is. -/
theorem Unites.snoc {united : Span} (unites : Unites spans places united)
    (inside : ∀ place ∈ places, place < spans.length)
    (apart : disjoint united.passings span.passings) :
    Unites (spans ++ [span]) places united where
  filled := unites.filled
  linked first has second has' :=
    EqvGen.mono (fun _ _ => .snoc) _ _ (unites.linked first has second has')
  closed first has second := by
    rintro ⟨one, two, got, got', id, mem, mem'⟩
    rw [getElem?_append_left (inside first has)] at got
    rcases getElem?_snoc_iff.mp got' with early | ⟨rfl, rfl⟩
    · exact unites.closed first has second ⟨one, two, got, early, id, mem, mem'⟩
    · have passed := (unites.union passings (by simp [parts]) id).mpr ⟨first, has, one, got, mem⟩
      exact (disjoint_iff.mp apart id passed mem').elim
  union part has id := by
    rw [unites.union part has]
    refine exists_congr fun place => and_congr_right fun mem => ?_
    rw [getElem?_append_left (inside place mem)]

section Touching

variable {classes : List (List Nat × Span)} {touches : List Nat × Span → Bool}
  (unites : ∀ pair ∈ classes, Unites spans pair.1 pair.2)
  (perm : (classes.flatMap Prod.fst).Perm (range spans.length))
  (touches_iff : ∀ pair, touches pair ↔ ∃ id ∈ pair.2.passings, id ∈ span.passings)

include unites perm touches_iff

/-- A new span and the classes that pass a node with it become one class. -/
theorem unites_touching : Unites (spans ++ [span])
    ((classes.filter touches).flatMap Prod.fst ++ [spans.length])
    (((classes.filter touches).map Prod.snd).foldl (fun united other => other.join united)
      span) := by
  have inside : ∀ pair ∈ classes, ∀ place ∈ pair.1, place < spans.length :=
      fun pair has place mem =>
    mem_range.mp (perm.mem_iff.mp (mem_flatMap.mpr ⟨pair, has, mem⟩))
  have last : (spans ++ [span])[spans.length]? = some span :=
    getElem?_snoc_iff.mpr (.inr ⟨rfl, rfl⟩)
  have mem_iff {place : Nat} : place ∈ (classes.filter touches).flatMap Prod.fst ++ [spans.length] ↔
      (∃ pair ∈ classes, touches pair = true ∧ place ∈ pair.1) ∨ place = spans.length := by
    simp only [mem_append, mem_flatMap, mem_filter, mem_singleton, and_assoc]
  have near : ∀ place ∈ (classes.filter touches).flatMap Prod.fst ++ [spans.length],
      EqvGen (Overlap (spans ++ [span])) place spans.length := by
    intro place mem
    rcases mem_iff.mp mem with ⟨pair, has, touching, own⟩ | rfl
    · obtain ⟨id, passed, passed'⟩ := (touches_iff pair).mp touching
      obtain ⟨other, own', one, got, within⟩ :=
        ((unites pair has).union _ (by simp [parts]) id).mp passed
      have linked := (unites pair has).linked place own other own'
      refine .trans _ _ _ (EqvGen.mono (fun _ _ => .snoc) _ _ linked) (.rel _ _ ?_)
      exact ⟨one, span, getElem?_snoc_iff.mpr (.inl got), last, id, within, passed'⟩
    · exact .refl _
  refine ⟨by simp, fun first mem second mem' =>
    .trans _ _ _ (near first mem) (.symm _ _ (near second mem')), ?_, fun part has id => ?_⟩
  · rintro first mem second ⟨one, two, got, got', id, passed, passed'⟩
    rw [mem_iff] at mem ⊢
    rcases getElem?_snoc_iff.mp got' with early | ⟨rfl, rfl⟩
    · refine .inl ?_
      rcases mem with ⟨pair, has, touching, own⟩ | rfl
      · rw [getElem?_append_left (inside pair has first own)] at got
        exact ⟨pair, has, touching, (unites pair has).closed first own second
          ⟨one, two, got, early, id, passed, passed'⟩⟩
      · cases last.symm.trans got
        obtain ⟨pair, has, own⟩ := mem_flatMap.mp (perm.mem_iff.mpr
          (mem_range.mpr (List.getElem?_eq_some_iff.mp early).1))
        have meets := ((unites pair has).union _ (by simp [parts]) id).mpr
          ⟨second, own, two, early, passed'⟩
        exact ⟨pair, has, (touches_iff pair).mpr ⟨id, meets, passed⟩, own⟩
    · exact .inr rfl
  · simp only [mem_foldl_join has, mem_map, mem_filter]
    constructor
    · rintro (own | ⟨_, ⟨pair, ⟨mem, touching⟩, rfl⟩, own⟩)
      · exact ⟨_, mem_iff.mpr (.inr rfl), span, last, own⟩
      · obtain ⟨place, listed, other, got, own⟩ := ((unites pair mem).union part has id).mp own
        exact ⟨place, mem_iff.mpr (.inl ⟨pair, mem, touching, listed⟩), other,
          getElem?_snoc_iff.mpr (.inl got), own⟩
    · rintro ⟨place, mem, other, got, own⟩
      rcases mem_iff.mp mem with ⟨pair, mem, touching, listed⟩ | rfl
      · rw [getElem?_append_left (inside pair mem place listed)] at got
        exact .inr ⟨_, ⟨pair, ⟨mem, touching⟩, rfl⟩,
          ((unites pair mem).union part has id).mpr ⟨place, listed, other, got, own⟩⟩
      · cases last.symm.trans got
        exact .inl own

end Touching

theorem touches_iff {one two : Span} :
    one.touches two ↔ ∃ id ∈ one.passings, id ∈ two.passings := by
  rw [touches, Bool.not_eq_true', ← Bool.not_eq_true, disjoint_iff]
  push Not
  rfl

/-- If no two of them pass a common node, a span is joined with those that pass a node with it
and with no others. -/
theorem absorb_eq (apart : spans.Pairwise fun one two => ∀ id ∈ one.passings, id ∉ two.passings) :
    absorb spans span = spans.filter (fun other => !other.touches span) ++
      [(spans.filter (·.touches span)).foldl (fun united other => other.join united) span] := by
  fun_induction absorb spans span with
  | case1 spans span found =>
    have none := find?_eq_none.mp found
    rw [filter_eq_nil_iff.mpr none, filter_eq_self.mpr fun other has => by simp [none other has]]
    rfl
  | case2 spans span other found _ ih =>
    obtain ⟨touching, front, back, rfl, clear⟩ := find?_eq_some_iff_append.mp found
    rw [pairwise_middle fun apart id mem mem' => apart id mem' mem, pairwise_cons] at apart
    -- the span that is taken out passes no node with those that are left
    have alike : ∀ rest ∈ front ++ back, rest.touches (other.join span) = rest.touches span := by
      intro rest has
      rw [Bool.eq_iff_iff, touches_iff, touches_iff]
      refine exists_congr fun id => and_congr_right fun mem => ?_
      exact mem_union_iff.trans (or_iff_right fun mem' => apart.1 rest has id mem' mem)
    have erased : (front ++ other :: back).eraseP (·.touches span) = front ++ back := by
      rw [eraseP_append_right _ (by simpa using clear), eraseP_cons, touching, cond_true]
    rw [erased] at ih ⊢
    rw [ih apart.2, filter_congr alike, filter_congr fun rest has => by rw [alike rest has]]
    have none : front.filter (·.touches span) = [] := filter_eq_nil_iff.mpr (by simpa using clear)
    simp [filter_append, none, touching]

/-- Spans of classes that have no place in common pass disjoint nodes. -/
theorem pairwise_of_unites {classes : List (List Nat × Span)}
    (perm : (classes.flatMap Prod.fst).Perm (range spans.length))
    (unites : ∀ pair ∈ classes, Unites spans pair.1 pair.2) :
    (classes.map Prod.snd).Pairwise fun one two => ∀ id ∈ one.passings, id ∉ two.passings := by
  have nodup := (nodup_flatMap.mp (perm.nodup_iff.mpr nodup_range)).2
  rw [pairwise_map]
  refine nodup.imp_of_mem fun {one two} has has' apart id passed passed' => ?_
  obtain ⟨first, own, span, got, mem⟩ := ((unites one has).union _ (by simp [parts]) id).mp passed
  obtain ⟨second, own', span', got', mem'⟩ :=
    ((unites two has').union _ (by simp [parts]) id).mp passed'
  exact apart ((unites one has).closed first own second ⟨_, _, got, got', id, mem, mem'⟩) own'

/-- Merged spans are those of the classes, which have each place once. -/
theorem exists_classes (spans : List Span) : ∃ classes : List (List Nat × Span),
    classes.map Prod.snd = mergeOverlapping spans ∧
      (classes.flatMap Prod.fst).Perm (range spans.length) ∧
      ∀ pair ∈ classes, Unites spans pair.1 pair.2 := by
  induction spans using reverseRecOn with
  | nil => exact ⟨[], rfl, .nil, by simp⟩
  | append_singleton spans span ih =>
    obtain ⟨classes, merged, perm, unites⟩ := ih
    let touches : List Nat × Span → Bool := fun pair => pair.2.touches span
    refine ⟨classes.filter (fun pair => !touches pair) ++
      [((classes.filter touches).flatMap Prod.fst ++ [spans.length],
        ((classes.filter touches).map Prod.snd).foldl (fun united other => other.join united)
          span)],
      ?_, ?_, fun pair has => ?_⟩
    · rw [mergeOverlapping, foldl_append, ← mergeOverlapping, ← merged, foldl_cons, foldl_nil,
        absorb_eq (pairwise_of_unites perm unites), List.filter_map, List.filter_map, map_append]
      rfl
    · have split := (filter_append_perm touches classes).flatMap_right Prod.fst
      rw [flatMap_append] at split
      rw [flatMap_append, flatMap_singleton, length_append, length_singleton, range_succ,
        ← append_assoc]
      exact (perm_append_comm.trans (split.trans perm)).append_right _
    · rcases mem_append.mp has with apart | united
      · obtain ⟨has, apart⟩ := mem_filter.mp apart
        refine (unites pair has).snoc (fun place own => ?_)
          (by simpa [touches, Span.touches] using apart)
        exact mem_range.mp (perm.mem_iff.mp (mem_flatMap.mpr ⟨pair, has, own⟩))
      · rw [mem_singleton.mp united]
        exact unites_touching unites perm fun _ => touches_iff

/-- Merged spans pass disjoint nodes. -/
theorem pairwise_mergeOverlapping (spans : List Span) :
    (mergeOverlapping spans).Pairwise fun first second =>
      ∀ id ∈ first.passings, id ∉ second.passings := by
  obtain ⟨classes, merged, perm, unites⟩ := exists_classes spans
  exact merged ▸ pairwise_of_unites perm unites

/-- All nodes of the first span are nodes of the second in the same roles. -/
structure Within (inner outer : Span) : Prop where
  startings : ∀ id ∈ inner.startings, id ∈ outer.startings
  passings : ∀ id ∈ inner.passings, id ∈ outer.passings
  arrivals : ∀ id ∈ inner.arrivals, id ∈ outer.arrivals

theorem Within.trans {first second third : Span} (one : first.Within second)
    (two : second.Within third) : first.Within third :=
  ⟨fun id mem => two.startings id (one.startings id mem),
    fun id mem => two.passings id (one.passings id mem),
    fun id mem => two.arrivals id (one.arrivals id mem)⟩

theorem exists_within_mergeOverlapping {inner : Span} (has : inner ∈ spans) :
    ∃ outer ∈ mergeOverlapping spans, inner.Within outer := by
  obtain ⟨place, got⟩ := mem_iff_getElem?.mp has
  obtain ⟨classes, merged, perm, unites⟩ := exists_classes spans
  obtain ⟨pair, mem, own⟩ := mem_flatMap.mp (perm.mem_iff.mpr
    (mem_range.mpr (List.getElem?_eq_some_iff.mp got).1))
  have within : ∀ part ∈ parts, ∀ id ∈ part inner, id ∈ part pair.2 := fun part has id own' =>
    ((unites pair mem).union part has id).mpr ⟨place, own, inner, got, own'⟩
  exact ⟨pair.2, merged ▸ mem_map_of_mem mem, within _ (by simp [parts]),
    within _ (by simp [parts]), within _ (by simp [parts])⟩

/-- What holds of all spans and of joins holds of the merged spans. -/
theorem mergeOverlapping_keeps {property : Span → Prop}
    (joined : ∀ first second, property first → property second → property (first.join second))
    {spans : List Span} (all : ∀ span ∈ spans, property span) :
    ∀ span ∈ mergeOverlapping spans, property span := by
  have absorbed : ∀ (merged : List Span) (span : Span), (∀ other ∈ merged, property other) →
      property span → ∀ other ∈ absorb merged span, property other := by
    intro merged span holds own
    fun_induction absorb merged span with
    | case1 => simp_all [or_imp]
    | case2 merged span other found _ ih =>
      exact ih (fun rest has => holds rest (mem_of_mem_eraseP has))
        (joined other span (holds other (mem_of_find?_eq_some found)) own)
  refine foldl_keeps (fun rest merged => (∀ span ∈ rest, property span) ∧
    ∀ span ∈ merged, property span) ?_ ⟨all, by simp⟩ |>.2
  intro span rest merged ⟨known, holds⟩
  exact ⟨fun other mem => known other (.tail _ mem),
    absorbed merged span holds (known span (.head _))⟩

/-- If no overlap leads out of places, none leads into them. -/
theorem mem_iff_of_eqvGen
    (closed : ∀ first ∈ places, ∀ second, Overlap spans first second → second ∈ places)
    (led : EqvGen (Overlap spans) first second) : first ∈ places ↔ second ∈ places := by
  induction led with
  | rel first second overlap =>
    exact ⟨fun has => closed _ has _ overlap, fun has => closed _ has _ overlap.symm⟩
  | refl => rfl
  | symm _ _ _ ih => exact ih.symm
  | trans _ _ _ _ _ ih ih' => exact ih.trans ih'

/-- Spans that overlap, directly or through others, become one span, and no others do. -/
theorem mergeOverlapping_classes (spans : List Span)
    (forward : ∀ span ∈ spans, span.direction = .forward) :
    (mergeOverlapping spans).Pairwise (fun first second =>
        ∀ id ∈ first.passings, id ∉ second.passings) ∧
      ∃ classes : List (List Nat × Span), classes.map Prod.snd = mergeOverlapping spans ∧
        (classes.flatMap Prod.fst).Perm (range spans.length) ∧
        ∀ places united, (places, united) ∈ classes → united.direction = .forward ∧
          (∃ first ∈ places, ∀ second, second ∈ places ↔ EqvGen (Overlap spans) first second) ∧
          (∀ part ∈ parts, ∀ id, id ∈ part united ↔
            ∃ place ∈ places, ∃ other, spans[place]? = some other ∧ id ∈ part other) ∧
          ∀ place ∈ places, ∀ other, spans[place]? = some other → (∀ id, id ∉ other.passings) →
            places = [place] := by
  obtain ⟨classes, merged, perm, unites⟩ := exists_classes spans
  refine ⟨pairwise_mergeOverlapping spans, classes, merged, perm, fun places united mem => ?_⟩
  obtain ⟨filled, linked, closed, union⟩ := unites _ mem
  refine ⟨?_, ?_, union, fun place has other got none => ?_⟩
  · exact mergeOverlapping_keeps (fun one _ forward _ => forward) forward _
      (merged ▸ mem_map_of_mem mem)
  · obtain ⟨first, has⟩ := exists_mem_of_ne_nil _ filled
    exact ⟨first, has, fun second =>
      ⟨linked first has second, fun led => (mem_iff_of_eqvGen closed led).mp has⟩⟩
  · -- nothing overlaps with a span that passes no nodes
    have alone : ∀ first ∈ [place], ∀ second, Overlap spans first second → second ∈ [place] := by
      rintro _ eq second ⟨one, -, got', -, id, passed, -⟩
      cases mem_singleton.mp eq
      cases got.symm.trans got'
      exact (none id passed).elim
    have nodup := (nodup_flatMap.mp (perm.nodup_iff.mpr nodup_range)).1 _ mem
    refine perm_singleton.mp ((perm_ext_iff_of_nodup nodup (nodup_singleton _)).mpr fun second =>
      ?_)
    exact ⟨fun has' => (mem_iff_of_eqvGen alone (linked place has second has')).mp (.head _),
      fun has' => mem_singleton.mp has' ▸ has⟩

/-- Two spans that share no node, and one that overlaps with both. -/
def bridged : List Span :=
  [⟨.forward, ∅, {⟨1⟩, ⟨2⟩}, ∅⟩, ⟨.forward, ∅, {⟨3⟩, ⟨4⟩}, ∅⟩, ⟨.forward, ∅, {⟨2⟩, ⟨3⟩}, ∅⟩]

theorem mergeOverlapping_classes_bridged :
    ∃ united ∈ mergeOverlapping bridged, ⟨1⟩ ∈ united.passings ∧ ⟨4⟩ ∈ united.passings := by
  obtain ⟨-, classes, merged, perm, spec⟩ := mergeOverlapping_classes bridged (by decide)
  obtain ⟨⟨places, united⟩, mem, own⟩ := mem_flatMap.mp (perm.mem_iff.mpr
    (show 2 ∈ range bridged.length by decide))
  obtain ⟨-, ⟨first, -, component⟩, union, -⟩ := spec places united mem
  have led := (component 2).mp own
  have left : Overlap bridged 2 0 := ⟨_, _, rfl, rfl, ⟨2⟩, contains_iff_mem.mp (by decide +kernel),
    contains_iff_mem.mp (by decide +kernel)⟩
  have right : Overlap bridged 2 1 := ⟨_, _, rfl, rfl, ⟨3⟩, contains_iff_mem.mp (by decide +kernel),
    contains_iff_mem.mp (by decide +kernel)⟩
  have passes := union passings (by simp [parts])
  refine ⟨united, merged ▸ mem_map_of_mem mem, (passes _).mpr ⟨0, ?_, _, rfl, ?_⟩,
    (passes _).mpr ⟨1, ?_, _, rfl, ?_⟩⟩
  · exact (component 0).mpr (.trans _ _ _ led (.rel _ _ left))
  · exact contains_iff_mem.mp (by decide +kernel)
  · exact (component 1).mpr (.trans _ _ _ led (.rel _ _ right))
  · exact contains_iff_mem.mp (by decide +kernel)

end Span

end Staging
