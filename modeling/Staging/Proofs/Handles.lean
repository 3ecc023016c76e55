import Mathlib.Data.Finset.Card
import Staging.Handle

/-! # Sets and maps of handles

Handles are compared by their numbers, so that equal handles are those that compare as
equal. Lookups and memberships are restated here with equality of handles, and a set is also
read as a finite set, to count its members.
-/

namespace Staging

open Std List ExtTreeSet

variable {role : Role}

namespace Handle

/-- Handles with one number are equal. -/
@[ext] theorem ext {first second : Handle role} (eq : first.raw = second.raw) : first = second := by
  cases first
  cases second
  exact congrArg Handle.mk eq

/-- Consecutive handles are distinct. -/
theorem nodup_consecutive (start count : Nat) :
    (consecutive start count : List (Handle role)).Nodup := by
  refine Nodup.map ?_ nodup_range'
  intro first second eq
  exact congrArg Handle.raw eq

/-- Consecutive handles by their places. -/
theorem getElem?_consecutive (start count place : Nat) :
    (consecutive start count : List (Handle role))[place]? =
      if place < count then some ⟨start + place⟩ else none := by
  by_cases inside : place < count
  · simp [consecutive, inside]
  · simp [consecutive, inside]

end Handle

namespace HandleMap

variable {α : Type} (map : HandleMap role α) {entries : List (Handle role × α)}

/-- A lookup after an insertion. -/
theorem getElem?_insert (key query : Handle role) (value : α) :
    (map.insert key value)[query]? = if key = query then some value else map[query]? := by
  simp only [ExtTreeMap.getElem?_insert, LawfulEqCmp.compare_eq_iff_eq]

/-- A lookup after an erasure. -/
theorem getElem?_erase (key query : Handle role) :
    (map.erase key)[query]? = if key = query then none else map[query]? := by
  simp only [ExtTreeMap.getElem?_erase, LawfulEqCmp.compare_eq_iff_eq]

/-- A lookup after a change. -/
theorem getElem?_modify (key query : Handle role) (f : α → α) :
    (map.modify key f)[query]? = if key = query then map[query]?.map f else map[query]? := by
  simp only [ExtTreeMap.getElem?_modify, LawfulEqCmp.compare_eq_iff_eq]
  split
  · next eq => rw [eq]
  · rfl

/-- What is found after a change was found before, and has changed at most so. -/
theorem of_getElem?_modify {key query : Handle role} {f : α → α} {value : α}
    (got : (map.modify key f)[query]? = some value) :
    ∃ old, map[query]? = some old ∧ (value = old ∨ value = f old) := by
  rw [getElem?_modify] at got
  split at got
  · obtain ⟨old, has, rfl⟩ := Option.map_eq_some_iff.mp got
    exact ⟨old, has, .inr rfl⟩
  · exact ⟨value, got, .inl rfl⟩

/-- Erasing a list of keys removes exactly their values. -/
theorem getElem?_foldl_erase (keys : List (Handle role)) (query : Handle role) :
    (keys.foldl (fun map key => map.erase key) map)[query]? =
      if query ∈ keys then none else map[query]? := by
  induction keys generalizing map with
  | nil => simp
  | cons key rest ih =>
    rw [foldl_cons, ih, getElem?_erase]
    by_cases later : query ∈ rest
    · simp [later]
    · by_cases eq : key = query
      · simp [eq]
      · simp [later, eq, Ne.symm eq]

/-- Listed values are found under their keys if each key is listed once. -/
theorem getElem?_insertMany_of_mem {key : Handle role}
    {value : α} (nodup : (entries.map Prod.fst).Nodup) (mem : (key, value) ∈ entries) :
    (map.insertMany entries)[key]? = some value := by
  refine ExtTreeMap.getElem?_insertMany_list_of_mem (by simp) ?_ mem
  rw [Nodup, pairwise_map] at nodup
  exact nodup.imp fun ne eq => ne (LawfulEqCmp.compare_eq_iff_eq.mp eq)

/-- Other keys keep their values. -/
theorem getElem?_insertMany_of_not_mem {key : Handle role} (absent : key ∉ entries.map Prod.fst) :
    (map.insertMany entries)[key]? = map[key]? :=
  ExtTreeMap.getElem?_insertMany_list_of_contains_eq_false (by simpa using absent)

/-- What is found after insertions was listed or found before. -/
theorem of_getElem?_insertMany {key : Handle role} {value : α}
    (got : (map.insertMany entries)[key]? = some value) :
    (key, value) ∈ entries ∨ map[key]? = some value := by
  induction entries generalizing map with
  | nil => exact .inr got
  | cons entry rest ih =>
    rw [ExtTreeMap.insertMany_cons] at got
    rcases ih _ got with later | earlier
    · exact .inl (.tail _ later)
    · rw [getElem?_insert] at earlier
      split at earlier
      · next eq =>
        cases earlier
        exact .inl (eq ▸ (.head _))
      · exact .inr earlier

/-- Values are found under the keys at the same place. -/
theorem getElem?_insertMany_zip {keys : List (Handle role)} {values : List α}
    (nodup : keys.Nodup) (fits : keys.length ≤ values.length) {place : Nat}
    {key : Handle role} {value : α} (left : keys[place]? = some key)
    (right : values[place]? = some value) :
    (map.insertMany (keys.zip values))[key]? = some value := by
  refine map.getElem?_insertMany_of_mem (by rwa [map_fst_zip fits]) ?_
  rw [mem_iff_getElem?]
  exact ⟨place, by rw [getElem?_zip_eq_some]; exact ⟨left, right⟩⟩

/-- Keys that are not listed keep their values. -/
theorem getElem?_insertMany_zip_of_not_mem {keys : List (Handle role)} {values : List α}
    {key : Handle role} (absent : key ∉ keys) :
    (map.insertMany (keys.zip values))[key]? = map[key]? := by
  refine map.getElem?_insertMany_of_not_mem fun mem => absent ?_
  obtain ⟨⟨other, value⟩, has, rfl⟩ := mem_map.mp mem
  exact (of_mem_zip has).1

/-- All keys are found with the values at the same places. -/
theorem map_getElem?_insertMany_zip {keys : List (Handle role)} {values : List α}
    (nodup : keys.Nodup) (fits : keys.length = values.length) :
    keys.map ((map.insertMany (keys.zip values))[·]?) = values.map some := by
  refine ext_getElem? fun place => ?_
  rw [getElem?_map, getElem?_map]
  cases left : keys[place]? with
  | none =>
    have outside := getElem?_eq_none_iff.mp left
    rw [getElem?_eq_none (by omega)]
    rfl
  | some key =>
    have inside := (List.getElem?_eq_some_iff.mp left).1
    have right := getElem?_eq_getElem (l := values) (i := place) (by omega)
    rw [right, Option.map_some, Option.map_some,
      map.getElem?_insertMany_zip nodup (by omega) left right]

/-- Keys may repeat if their values do not differ. -/
theorem getElem?_insertMany_of_determined {f : Handle role → α}
    (determined : ∀ entry ∈ entries, entry.2 = f entry.1) (key : Handle role) :
    (map.insertMany entries)[key]? =
      if key ∈ entries.map Prod.fst then some (f key) else map[key]? := by
  induction entries generalizing map with
  | nil => simp
  | cons entry rest ih =>
    rw [ExtTreeMap.insertMany_cons, ih _ fun other mem =>
      determined other (.tail _ mem), getElem?_insert,
      determined entry (.head _)]
    by_cases later : key ∈ rest.map Prod.fst
    · simp [later]
    · by_cases eq : entry.1 = key
      · simp [eq]
      · simp [later, eq, Ne.symm eq]

/-- A listing with distinct keys is read back as it was given. -/
theorem getElem?_ofList_iff (nodup : (entries.map Prod.fst).Nodup) {key : Handle role} {value : α} :
    (ExtTreeMap.ofList entries : HandleMap role α)[key]? = some value ↔ (key, value) ∈ entries := by
  rw [ExtTreeMap.ofList_eq_insertMany_empty]
  constructor
  · intro got
    by_cases mem : key ∈ entries.map Prod.fst
    · obtain ⟨⟨other, value'⟩, has, rfl⟩ := mem_map.mp mem
      rw [getElem?_insertMany_of_mem _ nodup has] at got
      cases got
      exact has
    · rw [getElem?_insertMany_of_not_mem _ mem] at got
      simp at got
  · exact getElem?_insertMany_of_mem _ nodup

/-- The entries of a map are what is found in it. -/
theorem mem_toList_iff {key : Handle role} {value : α} :
    (key, value) ∈ map.toList ↔ map[key]? = some value :=
  ExtTreeMap.mem_toList_iff_getElem?_eq_some

/-- Keys are where values are found. -/
theorem mem_keys_iff {key : Handle role} : key ∈ map.keys ↔ ∃ value, map[key]? = some value := by
  rw [ExtTreeMap.mem_keys, ExtTreeMap.mem_iff_isSome_getElem?, Option.isSome_iff_exists]

/-- A value that is found comes before a default. -/
theorem getD_of_getElem? {key : Handle role} {value other : α} (got : map[key]? = some value) :
    map.getD key other = value := by
  rw [ExtTreeMap.getD_eq_getD_getElem?, got, Option.getD_some]

/-- Without a key there is the default. -/
theorem getD_of_not_mem_keys {key : Handle role} {other : α} (absent : key ∉ map.keys) :
    map.getD key other = other :=
  ExtTreeMap.getD_eq_fallback (mt ExtTreeMap.mem_keys.mpr absent)

/-- Each key is listed once. -/
theorem nodup_map_fst_toList : (map.toList.map Prod.fst).Nodup := by
  rw [ExtTreeMap.map_fst_toList_eq_keys]
  exact ExtTreeMap.nodup_keys

/-! ## Records with links

The records of a table may list handles of another role. A key that is not in use
has no links. What the operations do is said for what a record shows and for the
links of a key.
-/

section Linked

variable {role' : Role} {β : Type} (view : α → β) (links : α → HandleSet role')
  {other gone : Handle role'}

/-- The handles that the record of a key lists. -/
def linksOf (key : Handle role) : HandleSet role' :=
  match map[key]? with
  | some value => links value
  | none => ∅

variable {map view links} {key query : Handle role} {value : α} {f : α → α}

private theorem mem_linksOf :
    other ∈ map.linksOf links key ↔ ∃ value, map[key]? = some value ∧ other ∈ links value := by
  rw [linksOf]
  cases map[key]? <;> simp

/-- What has links is in use. -/
theorem view_of_mem_linksOf (view : α → β) (mem : other ∈ map.linksOf links key) :
    ∃ seen, map[key]?.map view = some seen := by
  obtain ⟨value, got, -⟩ := mem_linksOf.mp mem
  exact ⟨view value, by rw [got]; rfl⟩

/-- What a changed record shows. -/
theorem view_modify_of_comm {g : β → β} (comm : ∀ value, view (f value) = g (view value)) :
    (map.modify key f)[query]?.map view =
      if query = key then (map[query]?.map view).map g else map[query]?.map view := by
  rw [HandleMap.getElem?_modify]
  by_cases eq : query = key
  · subst eq
    cases map[query]? <;> simp [comm]
  · simp [eq, Ne.symm eq]

/-- A change that does not show. -/
theorem view_modify (same : ∀ value, view (f value) = view value) :
    (map.modify key f)[query]?.map view = map[query]?.map view := by
  rw [view_modify_of_comm (g := id) same, Option.map_id, id, ite_self]

/-- Many changes that do not show. -/
theorem view_foldl_modify (keys : List (Handle role))
    (same : ∀ value, view (f value) = view value) :
    (keys.foldl (fun map key => map.modify key f) map)[query]?.map view = map[query]?.map view := by
  induction keys generalizing map with
  | nil => rfl
  | cons key rest ih => rw [foldl_cons, ih, view_modify same]

/-- An erased record shows nothing. -/
theorem view_erase : (map.erase key)[query]?.map view =
    if query = key then none else map[query]?.map view := by
  rw [HandleMap.getElem?_erase]
  by_cases eq : query = key
  · simp [eq]
  · simp [eq, Ne.symm eq]

/-- Erased records show nothing. -/
theorem view_foldl_erase {keys : List (Handle role)} :
    (keys.foldl (fun map key => map.erase key) map)[query]?.map view =
      if query ∈ keys then none else map[query]?.map view := by
  rw [getElem?_foldl_erase]
  split <;> rfl

/-- What a new record shows. -/
theorem view_insert : (map.insert key value)[query]?.map view =
    if query = key then some (view value) else map[query]?.map view := by
  rw [HandleMap.getElem?_insert]
  by_cases eq : query = key
  · simp [eq]
  · simp [eq, Ne.symm eq]

/-- A key gets one link more. -/
theorem mem_linksOf_modify_insert {seen : β} (used : map[key]?.map view = some seen)
    (change : ∀ value, links (f value) = (links value).insert gone) :
    other ∈ linksOf (map.modify key f) links query ↔
      other ∈ map.linksOf links query ∨ query = key ∧ other = gone := by
  obtain ⟨value, got, -⟩ := Option.map_eq_some_iff.mp used
  simp only [mem_linksOf, HandleMap.getElem?_modify]
  by_cases eq : key = query
  · subst eq
    simp [got, change, or_comm, @eq_comm _ other]
  · simp [eq, Ne.symm eq]

/-- A key loses one link. -/
theorem mem_linksOf_modify_erase (change : ∀ value, links (f value) = (links value).erase gone) :
    other ∈ linksOf (map.modify key f) links query ↔
      other ∈ map.linksOf links query ∧ ¬ (query = key ∧ other = gone) := by
  simp only [mem_linksOf, HandleMap.getElem?_modify]
  by_cases eq : key = query
  · subst eq
    cases map[key]? <;> simp [change, and_comm, @eq_comm _ other]
  · simp [eq, Ne.symm eq]

/-- Many keys lose the same link. -/
theorem mem_linksOf_foldl_modify_erase (gone : Handle role') {keys : List (Handle role)}
    (change : ∀ value, links (f value) = (links value).erase gone) :
    other ∈ linksOf (keys.foldl (fun map key => map.modify key f) map) links query ↔
      other ∈ map.linksOf links query ∧ ¬ (query ∈ keys ∧ other = gone) := by
  induction keys generalizing map with
  | nil => simp
  | cons key rest ih =>
    rw [foldl_cons, ih, mem_linksOf_modify_erase change, mem_cons]
    tauto

/-- A change that keeps all links. -/
theorem linksOf_modify (same : ∀ value, links (f value) = links value) :
    linksOf (map.modify key f) links query = map.linksOf links query := by
  rw [linksOf, linksOf, HandleMap.getElem?_modify]
  by_cases eq : key = query
  · cases map[query]? <;> simp [eq, same]
  · simp [eq]

/-- Erased keys have no links. -/
theorem mem_linksOf_foldl_erase {keys : List (Handle role)} :
    other ∈ linksOf (keys.foldl (fun map key => map.erase key) map) links query ↔
      other ∈ map.linksOf links query ∧ query ∉ keys := by
  rw [mem_linksOf, mem_linksOf, getElem?_foldl_erase]
  split <;> simp [*]

/-- An erased key has no links. -/
theorem mem_linksOf_erase : other ∈ linksOf (map.erase key) links query ↔
    other ∈ map.linksOf links query ∧ query ≠ key := by
  rw [mem_linksOf, mem_linksOf, HandleMap.getElem?_erase]
  by_cases eq : key = query
  · simp [eq]
  · simp [eq, Ne.symm eq]

/-- A new record without links adds none. -/
theorem linksOf_insert (fresh : map[key]?.map view = none) (none : links value = ∅) :
    linksOf (map.insert key value) links query = map.linksOf links query := by
  rw [linksOf, linksOf, HandleMap.getElem?_insert]
  by_cases eq : key = query
  · subst eq
    simp [Option.map_eq_none_iff.mp fresh, none]
  · simp [eq]

section Many

variable {keys : List (Handle role)} {values : List α} (nodup : keys.Nodup)
  (fits : keys.length = values.length)

include nodup fits

/-- Each listed key gets a value. -/
theorem exists_getElem?_insertMany_zip (map : HandleMap role α) (own : query ∈ keys) :
    ∃ value ∈ values, (map.insertMany (keys.zip values))[query]? = some value := by
  have mem := mem_map_of_mem (f := ((map.insertMany (keys.zip values))[·]?)) own
  rw [map.map_getElem?_insertMany_zip nodup fits] at mem
  obtain ⟨value, has, eq⟩ := mem_map.mp mem
  exact ⟨value, has, eq.symm⟩

/-- New records that show the same. -/
theorem view_insertMany_zip {seen : β} (same : ∀ value ∈ values, view value = seen) :
    (map.insertMany (keys.zip values))[query]?.map view =
      if query ∈ keys then some seen else map[query]?.map view := by
  split
  · next own =>
    obtain ⟨value, has, got⟩ := exists_getElem?_insertMany_zip nodup fits map own
    rw [got, Option.map_some, same value has]
  · next foreign => rw [map.getElem?_insertMany_zip_of_not_mem foreign]

/-- New records without links add none. -/
theorem linksOf_insertMany_zip (fresh : ∀ key ∈ keys, map[key]?.map view = none)
    (none : ∀ value ∈ values, links value = ∅) :
    linksOf (map.insertMany (keys.zip values)) links query = map.linksOf links query := by
  rw [linksOf, linksOf]
  by_cases own : query ∈ keys
  · obtain ⟨value, has, got⟩ := exists_getElem?_insertMany_zip nodup fits map own
    simp [got, none value has, Option.map_eq_none_iff.mp (fresh query own)]
  · rw [map.getElem?_insertMany_zip_of_not_mem own]

end Many

end Linked

end HandleMap

namespace HandleSet

variable (set : HandleSet role) {handle mem : Handle role}

/-- The members after an insertion. -/
theorem mem_insert_iff : mem ∈ set.insert handle ↔ mem = handle ∨ mem ∈ set := by
  rw [mem_insert, LawfulEqCmp.compare_eq_iff_eq]
  exact or_congr_left eq_comm

/-- The members after an erasure. -/
theorem mem_erase_iff : mem ∈ set.erase handle ↔ mem ≠ handle ∧ mem ∈ set := by
  rw [mem_erase, ne_eq, LawfulEqCmp.compare_eq_iff_eq]
  exact and_congr_left fun _ => not_congr eq_comm

/-- The members that pass a test. -/
theorem mem_filter_iff {test : Handle role → Bool} {id : Handle role} :
    id ∈ set.filter test ↔ id ∈ set ∧ test id := by
  rw [← mem_toList, toList_filter, mem_filter, mem_toList]

/-- Each member is listed once. -/
theorem nodup_toList : set.toList.Nodup := (distinct_toList (t := set)).imp fun ne eq =>
    ne (LawfulEqCmp.compare_eq_iff_eq.mpr eq)

/-- An empty set has no members. -/
theorem isEmpty_iff : set.isEmpty ↔ ∀ id, id ∉ set := by
  rw [ExtTreeSet.isEmpty_iff]
  constructor
  · rintro rfl id
    exact not_mem_empty
  · intro none
    exact ext_mem fun id => by simp [none id]

/-- All other sets have some. -/
theorem isEmpty_eq_false_iff : set.isEmpty = false ↔ ∃ id, id ∈ set := by
  rw [← Bool.not_eq_true, isEmpty_iff]
  simp

/-- A single handle is a member. -/
theorem singleton_ne_empty (handle : Handle role) : ({handle} : HandleSet role) ≠ ∅ := by
  intro none
  have mem : handle ∈ ({handle} : HandleSet role) := (mem_insert_iff ∅).mpr (.inl rfl)
  rw [none] at mem
  exact not_mem_empty mem

/-- Disjoint sets share no member. -/
theorem disjoint_iff {first second : HandleSet role} :
    disjoint first second ↔ ∀ id ∈ first, id ∉ second := by
  rw [disjoint, isEmpty_iff]
  simp only [ExtTreeSet.mem_inter_iff, not_and]

/-- The members of a set as a finite set. -/
def members (set : HandleSet role) : Finset (Handle role) :=
  set.toList.toFinset

/-- The finite set has the same members. -/
@[simp] theorem mem_members {id : Handle role} : id ∈ set.members ↔ id ∈ set := by
  simp [members]

/-- There are as many as the set counts. -/
theorem card_members : set.members.card = set.size := by
  rw [members, toFinset_card_of_nodup set.nodup_toList, length_toList]

end HandleSet

end Staging
