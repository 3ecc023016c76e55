import Staging.Proofs.Threading

/-! # Inlining flow parts

A flow part with a rim can be inlined: each of its endpoints is there when the seam for it
is made, and nothing leads through the flow part any more when it is taken out. Its nodes
move into the scope around it, where all of them stand for the flow part: seams at the
inputs come first, then the nodes that lay in it, and last the seams at the outputs. The
flow parts around a scope are different nodes, so that there are not more of them than
nodes.
-/

namespace Staging

open Std Relation List

variable {node record : Node} {rest seams : List NodeId} {inner : NodeId} {id : NodeId}
  {place bound : Nat}

namespace Graph

variable {G start now post : Graph} {home : Homes}
  {part : NodeId} {scope : Scope} {path : List NodeId} {boundary : Boundary} {α : Type}

/-! ## Standing for a flow part -/

section Opening

variable {middle : Nat} {height : NodeId → Nat}

/-- What lies in a flow part, and every new node, stands for the flow part. -/
def inlined (start : Graph) (home : Homes) (part : NodeId)
    (path : List NodeId) (id : NodeId) : NodeId :=
  if id.raw < start.next then if home id = some (part :: path) then part else id else part

/-- Seams at the inputs come first, then the nodes in the flow part by rank, and last the seams
at the outputs. -/
noncomputable def layer (start : Graph) (middle : Nat) (id : NodeId) : Nat :=
  if id.raw < start.next then start.rank id + 1
  else if id.raw < middle then 0 else start.nodes.size + 2

/-- Some endpoints of a flow part have been replaced by seams: a node that precedes another one
stands for one that did so, or both stand for the flow part and the first is in a lower layer.
-/
def Opening (start : Graph) (home : Homes) (part : NodeId)
    (path : List NodeId) (middle : Nat) (now : Graph) : Prop :=
  ∀ first second, now.Precedes first second →
    start.Precedes (inlined start home part path first) (inlined start home part path second) ∨
      first ≠ part ∧ second ≠ part ∧ inlined start home part path first = part ∧
        inlined start home part path second = part ∧
        layer start middle first < layer start middle second

theorem inlined_new (new : start.next ≤ id.raw) : inlined start home part path id = part :=
  if_neg (Nat.not_lt.mpr new)

theorem inlined_inner (inner : home id = some (part :: path)) :
    inlined start home part path id = part := by
  rw [inlined, if_pos inner, ite_self]

theorem inlined_outer (old : id.raw < start.next) (outer : home id ≠ some (part :: path)) :
    inlined start home part path id = id := by
  rw [inlined, if_pos old, if_neg outer]

theorem opening_refl (nested : start.Nested home) (homed : home part = some path) :
    Opening start home part path middle start := by
  have wf := nested.founded.wf
  intro first second prec
  have eq := nested.touch first second prec
  obtain ⟨early, early'⟩ := wf.below_of_precedes prec
  by_cases inner : home first = some (part :: path)
  · -- the flow part itself is not at home in itself
    have ne : ∀ {id : NodeId}, home id = some (part :: path) → id ≠ part := by
      rintro id inner rfl
      rw [homed] at inner
      simp at inner
    have inner' := eq ▸ inner
    refine .inr ⟨ne inner, ne inner', inlined_inner inner, inlined_inner inner', ?_⟩
    rw [layer, layer, if_pos early, if_pos early']
    exact Nat.succ_lt_succ (rank_lt wf prec (nested.acyclic first (by simp [inner])))
  · rw [inlined_outer early inner, inlined_outer early' (eq ▸ inner)]
    exact .inl prec

/-- A seam between the flow part and one of its endpoints. -/
theorem Opening.seam (opening : Opening start home part path middle now) {behind ahead : NodeId}
    (late : start.next ≤ now.next) (below : part.raw < start.next)
    (image_behind : inlined start home part path behind = part)
    (image_ahead : inlined start home part path ahead = part)
    (above : behind = part ∨ layer start middle behind ≤ layer start middle ⟨now.next⟩)
    (under : ahead = part ∨ layer start middle ⟨now.next⟩ ≤ layer start middle ahead)
    (sewn : Sewn now behind ahead post) : Opening start home part path middle post := by
  have image_seam : inlined start home part path ⟨now.next⟩ = part := inlined_new late
  have ne : (⟨now.next⟩ : NodeId) ≠ part := by
    rintro rfl
    exact Nat.not_lt.mpr late below
  intro first second prec
  rcases sewn first second prec with prec | ⟨rfl, led⟩ | ⟨rfl, led⟩
  · exact opening first second prec
  · rcases opening _ _ led with prec | ⟨other, apart, image, -, higher⟩
    · rw [image_behind] at prec
      rw [image_seam]
      exact .inl prec
    · exact .inr ⟨other, ne, image, image_seam, higher.trans_le (above.resolve_left apart)⟩
  · rcases opening _ _ led with prec | ⟨apart, other, -, image, higher⟩
    · rw [image_ahead] at prec
      rw [image_seam]
      exact .inl prec
    · exact .inr ⟨ne, other, image_seam, image, (under.resolve_left apart).trans_lt higher⟩

/-- Endpoints of a founded graph are no flow parts. -/
theorem Founded.not_flowPart (founded : G.Founded) (mem : id ∈ G.root.endpoints)
    (got : G.nodes[id]? = some node) : node.kind ≠ .flowPart scope := by
  intro kind
  rcases mem_append.mp mem with input | out
  · obtain ⟨other, got', kind', -⟩ := founded.inputs id input
    rw [got] at got'
    cases got'
    rw [kind] at kind'
    cases kind'
  · obtain ⟨other, got', kind', -⟩ := founded.outputs id out
    rw [got] at got'
    cases got'
    rw [kind] at kind'
    cases kind'

/-- What is in a flow part without flow parts can be at home around it. -/
theorem Nested.inlined (nested : start.Nested home) (flat : start.Flat home (part :: path))
    (reshaped : Reshaped start post (inlined start home part path) height)
    (gone : post.nodes[part]? = none) : post.Nested (home ∘ inlined start home part path) where
  founded := reshaped.founded nested.founded
  root id mem := by
    rw [reshaped.root] at mem
    obtain ⟨node, got⟩ := nested.founded.exists_endpoint mem
    have homed := nested.root id mem
    rw [Function.comp, inlined_outer (nested.founded.wf.early got) (by simp [homed]), homed]
  parts id node scope path' got kind homed' tip mem := by
    have old := reshaped.extends'.parts got kind
    rw [Function.comp, inlined_outer (nested.founded.wf.early old)
      (flat id node scope old kind)] at homed'
    have homed'' := nested.parts id node scope path' old kind homed' tip mem
    rw [Function.comp, inlined_outer (nested.founded.bounded id node scope old kind tip mem),
      homed'']
    rw [homed'']
    rintro ⟨⟩
    rw [gone] at got
    cases got
  touch _ _ prec := reshaped.touch nested.touch prec
  acyclic id homed := reshaped.acyclic (nested.acyclic _ homed)
  rims id node scope tip path' got kind mem homed := by
    have old := reshaped.extends'.parts got kind
    have early := nested.founded.bounded id node scope old kind tip mem
    by_cases inner : home tip = some (part :: path)
    · cases nested.rims id node scope tip _ old kind mem inner
      rw [gone] at got
      cases got
    · rw [Function.comp, inlined_outer early inner] at homed
      exact nested.rims id node scope tip path' old kind mem homed

end Opening

/-! ## Seams -/

/-- All ports of nodes are handles given out before. -/
theorem Consistent.ports_below (wf : G.Consistent) {other : NodeId}
    (got : G.nodes[id]? = some node) (has : G.nodes[other]? = some record) :
    (∀ input ∈ node.inputs ++ record.inputs, input.raw < G.next) ∧
      ∀ out ∈ node.outputs ++ record.outputs, out.raw < G.next := by
  refine ⟨fun input mem => ?_, fun out mem => ?_⟩
  · rcases mem_append.mp mem with mem | mem
    · exact wf.inputBelow input id (wf.input_of_mem got mem)
    · exact wf.inputBelow input other (wf.input_of_mem has mem)
  · rcases mem_append.mp mem with mem | mem
    · exact wf.outputBelow out id (wf.output_of_mem got mem)
    · exact wf.outputBelow out other (wf.output_of_mem has mem)

theorem exists_getElem?_of_length_eq {β : Type} {first : List α} {second : List β}
    (eq : first.length = second.length) {item : α} (mem : first[place]? = some item) :
    ∃ other, second[place]? = some other := by
  obtain ⟨inside, -⟩ := List.getElem?_eq_some_iff.mp mem
  exact ⟨_, getElem?_eq_getElem (eq ▸ inside)⟩

/-- What is at hand while seams are made: those that are left, and those made so far. -/
structure Sealing (start : Graph) (part : NodeId) (node : Node) (scope : Scope)
    (rest seams : List NodeId) (now : Graph) : Prop where
  wf : now.Consistent
  conserves : start.Conserves now
  kept : ∀ id : NodeId, id.raw < start.next → id ∉ scope.endpoints ∨ id ∈ rest →
    now.nodes[id]? = start.nodes[id]?
  gone : ∀ id ∈ scope.endpoints, id ∉ rest → now.nodes[id]? = none
  apart : ∀ inner ∈ part :: scope.endpoints, ¬ now.Precedes inner part ∧ ¬ now.Precedes part inner
  entered : ∀ (place : Nat) (port : InputId) (inner : NodeId), node.inputs[place]? = some port →
    scope.inputs[place]? = some inner → inner ∉ rest → ∀ output, now.Feeds output port →
    ∃ input : InputId, start.next ≤ input.raw ∧ now.Feeds output input
  left : ∀ (place : Nat) (port : OutputId) (inner : NodeId), node.outputs[place]? = some port →
    scope.outputs[place]? = some inner → inner ∉ rest → ∀ input, now.Feeds port input →
    ∃ output : OutputId, start.next ≤ output.raw ∧ now.Feeds output input
  nodup : seams.Nodup
  made : ∀ seam ∈ seams, start.next ≤ seam.raw ∧
    ∃ made : Node, now.nodes[seam]? = some made ∧ made.isPassThrough = true

/-- No endpoint of a flow part is connected with it. -/
theorem sealing_start (nested : start.Nested home) (got : start.nodes[part]? = some node)
    (kind : node.kind = .flowPart scope) (homed : home part = some path) :
    Sealing start part node scope scope.endpoints [] start where
  wf := nested.founded.wf
  conserves := .refl start
  kept _ _ _ := rfl
  gone _ mem late := (late mem).elim
  apart inner mem := by
    rcases mem_cons.mp mem with rfl | mem
    · have loop : ¬ start.Precedes inner inner := fun prec =>
        nested.acyclic inner (homed ▸ Option.some_ne_none _) (.single prec)
      exact ⟨loop, loop⟩
    have inside := nested.parts part node scope path got kind homed inner mem
    constructor
    · intro prec
      have eq := nested.touch inner part prec
      rw [inside, homed, Option.some.injEq] at eq
      exact cons_ne_self _ _ eq
    · intro prec
      have eq := nested.touch part inner prec
      rw [inside, homed, Option.some.injEq] at eq
      exact cons_ne_self _ _ eq.symm
  entered _ _ _ _ tip late := (late (Scope.endpoint_of_input tip)).elim
  left _ _ _ _ tip late := (late (Scope.endpoint_of_output tip)).elim
  nodup := .nil
  made := by simp

section Seam

/-- What passes a port of the flow part also passes the seam there. -/
theorem passed_step {role : Role} {passes passes' stray : Handle role → Prop} {outside : Prop}
    {new twin : Handle role} {ports removed : List (Handle role)} {tips : List NodeId}
    (step : ∀ port, passes' port ↔
      (passes port ∨ passes twin ∧ port = new ∨ stray port) ∧ outside ∧ port ∉ removed)
    (early : ∀ port ∈ ports ++ removed, port.raw < bound) (late : bound ≤ new.raw)
    (clear : ∀ port ∈ ports, ¬ stray port)
    (at_seam : ∀ (place : Nat) port, ports[place]? = some port → tips[place]? = some inner →
      port = twin) {port : Handle role} {tip : NodeId} (outer : ports[place]? = some port)
    (mem : tips[place]? = some tip) (passed : passes port → tip ≠ inner →
      ∃ port' : Handle role, bound ≤ port'.raw ∧ passes port') (now : passes' port) :
    ∃ port' : Handle role, bound ≤ port'.raw ∧ passes' port' := by
  have own := mem_of_getElem? outer
  obtain ⟨now, within, -⟩ := (step port).mp now
  have old : passes port := by
    rcases now with old | ⟨-, rfl⟩ | other
    · exact old
    · exact absurd (early _ (mem_append_left _ own)) (Nat.not_lt.mpr late)
    · exact (clear port own other).elim
  have kept : ∀ port' : Handle role, bound ≤ port'.raw → port' ∉ removed :=
    fun port' late has => Nat.not_lt.mpr late (early port' (mem_append_right _ has))
  by_cases replaced : tip = inner
  · subst replaced
    cases at_seam place port outer mem
    exact ⟨new, late, (step new).mpr ⟨.inr (.inl ⟨old, rfl⟩), within, kept new late⟩⟩
  · obtain ⟨port', late', old'⟩ := passed old replaced
    exact ⟨port', late', (step port').mpr ⟨.inl old', within, kept port' late'⟩⟩

/-- One seam more. -/
theorem Sealing.step {twin : InputId} {twin' : OutputId} {made : Node} {behind ahead : NodeId}
    (sealing : Sealing start part node scope (inner :: rest) seams now)
    (seamed : Seamed now inner record twin twin' made post) (passes : made.isPassThrough)
    (conserves : now.Conserves post) (sewn : Sewn now behind ahead post)
    (nodup : inner ∉ rest) (mem : inner ∈ scope.endpoints)
    (bounded : ∀ tip ∈ scope.endpoints, tip.raw < start.next) (below : part.raw < start.next)
    (early : ∀ input ∈ node.inputs ++ record.inputs, input.raw < start.next)
    (early' : ∀ out ∈ node.outputs ++ record.outputs, out.raw < start.next)
    (clear : ∀ input ∈ node.inputs, ¬ now.Feeds twin' input)
    (clear' : ∀ out ∈ node.outputs, ¬ now.Feeds out twin)
    (at_seam : ∀ (place : Nat) port, node.inputs[place]? = some port →
      scope.inputs[place]? = some inner → port = twin)
    (at_seam' : ∀ (place : Nat) port, node.outputs[place]? = some port →
      scope.outputs[place]? = some inner → port = twin') :
    Sealing start part node scope rest (seams ++ [⟨now.next⟩]) post := by
  have nodes := seamed.nodes
  have next := sealing.conserves.adds.1
  have new : (⟨now.next⟩ : NodeId) ≠ inner := by
    intro eq
    have := bounded inner mem
    rw [← eq] at this
    exact Nat.not_lt.mpr next this
  have old : ∀ {id : NodeId}, id.raw < start.next → id ≠ ⟨now.next⟩ := by
    rintro id early rfl
    exact Nat.not_lt.mpr next early
  refine ⟨seamed.wf, sealing.conserves.trans conserves, fun id early later => ?_,
    fun id mem' late => ?_, fun tip mem' => ?_, fun place port tip outer mem' late out => ?_,
    fun place port tip outer mem' late input => ?_, ?_, fun seam member => ?_⟩
  · have ne : id ≠ inner := by
      rintro rfl
      exact later.elim (fun outer => outer mem) nodup
    rw [nodes, if_neg ne, if_neg (old early)]
    exact sealing.kept id early (later.imp_right (mem_cons_of_mem _))
  · rw [nodes]
    split
    · rfl
    · next ne =>
      rw [if_neg (old (bounded id mem'))]
      exact sealing.gone id mem' (by simp [ne, late])
  · obtain ⟨clear, clear'⟩ := sealing.apart tip mem'
    have early : tip.raw < start.next := by
      rcases mem_cons.mp mem' with rfl | mem'
      · exact below
      · exact bounded tip mem'
    constructor
    · intro prec
      rcases sewn tip part prec with prec | ⟨eq, -⟩ | ⟨eq, -⟩
      · exact clear prec
      · exact old below eq
      · exact old early eq
    · intro prec
      rcases sewn part tip prec with prec | ⟨eq, -⟩ | ⟨eq, -⟩
      · exact clear' prec
      · exact old early eq
      · exact old below eq
  · exact passed_step (seamed.feeds out) early (Nat.le_succ_of_le next)
      (fun input own stray => clear input own stray.2) at_seam outer mem' fun fed ne =>
      sealing.entered place port tip outer mem' (by simp [ne, late]) out fed
  · have feeds : ∀ out, post.Feeds out input ↔
        (now.Feeds out input ∨ now.Feeds twin' input ∧ out = ⟨now.next + 2⟩ ∨
          now.Feeds out twin ∧ input = ⟨now.next + 1⟩) ∧
          input ∉ record.inputs ∧ out ∉ record.outputs := fun out => by
      rw [seamed.feeds]
      tauto
    exact passed_step feeds early' (Nat.le_add_right_of_le next)
      (fun out own stray => clear' out own stray.1) at_seam' outer mem' fun fed ne =>
      sealing.left place port tip outer mem' (by simp [ne, late]) input fed
  · refine nodup_append.mpr ⟨sealing.nodup, nodup_singleton _, ?_⟩
    rintro seam member _ last rfl
    obtain ⟨-, made', has, -⟩ := sealing.made seam member
    rw [mem_singleton.mp last] at has
    exact Nat.lt_irrefl _ (sealing.wf.early has)
  · rcases mem_append.mp member with earlier | last
    · obtain ⟨late, made', has, passes'⟩ := sealing.made seam earlier
      refine ⟨late, made', ?_, passes'⟩
      rw [nodes, if_neg, if_neg, has]
      · rintro rfl
        exact Nat.lt_irrefl _ (sealing.wf.early has)
      · rintro rfl
        exact Nat.not_lt.mpr late (bounded _ mem)
    · rw [mem_singleton.mp last]
      exact ⟨next, made, by rw [nodes, if_neg new, if_pos rfl], passes⟩

end Seam

/-- Seams are made one after the other. -/
theorem exists_seams {ports : List α} {inners : List NodeId}
    {sew : Graph → α → NodeId → Except Fault (NodeId × Graph)} (seams : List NodeId)
    (inv : List NodeId → List NodeId → Graph → Prop) (nodup : inners.Nodup)
    (lengths : ports.length = inners.length)
    (kept : ∀ {place : Nat} {port inner rest seams now}, ports[place]? = some port →
      inners[place]? = some inner → inner ∉ rest → inv (inner :: rest) seams now →
      ∃ post, sew now port inner = .ok (⟨now.next⟩, post) ∧ inv rest (seams ++ [⟨now.next⟩]) post)
    (holds : inv inners seams now) :
    ∃ made post, (ports.zip inners).foldlM (fun state pair => do
        let (seam, G) ← sew state.2 pair.1 pair.2
        return (state.1 ++ [seam], G)) ([], now) = .ok (made, post) ∧
      inv [] (seams ++ made) post := by
  have all : (ports.zip inners).map Prod.snd = inners := map_snd_zip (Nat.le_of_eq lengths.symm)
  let carried (rest : List (α × NodeId)) (state : List NodeId × Graph) : Prop :=
    rest <:+ ports.zip inners ∧ inv (rest.map Prod.snd) (seams ++ state.1) state.2
  have step : ∀ pair rest state, carried (pair :: rest) state → ∃ next, (do
        let (seam, G) ← sew state.2 pair.1 pair.2
        return (state.1 ++ [seam], G)) = .ok next ∧ carried rest next := by
    rintro ⟨port, inner⟩ rest ⟨made, now⟩ ⟨within, holds⟩
    obtain ⟨place, mem⟩ := mem_iff_getElem?.mp (within.subset (.head _))
    obtain ⟨outer, tip⟩ := getElem?_zip_eq_some.mp mem
    have fresh : inner ∉ rest.map Prod.snd := by
      have part := (within.map Prod.snd).sublist
      rw [all] at part
      exact (nodup_cons.mp (part.nodup nodup)).1
    obtain ⟨post, run, holds⟩ := kept outer tip fresh holds
    rw [append_assoc] at holds
    exact ⟨_, bind_of_ok run, (suffix_cons _ _).trans within, holds⟩
  have begin' : carried (ports.zip inners) ([], now) := by
    refine ⟨suffix_refl _, ?_⟩
    rw [all, append_nil]
    exact holds
  obtain ⟨⟨made, post⟩, run, -, holds⟩ := foldlM_keeps carried step begin'
  exact ⟨made, post, run, holds⟩

section Loops

variable (wf : start.Consistent) (rimmed : start.Rimmed) (got : start.nodes[part]? = some node)
  (kind : node.kind = .flowPart scope) (below : part.raw < start.next)
  (whole : ∀ tip ∈ scope.endpoints, ∃ record, start.nodes[tip]? = some record)
  (calm : boundary ≠ .shuffle)

include rimmed got kind below

/-- A flow part is no endpoint of its own. -/
theorem Sealing.part_found (sealing : Sealing start part node scope rest seams now) :
    now.nodes[part]? = some node := by
  rw [sealing.kept part below (.inl ?_), got]
  intro mem
  rcases rimmed.kind_of_endpoint got kind mem got with kind' | kind' <;> cases kind.symm.trans kind'

include wf whole calm

/-- The next seam at an input of a flow part. -/
theorem Sealing.inputSeam {port : InputId}
    (sealing : Sealing start part node scope (inner :: rest) seams now)
    (nodup : inner ∉ rest) (outer : node.inputs[place]? = some port)
    (tip : scope.inputs[place]? = some inner) :
    ∃ post, now.inputSeam node boundary port inner = .ok (⟨now.next⟩, post) ∧
      Sealing start part node scope rest (seams ++ [⟨now.next⟩]) post ∧
      now.next < post.next ∧ Sewn now part inner post := by
  have bounded := rimmed.bounded part node scope got kind
  have mem : inner ∈ scope.endpoints := Scope.endpoint_of_input tip
  have got' := sealing.part_found rimmed got kind below
  obtain ⟨record, has⟩ := whole inner mem
  obtain ⟨-, inputs, exit, outputs⟩ := rimmed.entries part node scope got kind inner
    (mem_of_getElem? tip) record has
  obtain ⟨early, early'⟩ := wf.ports_below got has
  rw [← sealing.kept inner (bounded inner mem) (.inr (.head _))] at has
  have apart := sealing.apart inner (.tail _ mem)
  obtain ⟨made, post, run, seamed, passes, conserves⟩ :=
    Rimmed.exists_inputSeam sealing.wf (rimmed.of_adds sealing.conserves.adds) got' kind
      has calm outer tip inputs outputs apart.1
  have owned := sealing.wf.input_of_mem got' (mem_of_getElem? outer)
  have given := sealing.wf.output_of_mem has (outputs ▸ mem_singleton_self exit)
  have sides := nodup_append.mp (rimmed.nodup part node scope got kind)
  have sewn := seamed.sewn sealing.wf owned given
  refine ⟨post, run, sealing.step seamed passes conserves sewn nodup mem bounded below early
    early' (fun input own feeds => apart.1 ?_) (fun out own feeds =>
      (sealing.apart part (.head _)).1 ?_) (fun place' port' outer' tip' => ?_)
      fun _ _ _ tip' => ?_, by rw [seamed.next]; omega, sewn⟩
  · exact ⟨exit, input, given, sealing.wf.input_of_mem got' own, feeds⟩
  · exact ⟨out, port, sealing.wf.output_of_mem got' own, owned, feeds⟩
  · obtain ⟨inside, -⟩ := List.getElem?_eq_some_iff.mp tip'
    cases (getElem?_inj inside sides.1).mp (tip'.trans tip.symm)
    exact Option.mem_unique outer' outer
  · exact (sides.2.2 inner (mem_of_getElem? tip) inner (mem_of_getElem? tip') rfl).elim

/-- The next seam at an output of a flow part. -/
theorem Sealing.outputSeam {port : OutputId}
    (sealing : Sealing start part node scope (inner :: rest) seams now)
    (nodup : inner ∉ rest) (outer : node.outputs[place]? = some port)
    (tip : scope.outputs[place]? = some inner) :
    ∃ post, now.outputSeam node boundary port inner = .ok (⟨now.next⟩, post) ∧
      Sealing start part node scope rest (seams ++ [⟨now.next⟩]) post ∧
      now.next < post.next ∧ Sewn now inner part post := by
  have bounded := rimmed.bounded part node scope got kind
  have mem : inner ∈ scope.endpoints := Scope.endpoint_of_output tip
  have got' := sealing.part_found rimmed got kind below
  obtain ⟨record, has⟩ := whole inner mem
  obtain ⟨-, outputs, entry, inputs⟩ := rimmed.exits part node scope got kind inner
    (mem_of_getElem? tip) record has
  obtain ⟨early, early'⟩ := wf.ports_below got has
  rw [← sealing.kept inner (bounded inner mem) (.inr (.head _))] at has
  have apart := sealing.apart inner (.tail _ mem)
  obtain ⟨made, post, run, seamed, passes, conserves⟩ :=
    Rimmed.exists_outputSeam sealing.wf (rimmed.of_adds sealing.conserves.adds) got' kind
      has calm outer tip inputs outputs apart.2
  have owned := sealing.wf.output_of_mem got' (mem_of_getElem? outer)
  have taken := sealing.wf.input_of_mem has (inputs ▸ mem_singleton_self entry)
  have sides := nodup_append.mp (rimmed.nodup part node scope got kind)
  have sewn := seamed.sewn sealing.wf taken owned
  refine ⟨post, run, sealing.step seamed passes conserves sewn nodup mem bounded below early
    early' (fun input own feeds => (sealing.apart part (.head _)).1 ?_)
      (fun out own feeds => apart.2 ?_) (fun _ _ _ tip' => ?_)
      fun place' port' outer' tip' => ?_, by rw [seamed.next]; omega, sewn⟩
  · exact ⟨port, input, owned, sealing.wf.input_of_mem got' own, feeds⟩
  · exact ⟨out, entry, sealing.wf.output_of_mem got' own, taken, feeds⟩
  · exact (sides.2.2 inner (mem_of_getElem? tip') inner (mem_of_getElem? tip) rfl).elim
  · obtain ⟨inside, -⟩ := List.getElem?_eq_some_iff.mp tip'
    cases (getElem?_inj inside sides.2.1).mp (tip'.trans tip.symm)
    exact Option.mem_unique outer' outer

/-- Seams can be made at all inputs and then at all outputs of a flow part. -/
theorem Nested.exists_seams (nested : start.Nested home) (homed : home part = some path) :
    ∃ entries opened exits sealed middle, (node.inputs.zip scope.inputs).foldlM
      (fun (state : List NodeId × Graph) pair => do
        let (seam, G) ← state.2.inputSeam node boundary pair.1 pair.2
        return (state.1 ++ [seam], G)) ([], start) = .ok (entries, opened) ∧
      (node.outputs.zip scope.outputs).foldlM (fun (state : List NodeId × Graph) pair => do
        let (seam, G) ← state.2.outputSeam node boundary pair.1 pair.2
        return (state.1 ++ [seam], G)) ([], opened) = .ok (exits, sealed) ∧
      Sealing start part node scope [] (entries ++ exits) sealed ∧
      Opening start home part path middle sealed := by
  obtain ⟨nodup, nodup', apart⟩ := nodup_append.mp (rimmed.nodup part node scope got kind)
  have inside := nested.parts part node scope path got kind homed
  have bounded := rimmed.bounded part node scope got kind
  have image : Graph.inlined start home part path part = part :=
    inlined_outer below (by simp [homed])
  -- where the seams at the outputs begin matters only for nodes to come
  obtain ⟨entries, opened, run, sealing, opening⟩ := Graph.exists_seams []
    (fun rest seams now => Sealing start part node scope (rest ++ scope.outputs) seams now ∧
      ∀ middle, now.next ≤ middle → Opening start home part path middle now) nodup
    (rimmed.inputs part node scope got kind) (fun outer tip fresh ⟨sealing, opening⟩ => by
      have mem := mem_of_getElem? tip
      obtain ⟨post, run, sealing', next, sewn⟩ := sealing.inputSeam wf rimmed got kind
        below whole calm (by simp [fresh, mt (apart _ mem _) (not_not.mpr rfl)]) outer tip
      refine ⟨post, run, sealing', fun middle late => (opening middle (by omega)).seam
        sealing.conserves.adds.1 below image (inlined_inner (inside _ (mem_append_left _ mem)))
        (.inl rfl) (.inr ?_) sewn⟩
      rw [layer, if_neg (Nat.not_lt.mpr sealing.conserves.adds.1), if_pos (next.trans_le late)]
      exact Nat.zero_le _)
    ⟨sealing_start nested got kind homed, fun middle _ => opening_refl nested homed⟩
  obtain ⟨exits, sealed, run', sealing, opening, -⟩ := Graph.exists_seams entries
    (fun rest seams now => Sealing start part node scope rest seams now ∧
      Opening start home part path opened.next now ∧ opened.next ≤ now.next) nodup'
    (rimmed.outputs part node scope got kind) (fun outer tip fresh ⟨sealing, opening, late⟩ => by
      have mem := mem_append_right scope.inputs (mem_of_getElem? tip)
      obtain ⟨post, run, sealing', next, sewn⟩ := sealing.outputSeam wf rimmed got kind
        below whole calm fresh outer tip
      refine ⟨post, run, sealing', opening.seam sealing.conserves.adds.1 below
        (inlined_inner (inside _ mem)) image (.inr ?_) (.inl rfl) sewn, by omega⟩
      rw [layer, layer, if_pos (bounded _ mem), if_neg (Nat.not_lt.mpr sealing.conserves.adds.1),
        if_neg (Nat.not_lt.mpr late)]
      exact Nat.succ_le_succ (Nat.le_succ_of_le (start.rank_le _)))
    ⟨sealing, opening _ (Nat.le_refl _), Nat.le_refl _⟩
  exact ⟨entries, opened, exits, sealed, opened.next, run, run', sealing, opening⟩

omit whole calm in
/-- Once all seams are made, nothing leads through the flow part. -/
theorem Sealing.remove (sealing : Sealing start part node scope [] seams now) :
    start.Conserves (now.drop part node) := by
  have got' := sealing.part_found rimmed got kind below
  have rimmed' := rimmed.of_adds sealing.conserves.adds
  have pathless : ∀ input out, now.Hands input out →
      ¬ (input ∈ node.inputs ∨ out ∈ node.outputs) := by
    intro input out hands own
    have taken : ∀ {other : NodeId} {record : Node}, now.nodes[other]? = some record →
        input ∈ record.inputs → input ∈ node.inputs → other = part ∧ record = node := by
      intro other record has enters enters'
      cases sealing.wf.input_unique has enters got' enters'
      exact ⟨rfl, Option.mem_unique has got'⟩
    have given : ∀ {other : NodeId} {record : Node}, now.nodes[other]? = some record →
        out ∈ record.outputs → out ∈ node.outputs → other = part ∧ record = node := by
      intro other record has leaves leaves'
      cases sealing.wf.output_unique has leaves got' leaves'
      exact ⟨rfl, Option.mem_unique has got'⟩
    cases hands with
    | through has passes enters leaves =>
      have eq := own.elim (fun own => (taken has enters own).2) fun own => (given has leaves own).2
      exact Node.kind_ne_of_isPseudo (Node.isPseudo_of_isPassThrough passes) (eq ▸ kind)
    | into has kind' port tip inside leaves =>
      have mem := Scope.endpoint_of_input tip
      rcases own with own | own
      · -- the endpoint that the port leads to is gone
        obtain ⟨rfl, rfl⟩ := taken has (mem_of_getElem? port) own
        cases kind.symm.trans kind'
        rw [sealing.gone _ mem not_mem_nil] at inside
        cases inside
      · cases (given inside leaves own).2
        rcases rimmed'.kind_of_endpoint has kind' mem inside with other | other <;>
          cases kind.symm.trans other
    | outOf has kind' port tip inside enters =>
      have mem := Scope.endpoint_of_output tip
      rcases own with own | own
      · cases (taken inside enters own).2
        rcases rimmed'.kind_of_endpoint has kind' mem inside with other | other <;>
          cases kind.symm.trans other
      · obtain ⟨rfl, rfl⟩ := given has (mem_of_getElem? port) own
        cases kind.symm.trans kind'
        rw [sealing.gone _ mem not_mem_nil] at inside
        cases inside
  have held : now.Held part node := by
    intro _ out input fed
    constructor
    · intro own
      obtain ⟨place, outer⟩ := mem_iff_getElem?.mp own
      obtain ⟨inner, tip⟩ := exists_getElem?_of_length_eq
        (rimmed.inputs part node scope got kind) outer
      obtain ⟨other, late, fed'⟩ := sealing.entered place input inner outer tip not_mem_nil out fed
      refine ⟨other, fun mem => ?_, fed'⟩
      exact Nat.not_lt.mpr late (wf.inputBelow other part (wf.input_of_mem got mem))
    · intro own
      obtain ⟨place, outer⟩ := mem_iff_getElem?.mp own
      obtain ⟨inner, tip⟩ := exists_getElem?_of_length_eq
        (rimmed.outputs part node scope got kind) outer
      obtain ⟨other, late, fed'⟩ := sealing.left place out inner outer tip not_mem_nil input fed
      refine ⟨other, fun mem => ?_, fed'⟩
      exact Nat.not_lt.mpr late (wf.outputBelow other part (wf.output_of_mem got mem))
  apply sealing.conserves.trans
  refine (sealing.wf.drop got').conserves got' sealing.wf rimmed' pathless held ?_ ?_
  · rintro other ⟨record, has, -, outer, -⟩ rfl
    cases got'.symm.trans has
    exact outer scope kind
  · intro scope' kind' tip mem
    cases kind.symm.trans kind'
    exact sealing.gone tip mem not_mem_nil

omit wf whole calm in
/-- The flow part is taken out once all seams are in place. -/
theorem Sealing.close {middle : Nat} (sealing : Sealing start part node scope [] seams now)
    (opening : Opening start home part path middle now) (nested : start.Nested home)
    (homed : home part = some path) : Reshaped start (now.drop part node)
      (inlined start home part path) (layer start middle) := by
  have dropped := sealing.wf.drop (sealing.part_found rimmed got kind below)
  refine ⟨dropped.wf, dropped.next ▸ sealing.conserves.adds.1,
    dropped.root.trans sealing.conserves.root, fun id mem => ?_, fun id other got => ?_,
    fun first second prec => ?_⟩
  · obtain ⟨other, got'⟩ := nested.founded.exists_endpoint mem
    rw [dropped.nodes, if_neg, sealing.kept id (nested.founded.wf.early got')]
    · refine .inl fun inner => ?_
      have inside := nested.parts part node scope path got kind homed id inner
      cases (nested.root id mem).symm.trans inside
    · rintro rfl
      exact nested.founded.not_flowPart mem got kind
  · exact (sealing.conserves.adds.2 id other (dropped.nodes_old got).2).imp_right
      (And.imp_right Node.isPseudo_of_isPassThrough)
  · rcases opening first second ((precedes_drop sealing.wf
      (sealing.part_found rimmed ‹_› kind below)).mp prec).1 with
      prec | ⟨-, -, image, image', lower⟩
    · exact .inl (.single prec)
    · exact .inr ⟨image.trans image'.symm, lower⟩

end Loops

/-- A node without logic of the user is no endpoint of the whole graph. -/
theorem Founded.not_endpoint (founded : G.Founded) (has : G.nodes[id]? = some record)
    (pseudo : record.isPseudo) : id ∉ G.root.endpoints := by
  intro mem
  rw [Node.isPseudo] at pseudo
  rcases mem_append.mp mem with mem | mem
  · obtain ⟨record', has', kind, -⟩ := founded.inputs id mem
    cases has.symm.trans has'
    rw [kind] at pseudo
    cases pseudo
  · obtain ⟨record', has', kind, -⟩ := founded.outputs id mem
    cases has.symm.trans has'
    rw [kind] at pseudo
    cases pseudo

/-- Taking out a node that only passes data on keeps homes. -/
theorem Nested.exists_skip (nested : G.Nested home) (rimmed : G.Rimmed)
    (has : G.nodes[id]? = some record) (passes : record.isPassThrough) (homed : home id ≠ none) :
    ∃ post, G.skip id = .ok post ∧ G.Conserves post ∧ post.Nested home ∧
      Skipped G id post := by
  have wf := nested.founded.wf
  obtain ⟨post, run, conserves⟩ := rimmed.exists_skip wf has passes
    fun prec => nested.acyclic id homed (.single prec)
  have skipped := wf.skip run
  have reshaped := skipped.reshaped wf
    (nested.founded.not_endpoint has (Node.isPseudo_of_isPassThrough passes))
  exact ⟨post, run, conserves, nested.reshaped reshaped fun _ _ => rfl, skipped⟩

/-- Seams can be taken out again, one after the other. -/
theorem Nested.exists_skipEach (nested : start.Nested home) (rimmed : start.Rimmed)
    (nodup : seams.Nodup) (made : ∀ seam ∈ seams, home seam ≠ none ∧
      ∃ made : Node, start.nodes[seam]? = some made ∧ made.isPassThrough) :
    ∃ post, seams.foldlM skip start = .ok post ∧ start.Conserves post ∧ post.Nested home ∧
      ∀ id, id ∉ seams → post.nodes[id]? = start.nodes[id]? := by
  let inv (rest : List NodeId) (now : Graph) : Prop := rest.Nodup ∧ rest ⊆ seams ∧ now.Nested home ∧
      (∀ seam ∈ rest, now.nodes[seam]? = start.nodes[seam]?) ∧ start.Conserves now ∧
      ∀ id, id ∉ seams → now.nodes[id]? = start.nodes[id]?
  have step : ∀ seam rest now, inv (seam :: rest) now →
      ∃ next, now.skip seam = .ok next ∧ inv rest next := by
    rintro seam rest now ⟨nodup, within, nested, waiting, conserves, kept⟩
    have mem := within (.head _)
    obtain ⟨homed, record, has, passes⟩ := made seam mem
    rw [← waiting seam (.head _)] at has
    obtain ⟨next, run, step, nested', skipped⟩ :=
      nested.exists_skip (rimmed.of_adds conserves.adds) has passes homed
    obtain ⟨fresh, nodup⟩ := nodup_cons.mp nodup
    refine ⟨next, run, nodup, fun _ later => within (.tail _ later), nested',
      fun other later => ?_, conserves.trans step, fun id outer => ?_⟩
    · rw [skipped.nodes, if_neg, waiting other (.tail _ later)]
      rintro rfl
      exact fresh later
    · rw [skipped.nodes, if_neg, kept id outer]
      rintro rfl
      exact outer mem
  have begin' : inv seams start :=
    ⟨nodup, Subset.refl _, nested, fun _ _ => rfl, .refl start, fun _ _ => rfl⟩
  obtain ⟨post, run, -, -, nested', -, conserves, kept⟩ := foldlM_keeps inv step begin'
  exact ⟨post, run, conserves, nested', kept⟩

/-- A flow part without flow parts in it can be inlined. -/
theorem Nested.exists_inlineFlowPart (nested : start.Nested home)
    (flat : start.Flat home (part :: path)) (rimmed : start.Rimmed)
    (got : start.nodes[part]? = some node) (kind : node.kind = .flowPart scope)
    (homed : home part = some path)
    (whole : ∀ tip ∈ scope.endpoints, ∃ record, start.nodes[tip]? = some record)
    (calm : boundary ≠ .shuffle) :
    ∃ seams post, start.inlineFlowPart part boundary = .ok (seams, post) ∧
      start.Conserves post ∧ post.Nested (home ∘ Graph.inlined start home part path) ∧
      post.nodes[part]? = none ∧ ∀ id : NodeId, id.raw < start.next → id ≠ part →
        id ∉ scope.endpoints → post.nodes[id]? = start.nodes[id]? := by
  have wf := nested.founded.wf
  have below := wf.early got
  obtain ⟨entries, opened, exits, sealed, middle, run, run', sealing, opening⟩ :=
    nested.exists_seams wf rimmed got kind below whole calm homed
  have got' := sealing.part_found rimmed got kind below
  have conserves := sealing.remove wf rimmed got kind below
  have removed : sealed.remove part = .ok (sealed.drop part node) := by
    rw [Graph.remove, bind_of_ok (node_of_found got')]
    rfl
  have dropped := sealing.wf.drop got'
  have gone : (sealed.drop part node).nodes[part]? = none := (dropped.nodes part).trans (if_pos rfl)
  have kept : ∀ id : NodeId, id.raw < start.next → id ≠ part → id ∉ scope.endpoints →
      (sealed.drop part node).nodes[id]? = start.nodes[id]? := by
    intro id early ne outer
    rw [dropped.nodes, if_neg ne, sealing.kept id early (.inl outer)]
  have nested' := nested.inlined flat
    (sealing.close rimmed got kind below opening nested homed) gone
  have old : ∀ id : NodeId, id.raw < start.next → id ∉ entries ++ exits :=
    fun id early mem => Nat.not_lt.mpr (sealing.made id mem).1 early
  obtain ⟨skipped, run'', step, nested'', kept'⟩ := nested'.exists_skipEach
    (rimmed.of_adds conserves.adds) sealing.nodup (fun seam mem => by
      obtain ⟨late, made, has, passes⟩ := sealing.made seam mem
      refine ⟨?_, made, ?_, passes⟩
      · rw [Function.comp, inlined_new late, homed]
        exact Option.some_ne_none _
      · rw [dropped.nodes, if_neg, has]
        rintro rfl
        exact Nat.not_lt.mpr late below)
  rw [Graph.inlineFlowPart, if_neg calm]
  simp only
  rw [bind_of_ok (node_of_found got), kind]
  simp only
  rw [bind_of_ok run, bind_of_ok run', bind_of_ok removed]
  split
  · refine ⟨[], skipped, bind_of_ok run'', conserves.trans step, nested'',
      (kept' part (old part below)).trans gone, fun id early ne outer => ?_⟩
    rw [kept' id (old id early), kept id early ne outer]
  · exact ⟨entries ++ exits, _, rfl, conserves, nested', gone, kept⟩

/-! ## Scopes -/

/-- Changes that succeed one after the other under an invariant succeed together. -/
theorem changeEach_keeps {items : List α} {change : Graph → α → Changed}
    (inv : List α → Nat → Graph → Prop) (kept : ∀ item rest count G, inv (item :: rest) count G →
      ∃ more post, change G item = .ok (more, post) ∧
        inv rest (count + more) post) (start : inv items 0 G) :
    ∃ count post, G.changeEach items change = .ok (count, post) ∧ inv [] count post := by
  obtain ⟨⟨count, post⟩, run, holds⟩ : ∃ result,
      G.changeEach items change = .ok result ∧ inv [] result.1 result.2 := by
    refine foldlM_keeps (fun rest (state : Nat × Graph) => inv rest state.1 state.2) ?_ start
    rintro item rest ⟨count, now⟩ holds
    obtain ⟨more, post, run, holds⟩ := kept item rest count now holds
    exact ⟨(count + more, post), bind_of_ok run, holds⟩
  exact ⟨count, post, run, holds⟩

/-- Each element is done when its turn comes, and what is done stays done. -/
theorem exists_changeEach (items : List α) (change : Graph → α → Changed)
    (reached : Graph → Prop) (done : Graph → α → Prop)
    (step : ∀ {now : Graph} {item : α}, reached now → item ∈ items →
      ∃ more next, change now item = .ok (more, next) ∧ reached next ∧ done next item ∧
        ∀ other ∈ items, done now other → done next other) (start : reached G) :
    ∃ count post, G.changeEach items change = .ok (count, post) ∧ reached post ∧
      ∀ item ∈ items, done post item := by
  let inv (rest : List α) (_ : Nat) (now : Graph) : Prop := reached now ∧
    rest ⊆ items ∧ ∀ item ∈ items, item ∈ rest ∨ done now item
  have kept : ∀ item rest count now, inv (item :: rest) count now →
      ∃ more post, change now item = .ok (more, post) ∧ inv rest (count + more) post := by
    rintro item rest _ now ⟨reach, within, waits⟩
    obtain ⟨more, next, run, reach', now, stays⟩ := step reach (within (.head _))
    refine ⟨more, next, run, reach', fun other later => within (.tail _ later), fun other mem => ?_⟩
    rcases waits other mem with waiting | was
    · exact (mem_cons.mp waiting).elim (fun eq => .inr (eq ▸ now)) .inl
    · exact .inr (stays other mem was)
  obtain ⟨count, post, run, reach, -, all⟩ := changeEach_keeps inv kept
    ⟨start, Subset.refl _, fun _ mem => .inl mem⟩
  exact ⟨count, post, run, reach, fun item mem =>
    (all item mem).resolve_left not_mem_nil⟩

/-- The flow parts around a scope, from the innermost one outwards. -/
def Trail (graph : Graph) (home : Homes) (path : List NodeId) : Prop :=
  ∀ part rest, (part :: rest) <:+ path → home part = some rest ∧
    ∃ node scope, graph.nodes[part]? = some node ∧ node.kind = .flowPart scope

/-- No flow part lies in itself. -/
theorem Trail.nodup (trail : G.Trail home path) : path.Nodup := by
  induction path with
  | nil => exact .nil
  | cons part rest ih =>
    refine nodup_cons.mpr ⟨fun again => ?_, ih fun other inner within =>
      trail other inner (within.trans (suffix_cons part rest))⟩
    obtain ⟨pre, behind, rfl⟩ := append_of_mem again
    have outer := (trail part _ (suffix_refl _)).1
    have inner := (trail part behind (suffix_append (part :: pre) _)).1
    rw [outer, Option.some.injEq] at inner
    have := congrArg length inner
    simp only [length_append, length_cons] at this
    omega

/-- There are at most as many flow parts as the number says. -/
def PartsAtMost (graph : Graph) (bound : Nat) : Prop :=
  ∀ ids : List NodeId, ids.Nodup → (∀ id ∈ ids, ∃ node scope, graph.nodes[id]? = some node ∧
    node.kind = .flowPart scope) → ids.length ≤ bound

theorem partsAtMost_size (G : Graph) : G.PartsAtMost G.nodes.size := by
  intro ids nodup parts
  rw [← card_nodeIds, ← toFinset_card_of_nodup nodup]
  apply Finset.card_le_card
  intro id mem
  obtain ⟨node, -, got, -⟩ := parts id (mem_toFinset.mp mem)
  exact mem_nodeIds.mpr ⟨node, got⟩

theorem PartsAtMost.of_adds (few : start.PartsAtMost bound) (adds : start.Adds post) :
    post.PartsAtMost bound := by
  intro ids nodup parts
  apply few ids nodup
  intro id mem
  obtain ⟨node, scope, got, kind⟩ := parts id mem
  exact ⟨node, scope, adds.part got kind, kind⟩

/-- A path leads through no more flow parts than there are. -/
theorem Trail.length_le (trail : G.Trail home path) (few : G.PartsAtMost bound) :
    path.length ≤ bound := by
  apply few path trail.nodup
  intro part mem
  obtain ⟨pre, behind, rfl⟩ := append_of_mem mem
  exact (trail part behind (suffix_append pre _)).2

/-- The other flow parts keep their endpoints. -/
theorem Whole.inlineFlowPart (whole : start.Whole) (rimmed : start.Rimmed)
    (conserves : start.Conserves post) (got : start.nodes[part]? = some node)
    (kind : node.kind = .flowPart scope) (gone : post.nodes[part]? = none)
    (kept : ∀ id : NodeId, id.raw < start.next → id ≠ part → id ∉ scope.endpoints →
      post.nodes[id]? = start.nodes[id]?) : post.Whole := by
  intro part' node' scope' got' kind' tip mem
  have has := conserves.adds.part got' kind'
  obtain ⟨record, there⟩ := whole part' node' scope' has kind' tip mem
  refine ⟨record, ?_⟩
  rw [kept tip (rimmed.bounded part' node' scope' has kind' tip mem), there]
  · rintro rfl
    cases got.symm.trans there
    rcases rimmed.kind_of_endpoint has kind' mem there with other | other <;>
      cases kind.symm.trans other
  · intro mem'
    cases rimmed.apart part part' node node' scope scope' tip got kind has kind' mem' mem
    rw [gone] at got'
    cases got'

/-- What inlining the flow parts of a scope does: nothing changes outside of the
scope and what is nested in it. -/
structure Inlined (pre : Graph) (home : Homes) (path : List NodeId)
    (post : Graph) (home' : Homes) : Prop where
  nested : post.Nested home'
  conserves : pre.Conserves post
  whole : post.Whole
  outside : ∀ id path', id.raw < pre.next → home id = some path' → ¬ path <:+ path' →
    post.nodes[id]? = pre.nodes[id]? ∧ home' id = some path'
  within : ∀ id node scope path',
    post.nodes[id]? = some node → node.kind = .flowPart scope → home' id = some path' →
    ¬ path <:+ path' → home id = some path'

theorem not_suffix_of_cons (id : NodeId) (path : List NodeId) : ¬ (id :: path) <:+ path := by
  intro suffix
  exact Nat.not_succ_le_self _ suffix.length_le

/-- The content of a flow part is inlined first, and then the flow part itself. -/
theorem Inlined.step {pre middle : Graph} {home₀ home₁ : Homes}
    (inlined : Inlined start home₀ path pre home) (rimmed : pre.Rimmed)
    (got : pre.nodes[part]? = some node) (kind : node.kind = .flowPart scope)
    (homed : home part = some path) (content : Inlined pre home (part :: path) middle home₁)
    (flat : middle.Flat home₁ (part :: path)) (calm : boundary ≠ .shuffle) :
    ∃ seams post home', middle.inlineFlowPart part boundary = .ok (seams, post) ∧
      Inlined start home₀ path post home' ∧
      (∀ id other, pre.nodes[id]? = some other → id ≠ part →
        home id = some path → post.nodes[id]? = some other ∧ home' id = some path) ∧
      ∀ id other scope, post.nodes[id]? = some other →
        other.kind = .flowPart scope → home' id = some path →
        id ≠ part ∧ pre.nodes[id]? = some other ∧ home id = some path := by
  have below := inlined.nested.founded.wf.nodeBelow
  obtain ⟨got₁, homed₁⟩ := content.outside part path (below part node got) homed
    (not_suffix_of_cons part path)
  replace rimmed := rimmed.of_adds content.conserves.adds
  obtain ⟨seams, post, run, conserves, nested', gone, kept⟩ :=
    content.nested.exists_inlineFlowPart flat rimmed (got₁.trans got) kind homed₁
      (content.whole part node scope (got₁.trans got) kind) calm
  have inside := content.nested.parts part node scope path (got₁.trans got) kind homed₁
  let home' := home₁ ∘ Graph.inlined middle home₁ part path
  -- what is at home outside of the flow part stays
  have stays : ∀ id path', id.raw < pre.next → id ≠ part →
      home id = some path' → ¬ (part :: path) <:+ path' →
      post.nodes[id]? = pre.nodes[id]? ∧ home' id = some path' := by
    intro id path' early ne homed outer
    obtain ⟨eq, homed₁⟩ := content.outside id path' early homed outer
    have early' := Nat.lt_of_lt_of_le early content.conserves.adds.1
    have outer' : home₁ id ≠ some (part :: path) := by
      rw [homed₁]
      rintro ⟨⟩
      exact outer (suffix_refl _)
    rw [kept id early' ne fun mem => outer' (inside id mem)]
    exact ⟨eq, (congrArg home₁ (inlined_outer early' outer')).trans homed₁⟩
  -- a flow part afterwards is an old one
  have comes : ∀ id other scope, post.nodes[id]? = some other →
      other.kind = .flowPart scope → id ≠ part ∧ middle.nodes[id]? = some other ∧
        home' id = home₁ id := by
    intro id other scope left kind
    have got₁ := conserves.adds.part left kind
    refine ⟨?_, got₁, congrArg home₁ (inlined_outer (content.nested.founded.wf.early got₁)
      (flat id other scope got₁ kind))⟩
    rintro rfl
    cases gone.symm.trans left
  refine ⟨seams, post, home', run, ⟨nested',
    inlined.conserves.trans (content.conserves.trans conserves),
    content.whole.inlineFlowPart rimmed conserves (got₁.trans got) kind gone kept,
    ?_, ?_⟩, ?_, ?_⟩
  · intro id path' early homed₀ outer
    obtain ⟨eq, homed''⟩ := inlined.outside id path' early homed₀ outer
    obtain ⟨eq', homed'⟩ := stays id path' (Nat.lt_of_lt_of_le early inlined.conserves.adds.1) (by
      rintro rfl
      rw [homed] at homed''
      cases homed''
      exact outer (suffix_refl _)) homed'' fun suffix =>
        outer ((suffix_cons part path).trans suffix)
    exact ⟨eq'.trans eq, homed'⟩
  · intro id other scope path' got kind homed' outer
    obtain ⟨-, got₁, eq⟩ := comes id other scope got kind
    refine inlined.within id other scope path' (content.conserves.adds.part got₁ kind) kind ?_ outer
    exact content.within id other scope path' got₁ kind (eq.symm.trans homed') fun suffix =>
      outer ((suffix_cons part path).trans suffix)
  · intro id other got ne homed
    obtain ⟨eq, homed'⟩ := stays id path (below id other got) ne homed
      (not_suffix_of_cons part path)
    exact ⟨eq.trans got, homed'⟩
  · intro id other scope got kind homed'
    obtain ⟨ne, got₁, eq⟩ := comes id other scope got kind
    exact ⟨ne, content.conserves.adds.part got₁ kind,
      content.within id other scope path got₁ kind (eq.symm.trans homed')
        (not_suffix_of_cons part path)⟩

/-- The way to the content of a flow part of a scope that is being inlined. -/
theorem Trail.cons {home' : Homes} {members : NodeSet}
    (trail : G.Trail home path) (wf : G.Consistent)
    (inlined : Inlined G (narrowed home path members) path now home')
    (got : now.nodes[part]? = some node) (kind : node.kind = .flowPart scope)
    (homed : home' part = some path) : now.Trail home' (part :: path) := by
  intro other rest within
  rcases suffix_cons_iff.mp within with eq | within
  · cases eq
    exact ⟨homed, node, scope, got, kind⟩
  · obtain ⟨homed', node', scope', got', kind'⟩ := trail other rest within
    have shorter : ¬ path <:+ rest := by
      intro longer
      have := within.length_le
      have := longer.length_le
      simp only [length_cons] at *
      omega
    have outer : narrowed home path members other = some rest := by
      rw [narrowed_of_ne, homed']
      rw [homed', ne_eq, Option.some.injEq]
      rintro rfl
      exact shorter (suffix_refl _)
    obtain ⟨stays, homed''⟩ := inlined.outside other rest (wf.early got') outer shorter
    exact ⟨homed'', node', scope', stays.trans got', kind'⟩

/-- The flow parts of a scope can be inlined, with what is nested in them. -/
theorem Nested.exists_inlineScope {levels : Nat} (nested : G.Nested home)
    (at' : G.ScopeAt home path scope)
    (has : ∀ tip ∈ scope.endpoints, ∃ record, G.nodes[tip]? = some record)
    (rimmed : G.Rimmed) (whole : G.Whole) (trail : G.Trail home path)
    (few : G.PartsAtMost bound) (deep : bound < path.length + levels) (calm : boundary ≠ .shuffle) :
    ∃ count post home', Graph.inlineScope boundary levels G scope = .ok (count, post) ∧
      Inlined G home path post home' ∧ post.Flat home' path := by
  induction levels generalizing G home path scope with
  | zero =>
    have := trail.length_le few
    omega
  | succ levels ih =>
    obtain ⟨members, collected, -⟩ := nested.founded.wf.members_eq_ok has
    -- what is left to do are the flow parts that are at home here
    let inv (rest : List (NodeId × Scope)) (_ : Nat) (now : Graph) : Prop :=
      ∃ home', Inlined G (narrowed home path members) path now home' ∧ (rest.map Prod.fst).Nodup ∧
        (∀ pair ∈ rest, ∃ node, now.nodes[pair.1]? = some node ∧
          node.kind = .flowPart pair.2 ∧ home' pair.1 = some path) ∧
        ∀ id node scope, now.nodes[id]? = some node →
          node.kind = .flowPart scope → home' id = some path → (id, scope) ∈ rest
    have begin' : inv (G.flowPartsOf members) 0 G := by
      refine ⟨narrowed home path members, ⟨nested.narrow at' collected, .refl G, whole,
        fun _ _ _ homed _ => ⟨rfl, homed⟩, fun _ _ _ _ _ _ homed _ => homed⟩,
        nodup_flowPartsOf members, ?_, ?_⟩
      · rintro ⟨id, inner⟩ mem
        obtain ⟨member, node, got, kind⟩ := mem_flowPartsOf.mp mem
        refine ⟨node, got, kind, ?_⟩
        rw [narrowed_of_mem member]
        exact nested.home_of_mem at'.homed collected member
      · intro id node inner got kind homed
        exact mem_flowPartsOf.mpr ⟨(narrowed_eq_some homed).2 rfl, node, got, kind⟩
    obtain ⟨count, post, run, home', inlined, -, -, all⟩ : ∃ count post,
        G.inlineScope boundary (levels + 1) scope = .ok (count, post) ∧ inv [] count post := by
      rw [Graph.inlineScope, bind_of_ok collected]
      refine changeEach_keeps inv ?_ begin'
      rintro ⟨part, inner⟩ rest count now ⟨home₁, inlined, nodup, parts, all⟩
      obtain ⟨node, got, kind, homed⟩ := parts _ (.head _)
      rw [map_cons, nodup_cons] at nodup
      have adds := inlined.conserves.adds
      have inside : now.ScopeAt home₁ (part :: path) inner := by
        refine ⟨inlined.nested.parts part node inner path got kind homed,
          fun empty => (cons_ne_nil _ _ empty).elim, ?_⟩
        intro id node' inner' rest' eq got' kind' _
        cases eq
        cases got.symm.trans got'
        cases kind.symm.trans kind'
        rfl
      -- first what lies in the flow part, then the flow part itself
      obtain ⟨more, middle, home₂, run, content, flat⟩ := ih inlined.nested inside
        (inlined.whole part node inner got kind) (rimmed.of_adds adds) inlined.whole
        (trail.cons nested.founded.wf inlined got kind homed) (few.of_adds adds)
        (by simp only [length_cons]; omega)
      obtain ⟨seams, post, home', run', inlined', stays, comes⟩ :=
        inlined.step (rimmed.of_adds adds) got kind homed content flat calm
      refine ⟨more + 1, post, ?_, home', inlined', nodup.2, fun pair later => ?_,
        fun id other scope got kind homed => ?_⟩
      · exact (bind_of_ok run).trans (bind_of_ok run')
      · obtain ⟨other, got', kind', homed'⟩ := parts pair (.tail _ later)
        obtain ⟨got'', homed''⟩ := stays pair.1 other got' (fun eq =>
          nodup.1 (eq ▸ mem_map_of_mem later)) homed'
        exact ⟨other, got'', kind', homed''⟩
      · obtain ⟨ne, got', homed'⟩ := comes id other scope got kind homed
        rcases mem_cons.mp (all id other scope got' kind homed') with eq | later
        · cases eq
          exact (ne rfl).elim
        · exact later
    refine ⟨count, post, home', run, ⟨inlined.nested, inlined.conserves, inlined.whole,
      fun id path' early homed outer => inlined.outside id path' early ?_ outer,
      fun id node scope path' got kind homed outer => (narrowed_eq_some
        (inlined.within id node scope path' got kind homed outer)).1⟩,
      fun id node scope got kind homed => not_mem_nil (all id node scope got kind homed)⟩
    rw [narrowed_of_ne, homed]
    rw [homed]
    rintro ⟨⟩
    exact outer (suffix_refl _)

end Graph

end Staging
