import Staging.Proofs.Handles
import Staging.Proofs.Loops
import Staging.Wiring

/-! # Wirings whose two ends agree

A block port belongs to a block and wraps a port. In a consistent wiring the two
ends of each link agree and all handles are smaller than the next one. Every
operation is described by what it does to the block ports and to the links.
-/

namespace Staging

open Std List ExtTreeSet HandleMap

variable {pre post third : Wiring} {block : BlockId} {pairs : List (BlockOutputId × BlockInputId)}

/-- A pair is known by its first part. -/
theorem exists_eq_some_pair {α β : Type} {x : Option (α × β)} {a : α} :
    (∃ b, x = some (a, b)) ↔ x.map Prod.fst = some a := by
  simp

namespace Wiring

/-- The block of a block input and the port that it wraps. -/
def entryOf (wiring : Wiring) (entry : BlockInputId) : Option (BlockId × InputId) :=
  wiring.inputs[entry]?.map fun record => (record.block, record.port)

/-- The block of a block output and the port that it wraps. -/
def exitOf (wiring : Wiring) (exit : BlockOutputId) : Option (BlockId × OutputId) :=
  wiring.outputs[exit]?.map fun record => (record.block, record.port)

/-- A link leads from the block output to the block input. -/
def Linked (wiring : Wiring) (exit : BlockOutputId) (entry : BlockInputId) : Prop :=
  entry ∈ wiring.targets exit

/-- A block output wraps the output port. -/
def Wraps (wiring : Wiring) (port : OutputId) : Prop :=
  ∃ exit block, wiring.exitOf exit = some (block, port)

/-- Some link leads from a block output that wraps the one port to a block
input that wraps the other. -/
def Joins (wiring : Wiring) (out : OutputId) (input : InputId) : Prop :=
  ∃ exit entry source target, wiring.exitOf exit = some (source, out) ∧
    wiring.entryOf entry = some (target, input) ∧ wiring.Linked exit entry

/-- Some link leads from a block output of the one block to a block input of the
other. -/
def Leads (wiring : Wiring) (first second : BlockId) : Prop :=
  ∃ exit entry out input, wiring.exitOf exit = some (first, out) ∧
    wiring.entryOf entry = some (second, input) ∧ wiring.Linked exit entry

/-- Some link leads from a block output to a block input that belong to these
blocks and wrap these ports. -/
def Connects (wiring : Wiring) (left : BlockId × OutputId) (right : BlockId × InputId) : Prop :=
  ∃ exit entry, wiring.exitOf exit = some left ∧ wiring.entryOf entry = some right ∧
    wiring.Linked exit entry

/-- Joined ports are linked between some blocks. -/
theorem joins_iff_connects {W : Wiring} {out : OutputId} {input : InputId} :
    W.Joins out input ↔ ∃ source target, W.Connects (source, out) (target, input) := by
  constructor
  · rintro ⟨exit, entry, source, target, connected⟩
    exact ⟨source, target, exit, entry, connected⟩
  · rintro ⟨source, target, exit, entry, connected⟩
    exact ⟨exit, entry, source, target, connected⟩

/-- Blocks lead to each other through some ports. -/
theorem leads_iff_connects {W : Wiring} {first second : BlockId} : W.Leads first second ↔
    ∃ out input, W.Connects (first, out) (second, input) := by
  constructor
  · rintro ⟨exit, entry, out, input, connected⟩
    exact ⟨out, input, exit, entry, connected⟩
  · rintro ⟨out, input, exit, entry, connected⟩
    exact ⟨exit, entry, out, input, connected⟩

/-- The two ends of each link agree, and handles are smaller than the next one. -/
structure Consistent (wiring : Wiring) : Prop where
  entryBelow : ∀ entry wrapped, wiring.entryOf entry = some wrapped → entry.raw < wiring.next
  exitBelow : ∀ exit wrapped, wiring.exitOf exit = some wrapped → exit.raw < wiring.next
  agree : ∀ exit entry, wiring.Linked exit entry ↔ exit ∈ wiring.sources entry

/-- The two wirings have the same block ports; links may differ. -/
structure SameFrame (pre post : Wiring) : Prop where
  next : post.next = pre.next
  entryOf : ∀ entry, post.entryOf entry = pre.entryOf entry
  exitOf : ∀ exit, post.exitOf exit = pre.exitOf exit

/-- No change keeps all block ports. -/
theorem SameFrame.refl (W : Wiring) : SameFrame W W := ⟨rfl, fun _ => rfl, fun _ => rfl⟩

/-- Two changes that keep all block ports. -/
theorem SameFrame.trans {first second : Wiring} (one : SameFrame first second)
    (two : SameFrame second third) : SameFrame first third :=
  ⟨two.next.trans one.next, fun entry => (two.entryOf entry).trans (one.entryOf entry),
    fun exit => (two.exitOf exit).trans (one.exitOf exit)⟩

private theorem Consistent.of_sameFrame (wf : pre.Consistent) (eq : SameFrame pre post)
    (agree : ∀ exit entry, post.Linked exit entry ↔ exit ∈ post.sources entry) :
    post.Consistent where
  entryBelow entry wraps got := by
    rw [eq.entryOf] at got
    exact eq.next ▸ wf.entryBelow entry wraps got
  exitBelow exit wraps got := by
    rw [eq.exitOf] at got
    exact eq.next ▸ wf.exitBelow exit wraps got
  agree := agree

/-- The port that a block input wraps. -/
theorem inputPort?_eq (W : Wiring) (entry : BlockInputId) :
    W.inputPort? entry = (W.entryOf entry).map Prod.snd := by
  rw [inputPort?, entryOf]
  cases W.inputs[entry]? <;> rfl

/-- The port that a block output wraps. -/
theorem outputPort?_eq (W : Wiring) (exit : BlockOutputId) :
    W.outputPort? exit = (W.exitOf exit).map Prod.snd := by
  rw [outputPort?, exitOf]
  cases W.outputs[exit]? <;> rfl

private theorem targets_eq (W : Wiring) (exit : BlockOutputId) :
    W.targets exit = W.outputs.linksOf BlockOutput.links exit := by
  rw [targets, linksOf]
  cases W.outputs[exit]? <;> rfl

private theorem sources_eq (W : Wiring) (entry : BlockInputId) :
    W.sources entry = W.inputs.linksOf BlockInput.links entry := by
  rw [sources, linksOf]
  cases W.inputs[entry]? <;> rfl

/-- Links start at block outputs. -/
theorem exists_exitOf_of_linked {W : Wiring} {exit : BlockOutputId} {entry : BlockInputId}
    (linked : W.Linked exit entry) : ∃ wraps, W.exitOf exit = some wraps := by
  rw [Linked, targets_eq] at linked
  exact view_of_mem_linksOf _ linked

/-- Links end at block inputs. -/
theorem Consistent.exists_entryOf {W : Wiring} (wf : W.Consistent)
    {exit : BlockOutputId} {entry : BlockInputId} (linked : W.Linked exit entry) :
    ∃ wraps, W.entryOf entry = some wraps := by
  rw [wf.agree, sources_eq] at linked
  exact view_of_mem_linksOf _ linked

/-- Block inputs that exist pass the check. -/
theorem checkInputs_eq_ok {W : Wiring} {entries : List BlockInputId}
    (has : ∀ entry ∈ entries, ∃ wraps, W.entryOf entry = some wraps) :
    W.checkInputs entries = .ok () := by
  refine forM_eq_ok fun entry member => ?_
  obtain ⟨wraps, got⟩ := has entry member
  obtain ⟨record, mem, -⟩ := Option.map_eq_some_iff.mp got
  rw [Wiring.input, mem]
  rfl

/-- Block outputs that exist pass the check. -/
theorem checkOutputs_eq_ok {W : Wiring} {exits : List BlockOutputId}
    (has : ∀ exit ∈ exits, ∃ wraps, W.exitOf exit = some wraps) :
    W.checkOutputs exits = .ok () := by
  refine forM_eq_ok fun exit member => ?_
  obtain ⟨wraps, got⟩ := has exit member
  obtain ⟨record, mem, -⟩ := Option.map_eq_some_iff.mp got
  rw [Wiring.output, mem]
  rfl

/-- The record of a block input. -/
theorem input_eq_ok {W : Wiring} {entry : BlockInputId} {port : InputId}
    (got : W.entryOf entry = some (block, port)) :
    ∃ record, W.input entry = .ok record ∧ record.block = block ∧ record.port = port := by
  obtain ⟨record, mem, wraps⟩ := Option.map_eq_some_iff.mp got
  rw [Prod.mk.injEq] at wraps
  exact ⟨record, by rw [Wiring.input, mem], wraps⟩

/-- The record of a block output. -/
theorem output_eq_ok {W : Wiring} {exit : BlockOutputId}
    {port : OutputId} (got : W.exitOf exit = some (block, port)) :
    ∃ record, W.output exit = .ok record ∧ record.block = block ∧ record.port = port ∧
      record.links = W.targets exit := by
  obtain ⟨record, mem, wraps⟩ := Option.map_eq_some_iff.mp got
  rw [Prod.mk.injEq] at wraps
  exact ⟨record, by rw [Wiring.output, mem], wraps.1, wraps.2, by rw [Wiring.targets, mem]⟩

/-! ## Links -/

section Links

variable (W : Wiring) (exit : BlockOutputId) (entry : BlockInputId)

/-- A link changes no block ports. -/
theorem sameFrame_insertLink : SameFrame W (W.insertLink exit entry) :=
  ⟨rfl, fun _ => view_modify fun _ => rfl, fun _ => view_modify fun _ => rfl⟩

variable {W exit entry}

private theorem linked_insertLink {wraps : BlockId × OutputId} (has : W.exitOf exit = some wraps)
    {source : BlockOutputId} {target : BlockInputId} :
    (W.insertLink exit entry).Linked source target ↔
      W.Linked source target ∨ source = exit ∧ target = entry := by
  rw [Linked, Linked, targets_eq, targets_eq]
  exact mem_linksOf_modify_insert has fun _ => rfl

/-- A link keeps a wiring consistent. -/
theorem Consistent.insertLink (wf : W.Consistent) {left : BlockId × OutputId}
    {right : BlockId × InputId} (has : W.exitOf exit = some left)
    (has' : W.entryOf entry = some right) :
    (W.insertLink exit entry).Consistent := by
  refine wf.of_sameFrame (sameFrame_insertLink W exit entry) fun source target => ?_
  rw [linked_insertLink has, wf.agree, and_comm, sources_eq, sources_eq, iff_comm]
  exact mem_linksOf_modify_insert has' fun _ => rfl

/-- Both block ports of a link exist. -/
def Linkable (wiring : Wiring) (pair : BlockOutputId × BlockInputId) : Prop :=
  (∃ wraps, wiring.exitOf pair.1 = some wraps) ∧ ∃ wraps, wiring.entryOf pair.2 = some wraps

/-- Block ports can still be linked. -/
theorem SameFrame.linkable (eq : SameFrame pre post)
    {pair : BlockOutputId × BlockInputId} (linkable : pre.Linkable pair) :
    post.Linkable pair := by
  simpa only [Linkable, eq.entryOf, eq.exitOf] using linkable

/-- The wiring with all listed links more. -/
def linkPairs (wiring : Wiring) (pairs : List (BlockOutputId × BlockInputId)) : Wiring :=
  pairs.foldl (fun wiring pair => wiring.insertLink pair.1 pair.2) wiring

/-- Links change no block ports. -/
theorem sameFrame_linkPairs (W : Wiring) (pairs : List (BlockOutputId × BlockInputId)) :
    SameFrame W (W.linkPairs pairs) :=
  foldl_keeps (fun _ post => SameFrame W post)
    (fun _ _ _ eq => eq.trans (sameFrame_insertLink _ _ _)) (.refl W)

/-- All listed links are made. -/
theorem linked_linkPairs {W : Wiring}
    (linkable : ∀ pair ∈ pairs, W.Linkable pair) {source : BlockOutputId} {target : BlockInputId} :
    (W.linkPairs pairs).Linked source target ↔
      W.Linked source target ∨ (source, target) ∈ pairs := by
  induction pairs generalizing W with
  | nil => simp [linkPairs]
  | cons pair rest ih =>
    obtain ⟨⟨wraps, has⟩, -⟩ := linkable pair (.head _)
    have later : ∀ other ∈ rest, (W.insertLink pair.1 pair.2).Linkable other :=
      fun other mem => (sameFrame_insertLink _ _ _).linkable (linkable other (.tail _ mem))
    rw [linkPairs, foldl_cons, ← linkPairs, ih later, linked_insertLink has,
      mem_cons, or_assoc, Prod.ext_iff]

/-- Links keep a wiring consistent. -/
theorem Consistent.linkPairs {W : Wiring} (wf : W.Consistent)
    (linkable : ∀ pair ∈ pairs, W.Linkable pair) : (W.linkPairs pairs).Consistent := by
  induction pairs generalizing W with
  | nil => exact wf
  | cons pair rest ih =>
    obtain ⟨⟨_, left⟩, _, right⟩ := linkable pair (.head _)
    exact ih (wf.insertLink left right) fun other mem =>
      (sameFrame_insertLink _ _ _).linkable (linkable other (.tail _ mem))

/-- Links of all with all, pair by pair. -/
theorem insertLinks_eq (W : Wiring) (exits : List BlockOutputId) (entries : List BlockInputId) :
    W.insertLinks exits entries =
      W.linkPairs (exits.flatMap fun exit => entries.map (exit, ·)) := by
  induction exits generalizing W with
  | nil => rfl
  | cons exit rest ih =>
    rw [insertLinks, foldl_cons, ← insertLinks, ih, flatMap_cons, linkPairs,
      linkPairs, foldl_append, foldl_map]

/-- They change no block ports. -/
theorem sameFrame_insertLinks (W : Wiring) (exits : List BlockOutputId)
    (entries : List BlockInputId) : W.SameFrame (W.insertLinks exits entries) :=
  insertLinks_eq W exits entries ▸ sameFrame_linkPairs _ _

end Links

/-! ## Removing block ports -/

section Erase

variable {W : Wiring} (wf : W.Consistent)

/-- An erased block input is gone. -/
theorem entryOf_eraseInput (W : Wiring) (entry other : BlockInputId) :
    (W.eraseInput entry).entryOf other =
      if other = entry then none else W.entryOf other :=
  view_erase

/-- Block outputs stay. -/
theorem exitOf_eraseInput (W : Wiring) (entry : BlockInputId) (exit : BlockOutputId) :
    (W.eraseInput entry).exitOf exit = W.exitOf exit :=
  view_foldl_modify _ fun _ => rfl

/-- An erased block output is gone. -/
theorem exitOf_eraseOutput (W : Wiring) (exit other : BlockOutputId) :
    (W.eraseOutput exit).exitOf other =
      if other = exit then none else W.exitOf other :=
  view_erase

/-- Block inputs stay. -/
theorem entryOf_eraseOutput (W : Wiring) (exit : BlockOutputId) (entry : BlockInputId) :
    (W.eraseOutput exit).entryOf entry = W.entryOf entry :=
  view_foldl_modify _ fun _ => rfl

include wf in
/-- The links of a block input go with it. -/
theorem linked_eraseInput {entry : BlockInputId} {source : BlockOutputId} {target : BlockInputId} :
    (W.eraseInput entry).Linked source target ↔ W.Linked source target ∧ target ≠ entry := by
  rw [Linked, targets_eq]
  refine (mem_linksOf_foldl_modify_erase entry ?_).trans ?_
  · exact fun _ => rfl
  rw [← targets_eq, mem_toList]
  refine and_congr_right fun linked => not_congr (and_iff_right_of_imp ?_)
  rintro rfl
  exact (wf.agree source target).mp linked

/-- The links of a block output go with it. -/
theorem linked_eraseOutput {exit : BlockOutputId} {source : BlockOutputId} {target : BlockInputId} :
    (W.eraseOutput exit).Linked source target ↔ W.Linked source target ∧ source ≠ exit := by
  rw [Linked, Linked, targets_eq, targets_eq]
  exact mem_linksOf_erase

include wf in
private theorem Consistent.eraseInput (entry : BlockInputId) : (W.eraseInput entry).Consistent where
  entryBelow other wraps got := by
    rw [entryOf_eraseInput] at got
    split at got
    · cases got
    · exact wf.entryBelow other wraps got
  exitBelow exit wraps got := wf.exitBelow exit wraps (exitOf_eraseInput W entry exit ▸ got)
  agree source target := by
    rw [linked_eraseInput wf, wf.agree, sources_eq, sources_eq, iff_comm]
    exact mem_linksOf_erase

include wf in
private theorem Consistent.eraseOutput (exit : BlockOutputId) :
    (W.eraseOutput exit).Consistent where
  entryBelow entry wraps got := wf.entryBelow entry wraps (entryOf_eraseOutput W exit entry ▸ got)
  exitBelow other wraps got := by
    rw [exitOf_eraseOutput] at got
    split at got
    · cases got
    · exact wf.exitBelow other wraps got
  agree source target := by
    rw [linked_eraseOutput, wf.agree, sources_eq (W.eraseOutput exit), iff_comm]
    refine (mem_linksOf_foldl_modify_erase exit ?_).trans ?_
    · exact fun _ => rfl
    rw [← sources_eq, mem_toList]
    refine and_congr_right fun fed => not_congr (and_iff_right_of_imp ?_)
    rintro rfl
    exact (wf.agree source target).mpr fed

end Erase

/-- What erasing block inputs does. -/
theorem eraseInputs_spec {W : Wiring} (wf : W.Consistent) (entries : List BlockInputId) :
    (entries.foldl eraseInput W).Consistent ∧ (entries.foldl eraseInput W).next = W.next ∧
      (∀ entry, (entries.foldl eraseInput W).entryOf entry =
        if entry ∈ entries then none else W.entryOf entry) ∧
      (∀ exit, (entries.foldl eraseInput W).exitOf exit = W.exitOf exit) ∧
      ∀ exit entry, (entries.foldl eraseInput W).Linked exit entry ↔
        W.Linked exit entry ∧ entry ∉ entries := by
  induction entries generalizing W with
  | nil => exact ⟨wf, rfl, by simp, fun _ => rfl, by simp⟩
  | cons first rest ih =>
    obtain ⟨wf', next, entryOf, exitOf, linked⟩ := ih (wf.eraseInput first)
    refine ⟨wf', next, fun entry => ?_, fun exit => ?_, fun exit entry => ?_⟩
    · rw [foldl_cons, entryOf, entryOf_eraseInput]
      by_cases here : entry = first
      · simp [here]
      · simp [here]
    · rw [foldl_cons, exitOf, exitOf_eraseInput]
    · rw [foldl_cons, linked, linked_eraseInput wf, mem_cons, not_or, and_assoc]

/-- What erasing block outputs does. -/
theorem eraseOutputs_spec {W : Wiring} (wf : W.Consistent) (exits : List BlockOutputId) :
    (exits.foldl eraseOutput W).Consistent ∧ (exits.foldl eraseOutput W).next = W.next ∧
      (∀ entry, (exits.foldl eraseOutput W).entryOf entry = W.entryOf entry) ∧
      (∀ exit, (exits.foldl eraseOutput W).exitOf exit =
        if exit ∈ exits then none else W.exitOf exit) ∧
      ∀ exit entry, (exits.foldl eraseOutput W).Linked exit entry ↔
        W.Linked exit entry ∧ exit ∉ exits := by
  induction exits generalizing W with
  | nil => exact ⟨wf, rfl, fun _ => rfl, by simp, by simp⟩
  | cons first rest ih =>
    obtain ⟨wf', next, entryOf, exitOf, linked⟩ := ih (wf.eraseOutput first)
    refine ⟨wf', next, fun entry => ?_, fun exit => ?_, fun exit entry => ?_⟩
    · rw [foldl_cons, entryOf, entryOf_eraseOutput]
    · rw [foldl_cons, exitOf, exitOf_eraseOutput]
      by_cases here : exit = first
      · simp [here]
      · simp [here]
    · rw [foldl_cons, linked, linked_eraseOutput, mem_cons, not_or, and_assoc]

/-! ## Adding and changing block ports -/

section Add

variable (W : Wiring)

/-- A block input is added. -/
theorem entryOf_addInput (block : BlockId) (port : InputId) (entry : BlockInputId) :
    (W.addInput block port).2.entryOf entry =
      if entry = ⟨W.next⟩ then some (block, port) else W.entryOf entry :=
  view_insert

/-- A block output is added. -/
theorem exitOf_addOutput (block : BlockId) (port : OutputId) (exit : BlockOutputId) :
    (W.addOutput block port).2.exitOf exit =
      if exit = ⟨W.next⟩ then some (block, port) else W.exitOf exit :=
  view_insert

variable {W} (wf : W.Consistent)

include wf

/-- No block input has the next handle. -/
theorem Consistent.entryOf_next : W.entryOf ⟨W.next⟩ = none :=
  Option.eq_none_iff_forall_ne_some.mpr fun wraps has => Nat.lt_irrefl _ (wf.entryBelow _ wraps has)

/-- No block output has the next handle. -/
theorem Consistent.exitOf_next : W.exitOf ⟨W.next⟩ = none :=
  Option.eq_none_iff_forall_ne_some.mpr fun wraps has => Nat.lt_irrefl _ (wf.exitBelow _ wraps has)

/-- A new block output has no links. -/
theorem linked_addOutput (block : BlockId) (port : OutputId) (exit : BlockOutputId)
    (entry : BlockInputId) :
    (W.addOutput block port).2.Linked exit entry ↔ W.Linked exit entry := by
  rw [Linked, Linked, targets_eq, targets_eq]
  exact iff_of_eq (congrArg (entry ∈ ·) (linksOf_insert wf.exitOf_next rfl))

/-- A new block keeps a wiring consistent. -/
theorem Consistent.newBlock : W.newBlock.2.Consistent where
  entryBelow entry wraps got := Nat.lt_succ_of_lt (wf.entryBelow entry wraps got)
  exitBelow exit wraps got := Nat.lt_succ_of_lt (wf.exitBelow exit wraps got)
  agree := wf.agree

/-- So does a new block input. -/
theorem Consistent.addInput (block : BlockId) (port : InputId) :
    (W.addInput block port).2.Consistent where
  entryBelow entry wraps got := by
    rw [entryOf_addInput] at got
    split at got
    · next eq => exact eq ▸ Nat.lt_succ_self _
    · exact Nat.lt_succ_of_lt (wf.entryBelow entry wraps got)
  exitBelow exit wraps got := Nat.lt_succ_of_lt (wf.exitBelow exit wraps got)
  agree exit entry := by
    refine (wf.agree exit entry).trans ?_
    rw [sources_eq, sources_eq]
    exact iff_of_eq (congrArg (exit ∈ ·) (linksOf_insert wf.entryOf_next rfl).symm)

/-- So does a new block output. -/
theorem Consistent.addOutput (block : BlockId) (port : OutputId) :
    (W.addOutput block port).2.Consistent where
  entryBelow entry wraps got := Nat.lt_succ_of_lt (wf.entryBelow entry wraps got)
  exitBelow exit wraps got := by
    rw [exitOf_addOutput] at got
    split at got
    · next eq => exact eq ▸ Nat.lt_succ_self _
    · exact Nat.lt_succ_of_lt (wf.exitBelow exit wraps got)
  agree exit entry := by
    rw [linked_addOutput wf]
    exact wf.agree exit entry

end Add

section Repoint

variable (W : Wiring)

/-- A block input wraps another port. -/
theorem entryOf_repointInput (entry other : BlockInputId) (port : InputId) :
    (W.repointInput entry port).entryOf other =
      if other = entry then (W.entryOf other).map fun wraps => (wraps.1, port)
      else W.entryOf other :=
  view_modify_of_comm fun _ => rfl

private theorem sources_repointInput (entry other : BlockInputId) (port : InputId) :
    (W.repointInput entry port).sources other = W.sources other := by
  rw [sources_eq, sources_eq]
  exact linksOf_modify fun _ => rfl

/-- A block output wraps another port. -/
theorem exitOf_repointOutput (exit other : BlockOutputId) (port : OutputId) :
    (W.repointOutput exit port).exitOf other =
      if other = exit then (W.exitOf other).map fun wraps => (wraps.1, port)
      else W.exitOf other :=
  view_modify_of_comm fun _ => rfl

private theorem targets_repointOutput (exit other : BlockOutputId) (port : OutputId) :
    (W.repointOutput exit port).targets other = W.targets other := by
  rw [targets_eq, targets_eq]
  exact linksOf_modify fun _ => rfl

variable {W} (wf : W.Consistent)

include wf

private theorem Consistent.repointInput (entry : BlockInputId) (port : InputId) :
    (W.repointInput entry port).Consistent where
  entryBelow other wraps got := by
    rw [entryOf_repointInput] at got
    split at got
    · obtain ⟨pre, got, -⟩ := Option.map_eq_some_iff.mp got
      exact wf.entryBelow other pre got
    · exact wf.entryBelow other wraps got
  exitBelow := wf.exitBelow
  agree exit other := by
    rw [sources_repointInput]
    exact wf.agree exit other

private theorem Consistent.repointOutput (exit : BlockOutputId) (port : OutputId) :
    (W.repointOutput exit port).Consistent where
  entryBelow := wf.entryBelow
  exitBelow other wraps got := by
    rw [exitOf_repointOutput] at got
    split at got
    · obtain ⟨pre, got, -⟩ := Option.map_eq_some_iff.mp got
      exact wf.exitBelow other pre got
    · exact wf.exitBelow other wraps got
  agree other entry := by
    rw [Linked, targets_repointOutput]
    exact wf.agree other entry

end Repoint

/-- Block ports belong to the same blocks and have the same links; they may wrap
other ports. -/
structure Repoints (pre post : Wiring) : Prop where
  wf : post.Consistent
  next : post.next = pre.next
  entryBlock : ∀ entry, (post.entryOf entry).map Prod.fst = (pre.entryOf entry).map Prod.fst
  exitBlock : ∀ exit, (post.exitOf exit).map Prod.fst = (pre.exitOf exit).map Prod.fst
  linked : ∀ exit entry, post.Linked exit entry ↔ pre.Linked exit entry

namespace Repoints

variable {W first second : Wiring}

/-- Nothing wraps another port. -/
theorem refl (wf : W.Consistent) : W.Repoints W :=
  ⟨wf, rfl, fun _ => rfl, fun _ => rfl, fun _ _ => .rfl⟩

/-- Ports are exchanged twice. -/
theorem trans (one : first.Repoints second) (two : second.Repoints third) :
    first.Repoints third where
  wf := two.wf
  next := two.next.trans one.next
  entryBlock entry := (two.entryBlock entry).trans (one.entryBlock entry)
  exitBlock exit := (two.exitBlock exit).trans (one.exitBlock exit)
  linked exit entry := (two.linked exit entry).trans (one.linked exit entry)

/-- The port in a block input is exchanged. -/
theorem repointInput (wf : W.Consistent) (entry : BlockInputId) (port : InputId) :
    W.Repoints (W.repointInput entry port) where
  wf := wf.repointInput entry port
  next := rfl
  entryBlock other := by
    rw [entryOf_repointInput]
    split
    · rw [Option.map_map]
      rfl
    · rfl
  exitBlock _ := rfl
  linked _ _ := .rfl

/-- The port in a block output is exchanged. -/
theorem repointOutput (wf : W.Consistent) (exit : BlockOutputId) (port : OutputId) :
    W.Repoints (W.repointOutput exit port) where
  wf := wf.repointOutput exit port
  next := rfl
  entryBlock _ := rfl
  exitBlock other := by
    rw [exitOf_repointOutput]
    split
    · rw [Option.map_map]
      rfl
    · rfl
  linked other entry := by rw [Linked, targets_repointOutput, Linked]

/-- Blocks lead to each other as before. -/
theorem leads_iff (repoints : first.Repoints second) {source target : BlockId} :
    second.Leads source target ↔ first.Leads source target := by
  have split : ∀ W : Wiring, W.Leads source target ↔ ∃ exit entry,
      (W.exitOf exit).map Prod.fst = some source ∧
        (W.entryOf entry).map Prod.fst = some target ∧ W.Linked exit entry := by
    intro W
    simp only [← exists_eq_some_pair, Leads]
    constructor
    · rintro ⟨exit, entry, out, input, left, entered, link⟩
      exact ⟨exit, entry, ⟨out, left⟩, ⟨input, entered⟩, link⟩
    · rintro ⟨exit, entry, ⟨out, left⟩, ⟨input, entered⟩, link⟩
      exact ⟨exit, entry, out, input, left, entered, link⟩
  simp only [split, repoints.entryBlock, repoints.exitBlock, repoints.linked]

end Repoints

end Wiring

end Staging
