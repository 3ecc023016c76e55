import Staging.Normalization
import Staging.Proofs.Flow
import Staging.Proofs.Splicing

/-! # Scopes inside of scopes

Every node of a scope has a home: the flow parts that it lies in, from the innermost one
outwards. Nodes that feed each other have the same home, and within a home no node feeds
itself through others. A splice keeps this if each node afterwards stands for one from
before.
-/

namespace Staging

open Std Relation List

variable {first second id inner seam : NodeId} {scope : Scope} {path seams : List NodeId}
  {boundary : Boundary} {count : Nat} {members : NodeSet}

namespace Graph

variable {G pre post : Graph} {image : NodeId → NodeId} {height : NodeId → Nat} {home : Homes}

/-! ## Order -/

open Classical in
/-- The number of nodes that feed a node, directly or through others. -/
noncomputable def rank (graph : Graph) (id : NodeId) : Nat :=
  (graph.nodeIds.filter fun other => TransGen graph.Precedes other id).card

open Classical in
/-- There are not more ranks than nodes. -/
theorem rank_le (G : Graph) (id : NodeId) : G.rank id ≤ G.nodes.size := by
  rw [← card_nodeIds, rank]
  exact Finset.card_filter_le _ _

open Classical in
/-- Ranks rise along connections. -/
theorem rank_lt (wf : G.Consistent) (prec : G.Precedes first second)
    (acyclic : ¬ TransGen G.Precedes first first) : G.rank first < G.rank second := by
  refine Finset.card_lt_card (Finset.ssubset_iff_of_subset ?_ |>.mpr ⟨first, ?_, ?_⟩)
  · intro other mem
    rw [Finset.mem_filter] at mem ⊢
    exact ⟨mem.1, mem.2.tail prec⟩
  · rw [Finset.mem_filter, mem_nodeIds]
    exact ⟨wf.precedes_left prec, .single prec⟩
  · rw [Finset.mem_filter]
    exact fun mem => acyclic mem.2

/-- Handles are only added, the root scope stays, and nodes that are not new are
what they were. New nodes do nothing of their own. -/
structure Extends (pre post : Graph) : Prop where
  next : pre.next ≤ post.next
  root : post.root = pre.root
  nodes : ∀ (id : NodeId) node, post.nodes[id]? = some node →
    pre.nodes[id]? = some node ∨ pre.next ≤ id.raw ∧ node.isPseudo = true

/-- No change extends a graph. -/
theorem Extends.refl (G : Graph) : G.Extends G := ⟨Nat.le_refl _, rfl, fun _ _ got => .inl got⟩

/-- Two extensions are one. -/
theorem Extends.trans {middle : Graph} (one : pre.Extends middle) (two : middle.Extends post) :
    pre.Extends post := by
  refine ⟨Nat.le_trans one.next two.next, two.root.trans one.root, fun id node got => ?_⟩
  rcases two.nodes id node got with old | ⟨late, pseudo⟩
  · exact one.nodes id node old
  · exact .inr ⟨Nat.le_trans one.next late, pseudo⟩

/-- A node with logic of its own is not new. -/
theorem Extends.parts (step : pre.Extends post) {node : Node}
    (got : post.nodes[id]? = some node) (kind : node.kind = .flowPart scope) :
    pre.nodes[id]? = some node := by
  rcases step.nodes id node got with old | ⟨-, pseudo⟩
  · exact old
  · simp [Node.isPseudo, kind] at pseudo

/-- A node that precedes another one stands for a node that led to what the other one stands
for, or both stand for one node and the first is placed lower. New nodes do nothing of their
own. -/
structure Reshaped (pre post : Graph) (image : NodeId → NodeId) (height : NodeId → Nat) :
    Prop where
  wf : post.Consistent
  next : pre.next ≤ post.next
  root : post.root = pre.root
  endpoints : ∀ id ∈ pre.root.endpoints, post.nodes[id]? = pre.nodes[id]?
  nodes : ∀ (id : NodeId) node, post.nodes[id]? = some node →
    pre.nodes[id]? = some node ∨ pre.next ≤ id.raw ∧ node.isPseudo = true
  prec : ∀ first second, post.Precedes first second →
    TransGen pre.Precedes (image first) (image second) ∨
      image first = image second ∧ height first < height second

namespace Reshaped

/-- A reshaped graph is extended. -/
theorem extends' (reshaped : Reshaped pre post image height) : pre.Extends post :=
  ⟨reshaped.next, reshaped.root, reshaped.nodes⟩

/-- A reshaped graph stays founded. -/
theorem founded (reshaped : Reshaped pre post image height) (founded : pre.Founded) :
    post.Founded :=
  founded.of_nodes reshaped.wf reshaped.root reshaped.next reshaped.endpoints
    fun id node got => (reshaped.nodes id node got).imp_right And.right

private theorem transGen (reshaped : Reshaped pre post image height)
    (led : TransGen post.Precedes first second) :
    TransGen pre.Precedes (image first) (image second) ∨
      image first = image second ∧ height first < height second := by
  induction led with
  | single prec => exact reshaped.prec _ _ prec
  | tail _ prec ih =>
    rcases ih with ahead | ⟨eq, lower⟩
    · rcases reshaped.prec _ _ prec with ahead' | ⟨eq', -⟩
      · exact .inl (ahead.trans ahead')
      · exact .inl (eq' ▸ ahead)
    · rcases reshaped.prec _ _ prec with ahead' | ⟨eq', lower'⟩
      · exact .inl (eq ▸ ahead')
      · exact .inr ⟨eq.trans eq', lower.trans lower'⟩

/-- A circuit afterwards stands for a circuit before. -/
theorem acyclic (reshaped : Reshaped pre post image height)
    (acyclic : ¬ TransGen pre.Precedes (image id) (image id)) :
    ¬ TransGen post.Precedes id id := by
  intro circuit
  rcases reshaped.transGen circuit with circuit | ⟨-, lower⟩
  · exact acyclic circuit
  · exact Nat.lt_irrefl _ lower

end Reshaped

/-! ## Homes -/

/-- Each node of a scope has a home, which neighbours share and in which there
are no circuits. Endpoints are at home in no other flow part than their own. -/
structure Nested (graph : Graph) (home : Homes) : Prop where
  founded : graph.Founded
  root : ∀ id ∈ graph.root.endpoints, home id = some []
  parts : ∀ id node scope path,
    graph.nodes[id]? = some node → node.kind = .flowPart scope → home id = some path →
    ∀ tip ∈ scope.endpoints, home tip = some (id :: path)
  touch : ∀ first second, graph.Precedes first second → home first = home second
  acyclic : ∀ id, home id ≠ none → ¬ TransGen graph.Precedes id id
  rims : ∀ id node scope tip path, graph.nodes[id]? = some node → node.kind = .flowPart scope →
    tip ∈ scope.endpoints → home tip = some path → path.head? = some id

/-- No flow part has the given home. -/
def Flat (graph : Graph) (home : Homes) (path : List NodeId) : Prop :=
  ∀ id node scope, graph.nodes[id]? = some node → node.kind = .flowPart scope → home id ≠ some path

/-- Neighbours still share their homes. -/
theorem Reshaped.touch (reshaped : Reshaped pre post image height)
    (touch : ∀ first second, pre.Precedes first second → home first = home second)
    (prec : post.Precedes first second) : home (image first) = home (image second) := by
  rcases reshaped.prec _ _ prec with led | ⟨eq, -⟩
  · generalize image first = first' at led
    generalize image second = second' at led
    induction led with
    | single prec => exact touch _ _ prec
    | tail _ prec ih => exact ih.trans (touch _ _ prec)
  · rw [eq]

/-- Homes are kept by a splice in which what was there stands for itself. -/
theorem Nested.reshaped (nested : pre.Nested home) (reshaped : Reshaped pre post image height)
    (fixed : ∀ id : NodeId, id.raw < pre.next → image id = id) :
    post.Nested (home ∘ image) where
  founded := reshaped.founded nested.founded
  root id mem := by
    rw [reshaped.root] at mem
    obtain ⟨node, got⟩ := nested.founded.exists_endpoint mem
    rw [Function.comp, fixed id (nested.founded.wf.early got)]
    exact nested.root id mem
  parts id node scope path got kind homed tip mem := by
    have old := reshaped.extends'.parts got kind
    rw [Function.comp, fixed id (nested.founded.wf.early old)] at homed
    rw [Function.comp, fixed tip (nested.founded.bounded id node scope old kind tip mem)]
    exact nested.parts id node scope path old kind homed tip mem
  touch _ _ prec := reshaped.touch nested.touch prec
  acyclic id homed := reshaped.acyclic (nested.acyclic (image id) homed)
  rims id node scope tip path got kind mem homed := by
    have old := reshaped.extends'.parts got kind
    rw [Function.comp, fixed tip (nested.founded.bounded id node scope old kind tip mem)] at homed
    exact nested.rims id node scope tip path old kind mem homed

/-- A flat scope stays flat. -/
theorem Flat.reshaped (flat : pre.Flat home path) (wf : pre.Consistent)
    (reshaped : Reshaped pre post image height)
    (fixed : ∀ id : NodeId, id.raw < pre.next → image id = id) :
    post.Flat (home ∘ image) path := by
  intro id node scope got kind
  have old := reshaped.extends'.parts got kind
  rw [Function.comp, fixed id (wf.early old)]
  exact flat id node scope old kind

/-! ## Splices as changes of order -/

/-- A new node is placed above what was there. -/
def raised (bound : Nat) (id : NodeId) : Nat :=
  if id.raw < bound then 0 else 1

/-- Neighbours have been created. -/
theorem Consistent.below_of_precedes (wf : G.Consistent) (prec : G.Precedes first second) :
    first.raw < G.next ∧ second.raw < G.next := by
  obtain ⟨node, got⟩ := wf.precedes_left prec
  obtain ⟨node', got'⟩ := wf.precedes_right prec
  exact ⟨wf.early got, wf.early got'⟩

/-- One node without logic of its own is put behind another one. -/
theorem Added.reshaped {made : Node} {owner : NodeId} (added : Added pre made post)
    (founded : pre.Founded) (next : pre.next ≤ post.next) (below : owner.raw < pre.next)
    (pseudo : made.isPseudo) (prec : ∀ first second, post.Precedes first second →
      pre.Precedes first second ∨ first = owner ∧ second = ⟨pre.next⟩ ∨
        first = ⟨pre.next⟩ ∧ pre.Precedes owner second) :
    Reshaped pre post (attached pre.next owner) (raised pre.next) := by
  have wf := founded.wf
  have new : attached pre.next owner ⟨pre.next⟩ = owner := if_neg (Nat.lt_irrefl _)
  refine ⟨added.wf, next, added.root, fun id mem => ?_, fun id node got => ?_,
    fun first second ahead => ?_⟩
  · obtain ⟨node, got⟩ := founded.exists_endpoint mem
    rw [added.nodes_old wf got, got]
  · rcases added.cases got with ⟨rfl, rfl⟩ | got
    · exact .inr ⟨Nat.le_refl _, pseudo⟩
    · exact .inl got
  · rcases prec first second ahead with prec | ⟨rfl, rfl⟩ | ⟨rfl, prec⟩
    · obtain ⟨early, early'⟩ := wf.below_of_precedes prec
      rw [attached_old early, attached_old early']
      exact .inl (.single prec)
    · rw [new, attached_old below]
      simp [raised, below]
    · rw [new, attached_old (wf.below_of_precedes prec).2]
      exact .inl (.single prec)

/-- A node put on connections reshapes a graph. -/
theorem Spliced.reshaped {out : OutputId} {moved : List InputId} {made : Node} {owner : NodeId}
    (spliced : Spliced pre out moved made post) (founded : pre.Founded)
    (owned : pre.outputOwner? out = some owner)
    (fed : ∀ target ∈ moved, pre.Feeds out target) (pseudo : made.isPseudo) :
    Reshaped pre post (attached pre.next owner) (raised pre.next) := by
  refine spliced.toAdded.reshaped founded ?_ (founded.wf.early_of_output owned) pseudo
    fun first second prec => (spliced.prec founded.wf owned fed prec).imp_right (.imp_right ?_)
  · rw [spliced.next]
    omega
  · rintro ⟨rfl, target, has, taken⟩
    exact ⟨rfl, out, target, owned, taken, fed target has⟩

/-- So does a sink. -/
theorem Founded.insertSink (founded : G.Founded) {out : OutputId} {port : OutputPort}
    (got : G.outputs[out]? = some port) :
    Reshaped G (G.insertSink out port).2 (attached G.next port.owner) (raised G.next) := by
  obtain ⟨made, pseudo, added, next, prec⟩ := founded.wf.insertSink got
  have owned : G.outputOwner? out = some port.owner := by rw [outputOwner?, got]; rfl
  refine added.reshaped founded ?_ (founded.wf.early_of_output owned) pseudo
    fun first second ahead => (prec first second ahead).imp_right .inl
  rw [next]
  omega

/-- So does taking out a node. -/
theorem Skipped.reshaped (skipped : Skipped pre id post) (wf : pre.Consistent)
    (inner : id ∉ pre.root.endpoints) :
    Reshaped pre post (fun other => other) fun _ => 0 := by
  refine ⟨skipped.wf, Nat.le_of_eq skipped.next.symm, skipped.root,
    fun other mem => ?_, fun other node got => ?_, fun first second prec => .inl ?_⟩
  · refine skipped.kept ?_
    rintro rfl
    exact inner mem
  · exact .inl (skipped.nodes_old got).2
  · obtain ⟨-, -, prec | ⟨ahead, behind⟩⟩ := skipped.prec wf prec
    · exact .single prec
    · exact .tail (.single ahead) behind

/-- So does a split. -/
theorem Separated.reshaped (separated : Separated pre id post) (founded : pre.Founded)
    (inner : id ∉ pre.root.endpoints) :
    Reshaped pre post (attached pre.next id) fun _ => 0 := by
  refine ⟨separated.wf, separated.next, separated.root,
    fun other mem => ?_, fun other node got => ?_,
    fun first second prec => .inl (.single (separated.prec first second prec))⟩
  · obtain ⟨node, got⟩ := founded.exists_endpoint mem
    refine separated.old other (founded.wf.early got) ?_
    rintro rfl
    exact inner mem
  · by_cases early : other.raw < pre.next
    · exact .inl (separated.nodes_old got early).2
    · exact .inr ⟨Nat.not_lt.mp early,
        Node.isPseudo_of_isIdentity (separated.new other node (Nat.not_lt.mp early) got)⟩

/-! ## Members of scopes -/

/-- The members of a scope that can be collected. -/
theorem Consistent.mem_members (wf : G.Consistent)
    (run : G.members scope = .ok members) (id : NodeId) : id ∈ members ↔
      ∃ tip ∈ scope.endpoints, ReflTransGen G.Touches tip id := by
  obtain ⟨_, run', -⟩ := of_bind run
  obtain ⟨members', run', spec⟩ := wf.members_eq_ok (present_of_checkNodes run')
  rw [run] at run'
  cases run'
  exact spec id

/-- The scope is the one that a path of flow parts leads to. -/
structure ScopeAt (graph : Graph) (home : Homes) (path : List NodeId) (scope : Scope) : Prop where
  homed : ∀ tip ∈ scope.endpoints, home tip = some path
  root : path = [] → scope = graph.root
  part : ∀ id node inner rest, path = id :: rest →
    graph.nodes[id]? = some node → node.kind = .flowPart inner → home id = some rest →
    inner = scope

/-- Nodes that cannot be reached from the endpoints of a scope are not at home in it. -/
def narrowed (home : Homes) (path : List NodeId)
    (members : NodeSet) (id : NodeId) : Option (List NodeId) :=
  if home id = some path ∧ id ∉ members then none else home id

/-- Homes elsewhere stay. -/
theorem narrowed_of_ne (ne : home id ≠ some path) : narrowed home path members id = home id :=
  if_neg fun both => ne both.1

/-- Members keep their homes. -/
theorem narrowed_of_mem (mem : id ∈ members) : narrowed home path members id = home id :=
  if_neg fun both => both.2 mem

/-- Only members are left in the scope. -/
theorem narrowed_eq_some {path' : List NodeId}
    (homed : narrowed home path members id = some path') :
    home id = some path' ∧ (path' = path → id ∈ members) := by
  rw [narrowed] at homed
  split at homed
  · cases homed
  · next reached =>
    refine ⟨homed, ?_⟩
    rintro rfl
    by_contra missing
    exact reached ⟨homed, missing⟩

/-- The members of a scope are at home in it. -/
theorem Nested.home_of_mem (nested : G.Nested home)
    (homed : ∀ tip ∈ scope.endpoints, home tip = some path)
    (run : G.members scope = .ok members) (has : id ∈ members) : home id = some path := by
  obtain ⟨tip, mem, led⟩ := (nested.founded.wf.mem_members run id).mp has
  induction led with
  | refl => exact homed tip mem
  | tail led touches ih =>
    rw [← ih ((nested.founded.wf.mem_members run _).mpr ⟨tip, mem, led⟩)]
    exact touches.elim (fun prec => (nested.touch _ _ prec).symm) (nested.touch _ _)

/-- Homes can be narrowed to the members. -/
theorem Nested.narrow (nested : G.Nested home) (at' : G.ScopeAt home path scope)
    (run : G.members scope = .ok members) : G.Nested (narrowed home path members) := by
  have mem_members := nested.founded.wf.mem_members run
  have endpoint_mem : ∀ tip ∈ scope.endpoints, tip ∈ members := fun tip mem =>
    (mem_members tip).mpr ⟨tip, mem, .refl⟩
  -- neighbours of members are members
  have closed : ∀ {first second : NodeId}, G.Touches first second → first ∈ members →
      second ∈ members := by
    intro first second touches has
    obtain ⟨tip, mem, led⟩ := (mem_members first).mp has
    exact (mem_members second).mpr ⟨tip, mem, led.tail touches⟩
  refine ⟨nested.founded, fun id mem => ?_, fun id node inner path' got kind homed tip mem => ?_,
    fun first second prec => ?_, fun id homed => ?_,
    fun id node inner tip path' got kind mem homed =>
      nested.rims id node inner tip path' got kind mem (narrowed_eq_some homed).1⟩
  · by_cases here : path = []
    · rw [narrowed_of_mem (endpoint_mem id (at'.root here ▸ mem)), nested.root id mem]
    · rw [narrowed_of_ne, nested.root id mem]
      rw [nested.root id mem]
      rintro ⟨⟩
      exact here rfl
  · obtain ⟨homed, -⟩ := narrowed_eq_some homed
    have homed' := nested.parts id node inner path' got kind homed tip mem
    by_cases here : path = id :: path'
    · have eq := at'.part id node inner path' here got kind homed
      rw [narrowed_of_mem (endpoint_mem tip (eq ▸ mem)), homed']
    · rw [narrowed_of_ne, homed']
      rw [homed']
      rintro ⟨⟩
      exact here rfl
  · have eq := nested.touch first second prec
    have both : first ∈ members ↔ second ∈ members := ⟨closed (.inl prec), closed (.inr prec)⟩
    simp only [narrowed, eq, both]
  · refine nested.acyclic id fun none => homed ?_
    rw [narrowed_of_ne, none]
    rw [none]
    nofun

/-- The flow parts among some nodes. -/
theorem mem_flowPartsOf {ids : NodeSet} : (id, scope) ∈ G.flowPartsOf ids ↔
    id ∈ ids ∧ ∃ node, G.nodes[id]? = some node ∧ node.kind = .flowPart scope := by
  rw [flowPartsOf, mem_filterMap]
  constructor
  · rintro ⟨other, mem, eq⟩
    cases got : G.nodes[other]? with
    | none => simp [got] at eq
    | some node =>
      simp only [got, Option.map_some] at eq
      split at eq
      · next kind =>
        cases eq
        exact ⟨ExtTreeSet.mem_toList.mp mem, node, got, Option.some.inj kind⟩
      · cases eq
  · rintro ⟨mem, node, got, kind⟩
    refine ⟨id, ExtTreeSet.mem_toList.mpr mem, ?_⟩
    simp [got, kind]

/-- Each flow part is listed once. -/
theorem nodup_flowPartsOf (ids : NodeSet) : ((G.flowPartsOf ids).map Prod.fst).Nodup := by
  refine (HandleSet.nodup_toList ids).sublist ?_
  rw [flowPartsOf]
  induction ids.toList with
  | nil => exact nil_sublist _
  | cons id rest ih =>
    rw [filterMap_cons]
    split
    · exact ih.cons id
    · next eq =>
      split at eq
      · cases eq
        exact ih.cons_cons id
      · cases eq

end Graph

end Staging
