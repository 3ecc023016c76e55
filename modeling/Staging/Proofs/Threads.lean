import Staging.Proofs.Rims
import Staging.Proofs.Validating

/-! # Threads of data

A thread leads from an output port to an input port along connections, through nodes that
only pass data on and across the seams of flow parts. Splices put such nodes on connections,
double them, take them out or replace an endpoint of a flow part by one. Each of these
changes is compared with the graph before it by a simulation.
-/

namespace Staging

open Relation List

variable {scope : Scope} {entry : InputId} {exit : OutputId} {middle : Graph} {node : Node}
  {last input : InputId} {out : OutputId} {id : NodeId}

/-- The node passes on what it gets: it has no logic of the user, one port on each
side, and is no shuffle. -/
def Node.isPassThrough (node : Node) : Bool :=
  node.isPseudo && node.inputs.length == 1 && node.outputs.length == 1 && !node.isShuffleBoundary

theorem Node.exists_ports_of_isPassThrough (passes : node.isPassThrough) :
    ∃ entry exit, node.inputs = [entry] ∧ node.outputs = [exit] := by
  simp only [isPassThrough, Bool.and_eq_true, beq_iff_eq] at passes
  obtain ⟨entry, inputs⟩ := length_eq_one_iff.mp passes.1.1.2
  obtain ⟨exit, outputs⟩ := length_eq_one_iff.mp passes.1.2
  exact ⟨entry, exit, inputs, outputs⟩

theorem Node.isPseudo_of_isPassThrough (passes : node.isPassThrough) :
    node.isPseudo := by
  simp only [isPassThrough, Bool.and_eq_true] at passes
  exact passes.1.1.1

theorem Node.isPassThrough_of_isIdentity (identity : node.isIdentity) :
    node.isPassThrough := by
  simp only [isIdentity, Bool.and_eq_true, beq_iff_eq] at identity
  simp [isPassThrough, isShuffleBoundary, identity]

/-- A flow part is no node that only passes data on. -/
theorem Node.kind_ne_of_isPseudo (pseudo : node.isPseudo) : node.kind ≠ .flowPart scope := by
  intro kind
  rw [isPseudo, kind] at pseudo
  cases pseudo

namespace Graph

variable {G pre post : Graph} {first : OutputId} {second : NodeId}

/-- Data that arrives at the input port goes on at the output port: through a node
that passes it on, into a flow part, or out of one. -/
inductive Hands (graph : Graph) : InputId → OutputId → Prop where
  | through {id : NodeId} {node : Node} {input : InputId} {output : OutputId} :
      graph.nodes[id]? = some node → node.isPassThrough = true → input ∈ node.inputs →
      output ∈ node.outputs → Hands graph input output
  | into {part tip : NodeId} {node inner : Node} {scope : Scope} {place : Nat}
      {input : InputId} {output : OutputId} :
      graph.nodes[part]? = some node → node.kind = .flowPart scope →
      node.inputs[place]? = some input → scope.inputs[place]? = some tip →
      graph.nodes[tip]? = some inner → output ∈ inner.outputs → Hands graph input output
  | outOf {part tip : NodeId} {node inner : Node} {scope : Scope} {place : Nat}
      {input : InputId} {output : OutputId} :
      graph.nodes[part]? = some node → node.kind = .flowPart scope →
      node.outputs[place]? = some output → scope.outputs[place]? = some tip →
      graph.nodes[tip]? = some inner → input ∈ inner.inputs → Hands graph input output

/-- Data that leaves the output port arrives at the input port. -/
inductive Threads (graph : Graph) : OutputId → InputId → Prop where
  | direct {output : OutputId} {input : InputId} : graph.Feeds output input →
      Threads graph output input
  | on {first second : OutputId} {middle last : InputId} : graph.Feeds first middle →
      graph.Hands middle second → Threads graph second last → Threads graph first last

/-- Data that leaves the first port leaves the second one next. -/
def Relays (graph : Graph) (first second : OutputId) : Prop :=
  ∃ input, graph.Feeds first input ∧ graph.Hands input second

private theorem Threads.of_relays {second : OutputId}
    (relays : ReflTransGen G.Relays first second) (threads : G.Threads second last) :
    G.Threads first last := by
  induction relays using ReflTransGen.head_induction_on with
  | refl => exact threads
  | head relay _ ih =>
    obtain ⟨middle, feeds, hands⟩ := relay
    exact .on feeds hands ih

/-! ## Simulations -/

/-- Threads can be followed in another graph, if output ports of it stand for those
that data leaves. -/
theorem Threads.simulate (stands : OutputId → OutputId → Prop)
    (relays : ∀ {first second : OutputId} {middle : InputId} {image : OutputId},
      stands first image → pre.Feeds first middle → pre.Hands middle second →
      ∃ image', ReflTransGen post.Relays image image' ∧ stands second image')
    (arrives : ∀ {first image : OutputId}, stands first image → pre.Feeds first last →
      post.Threads image last) {image : OutputId} (start : stands first image)
    (threads : pre.Threads first last) : post.Threads image last := by
  induction threads generalizing image with
  | direct feeds => exact arrives start feeds
  | on feeds hands _ ih =>
    obtain ⟨image', reached, stands'⟩ := relays start feeds hands
    exact .of_relays reached (ih arrives stands')

/-- A graph with more connections and more ways through nodes has more threads. -/
theorem Threads.mono (feeds : ∀ {out : OutputId} {input : InputId},
      pre.Feeds out input → post.Feeds out input)
    (hands : ∀ {input : InputId} {out : OutputId}, pre.Hands input out → post.Hands input out)
    (threads : pre.Threads first last) : post.Threads first last := by
  induction threads with
  | direct fed => exact .direct (feeds fed)
  | on fed handed _ ih => exact .on (feeds fed) (hands handed) ih

/-- Threads need no way through a node if there is another one around it. Some ports may be
gone with the node. -/
theorem Threads.around {gone : OutputId → Prop} {gone' : InputId → Prop}
    (open' : ¬ pre.Feeds exit entry)
    (hands : ∀ input out, pre.Hands input out → input = entry ∧ out = exit ∨
      ¬ gone' input ∧ ¬ gone out ∧ post.Hands input out)
    (beside : ∀ out input, pre.Feeds out input → ¬ gone out → ¬ gone' input → post.Feeds out input)
    (across : ∀ out input, pre.Feeds out entry → pre.Feeds exit input → ¬ gone out → ¬ gone' input →
      ∃ port, ReflTransGen post.Relays out port ∧ post.Feeds port input) (outer :
      ¬ gone first) (outer' : ¬ gone' last)
    (threads : pre.Threads first last) : post.Threads first last := by
  -- data that has left the node is still where it entered it
  refine threads.simulate (fun one two => ¬ gone two ∧
    (two = one ∨ one = exit ∧ pre.Feeds two entry)) ?_ ?_ ⟨outer, .inl rfl⟩
  · rintro one two middle image ⟨clear, eq⟩ feeds handed
    rcases hands middle two handed with ⟨rfl, rfl⟩ | ⟨clear', clear'', handed⟩
    · refine ⟨image, .refl, clear, .inr ⟨rfl, ?_⟩⟩
      rcases eq with rfl | ⟨rfl, -⟩
      · exact feeds
      · exact (open' feeds).elim
    · rcases eq with rfl | ⟨rfl, enters⟩
      · exact ⟨two, .single ⟨middle, beside _ _ feeds clear clear', handed⟩, clear'', .inl rfl⟩
      · obtain ⟨port, reached, fed⟩ := across image middle enters feeds clear clear'
        exact ⟨two, reached.tail ⟨middle, fed, handed⟩, clear'', .inl rfl⟩
  · rintro one image ⟨clear, eq⟩ feeds
    rcases eq with rfl | ⟨rfl, enters⟩
    · exact .direct (beside _ _ feeds clear outer')
    · obtain ⟨port, reached, fed⟩ := across image last enters feeds clear outer'
      exact .of_relays reached (.direct fed)

/-- The one graph has a way through a node that the other one has connections for. -/
structure Bypassed (long short : Graph) (entry : InputId) (exit : OutputId) : Prop where
  open' : ¬ long.Feeds exit entry
  hands : ∀ input output, long.Hands input output ↔
    short.Hands input output ∨ input = entry ∧ output = exit
  apart : ∀ input output, short.Hands input output → input ≠ entry ∧ output ≠ exit
  feeds : ∀ output input, short.Feeds output input ↔
    long.Feeds output input ∧ output ≠ exit ∧ input ≠ entry ∨
      long.Feeds output entry ∧ long.Feeds exit input

/-- Connections in the place of a node that passes data on make no difference. -/
theorem Bypassed.threads {long short : Graph}
    (bypassed : Bypassed long short entry exit) (outer : first ≠ exit)
    (outer' : last ≠ entry) : short.Threads first last ↔ long.Threads first last := by
  have through : long.Hands entry exit := (bypassed.hands entry exit).mpr (.inr ⟨rfl, rfl⟩)
  constructor
  · refine Threads.simulate (fun one two => two = one) ?_ ?_ rfl
    · rintro one two middle _ rfl feeds hands
      have hands' := (bypassed.hands middle two).mpr (.inl hands)
      refine ⟨two, ?_, rfl⟩
      rcases (bypassed.feeds _ middle).mp feeds with ⟨feeds, -, -⟩ | ⟨enters, leaves⟩
      · exact .single ⟨middle, feeds, hands'⟩
      · exact .head ⟨entry, enters, through⟩ (.single ⟨middle, leaves, hands'⟩)
    · rintro one _ rfl feeds
      rcases (bypassed.feeds _ last).mp feeds with ⟨feeds, -, -⟩ | ⟨enters, leaves⟩
      · exact .direct feeds
      · exact .on enters through (.direct leaves)
  · apply Threads.around bypassed.open' (fun input out hands => ?_)
      (fun out input feeds clear clear' => (bypassed.feeds _ _).mpr (.inl ⟨feeds, clear, clear'⟩))
      (fun out input enters leaves _ _ => ⟨out, .refl, (bypassed.feeds _ _).mpr (.inr
        ⟨enters, leaves⟩)⟩) outer outer'
    rcases (bypassed.hands input out).mp hands with hands | through
    · obtain ⟨clear, clear'⟩ := bypassed.apart input out hands
      exact .inr ⟨clear, clear', hands⟩
    · exact .inl through

/-! ## Ways through nodes -/

/-- A way only depends on nodes that have one of its two ports. -/
theorem Hands.of_kept (hands : pre.Hands input out)
    (kept : ∀ (id : NodeId) node, pre.nodes[id]? = some node →
      input ∈ node.inputs ∨ out ∈ node.outputs → post.nodes[id]? = some node) :
    post.Hands input out := by
  cases hands with
  | through got passes enters leaves =>
    exact .through (kept _ _ got (.inl enters)) passes enters leaves
  | into got kind port tip got' leaves =>
    exact .into (kept _ _ got (.inl (mem_of_getElem? port))) kind port tip
      (kept _ _ got' (.inr leaves)) leaves
  | outOf got kind port tip got' enters =>
    exact .outOf (kept _ _ got (.inr (mem_of_getElem? port))) kind port tip
      (kept _ _ got' (.inl enters)) enters

/-- Taking out a node makes no difference if no way has a port of it. -/
theorem Dropped.threads (dropped : Dropped pre id node post)
    (got : pre.nodes[id]? = some node) (pathless : ∀ input out, pre.Hands input out →
      ¬ (input ∈ node.inputs ∨ out ∈ node.outputs))
    (outer : first ∉ node.outputs) (outer' : last ∉ node.inputs) :
    post.Threads first last ↔ pre.Threads first last := by
  constructor
  · apply Threads.mono
    · intro out input feeds
      exact ((dropped.feeds out input).mp feeds).1
    · intro input out hands
      apply hands.of_kept
      exact fun other record got' _ => (dropped.nodes_old got').2
  · refine Threads.simulate (fun one two => one ∉ node.outputs ∧ two = one) ?_ ?_ ⟨outer, rfl⟩
    · rintro one two middle _ ⟨clear, rfl⟩ feeds hands
      obtain ⟨clear', clear''⟩ := not_or.mp (pathless middle two hands)
      refine ⟨two, .single ⟨middle, (dropped.feeds _ _).mpr ⟨feeds, clear, clear'⟩,
        hands.of_kept fun other record got' own => ?_⟩, clear'', rfl⟩
      rw [dropped.kept, got']
      rintro rfl
      cases got.symm.trans got'
      exact own.elim clear' clear''
    · rintro one _ ⟨clear, rfl⟩ feeds
      exact .direct ((dropped.feeds _ _).mpr ⟨feeds, clear, outer'⟩)

/-! ## Nodes that pass data on -/

/-- What a change makes are nodes that pass data on. -/
def Adds (pre post : Graph) : Prop :=
  pre.next ≤ post.next ∧ ∀ (id : NodeId) node, post.nodes[id]? = some node →
    pre.nodes[id]? = some node ∨ pre.next ≤ id.raw ∧ node.isPassThrough = true

theorem Adds.refl (G : Graph) : G.Adds G := ⟨Nat.le_refl _, fun _ _ got => .inl got⟩

theorem Adds.trans (one : pre.Adds middle) (two : middle.Adds post) : pre.Adds post := by
  refine ⟨Nat.le_trans one.1 two.1, fun id node got => ?_⟩
  rcases two.2 id node got with got | ⟨late, passes⟩
  · exact one.2 id node got
  · exact .inr ⟨Nat.le_trans one.1 late, passes⟩

theorem Adds.part (adds : pre.Adds post) (got : post.nodes[id]? = some node)
    (kind : node.kind = .flowPart scope) : pre.nodes[id]? = some node := by
  rcases adds.2 id node got with got | ⟨-, passes⟩
  · exact got
  · exact (Node.kind_ne_of_isPseudo (Node.isPseudo_of_isPassThrough passes) kind).elim

theorem Adds.old (adds : pre.Adds post) (got : post.nodes[id]? = some node)
    (early : id.raw < pre.next) : pre.nodes[id]? = some node := by
  rcases adds.2 id node got with got | ⟨late, -⟩
  · exact got
  · omega

theorem Rimmed.of_extends (rimmed : pre.Rimmed) (step : pre.Extends post) : post.Rimmed := by
  apply rimmed.mono _ step.next
  · intro id node early got
    exact (step.nodes id node got).resolve_right fun new => Nat.not_lt.mpr new.1 early
  · intro part node scope got kind
    exact step.parts got kind

theorem Rimmed.of_adds (rimmed : pre.Rimmed) (adds : pre.Adds post) : post.Rimmed := by
  apply rimmed.mono _ adds.1
  · intro id node early got
    exact adds.old got early
  · intro part node scope got kind
    exact adds.part got kind

/-- The only way that has a port of a node that passes data on is the one through it. -/
theorem Rimmed.hands_passThrough (rimmed : G.Rimmed) (wf : G.Consistent)
    (got : G.nodes[id]? = some node) (passes : node.isPassThrough)
    (hands : G.Hands input out) (own : input ∈ node.inputs ∨ out ∈ node.outputs) :
    input ∈ node.inputs ∧ out ∈ node.outputs := by
  have pseudo := Node.isPseudo_of_isPassThrough passes
  have taken : ∀ {other : NodeId} {record : Node}, G.nodes[other]? = some record →
      input ∈ record.inputs → input ∈ node.inputs → record = node := by
    intro other record got' mem mem'
    cases wf.input_unique got' mem got mem'
    exact Option.mem_unique got' got
  have given : ∀ {other : NodeId} {record : Node}, G.nodes[other]? = some record →
      out ∈ record.outputs → out ∈ node.outputs → record = node := by
    intro other record got' mem mem'
    cases wf.output_unique got' mem got mem'
    exact Option.mem_unique got' got
  have endpoint_ne : ∀ {inner : Node}, inner.kind = .input ∨ inner.kind = .output →
      inner ≠ node := by
    rintro inner kind rfl
    rw [Node.isPseudo] at pseudo
    rcases kind with kind | kind <;> rw [kind] at pseudo <;> cases pseudo
  cases hands with
  | through got' passes' enters leaves =>
    rcases own with own | own
    · cases taken got' enters own
      exact ⟨own, leaves⟩
    · cases given got' leaves own
      exact ⟨enters, own⟩
  | into got' kind port tip has leaves =>
    rcases own with own | own
    · cases taken got' (mem_of_getElem? port) own
      exact (Node.kind_ne_of_isPseudo pseudo kind).elim
    · exact (endpoint_ne (rimmed.kind_of_endpoint got' kind (Scope.endpoint_of_input tip) has)
        (given has leaves own)).elim
  | outOf got' kind port tip has enters =>
    rcases own with own | own
    · exact (endpoint_ne (rimmed.kind_of_endpoint got' kind (Scope.endpoint_of_output tip) has)
        (taken has enters own)).elim
    · cases given got' (mem_of_getElem? port) own
      exact (Node.kind_ne_of_isPseudo pseudo kind).elim

/-! ## Changes that conserve threads -/

/-- The node has logic of its own: it is no flow part, no endpoint of one and does
not only pass data on. -/
def Lasting (graph : Graph) (id : NodeId) : Prop :=
  ∃ node, graph.nodes[id]? = some node ∧ node.isPassThrough = false ∧
    (∀ scope, node.kind ≠ .flowPart scope) ∧
    ∀ (part : NodeId) record scope, graph.nodes[part]? = some record →
      record.kind = .flowPart scope → id ∉ scope.endpoints

/-- The output port belongs to a node with logic of its own. -/
def Sends (graph : Graph) (out : OutputId) : Prop :=
  ∃ id node, graph.Lasting id ∧ graph.nodes[id]? = some node ∧ out ∈ node.outputs

/-- The input port belongs to a node with logic of its own. -/
def Accepts (graph : Graph) (input : InputId) : Prop :=
  ∃ id node, graph.Lasting id ∧ graph.nodes[id]? = some node ∧ input ∈ node.inputs

/-- There is a way between the nodes along connections in either direction, into
flow parts and out of them. -/
def Joined (graph : Graph) : NodeId → NodeId → Prop :=
  EqvGen graph.Adjoins

/-- Some port of the node is connected with nothing. -/
def Loose (graph : Graph) (id : NodeId) : Prop :=
  ∃ node, graph.nodes[id]? = some node ∧ ((∃ input ∈ node.inputs, ∀ out, ¬ graph.Feeds out input) ∨
      ∃ out ∈ node.outputs, ∀ input, ¬ graph.Feeds out input)

/-- A port that has lost all its connections had one. -/
theorem Loose.exists_lost (loose : post.Loose id) (eq : post.nodes[id]? = pre.nodes[id]?)
    (tight : ¬ pre.Loose id) :
    ∃ node out input, pre.nodes[id]? = some node ∧ pre.Feeds out input ∧
      (input ∈ node.inputs ∧ (∀ out, ¬ post.Feeds out input) ∨
        out ∈ node.outputs ∧ ∀ input, ¬ post.Feeds out input) := by
  obtain ⟨node, got, open'⟩ := loose
  rw [eq] at got
  rcases open' with ⟨input, mem, unfed⟩ | ⟨out, mem, unfed⟩
  · by_cases fed : ∃ out, pre.Feeds out input
    · obtain ⟨out, feeds⟩ := fed
      exact ⟨node, out, input, got, feeds, .inl ⟨mem, unfed⟩⟩
    · exact (tight ⟨node, got, .inl ⟨input, mem, not_exists.mp fed⟩⟩).elim
  · by_cases fed : ∃ input, pre.Feeds out input
    · obtain ⟨input, feeds⟩ := fed
      exact ⟨node, out, input, got, feeds, .inr ⟨mem, unfed⟩⟩
    · exact (tight ⟨node, got, .inr ⟨out, mem, not_exists.mp fed⟩⟩).elim

/-- Nodes with logic of their own stay, and so do the threads between them. What is new only
passes data on and joins nothing that was apart. Ports without connections are joined with such
ports. A flow part does not go before its endpoints. -/
structure Conserves (pre post : Graph) : Prop where
  adds : pre.Adds post
  root : post.root = pre.root
  lasting : ∀ id, pre.Lasting id → post.nodes[id]? = pre.nodes[id]?
  joins : ∀ first second : NodeId, first.raw < pre.next → second.raw < pre.next →
    post.Joined first second → pre.Joined first second
  loose : ∀ id, post.Loose id → ∃ other, pre.Loose other ∧
    ∀ old : NodeId, old.raw < pre.next → post.Joined id old → pre.Joined other old
  threads : ∀ output input, pre.Sends output → pre.Accepts input →
    (post.Threads output input ↔ pre.Threads output input)
  rims : ∀ (part tip : NodeId) node inner scope,
    pre.nodes[part]? = some node → node.kind = .flowPart scope → tip ∈ scope.endpoints →
    tip.raw < pre.next → post.nodes[tip]? = some inner →
    post.nodes[part]? = some node

namespace Conserves

theorem extends' (conserves : pre.Conserves post) : pre.Extends post :=
  ⟨conserves.adds.1, conserves.root, fun id node got => (conserves.adds.2 id node got).imp_right
    (And.imp_right Node.isPseudo_of_isPassThrough)⟩

theorem refl (G : Graph) : G.Conserves G where
  adds := .refl G
  root := rfl
  lasting _ _ := rfl
  joins _ _ _ _ joined := joined
  loose id loose := ⟨id, loose, fun _ _ joined => joined⟩
  threads _ _ _ _ := Iff.rfl
  rims _ _ _ _ _ got _ _ _ _ := got

section Mono

variable (conserves : pre.Conserves post)

include conserves

theorem lasting_mono (lasting : pre.Lasting id) : post.Lasting id := by
  have stays := conserves.lasting id lasting
  obtain ⟨node, got, logic, kind, inner⟩ := lasting
  refine ⟨node, stays.trans got, logic, kind, fun part record scope got' kind' => ?_⟩
  exact inner part record scope (conserves.adds.part got' kind') kind'

theorem sends_mono (sends : pre.Sends out) : post.Sends out := by
  obtain ⟨id, node, lasting, got, mem⟩ := sends
  exact ⟨id, node, conserves.lasting_mono lasting, (conserves.lasting id lasting).trans got, mem⟩

theorem accepts_mono (accepts : pre.Accepts input) : post.Accepts input := by
  obtain ⟨id, node, lasting, got, mem⟩ := accepts
  exact ⟨id, node, conserves.lasting_mono lasting, (conserves.lasting id lasting).trans got, mem⟩

end Mono

theorem trans (one : pre.Conserves middle) (two : middle.Conserves post) : pre.Conserves post where
  adds := one.adds.trans two.adds
  root := two.root.trans one.root
  lasting id lasting := (two.lasting id (one.lasting_mono lasting)).trans (one.lasting id lasting)
  joins first second early early' joined := by
    apply one.joins first second early early'
    exact two.joins first second (Nat.lt_of_lt_of_le early one.adds.1)
      (Nat.lt_of_lt_of_le early' one.adds.1) joined
  loose id loose := by
    obtain ⟨between, loose', back⟩ := two.loose id loose
    obtain ⟨other, loose'', back'⟩ := one.loose between loose'
    refine ⟨other, loose'', fun old early joined => back' old early ?_⟩
    exact back old (Nat.lt_of_lt_of_le early one.adds.1) joined
  threads out input sends accepts := by
    rw [two.threads out input (one.sends_mono sends) (one.accepts_mono accepts)]
    exact one.threads out input sends accepts
  rims part tip node inner scope got kind mem early has := by
    have early' := Nat.lt_of_lt_of_le early one.adds.1
    have got' := one.rims part tip node inner scope got kind mem early (two.adds.old has early')
    exact two.rims part tip node inner scope got' kind mem early' has

end Conserves

section Image

variable (image : NodeId → NodeId) (rimmed : pre.Rimmed) (adds : pre.Adds post)
  (fixed : ∀ id : NodeId, id.raw < pre.next → image id = id) (wf : pre.Consistent)
  (prec : ∀ first second, post.Precedes first second → pre.Joined (image first) (image second))

include rimmed adds fixed wf prec

/-- What stands for joined nodes was joined. -/
theorem joined_image {first : NodeId} (joined : post.Joined first second) :
    pre.Joined (image first) (image second) := by
  induction joined with
  | rel first second adjoins =>
    rcases adjoins with (prec' | prec') | ⟨node, scope, got, kind, mem⟩
    · exact prec first second prec'
    · exact (prec second first prec').symm
    · have got' := adds.part got kind
      rw [fixed first (wf.early got'),
        fixed second (rimmed.bounded first node scope got' kind second mem)]
      exact .rel _ _ (.inr ⟨node, scope, got', kind, mem⟩)
  | refl id => exact .refl _
  | symm _ _ _ ih => exact ih.symm
  | trans _ _ _ _ _ ih ih' => exact ih.trans _ _ _ ih'

/-- Nothing is joined that was apart, if what is new stands for something that it is
joined with. -/
theorem joins_of_image {first : NodeId} (early : first.raw < pre.next)
    (early' : second.raw < pre.next) (joined : post.Joined first second) :
    pre.Joined first second := by
  rw [← fixed first early, ← fixed second early']
  exact joined_image image rimmed adds fixed wf prec joined

/-- A port without connections is enough where the new node stands. -/
theorem loose_of_image {other : NodeId} (loose : pre.Loose other)
    (near : pre.Joined other (image id)) : ∃ other, pre.Loose other ∧
      ∀ old : NodeId, old.raw < pre.next → post.Joined id old → pre.Joined other old := by
  refine ⟨other, loose, fun old early joined => near.trans _ _ _ ?_⟩
  rw [← fixed old early]
  exact joined_image image rimmed adds fixed wf prec joined

end Image

theorem joined_of_transGen {first : NodeId} (led : TransGen G.Precedes first second) :
    G.Joined first second := by
  apply EqvGen.mono (fun _ _ prec => Or.inl (Or.inl prec))
  exact EqvGen.transGen_le_eqvGen _ _ _ led

end Graph

end Staging
