import Std.Data.ExtTreeMap
import Std.Data.ExtTreeSet

/-! # Handles

Nodes, ports, blocks and block ports are named by numbers. A handle carries in
its type what it names, so that a node is never looked up among the ports.
Handles of one role are ordered by their numbers, which is the order in which
they were given out; sets and maps over them are kept in that order and are
equal as soon as they have the same members.
-/

namespace Staging

open Std

inductive Role where
  | node
  | input
  | output
  | block
  | blockInput
  | blockOutput
deriving DecidableEq

namespace Role

/-- The letters before the number of a handle in running text. -/
def letters : Role → String
  | .node => "n"
  | .input => "i"
  | .output => "o"
  | .block => "b"
  | .blockInput => "bi"
  | .blockOutput => "bo"

/-- The word before the number of a handle in a listing of handles. -/
def label : Role → String
  | .node => "NodeId"
  | .input => "InputId"
  | .output => "OutputId"
  | .block => "BlockId"
  | .blockInput => "BlockInputId"
  | .blockOutput => "BlockOutputId"

end Role

/-- A number that names something of the given role. -/
structure Handle (role : Role) where
  raw : Nat
deriving DecidableEq

abbrev NodeId := Handle .node
abbrev InputId := Handle .input
abbrev OutputId := Handle .output
abbrev BlockId := Handle .block
abbrev BlockInputId := Handle .blockInput
abbrev BlockOutputId := Handle .blockOutput

namespace Handle

variable {role : Role}

instance : Ord (Handle role) := ⟨fun first second => compare first.raw second.raw⟩

instance : TransOrd (Handle role) :=
  inferInstanceAs (TransCmp (compareOn Handle.raw))

instance : LawfulEqOrd (Handle role) where
  eq_of_compare {first second} same := by
    have equal : first.raw = second.raw := LawfulEqOrd.eq_of_compare same
    cases first
    cases second
    exact congrArg Handle.mk equal

/-- A handle in running text: its role's letters, then its number. -/
def text (handle : Handle role) : String :=
  role.letters ++ toString handle.raw

/-- The handles with the `count` numbers from `start` on. -/
def consecutive (start count : Nat) : List (Handle role) :=
  (List.range' start count).map Handle.mk

@[simp] theorem length_consecutive (start count : Nat) :
    (consecutive start count : List (Handle role)).length = count := by
  simp [consecutive]

theorem mem_consecutive {start count : Nat} {handle : Handle role} :
    handle ∈ consecutive start count ↔ start ≤ handle.raw ∧ handle.raw < start + count := by
  cases handle
  simp [consecutive, List.mem_range'_1]

end Handle

abbrev HandleSet (role : Role) := ExtTreeSet (Handle role)

abbrev HandleMap (role : Role) (α : Type) := ExtTreeMap (Handle role) α

abbrev NodeSet := HandleSet .node
abbrev InputSet := HandleSet .input
abbrev OutputSet := HandleSet .output
abbrev BlockSet := HandleSet .block
abbrev BlockInputSet := HandleSet .blockInput
abbrev BlockOutputSet := HandleSet .blockOutput

namespace HandleSet

variable {role other : Role}

/-- The set of the listed handles. -/
def of (handles : List (Handle role)) : HandleSet role :=
  ExtTreeSet.ofList handles

/-- The union of the sets that `f` gives for the listed elements. -/
def gather {α : Type} (elements : List α) (f : α → HandleSet role) : HandleSet role :=
  elements.foldl (fun union element => union ∪ f element) ∅

def disjoint (first second : HandleSet role) : Bool :=
  (first ∩ second).isEmpty

/-- A set in messages: its members in ascending order between braces. -/
def text (handles : HandleSet role) : String :=
  "\x7b" ++ String.intercalate ", "
    (handles.toList.map fun handle => role.label ++ "(" ++ toString handle.raw ++ ")") ++ "\x7d"

@[simp] theorem mem_of {handles : List (Handle role)} {handle : Handle role} :
    handle ∈ of handles ↔ handle ∈ handles := by
  simp [of]

theorem mem_gather {α : Type} {elements : List α} {f : α → HandleSet role}
    {handle : Handle role} :
    handle ∈ gather elements f ↔ ∃ element ∈ elements, handle ∈ f element := by
  suffices general : ∀ start : HandleSet role,
      handle ∈ elements.foldl (fun union element => union ∪ f element) start ↔
        handle ∈ start ∨ ∃ element ∈ elements, handle ∈ f element by
    simpa [gather] using general ∅
  induction elements with
  | nil => simp
  | cons first rest ih =>
    intro start
    rw [List.foldl_cons, ih, ExtTreeSet.mem_union_iff]
    simp [or_assoc]

end HandleSet

end Staging
