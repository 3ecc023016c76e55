import Std.Data.ExtTreeMap
import Staging.Text.Blank

/-! # Planning options

Options choose how flow parts are inlined and whether stages are merged. The
second choice can be made directly or by a free-form attribute; an attribute
that cannot be understood is reported and ignored.
-/

namespace Staging

/-- How a flow part becomes a part of its surroundings. -/
inductive FlowPartMode where
  /-- The part is fused with its surroundings. -/
  | aggregate
  /-- The part keeps a stage boundary at every port. -/
  | segregate
deriving DecidableEq

namespace FlowPartMode

def name : FlowPartMode → String
  | .aggregate => "Aggregate"
  | .segregate => "Segregate"

def all : List FlowPartMode := [.aggregate, .segregate]

end FlowPartMode

structure Options where
  flowParts : FlowPartMode := .segregate
  /-- Whether stages at equal distance are merged; wins over the attribute. -/
  compress : Option Bool := none
  attributes : Std.ExtTreeMap String String := ∅
deriving BEq

/-- Whether stages are merged, and the attribute that was not understood. -/
structure Compression where
  enabled : Bool
  rejected : Option String
deriving DecidableEq

namespace Options

/-- The attribute that switches the merging of stages. -/
def compressAttribute : String := "compressFlowBlockGroup"

/-- What the value of the attribute says, apart from case and outer white space. -/
def switch? (value : String) : Option Bool :=
  let word := String.ofList ((Text.trimmed value.toList).map Char.toLower)
  if word = "enabled" then some true
  else if word = "disabled" then some false
  else none

/-- Stages are merged unless the options say otherwise. -/
def compression (options : Options) : Compression :=
  match options.compress, options.attributes[compressAttribute]? with
  | some enabled, _ => ⟨enabled, none⟩
  | none, none => ⟨true, none⟩
  | none, some value =>
    match switch? value with
    | some enabled => ⟨enabled, none⟩
    | none => ⟨true, some value⟩

end Options

end Staging
