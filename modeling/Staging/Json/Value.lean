import Staging.Json.Token

/-! # JSON values

A value is read from tokens by one pass that keeps the arrays and objects it is
inside of as a list of frames, so that the depth of a text is not limited. It
is written compactly or over several lines with an indentation of two spaces.
-/

namespace Staging

/-- A JSON value. Objects keep their members in order, also repeated ones. -/
inductive Json where
  | null
  | bool (value : Bool)
  | nat (value : Nat)
  | numeral (spelling : List Char)
  | str (text : Option String)
  | arr (items : List Json)
  | obj (members : List (Option String × Json))

namespace Json

/-- A string literal that denotes the text. -/
def text (text : String) : Json := .str (some text)

/-- An object with members of the given names. -/
def object (members : List (String × Json)) : Json :=
  .obj (members.map fun (name, value) => (some name, value))

/-- An array or object that is being read. -/
inductive Frame where
  /-- The items read so far, last first. -/
  | array (items : List Json)
  /-- The members read so far, last first, and the name of the one being read. -/
  | object (members : List (Option String × Json)) (name : Option String)

inductive Expected where
  /-- A value, or the end of an array that has just been opened. -/
  | value (justOpened : Bool)
  /-- The name of a member, or the end of an object that has just been opened. -/
  | name (members : List (Option String × Json)) (justOpened : Bool)
  /-- The colon after a name. -/
  | colon (members : List (Option String × Json)) (name : Option String)
  /-- What may follow a value. -/
  | rest (value : Json)

/-- What one token does to what is expected and to the open frames. -/
def step : Expected × List Frame → Token → Option (Expected × List Frame)
  | (.value _, frames), .null => some (.rest .null, frames)
  | (.value _, frames), .bool value => some (.rest (.bool value), frames)
  | (.value _, frames), .nat value => some (.rest (.nat value), frames)
  | (.value _, frames), .numeral spelling => some (.rest (.numeral spelling), frames)
  | (.value _, frames), .str text => some (.rest (.str text), frames)
  | (.value _, frames), .openArray => some (.value true, .array [] :: frames)
  | (.value _, frames), .openObject => some (.name [] true, frames)
  | (.value true, .array _ :: frames), .closeArray => some (.rest (.arr []), frames)
  | (.name members _, frames), .str name => some (.colon members name, frames)
  | (.name _ true, frames), .closeObject => some (.rest (.obj []), frames)
  | (.colon members name, frames), .colon => some (.value false, .object members name :: frames)
  | (.rest value, .array items :: frames), .comma =>
    some (.value false, .array (value :: items) :: frames)
  | (.rest value, .array items :: frames), .closeArray =>
    some (.rest (.arr (value :: items).reverse), frames)
  | (.rest value, .object members name :: frames), .comma =>
    some (.name ((name, value) :: members) false, frames)
  | (.rest value, .object members name :: frames), .closeObject =>
    some (.rest (.obj ((name, value) :: members).reverse), frames)
  | _, _ => none

def ofTokens? (tokens : List Token) : Option Json :=
  match tokens.foldlM step (.value false, []) with
  | some (.rest value, []) => some value
  | _ => none

/-- The value that the text writes, with spaces before and after it allowed. -/
def parse? (text : String) : Option Json := do
  let tokens ← Token.scan? text.toList
  ofTokens? tokens

mutual

def tokens : Json → List Token
  | .null => [.null]
  | .bool value => [.bool value]
  | .nat value => [.nat value]
  | .numeral spelling => [.numeral spelling]
  | .str text => [.str text]
  | .arr items => .openArray :: itemTokens items ++ [.closeArray]
  | .obj members => .openObject :: memberTokens members ++ [.closeObject]

/-- The tokens of the items of an array, with commas between them. -/
def itemTokens : List Json → List Token
  | [] => []
  | [item] => tokens item
  | item :: items => tokens item ++ .comma :: itemTokens items

/-- The tokens of the members of an object, with commas between them. -/
def memberTokens : List (Option String × Json) → List Token
  | [] => []
  | [(name, value)] => .str name :: .colon :: tokens value
  | (name, value) :: members =>
    .str name :: .colon :: tokens value ++ .comma :: memberTokens members

end

/-- A value in one line without spaces. -/
def compact (value : Json) : String :=
  String.ofList (value.tokens.flatMap Token.spelling)

/-- A line break and the indentation of the given depth. -/
def newline (depth : Nat) : List Char :=
  '\n' :: List.replicate (2 * depth) ' '

/-- Tokens over several lines, inside of `depth` arrays and objects: each item
and member has a line of its own, and what is empty stays closed. -/
def spread : (depth : Nat) → List Token → List Char
  | _, [] => []
  | depth, .openArray :: .closeArray :: rest => '[' :: ']' :: spread depth rest
  | depth, .openObject :: .closeObject :: rest => '\x7b' :: '\x7d' :: spread depth rest
  | depth, .openArray :: rest => '[' :: newline (depth + 1) ++ spread (depth + 1) rest
  | depth, .openObject :: rest => '\x7b' :: newline (depth + 1) ++ spread (depth + 1) rest
  | depth, .closeArray :: rest => newline (depth - 1) ++ ']' :: spread (depth - 1) rest
  | depth, .closeObject :: rest => newline (depth - 1) ++ '\x7d' :: spread (depth - 1) rest
  | depth, .comma :: rest => ',' :: newline depth ++ spread depth rest
  | depth, .colon :: rest => ':' :: ' ' :: spread depth rest
  | depth, token :: rest => token.spelling ++ spread depth rest

/-- A value over several lines. -/
def pretty (value : Json) : String :=
  String.ofList (spread 0 value.tokens)

/-- The value of the only member of a name, if there is one; repeated members
are refused. -/
def member? (members : List (Option String × Json)) (name : String) : Option (Option Json) :=
  match members.filter fun (given, _) => given == some name with
  | [] => some none
  | [(_, value)] => some (some value)
  | _ => none

/-- The fields of a record, which is an object with members of these names, in
any order and among others, or an array of the fields in this order. An array
has all fields, unless it may end early. -/
def fields? (names : List String) (mayEndEarly : Bool) : Json → Option (List (Option Json))
  | .obj members =>
    if members.all fun (name, _) => name.isSome then names.mapM (member? members) else none
  | .arr items =>
    if items.length = names.length ∨ (mayEndEarly ∧ items.length ≤ names.length) then
      some (items.map some ++ List.replicate (names.length - items.length) none)
    else none
  | _ => none

/-- One of several named choices: its name, or an object whose only member has
that name and no value. -/
def choice? {α : Type} (choices : List α) (name : α → String) : Json → Option α
  | .str (some text) => choices.find? fun choice => name choice == text
  | .obj [(some text, .null)] => choices.find? fun choice => name choice == text
  | _ => none

def text? : Json → Option String
  | .str text => text
  | _ => none

/-- The items of an array, each read by `read?`. -/
def list? {α : Type} (read? : Json → Option α) : Json → Option (List α)
  | .arr items => items.mapM read?
  | _ => none

/-- Nothing, or what `read?` reads. -/
def optional? {α : Type} (read? : Json → Option α) : Json → Option (Option α)
  | .null => some none
  | value => (read? value).map some

end Json

end Staging
