/-! # Tokens of JSON text

A JSON text is read in two steps: its characters form tokens, and the tokens
form a value. A token keeps what its spelling means, so that two spellings of
one meaning give one token.

The escapes of a string literal name code units, and two units that form a
surrogate pair name one character. A literal with half of a pair is well formed
but denotes no text.
-/

namespace Staging.Json

/-- The smallest parts of a JSON text. -/
inductive Token where
  | openArray
  | closeArray
  | openObject
  | closeObject
  | comma
  | colon
  | null
  | bool (value : Bool)
  /-- A number that is written with digits only. -/
  | nat (value : Nat)
  /-- Any other number, as it is spelled. -/
  | numeral (spelling : List Char)
  /-- A string literal, if it denotes a text. -/
  | str (text : Option String)
deriving DecidableEq

namespace Token

/-- A character that may stand between tokens. -/
def isSpace (c : Char) : Bool :=
  c = ' ' || c = '\t' || c = '\n' || c = '\r'

/-- The value of a hexadecimal digit of either case. -/
def hexValue? (c : Char) : Option Nat :=
  if '0' ≤ c ∧ c ≤ '9' then some (c.toNat - '0'.toNat)
  else if 'a' ≤ c ∧ c ≤ 'f' then some (c.toNat - 'a'.toNat + 10)
  else if 'A' ≤ c ∧ c ≤ 'F' then some (c.toNat - 'A'.toNat + 10)
  else none

/-- The code unit that four hexadecimal digits name. -/
def hexUnit? (first second third fourth : Char) : Option Nat := do
  let a ← hexValue? first
  let b ← hexValue? second
  let c ← hexValue? third
  let d ← hexValue? fourth
  return ((a * 16 + b) * 16 + c) * 16 + d

/-- The character that a backslash and one other character name. -/
def shortEscape? : Char → Option Char
  | '"' => some '"'
  | '\\' => some '\\'
  | '/' => some '/'
  | 'b' => some '\x08'
  | 'f' => some '\x0c'
  | 'n' => some '\n'
  | 'r' => some '\r'
  | 't' => some '\t'
  | _ => none

/-- The code units of a literal up to its closing quote, and what follows it. -/
def units? : List Char → Option (List Nat × List Char)
  | [] => none
  | '"' :: rest => some ([], rest)
  | '\\' :: 'u' :: first :: second :: third :: fourth :: rest => do
      let unit ← hexUnit? first second third fourth
      let (units, after) ← units? rest
      return (unit :: units, after)
  | '\\' :: c :: rest => do
      let named ← shortEscape? c
      let (units, after) ← units? rest
      return (named.toNat :: units, after)
  | c :: rest =>
    if c = '\\' ∨ c.toNat < 0x20 then none
    else do
      let (units, after) ← units? rest
      return (c.toNat :: units, after)

/-- The first half of a surrogate pair. -/
def isHigh (unit : Nat) : Bool := 0xd800 ≤ unit && unit < 0xdc00

def isLow (unit : Nat) : Bool := 0xdc00 ≤ unit && unit < 0xe000

/-- The characters that code units denote, if no half of a pair stands alone. -/
def chars? : List Nat → Option (List Char)
  | [] => some []
  | [unit] => if isHigh unit || isLow unit then none else some [Char.ofNat unit]
  | unit :: next :: rest =>
    if isHigh unit && isLow next then
      (chars? rest).map
        (Char.ofNat (0x10000 + (unit - 0xd800) * 0x400 + (next - 0xdc00)) :: ·)
    else if isHigh unit || isLow unit then none
    else (chars? (next :: rest)).map (Char.ofNat unit :: ·)

/-- The number that decimal digits write. -/
def decimal (digits : List Char) : Nat :=
  digits.foldl (fun value digit => value * 10 + (digit.toNat - '0'.toNat)) 0

/-- The digits at the head of a text, and what follows them. -/
def digits (chars : List Char) : List Char × List Char :=
  (chars.takeWhile Char.isDigit, chars.dropWhile Char.isDigit)

/-- A whole part: at least one digit, and no zero before another digit. -/
def whole? (chars : List Char) : Option (List Char × List Char) :=
  match digits chars with
  | ([], _) => none
  | ('0' :: _ :: _, _) => none
  | read => some read

/-- A fraction with its point, which may be absent. -/
def fraction? : List Char → Option (List Char × List Char)
  | '.' :: rest =>
    match digits rest with
    | ([], _) => none
    | (read, after) => some ('.' :: read, after)
  | chars => some ([], chars)

/-- The sign of an exponent, which may be absent. -/
def exponentSign : List Char → List Char × List Char
  | '+' :: rest => (['+'], rest)
  | '-' :: rest => (['-'], rest)
  | chars => ([], chars)

/-- An exponent with its mark, which may be absent. -/
def exponent? : List Char → Option (List Char × List Char)
  | [] => some ([], [])
  | c :: rest =>
    if c = 'e' ∨ c = 'E' then
      let (sign, unsigned) := exponentSign rest
      match digits unsigned with
      | ([], _) => none
      | (read, after) => some (c :: sign ++ read, after)
    else some ([], c :: rest)

/-- A number without sign at the head of a text, in its parts. -/
def unsigned? (chars : List Char) : Option (List Char × List Char × List Char × List Char) := do
  let (whole, rest) ← whole? chars
  let (fraction, rest) ← fraction? rest
  let (exponent, rest) ← exponent? rest
  return (whole, fraction, exponent, rest)

/-- A number at the head of a text. -/
def number? : List Char → Option (Token × List Char)
  | '-' :: chars => do
      let (whole, fraction, exponent, rest) ← unsigned? chars
      return (.numeral ('-' :: whole ++ fraction ++ exponent), rest)
  | chars => do
      let (whole, fraction, exponent, rest) ← unsigned? chars
      if fraction.isEmpty && exponent.isEmpty then return (.nat (decimal whole), rest)
      else return (.numeral (whole ++ fraction ++ exponent), rest)

/-- The token at the head of a text that starts with no space. -/
def next? : List Char → Option (Token × List Char)
  | '[' :: rest => some (.openArray, rest)
  | ']' :: rest => some (.closeArray, rest)
  | '\x7b' :: rest => some (.openObject, rest)
  | '\x7d' :: rest => some (.closeObject, rest)
  | ',' :: rest => some (.comma, rest)
  | ':' :: rest => some (.colon, rest)
  | 'n' :: 'u' :: 'l' :: 'l' :: rest => some (.null, rest)
  | 't' :: 'r' :: 'u' :: 'e' :: rest => some (.bool true, rest)
  | 'f' :: 'a' :: 'l' :: 's' :: 'e' :: rest => some (.bool false, rest)
  | '"' :: rest => do
      let (units, after) ← units? rest
      return (.str ((chars? units).map String.ofList), after)
  | chars => number? chars

/-- The tokens of a text of at most `size` characters. -/
def scanWithin : (size : Nat) → List Char → Option (List Token)
  | _, [] => some []
  | 0, _ :: _ => none
  | size + 1, c :: rest =>
    if isSpace c then scanWithin size rest
    else do
      let (token, after) ← next? (c :: rest)
      let tokens ← scanWithin size after
      return token :: tokens

/-- The tokens of a text, if all of it consists of tokens and spaces. -/
def scan? (chars : List Char) : Option (List Token) :=
  scanWithin chars.length chars

/-- A hexadecimal digit in lower case. -/
def hexDigit (value : Nat) : Char :=
  if value < 10 then Char.ofNat ('0'.toNat + value) else Char.ofNat ('a'.toNat + (value - 10))

/-- A character inside a written literal: quotes, backslashes and control
characters are escaped, and everything else stands for itself. -/
def escaped (c : Char) : List Char :=
  if c = '"' then ['\\', '"']
  else if c = '\\' then ['\\', '\\']
  else if c = '\x08' then ['\\', 'b']
  else if c = '\t' then ['\\', 't']
  else if c = '\n' then ['\\', 'n']
  else if c = '\x0c' then ['\\', 'f']
  else if c = '\r' then ['\\', 'r']
  else if c.toNat < 0x20 then
    ['\\', 'u', '0', '0', hexDigit (c.toNat / 16), hexDigit (c.toNat % 16)]
  else [c]

/-- How a token is written. A literal that denotes no text is written with half
of a surrogate pair. -/
def spelling : Token → List Char
  | .openArray => ['[']
  | .closeArray => [']']
  | .openObject => ['\x7b']
  | .closeObject => ['\x7d']
  | .comma => [',']
  | .colon => [':']
  | .null => ['n', 'u', 'l', 'l']
  | .bool true => ['t', 'r', 'u', 'e']
  | .bool false => ['f', 'a', 'l', 's', 'e']
  | .nat value => Nat.toDigits 10 value
  | .numeral spelling => spelling
  | .str (some text) => '"' :: text.toList.flatMap escaped ++ ['"']
  | .str none => ['"', '\\', 'u', 'd', '8', '0', '0', '"']

end Token

end Staging.Json
