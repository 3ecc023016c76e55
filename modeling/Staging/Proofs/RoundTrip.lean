import Mathlib.Data.List.Basic
import Staging.Json.Codec

/-! # Reading back what was written

Written JSON text is read back as the value it was written for. A literal is read back
because every character is escaped to units that name it, and a number because what follows
it cannot continue it. Spaces between tokens are skipped.
-/

namespace Staging

open Nat (toDigits toDigits_ne_nil isDigit_of_mem_toDigits)
open List (mem_cons_self mem_cons_of_mem mem_map append_assoc cons_append flatMap_cons)
open Std (ExtTreeMap)

namespace Json

namespace Token

variable {token : Token} {chars rest : List Char} {tokens post : List Token}

private theorem hexUnit?_hexDigit : ∀ unit < 0x20,
    hexUnit? '0' '0' (hexDigit (unit / 16)) (hexDigit (unit % 16)) = some unit := by
  decide

/-- A short escape names the unit of its character. -/
theorem units?_short {c named : Char} (short : shortEscape? c = some named) (rest : List Char) :
    units? ('\\' :: c :: rest) =
      (units? rest).map fun (units, post) => (named.toNat :: units, post) := by
  have other : c ≠ 'u' := by
    rintro rfl
    cases short
  rw [units?, short, Option.map_eq_bind]
  · rfl
  · rintro _ _ _ _ _ rfl
    exact fun _ => other rfl

/-- The escape of a character names the unit of the character. -/
theorem units?_escaped (c : Char) (rest : List Char) : units? (escaped c ++ rest) =
    (units? rest).map fun (units, post) => (c.toNat :: units, post) := by
  unfold escaped
  split_ifs with quote slash back tab line feed carriage control
  · subst quote
    exact units?_short rfl rest
  · subst slash
    exact units?_short rfl rest
  · exact units?_short (back ▸ rfl) rest
  · exact units?_short (tab ▸ rfl) rest
  · exact units?_short (line ▸ rfl) rest
  · exact units?_short (feed ▸ rfl) rest
  · exact units?_short (carriage ▸ rfl) rest
  · rw [cons_append, cons_append, cons_append, cons_append, cons_append,
      cons_append, List.nil_append, units?, hexUnit?_hexDigit _ control, Option.map_eq_bind]
    rfl
  · rw [List.singleton_append, units?, if_neg (by simp [slash, control]), Option.map_eq_bind]
    · rfl
    · exact quote
    all_goals exact fun _ _ => by simp [slash]

private theorem units?_flatMap_escaped (text rest : List Char) :
    units? (text.flatMap escaped ++ '"' :: rest) = some (text.map Char.toNat, rest) := by
  induction text with
  | nil => rfl
  | cons c text ih =>
    rw [flatMap_cons, append_assoc, units?_escaped, ih]
    rfl

/-- No character is half of a surrogate pair. -/
theorem chars?_cons (c : Char) (units : List Nat) :
    chars? (c.toNat :: units) = (chars? units).map (c :: ·) := by
  have whole : isHigh c.toNat = false ∧ isLow c.toNat = false := by
    have valid : c.toNat < 0xd800 ∨ 0xdfff < c.toNat ∧ c.toNat < 0x110000 := c.valid
    simp only [isHigh, isLow, Bool.and_eq_false_iff, decide_eq_false_iff_not]
    omega
  cases units <;> simp [chars?, whole.1, whole.2, Char.ofNat_toNat]

private theorem chars?_map_toNat (text : List Char) : chars? (text.map Char.toNat) = some text := by
  induction text with
  | nil => rfl
  | cons c text ih => rw [List.map_cons, chars?_cons, ih, Option.map_some]

private theorem decimal_toDigits (value : Nat) : decimal (toDigits 10 value) = value := by
  have read := Nat.ofDigitChars_toDigits (b := 10) (n := value) (by decide) (by decide)
  simpa only [decimal, Nat.ofDigitChars, Nat.mul_comm] using read

/-- Only zero is written with a zero at the front. -/
theorem toDigits_zero_cons {value : Nat} {rest : List Char}
    (written : toDigits 10 value = '0' :: rest) : rest = [] := by
  induction value using Nat.strongRecOn generalizing rest with
  | ind value ih =>
    rw [Nat.toDigits_eq_if (by decide)] at written
    split_ifs at written with small
    · exact (List.cons.inj written).2.symm
    · obtain ⟨first, digits, front⟩ := List.exists_cons_of_ne_nil
        (toDigits_ne_nil (n := value / 10) (b := 10))
      rw [front, cons_append] at written
      obtain ⟨rfl, _⟩ := List.cons.inj written
      have alone := ih _ (by omega) front
      have zero := decimal_toDigits (value / 10)
      rw [front, alone] at zero
      exact absurd zero (by simp [decimal]; omega)

/-- The text does not continue a number. -/
def Ends (rest : List Char) : Prop :=
  ∀ c ∈ rest.head?, c.isDigit = false ∧ c ≠ '.' ∧ c ≠ 'e' ∧ c ≠ 'E'

private theorem digits_append {read : List Char} (all : ∀ c ∈ read, c.isDigit)
    (ends : Ends rest) : digits (read ++ rest) = (read, rest) := by
  rw [digits, List.takeWhile_append_of_pos all, List.dropWhile_append_of_pos all]
  cases rest with
  | nil => simp
  | cons c rest => simp [(ends c rfl).1]

private theorem unsigned?_toDigits (value : Nat) (ends : Ends rest) :
    unsigned? (toDigits 10 value ++ rest) = some (toDigits 10 value, [], [], rest) := by
  have read : digits (toDigits 10 value ++ rest) = (toDigits 10 value, rest) :=
    digits_append (fun _ => isDigit_of_mem_toDigits (by decide) (by decide)) ends
  have whole : whole? (toDigits 10 value ++ rest) = some (toDigits 10 value, rest) := by
    rw [whole?, read]
    split
    · next none => exact absurd (congrArg Prod.fst none) toDigits_ne_nil
    · next zero => exact absurd (toDigits_zero_cons (congrArg Prod.fst zero)) (by simp)
    · rfl
  rw [unsigned?, whole]
  cases rest with
  | nil => rfl
  | cons c rest =>
    obtain ⟨_, point, small, large⟩ := ends c rfl
    simp [fraction?, exponent?, point, small, large]

private theorem exists_toDigits (value : Nat) :
    ∃ first digits, toDigits 10 value = first :: digits ∧ first.isDigit := by
  obtain ⟨first, digits, written⟩ := List.exists_cons_of_ne_nil
    (toDigits_ne_nil (n := value) (b := 10))
  refine ⟨first, digits, written, ?_⟩
  exact isDigit_of_mem_toDigits (by decide) (by decide) (written ▸ mem_cons_self)

private theorem next?_toDigits (value : Nat) (ends : Ends rest) :
    next? (toDigits 10 value ++ rest) = some (.nat value, rest) := by
  obtain ⟨first, digits, written, digit⟩ := exists_toDigits value
  have number : number? (toDigits 10 value ++ rest) = some (.nat value, rest) := by
    rw [number?, unsigned?_toDigits value ends]
    · simp [decimal_toDigits]
    · intro _ same
      rw [written] at same
      obtain ⟨rfl, _⟩ := List.cons.inj same
      cases digit
  rw [next?, number]
  all_goals
    intro _ same
    rw [written] at same
    obtain ⟨rfl, _⟩ := List.cons.inj same
    cases digit

/-- Whether the token can be written where a number would end if `ends` holds. -/
def Stands (ends : Prop) : Token → Prop
  | .numeral _ => False
  | .nat _ => ends
  | _ => True

private theorem Stands.imp {p q : Prop} (implies : p → q) (stands : token.Stands p) :
    token.Stands q := by
  cases token with
  | nat => exact implies stands
  | _ => exact stands

/-- A token is read back, and so is what follows it. -/
theorem next?_spelling (stands : token.Stands (Ends rest)) :
    next? (token.spelling ++ rest) = some (token, rest) := by
  cases token with
  | nat value => exact next?_toDigits value stands
  | numeral => exact stands.elim
  | str text =>
    cases text with
    | none => rfl
    | some text =>
      rw [spelling, cons_append, cons_append, append_assoc,
        List.singleton_append, next?, units?_flatMap_escaped]
      simp [chars?_map_toNat]
  | bool value => cases value <;> rfl
  | _ => rfl

/-- Tokens are read from a text that spells them with spaces between. -/
inductive Spells : List Char → List Token → Prop where
  | nil : Spells [] []
  | space {c : Char} {chars : List Char} {tokens : List Token} (space : isSpace c = true)
      (rest : Spells chars tokens) : Spells (c :: chars) tokens
  | token (token : Token) {chars : List Char} {tokens : List Token}
      (stands : token.Stands (Ends chars)) (rest : Spells chars tokens) :
      Spells (token.spelling ++ chars) (token :: tokens)

/-- No token is empty or starts with a space. -/
theorem exists_spelling {p : Prop} (stands : token.Stands p) :
    ∃ first chars, token.spelling = first :: chars ∧ isSpace first = false := by
  cases token with
  | nat value =>
    obtain ⟨first, digits, written, digit⟩ := exists_toDigits value
    refine ⟨first, digits, written, ?_⟩
    by_contra space
    simp only [isSpace, Bool.not_eq_false, Bool.or_eq_true, decide_eq_true_eq] at space
    obtain ((rfl | rfl) | rfl) | rfl := space <;> cases digit
  | numeral => exact stands.elim
  | str text => cases text <;> exact ⟨_, _, rfl, rfl⟩
  | bool value => cases value <;> exact ⟨_, _, rfl, rfl⟩
  | _ => exact ⟨_, _, rfl, rfl⟩

private theorem Spells.scanWithin (spells : Spells chars tokens) {size : Nat}
    (fits : chars.length ≤ size) : scanWithin size chars = some tokens := by
  induction spells generalizing size with
  | nil => cases size <;> rfl
  | space space _ ih =>
    cases size with
    | zero => cases fits
    | succ size =>
      rw [Token.scanWithin, if_pos space]
      exact ih (Nat.le_of_succ_le_succ fits)
  | @token token chars tokens stands _ ih =>
    obtain ⟨first, others, written, space⟩ := exists_spelling stands
    have read := next?_spelling stands
    rw [written, cons_append] at fits read ⊢
    rw [List.length_cons, List.length_append] at fits
    cases size with
    | zero => cases fits
    | succ size =>
      rw [Token.scanWithin, if_neg (by simp [space]), read]
      simp [ih (show chars.length ≤ size by omega)]

private theorem Spells.scan? (spells : Spells chars tokens) : Token.scan? chars = some tokens :=
  spells.scanWithin (Nat.le_refl _)

/-- What may stand after a complete value. -/
def Closing : List Token → Prop
  | [] | .comma :: _ | .closeArray :: _ | .closeObject :: _ => True
  | _ => False

/-- Every number stands at the end of a value. -/
def Parted : List Token → Prop
  | [] => True
  | token :: rest => token.Stands (Closing rest) ∧ Parted rest

private theorem Closing.cases (closing : Closing after) :
    after = [] ∨ ∃ token others, after = token :: others ∧
      (token = .comma ∨ token = .closeArray ∨ token = .closeObject) := by
  unfold Closing at closing
  split at closing <;> simp_all

/-- Tokens written without spaces. -/
theorem Parted.spells (parted : Parted tokens) : Spells (tokens.flatMap spelling) tokens := by
  induction tokens with
  | nil => exact .nil
  | cons token rest ih =>
    refine .token token (parted.1.imp fun closing => ?_) (ih parted.2)
    obtain rfl | ⟨_, others, rfl, rfl | rfl | rfl⟩ := closing.cases
    · exact fun _ => nofun
    all_goals simp [Ends, spelling]

private theorem Spells.newline {depth : Nat} (rest : Spells chars tokens) :
    Spells (newline depth ++ chars) tokens := by
  have spaces (count : Nat) : Spells (List.replicate count ' ' ++ chars) tokens := by
    induction count with
    | zero => exact rest
    | succ count ih => exact .space rfl ih
  exact .space rfl (spaces _)

private theorem Closing.ends_spread (closing : Closing after) (depth : Nat) :
    Ends (spread depth after) := by
  obtain rfl | ⟨_, others, rfl, rfl | rfl | rfl⟩ := closing.cases
  · exact fun _ => nofun
  all_goals simp [Ends, spread, Json.newline]

/-- Tokens written over several lines. -/
theorem Parted.spells_spread (parted : Parted tokens) (depth : Nat) :
    Spells (spread depth tokens) tokens := by
  fun_induction spread depth tokens with
  | case1 => exact .nil
  | case2 depth rest ih =>
    exact .token .openArray trivial (.token .closeArray trivial (ih parted.2.2))
  | case3 depth rest ih =>
    exact .token .openObject trivial (.token .closeObject trivial (ih parted.2.2))
  | case4 depth rest _ ih => exact .token .openArray trivial (ih parted.2).newline
  | case5 depth rest _ ih => exact .token .openObject trivial (ih parted.2).newline
  | case6 depth rest ih => exact .newline (.token .closeArray trivial (ih parted.2))
  | case7 depth rest ih => exact .newline (.token .closeObject trivial (ih parted.2))
  | case8 depth rest ih => exact .token .comma trivial (ih parted.2).newline
  | case9 depth rest ih => exact .token .colon trivial (.space rfl (ih parted.2))
  | case10 depth token rest _ _ _ _ _ _ _ _ ih =>
    exact .token token (parted.1.imp fun closing => closing.ends_spread _) (ih parted.2)

/-- Tokens of several items, each after a comma. -/
theorem parted_flatMap {α : Type} {listed : α → List Token} {items : List α}
    (each : ∀ item ∈ items, ∀ {rest}, Closing rest → Parted rest → Parted (listed item ++ rest))
    (parted : Parted after) (closing : Closing after) :
    Closing (items.flatMap (.comma :: listed ·) ++ after) ∧
      Parted (items.flatMap (.comma :: listed ·) ++ after) := by
  induction items with
  | nil => exact ⟨closing, parted⟩
  | cons item items ih =>
    obtain ⟨closing, parted⟩ := ih fun _ later => each _ (mem_cons_of_mem _ later)
    rw [flatMap_cons, append_assoc]
    exact ⟨trivial, trivial, each item mem_cons_self closing parted⟩

end Token

variable {value : Json} {rest : List Token}

/-- A value whose numbers are all written with digits only. -/
inductive Plain : Json → Prop where
  | null : Plain .null
  | bool (value : Bool) : Plain (.bool value)
  | nat (value : Nat) : Plain (.nat value)
  | str (text : Option String) : Plain (.str text)
  | arr (items : List Json) (plain : ∀ item ∈ items, Plain item) : Plain (.arr items)
  | obj (members : List (Option String × Json)) (plain : ∀ member ∈ members, Plain member.2) :
      Plain (.obj members)

/-- The tokens of a member of an object. -/
def memberListed (mem : Option String × Json) : List Token :=
  .str mem.1 :: .colon :: mem.2.tokens

private theorem itemTokens_cons (item : Json) (items : List Json) :
    itemTokens (item :: items) = item.tokens ++ items.flatMap (.comma :: ·.tokens) := by
  induction items generalizing item with
  | nil => simp [itemTokens]
  | cons other items ih =>
    rw [itemTokens, ih, flatMap_cons, cons_append]
    exact nofun

private theorem memberTokens_cons (mem : Option String × Json)
    (members : List (Option String × Json)) :
    memberTokens (mem :: members) =
      memberListed mem ++ members.flatMap (.comma :: memberListed ·) := by
  induction members generalizing mem with
  | nil => simp [memberTokens, memberListed]
  | cons other members ih =>
    rw [memberTokens, ih, flatMap_cons, cons_append]
    · rfl
    · exact nofun

/-- The tokens of a value are parted, whatever may stand after the value. -/
theorem Plain.parted (plain : value.Plain)
    (closing : Token.Closing rest) (parted : Token.Parted rest) :
    Token.Parted (value.tokens ++ rest) := by
  induction plain generalizing rest with
  | null | bool | str => exact ⟨trivial, parted⟩
  | nat => exact ⟨closing, parted⟩
  | arr items _ ih =>
    rw [tokens, append_assoc, cons_append]
    refine ⟨trivial, ?_⟩
    cases items with
    | nil => exact ⟨trivial, parted⟩
    | cons item items =>
      have parted : Token.Parted (.closeArray :: rest) := ⟨trivial, parted⟩
      obtain ⟨closing, parted⟩ := Token.parted_flatMap
        (fun _ later => ih _ (mem_cons_of_mem _ later)) parted trivial
      rw [itemTokens_cons, append_assoc]
      exact ih item mem_cons_self closing parted
  | obj members _ ih =>
    rw [tokens, append_assoc, cons_append]
    refine ⟨trivial, ?_⟩
    cases members with
    | nil => exact ⟨trivial, parted⟩
    | cons mem members =>
      have each (mem) (later : mem ∈ members) {rest} (closing : Token.Closing rest)
          (parted : Token.Parted rest) : Token.Parted (memberListed mem ++ rest) :=
        ⟨trivial, trivial, ih mem (mem_cons_of_mem _ later) closing parted⟩
      have parted : Token.Parted (.closeObject :: rest) := ⟨trivial, parted⟩
      obtain ⟨closing, parted⟩ := Token.parted_flatMap each parted trivial
      rw [memberTokens_cons, append_assoc]
      exact ⟨trivial, trivial, ih mem mem_cons_self closing parted⟩

/-- Reading the tokens of the value completes the value. -/
def Reads (value : Json) : Prop :=
  ∀ justOpened frames rest, (value.tokens ++ rest).foldlM step (.value justOpened, frames) =
    rest.foldlM step (.rest value, frames)

private theorem foldlM_items {items : List Json} (reads : ∀ item ∈ items, item.Reads) (value : Json)
    (done : List Json) (frames : List Frame) (rest : List Token) :
    (items.flatMap (.comma :: ·.tokens) ++ .closeArray :: rest).foldlM step
        (.rest value, .array done :: frames) =
      rest.foldlM step (.rest (.arr (done.reverse ++ value :: items)), frames) := by
  induction items generalizing value done with
  | nil => simp [step]
  | cons item items ih =>
    rw [flatMap_cons, append_assoc, cons_append, List.foldlM_cons]
    refine (reads item mem_cons_self _ _ _).trans ?_
    rw [ih fun _ later => reads _ (mem_cons_of_mem _ later)]
    simp

private theorem foldlM_members {members : List (Option String × Json)}
    (reads : ∀ member ∈ members, member.2.Reads) (name : Option String) (value : Json)
    (done : List (Option String × Json)) (frames : List Frame) (rest : List Token) :
    (members.flatMap (.comma :: memberListed ·) ++ .closeObject :: rest).foldlM step
        (.rest value, .object done name :: frames) =
      rest.foldlM step (.rest (.obj (done.reverse ++ (name, value) :: members)), frames) := by
  induction members generalizing name value done with
  | nil => simp [step]
  | cons mem members ih =>
    rw [flatMap_cons, append_assoc, cons_append, List.foldlM_cons]
    refine (reads mem mem_cons_self _ _ _).trans ?_
    rw [ih fun _ later => reads _ (mem_cons_of_mem _ later)]
    simp

private theorem Plain.reads (plain : value.Plain) : value.Reads := by
  induction plain with
  | null | bool | str | nat => exact fun _ _ _ => rfl
  | arr items _ ih =>
    intro justOpened frames rest
    cases items with
    | nil => rfl
    | cons item items =>
      rw [tokens, itemTokens_cons, append_assoc, cons_append, append_assoc]
      refine (ih item mem_cons_self _ _ _).trans ?_
      exact foldlM_items (fun _ later => ih _ (mem_cons_of_mem _ later)) ..
  | obj members _ ih =>
    intro justOpened frames rest
    cases members with
    | nil => rfl
    | cons mem members =>
      rw [tokens, memberTokens_cons, append_assoc, cons_append, append_assoc]
      refine (ih mem mem_cons_self _ _ _).trans ?_
      exact foldlM_members (fun _ later => ih _ (mem_cons_of_mem _ later)) ..

private theorem Plain.parse?_of_spells (plain : value.Plain) {chars : List Char}
    (spells : Token.Spells chars value.tokens) : parse? (String.ofList chars) = some value := by
  have reads := plain.reads false [] []
  rw [List.append_nil] at reads
  simp [parse?, spells.scan?, ofTokens?, reads]

private theorem Plain.parted_tokens (plain : value.Plain) : Token.Parted value.tokens :=
  value.tokens.append_nil ▸ plain.parted trivial trivial

private theorem Plain.parse?_compact (plain : value.Plain) : parse? value.compact = some value :=
  plain.parse?_of_spells plain.parted_tokens.spells

private theorem Plain.parse?_pretty (plain : value.Plain) : parse? value.pretty = some value :=
  plain.parse?_of_spells (plain.parted_tokens.spells_spread 0)

private theorem Plain.object {members : List (String × Json)}
    (plain : ∀ member ∈ members, member.2.Plain) : (object members).Plain := by
  refine .obj _ fun mem listed => ?_
  obtain ⟨given, among, rfl⟩ := mem_map.mp listed
  exact plain given among

private theorem Plain.map {α : Type} {write : α → Json} {items : List α}
    (plain : ∀ item ∈ items, (write item).Plain) : (Json.arr (items.map write)).Plain := by
  refine .arr _ fun json listed => ?_
  obtain ⟨item, among, rfl⟩ := mem_map.mp listed
  exact plain item among

private theorem list?_map {α : Type} {read? : Json → Option α} {write : α → Json} {items : List α}
    (reads : ∀ item ∈ items, read? (write item) = some item) :
    list? read? (.arr (items.map write)) = some items := by
  rw [list?]
  induction items with
  | nil => rfl
  | cons item items ih =>
    rw [List.map_cons, List.mapM_cons, reads item mem_cons_self,
      ih fun _ later => reads _ (mem_cons_of_mem _ later)]
    rfl

end Json

namespace Handle

variable {role : Role}

/-- The number of the handle has at most 64 bits. -/
def Fits (handle : Handle role) : Prop := handle.raw < UInt64.size

private theorem plain_toJson (handle : Handle role) : handle.toJson.Plain :=
  .nat _

private theorem ofJson?_toJson {handle : Handle role} (fits : handle.Fits) :
    ofJson? handle.toJson = some handle :=
  if_pos fits

end Handle

private theorem DataType.plain_toJson (dataType : DataType) : dataType.toJson.Plain :=
  .str _

private theorem DataType.ofJson?_toJson (dataType : DataType) :
    DataType.ofJson? dataType.toJson = some dataType :=
  rfl

namespace ShuffleKey

private theorem plain_toJson (key : ShuffleKey) : key.toJson.Plain := by
  refine .object fun mem listed => ?_
  simp only [List.mem_cons, List.not_mem_nil, or_false] at listed
  obtain rfl | rfl := listed <;> exact .map fun _ _ => .str _

private theorem ofJson?_toJson (key : ShuffleKey) : ofJson? key.toJson = some key := by
  have fields : key.toJson.fields? ["grouping", "ordering"] false =
      some [some (.arr (key.grouping.map Json.text)),
        some (.arr (key.ordering.map Json.text))] := by
    simp [toJson, Json.object, Json.fields?, Json.member?]
  have texts (words : List String) :
      (Json.arr (words.map Json.text)).list? Json.text? = some words :=
    Json.list?_map fun _ _ => rfl
  simp [ofJson?, fields, texts]

end ShuffleKey

namespace Diagnostic

/-- All handles of the problem have at most 64 bits. -/
def Fits (diagnostic : Diagnostic) : Prop :=
  (∀ part ∈ diagnostic.scope, part.Fits) ∧ ∀ node ∈ diagnostic.nodes, node.Fits

private theorem plain_toJson (diagnostic : Diagnostic) : diagnostic.toJson.Plain := by
  refine .object fun mem listed => ?_
  simp only [List.mem_cons, List.not_mem_nil, or_false] at listed
  obtain rfl | rfl | rfl := listed
  · cases diagnostic.scope with
    | none => exact .null
    | some part => exact part.plain_toJson
  · exact .map fun node _ => node.plain_toJson
  · exact .str _

private theorem ofJson?_toJson {diagnostic : Diagnostic} (fits : diagnostic.Fits) :
    ofJson? diagnostic.toJson = some diagnostic := by
  have fields : diagnostic.toJson.fields? ["scope", "nodes", "message"] false =
      some [some ((diagnostic.scope.map Handle.toJson).getD .null),
        some (.arr (diagnostic.nodes.map Handle.toJson)), some (.text diagnostic.message)] := by
    simp [toJson, Json.object, Json.fields?, Json.member?]
  have scope : ((diagnostic.scope.map Handle.toJson).getD .null).optional? Handle.ofJson? =
      some diagnostic.scope := by
    cases given : diagnostic.scope with
    | none => rfl
    | some part => exact congrArg (Option.map some) (Handle.ofJson?_toJson (fits.1 part given))
  have nodes := Json.list?_map fun node listed => Handle.ofJson?_toJson (fits.2 node listed)
  simp [ofJson?, fields, scope, nodes, Json.text, Json.text?]

end Diagnostic

namespace Report

def Fits (report : Report) : Prop := ∀ diagnostic ∈ report.items, diagnostic.Fits

private theorem plain_itemsJson (report : Report) : report.itemsJson.Plain :=
  .map fun diagnostic _ => diagnostic.plain_toJson

private theorem list?_itemsJson {report : Report} (fits : report.Fits) :
    report.itemsJson.list? Diagnostic.ofJson? = some report.items :=
  Json.list?_map fun diagnostic listed => Diagnostic.ofJson?_toJson (fits diagnostic listed)

private theorem plain_toJson (report : Report) : report.toJson.Plain := by
  refine .object fun mem listed => ?_
  obtain rfl := List.mem_singleton.mp listed
  exact report.plain_itemsJson

private theorem ofJson?_toJson {report : Report} (fits : report.Fits) :
    ofJson? report.toJson = some report := by
  have fields : report.toJson.fields? ["items"] false = some [some report.itemsJson] := by
    simp [toJson, Json.object, Json.fields?, Json.member?]
  simp [ofJson?, fields, list?_itemsJson fits]

end Report

namespace Options

private theorem foldlM_insert (entries : List (String × String))
    (attributes : ExtTreeMap String String) :
    (entries.map fun entry => (some entry.1, Json.text entry.2)).foldlM
        (fun (attributes : ExtTreeMap String String) (mem : Option String × Json) => do
          return attributes.insert (← mem.1) (← mem.2.text?)) attributes =
      some (attributes.insertMany entries) := by
  induction entries generalizing attributes with
  | nil => simp
  | cons entry entries ih =>
    rw [List.map_cons, List.foldlM_cons, ExtTreeMap.insertMany_cons]
    exact ih _

private theorem insertMany_toList (attributes : ExtTreeMap String String) :
    (∅ : ExtTreeMap String String).insertMany attributes.toList = attributes := by
  rw [← ExtTreeMap.ofList_eq_insertMany_empty]
  refine ExtTreeMap.ext_getElem? fun name => ?_
  cases found : attributes[name]? with
  | some value =>
    exact ExtTreeMap.getElem?_ofList_of_mem Std.ReflCmp.compare_self
      ExtTreeMap.distinct_keys_toList
      (ExtTreeMap.mem_toList_iff_getElem?_eq_some.mpr found)
  | none =>
    refine ExtTreeMap.getElem?_ofList_of_contains_eq_false (Bool.eq_false_iff.mpr ?_)
    intro listed
    obtain ⟨entry, among, rfl⟩ := mem_map.mp (List.contains_iff_mem.mp listed)
    rw [ExtTreeMap.mem_toList_iff_getElem?_eq_some.mp among] at found
    cases found

private theorem plain_toJson (options : Options) : options.toJson.Plain := by
  refine .object fun mem listed => ?_
  simp only [List.mem_cons, List.not_mem_nil, or_false] at listed
  obtain rfl | rfl | rfl := listed
  · exact .str _
  · cases options.compress with
    | none => exact .null
    | some value => exact .bool value
  · refine .object fun mem listed => ?_
    obtain ⟨entry, _, rfl⟩ := mem_map.mp listed
    exact .str _

private theorem attributesOfJson?_object (attributes : ExtTreeMap String String) :
    attributesOfJson? (.object
        (attributes.toList.map fun (name, value) => (name, Json.text value))) =
      some attributes := by
  rw [Json.object, List.map_map]
  exact (foldlM_insert _ _).trans (congrArg some (insertMany_toList attributes))

private theorem ofJson?_toJson (options : Options) : ofJson? options.toJson = some options := by
  have fields : options.toJson.fields?
        ["flow_parts", "compress_flow_block_group", "extra_attributes"] true =
      some [some options.flowParts.toJson, some ((options.compress.map Json.bool).getD .null),
        some (.object (options.attributes.toList.map
          fun (name, value) => (name, Json.text value)))] := by
    simp [toJson, Json.object, Json.fields?, Json.member?]
  have mode : FlowPartMode.ofJson? options.flowParts.toJson = some options.flowParts := by
    cases options.flowParts <;> decide
  have compress : compressOfJson? ((options.compress.map Json.bool).getD .null) =
      some options.compress := by
    cases options.compress <;> rfl
  simp [ofJson?, fields, mode, compress, attributesOfJson?_object]

end Options

/-- Reading the text that was written gives the value back: of options, of
problems alone and together, of keys, of types and of handles. -/
theorem reads_written :
    (∀ options : Options, Options.parse? options.toJson.compact = some options) ∧
    (∀ diagnostic : Diagnostic, diagnostic.Fits →
      (Json.parse? diagnostic.toJson.compact).bind Diagnostic.ofJson? = some diagnostic) ∧
    (∀ report : Report, report.Fits →
      (Json.parse? report.toJson.compact).bind Report.ofJson? = some report) ∧
    (∀ key : ShuffleKey, (Json.parse? key.toJson.compact).bind ShuffleKey.ofJson? = some key) ∧
    (∀ dataType : DataType,
      (Json.parse? dataType.toJson.compact).bind DataType.ofJson? = some dataType) ∧
    (∀ {role : Role} (handle : Handle role), handle.Fits →
      (Json.parse? handle.toJson.compact).bind Handle.ofJson? = some handle) ∧
    ∀ report : Report, report.Fits →
      (Json.parse? report.itemsJson.pretty).bind (Json.list? Diagnostic.ofJson?) =
        some report.items := by
  refine ⟨fun options => ?_, fun diagnostic fits => ?_, fun report fits => ?_, fun key => ?_,
    fun dataType => ?_, fun handle fits => ?_, fun report fits => ?_⟩
  · rw [Options.parse?, options.plain_toJson.parse?_compact]
    exact options.ofJson?_toJson
  · rw [diagnostic.plain_toJson.parse?_compact]
    exact Diagnostic.ofJson?_toJson fits
  · rw [report.plain_toJson.parse?_compact]
    exact Report.ofJson?_toJson fits
  · rw [key.plain_toJson.parse?_compact]
    exact key.ofJson?_toJson
  · rw [dataType.plain_toJson.parse?_compact]
    exact dataType.ofJson?_toJson
  · rw [handle.plain_toJson.parse?_compact]
    exact Handle.ofJson?_toJson fits
  · rw [report.plain_itemsJson.parse?_pretty]
    exact Report.list?_itemsJson fits

/-- A report with the greatest handle, and with characters in its message that have to be
escaped. -/
def trickyReport : Report :=
  ⟨[⟨some ⟨UInt64.size - 1⟩, [⟨0⟩, ⟨10⟩], "\"a\\\n\x01\x1f é 𝄞"⟩, ⟨none, [], ""⟩]⟩

theorem reads_written_tricky : trickyReport.Fits ∧
    (Json.parse? trickyReport.toJson.compact).bind Report.ofJson? = some trickyReport ∧
    (Json.parse? trickyReport.itemsJson.pretty).bind (Json.list? Diagnostic.ofJson?) =
      some trickyReport.items := by
  have fits : trickyReport.Fits := by
    simp [trickyReport, Report.Fits, Diagnostic.Fits, Handle.Fits, UInt64.size]
  exact ⟨fits, reads_written.2.2.1 _ fits, reads_written.2.2.2.2.2.2 _ fits⟩

end Staging
