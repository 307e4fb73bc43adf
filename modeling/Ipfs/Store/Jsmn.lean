import Ipfs.Lib.Json
import Ipfs.Lib.Outcome
import Ipfs.Lib.Run

/-!
# The JSON tokenizer

jsmn goes over the text once. It fills an array of tokens that say where in the text each value stands, and
remembers the token that the next one belongs to.
-/

namespace Ipfs

inductive JsmnError
  | nomem
  | inval
  | part
  deriving DecidableEq

structure JsmnToken where
  type : JsonToken.Kind
  start : Nat
  -- `end`, which is -1 as long as the token is open
  stop : Option Nat
  size : Nat := 0
  deriving DecidableEq

def JsmnToken.isOpen (token : JsmnToken) : Bool := token.stop.isNone

/-- `jsmn_parser`, with the tokens up to `toknext`. -/
structure JsmnParser where
  pos : Nat := 0
  tokens : List JsmnToken := []
  toksuper : Option Nat := none
  deriving DecidableEq

/-! ## Characters -/

/-- The cases of the `switch`. -/
inductive JsonSign
  | opens (type : JsonToken.Kind)
  | closes (type : JsonToken.Kind)
  | quote
  | white
  | colon
  | comma
  | other
  deriving DecidableEq

def jsonSign (c : UInt8) : JsonSign :=
  if c = 0x7b then .opens .object
  else if c = 0x5b then .opens .array
  else if c = 0x7d then .closes .object
  else if c = 0x5d then .closes .array
  else if c = 0x22 then .quote
  else if c = 0x09 ∨ c = 0x0d ∨ c = 0x0a ∨ c = 0x20 then .white
  else if c = 0x3a then .colon
  else if c = 0x2c then .comma
  else .other

/-- What stands behind a primitive. -/
def JsonSign.endsPrimitive : JsonSign → Bool
  | .white | .colon | .comma | .closes _ => true
  | _ => false

def isHexDigit (c : UInt8) : Bool := (0x30 ≤ c && c ≤ 0x39) || (0x41 ≤ c && c ≤ 0x46) || (0x61 ≤ c && c ≤ 0x66)

/-- A quote, a slash, a backslash, b, f, r, n or t. -/
def isEscaped (c : UInt8) : Bool := c ∈ [0x22, 0x2f, 0x5c, 0x62, 0x66, 0x72, 0x6e, 0x74]

/-- Where the loop over a string is: between symbols, behind a backslash, or in \uXXXX before a digit with so many
more behind it. -/
inductive StringPlace
  | symbol
  | escape
  | digit (more : Nat)
  deriving DecidableEq

/-- The loop of `jsmn_parse_string`: how many characters there are before the closing quote. -/
def jsmnStringLength : StringPlace → Bytes → Except JsmnError Nat
  | _, [] => .error .part
  | .symbol, c :: text =>
      if c = 0 then .error .part
      else if c = 0x22 then .ok 0
      else (jsmnStringLength (if c = 0x5c then .escape else .symbol) text).map (· + 1)
  | .escape, c :: text =>
      if isEscaped c then (jsmnStringLength .symbol text).map (· + 1)
      else if c = 0x75 then (jsmnStringLength (.digit 3) text).map (· + 1)
      else .error .inval
  | .digit more, c :: text =>
      -- the digits may be cut short by the end of the text, and so is the string
      if c = 0 then .error .part
      else if isHexDigit c then
        (jsmnStringLength (match more with | 0 => .symbol | more + 1 => .digit more) text).map (· + 1)
      else .error .inval

/-- The loop of `jsmn_parse_primitive`. A character from 128 on is negative. -/
def jsmnPrimitiveLength : Bytes → Except JsmnError Nat
  | [] => .ok 0
  | c :: text =>
      if c = 0 then .ok 0
      else if (jsonSign c).endsPrimitive then .ok 0
      else if c < 32 ∨ 127 ≤ c then .error .inval
      else (jsmnPrimitiveLength text).map (· + 1)

/-! ## Tokens -/

/-- The loop back over the tokens. -/
def searchBack {α : Type} (test : α → Bool) (tokens : List α) : Nat → Option Nat
  | 0 => none
  | i + 1 => if tokens[i]?.any test then some i else searchBack test tokens i

def lastOpen (tokens : List JsmnToken) : Option Nat := searchBack JsmnToken.isOpen tokens tokens.length

namespace JsmnParser

/-- `jsmn_alloc_token` and `jsmn_fill_token`. There is no array when `tokens` is NULL. -/
def allocToken (room : Option Nat) (token : JsmnToken) (parser : JsmnParser) : Except JsmnError JsmnParser :=
  match room with
  | none => .ok parser
  | some numTokens =>
      if numTokens ≤ parser.tokens.length then .error .nomem
      else .ok { parser with tokens := parser.tokens ++ [token] }

/-- `tokens[parser->toksuper].size++`. -/
def growSuper (room : Option Nat) (parser : JsmnParser) : Outcome JsmnParser :=
  match room, parser.toksuper with
  | some _, some i => do
      let super ← .access .outOfBounds parser.tokens[i]?
      pure { parser with tokens := parser.tokens.set i { super with size := super.size + 1 } }
  | _, _ => .returned parser

def toknextBefore (parser : JsmnParser) : Option Nat :=
  if parser.tokens.length = 0 then none else some (parser.tokens.length - 1)

/-- The case of an opening bracket. -/
def openBracket (room : Option Nat) (type : JsonToken.Kind) (parser : JsmnParser) :
    Outcome (Except JsmnError JsmnParser) :=
  match parser.allocToken room { type, start := parser.pos, stop := none } with
  | .error error => .returned (.error error)
  | .ok allocated => do
      let parser ← allocated.growSuper room
      pure (.ok (if room.isNone then parser else { parser with toksuper := parser.toknextBefore }))

/-- The case of a closing bracket. -/
def closeBracket (room : Option Nat) (type : JsonToken.Kind) (parser : JsmnParser) :
    Outcome (Except JsmnError JsmnParser) :=
  if room.isNone then .returned (.ok parser)
  else match lastOpen parser.tokens with
    | none => .returned (.error .inval)
    | some i => do
        let token ← .access .outOfBounds parser.tokens[i]?
        if token.type ≠ type then pure (.error .inval)
        else
          let tokens := parser.tokens.set i { token with stop := some (parser.pos + 1) }
          pure (.ok { parser with tokens, toksuper := searchBack JsmnToken.isOpen tokens (i + 1) })

/-- `jsmn_parse_string` or `jsmn_parse_primitive`, and what is done behind it; the position is that of the last
character. -/
def parseLeaf (room : Option Nat) (token : JsmnToken) (last : Nat) (parser : JsmnParser) :
    Outcome (Except JsmnError JsmnParser) :=
  match parser.allocToken room token with
  | .error error => .returned (.error error)
  | .ok allocated => do
      let parser ← { allocated with pos := last }.growSuper room
      pure (.ok parser)

/-- The case of a comma. -/
def comma (room : Option Nat) (parser : JsmnParser) : Outcome JsmnParser :=
  match room, parser.toksuper with
  | some _, some i => do
      let super ← .access .outOfBounds parser.tokens[i]?
      if super.type ≠ .array ∧ super.type ≠ .object then
        match searchBack (fun token => (token.type = .array || token.type = .object) && token.isOpen) parser.tokens
            parser.tokens.length with
        | none => pure parser
        | some j => pure { parser with toksuper := some j }
      else pure parser
  | _, _ => .returned parser

end JsmnParser

/-! ## Parsing -/

/-- What `jsmn_parse` returns, and the parser that it leaves. -/
abbrev JsmnResult := Outcome (Except JsmnError Nat) × JsmnParser

/-- A round of the loop, up to the step to the next character, and how many tokens it counts. -/
def jsmnCharacter (js : Bytes) (room : Option Nat) (c : UInt8) (parser : JsmnParser) :
    Outcome (Except JsmnError (JsmnParser × Nat)) :=
  let counted (n : Nat) (result : Except JsmnError JsmnParser) : Except JsmnError (JsmnParser × Nat) :=
    result.map (·, n)
  match jsonSign c with
  | .opens type => counted 1 <$> parser.openBracket room type
  | .closes type => counted 0 <$> parser.closeBracket room type
  | .quote =>
      match jsmnStringLength .symbol (js.drop (parser.pos + 1)) with
      | .error error => .returned (.error error)
      | .ok length =>
          let stop := parser.pos + 1 + length
          counted 1 <$> parser.parseLeaf room { type := .string, start := parser.pos + 1, stop := some stop } stop
  | .white => .returned (.ok (parser, 0))
  | .colon => .returned (.ok ({ parser with toksuper := parser.toknextBefore }, 0))
  | .comma => (fun parser => .ok (parser, 0)) <$> parser.comma room
  | .other =>
      match jsmnPrimitiveLength (js.drop parser.pos) with
      | .error error => .returned (.error error)
      | .ok length =>
          let stop := parser.pos + length
          counted 1 <$> parser.parseLeaf room { type := .primitive, start := parser.pos, stop := some stop } (stop - 1)

/-- On to the next character, or out of the loop. -/
def jsmnAdvance (parser : JsmnParser) (count : Nat) :
    Outcome (Except JsmnError (JsmnParser × Nat)) → JsmnResult ⊕ (JsmnParser × Nat)
  | .returned (.ok (parser', n)) => .inr ({ parser' with pos := parser'.pos + 1 }, count + n)
  | .returned (.error error) => .inl (.returned (.error error), parser)
  | .failed => .inl (.failed, parser)
  | .fault cause => .inl (.fault cause, parser)

def jsmnLoop (js : Bytes) (room : Option Nat) : Loop (JsmnParser × Nat) JsmnResult where
  step state :=
    match state with
    | (parser, count) =>
        match js[parser.pos]?.filter (· ≠ 0) with
        | none =>
            -- unmatched opened object or array
            if room.isSome ∧ parser.tokens.any JsmnToken.isOpen then .inl (.returned (.error .part), parser)
            else .inl (.returned (.ok count), parser)
        | some c => jsmnAdvance parser count (jsmnCharacter js room c parser)

/-- `jsmn_parse`: it begins where the parser stands, and needs no more rounds than there are characters left. -/
def jsmnParse (js : Bytes) (room : Option Nat) (parser : JsmnParser) : Option JsmnResult :=
  (jsmnLoop js room).run (js.length - parser.pos + 1) (parser, parser.tokens.length)

/-! ## Strings and primitives -/

/-- What may stand between quotes. -/
inductive JsonChars : Bytes → Prop
  | nil : JsonChars []
  | symbol {c : UInt8} {text : Bytes} (plain : c ≠ 0 ∧ c ≠ 0x22 ∧ c ≠ 0x5c) (rest : JsonChars text) :
      JsonChars (c :: text)
  | escape {c : UInt8} {text : Bytes} (escaped : isEscaped c) (rest : JsonChars text) : JsonChars (0x5c :: c :: text)
  | unicode {digits text : Bytes} (four : digits.length = 4) (hex : ∀ c ∈ digits, isHexDigit c)
      (rest : JsonChars text) : JsonChars (0x5c :: 0x75 :: (digits ++ text))

/-- What may stand there from a place on. -/
def JsonCharsFrom : StringPlace → Bytes → Prop
  | .symbol, text => JsonChars text
  | .escape, text => JsonChars (0x5c :: text)
  | .digit more, text =>
      ∃ digits behind, text = digits ++ behind ∧ digits.length = more + 1 ∧ (∀ c ∈ digits, isHexDigit c) ∧
        JsonChars behind

theorem map_succ_eq_ok {x : Except JsmnError Nat} {n : Nat} :
    x.map (· + 1) = .ok n ↔ ∃ m, x = .ok m ∧ n = m + 1 := by
  cases x with
  | error e => simp [Except.map]
  | ok m => simp [Except.map, eq_comm]

theorem isHexDigit_ne_zero {c : UInt8} (hex : isHexDigit c) : c ≠ 0 := by
  rintro rfl
  revert hex
  decide

theorem jsmnStringLength_digits {more : Nat} {digits : Bytes} (length : digits.length = more + 1)
    (hex : ∀ c ∈ digits, isHexDigit c) (text : Bytes) {n : Nat} (rest : jsmnStringLength .symbol text = .ok n) :
    jsmnStringLength (.digit more) (digits ++ text) = .ok (digits.length + n) := by
  induction more generalizing digits with
  | zero =>
      obtain ⟨c, rfl⟩ := List.length_eq_one_iff.mp length
      have first := hex c (by simp)
      simp [jsmnStringLength, isHexDigit_ne_zero first, first, rest, Except.map, Nat.add_comm]
  | succ more ih =>
      obtain ⟨c, digits, rfl⟩ := List.exists_cons_of_length_eq_add_one length
      have first := hex c (by simp)
      have later := ih (by simpa using length) fun d mem => hex d (by simp [mem])
      simp [jsmnStringLength, isHexDigit_ne_zero first, first, later, Except.map]
      omega

theorem jsmnStringLength_of_chars {inner : Bytes} (chars : JsonChars inner) (rest : Bytes) :
    jsmnStringLength .symbol (inner ++ 0x22 :: rest) = .ok inner.length := by
  induction chars with
  | nil => simp [jsmnStringLength]
  | symbol plain _ ih => simp [jsmnStringLength, plain.1, plain.2.1, plain.2.2, ih, Except.map]
  | escape escaped _ ih => simp [jsmnStringLength, escaped, ih, Except.map]
  | unicode four hex _ ih =>
      have digits := jsmnStringLength_digits four hex _ ih
      have other : isEscaped 0x75 = false := by decide
      simp [jsmnStringLength, other, digits, Except.map]

theorem jsmnStringLength_eq_ok {place : StringPlace} {text : Bytes} {n : Nat}
    (parsed : jsmnStringLength place text = .ok n) :
    ∃ inner rest, text = inner ++ 0x22 :: rest ∧ inner.length = n ∧ JsonCharsFrom place inner := by
  induction text generalizing place n with
  | nil => cases place <;> cases parsed
  | cons c text ih =>
      cases place with
      | symbol =>
          rw [jsmnStringLength] at parsed
          split at parsed
          · cases parsed
          · split at parsed
            · obtain rfl := Except.ok.inj parsed
              exact ⟨[], text, by simp [*], rfl, .nil⟩
            · obtain ⟨m, later, rfl⟩ := map_succ_eq_ok.mp parsed
              obtain ⟨inner, rest, rfl, rfl, chars⟩ := ih later
              refine ⟨c :: inner, rest, rfl, rfl, ?_⟩
              by_cases backslash : c = 0x5c
              · rw [if_pos backslash] at chars
                exact backslash ▸ chars
              · rw [if_neg backslash] at chars
                exact .symbol ⟨‹_›, ‹_›, backslash⟩ chars
      | escape =>
          unfold jsmnStringLength at parsed
          split at parsed
          · obtain ⟨m, later, rfl⟩ := map_succ_eq_ok.mp parsed
            obtain ⟨inner, rest, rfl, rfl, chars⟩ := ih later
            exact ⟨c :: inner, rest, rfl, rfl, .escape ‹_› chars⟩
          · split at parsed
            · obtain ⟨m, later, rfl⟩ := map_succ_eq_ok.mp parsed
              obtain ⟨inner, rest, rfl, rfl, digits, behind, rfl, four, hex, chars⟩ := ih later
              exact ⟨c :: (digits ++ behind), rest, by simp, rfl, by simpa [*] using .unicode four hex chars⟩
            · cases parsed
      | digit more =>
          unfold jsmnStringLength at parsed
          split at parsed
          · cases parsed
          · split at parsed
            · obtain ⟨m, later, rfl⟩ := map_succ_eq_ok.mp parsed
              obtain ⟨inner, rest, rfl, rfl, chars⟩ := ih later
              refine ⟨c :: inner, rest, rfl, rfl, ?_⟩
              cases more with
              | zero => exact ⟨[c], inner, rfl, rfl, by simpa, chars⟩
              | succ more =>
                  obtain ⟨digits, behind, rfl, length, hex, chars⟩ := chars
                  refine ⟨c :: digits, behind, rfl, by simp [length], ?_, chars⟩
                  simpa using ⟨‹_›, hex⟩
            · cases parsed

theorem jsmnStringLength_iff {text : Bytes} {n : Nat} :
    jsmnStringLength .symbol text = .ok n ↔
      ∃ inner rest, text = inner ++ 0x22 :: rest ∧ inner.length = n ∧ JsonChars inner := by
  constructor
  · exact jsmnStringLength_eq_ok
  · rintro ⟨inner, rest, rfl, rfl, chars⟩
    exact jsmnStringLength_of_chars chars rest

/-- A character of a primitive. -/
def PrimitiveChar (c : UInt8) : Prop := c ≠ 0 ∧ (jsonSign c).endsPrimitive = false ∧ 32 ≤ c ∧ c < 127

/-- What stands behind a primitive: the end of the text, or something else. -/
def EndsPrimitive (rest : Bytes) : Prop := ∀ c ∈ rest.head?, c = 0 ∨ (jsonSign c).endsPrimitive

theorem jsmnPrimitiveLength_iff {text : Bytes} {n : Nat} :
    jsmnPrimitiveLength text = .ok n ↔
      ∃ inner rest, text = inner ++ rest ∧ inner.length = n ∧ (∀ c ∈ inner, PrimitiveChar c) ∧ EndsPrimitive rest := by
  constructor
  · intro parsed
    induction text generalizing n with
    | nil =>
        obtain rfl := Except.ok.inj parsed
        exact ⟨[], [], rfl, rfl, by simp, by simp [EndsPrimitive]⟩
    | cons c text ih =>
        rw [jsmnPrimitiveLength] at parsed
        split at parsed
        · obtain rfl := Except.ok.inj parsed
          exact ⟨[], c :: text, rfl, rfl, by simp, by simp [EndsPrimitive, *]⟩
        · split at parsed
          · obtain rfl := Except.ok.inj parsed
            exact ⟨[], c :: text, rfl, rfl, by simp, by simp [EndsPrimitive, *]⟩
          · split at parsed
            · cases parsed
            · obtain ⟨m, later, rfl⟩ := map_succ_eq_ok.mp parsed
              obtain ⟨inner, rest, rfl, rfl, chars, ends⟩ := ih later
              refine ⟨c :: inner, rest, rfl, rfl, ?_, ends⟩
              rename_i nonzero goes printable
              rw [not_or, UInt8.not_lt, UInt8.not_le] at printable
              exact List.forall_mem_cons.mpr ⟨⟨nonzero, Bool.not_eq_true _ ▸ goes, printable⟩, chars⟩
  · rintro ⟨inner, rest, rfl, rfl, chars, ends⟩
    induction inner with
    | nil =>
        cases rest with
        | nil => rfl
        | cons c rest =>
            rcases ends c rfl with rfl | sign
            · simp [jsmnPrimitiveLength]
            · by_cases zero : c = 0
              · simp [jsmnPrimitiveLength, zero]
              · simp [jsmnPrimitiveLength, zero, sign]
    | cons c inner ih =>
        obtain ⟨⟨nonzero, goes, low, high⟩, later⟩ := List.forall_mem_cons.mp chars
        have printable : ¬ (c < 32 ∨ 127 ≤ c) := by
          rw [not_or, UInt8.not_lt, UInt8.not_le]
          exact ⟨low, high⟩
        rw [List.cons_append, jsmnPrimitiveLength, if_neg nonzero, if_neg (by simp [goes]), if_neg printable, ih later]
        rfl

end Ipfs
