import Ipfs.Lib.Wire

/-!
# Reading a message by its schema

A message is read as a list of fields in any order. A field that the schema does not have, or has with
another wire type, is skipped, and so is a group. Of a scalar the last field counts.
-/

namespace Schema

inductive Value
  | varint (n : Nat)
  | fixed64 (bytes : Bytes)
  | lengthDelimited (data : Bytes)
  | startGroup
  | endGroup
  | fixed32 (bytes : Bytes)

structure Token where
  field : Nat
  value : Value

def readFixed (size : Nat) (value : Bytes → Value) (window : Bytes) : Option (Value × Nat) :=
  if size ≤ window.length then some (value (window.take size), size) else none

/-- The value at the front of the window, and the number of bytes that it takes. -/
def readValue : WireType → Bytes → Option (Value × Nat)
  | .varint, window => do
      let (n, size) ← Leb128.decode window
      if size ≤ 10 then some (.varint (n % 2 ^ 64), size) else none
  | .fixed64, window => readFixed 8 .fixed64 window
  | .lengthDelimited, window => do
      let (n, size) ← Leb128.decode window
      if size ≤ 10 ∧ size + n ≤ window.length then
        some (.lengthDelimited ((window.drop size).take n), size + n)
      else none
  | .startGroup, _ => some (.startGroup, 0)
  | .endGroup, _ => some (.endGroup, 0)
  | .fixed32, window => readFixed 4 .fixed32 window

def readToken (window : Bytes) : Option (Token × Nat) := do
  let (key, size) ← Leb128.decode window
  let type ← WireType.ofCode (key % 8)
  if 0 < key / 8 ∧ key / 8 < 2 ^ 29 then do
    let (value, n) ← readValue type (window.drop size)
    some (⟨key / 8, value⟩, size + n)
  else none

def readTokens : Nat → Bytes → Option (List Token)
  | _, [] => some []
  | 0, _ :: _ => none
  | fuel + 1, byte :: bytes => do
      let (token, n) ← readToken (byte :: bytes)
      let later ← readTokens fuel ((byte :: bytes).drop n)
      some (token :: later)

def tokens (bytes : Bytes) : Option (List Token) := readTokens bytes.length bytes

/-- The tokens outside of the groups, given the groups that are open. -/
def topLevel : List Nat → List Token → Option (List Token)
  | [], [] => some []
  | _ :: _, [] => none
  | opened, ⟨field, .startGroup⟩ :: later => topLevel (field :: opened) later
  | [], ⟨_, .endGroup⟩ :: _ => none
  | group :: opened, ⟨field, .endGroup⟩ :: later => if field = group then topLevel opened later else none
  | [], token :: later => (topLevel [] later).map (token :: ·)
  | group :: opened, _ :: later => topLevel (group :: opened) later

/-- What a field of the schema does with its value. -/
inductive Reader (σ : Type)
  | varint (store : σ → Nat → σ)
  | lengthDelimited (store : σ → Bytes → Option σ)

section
variable {σ : Type} (fields : Nat → Option (Reader σ))

def store (s : σ) (token : Token) : Option σ :=
  match fields token.field, token.value with
  | some (.varint store), .varint n => some (store s n)
  | some (.lengthDelimited store), .lengthDelimited data => store s data
  | _, _ => some s

/-- The message, merged into one that was read before. -/
def parse (s : σ) (bytes : Bytes) : Option σ := do
  let all ← tokens bytes
  let own ← topLevel [] all
  own.foldlM (store fields) s

end

/-! ## Tokens of what is written -/

theorem readToken_bound {window : Bytes} {token : Token} {n : Nat} (read : readToken window = some (token, n)) : 0 < n := by
  simp only [readToken, Option.bind_eq_bind, Option.bind_eq_some_iff] at read
  obtain ⟨⟨key, size⟩, decoded, type, _, rest⟩ := read
  have pos := (Leb128.decode_bound decoded).1
  split at rest
  · obtain ⟨⟨value, m⟩, _, same⟩ := Option.bind_eq_some_iff.mp rest
    simp only [Option.some.injEq, Prod.mk.injEq] at same
    omega
  · cases rest

theorem readTokens_stable (fuel fuel' : Nat) (bytes : Bytes) (enough : bytes.length ≤ fuel) (enough' : bytes.length ≤ fuel') :
    readTokens fuel bytes = readTokens fuel' bytes := by
  induction fuel generalizing fuel' bytes with
  | zero =>
      obtain rfl := List.eq_nil_of_length_eq_zero (Nat.le_zero.mp enough)
      cases fuel' <;> rfl
  | succ fuel ih =>
      cases bytes with
      | nil => cases fuel' <;> rfl
      | cons byte bytes =>
          cases fuel' with
          | zero => cases enough'
          | succ fuel' =>
              rw [readTokens, readTokens]
              cases read : readToken (byte :: bytes) with
              | none => rfl
              | some token =>
                  have pos := readToken_bound read
                  have rest := ih fuel' ((byte :: bytes).drop token.2)
                    (by simp only [List.length_drop, List.length_cons] at enough ⊢; omega)
                    (by simp only [List.length_drop, List.length_cons] at enough' ⊢; omega)
                  simp only [Option.bind_eq_bind, Option.bind_some, rest]

theorem tokens_of_readToken {bytes : Bytes} {token : Token} {n : Nat} (filled : bytes ≠ [])
    (read : readToken bytes = some (token, n)) : tokens bytes = (tokens (bytes.drop n)).map (token :: ·) := by
  cases bytes with
  | nil => exact absurd rfl filled
  | cons byte bytes =>
      have pos := readToken_bound read
      have rest := readTokens_stable bytes.length ((byte :: bytes).drop n).length ((byte :: bytes).drop n)
        (by simp only [List.length_drop, List.length_cons]; omega) le_rfl
      rw [tokens, List.length_cons, readTokens, read, tokens, ← rest]
      simp only [Option.bind_eq_bind, Option.bind_some]
      cases readTokens bytes.length ((byte :: bytes).drop n) <;> rfl

/-- The bytes are whole fields. -/
def Reads (bytes : Bytes) (read : List Token) : Prop :=
  ∀ rest, tokens (bytes ++ rest) = (tokens rest).map (read ++ ·)

theorem Reads.nil : Reads [] [] := by
  intro rest
  cases h : tokens rest <;> simp [h]

theorem Reads.append {bytes bytes' : Bytes} {read read' : List Token} (first : Reads bytes read)
    (second : Reads bytes' read') : Reads (bytes ++ bytes') (read ++ read') := by
  intro rest
  rw [List.append_assoc, first, second, Option.map_map]
  simp [Function.comp_def]

theorem Reads.flatMap {α : Type} {write : α → Bytes} {token : α → Token} (items : List α)
    (each : ∀ item ∈ items, Reads (write item) [token item]) : Reads (items.flatMap write) (items.map token) := by
  induction items with
  | nil => exact .nil
  | cons item items ih =>
      rw [List.flatMap_cons]
      exact (each item List.mem_cons_self).append (ih fun item' mem => each item' (List.mem_cons_of_mem _ mem))

theorem Reads.tokens {bytes : Bytes} {read : List Token} (reads : Reads bytes read) : tokens bytes = some read := by
  have whole := reads []
  have none : Schema.tokens [] = some [] := rfl
  rwa [List.append_nil, none, Option.map_some, List.append_nil] at whole

section
variable {field : Nat} (pos : 0 < field) (bound : field < 2 ^ 29)
include pos bound

theorem readToken_tag (type : WireType) (window : Bytes) : readToken (Wire.tag field type ++ window) =
    (readValue type window).map fun (value, n) => (⟨field, value⟩, (Wire.tag field type).length + n) := by
  have lt := type.code_lt
  have quotient : (8 * field + type.code) / 8 = field := by omega
  have remainder : (8 * field + type.code) % 8 = type.code := by omega
  simp only [readToken, Wire.tag, Leb128.decode_encode, Option.bind_eq_bind, Option.bind_some, quotient, remainder,
    WireType.ofCode_code, pos, bound, and_self, if_true, List.drop_left]
  cases readValue type window <;> rfl

theorem Reads.varintField {n : Nat} (small : n < 2 ^ 64) : Reads (Wire.varintField field .varint n) [⟨field, .varint n⟩] := by
  intro rest
  have value : readValue .varint (Leb128.encode n ++ rest) = some (.varint n, (Leb128.encode n).length) := by
    simp only [readValue, Leb128.decode_encode, Option.bind_eq_bind, Option.bind_some,
      Leb128.encode_length_le_ten small, if_true, Nat.mod_eq_of_lt small]
  have read : readToken (Wire.varintField field .varint n ++ rest) =
      some (⟨field, .varint n⟩, (Wire.varintField field .varint n).length) := by
    rw [Wire.varintField, List.append_assoc, readToken_tag pos bound, value, Option.map_some, List.length_append]
  have filled := List.ne_nil_of_length_pos (Wire.varintField_length_pos field .varint n)
  rw [tokens_of_readToken (by simp [filled]) read, List.drop_left]
  rfl

theorem Reads.bytesField {data : Bytes} (small : data.length < 2 ^ 64) :
    Reads (Wire.bytesField field .lengthDelimited data) [⟨field, .lengthDelimited data⟩] := by
  intro rest
  have value : readValue .lengthDelimited (Leb128.encode data.length ++ data ++ rest) =
      some (.lengthDelimited data, (Leb128.encode data.length).length + data.length) := by
    simp [readValue, Leb128.encode_length_le_ten small]
  have read : readToken (Wire.bytesField field .lengthDelimited data ++ rest) =
      some (⟨field, .lengthDelimited data⟩, (Wire.bytesField field .lengthDelimited data).length) := by
    rw [Wire.bytesField, List.append_assoc, readToken_tag pos bound, value, Option.map_some, List.length_append,
      List.length_append]
  have filled := List.ne_nil_of_length_pos (Wire.bytesField_length_pos field .lengthDelimited data)
  rw [tokens_of_readToken (by simp [filled]) read, List.drop_left]
  rfl

end

/-! ## What is read -/

theorem topLevel_of_flat {all : List Token}
    (flat : ∀ token ∈ all, token.value ≠ .startGroup ∧ token.value ≠ .endGroup) : topLevel [] all = some all := by
  induction all with
  | nil => rfl
  | cons token later ih =>
      obtain ⟨start, stop⟩ := flat token List.mem_cons_self
      have rest := ih fun token' mem => flat token' (List.mem_cons_of_mem _ mem)
      obtain ⟨field, value⟩ := token
      cases value with
      | startGroup => exact absurd rfl start
      | endGroup => exact absurd rfl stop
      | varint _ | fixed64 _ | lengthDelimited _ | fixed32 _ => rw [topLevel, rest, Option.map_some] <;> nofun

section
variable {σ : Type} {fields : Nat → Option (Reader σ)} {s s' : σ}

theorem Reads.parse {bytes : Bytes} {read : List Token} (reads : Reads bytes read)
    (flat : ∀ token ∈ read, token.value ≠ .startGroup ∧ token.value ≠ .endGroup) :
    parse fields s bytes = read.foldlM (store fields) s := by
  rw [Schema.parse, reads.tokens, Option.bind_eq_bind, Option.bind_some, topLevel_of_flat flat,
    Option.bind_some]

/-- A part of the message that every token adds its items to. -/
theorem foldlM_collects {β : Type} {get : σ → List β} {items : Token → List β}
    (each : ∀ s token s', store fields s token = some s' → get s' = get s ++ items token) {read : List Token}
    (folded : read.foldlM (store fields) s = some s') : get s' = get s ++ read.flatMap items := by
  induction read generalizing s with
  | nil =>
      obtain rfl := Option.some.inj folded
      simp
  | cons token later ih =>
      obtain ⟨s₁, stored, folded⟩ := Option.bind_eq_some_iff.mp folded
      rw [ih folded, each _ _ _ stored, List.flatMap_cons, List.append_assoc]

end
end Schema
