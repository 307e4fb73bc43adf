import Ipfs.Lib.Wire

/-!
# JSON and its tokens

A document as a tree, and as the flat list of its tokens, where a container only says how many elements it has.
-/

def ascii (text : String) : Bytes := text.toList.map fun c => c.toNat.toUInt8

/-- As it is written between the quotes, and what that stands for. -/
structure JsonString where
  text : Bytes
  value : Bytes
  -- only a backslash makes a difference
  plain : 0x5c ∉ text → value = text

def JsonString.ofText (text : Bytes) : JsonString := ⟨text, text, fun _ => rfl⟩

inductive Json
  | primitive (text : Bytes)
  | string (string : JsonString)
  | array (elements : List Json)
  | object (members : List (JsonString × Json))

inductive JsonToken.Kind
  | object
  | array
  | string
  | primitive
  deriving DecidableEq

structure JsonToken where
  kind : JsonToken.Kind
  -- of a string or a primitive
  text : Bytes := []
  size : Nat := 0
  deriving DecidableEq

namespace Json

mutual
def tokens : Json → List JsonToken
  | .primitive text => [⟨.primitive, text, 0⟩]
  | .string written => [⟨.string, written.text, 0⟩]
  | .array elements => ⟨.array, [], elements.length⟩ :: elementTokens elements
  | .object members => ⟨.object, [], members.length⟩ :: memberTokens members

def elementTokens : List Json → List JsonToken
  | [] => []
  | element :: elements => tokens element ++ elementTokens elements

def memberTokens : List (JsonString × Json) → List JsonToken
  | [] => []
  | (name, value) :: members => ⟨.string, name.text, 1⟩ :: (tokens value ++ memberTokens members)
end

def strings (elements : List JsonString) : Json := .array (elements.map .string)

/-- The first member of a name. -/
def member (name : Bytes) : Json → Option Json
  | .object members => (members.find? (·.1.value = name)).map Prod.snd
  | _ => none

theorem tokens_ne_nil (json : Json) : json.tokens ≠ [] := by
  cases json <;> simp [tokens]

theorem elementTokens_string (elements : List JsonString) :
    elementTokens (elements.map .string) = elements.map fun element => ⟨.string, element.text, 0⟩ := by
  induction elements with
  | nil => rfl
  | cons element elements ih =>
      rw [List.map_cons, elementTokens, ih, tokens]
      rfl

end Json
