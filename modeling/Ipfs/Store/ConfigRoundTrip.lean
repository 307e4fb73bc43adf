import Ipfs.Store.ConfigWriter

/-!
# Reading the configuration file back

The file that was written is parsed by jsmn, and every option is found where it was written.
-/

namespace Ipfs

/-! ## The gateway -/

namespace JsonOutline

section
variable (before : List (JsonToken × Bool)) (item : JsonToken × Bool) (behind : List (JsonToken × Bool))

/-- What belongs to an earlier token. -/
theorem step_string (text : Bytes) :
    step ⟨before ++ item :: behind, some before.length⟩ (.string text) =
      some ⟨before ++ grown item :: (behind ++ [(⟨.string, text, 0⟩, false)]), some before.length⟩ := by
  simp only [step, add, growAt, List.append_assoc, List.cons_append, modify_append]

theorem step_primitive (text : Bytes) :
    step ⟨before ++ item :: behind, some before.length⟩ (.primitive text) =
      some ⟨before ++ grown item :: (behind ++ [(⟨.primitive, text, 0⟩, false)]), some before.length⟩ := by
  simp only [step, add, growAt, List.append_assoc, List.cons_append, modify_append]

theorem step_array :
    step ⟨before ++ item :: behind, some before.length⟩ (.opens .array) =
      some ⟨before ++ grown item :: (behind ++ [(⟨.array, [], 0⟩, true)]), some (before ++ item :: behind).length⟩ := by
  simp only [step, add, growAt, List.append_assoc, List.cons_append, modify_append]

theorem step_colon (super : Option Nat) :
    step ⟨before ++ [item], super⟩ .colon = some ⟨before ++ [item], some before.length⟩ := by
  simp [step, last]

end
end JsonOutline

open JsonOutline

def redirectTokens (rootRedirect writable : Bytes) : List JsonToken :=
  [⟨.string, ascii "RootRedirect", 2⟩, ⟨.string, rootRedirect, 0⟩, ⟨.string, ascii "Writable", 2⟩,
    ⟨.primitive, writable, 0⟩, ⟨.string, ascii "PathPrefixes", 1⟩, ⟨.array, [], 0⟩]

/-- Where there is no comma, the next name is counted with the name before it. -/
theorem run_unseparated (before : List (JsonToken × Bool)) (super : Option Nat) (rootRedirect writable : Bytes) :
    run ⟨before ++ [(⟨.string, ascii "RootRedirect", 0⟩, false)], super⟩
        (.colon :: .string rootRedirect :: primitiveNamed "Writable" writable ++ named "PathPrefixes" [.opens .array]) =
      some ⟨inside (before ++ closed ((redirectTokens rootRedirect writable).take 5)) .array 0 [],
        some (before ++ closed ((redirectTokens rootRedirect writable).take 5)).length⟩ := by
  let redirect (size : Nat) : JsonToken × Bool := (⟨.string, ascii "RootRedirect", size⟩, false)
  let root : JsonToken × Bool := (⟨.string, rootRedirect, 0⟩, false)
  let name (size : Nat) : JsonToken × Bool := (⟨.string, ascii "Writable", size⟩, false)
  let value : JsonToken × Bool := (⟨.primitive, writable, 0⟩, false)
  let prefixes (size : Nat) : JsonToken × Bool := (⟨.string, ascii "PathPrefixes", size⟩, false)
  have colon := step_colon before (redirect 0) super
  have redirected := step_string before (redirect 0) [] rootRedirect
  have named' := step_string before (redirect 1) [root] (ascii "Writable")
  have colon' := step_colon (before ++ [redirect 2, root]) (name 0) (some before.length)
  have written := step_primitive (before ++ [redirect 2, root]) (name 0) [] writable
  have named'' := step_string (before ++ [redirect 2, root]) (name 1) [value] (ascii "PathPrefixes")
  have colon'' := step_colon (before ++ [redirect 2, root, name 2, value]) (prefixes 0)
    (some (before ++ [redirect 2, root]).length)
  have opened := step_array (before ++ [redirect 2, root, name 2, value]) (prefixes 0) []
  simp only [List.append_assoc, List.cons_append, List.nil_append, redirect, root, name, value, prefixes, grown,
    Nat.zero_add, Nat.reduceAdd] at colon redirected named' colon' written named'' colon'' opened
  simp only [primitiveNamed, named, List.cons_append, List.nil_append, run, colon, redirected, named', colon', written,
    named'', colon'', opened, Option.bind_some]
  simp [inside, closed, redirectTokens]

theorem run_redirect (before : List (JsonToken × Bool)) (size : Nat) (tokens : List JsonToken)
    (rootRedirect writable : Bytes) :
    run ⟨inside before .object size tokens, some before.length⟩ (redirectLexemes rootRedirect writable) =
      some ⟨before ++ closed (⟨.object, [], size + 1⟩ :: (tokens ++ redirectTokens rootRedirect writable)),
        searchBack Prod.snd before before.length⟩ := by
  let before' := inside before .object (size + 1) tokens
  have named' : step ⟨inside before .object size tokens, some before.length⟩ (.string (ascii "RootRedirect")) =
      some ⟨before' ++ [(⟨.string, ascii "RootRedirect", 0⟩, false)], some before.length⟩ := by
    rw [step, add, growAt_append (by simp [inside]), growAt_inside]
  have whole : before' ++ closed ((redirectTokens rootRedirect writable).take 5) =
      inside before .object (size + 1) (tokens ++ (redirectTokens rootRedirect writable).take 5) :=
    inside_append before (size + 1) tokens _
  have parts : redirectLexemes rootRedirect writable = .string (ascii "RootRedirect") :: ((.colon :: .string rootRedirect ::
      primitiveNamed "Writable" writable ++ named "PathPrefixes" [.opens .array]) ++ [.closes .array, .closes .object]) := rfl
  rw [parts, run, named', Option.bind_some, run_append, run_unseparated, Option.bind_some, run, step_closes,
    Option.bind_some, run, whole, searchBack_inside, inside_append, step_closes, Option.bind_some, run, List.append_assoc]
  rfl

def gatewayTokens (headers : List (Bytes × Bytes)) (rootRedirect writable : Bytes) : List JsonToken :=
  ⟨.object, [], 2⟩ :: (⟨.string, ascii "HTTPHeaders", 1⟩ :: ((headersJson headers).tokens ++
    redirectTokens rootRedirect writable))

theorem gateway_readsAs (headers : List (Bytes × Bytes)) (rootRedirect writable : Bytes) :
    ReadsAs (.opens .object :: (named "HTTPHeaders" (headersJson headers).lexemes ++
        .comma :: redirectLexemes rootRedirect writable))
      (gatewayTokens headers rootRedirect writable) := by
  intro tokens super bound
  obtain ⟨super', ran, next⟩ := run_named (growAt super tokens) 0 [] (ascii "HTTPHeaders") (run_value (headersJson headers))
  refine ⟨_, ?_, .inr rfl⟩
  rw [run, step_opens _ bound, Option.bind_some, run_append, named, ran, Option.bind_some, run, next, Option.bind_some,
    run_redirect, searchBack_growAt, length_growAt]
  simp [gatewayTokens]

/-! ## The tokens of the file -/

namespace WrittenConfig
variable {lib : ConfigLibrary} (config : WrittenConfig lib) (privKey : Bytes)

def members : List (JsonString × Json) :=
  [member "Identity" (identityJson config.peerId privKey),
    member "Datastore" (datastoreJson config.type config.path config.storageMax (printInt config.storageGcWatermark.toInt)
      config.gcPeriod (printBool config.noSync) (printBool config.hashOnRead) (printInt config.bloomFilterSize.toInt)),
    member "Addresses" (addressesJson config.swarmHead config.api config.gateway),
    member "Mounts" (mountsJson config.ipfs config.ipns (ascii "false")),
    member "Discovery" (discoveryJson (printBool config.mdnsEnabled) (printInt config.mdnsInterval.toInt)),
    member "Ipns" (ipnsJson (printInt config.resolveCacheSize.toInt)),
    member "Bootstrap" (.strings (config.bootstrapTexts.map .ofText)),
    member "Tour" tourJson]

def tokens : List JsonToken :=
  ⟨.object, [], 12⟩ :: (Json.memberTokens (config.members privKey) ++ (⟨.string, ascii "Gateway", 1⟩ ::
    (gatewayTokens config.httpHeaders config.rootRedirect (printBool config.writable) ++ Json.memberTokens endMembers)))

def tokenCount : Nat :=
  87 + config.swarmHead.length + config.bootstrapPeers.length + 3 * config.httpHeaders.length

variable {config privKey}

theorem strings_lexemes (items : List Bytes) :
    (Json.strings (items.map .ofText)).lexemes =
      .opens .array :: (itemLexemes (fun item => [.string item]) items ++ [.closes .array]) := by
  have elements : Json.elementLexemes ((items.map JsonString.ofText).map .string) =
      items.flatMap fun item => .comma :: [.string item] := by
    induction items with
    | nil => rfl
    | cons item items ih =>
        rw [List.map_cons, List.map_cons, Json.elementLexemes, ih]
        rfl
  rw [Json.strings, Json.lexemes, elements, itemLexemes]

theorem headers_lexemes (headers : List (Bytes × Bytes)) :
    (headersJson headers).lexemes = .opens .object :: (itemLexemes headerLexemes headers ++ [.closes .object]) := by
  have members : Json.memberLexemes (headers.map fun header => (.ofText header.1, .array [.string (.ofText header.2)])) =
      headers.flatMap fun header => .comma :: headerLexemes header := by
    induction headers with
    | nil => rfl
    | cons header headers ih =>
        rw [List.map_cons, Json.memberLexemes, ih]
        rfl
  rw [headersJson, Json.lexemes, members, itemLexemes]

theorem ofText_text (text : Bytes) : (JsonString.ofText text).text = text := rfl

/-- With at least one header, the lexemes are those of an object. -/
theorem lexemes_eq (nonempty : config.httpHeaders ≠ []) :
    config.lexemes privKey = .opens .object :: ((Json.memberLexemes (config.members privKey)).tail ++
      (.comma :: named "Gateway" (.opens .object :: (named "HTTPHeaders" (headersJson config.httpHeaders).lexemes ++
        .comma :: redirectLexemes config.rootRedirect (printBool config.writable))) ++
      (Json.memberLexemes endMembers ++ [.closes .object]))) := by
  unfold lexemes members headersLexemes
  rw [if_neg nonempty]
  simp [startLexemes, middleLexemes, gatewayLexemes, endLexemes, addressesJson, Json.lexemes, Json.memberLexemes,
    strings_lexemes, headers_lexemes, member, stringMember, stringNamed, named, ofText_text]

theorem run_lexemes (nonempty : config.httpHeaders ≠ []) :
    ∃ super, run {} (config.lexemes privKey) = some ⟨closed (config.tokens privKey), super⟩ := by
  have first : ∀ lexeme ∈ (Json.memberLexemes (config.members privKey)).head?, lexeme = .comma := by
    simp [members, Json.memberLexemes]
  have object : IsContainer .object := .inl rfl
  have comma := comma_inside [] 0 [] object
  obtain ⟨super, ran, next⟩ := run_members (config.members privKey) [] 0 [] (some 0) comma
  obtain ⟨super', ran', next'⟩ := run_member [] _ _ (ascii "Gateway")
    (gateway_readsAs config.httpHeaders config.rootRedirect (printBool config.writable)) next
  obtain ⟨super'', ran'', -⟩ := run_members endMembers [] _ _ super' next'
  have opened : step {} (.opens .object) = some ⟨inside [] .object 0 [], some 0⟩ := rfl
  have inner : run ⟨inside [] .object 0 [], some 0⟩ (Json.memberLexemes (config.members privKey)).tail =
      run ⟨inside [] .object 0 [], some 0⟩ (Json.memberLexemes (config.members privKey)) := run_tail comma first
  refine ⟨none, ?_⟩
  rw [lexemes_eq nonempty, run, opened, Option.bind_some, run_append, inner, ran, Option.bind_some, run_append, named, ran',
    Option.bind_some, run_append, ran'', Option.bind_some, run, step_closes, Option.bind_some, run, tokens,
    show (config.members privKey).length = 8 from rfl, show endMembers.length = 3 from rfl]
  simp [searchBack]

theorem brackets_items (items : List Bytes) (opened : List JsonToken.Kind) :
    (itemLexemes (fun item => [.string item]) items).foldlM JsonLexeme.brackets opened = some opened := by
  have all : ∀ lexeme ∈ itemLexemes (fun item => [JsonLexeme.string item]) items,
      JsonLexeme.brackets opened lexeme = some opened := by
    intro lexeme mem
    have mem' := List.mem_of_mem_tail mem
    simp only [List.mem_flatMap, List.mem_cons, List.not_mem_nil, or_false] at mem'
    obtain ⟨item, -, rfl | rfl⟩ := mem' <;> rfl
  generalize itemLexemes (fun item => [JsonLexeme.string item]) items = lexemes at all
  induction lexemes with
  | nil => rfl
  | cons lexeme lexemes ih =>
      rw [List.foldlM_cons, all lexeme List.mem_cons_self]
      exact ih fun lexeme mem => all lexeme (List.mem_cons_of_mem _ mem)

section
variable {a b c d e f g h i j : Bytes}

theorem start_brackets : (startLexemes a b c d e f g h i j).foldlM JsonLexeme.brackets [] = some [.array, .object, .object] := by
  simp [startLexemes, named, identityJson, datastoreJson, member, stringMember, primitiveMember, Json.lexemes,
    Json.memberLexemes, JsonLexeme.brackets]

theorem middle_brackets : (middleLexemes a b c d e f g h).foldlM JsonLexeme.brackets [.array, .object, .object] =
    some [.array, .object] := by
  simp [middleLexemes, stringNamed, named, mountsJson, discoveryJson, ipnsJson, member, stringMember, primitiveMember,
    Json.lexemes, Json.memberLexemes, JsonLexeme.brackets]

theorem gateway_brackets : gatewayLexemes.foldlM JsonLexeme.brackets [.array, .object] =
    some [.object, .object, .object] := by
  simp [gatewayLexemes, named, tourJson, member, stringMember, Json.lexemes, Json.memberLexemes, JsonLexeme.brackets]

theorem end_brackets : (endLexemes a b).foldlM JsonLexeme.brackets [.object, .object, .object] = some [.object] := by
  simp [endLexemes, redirectLexemes, endMembers, stringNamed, primitiveNamed, named, member, primitiveMember,
    Json.lexemes, Json.memberLexemes, JsonLexeme.brackets]

end

/-- Without headers there is a bracket too many. -/
theorem not_matched (empty : config.httpHeaders = []) : ¬ JsonLexeme.Matched (config.lexemes privKey) := by
  have opened : (config.lexemes privKey).foldlM JsonLexeme.brackets [] = some [.object] := by
    unfold lexemes headersLexemes
    rw [if_pos empty, List.nil_append]
    rw [List.foldlM_append, start_brackets, Option.bind_eq_bind, Option.bind_some]
    rw [List.foldlM_append, brackets_items, Option.bind_eq_bind, Option.bind_some]
    rw [List.foldlM_append, middle_brackets, Option.bind_eq_bind, Option.bind_some]
    rw [List.foldlM_append, brackets_items, Option.bind_eq_bind, Option.bind_some]
    rw [List.foldlM_append, gateway_brackets, Option.bind_eq_bind, Option.bind_some, end_brackets]
  rw [JsonLexeme.Matched, opened]
  simp

theorem headers_tokens_length (headers : List (Bytes × Bytes)) :
    (headersJson headers).tokens.length = 1 + 3 * headers.length := by
  rw [headersJson, Json.tokens, List.length_cons, Nat.add_comm]
  congr 1
  induction headers with
  | nil => rfl
  | cons header headers ih =>
      rw [List.map_cons, Json.memberTokens, List.length_cons, List.length_append, ih, List.length_cons]
      simp only [Json.tokens, Json.elementTokens, List.length_cons, List.length_append, List.length_nil]
      omega

theorem tokens_length : (config.tokens privKey).length = config.tokenCount := by
  simp only [tokens, members, gatewayTokens, redirectTokens, endMembers, Json.memberTokens, Json.tokens, identityJson,
    datastoreJson, addressesJson, mountsJson, discoveryJson, ipnsJson, tourJson, member, stringMember, primitiveMember,
    Json.strings, Json.elementTokens_string, headers_tokens_length, List.length_cons, List.length_append,
    List.length_nil, List.length_map, tokenCount, bootstrapTexts]
  omega
end WrittenConfig

/-! ## The tokens that are read -/

/-- What jsmn makes of a file with an array for so many tokens. -/
def jsmnTokens (numTokens : Nat) (js : Bytes) : Option (List JsonToken) :=
  match jsmnParse js (some numTokens) {} with
  | some (.returned (.ok _), parser) => some (parser.tokens.map (JsmnToken.read js))
  | _ => none

theorem JsonLexes.ne_nil {lexemes : List JsonLexeme} {text : Bytes} (lexes : JsonLexes lexemes text)
    (nonempty : lexemes ≠ []) : text ≠ [] := by
  cases lexes with
  | nil => exact absurd rfl nonempty
  | white => exact List.cons_ne_nil _ _
  | cons written => cases written <;> simp

theorem jsmnTokens_closed {lexemes : List JsonLexeme} {text : Bytes} (lexes : JsonLexes lexemes text)
    {tokens : List JsonToken} {super : Option Nat} (ran : run {} lexemes = some ⟨closed tokens, super⟩) (numTokens : Nat) :
    jsmnTokens numTokens text = if tokens.length ≤ numTokens then some tokens else none := by
  obtain ⟨parser, parsed, same⟩ := jsmnParse_closed lexes ran numTokens
  rw [jsmnTokens, parsed]
  by_cases enough : tokens.length ≤ numTokens
  · simp only [if_pos enough, same enough]
  · simp only [if_neg enough]

theorem jsmnTokens_unmatched {lexemes : List JsonLexeme} {text : Bytes} (lexes : JsonLexes lexemes text)
    (unmatched : ¬ JsonLexeme.Matched lexemes) (numTokens : Nat) : jsmnTokens numTokens text = none := by
  obtain ⟨error, parser, parsed⟩ := jsmnParse_unmatched lexes unmatched numTokens
  rw [jsmnTokens, parsed]

/-! ## Looking names up -/

section
variable {tag name text : Bytes} {rest : List JsonToken} {n : Nat}

/-- None of the tokens is the name. -/
def Skips (tag : Bytes) (tokens : List JsonToken) : Prop := ∀ token ∈ tokens, token.kind = .string → token.text ≠ tag

theorem skips_nil : Skips tag [] ↔ True := iff_true_intro fun _ mem => absurd mem List.not_mem_nil

theorem skips_append {tokens : List JsonToken} : Skips tag (tokens ++ rest) ↔ Skips tag tokens ∧ Skips tag rest :=
  List.forall_mem_append

theorem skips_name (other : name ≠ tag) : Skips tag (⟨.string, name, n⟩ :: rest) ↔ Skips tag rest := by
  simp [Skips, other]

theorem skips_sign {kind : JsonToken.Kind} (sign : kind ≠ .string) :
    Skips tag (⟨kind, text, n⟩ :: rest) ↔ Skips tag rest := by
  simp [Skips, sign]

theorem skips_strings {texts : List Bytes} (other : ∀ text ∈ texts, text ≠ tag) :
    Skips tag (texts.map fun text => ⟨.string, text, 0⟩) ↔ True := by
  simpa [Skips] using other

theorem findIdx_skips {tokens : List JsonToken} (skips : Skips tag tokens) :
    tokens.findIdx? (fun token => token.kind = .string ∧ token.text = tag) = none := by
  rw [List.findIdx?_eq_none_iff]
  intro token mem
  simpa using skips token mem

theorem findToken_eq {before tokens : List JsonToken} (skips : Skips tag tokens) :
    findToken (before ++ (tokens ++ ⟨.string, tag, n⟩ :: rest)) before.length tag =
      some (before.length + tokens.length) := by
  rw [findToken, List.drop_left, List.findIdx?_append, findIdx_skips skips, List.findIdx?_cons, if_pos (by simp)]
  simp

theorem findToken_none {before tokens : List JsonToken} (skips : Skips tag tokens) :
    findToken (before ++ tokens) before.length tag = none := by
  rw [findToken, List.drop_left, findIdx_skips skips]
  rfl

variable {kind : JsonToken.Kind}

theorem jsonValue_append (before : List JsonToken) :
    jsonValue kind (before ++ rest) before.length tag = jsonValue kind rest 0 tag := by
  unfold jsonValue findToken
  rw [List.drop_left, List.drop_zero]
  cases rest.findIdx? fun token => token.kind = .string ∧ token.text = tag with
  | none => rfl
  | some i =>
      simp only [Option.map_some, tokenText]
      rw [List.getElem?_append_right (by omega), show before.length + i + 1 - before.length = 0 + i + 1 by omega]

theorem jsonValue_skip {token : JsonToken} (skips : token.kind = .string → token.text ≠ tag) :
    jsonValue kind (token :: rest) 0 tag = jsonValue kind rest 0 tag := by
  have here : findToken (token :: rest) 0 tag = (findToken rest 0 tag).map (· + 1) := by
    have other : ¬ (decide (token.kind = .string ∧ token.text = tag)) = true := by simpa using skips
    rw [findToken, findToken, List.drop_zero, List.drop_zero, List.findIdx?_cons, if_neg other, Option.map_map,
      Option.map_map]
    rfl
  unfold jsonValue
  rw [here]
  cases findToken rest 0 tag <;> rfl

theorem jsonValue_name (other : name ≠ tag) :
    jsonValue kind (⟨.string, name, n⟩ :: rest) 0 tag = jsonValue kind rest 0 tag :=
  jsonValue_skip fun _ => other

theorem jsonValue_sign {type : JsonToken.Kind} (sign : type ≠ .string) :
    jsonValue kind (⟨type, text, n⟩ :: rest) 0 tag = jsonValue kind rest 0 tag :=
  jsonValue_skip fun string => absurd string sign

theorem jsonValue_skips {tokens : List JsonToken} (skips : Skips tag tokens) :
    jsonValue kind (tokens ++ rest) 0 tag = jsonValue kind rest 0 tag := by
  induction tokens with
  | nil => rfl
  | cons token tokens ih =>
      rw [List.cons_append, jsonValue_skip (skips token List.mem_cons_self)]
      exact ih fun token mem => skips token (List.mem_cons_of_mem _ mem)

theorem jsonValue_here (value : JsonToken) :
    jsonValue kind (⟨.string, tag, n⟩ :: value :: rest) 0 tag =
      .returned (if value.kind = kind then some value.text else none) := by
  simp [jsonValue, findToken, List.findIdx?_cons, tokenText]

end

/-- The names that are searched behind texts of the configuration. -/
def searchedNames : List Bytes :=
  [ascii "PrivKey", ascii "Type", ascii "Path", ascii "StorageMax", ascii "StorageGCWatermark", ascii "GCPeriod",
    ascii "Params", ascii "NoSync", ascii "HashOnRead", ascii "BloomFilterSize", ascii "Addresses", ascii "API",
    ascii "Gateway", ascii "Bootstrap", ascii "Replication"]

theorem ne_searched {text tag : Bytes} (apart : text ∉ searchedNames) (searched : tag ∈ searchedNames) : text ≠ tag := by
  rintro rfl
  exact apart searched

namespace WrittenConfig
variable {lib : ConfigLibrary} (config : WrittenConfig lib) (privKey : Bytes)

/-- Everything from the first name to the addresses. -/
def front : List JsonToken :=
  ⟨.string, ascii "Identity", 1⟩ :: ((identityJson config.peerId privKey).tokens ++ (⟨.string, ascii "Datastore", 1⟩ ::
    (datastoreJson config.type config.path config.storageMax (printInt config.storageGcWatermark.toInt)
      config.gcPeriod (printBool config.noSync) (printBool config.hashOnRead)
      (printInt config.bloomFilterSize.toInt)).tokens))

/-- Behind the array of the swarm. -/
def middle : List JsonToken :=
  [⟨.string, ascii "API", 1⟩, ⟨.string, config.api, 0⟩, ⟨.string, ascii "Gateway", 1⟩, ⟨.string, config.gateway, 0⟩] ++
    Json.memberTokens [member "Mounts" (mountsJson config.ipfs config.ipns (ascii "false")),
      member "Discovery" (discoveryJson (printBool config.mdnsEnabled) (printInt config.mdnsInterval.toInt)),
      member "Ipns" (ipnsJson (printInt config.resolveCacheSize.toInt))]

/-- Behind the array of the peers. -/
def back : List JsonToken :=
  Json.memberTokens [member "Tour" tourJson] ++ (⟨.string, ascii "Gateway", 1⟩ ::
    (gatewayTokens config.httpHeaders config.rootRedirect (printBool config.writable) ++ Json.memberTokens endMembers))

variable {config privKey}

theorem tokens_eq : config.tokens privKey =
    ⟨.object, [], 12⟩ :: (config.front privKey ++ (⟨.string, ascii "Addresses", 1⟩ :: ⟨.object, [], 3⟩ ::
      ⟨.string, ascii "Swarm", 1⟩ :: ((Json.strings (config.swarmHead.map .ofText)).tokens ++
        (config.middle ++ (⟨.string, ascii "Bootstrap", 1⟩ ::
          ((Json.strings (config.bootstrapTexts.map .ofText)).tokens ++ config.back)))))) := by
  simp [tokens, members, front, middle, back, addressesJson, Json.memberTokens, Json.tokens, member, stringMember,
    ofText_text]

/-- The texts are no names, and the rest is what libp2p does. -/
structure Readable (config : WrittenConfig lib) (privKey : Bytes) : Prop where
  encoded : config.encodePrivateKey config.privateKeyDer = some privKey
  decoded : lib.buildPrivateKey privKey = some config.peerId
  addresses : ∀ peer ∈ config.bootstrapPeers,
    lib.multiaddressNewFromString (config.multiaddressString peer) = some peer
  chars : ∀ text ∈ config.strings privKey, JsonChars text
  apart : ∀ text ∈ config.strings privKey, text ∉ searchedNames

/-- The texts one by one. -/
structure Apart (config : WrittenConfig lib) (privKey : Bytes) : Prop where
  peerId : config.peerId ∉ searchedNames
  privKey : privKey ∉ searchedNames
  type : config.type ∉ searchedNames
  path : config.path ∉ searchedNames
  storageMax : config.storageMax ∉ searchedNames
  gcPeriod : config.gcPeriod ∉ searchedNames
  api : config.api ∉ searchedNames
  gateway : config.gateway ∉ searchedNames
  ipfs : config.ipfs ∉ searchedNames
  ipns : config.ipns ∉ searchedNames
  rootRedirect : config.rootRedirect ∉ searchedNames
  swarm : ∀ text ∈ config.swarmHead, text ∉ searchedNames
  bootstrap : ∀ text ∈ config.bootstrapTexts, text ∉ searchedNames
  headers : ∀ header ∈ config.httpHeaders, header.1 ∉ searchedNames ∧ header.2 ∉ searchedNames

theorem Readable.names (readable : config.Readable privKey) : config.Apart privKey := by
  have apart := readable.apart
  simp only [strings, List.forall_mem_append, List.forall_mem_cons, List.not_mem_nil, false_imp_iff, implies_true,
    and_true, List.mem_flatMap, forall_exists_index, and_imp] at apart
  obtain ⟨⟨⟨⟨peerId, privKey, type, path, storageMax, gcPeriod, api, gateway, ipfs, ipns, rootRedirect⟩, swarm⟩,
    bootstrap⟩, headers⟩ := apart
  exact ⟨peerId, privKey, type, path, storageMax, gcPeriod, api, gateway, ipfs, ipns, rootRedirect, swarm, bootstrap,
    fun header mem => ⟨headers _ header mem (by simp), headers _ header mem (by simp)⟩⟩

section
variable (apart : config.Apart privKey) (behind : List JsonToken)
include apart

theorem identity_values :
    jsonValue .string (config.front privKey ++ behind) 0 (ascii "PeerID") = .returned (some config.peerId) ∧
      jsonValue .string (config.front privKey ++ behind) 0 (ascii "PrivKey") = .returned (some privKey) := by
  obtain ⟨peerId, privKey⟩ := apart
  constructor <;>
  simp (disch := first | decide | (apply ne_searched <;> first | assumption | decide) | fail) only [front, identityJson, stringMember, member, Json.tokens, Json.memberTokens, List.cons_append, List.nil_append, List.append_nil,
    ofText_text, jsonValue_here, jsonValue_name, jsonValue_sign, if_true]

theorem datastore_values :
    (datastoreOptions.mapM fun option => jsonValue option.1 (config.front privKey ++ behind) 0 option.2) =
      .returned [some config.type, some config.path, some config.storageMax,
        some (printInt config.storageGcWatermark.toInt), some config.gcPeriod, none, some (printBool config.noSync),
        some (printBool config.hashOnRead), some (printInt config.bloomFilterSize.toInt)] := by
  obtain ⟨peerId, privKey, type, path, storageMax, gcPeriod⟩ := apart
  simp (disch := first | decide | (apply ne_searched <;> first | assumption | decide) | fail) only [datastoreOptions, List.mapM_cons, List.mapM_nil, front, identityJson, datastoreJson, stringMember, primitiveMember, member, Json.tokens, Json.memberTokens, List.cons_append, List.nil_append, List.append_nil,
    ofText_text, jsonValue_here, jsonValue_name, jsonValue_sign, if_true, Outcome.returned_bind, Outcome.pure_def]
  rfl

theorem front_skips : Skips (ascii "Addresses") (config.front privKey) := by
  obtain ⟨peerId, privKey, type, path, storageMax, gcPeriod⟩ := apart
  simp (disch := first | decide | (apply ne_searched <;> first | assumption | decide) | fail) only [front, identityJson,
    datastoreJson, stringMember, primitiveMember, member, Json.tokens, Json.memberTokens, ofText_text, List.cons_append,
    List.nil_append, List.append_nil, skips_name, skips_sign, skips_nil]

theorem middle_skips {tag : Bytes} (later : tag = ascii "Bootstrap" ∨ tag = ascii "Replication") :
    Skips tag config.middle := by
  obtain ⟨-, -, -, -, -, -, api, gateway, ipfs, ipns⟩ := apart
  rcases later with rfl | rfl <;>
  simp (disch := first | decide | (apply ne_searched <;> first | assumption | decide) | fail) only [middle, mountsJson,
    discoveryJson, ipnsJson, stringMember, primitiveMember, member, Json.tokens, Json.memberTokens, ofText_text,
    List.cons_append, List.nil_append, List.append_nil, skips_name, skips_sign, skips_nil]

theorem headers_skips : Skips (ascii "Replication") (headersJson config.httpHeaders).tokens := by
  have headers := apart.headers
  rw [headersJson, Json.tokens, skips_sign (by decide)]
  generalize config.httpHeaders = items at headers
  induction items with
  | nil => exact skips_nil.mpr trivial
  | cons header items ih =>
      obtain ⟨name, value⟩ := headers header List.mem_cons_self
      have rest := ih fun header mem => headers header (List.mem_cons_of_mem _ mem)
      have searched : ascii "Replication" ∈ searchedNames := by decide
      rw [List.map_cons, Json.memberTokens, ofText_text, skips_name (ne_searched name searched), skips_append]
      refine ⟨?_, rest⟩
      rw [Json.tokens, skips_sign (by decide), Json.elementTokens, Json.elementTokens, Json.tokens, List.append_nil,
        ofText_text, skips_name (ne_searched value searched)]
      exact skips_nil.mpr trivial

theorem back_skips : Skips (ascii "Replication") config.back := by
  have headers := headers_skips apart
  have rootRedirect := apart.rootRedirect
  simp (disch := first | decide | (apply ne_searched <;> first | assumption | decide) | fail) only [back, gatewayTokens,
    redirectTokens, endMembers, tourJson, stringMember, primitiveMember, member, Json.tokens, Json.memberTokens,
    ofText_text, List.cons_append, List.nil_append, List.append_nil, skips_append, skips_name, skips_sign, skips_nil,
    and_true]
  exact headers

omit apart in
theorem strings_skips {tag : Bytes} (searched : tag ∈ searchedNames) {items : List Bytes}
    (apart : ∀ text ∈ items, text ∉ searchedNames) : Skips tag (Json.strings (items.map .ofText)).tokens := by
  rw [Json.strings, Json.tokens, skips_sign (by decide), Json.elementTokens_string, List.map_map]
  exact (skips_strings fun text mem => ne_searched (apart text mem) searched).mpr trivial

theorem middle_values :
    jsonValue .string (config.middle ++ behind) 0 (ascii "API") = .returned (some config.api) ∧
      jsonValue .string (config.middle ++ behind) 0 (ascii "Gateway") = .returned (some config.gateway) := by
  obtain ⟨-, -, -, -, -, -, api, gateway⟩ := apart
  constructor <;>
  simp (disch := first | decide | (apply ne_searched <;> first | assumption | decide) | fail) only [middle,
    List.cons_append, List.nil_append, jsonValue_here, jsonValue_name, if_true]

end

/-- The section of the addresses up to the array of the swarm. -/
def swarmTokens (config : WrittenConfig lib) : List JsonToken :=
  ⟨.string, ascii "Addresses", 1⟩ :: ⟨.object, [], 3⟩ :: ⟨.string, ascii "Swarm", 1⟩ ::
    (Json.strings (config.swarmHead.map .ofText)).tokens

theorem swarm_skips (apart : config.Apart privKey) {tag : Bytes}
    (later : tag ∈ [ascii "API", ascii "Gateway", ascii "Bootstrap", ascii "Replication"]) :
    Skips tag config.swarmTokens := by
  have searched : tag ∈ searchedNames := by
    simp only [List.mem_cons, List.not_mem_nil, or_false] at later
    rcases later with rfl | rfl | rfl | rfl <;> decide
  have addresses : ascii "Addresses" ≠ tag := by
    rintro rfl
    revert later
    decide
  have swarm : ascii "Swarm" ≠ tag := by
    rintro rfl
    revert later
    decide
  rw [swarmTokens, skips_name addresses, skips_sign (by decide), skips_name swarm]
  exact strings_skips searched apart.swarm

variable (config) in
/-- What is read of the file. Of the replication nothing was written. -/
def readBack : RepoConfig { lib with jsmnParse := jsmnTokens maxTokens } where
  peerId := config.peerId
  datastore := [some config.type, some config.path, some config.storageMax,
    some (printInt config.storageGcWatermark.toInt), some config.gcPeriod, none, some (printBool config.noSync),
    some (printBool config.hashOnRead), some (printInt config.bloomFilterSize.toInt)]
  swarmHead := config.swarmHead
  addrHead := config.swarmHead.filterMap lib.multiaddressNewFromString
  api := some config.api
  gateway := some config.gateway
  bootstrapPeers := config.bootstrapPeers

theorem ofText_texts (items : List Bytes) : (items.map JsonString.ofText).map JsonString.text = items := by
  rw [List.map_map]
  exact List.map_id' items

theorem peers_readBack (readable : config.Readable privKey) :
    (config.bootstrapTexts.map JsonString.ofText).filterMap (lib.multiaddressNewFromString ·.text) =
      config.bootstrapPeers := by
  have addresses := readable.addresses
  rw [bootstrapTexts, List.map_map, List.filterMap_map]
  generalize config.bootstrapPeers = peers at addresses
  induction peers with
  | nil => rfl
  | cons peer peers ih =>
      have first := addresses peer List.mem_cons_self
      simp only [List.filterMap_cons, Function.comp_apply, ofText_text, first]
      exact congrArg (peer :: ·) (ih fun peer mem => addresses peer (List.mem_cons_of_mem _ mem))

theorem openConfig_tokens (readable : config.Readable privKey) :
    openConfig { lib with jsmnParse := jsmnTokens maxTokens } (config.tokens privKey) = .returned config.readBack := by
  have apart := readable.names
  let tokens := config.tokens privKey
  let start : List JsonToken := [⟨.object, [], 12⟩]
  let before : List JsonToken := start ++ config.front privKey
  let peers : List JsonToken :=
    ⟨.string, ascii "Bootstrap", 1⟩ :: ((Json.strings (config.bootstrapTexts.map .ofText)).tokens ++ config.back)
  let addresses : List JsonToken := config.swarmTokens ++ (config.middle ++ peers)
  have front : tokens = start ++ (config.front privKey ++ addresses) := tokens_eq
  have whole : tokens = before ++ addresses := by rw [front, List.append_assoc]
  have skipsStart : Skips (ascii "Identity") start := (skips_sign (by decide)).mpr (skips_nil.mpr trivial)
  have identity : findToken tokens 0 (ascii "Identity") = some 1 := @findToken_eq _ _ _ [] start skipsStart
  have values (kind : JsonToken.Kind) (tag : Bytes) :
      jsonValue kind tokens 1 tag = jsonValue kind (config.front privKey ++ addresses) 0 tag := by
    rw [front]
    exact jsonValue_append start
  have found : findToken tokens 1 (ascii "Addresses") = some before.length := by
    rw [front]
    exact findToken_eq (front_skips apart)
  have later (kind : JsonToken.Kind) {tag : Bytes} (mem : tag ∈ [ascii "API", ascii "Gateway"]) :
      jsonValue kind tokens before.length tag = jsonValue kind (config.middle ++ peers) 0 tag := by
    rw [whole, jsonValue_append, jsonValue_skips (swarm_skips apart
      (List.mem_append_left [ascii "Bootstrap", ascii "Replication"] mem))]
  have skipsHead : Skips (ascii "Swarm") [⟨.string, ascii "Addresses", 1⟩, ⟨.object, [], 3⟩] :=
    (skips_name (by decide)).mpr ((skips_sign (by decide)).mpr (skips_nil.mpr trivial))
  have swarm : findToken tokens before.length (ascii "Swarm") = some (before.length + 2) := by
    rw [whole]
    exact findToken_eq skipsHead
  have holdsSwarm : HoldsStrings tokens (before.length + 2) (config.swarmHead.map .ofText) :=
    ⟨before ++ [⟨.string, ascii "Addresses", 1⟩, ⟨.object, [], 3⟩], ⟨.string, ascii "Swarm", 1⟩, config.middle ++ peers,
      by simp, by simp [whole, addresses, swarmTokens]⟩
  have bootstrap : findToken tokens before.length (ascii "Bootstrap") =
      some (before.length + (config.swarmTokens ++ config.middle).length) := by
    rw [whole, show addresses = (config.swarmTokens ++ config.middle) ++ peers by rw [List.append_assoc]]
    exact findToken_eq (skips_append.mpr ⟨swarm_skips apart (by decide), middle_skips apart (.inl rfl)⟩)
  have holdsPeers : HoldsStrings tokens (before.length + (config.swarmTokens ++ config.middle).length)
      (config.bootstrapTexts.map .ofText) :=
    ⟨before ++ (config.swarmTokens ++ config.middle), ⟨.string, ascii "Bootstrap", 1⟩, config.back,
      by rw [List.length_append], by simp [whole, addresses, peers]⟩
  have replication : findToken tokens before.length (ascii "Replication") = none := by
    rw [whole]
    exact findToken_none (skips_append.mpr ⟨swarm_skips apart (by decide), skips_append.mpr
      ⟨middle_skips apart (.inr rfl), (skips_name (by decide)).mpr (skips_append.mpr
        ⟨strings_skips (by decide) apart.bootstrap, back_skips apart⟩)⟩⟩)
  have accepted : openIdentity { lib with jsmnParse := jsmnTokens maxTokens } tokens 1 = .returned config.peerId := by
    simp only [openIdentity, getJsonStringValue, values, identity_values apart addresses, readable.decoded,
      Outcome.access_some, Outcome.ofOption_some, Outcome.returned_bind, if_true, Outcome.pure_def]
  have datastore := datastore_values apart addresses
  simp only [← values] at datastore
  change openConfig _ tokens = _
  unfold openConfig openReplication getJsonStringValue
  simp only [identity, accepted, datastore, found, openSwarm_eq swarm holdsSwarm, later _ List.mem_cons_self,
    later _ (List.mem_cons_of_mem _ List.mem_cons_self), middle_values apart peers,
    openBootstrap_eq bootstrap holdsPeers, replication, ofText_texts, peers_readBack readable, Outcome.ofOption_some,
    Outcome.returned_bind, Outcome.pure_def]
  rfl

end WrittenConfig

/-! ## The round trip -/

section
variable {lib : ConfigLibrary} (config : WrittenConfig lib)

end

/-- Addresses are their own text, and there is one key. -/
def plainLibrary : ConfigLibrary where
  MultiAddress := Bytes
  Peer := Bytes
  jsmnParse _ := none
  multiaddressNewFromString := some
  peerNewFromMultiaddress := id
  buildPrivateKey text := if text = ascii "CAASpw==" then some (ascii "QmPeer") else none

def sampleConfig : WrittenConfig plainLibrary where
  encodePrivateKey der := if der = [1, 2] then some (ascii "CAASpw==") else none
  multiaddressString := id
  peerId := ascii "QmPeer"
  privateKeyDer := [1, 2]
  type := ascii "lmdb"
  path := ascii "/tmp/.ipfs/datastore"
  storageMax := ascii "10GB"
  storageGcWatermark := 90
  gcPeriod := ascii "1h"
  noSync := false
  hashOnRead := false
  bloomFilterSize := 0
  swarmHead := [ascii "/ip4/0.0.0.0/tcp/4001", ascii "/ip6/::/tcp/4001"]
  api := ascii "/ip4/127.0.0.1/tcp/5001"
  gateway := ascii "/ip4/127.0.0.1/tcp/8080"
  ipfs := ascii "/ipfs"
  ipns := ascii "/ipns"
  mdnsEnabled := true
  mdnsInterval := 10
  resolveCacheSize := 128
  bootstrapPeers := [ascii "/ip4/104.131.131.82/tcp/4001"]
  httpHeaders := [(ascii "Access-Control-Allow-Origin", ascii "*"), (ascii "Access-Control-Allow-Methods", ascii "GET")]
  rootRedirect := []
  writable := false

theorem sampleConfig_readable : sampleConfig.Readable (ascii "CAASpw==") where
  encoded := rfl
  decoded := rfl
  addresses _ _ := rfl
  chars text mem := by
    have plain : ∀ text ∈ sampleConfig.strings (ascii "CAASpw=="), ∀ c ∈ text, isPlain c := by decide +kernel
    exact .of_plain (plain text mem)
  apart := by decide +kernel

end Ipfs
