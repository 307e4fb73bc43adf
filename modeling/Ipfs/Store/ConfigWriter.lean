import Ipfs.Store.Config
import Ipfs.Store.JsonNumbers

/-!
# Writing the configuration file

What `repo_config_write_config_file` prints is not always JSON, but `fs_repo_open_config` reads it back.
-/

namespace Ipfs

/-! ## What is printed -/

/-- A loop that prints each item, and behind the last another text than between two. -/
def fprintfEach {α : Type} (item : α → Bytes) (between last : Bytes) : List α → Bytes
  | [] => []
  | [a] => item a ++ last
  | a :: b :: rest => item a ++ (between ++ fprintfEach item between last (b :: rest))

/-- What of `struct RepoConfig` is written, and what of libp2p turns it into text. -/
structure WrittenConfig (lib : ConfigLibrary) where
  -- the key as protobuf, in base 64
  encodePrivateKey : Bytes → Option Bytes
  multiaddressString : lib.MultiAddress → Bytes
  peerId : Bytes
  privateKeyDer : Bytes
  type : Bytes
  path : Bytes
  storageMax : Bytes
  storageGcWatermark : Int32
  gcPeriod : Bytes
  noSync : Bool
  hashOnRead : Bool
  bloomFilterSize : Int32
  swarmHead : List Bytes
  api : Bytes
  gateway : Bytes
  ipfs : Bytes
  ipns : Bytes
  mdnsEnabled : Bool
  mdnsInterval : Int32
  resolveCacheSize : Int32
  bootstrapPeers : List lib.MultiAddress
  httpHeaders : List (Bytes × Bytes)
  rootRedirect : Bytes
  writable : Bool

def lines (formats : List String) : Bytes := formats.flatMap ascii

def startFormat : Bytes := lines [
  "\x7b\n",
  " \"Identity\": \x7b\n",
  "  \"PeerID\": \"%s\",\n",
  "  \"PrivKey\": \"%s\"\n",
  " \x7d,\n",
  " \"Datastore\": \x7b\n",
  "  \"Type\": \"%s\",\n",
  "  \"Path\": \"%s\",\n",
  "  \"StorageMax\": \"%s\",\n",
  "  \"StorageGCWatermark\": %d,\n",
  "  \"GCPeriod\": \"%s\",\n",
  "  \"Params\": null,\n",
  "  \"NoSync\": %s,\n",
  "  \"HashOnRead\": %s,\n",
  "  \"BloomFilterSize\": %d\n",
  " \x7d,\n \"Addresses\": \x7b\n",
  "  \"Swarm\": [\n"]

def swarmFormat : Bytes := ascii "  \"%s\""

def middleFormat : Bytes := lines [
  "  ],\n",
  "  \"API\": \"%s\",\n",
  "  \"Gateway\": \"%s\"\n",
  " \x7d,\n  \"Mounts\": \x7b\n",
  "  \"IPFS\": \"%s\",\n",
  "  \"IPNS\": \"%s\",\n",
  "  \"FuseAllowOther\": %s\n",
  " \x7d,\n  \"Discovery\": \x7b\n   \"MDNS\": \x7b\n",
  "   \"Enabled\": %s,\n",
  "   \"Interval\": %d\n  \x7d\n \x7d,\n",
  " \"Ipns\": \x7b\n",
  "  \"RepublishedPeriod\": \"\",\n",
  "  \"RecordLifetime\": \"\",\n",
  "  \"ResolveCacheSize\": %d\n",
  " \x7d,\n \"Bootstrap\": [\n"]

def bootstrapFormat : Bytes := ascii "  \"%s\""

def gatewayFormat : Bytes := lines [
  " ],\n \"Tour\": \x7b\n  \"Last\": \"\"\n \x7d,\n",
  " \"Gateway\": \x7b\n",
  "  \"HTTPHeaders\": \x7b\n"]

def headerFormat : Bytes := ascii "   \"%s\": [\n    \"%s\"\n  ]"

-- there is no comma behind `RootRedirect` and `Writable`
def endFormat : Bytes := lines [
  "  \"RootRedirect\": \"%s\"\n",
  "  \"Writable\": %s\n",
  "  \"PathPrefixes\": []\n",
  " \x7d,\n \"SupernodeRouting\": \x7b\n",
  "  \"Servers\": null\n \x7d,",
  " \"API\": \x7b\n  \"HTTPHeaders\": null\n \x7d,\n",
  " \"Swarm\": \x7b\n  \"AddrFilters\": null\n \x7d\n\x7d"]

/-- The consecutive calls of `fprintf` between two loops are one. -/
def repoConfigWriteConfigFile {lib : ConfigLibrary} (config : WrittenConfig lib) : Option Bytes := do
  let encodedBuffer ← config.encodePrivateKey config.privateKeyDer
  pure (
    fprintf startFormat [config.peerId, encodedBuffer, config.type, config.path, config.storageMax,
      printInt config.storageGcWatermark.toInt, config.gcPeriod, printBool config.noSync, printBool config.hashOnRead,
      printInt config.bloomFilterSize.toInt] ++
    (fprintfEach (fun item => fprintf swarmFormat [item]) (ascii ",\n") (ascii "\n") config.swarmHead ++
    (fprintf middleFormat [config.api, config.gateway, config.ipfs, config.ipns, ascii "false",
      printBool config.mdnsEnabled, printInt config.mdnsInterval.toInt, printInt config.resolveCacheSize.toInt] ++
    (fprintfEach (fun peer => fprintf bootstrapFormat [config.multiaddressString peer]) (ascii ",\n") (ascii "\n")
      config.bootstrapPeers ++
    (fprintf gatewayFormat [] ++
    (fprintfEach (fun header => fprintf headerFormat [header.1, header.2]) (ascii ",\n") (ascii "\n \x7d,\n")
      config.httpHeaders ++
    fprintf endFormat [config.rootRedirect, printBool config.writable]))))))

/-! ## The lexemes of the file -/

def named (name : String) (value : List JsonLexeme) : List JsonLexeme := .string (ascii name) :: .colon :: value

def stringNamed (name : String) (text : Bytes) : List JsonLexeme := named name [.string text]

def primitiveNamed (name : String) (text : Bytes) : List JsonLexeme := named name [.primitive text]

def member (name : String) (json : Json) : JsonString × Json := (.ofText (ascii name), json)

def stringMember (name : String) (text : Bytes) : JsonString × Json := member name (.string (.ofText text))

def primitiveMember (name : String) (text : Bytes) : JsonString × Json := member name (.primitive text)

def identityJson (peerId privKey : Bytes) : Json :=
  .object [stringMember "PeerID" peerId, stringMember "PrivKey" privKey]

def datastoreJson (type path storageMax watermark gcPeriod noSync hashOnRead bloomFilterSize : Bytes) : Json :=
  .object [stringMember "Type" type, stringMember "Path" path, stringMember "StorageMax" storageMax,
    primitiveMember "StorageGCWatermark" watermark, stringMember "GCPeriod" gcPeriod,
    primitiveMember "Params" (ascii "null"), primitiveMember "NoSync" noSync, primitiveMember "HashOnRead" hashOnRead,
    primitiveMember "BloomFilterSize" bloomFilterSize]

def addressesJson (swarm : List Bytes) (api gateway : Bytes) : Json :=
  .object [member "Swarm" (.strings (swarm.map .ofText)), stringMember "API" api, stringMember "Gateway" gateway]

def mountsJson (ipfs ipns : Bytes) (fuseAllowOther : Bytes) : Json :=
  .object [stringMember "IPFS" ipfs, stringMember "IPNS" ipns, primitiveMember "FuseAllowOther" fuseAllowOther]

def discoveryJson (enabled interval : Bytes) : Json :=
  .object [member "MDNS" (.object [primitiveMember "Enabled" enabled, primitiveMember "Interval" interval])]

def ipnsJson (resolveCacheSize : Bytes) : Json :=
  .object [stringMember "RepublishedPeriod" [], stringMember "RecordLifetime" [],
    primitiveMember "ResolveCacheSize" resolveCacheSize]

def tourJson : Json := .object [stringMember "Last" []]

def headersJson (headers : List (Bytes × Bytes)) : Json :=
  .object (headers.map fun header => (.ofText header.1, .array [.string (.ofText header.2)]))

/-! ## Its parts -/

def startLexemes (peerId privKey type path storageMax watermark gcPeriod noSync hashOnRead bloomFilterSize : Bytes) :
    List JsonLexeme :=
  .opens .object :: (named "Identity" (identityJson peerId privKey).lexemes ++ (.comma ::
    named "Datastore"
      (datastoreJson type path storageMax watermark gcPeriod noSync hashOnRead bloomFilterSize).lexemes ++
    (.comma :: named "Addresses" (.opens .object :: named "Swarm" [.opens .array]))))

def middleLexemes (api gateway ipfs ipns fuseAllowOther enabled interval resolveCacheSize : Bytes) : List JsonLexeme :=
  .closes .array :: .comma :: (stringNamed "API" api ++ (.comma :: stringNamed "Gateway" gateway ++
    (.closes .object :: .comma :: named "Mounts" (mountsJson ipfs ipns fuseAllowOther).lexemes ++
    (.comma :: named "Discovery" (discoveryJson enabled interval).lexemes ++
    (.comma :: named "Ipns" (ipnsJson resolveCacheSize).lexemes ++ (.comma :: named "Bootstrap" [.opens .array]))))))

def gatewayLexemes : List JsonLexeme :=
  .closes .array :: .comma :: (named "Tour" tourJson.lexemes ++
    (.comma :: named "Gateway" (.opens .object :: named "HTTPHeaders" [.opens .object])))

/-- The members behind the gateway. -/
def endMembers : List (JsonString × Json) :=
  [member "SupernodeRouting" (.object [primitiveMember "Servers" (ascii "null")]),
    member "API" (.object [primitiveMember "HTTPHeaders" (ascii "null")]),
    member "Swarm" (.object [primitiveMember "AddrFilters" (ascii "null")])]

def redirectLexemes (rootRedirect writable : Bytes) : List JsonLexeme :=
  stringNamed "RootRedirect" rootRedirect ++ (primitiveNamed "Writable" writable ++
    (named "PathPrefixes" [.opens .array, .closes .array] ++ [.closes .object]))

def endLexemes (rootRedirect writable : Bytes) : List JsonLexeme :=
  redirectLexemes rootRedirect writable ++ (Json.memberLexemes endMembers ++ [.closes .object])

def itemLexemes {α : Type} (lexemes : α → List JsonLexeme) (items : List α) : List JsonLexeme :=
  (items.flatMap fun item => .comma :: lexemes item).tail

def headerLexemes (header : Bytes × Bytes) : List JsonLexeme :=
  .string header.1 :: .colon :: [.opens .array, .string header.2, .closes .array]

section
variable {lexemes more : List JsonLexeme} {text : Bytes}

theorem start_lexed : lexFormat .white startFormat = some ((startLexemes placeholder placeholder placeholder placeholder
    placeholder placeholder placeholder placeholder placeholder placeholder).map JsonLexeme.template) := by
  decide +kernel

theorem middle_lexed : lexFormat .white middleFormat = some ((middleLexemes placeholder placeholder placeholder placeholder
    placeholder placeholder placeholder placeholder).map JsonLexeme.template) := by
  decide +kernel

theorem gateway_lexed : lexFormat .white gatewayFormat = some (gatewayLexemes.map JsonLexeme.template) := by
  decide +kernel

theorem end_lexed : lexFormat .white endFormat =
    some ((endLexemes placeholder placeholder).map JsonLexeme.template) := by
  decide +kernel

theorem header_lexed : lexFormat .white headerFormat =
    some ((headerLexemes (placeholder, placeholder)).map JsonLexeme.template) := by
  decide +kernel

theorem JsonLexes.space {space : Bytes} (white : ∀ c ∈ space, jsonSign c = .white) (rest : JsonLexes lexemes text) :
    JsonLexes lexemes (space ++ text) := by
  induction space with
  | nil => exact rest
  | cons c space ih => exact .white (white c List.mem_cons_self) (ih fun d mem => white d (List.mem_cons_of_mem _ mem))

theorem JsonLexes.commaLine (rest : JsonLexes lexemes text) : JsonLexes (.comma :: lexemes) (ascii ",\n" ++ text) := by
  have comma : JsonLexes (.comma :: lexemes) ([0x2c] ++ 0x0a :: text) := .cons .comma trivial (.white rfl rest)
  exact comma

theorem JsonLexes.closeLine (rest : JsonLexes lexemes text) :
    JsonLexes (.closes .object :: .comma :: lexemes) (ascii "\n \x7d,\n" ++ text) := by
  have close : JsonLexes (.closes .object :: .comma :: lexemes) (0x0a :: 0x20 :: ([0x7d] ++ ([0x2c] ++ 0x0a :: text))) :=
    .white rfl (.white rfl (.cons (.closes (.inl rfl)) trivial (.cons .comma trivial (.white rfl rest))))
  exact close

/-- A loop prints what it prints of each item, with commas between. -/
theorem JsonLexes.each {α : Type} {item : α → Bytes} {itemsLexemes : α → List JsonLexeme} {last : Bytes} {items : List α}
    (each : ∀ a ∈ items, ∀ lexemes text, JsonLexes lexemes text → JsonLexes (itemsLexemes a ++ lexemes) (item a ++ text))
    (after : JsonLexes more (last ++ text)) (nonempty : items ≠ []) :
    JsonLexes (itemLexemes itemsLexemes items ++ more) (fprintfEach item (ascii ",\n") last items ++ text) := by
  induction items with
  | nil => exact absurd rfl nonempty
  | cons a items ih =>
      have first := each a List.mem_cons_self
      cases items with
      | nil =>
          rw [itemLexemes, List.flatMap_cons, List.flatMap_nil, List.append_nil, List.tail_cons, fprintfEach,
            List.append_assoc]
          exact first _ _ after
      | cons b items =>
          have rest := ih (fun c mem => each c (List.mem_cons_of_mem _ mem)) (List.cons_ne_nil _ _)
          have parts : itemLexemes itemsLexemes (a :: b :: items) =
              itemsLexemes a ++ .comma :: itemLexemes itemsLexemes (b :: items) := by
            simp [itemLexemes]
          rw [parts, fprintfEach, List.append_assoc, List.append_assoc, List.append_assoc]
          exact first _ _ rest.commaLine

/-! ## The lexemes of the file -/

variable {a b c d e f g h i j : Bytes}

theorem start_lexes (ha : JsonChars a) (hb : JsonChars b) (hc : JsonChars c) (hd : JsonChars d) (he : JsonChars e)
    (hf : JsonPrimitive f) (hg : JsonChars g) (hh : JsonPrimitive h) (hi : JsonPrimitive i) (hj : JsonPrimitive j)
    (after : JsonLexes more text) :
    JsonLexes (startLexemes a b c d e f g h i j ++ more) (fprintf startFormat [a, b, c, d, e, f, g, h, i, j] ++ text) := by
  refine fprintf_lexes start_lexed ?_ after
  simp (disch := decide) only [startLexemes, named, identityJson, datastoreJson, member, stringMember, primitiveMember,
    Json.lexemes, Json.memberLexemes, List.tail_cons, List.cons_append, List.nil_append, JsonString.ofText,
    JsonLexeme.fills_sign, JsonLexeme.fills_string, JsonLexeme.fills_primitive, JsonLexeme.fills_nil]
  exact ⟨ha, hb, hc, hd, he, hf, hg, hh, hi, hj, trivial⟩

theorem middle_lexes (ha : JsonChars a) (hb : JsonChars b) (hc : JsonChars c) (hd : JsonChars d) (he : JsonPrimitive e)
    (hf : JsonPrimitive f) (hg : JsonPrimitive g) (hh : JsonPrimitive h) (after : JsonLexes more text) :
    JsonLexes (middleLexemes a b c d e f g h ++ more) (fprintf middleFormat [a, b, c, d, e, f, g, h] ++ text) := by
  refine fprintf_lexes middle_lexed ?_ after
  simp (disch := decide) only [middleLexemes, stringNamed, named, mountsJson, discoveryJson, ipnsJson, member,
    stringMember, primitiveMember, Json.lexemes, Json.memberLexemes, List.tail_cons, List.cons_append, List.nil_append,
    JsonString.ofText, JsonLexeme.fills_sign, JsonLexeme.fills_string, JsonLexeme.fills_primitive, JsonLexeme.fills_nil]
  exact ⟨ha, hb, hc, hd, he, hf, hg, hh, trivial⟩

theorem gateway_lexes (after : JsonLexes more text) :
    JsonLexes (gatewayLexemes ++ more) (fprintf gatewayFormat [] ++ text) := by
  refine fprintf_lexes gateway_lexed ?_ after
  simp (disch := decide) only [gatewayLexemes, tourJson, named, member, stringMember, Json.lexemes, Json.memberLexemes,
    List.tail_cons, List.cons_append, List.nil_append, JsonString.ofText, JsonLexeme.fills_sign, JsonLexeme.fills_nil]

theorem header_lexes {header : Bytes × Bytes} (name : JsonChars header.1) (value : JsonChars header.2)
    (after : JsonLexes more text) :
    JsonLexes (headerLexemes header ++ more) (fprintf headerFormat [header.1, header.2] ++ text) := by
  refine fprintf_lexes header_lexed ?_ after
  simp (disch := decide) only [headerLexemes, JsonLexeme.fills_sign, JsonLexeme.fills_string, JsonLexeme.fills_nil]
  exact ⟨name, value, trivial⟩

theorem end_lexes (ha : JsonChars a) (hb : JsonPrimitive b) (after : JsonLexes more text) :
    JsonLexes (endLexemes a b ++ more) (fprintf endFormat [a, b] ++ text) := by
  refine fprintf_lexes end_lexed ?_ after
  simp (disch := decide) only [endLexemes, redirectLexemes, endMembers, stringNamed, primitiveNamed, named, member,
    primitiveMember, Json.lexemes, Json.memberLexemes, List.tail_cons, List.cons_append, List.nil_append,
    JsonString.ofText, JsonLexeme.fills_sign, JsonLexeme.fills_string, JsonLexeme.fills_primitive, JsonLexeme.fills_nil]
  exact ⟨ha, hb, trivial⟩

theorem item_lexes (chars : JsonChars a) (after : JsonLexes more text) :
    JsonLexes ([.string a] ++ more) (fprintf swarmFormat [a] ++ text) := by
  have lexed : lexFormat .white swarmFormat = some [.string] := by decide +kernel
  exact lexFormat_reads lexed after [a] _ (.string chars .nil)

end

namespace WrittenConfig
variable {lib : ConfigLibrary} (config : WrittenConfig lib)

def bootstrapTexts : List Bytes := config.bootstrapPeers.map config.multiaddressString

/-- Behind the last header its object is closed, and without headers it is not. -/
def headersLexemes : List JsonLexeme :=
  if config.httpHeaders = [] then [] else itemLexemes headerLexemes config.httpHeaders ++ [.closes .object, .comma]

def lexemes (privKey : Bytes) : List JsonLexeme :=
  startLexemes config.peerId privKey config.type config.path config.storageMax
    (printInt config.storageGcWatermark.toInt) config.gcPeriod (printBool config.noSync) (printBool config.hashOnRead)
    (printInt config.bloomFilterSize.toInt) ++
  (itemLexemes (fun item => [.string item]) config.swarmHead ++
  (middleLexemes config.api config.gateway config.ipfs config.ipns (ascii "false") (printBool config.mdnsEnabled)
    (printInt config.mdnsInterval.toInt) (printInt config.resolveCacheSize.toInt) ++
  (itemLexemes (fun item => [.string item]) config.bootstrapTexts ++
  (gatewayLexemes ++ (config.headersLexemes ++ endLexemes config.rootRedirect (printBool config.writable))))))

/-- What is printed between quotes. -/
def strings (privKey : Bytes) : List Bytes :=
  [config.peerId, privKey, config.type, config.path, config.storageMax, config.gcPeriod, config.api, config.gateway,
    config.ipfs, config.ipns, config.rootRedirect] ++ config.swarmHead ++ config.bootstrapTexts ++
    config.httpHeaders.flatMap fun header => [header.1, header.2]

end WrittenConfig

theorem fprintfEach_map {α β : Type} (f : α → β) (item : β → Bytes) (between last : Bytes) (items : List α) :
    fprintfEach (fun a => item (f a)) between last items = fprintfEach item between last (items.map f) := by
  induction items with
  | nil => rfl
  | cons a items ih =>
      cases items with
      | nil => rfl
      | cons b items =>
          simp only [List.map_cons] at ih ⊢
          rw [fprintfEach, fprintfEach, ih]

namespace WrittenConfig
variable {lib : ConfigLibrary} {config : WrittenConfig lib}

/-- The items of an array of strings, of which there may be none. -/
theorem lexes_items {items : List Bytes} (chars : ∀ item ∈ items, JsonChars item) {more : List JsonLexeme} {text : Bytes}
    (after : JsonLexes more text) :
    JsonLexes (itemLexemes (fun item => [.string item]) items ++ more)
      (fprintfEach (fun item => fprintf swarmFormat [item]) (ascii ",\n") (ascii "\n") items ++ text) := by
  by_cases nonempty : items = []
  · subst items
    exact after
  · exact .each (fun item mem _ _ => item_lexes (chars item mem)) (.space (by decide +kernel) after) nonempty

/-- The lexemes of the file, if what is printed between quotes may stand there. -/
theorem lexes {privKey data : Bytes} (chars : ∀ text ∈ config.strings privKey, JsonChars text)
    (encoded : config.encodePrivateKey config.privateKeyDer = some privKey)
    (written : repoConfigWriteConfigFile config = some data) : JsonLexes (config.lexemes privKey) data := by
  simp only [repoConfigWriteConfigFile, encoded, Option.bind_eq_bind, Option.bind_some, Option.pure_def,
    Option.some.injEq] at written
  subst data
  simp only [strings, List.forall_mem_append, List.forall_mem_cons, List.not_mem_nil, false_imp_iff, implies_true,
    and_true, List.mem_flatMap, forall_exists_index, and_imp] at chars
  obtain ⟨⟨⟨⟨peerId, privKey, type, path, storageMax, gcPeriod, api, gateway, ipfs, ipns, rootRedirect⟩, swarm⟩,
    bootstrap⟩, headers⟩ := chars
  have finished := end_lexes rootRedirect (printBool_primitive config.writable) .nil
  rw [List.append_nil, List.append_nil] at finished
  have last : JsonLexes (config.headersLexemes ++ endLexemes config.rootRedirect (printBool config.writable))
      (fprintfEach (fun header => fprintf headerFormat [header.1, header.2]) (ascii ",\n") (ascii "\n \x7d,\n")
        config.httpHeaders ++ fprintf endFormat [config.rootRedirect, printBool config.writable]) := by
    unfold headersLexemes
    split
    · rename_i empty
      rw [empty, fprintfEach, List.nil_append, List.nil_append]
      exact finished
    · rename_i nonempty
      rw [List.append_assoc]
      refine .each (fun header mem _ _ after => ?_) ?_ nonempty
      · exact header_lexes (headers _ header mem (by simp)) (headers _ header mem (by simp)) after
      · exact finished.closeLine
  have peers := fprintfEach_map config.multiaddressString (fun item => fprintf swarmFormat [item]) (ascii ",\n")
    (ascii "\n") config.bootstrapPeers
  have fuseAllowOther : JsonPrimitive (ascii "false") := printBool_primitive false
  rw [show bootstrapFormat = swarmFormat from rfl, peers]
  unfold lexemes bootstrapTexts
  exact start_lexes peerId privKey type path storageMax (printInt_primitive _) gcPeriod (printBool_primitive _)
    (printBool_primitive _) (printInt_primitive _) (lexes_items swarm (middle_lexes api gateway ipfs ipns
      fuseAllowOther (printBool_primitive _) (printInt_primitive _) (printInt_primitive _)
      (lexes_items bootstrap (gateway_lexes last))))

end WrittenConfig
end Ipfs
