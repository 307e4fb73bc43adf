import Ipfs.Lib.Conversion
import Ipfs.Lib.Json

/-!
# The configuration file

A section is the first token with its name, and an array is read by counting the tokens behind it.
-/

namespace Ipfs
open Conversion

/-- What is used of jsmn and of libp2p. -/
structure ConfigLibrary where
  MultiAddress : Type
  Peer : Type
  jsmnParse : Bytes → Option (List JsonToken)
  multiaddressNewFromString : Bytes → Option MultiAddress
  peerNewFromMultiaddress : MultiAddress → Peer
  -- the id of the peer that the key belongs to
  buildPrivateKey : Bytes → Option Bytes

/-- `struct RepoConfig`, as far as the file fills it. A number is kept as it is written. -/
structure RepoConfig (lib : ConfigLibrary) where
  peerId : Bytes
  datastore : List (Option Bytes)
  swarmHead : List Bytes
  addrHead : List lib.MultiAddress
  api : Option Bytes
  gateway : Option Bytes
  bootstrapPeers : List lib.MultiAddress
  announceMinutes : Option Bytes := none
  announce : Option Bytes := none
  replicationPeers : List lib.Peer := []

def maxTokens : Nat := 256

/-! ## Tokens -/

def findToken (tokens : List JsonToken) (start : Nat) (tag : Bytes) : Option Nat :=
  ((tokens.drop start).findIdx? fun token => token.kind = .string ∧ token.text = tag).map (start + ·)

/-- The text of a token of one kind. -/
def tokenText (kind : JsonToken.Kind) (tokens : List JsonToken) (pos : Nat) : Outcome (Option Bytes) := do
  let token ← .access .outOfBounds tokens[pos]?
  pure (if token.kind = kind then some token.text else none)

/-- `_get_json_string_value` and `_get_json_int_value`. The token behind the name is not checked to be there. -/
def jsonValue (kind : JsonToken.Kind) (tokens : List JsonToken) (start : Nat) (tag : Bytes) : Outcome (Option Bytes) :=
  match findToken tokens start tag with
  | none => .returned none
  | some pos => tokenText kind tokens (pos + 1)

def getJsonStringValue : List JsonToken → Nat → Bytes → Outcome (Option Bytes) := jsonValue .string

def getJsonIntValue : List JsonToken → Nat → Bytes → Outcome (Option Bytes) := jsonValue .primitive

/-- A loop over the elements of an array, up to the first that is no string. -/
def readStrings (tokens : List JsonToken) (position : Nat → Nat) : List Nat → Outcome (List Bytes)
  | [] => .returned []
  | i :: rest => do
      match ← tokenText .string tokens (position i) with
      | none => pure []
      | some val => do
          let vals ← readStrings tokens position rest
          pure (val :: vals)

/-! ## Sections -/

section
variable (lib : ConfigLibrary) (tokens : List JsonToken)

def openIdentity (pos : Nat) : Outcome Bytes := do
  let testPeerId ← getJsonStringValue tokens pos (ascii "PeerID")
  let found ← getJsonStringValue tokens pos (ascii "PrivKey")
  let privKey ← .access .unassigned found
  let peerId ← .ofOption (lib.buildPrivateKey privKey)
  let testPeerId ← .access .nullPointer testPeerId
  if testPeerId = peerId then pure peerId else .failed

def datastoreOptions : List (JsonToken.Kind × Bytes) :=
  [(.string, ascii "Type"), (.string, ascii "Path"), (.string, ascii "StorageMax"), (.primitive, ascii "StorageGCWatermark"),
    (.string, ascii "GCPeriod"), (.string, ascii "Params"), (.primitive, ascii "NoSync"), (.primitive, ascii "HashOnRead"),
    (.primitive, ascii "BloomFilterSize")]

/-- The options beside the lists and the identity. -/
def optionNames : List Bytes :=
  datastoreOptions.map Prod.snd ++ [ascii "API", ascii "Gateway", ascii "AnnounceMinutes", ascii "Announce"]

def openSwarm (pos : Nat) : Outcome (List Bytes) := do
  -- when the name is not there, the first token is taken
  let swarm := ((findToken tokens pos (ascii "Swarm")).map (· + 1)).getD 0
  let array ← .access .outOfBounds tokens[swarm]?
  if array.kind = .array then readStrings tokens (swarm + 1 + ·) (List.range array.size) else .failed

def openBootstrap (pos : Nat) : Outcome (List lib.MultiAddress) :=
  match findToken tokens pos (ascii "Bootstrap") with
  | none => .returned []
  | some bootstrap => do
      let array ← .access .outOfBounds tokens[bootstrap + 1]?
      if array.kind = .array then do
        let vals ← readStrings tokens (bootstrap + 2 + ·) (List.range array.size)
        pure (vals.filterMap lib.multiaddressNewFromString)
      else .failed

def peerOf (val : Bytes) : Option lib.Peer :=
  (lib.multiaddressNewFromString val).map lib.peerNewFromMultiaddress

def openReplicationPeers (pos : Nat) : Outcome (List lib.Peer) :=
  match findToken tokens pos (ascii "Peers") with
  | none => .returned []
  | some nodes => do
      let array ← .access .outOfBounds tokens[nodes + 1]?
      if array.kind = .array then do
        -- the position stays at the first element
        let vals ← readStrings tokens (fun _ => nodes + 2) (List.range array.size)
        pure (vals.filterMap (peerOf lib))
      else pure []

def openReplication (pos : Nat) (config : RepoConfig lib) : Outcome (RepoConfig lib) :=
  match findToken tokens pos (ascii "Replication") with
  | none => .returned config
  | some replication => do
      let announceMinutes ← getJsonIntValue tokens (replication + 1) (ascii "AnnounceMinutes")
      let announce ← getJsonIntValue tokens (replication + 1) (ascii "Announce")
      let replicationPeers ← openReplicationPeers lib tokens (replication + 1)
      pure { config with announceMinutes, announce, replicationPeers }

def openConfig : Outcome (RepoConfig lib) := do
  let identity ← .ofOption (findToken tokens 0 (ascii "Identity"))
  let peerId ← openIdentity lib tokens identity
  let datastore ← datastoreOptions.mapM fun option => jsonValue option.1 tokens identity option.2
  let addresses ← .ofOption (findToken tokens identity (ascii "Addresses"))
  let swarmHead ← openSwarm tokens addresses
  let api ← getJsonStringValue tokens addresses (ascii "API")
  let gateway ← getJsonStringValue tokens addresses (ascii "Gateway")
  let bootstrapPeers ← openBootstrap lib tokens addresses
  openReplication lib tokens addresses
    { peerId, datastore, swarmHead, addrHead := swarmHead.filterMap lib.multiaddressNewFromString, api, gateway,
      bootstrapPeers }

end

def fsRepoOpenConfig (lib : ConfigLibrary) (data : Bytes) : Outcome (RepoConfig lib) := do
  -- the size of the file is an `int`, and nobody looks whether it was read
  let fileSize := sizeToInt data.length
  let data ← .access .unassigned (if 0 < fileSize then some (data.take fileSize.toNat) else none)
  let tokens ← .ofOption ((lib.jsmnParse data).filter fun tokens => 0 < tokens.length ∧ tokens.length ≤ maxTokens)
  openConfig lib tokens

/-! ## What the file says -/

structure ConfigFile (lib : ConfigLibrary) where
  data : Bytes
  nonempty : data ≠ []
  json : Json
  parsed : lib.jsmnParse data = some json.tokens
  swarm : List JsonString
  bootstrap : List JsonString
  peers : List JsonString
  swarmSection : (json.member (ascii "Addresses")).bind (Json.member (ascii "Swarm")) = some (.strings swarm)
  bootstrapSection : json.member (ascii "Bootstrap") = some (.strings bootstrap)
  peersSection : (json.member (ascii "Replication")).bind (Json.member (ascii "Peers")) = some (.strings peers)

/-- The array begins behind the name. -/
def HoldsStrings (tokens : List JsonToken) (pos : Nat) (elements : List JsonString) : Prop :=
  ∃ before name behind, before.length = pos ∧ tokens = before ++ name :: ((Json.strings elements).tokens ++ behind)

namespace ConfigFile
variable {lib : ConfigLibrary} (config : ConfigFile lib)

def Loaded : Prop :=
  ∃ opened, fsRepoOpenConfig lib config.data = .returned opened ∧
    opened.swarmHead = config.swarm.map JsonString.value ∧
    opened.bootstrapPeers = config.bootstrap.filterMap (lib.multiaddressNewFromString ·.value) ∧
    opened.replicationPeers = config.peers.filterMap (peerOf lib ·.value)

/-- The names are first found where the sections are. -/
structure InPlace : Prop where
  short : config.data.length < 2 ^ 31
  -- behind the name of an option stands a value
  closed : ∀ token ∈ config.json.tokens.getLast?, token.kind = .string → token.text ∉ optionNames
  sections : ∃ identity peerId addresses swarm bootstrap replication nodes,
    findToken config.json.tokens 0 (ascii "Identity") = some identity ∧
    openIdentity lib config.json.tokens identity = .returned peerId ∧
    findToken config.json.tokens identity (ascii "Addresses") = some addresses ∧
    findToken config.json.tokens addresses (ascii "Swarm") = some swarm ∧
    HoldsStrings config.json.tokens swarm config.swarm ∧
    findToken config.json.tokens addresses (ascii "Bootstrap") = some bootstrap ∧
    HoldsStrings config.json.tokens bootstrap config.bootstrap ∧
    findToken config.json.tokens addresses (ascii "Replication") = some replication ∧
    findToken config.json.tokens (replication + 1) (ascii "Peers") = some nodes ∧
    HoldsStrings config.json.tokens nodes config.peers

/-- The file is not too long for the tokens, no element is written in another way than it is meant, and all peers are
the first one. -/
structure Fits : Prop where
  tokens : config.json.tokens.length ≤ maxTokens
  swarm : ∀ element ∈ config.swarm, element.text = element.value
  bootstrap : config.bootstrap.filterMap (lib.multiaddressNewFromString ·.text) =
    config.bootstrap.filterMap (lib.multiaddressNewFromString ·.value)
  peers : ∀ first ∈ config.peers.head?, ∀ element ∈ config.peers, peerOf lib element.value = peerOf lib first.text

end ConfigFile

/-! ## What is read -/

section
variable {lib : ConfigLibrary} {tokens : List JsonToken}

theorem findToken_eq_some {start pos : Nat} {tag : Bytes} (found : findToken tokens start tag = some pos) :
    ∃ token, tokens[pos]? = some token ∧ token.kind = .string ∧ token.text = tag := by
  obtain ⟨i, first, rfl⟩ := Option.map_eq_some_iff.mp found
  obtain ⟨bound, named, -⟩ := List.findIdx?_eq_some_iff_getElem.mp first
  refine ⟨_, ?_, of_decide_eq_true named⟩
  rw [← List.getElem?_drop, List.getElem?_eq_getElem bound]

theorem jsonValue_returns {tag : Bytes}
    (closed : ∀ token ∈ tokens.getLast?, token.kind = .string → token.text ≠ tag) (kind : JsonToken.Kind) (start : Nat) :
    ∃ value, jsonValue kind tokens start tag = .returned value := by
  unfold jsonValue
  cases found : findToken tokens start tag with
  | none => exact ⟨_, rfl⟩
  | some pos =>
      obtain ⟨token, here, isString, named⟩ := findToken_eq_some found
      obtain ⟨bound, eq⟩ := List.getElem?_eq_some_iff.mp here
      have next : pos + 1 < tokens.length := by
        by_contra past
        apply closed token _ isString named
        rw [List.getLast?_eq_getElem?, show tokens.length - 1 = pos by omega, here]
        rfl
      simp only [tokenText, List.getElem?_eq_getElem next]
      exact ⟨_, rfl⟩

theorem readStrings_eq {position : Nat → Nat} {text : Nat → Bytes} {indices : List Nat}
    (each : ∀ i ∈ indices, tokens[position i]? = some ⟨.string, text i, 0⟩) :
    readStrings tokens position indices = .returned (indices.map text) := by
  induction indices with
  | nil => rfl
  | cons i indices ih =>
      have rest := ih fun j mem => each j (List.mem_cons_of_mem _ mem)
      unfold readStrings tokenText
      rw [each i List.mem_cons_self]
      simp only [Outcome.access_some, Outcome.returned_bind, Outcome.pure_def, if_true, rest, List.map_cons]

theorem HoldsStrings.array {pos : Nat} {elements : List JsonString} (holds : HoldsStrings tokens pos elements) :
    tokens[pos + 1]? = some ⟨.array, [], elements.length⟩ := by
  obtain ⟨before, name, behind, rfl, rfl⟩ := holds
  rw [List.getElem?_append_right (by omega), Nat.add_sub_cancel_left, List.getElem?_cons_succ]
  simp [Json.strings, Json.tokens]

theorem HoldsStrings.element {pos i : Nat} {elements : List JsonString} (holds : HoldsStrings tokens pos elements)
    (bound : i < elements.length) : tokens[pos + 2 + i]? = some ⟨.string, elements[i].text, 0⟩ := by
  obtain ⟨before, name, behind, rfl, rfl⟩ := holds
  rw [List.getElem?_append_right (by omega), show before.length + 2 + i - before.length = i + 1 + 1 by omega,
    List.getElem?_cons_succ, Json.strings, Json.tokens, Json.elementTokens_string, List.cons_append,
    List.getElem?_cons_succ, List.getElem?_append_left (by simpa using bound)]
  simp [bound]

theorem HoldsStrings.readStrings {pos : Nat} {elements : List JsonString} (holds : HoldsStrings tokens pos elements) :
    Ipfs.readStrings tokens (pos + 2 + ·) (List.range elements.length) = .returned (elements.map JsonString.text) := by
  have texts : elements.map JsonString.text = (List.range elements.length).map fun i => (elements[i]?.map JsonString.text).getD [] := by
    apply List.ext_getElem?
    intro i
    by_cases bound : i < elements.length
    · simp [bound]
    · simp [bound]
  rw [texts]
  apply readStrings_eq
  intro i mem
  have bound := List.mem_range.mp mem
  rw [holds.element bound, List.getElem?_eq_getElem bound]
  rfl

/-- The first element is read each time. -/
theorem HoldsStrings.readFirst {pos : Nat} {first : JsonString} {elements : List JsonString}
    (holds : HoldsStrings tokens pos (first :: elements)) (indices : List Nat) :
    Ipfs.readStrings tokens (fun _ => pos + 2) indices = .returned (List.replicate indices.length first.text) := by
  rw [← List.map_const']
  exact readStrings_eq fun _ _ => holds.element (Nat.zero_lt_succ _)

variable {pos : Nat} {elements : List JsonString}

theorem openSwarm_eq {swarm : Nat} (found : findToken tokens pos (ascii "Swarm") = some swarm)
    (holds : HoldsStrings tokens swarm elements) :
    openSwarm tokens pos = .returned (elements.map JsonString.text) := by
  unfold openSwarm
  simp only [found, Option.map_some, Option.getD_some, holds.array, Outcome.access_some, Outcome.returned_bind, if_true]
  exact holds.readStrings

theorem openBootstrap_eq {bootstrap : Nat} (found : findToken tokens pos (ascii "Bootstrap") = some bootstrap)
    (holds : HoldsStrings tokens bootstrap elements) :
    openBootstrap lib tokens pos = .returned (elements.filterMap (lib.multiaddressNewFromString ·.text)) := by
  unfold openBootstrap
  simp only [found, holds.array, Outcome.access_some, Outcome.returned_bind, if_true, holds.readStrings,
    Outcome.pure_def, List.filterMap_map]
  rfl

/-- As often as there are elements, the first of them. -/
theorem openReplicationPeers_eq {nodes : Nat} (found : findToken tokens pos (ascii "Peers") = some nodes)
    (holds : HoldsStrings tokens nodes elements) :
    openReplicationPeers lib tokens pos =
      .returned (elements.filterMap fun _ => elements.head?.bind (peerOf lib ·.text)) := by
  unfold openReplicationPeers
  simp only [found, holds.array, Outcome.access_some, Outcome.returned_bind, if_true]
  cases elements with
  | nil => rfl
  | cons first elements =>
      rw [holds.readFirst, List.length_range, ← List.map_const']
      simp only [Outcome.returned_bind, Outcome.pure_def, List.filterMap_map]
      rfl

theorem filterMap_const_eq_iff {α β : Type} {items : List α} {b : Option β} {f : α → Option β} :
    (items.filterMap fun _ => b) = items.filterMap f ↔ ∀ item ∈ items, f item = b := by
  constructor
  · intro same
    cases b with
    | none =>
        rw [List.filterMap_none, eq_comm, List.filterMap_eq_nil_iff] at same
        exact same
    | some b =>
        induction items with
        | nil => exact fun item mem => absurd mem List.not_mem_nil
        | cons item items ih =>
            simp only [List.filterMap_cons] at same
            cases taken : f item with
            | none =>
                simp only [taken] at same
                have longer := congrArg List.length same
                have shorter := List.length_filterMap_le f items
                simp at longer
                omega
            | some c =>
                simp only [taken, List.cons.injEq] at same
                obtain ⟨rfl, same⟩ := same
                rintro other (_ | ⟨_, mem⟩)
                · exact taken
                · exact ih same other mem
  · intro all
    exact List.filterMap_congr fun item mem => (all item mem).symm

end

/-! ## What is loaded -/

namespace ConfigFile
variable {lib : ConfigLibrary} {config : ConfigFile lib}

theorem InPlace.jsonValue (place : config.InPlace) {tag : Bytes} (known : tag ∈ optionNames) (kind : JsonToken.Kind)
    (start : Nat) : ∃ value, Ipfs.jsonValue kind config.json.tokens start tag = .returned value := by
  apply jsonValue_returns
  rintro token last isString rfl
  exact place.closed token last isString known

theorem InPlace.openConfig (place : config.InPlace) :
    ∃ opened, Ipfs.openConfig lib config.json.tokens = .returned opened ∧
      opened.swarmHead = config.swarm.map JsonString.text ∧
      opened.bootstrapPeers = config.bootstrap.filterMap (lib.multiaddressNewFromString ·.text) ∧
      opened.replicationPeers = config.peers.filterMap fun _ => config.peers.head?.bind (peerOf lib ·.text) := by
  obtain ⟨identity, peerId, addresses, swarm, bootstrap, replication, nodes, foundIdentity, accepted, foundAddresses,
    foundSwarm, holdsSwarm, foundBootstrap, holdsBootstrap, foundReplication, foundNodes, holdsNodes⟩ := place.sections
  obtain ⟨datastore, options⟩ : ∃ datastore, (datastoreOptions.mapM fun option =>
      Ipfs.jsonValue option.1 config.json.tokens identity option.2) = .returned datastore := by
    apply Outcome.mapM_returns
    intro option mem
    exact place.jsonValue (List.mem_append_left _ (List.mem_map_of_mem mem)) option.1 identity
  obtain ⟨api, readApi⟩ := place.jsonValue (show ascii "API" ∈ optionNames by decide) .string addresses
  obtain ⟨gateway, readGateway⟩ := place.jsonValue (show ascii "Gateway" ∈ optionNames by decide) .string addresses
  obtain ⟨minutes, readMinutes⟩ :=
    place.jsonValue (show ascii "AnnounceMinutes" ∈ optionNames by decide) .primitive (replication + 1)
  obtain ⟨announce, readAnnounce⟩ :=
    place.jsonValue (show ascii "Announce" ∈ optionNames by decide) .primitive (replication + 1)
  unfold Ipfs.openConfig openReplication getJsonStringValue getJsonIntValue
  simp only [foundIdentity, accepted, options, foundAddresses, openSwarm_eq foundSwarm holdsSwarm, readApi, readGateway,
    openBootstrap_eq foundBootstrap holdsBootstrap, foundReplication, readMinutes, readAnnounce,
    openReplicationPeers_eq foundNodes holdsNodes, Outcome.ofOption_some, Outcome.returned_bind, Outcome.pure_def]
  exact ⟨_, rfl, rfl, rfl, rfl⟩

theorem fsRepoOpenConfig_short (short : config.data.length < 2 ^ 31) (opened : RepoConfig lib) :
    fsRepoOpenConfig lib config.data = .returned opened ↔
      config.json.tokens.length ≤ maxTokens ∧ Ipfs.openConfig lib config.json.tokens = .returned opened := by
  have written := List.length_pos_iff.mpr config.nonempty
  have present := List.length_pos_iff.mpr config.json.tokens_ne_nil
  unfold fsRepoOpenConfig
  simp only [sizeToInt_of_lt short, Int.toNat_natCast, List.take_length, if_pos (Int.natCast_pos.mpr written),
    Outcome.access_some, Outcome.returned_bind, config.parsed]
  by_cases few : config.json.tokens.length ≤ maxTokens
  · simp [Option.filter, present, few]
  · simp [Option.filter, few]

/-- Every configuration whose names are in place. -/
theorem loaded_iff (place : config.InPlace) : config.Loaded ↔ config.Fits := by
  obtain ⟨opened, ran, swarm, bootstrap, peers⟩ := place.openConfig
  have ends (opened' : RepoConfig lib) := fsRepoOpenConfig_short place.short opened'
  constructor
  · rintro ⟨opened', returned, swarm', bootstrap', peers'⟩
    obtain ⟨few, ran'⟩ := (ends opened').mp returned
    obtain rfl := Outcome.returned.inj (ran.symm.trans ran')
    refine ⟨few, List.map_inj_left.mp (swarm.symm.trans swarm'), bootstrap.symm.trans bootstrap', ?_⟩
    intro first head element mem
    have same := filterMap_const_eq_iff.mp (peers.symm.trans peers') element mem
    rw [same, Option.mem_def.mp head]
    rfl
  · intro fits
    refine ⟨opened, (ends opened).mpr ⟨fits.tokens, ran⟩, swarm.trans (List.map_congr_left fits.swarm),
      bootstrap.trans fits.bootstrap, peers.trans (filterMap_const_eq_iff.mpr ?_)⟩
    intro element mem
    cases head : config.peers.head? with
    | none =>
        rw [List.head?_eq_none_iff] at head
        simp [head] at mem
    | some first => exact fits.peers first head element mem

end ConfigFile

/-! ## A small file -/

def sampleJson (peers : List JsonString) : Json :=
  .object [
    (.ofText (ascii "Identity"), .object [
      (.ofText (ascii "PeerID"), .string (.ofText (ascii "Qm"))), (.ofText (ascii "PrivKey"), .string (.ofText (ascii "CA")))]),
    (.ofText (ascii "Addresses"), .object [(.ofText (ascii "Swarm"), .strings [.ofText (ascii "/a")])]),
    (.ofText (ascii "Bootstrap"), .strings [.ofText (ascii "/b"), .ofText (ascii "b")]),
    (.ofText (ascii "Replication"), .object [(.ofText (ascii "Peers"), .strings peers)])]

def sampleStart : Bytes :=
  ascii "\x7b\"Identity\":\x7b\"PeerID\":\"Qm\",\"PrivKey\":\"CA\"\x7d,\"Addresses\":\x7b\"Swarm\":[\"/a\"]\x7d,\"Bootstrap\":[\"/b\",\"b\"],"

def sampleLibrary (json : Json) : ConfigLibrary where
  MultiAddress := Bytes
  Peer := Bytes
  jsmnParse _ := some json.tokens
  multiaddressNewFromString val := if val.head? = some 0x2f then some val else none
  peerNewFromMultiaddress := id
  buildPrivateKey _ := some (ascii "Qm")

abbrev onePeerLibrary : ConfigLibrary := sampleLibrary (sampleJson [.ofText (ascii "/c")])

abbrev twoPeersLibrary : ConfigLibrary := sampleLibrary (sampleJson [.ofText (ascii "/c"), .ofText (ascii "/d")])

def onePeer : ConfigFile onePeerLibrary where
  data := sampleStart ++ ascii "\"Replication\":\x7b\"Peers\":[\"/c\"]\x7d\x7d"
  nonempty := by decide
  json := sampleJson [.ofText (ascii "/c")]
  parsed := rfl
  swarm := [.ofText (ascii "/a")]
  bootstrap := [.ofText (ascii "/b"), .ofText (ascii "b")]
  peers := [.ofText (ascii "/c")]
  swarmSection := rfl
  bootstrapSection := rfl
  peersSection := rfl

def twoPeers : ConfigFile twoPeersLibrary where
  data := sampleStart ++ ascii "\"Replication\":\x7b\"Peers\":[\"/c\",\"/d\"]\x7d\x7d"
  nonempty := by decide
  json := sampleJson [.ofText (ascii "/c"), .ofText (ascii "/d")]
  parsed := rfl
  swarm := [.ofText (ascii "/a")]
  bootstrap := [.ofText (ascii "/b"), .ofText (ascii "b")]
  peers := [.ofText (ascii "/c"), .ofText (ascii "/d")]
  swarmSection := rfl
  bootstrapSection := rfl
  peersSection := rfl

theorem onePeer_inPlace : onePeer.InPlace where
  short := by decide +kernel
  closed := by
    intro token last
    have value : onePeer.json.tokens.getLast? = some ⟨.string, ascii "/c", 0⟩ := rfl
    rw [value, Option.mem_some_iff] at last
    rw [← last]
    decide
  sections := by
    refine ⟨1, ascii "Qm", 7, 9, 12, 16, 18, by decide, by decide, by decide, by decide, ?_, by decide, ?_, by decide,
      by decide, ?_⟩
    · exact ⟨onePeer.json.tokens.take 9, ⟨.string, ascii "Swarm", 1⟩, onePeer.json.tokens.drop 12, rfl, rfl⟩
    · exact ⟨onePeer.json.tokens.take 12, ⟨.string, ascii "Bootstrap", 1⟩, onePeer.json.tokens.drop 16, rfl, rfl⟩
    · exact ⟨onePeer.json.tokens.take 18, ⟨.string, ascii "Peers", 1⟩, [], rfl, rfl⟩

theorem loaded_onePeer : onePeer.Loaded := by
  refine (ConfigFile.loaded_iff onePeer_inPlace).mpr ⟨by decide, by decide, rfl, ?_⟩
  intro first head element mem
  obtain rfl := Option.some.inj head
  obtain rfl := List.mem_singleton.mp mem
  rfl

/-- The first peer is read twice. -/
theorem not_loaded_twoPeers :
    (∃ opened, fsRepoOpenConfig twoPeersLibrary twoPeers.data = .returned opened) ∧ ¬ twoPeers.Loaded := by
  obtain ⟨opened, ran, peers⟩ : ∃ opened, openConfig twoPeersLibrary twoPeers.json.tokens = .returned opened ∧
      opened.replicationPeers = [ascii "/c", ascii "/c"] := ⟨_, rfl, rfl⟩
  have returned := (ConfigFile.fsRepoOpenConfig_short (by decide +kernel) opened).mpr ⟨by decide, ran⟩
  refine ⟨⟨opened, returned⟩, ?_⟩
  rintro ⟨opened', returned', -, -, peers'⟩
  obtain rfl := Outcome.returned.inj (returned.symm.trans returned')
  have second := congrArg List.getLast? (peers.symm.trans peers')
  revert second
  decide

end Ipfs
