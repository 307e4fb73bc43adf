import Ipfs.Bitswap.Network
import Ipfs.Lib.Run
import Ipfs.Store.Known

/-!
# Content addresses

Blocks that are added locally are stored under the hash of their data. Blocks that a peer sends are
stored under the hash that the peer claims, and a node that carries a hash under that hash.
-/

namespace Ipfs
variable {lib : Library}

/-- Every file of the blockstore is the protobuf of a block whose data has the hash of its name. -/
def FsRepo.ContentAddressed (repo : FsRepo lib) : Prop :=
  ∀ hash file, repo.blockstore (lib.crypto.base32 hash) = some file →
    ∃ block, blocksBlockProtobufDecode lib.pb file = .returned block ∧ lib.crypto.sha256 block.data = hash

def Block.Honest (lib : Library) (block : Block) : Prop :=
  ∀ cid, block.cid = some cid → cid.hash = lib.crypto.sha256 block.data

/-! ## Writing blocks -/

def FsRepo.Clean (repo : FsRepo lib) : Prop := repo.ContentAddressed ∧ repo.WritesWhole

theorem FsRepo.ContentAddressed.update {repo repo' : FsRepo lib} (addressed : repo.ContentAddressed)
    {cid : Cid} {data : Bytes} (honest : cid.hash = lib.crypto.sha256 data)
    (written : repo'.blockstore = Function.update repo.blockstore (lib.crypto.base32 cid.hash)
      (some (blockBytes cid data))) : repo'.ContentAddressed := by
  intro hash file found
  rw [written] at found
  by_cases same : hash = cid.hash
  · subst same
    rw [Function.update_self, Option.some.injEq] at found
    subst found
    exact ⟨_, blocksBlockProtobufDecode_blockBytes lib.pb data (cidProtobufDecode_cidBytes lib.pb cid), honest.symm⟩
  · have other : lib.crypto.base32 hash ≠ lib.crypto.base32 cid.hash :=
      fun names => same (lib.crypto.base32_injective names)
    rw [Function.update_of_ne other] at found
    exact addressed hash file found

theorem writeFile_preserves_clean {cid : Cid} {data : Bytes} (honest : cid.hash = lib.crypto.sha256 data) :
    Act.Preserves FsRepo.Clean (writeFile (lib.crypto.base32 cid.hash) (blockBytes cid data) : Act (FsRepo lib) Nat) := by
  rintro repo ⟨addressed, whole⟩
  have rest : ∀ write ∈ repo.disk.tail, ∀ count, write ≠ .short count :=
    fun write mem => whole write (List.mem_of_mem_tail mem)
  rcases writeFile_ends (lib.crypto.base32 cid.hash) (blockBytes cid data) repo with ⟨_, faults⟩ | ⟨_, written⟩
  · rw [faults]
    exact ⟨addressed, rest⟩
  · have next : ∀ count, repo.disk.headD .complete ≠ .short count := by
      cases disk : repo.disk with
      | nil => exact fun count => DiskWrite.noConfusion
      | cons write writes => exact whole write (by rw [disk]; exact List.mem_cons_self)
    rw [written, DiskWrite.kept_of_ne next]
    exact ⟨addressed.update honest rfl, rest⟩

theorem blockstorePut_preserves_clean {block : Block} (honest : block.Honest lib)
    (sized : block.data.length + 88 < 2 ^ 64) :
    Act.Preserves FsRepo.Clean (blockstorePut block : Act (FsRepo lib) Nat) := by
  obtain ⟨cid, data⟩ := block
  apply Act.Preserves.lift_bind
  intro cid' present
  obtain rfl : cid = some cid' := Outcome.access_eq_returned.mp present
  have hash := honest cid' rfl
  have length : cid'.hash.length = 32 := by rw [hash, lib.crypto.sha256_length]
  have bound : data.length + 88 < 2 ^ 64 := sized
  have encode := blocksBlockProtobufEncode_size lib.pb cid' data
    (by simp only [blocksBlockProtobufEncodeSize, cidProtobufEncodeSize, length]; omega)
  apply Act.Preserves.lift_bind
  intro protobuf encoded
  obtain rfl : blockBytes cid' data = protobuf := by
    rw [encode] at encoded
    exact Outcome.returned.inj encoded
  refine (writeFile_preserves_clean hash).bind fun bytesWritten => ?_
  split
  · exact .lift _
  · exact .pure _

theorem datastorePut_preserves_clean (key value : Bytes) :
    Act.Preserves FsRepo.Clean (datastorePut key value : Act (FsRepo lib) Unit) := by
  rintro repo clean
  rw [datastorePut]
  cases lib.store.put repo.datastore key value <;> exact clean

theorem datastoreHelper_preserves_clean (block : Block) :
    Act.Preserves FsRepo.Clean (datastoreHelperAddBlockToDatastore block : Act (FsRepo lib) Unit) := by
  apply Act.Preserves.lift_bind
  intro cid _
  split
  · exact .lift _
  · exact datastorePut_preserves_clean _ _

def HashtableNode.Honest (lib : Library) (node : HashtableNode) : Prop :=
  ∀ hash protobuf, node.hash = some hash →
    hashtableNodeProtobufEncode lib.pb lib.mh node (hashtableNodeProtobufEncodeSize node) = some protobuf →
    hash = lib.crypto.sha256 protobuf

theorem merkledagHash_eq_some {node hashed : HashtableNode} (isHashed : merkledagHash lib node = some hashed) :
    ∃ hash, hashed = { node with hash := some hash } ∧ (node.hash = some hash ∨
      ∃ protobuf, hash = lib.crypto.sha256 protobuf ∧
        hashtableNodeProtobufEncode lib.pb lib.mh node (hashtableNodeProtobufEncodeSize node) = some protobuf) := by
  rw [merkledagHash] at isHashed
  cases carried : node.hash with
  | some hash =>
      simp only [carried, Option.some.injEq] at isHashed
      exact ⟨hash, by rw [← isHashed, ← carried], .inl rfl⟩
  | none =>
      simp only [carried, Option.bind_eq_bind, Option.bind_eq_some_iff, Option.some.injEq] at isHashed
      obtain ⟨protobuf, encoded, rfl⟩ := isHashed
      exact ⟨_, rfl, .inr ⟨protobuf, rfl, encoded⟩⟩

theorem merkledagConvertNodeToBlock_honest {node hashed : HashtableNode} {block : Block} (honest : node.Honest lib)
    (isHashed : merkledagHash lib node = some hashed)
    (converted : merkledagConvertNodeToBlock lib hashed = some block) :
    block.Honest lib ∧ block.data.length ≤ hashtableNodeProtobufEncodeSize node := by
  obtain ⟨hash, rfl, source⟩ := merkledagHash_eq_some isHashed
  simp only [merkledagConvertNodeToBlock, Option.bind_eq_bind, Option.bind_eq_some_iff, Option.some.injEq,
    Option.getD_some] at converted
  obtain ⟨data, encoded, rfl⟩ := converted
  -- the hash is not part of the encoding
  have same : hashtableNodeProtobufEncode lib.pb lib.mh node (hashtableNodeProtobufEncodeSize node) = some data :=
    encoded
  refine ⟨?_, hashtableNodeProtobufEncode_length_le lib.pb lib.mh same⟩
  intro cid isCid
  obtain rfl := Option.some.inj isCid
  rcases source with carried | ⟨protobuf, rfl, encoded'⟩
  · exact honest hash data carried same
  · rw [same, Option.some.injEq] at encoded'
    rw [encoded']
    rfl

theorem merkledagAdd_preserves_clean {node : HashtableNode} (honest : node.Honest lib)
    (sized : hashtableNodeProtobufEncodeSize node + 88 < 2 ^ 64) :
    Act.Preserves FsRepo.Clean (merkledagAdd node : Act (FsRepo lib) (HashtableNode × Nat)) := by
  apply Act.Preserves.lift_bind
  intro hashed isHashed
  apply Act.Preserves.lift_bind
  intro block converted
  obtain ⟨honest', length⟩ := merkledagConvertNodeToBlock_honest honest
    (Outcome.ofOption_eq_returned.mp isHashed) (Outcome.ofOption_eq_returned.mp converted)
  have written : Act.Preserves FsRepo.Clean (fsrepoBlockWrite block : Act (FsRepo lib) Nat) :=
    (blockstorePut_preserves_clean honest' (by omega)).bind fun _ =>
      (datastoreHelper_preserves_clean block).bind fun _ => .pure _
  exact written.bind fun _ => .pure _

/-! ## Incoming messages -/

def BitswapContext.Clean (context : BitswapContext lib) : Prop := context.repo.Clean

theorem onRepo_preserves_clean {α : Type} {x : Act (FsRepo lib) α} (preserves : x.Preserves FsRepo.Clean) :
    (onRepo x).Preserves BitswapContext.Clean :=
  preserves.zoom (fun _ clean => clean) (fun _ _ _ clean => clean)

theorem bitswapHasBlock_preserves_clean {block : Block} (honest : block.Honest lib)
    (sized : block.data.length + 88 < 2 ^ 64) :
    Act.Preserves BitswapContext.Clean (bitswapHasBlock block : Act (BitswapContext lib) Unit) := by
  refine (onRepo_preserves_clean (blockstorePut_preserves_clean honest sized)).attempt.bind fun _ => ?_
  refine (onRepo_preserves_clean (datastoreHelper_preserves_clean block)).attempt.bind fun _ => ?_
  refine (Act.Preserves.gets _).bind fun wantlist => (Act.Preserves.lift _).bind fun place => ?_
  cases place with
  | none => exact .pure _
  | some i => exact fun _ clean => clean

theorem handlePayload_preserves_clean (payload : List Block) (honest : ∀ block ∈ payload, block.Honest lib)
    (sized : ∀ block ∈ payload, block.data.length + 88 < 2 ^ 64) :
    Act.Preserves BitswapContext.Clean (handlePayload payload : Act (BitswapContext lib) Unit) := by
  induction payload with
  | nil => exact .pure _
  | cons blk payload ih =>
      rw [handlePayload]
      apply Act.Preserves.lift_bind
      intro block copied
      obtain ⟨rfl, _⟩ := blockCopy_eq_returned copied
      refine (bitswapHasBlock_preserves_clean (honest block (by simp)) (sized block (by simp))).bind fun _ => ?_
      exact ih (fun other mem => honest other (by simp [mem])) (fun other mem => sized other (by simp [mem]))

theorem handleWantlist_preserves_clean (session : Session) (entries : List (Option WantlistEntry)) :
    Act.Preserves BitswapContext.Clean (handleWantlist session entries : Act (BitswapContext lib) Unit) := by
  refine (Act.Preserves.lift _).bind fun remotePeerId => (Act.Preserves.lift _).bind fun peer => ?_
  have found : Act.Preserves BitswapContext.Clean (peerRequestQueueFindPeer peer : Act (BitswapContext lib) Nat) := by
    intro context clean
    rw [peerRequestQueueFindPeer]
    split <;> exact clean
  exact found.bind fun i context clean => clean

def payloadOf (lib : Library) (bytes : Bytes) : List Block :=
  match messageBody bytes >>= bitswapMessageProtobufDecode lib.pb with
  | .returned (some message) => message.payload.getD []
  | _ => []

theorem messageBody_length {bytes body : Bytes} (found : messageBody bytes = .returned body) :
    body.length ≤ bytes.length := by
  rw [messageBody] at found
  split at found
  · split at found
    · obtain rfl := Outcome.returned.inj found
      rw [List.length_drop]
      omega
    · simp at found
  · split at found <;> simp at found

theorem networkHandleMessage_preserves_clean (session : Session) {bytes : Bytes}
    (sized : bytes.length + 88 < 2 ^ 64) (honest : ∀ block ∈ payloadOf lib bytes, block.Honest lib) :
    Act.Preserves BitswapContext.Clean (networkHandleMessage session bytes : Act (BitswapContext lib) Unit) := by
  apply Act.Preserves.lift_bind
  intro body isBody
  apply Act.Preserves.lift_bind
  intro decoded isDecoded
  apply Act.Preserves.lift_bind
  intro message isMessage
  obtain rfl := Outcome.access_eq_returned.mp isMessage
  have payload : payloadOf lib bytes = message.payload.getD [] := by
    rw [payloadOf, isBody, Outcome.returned_bind, isDecoded]
  rw [payload] at honest
  have lengths := bitswapMessageProtobufDecode_payload_le lib.pb isDecoded
  have shorter := messageBody_length isBody
  refine (handlePayload_preserves_clean _ honest fun block mem => ?_).bind fun _ => ?_
  · have := lengths block mem
    omega
  · split
    · exact .pure _
    · exact handleWantlist_preserves_clean session _

/-! ## Runs -/

inductive StoreCall
  | merkledagAdd (node : HashtableNode) (sized : hashtableNodeProtobufEncodeSize node + 88 < 2 ^ 64)
  | blockPut (data : Bytes) (sized : data.length + 88 < 2 ^ 64)
  | message (session : Session) (bytes : Bytes) (sized : bytes.length + 88 < 2 ^ 64)

def StoreCall.perform (call : StoreCall) (context : BitswapContext lib) : BitswapContext lib :=
  match call with
  | .merkledagAdd node _ => (onRepo (Ipfs.merkledagAdd node) context).2
  | .blockPut data _ => (onRepo (blockstorePut (blocksBlockAddData lib data)) context).2
  | .message session bytes _ => (networkHandleMessage session bytes context).2

def storeMachine (lib : Library) : Machine (BitswapContext lib) StoreCall where
  step context call := some (call.perform context)

def StoreCall.Allowed (context : BitswapContext lib) (call : StoreCall) : Prop :=
  context.repo.WritesWhole ∧
    match call with
    | .merkledagAdd node _ => node.Honest lib
    | .blockPut _ _ => True
    | .message _ bytes _ => ∀ block ∈ payloadOf lib bytes, block.Honest lib

theorem StoreCall.perform_contentAddressed {context : BitswapContext lib} {call : StoreCall}
    (addressed : context.repo.ContentAddressed) (allowed : call.Allowed context) :
    (call.perform context).repo.ContentAddressed := by
  obtain ⟨whole, honest⟩ := allowed
  have clean : context.Clean := ⟨addressed, whole⟩
  cases call with
  | merkledagAdd node sized =>
      exact (onRepo_preserves_clean (merkledagAdd_preserves_clean honest sized) context clean).1
  | blockPut data sized =>
      have own : (blocksBlockAddData lib data).Honest lib := by
        rintro cid ⟨⟩
        rfl
      exact (onRepo_preserves_clean (blockstorePut_preserves_clean own sized) context clean).1
  | message session bytes sized =>
      exact (networkHandleMessage_preserves_clean session sized honest context clean).1

theorem storeMachine_contentAddressed (lib : Library) (context context' : BitswapContext lib)
    (calls : List StoreCall) (empty : ∀ name, context.repo.blockstore name = none)
    (allowed : (storeMachine lib).RunMeets StoreCall.Allowed context calls)
    (ran : (storeMachine lib).run context calls = some context') : context'.repo.ContentAddressed := by
  have start : context.repo.ContentAddressed := fun hash file found => by
    rw [empty] at found
    cases found
  refine Machine.run_invariant (fun context => context.repo.ContentAddressed)
    (fun context call next addressed allowed step => ?_) start allowed ran
  obtain rfl := Option.some.inj step
  exact StoreCall.perform_contentAddressed addressed allowed

/-! ## An honest and a forged block -/

def letterDigest : Digest :=
  { block := [0x68]
    sha256 := [0xaa, 0xa9, 0x40, 0x26, 0x64, 0xf1, 0xa4, 0x1f, 0x40, 0xeb, 0xbc, 0x52, 0xc9, 0x99,
               0x3e, 0xb6, 0x6a, 0xeb, 0x36, 0x66, 0x02, 0x95, 0x8f, 0xdf, 0xaa, 0x28, 0x3b, 0x71,
               0xe6, 0x4d, 0xb1, 0x23]
    base32 := [0x56, 0x4b, 0x55, 0x55, 0x41, 0x4a, 0x54, 0x45, 0x36, 0x47, 0x53, 0x42, 0x36, 0x51,
               0x48, 0x4c, 0x58, 0x52, 0x4a, 0x4d, 0x54, 0x47, 0x4a, 0x36, 0x57, 0x5a, 0x56, 0x4f,
               0x57, 0x4e, 0x54, 0x47, 0x41, 0x4b, 0x4b, 0x59, 0x37, 0x58, 0x35, 0x4b, 0x46, 0x41,
               0x35, 0x58, 0x44, 0x5a, 0x53, 0x4e, 0x57, 0x45, 0x52, 0x51]
    base58 := [0x51, 0x6d, 0x5a, 0x70, 0x71, 0x68, 0x6f, 0x4a, 0x32, 0x59, 0x66, 0x71, 0x6d, 0x75,
               0x73, 0x42, 0x6d, 0x33, 0x64, 0x71, 0x67, 0x79, 0x69, 0x38, 0x47, 0x33, 0x65, 0x52,
               0x5a, 0x59, 0x6d, 0x74, 0x55, 0x63, 0x5a, 0x57, 0x73, 0x4e, 0x74, 0x69, 0x72, 0x4b,
               0x6f, 0x47, 0x51, 0x61] }

def letterTable : Digest.Table where
  entries := [fileDigest, letterDigest]
  other := List.replicate 32 0
  lengths := by decide
  distinct := by decide
  written := by decide
  apart := by decide
  alphabet := by decide

def payloadMessage (hash data : Bytes) : Bytes :=
  0x0a :: bitswapMessageBytes { payload := some [⟨some (cidNew 0 hash cidDagProtobuf), data⟩] }

def honestBytes : Bytes := payloadMessage letterDigest.sha256 letterDigest.block

def forgedBytes : Bytes := payloadMessage fileDigest.sha256 letterDigest.block

def anonymousSession : Session := { remotePeerId := none, peerstore := fun _ => none }

def emptyContext : BitswapContext (.known letterTable) :=
  { repo := .new letterTable, localWantlist := some [], peerRequestQueue := [] }

def honestCalls : List StoreCall :=
  [.blockPut fileDigest.block (by decide), .message anonymousSession honestBytes (by decide)]

theorem storeMachine_contentAddressed_honest :
    ∃ context', (storeMachine (.known letterTable)).run emptyContext honestCalls = some context' ∧
      (context'.repo.blockstore fileDigest.base32).isSome ∧ (context'.repo.blockstore letterDigest.base32).isSome ∧
      context'.repo.ContentAddressed := by
  have honest : ∀ block ∈ payloadOf (.known letterTable) honestBytes, block.Honest (.known letterTable) := by
    have payload : payloadOf (.known letterTable) honestBytes =
        [⟨some (cidNew 0 letterDigest.sha256 cidDagProtobuf), letterDigest.block⟩] := by decide
    rw [payload]
    rintro block mem cid isCid
    obtain rfl := List.mem_singleton.mp mem
    obtain rfl := Option.some.inj isCid
    decide
  have allowed : (storeMachine (.known letterTable)).RunMeets StoreCall.Allowed emptyContext honestCalls := by
    refine ⟨⟨by simp [FsRepo.WritesWhole, emptyContext, FsRepo.new], trivial⟩, fun next step => ?_⟩
    have noWrites : next.repo.disk = [] := by
      rw [← Option.some.inj step]
      rfl
    exact ⟨⟨by simp [FsRepo.WritesWhole, noWrites], honest⟩, fun _ _ => trivial⟩
  exact ⟨_, rfl, by decide, by decide, storeMachine_contentAddressed _ emptyContext _ honestCalls (fun _ => rfl) allowed rfl⟩

theorem not_storeMachine_contentAddressed_forged :
    ¬ ∀ (lib : Library) (context context' : BitswapContext lib) (calls : List StoreCall),
      (∀ name, context.repo.blockstore name = none) → (storeMachine lib).run context calls = some context' →
      context'.repo.ContentAddressed := by
  intro claim
  have addressed := claim (.known letterTable) emptyContext _ [.message anonymousSession forgedBytes (by decide)]
    (fun _ => rfl) rfl
  obtain ⟨block, decoded, same⟩ := addressed fileDigest.sha256
    (blockBytes (cidNew 0 fileDigest.sha256 cidDagProtobuf) letterDigest.block) (by decide)
  have stored : blocksBlockProtobufDecode .standard (blockBytes (cidNew 0 fileDigest.sha256 cidDagProtobuf)
      letterDigest.block) = .returned block := decoded
  rw [blocksBlockProtobufDecode_blockBytes .standard _ (cidProtobufDecode_cidNew .standard 0 cidDagProtobuf _),
    Outcome.returned.injEq] at stored
  subst stored
  exact absurd same (by decide)

end Ipfs
