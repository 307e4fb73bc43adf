import Ipfs.Importer.Importer

/-!
# What a file becomes

The chunks of a file, the node of a chunk, and the root that links to the chunks.
-/

namespace Ipfs

def fileChunks : Nat → Bytes → List Bytes
  | 0, _ => []
  | fuel + 1, file =>
      file.take maxDataSize ::
        if (file.take maxDataSize).length = maxDataSize then fileChunks fuel (file.drop maxDataSize) else []

/-- The chunks that `importFile` reads. -/
def chunksOf (file : Bytes) : List Bytes := fileChunks (file.length / maxDataSize + 1) file

def chunkUnixFS (chunk : Bytes) : UnixFS :=
  { dataType := .file, bytes := chunk, fileSize := .ofNat chunk.length }

def chunkNode (chunk : Bytes) : HashtableNode := { data := unixfsBytes (chunkUnixFS chunk) }

def linkedUnixFS (chunks : List Bytes) : UnixFS :=
  { dataType := .file, fileSize := .ofNat chunks.flatten.length, blockSizes := chunks.map fun c => .ofNat c.length }

variable (lib : Library)

def nodeBytes (node : HashtableNode) : Bytes := hashtableNodeBytes lib.mh node

def nodeHash (node : HashtableNode) : Bytes := lib.crypto.sha256 (nodeBytes lib node)

def nodeFileLength (node : HashtableNode) : Nat :=
  (blockBytes (cidNew 1 (nodeHash lib node) cidDagProtobuf) (nodeBytes lib node)).length

def chunkLink (chunk : Bytes) : NodeLink :=
  { hash := nodeHash lib (chunkNode chunk), tSize := .ofNat (nodeFileLength lib (chunkNode chunk)) }

def linkedNode (chunks : List Bytes) : HashtableNode :=
  { data := unixfsBytes (linkedUnixFS chunks), links := chunks.map (chunkLink lib) }

def parentNode (chunks : List Bytes) : HashtableNode := if chunks = [] then {} else linkedNode lib chunks

def fileNode : List Bytes → HashtableNode
  | [chunk] => chunkNode chunk
  | chunks => linkedNode lib chunks

def fileBlocks (chunks : List Bytes) : List Bytes :=
  nodeBytes lib (fileNode lib chunks) :: chunks.map fun chunk => nodeBytes lib (chunkNode chunk)

/-! ## Chunks -/

theorem long_of_full {file : Bytes} (full : (file.take maxDataSize).length = maxDataSize) :
    maxDataSize ≤ file.length := by
  rw [List.length_take] at full
  omega

/-- Behind a chunk there is one chunk less to come. -/
theorem chunks_drop_lt {fuel : Nat} {file : Bytes} (long : maxDataSize ≤ file.length)
    (enough : file.length / maxDataSize < fuel + 1) : (file.drop maxDataSize).length / maxDataSize < fuel := by
  have step := Nat.div_eq_sub_div (show 0 < maxDataSize by decide) long
  rw [List.length_drop]
  omega

theorem fileChunks_flatten (fuel : Nat) (file : Bytes) (enough : file.length / maxDataSize < fuel) :
    (fileChunks fuel file).flatten = file := by
  induction fuel generalizing file with
  | zero => exact absurd enough (Nat.not_lt_zero _)
  | succ fuel ih =>
      rw [fileChunks, List.flatten_cons, List.length_take]
      by_cases full : maxDataSize ≤ file.length
      · rw [if_pos (Nat.min_eq_left full), ih _ (chunks_drop_lt full enough), List.take_append_drop]
      · rw [if_neg (by omega), List.take_of_length_le (by omega)]
        simp

theorem chunksOf_flatten (file : Bytes) : (chunksOf file).flatten = file :=
  fileChunks_flatten _ file (Nat.lt_succ_self _)

theorem fileChunks_shape (fuel : Nat) (file : Bytes) (enough : file.length / maxDataSize < fuel) :
    ∃ full last, fileChunks fuel file = full ++ [last] ∧ full.length = file.length / maxDataSize ∧
      (∀ chunk ∈ full, chunk.length = maxDataSize) ∧ last.length < maxDataSize := by
  induction fuel generalizing file with
  | zero => exact absurd enough (Nat.not_lt_zero _)
  | succ fuel ih =>
      rw [fileChunks, List.length_take]
      by_cases long : maxDataSize ≤ file.length
      · have step := Nat.div_eq_sub_div (show 0 < maxDataSize by decide) long
        obtain ⟨full, last, split, count, lengths, short⟩ := ih (file.drop maxDataSize) (chunks_drop_lt long enough)
        rw [if_pos (Nat.min_eq_left long), split]
        refine ⟨file.take maxDataSize :: full, last, rfl, ?_, ?_, short⟩
        · rw [List.length_cons, count, List.length_drop, step]
        · intro chunk mem
          rcases List.mem_cons.mp mem with rfl | later
          · rw [List.length_take, Nat.min_eq_left long]
          · exact lengths chunk later
      · rw [if_neg (by omega)]
        refine ⟨[], file.take maxDataSize, rfl, ?_, by simp, ?_⟩
        · rw [Nat.div_eq_of_lt (by omega)]
          rfl
        · rw [List.length_take]
          omega

theorem chunksOf_shape (file : Bytes) :
    ∃ full last, chunksOf file = full ++ [last] ∧ full.length = file.length / maxDataSize ∧
      (∀ chunk ∈ full, chunk.length = maxDataSize) ∧ last.length < maxDataSize :=
  fileChunks_shape _ file (Nat.lt_succ_self _)

theorem chunksOf_length (file : Bytes) : (chunksOf file).length = file.length / maxDataSize + 1 := by
  obtain ⟨full, last, split, count, _, _⟩ := chunksOf_shape file
  rw [split, List.length_append, count]
  rfl

theorem chunksOf_length_le (file chunk : Bytes) (mem : chunk ∈ chunksOf file) : chunk.length ≤ maxDataSize := by
  obtain ⟨full, last, split, _, lengths, short⟩ := chunksOf_shape file
  rw [split, List.mem_append, List.mem_singleton] at mem
  rcases mem with inFull | rfl
  · exact (lengths chunk inFull).le
  · exact short.le

/-! ## Sizes -/

variable {lib}

theorem nodeHash_length (node : HashtableNode) : (nodeHash lib node).length = 32 :=
  lib.crypto.sha256_length _

theorem nodeHash_ne_nil (node : HashtableNode) : nodeHash lib node ≠ [] :=
  List.ne_nil_of_length_pos (by rw [nodeHash_length]; decide)

theorem chunkNode_data_length_le {chunk : Bytes} (short : chunk.length ≤ maxDataSize) :
    (chunkNode chunk).data.length ≤ maxDataSize + 24 := by
  have fits := unixfsBytes_length_le (chunkUnixFS chunk) trivial
    (show chunk.length < 2 ^ 64 by rw [maxDataSize] at short; omega)
  simp only [unixfsProtobufEncodeSize, chunkUnixFS, List.length_nil] at fits
  simp only [chunkNode, chunkUnixFS]
  omega

theorem chunkNode_size_le {chunk : Bytes} (short : chunk.length ≤ maxDataSize) :
    hashtableNodeProtobufEncodeSize (chunkNode chunk) ≤ maxDataSize + 35 := by
  have data := chunkNode_data_length_le short
  have size : hashtableNodeProtobufEncodeSize (chunkNode chunk) =
      0 + if 0 < (chunkNode chunk).data.length then 11 + (chunkNode chunk).data.length else 0 := rfl
  rw [size]
  split <;> omega

theorem chunkNode_saveable {chunk : Bytes} (short : chunk.length ≤ maxDataSize) : (chunkNode chunk).Saveable where
  nonempty := .inl (unixfsBytes_ne_nil _)
  hashed := by simp [chunkNode]
  sized := by
    have := chunkNode_size_le short
    rw [maxDataSize] at this
    omega

section
variable (lib) {node : HashtableNode} (saveable : node.Saveable)
  (sized : hashtableNodeProtobufEncodeSize node + 88 < 2 ^ 64)
include saveable sized

theorem nodeFileLength_le : nodeFileLength lib node ≤ hashtableNodeProtobufEncodeSize node + 88 := by
  have length := hashtableNodeBytes_length_le lib.mh saveable.fits
  have size : blocksBlockProtobufEncodeSize
      ⟨some (cidNew 1 (nodeHash lib node) cidDagProtobuf), nodeBytes lib node⟩ ≤
        hashtableNodeProtobufEncodeSize node + 88 := by
    simp only [blocksBlockProtobufEncodeSize, cidProtobufEncodeSize, cidNew, nodeHash_length, nodeBytes]
    omega
  exact (blockBytes_length_le _ _ (lt_of_le_of_lt size sized)).trans size

theorem nodeFileLength_bounds : 0 < nodeFileLength lib node ∧ nodeFileLength lib node < 2 ^ 64 := by
  have pos := Wire.bytesField_length_pos 1 .lengthDelimited (nodeBytes lib node)
  constructor
  · simp only [nodeFileLength, blockBytes, List.length_append]
    omega
  · exact lt_of_le_of_lt (nodeFileLength_le lib saveable sized) sized

end

section
variable {chunk : Bytes} (short : chunk.length ≤ maxDataSize)
include short

theorem chunkLink_tSize_pos : 0 < (chunkLink lib chunk).tSize := by
  have size := chunkNode_size_le short
  obtain ⟨pos, bound⟩ := nodeFileLength_bounds lib (chunkNode_saveable short)
    (by rw [maxDataSize] at size; omega)
  rw [UInt64.lt_iff_toNat_lt]
  simp only [chunkLink, UInt64.toNat_ofNat_of_lt' bound]
  exact pos

theorem chunkLink_size : 11 + nodeLinkProtobufEncodeSize (chunkLink lib chunk) = 76 := by
  have hash : (chunkLink lib chunk).hash.length = 32 := nodeHash_length _
  have name : (chunkLink lib chunk).name = none := rfl
  simp [nodeLinkProtobufEncodeSize, hash, name, chunkLink_tSize_pos short]

theorem chunkLink_bytes_length_ge : 42 ≤ (Wire.bytesField 2 .lengthDelimited
    (nodeLinkBytes lib.mh (chunkLink lib chunk))).length := by
  have hash : (chunkLink lib chunk).hash.length = 32 := nodeHash_length _
  have digest : (lib.mh.new (chunkLink lib chunk).hash).length = 34 := by
    rw [lib.mh.new_length (by omega), hash]
  have first := Wire.bytesField_length_ge 1 .lengthDelimited (lib.mh.new (chunkLink lib chunk).hash)
  have second := Wire.bytesField_length_ge 2 .lengthDelimited (chunkLink lib chunk).text.bytes
  have third := Wire.varintField_length_ge 3 .varint (chunkLink lib chunk).tSize.toNat
  have inner : 40 ≤ (nodeLinkBytes lib.mh (chunkLink lib chunk)).length := by
    simp only [nodeLinkBytes, List.length_append, hash, chunkLink_tSize_pos short, if_true,
      show 0 < 32 by decide]
    omega
  have outer := Wire.bytesField_length_ge 2 .lengthDelimited (nodeLinkBytes lib.mh (chunkLink lib chunk))
  omega

end

/-! ## The root

Every chunk counts 76 bytes for its link and at most 4 for its block size.
-/

theorem chunkLink_hashed (chunk : Bytes) : (chunkLink lib chunk).Hashed := by
  have hash : (chunkLink lib chunk).hash.length = 32 := nodeHash_length _
  constructor <;> omega

section
variable (lib) {chunks : List Bytes} (short : ∀ chunk ∈ chunks, chunk.length ≤ maxDataSize)
include short

theorem linkedUnixFS_blockSizes_length_le :
    ((linkedUnixFS chunks).blockSizes.flatMap fun b => Wire.varintField 4 .varint b.toNat).length ≤
      4 * chunks.length := by
  have count : (linkedUnixFS chunks).blockSizes.length = chunks.length := List.length_map _
  rw [← count]
  apply Wire.flatMap_length_le
  intro blockSize listed
  obtain ⟨chunk, mem, rfl⟩ := List.mem_map.mp listed
  have bound := short chunk mem
  rw [maxDataSize] at bound
  apply Wire.varintField_length_le_of_lt .varint (by decide) 2
  rw [UInt64.toNat_ofNat_of_lt' (lt_of_le_of_lt bound (by decide))]
  omega

theorem linkedNode_size : hashtableNodeProtobufEncodeSize (linkedNode lib chunks) =
    76 * chunks.length + 11 + (linkedNode lib chunks).data.length := by
  have links : ((linkedNode lib chunks).links.map fun link => 11 + nodeLinkProtobufEncodeSize link) =
      List.replicate chunks.length 76 := by
    rw [linkedNode, List.map_map, List.map_eq_replicate_iff.mpr]
    intro chunk mem
    exact chunkLink_size (short chunk mem)
  have data : 0 < (linkedNode lib chunks).data.length := List.length_pos_iff.mpr (unixfsBytes_ne_nil _)
  rw [hashtableNodeProtobufEncodeSize, links, List.sum_replicate, smul_eq_mul, if_pos data]
  omega

theorem linkedNode_data_length_le : (linkedNode lib chunks).data.length ≤ 4 * chunks.length + 13 := by
  have blocks := linkedUnixFS_blockSizes_length_le short
  have size := Wire.varintField_length_le .varint (by decide : 3 < 15) (linkedUnixFS chunks).fileSize.toNat_lt
  simp only [linkedNode, unixfsBytes, List.length_append, apply_ite List.length, List.length_nil]
  have type : (Wire.varintField 1 .varint (linkedUnixFS chunks).dataType.toUnsigned.toNat).length = 2 := rfl
  rw [if_neg (show ¬ 0 < (linkedUnixFS chunks).bytes.length from Nat.lt_irrefl 0)]
  split <;> omega

theorem linkedNode_bytes_length_ge : 42 * chunks.length ≤ (nodeBytes lib (linkedNode lib chunks)).length := by
  have count : (linkedNode lib chunks).links.length = chunks.length := List.length_map _
  have links : 42 * (linkedNode lib chunks).links.length ≤ ((linkedNode lib chunks).links.flatMap fun link =>
      Wire.bytesField 2 .lengthDelimited (nodeLinkBytes lib.mh link)).length := by
    apply Wire.le_flatMap_length
    intro link linked
    obtain ⟨chunk, mem, rfl⟩ := List.mem_map.mp linked
    exact chunkLink_bytes_length_ge (short chunk mem)
  rw [nodeBytes, hashtableNodeBytes, List.length_append]
  omega

theorem linkedNode_saveable (bounded : chunks.length ≤ 2 ^ 50) :
    (linkedNode lib chunks).Saveable where
  nonempty := .inl (unixfsBytes_ne_nil _)
  hashed := by
    intro link mem
    obtain ⟨chunk, _, rfl⟩ := List.mem_map.mp mem
    exact chunkLink_hashed chunk
  sized := by
    have data := linkedNode_data_length_le lib short
    have size := linkedNode_size lib short
    omega

end

theorem linkedNode_data_length_ge (lib : Library) {full : List Bytes} (last : Bytes)
    (lengths : ∀ chunk ∈ full, chunk.length = maxDataSize) :
    4 * (full ++ [last]).length ≤ (linkedNode lib (full ++ [last])).data.length := by
  have blocks : 4 * full.length ≤
      (full.flatMap fun chunk => Wire.varintField 4 .varint (UInt64.ofNat chunk.length).toNat).length := by
    apply Wire.le_flatMap_length
    intro chunk mem
    have three := Leb128.le_encode_length 2 maxDataSize (by decide)
    have tag := Wire.tag_length_pos 4 .varint
    rw [lengths chunk mem, UInt64.toNat_ofNat_of_lt' (by decide), Wire.varintField, List.length_append]
    omega
  have type := Wire.varintField_length_ge 1 .varint (linkedUnixFS (full ++ [last])).dataType.toUnsigned.toNat
  have end' := Wire.varintField_length_ge 4 .varint (UInt64.ofNat last.length).toNat
  simp only [linkedNode, unixfsBytes, List.length_append]
  simp only [linkedUnixFS, List.map_append, List.map_cons, List.map_nil, List.flatMap_append, List.flatMap_map,
    List.flatMap_cons, List.flatMap_nil, List.length_append, List.length_cons, List.length_nil] at blocks type ⊢
  omega

end Ipfs
