import Ipfs.Importer.Exporter
import Ipfs.Store.Known

/-!
# Blocks that are served

A node is not sent as it is stored. It is decoded and encoded again, so the bytes that arrive are the
stored ones only when these have the form that this encoder gives them.
-/

namespace Ipfs
variable {lib : Library}

/-- `ipfs_repo_fsrepo_node_get`. -/
def fsrepoNodeGet (repo : FsRepo lib) (hash : Bytes) : Outcome Bytes := do
  let node ← fsrepoNodeRead repo hash
  .ofOption (hashtableNodeProtobufEncode lib.pb lib.mh node (hashtableNodeProtobufEncodeSize node))

structure FsRepo.HoldsBlock (repo : FsRepo lib) (key data : Bytes) : Prop where
  file : ∃ file block, repo.blockstore (lib.crypto.base32 key) = some file ∧
    blocksBlockProtobufDecode lib.pb file = .returned block ∧ block.data = data
  present : lib.store.has repo.datastore key

def FsRepo.Serves (repo : FsRepo lib) (key data : Bytes) : Prop :=
  routingGenericGetValue repo key = .returned data ∧ fsrepoNodeGet repo key = .returned data

/-- The header of the multihash, if there is one, takes two bytes, and the link is not without hash, name and size. -/
structure NodeLink.Restorable (mh : Multihash) (link : NodeLink) : Prop where
  hash : link.hash = [] ∨ (mh.new link.hash).drop 2 = link.hash
  present : link.hash ≠ [] ∨ link.text.bytes ≠ [] ∨ link.tSize ≠ 0

/-- The data has the form of an encoded node, and the estimate of its size is no shorter as an `int`. -/
def Restorable (lib : Library) (data : Bytes) : Prop :=
  ∃ node : HashtableNode, data = hashtableNodeBytes lib.mh node ∧ (∀ link ∈ node.links, link.Restorable lib.mh) ∧
    ∃ room, intAllocation (hashtableNodeProtobufEncodeSize node) = some room ∧ data.length ≤ room

/-! ## Links -/

section
variable {mh : Multihash} {link : NodeLink}

theorem nodeLinkProtobufEncodeSize_text (link : NodeLink) :
    nodeLinkProtobufEncodeSize link = (if 0 < link.hash.length then 11 + link.hash.length else 0) +
      (if 0 < link.text.strlen then 11 + link.text.strlen else 0) + if 0 < link.tSize then 22 else 0 := by
  rw [← nodeLinkProtobufEncodeSize_named]
  rfl

theorem NodeLink.Restorable.new_length (restorable : link.Restorable mh) (hashed : link.hash ≠ []) :
    (mh.new link.hash).length = link.hash.length + 2 := by
  have length := congrArg List.length (restorable.hash.resolve_left hashed)
  have present := List.length_pos_iff.mpr hashed
  rw [List.length_drop] at length
  omega

theorem NodeLink.Restorable.fits (restorable : link.Restorable mh) (short : (nodeLinkBytes mh link).length < 2 ^ 31) :
    (nodeLinkBytes mh link).length ≤ nodeLinkProtobufEncodeSize link := by
  have name : (Wire.bytesField 2 .lengthDelimited link.text.bytes).length ≤
      2 + if 0 < link.text.strlen then 4 + link.text.strlen else 0 := by
    by_cases empty : link.text.bytes = []
    · rw [empty]
      exact Nat.le_add_right 2 _
    · have named : 0 < link.text.strlen := List.length_pos_iff.mpr empty
      have long := Wire.bytesField_length_ge 2 .lengthDelimited link.text.bytes
      rw [nodeLinkBytes, List.length_append, List.length_append] at short
      have bound := Wire.bytesField_length_le_of_lt .lengthDelimited (by decide : 2 < 15) 4
        (show link.text.bytes.length < 128 ^ 5 by omega)
      rw [if_pos named]
      exact bound.trans (by rw [CString.strlen]; omega)
  have size : (if 0 < link.tSize then Wire.varintField 3 .varint link.tSize.toNat else []).length ≤
      if 0 < link.tSize then 11 else 0 := by
    split
    · exact Wire.varintField_length_le .varint (by decide) link.tSize.toNat_lt
    · exact le_rfl
  have hash : (if 0 < link.hash.length then Wire.bytesField 1 .lengthDelimited (mh.new link.hash) else []).length ≤
      if 0 < link.hash.length then 8 + link.hash.length else 0 := by
    by_cases hashed : link.hash = []
    · simp [hashed]
    · have present := List.length_pos_iff.mpr hashed
      have length := restorable.new_length hashed
      have long := Wire.bytesField_length_ge 1 .lengthDelimited (mh.new link.hash)
      rw [nodeLinkBytes, if_pos present, List.length_append, List.length_append] at short
      rw [if_pos present, if_pos present]
      have bound := Wire.bytesField_length_le_of_lt .lengthDelimited (by decide : 1 < 15) 4
        (show (mh.new link.hash).length < 128 ^ 5 by omega)
      omega
  have present : 0 < link.hash.length ∨ 0 < link.text.strlen ∨ 0 < link.tSize :=
    restorable.present.imp List.length_pos_iff.mpr (Or.imp List.length_pos_iff.mpr fun sized => UInt64.pos_iff_ne_zero.mpr sized)
  rw [nodeLinkProtobufEncodeSize_text, nodeLinkBytes, List.length_append, List.length_append]
  by_cases sized : 0 < link.tSize
  · simp only [sized, if_true] at size ⊢
    split_ifs at hash name ⊢ <;> omega
  · simp only [sized, if_false, or_false] at size present ⊢
    split_ifs at hash name ⊢ <;> omega

theorem NodeLink.present_of_fits (fits : (nodeLinkBytes mh link).length ≤ nodeLinkProtobufEncodeSize link) :
    link.hash ≠ [] ∨ link.text.bytes ≠ [] ∨ link.tSize ≠ 0 := by
  by_contra bare
  simp only [not_or, not_not] at bare
  obtain ⟨unhashed, unnamed, unsized⟩ := bare
  have name := Wire.bytesField_length_pos 2 .lengthDelimited link.text.bytes
  have estimate : nodeLinkProtobufEncodeSize link = 0 := by
    simp [nodeLinkProtobufEncodeSize_text, CString.strlen, unhashed, unnamed, unsized]
  rw [estimate, nodeLinkBytes, List.length_append, List.length_append] at fits
  omega

end
/-! ## Nodes -/

section
variable {repo : FsRepo lib} {key data : Bytes}

theorem FsRepo.HoldsBlock.nodeRead (holds : repo.HoldsBlock key data) :
    fsrepoNodeRead repo key = hashtableNodeProtobufDecode lib.pb data := by
  obtain ⟨⟨file, block, found, decoded, rfl⟩, present⟩ := holds
  simp only [fsrepoNodeRead, present, if_true, blockstoreGetNode, found, Outcome.access_some, Outcome.returned_bind,
    decoded]

theorem FsRepo.HoldsBlock.serves_node (holds : repo.HoldsBlock key data) {node : HashtableNode}
    (accepted : hashtableNodeProtobufDecode lib.pb data = .returned node) :
    repo.Serves key data ↔
      (∃ room, intAllocation (hashtableNodeProtobufEncodeSize node) = some room ∧
        hashtableNodeProtobufEncode lib.pb lib.mh node room = some data) ∧
      hashtableNodeProtobufEncode lib.pb lib.mh node (hashtableNodeProtobufEncodeSize node) = some data := by
  have read := holds.nodeRead.trans accepted
  have hashed (hash : Option Bytes) (room : Nat) :
      hashtableNodeProtobufEncode lib.pb lib.mh { node with hash } room =
        hashtableNodeProtobufEncode lib.pb lib.mh node room := rfl
  have get : ∃ hash, merkledagGet repo key = .returned { node with hash } := by
    rw [merkledagGet, if_pos holds.present, read, Outcome.returned_bind, hashtableNodeSetHash]
    split <;> exact ⟨_, rfl⟩
  obtain ⟨hash, get⟩ := get
  rw [FsRepo.Serves, routingGenericGetValue, get, fsrepoNodeGet, read, Outcome.returned_bind, Outcome.returned_bind,
    Outcome.ofOption_eq_returned]
  simp only [hashed, Outcome.bind_eq_returned, Outcome.ofOption_eq_returned]
  rfl

theorem filterMap_eq_self {α : Type} {f : α → Option α} {items : List α} (same : items.filterMap f = items) :
    ∀ item ∈ items, f item = some item := by
  have mapped : items.filterMap f = items.map id := by rw [same, List.map_id]
  exact List.filterMap_eq_map_iff_forall_eq_some.mp mapped

theorem NodeLink.Restorable.reread {mh : Multihash} {link : NodeLink} (restorable : link.Restorable mh) :
    link.reread mh = some link.named := by
  rw [NodeLink.reread]
  by_cases hashed : link.hash = []
  · rw [if_pos hashed]
  · have long : ¬ (mh.new link.hash).length < 2 := by
      rw [restorable.new_length hashed]
      omega
    rw [if_neg hashed, if_neg long, restorable.hash.resolve_left hashed]
    rfl

theorem NodeLink.restorable_of_reread {mh : Multihash} {link : NodeLink} (reread : link.reread mh = some link)
    (fits : (nodeLinkBytes mh link).length ≤ nodeLinkProtobufEncodeSize link) : link.Restorable mh := by
  refine ⟨?_, NodeLink.present_of_fits fits⟩
  rw [NodeLink.reread] at reread
  split at reread
  · exact .inl (by assumption)
  · split at reread
    · cases reread
    · exact .inr (congrArg NodeLink.hash (Option.some.inj reread))

theorem nodeLinkBytes_length_lt {mh : Multihash} {node : HashtableNode} {link : NodeLink} (mem : link ∈ node.links) :
    (nodeLinkBytes mh link).length < (hashtableNodeBytes mh node).length := by
  have part : (Wire.bytesField 2 .lengthDelimited (nodeLinkBytes mh link)).length ≤
      (node.links.flatMap fun link => Wire.bytesField 2 .lengthDelimited (nodeLinkBytes mh link)).length := by
    rw [List.length_flatMap]
    exact List.single_le_sum (by simp) _ (List.mem_map_of_mem mem)
  have long := Wire.bytesField_length_ge 2 .lengthDelimited (nodeLinkBytes mh link)
  rw [hashtableNodeBytes, List.length_append]
  omega

theorem intAllocation_bounds {size room : Nat} (allocated : intAllocation size = some room) :
    room ≤ size ∧ room < 2 ^ 31 := by
  rw [intAllocation] at allocated
  split at allocated
  · obtain rfl := Option.some.inj allocated
    exact ⟨Nat.mod_le _ _, by assumption⟩
  · cases allocated

theorem serves_iff (repo : FsRepo lib) (data : Bytes)
    (accepted : ∃ node, hashtableNodeProtobufDecode lib.pb data = .returned node)
    (holds : repo.HoldsBlock (lib.crypto.sha256 data) data) :
    repo.Serves (lib.crypto.sha256 data) data ↔ Restorable lib data := by
  obtain ⟨node, decoded⟩ := accepted
  rw [holds.serves_node decoded]
  have nonempty : data ≠ [] := by
    rintro rfl
    cases decoded
  constructor
  · rintro ⟨⟨room, allocated, encoded⟩, _⟩
    obtain ⟨fits, rfl, short⟩ := hashtableNodeProtobufEncode_eq_some lib.pb lib.mh encoded
    rw [hashtableNodeProtobufDecode_reread lib.pb lib.mh nonempty] at decoded
    have links := congrArg HashtableNode.links (Outcome.returned.inj decoded)
    refine ⟨node, rfl, fun link mem => ?_, room, allocated, short⟩
    exact NodeLink.restorable_of_reread (filterMap_eq_self links link mem) (fits link mem)
  · rintro ⟨original, rfl, restorable, room, allocated, short⟩
    obtain ⟨estimate, bound⟩ := intAllocation_bounds allocated
    have links : original.links.filterMap (NodeLink.reread lib.mh) = original.links.map NodeLink.named :=
      List.filterMap_eq_map_iff_forall_eq_some.mpr fun link mem => (restorable link mem).reread
    rw [hashtableNodeProtobufDecode_reread lib.pb lib.mh nonempty, links] at decoded
    obtain rfl := Outcome.returned.inj decoded
    have fits : ∀ link ∈ original.links.map NodeLink.named,
        (nodeLinkBytes lib.mh link).length ≤ nodeLinkProtobufEncodeSize link := by
      intro named mem
      obtain ⟨link, linked, rfl⟩ := List.mem_map.mp mem
      have small : (nodeLinkBytes lib.mh link).length < (hashtableNodeBytes lib.mh original).length :=
        nodeLinkBytes_length_lt linked
      rw [nodeLinkProtobufEncodeSize_named]
      exact (restorable link linked).fits (by omega)
    have size : hashtableNodeProtobufEncodeSize { data := original.data, links := original.links.map NodeLink.named } =
        hashtableNodeProtobufEncodeSize original := hashtableNodeProtobufEncodeSize_stored original []
    have bytes := hashtableNodeBytes_stored original [] lib.mh
    have encodes (room : Nat) (enough : (hashtableNodeBytes lib.mh original).length ≤ room) :
        hashtableNodeProtobufEncode lib.pb lib.mh { data := original.data, links := original.links.map NodeLink.named } room =
          some (hashtableNodeBytes lib.mh original) := by
      rw [hashtableNodeProtobufEncode_of_fits lib.pb lib.mh fits]
      exact (congrArg (Wire.fit room) bytes).trans (Wire.fit_of_le enough)
    rw [size]
    exact ⟨⟨room, allocated, encodes room short⟩, encodes _ (short.trans estimate)⟩

end
/-! ## A link without a name -/

/-- The directory node of another implementation, which leaves out the name of a link. -/
def namelessDigest : Digest :=
  { block := [0x12, 0x26, 0x0a, 0x22, 0x12, 0x20, 0xe2, 0xfe, 0xcf, 0x4b, 0x8d, 0xf2, 0x82, 0xc8,
              0x84, 0x8a, 0xe9, 0xf7, 0x0a, 0xd6, 0xe9, 0x70, 0x69, 0xb4, 0x35, 0xf5, 0xb5, 0x90,
              0x7c, 0x3f, 0xff, 0xe1, 0x4a, 0x6b, 0xf5, 0xbe, 0xf0, 0xda, 0x18, 0x34, 0x0a, 0x02,
              0x08, 0x01]
    sha256 := [0x07, 0xdf, 0xa9, 0x9d, 0xa6, 0xf0, 0x51, 0x7b, 0x13, 0xfb, 0x6b, 0x35, 0xe2, 0xf6,
               0x8f, 0xb0, 0xa2, 0xb3, 0x45, 0x3d, 0x66, 0xc1, 0x45, 0xa4, 0x6b, 0x71, 0x4b, 0x85,
               0xfd, 0x13, 0xa6, 0x44]
    base32 := [0x41, 0x37, 0x50, 0x32, 0x54, 0x48, 0x4e, 0x47, 0x36, 0x42, 0x49, 0x58, 0x57, 0x45,
               0x37, 0x33, 0x4e, 0x4d, 0x32, 0x36, 0x46, 0x35, 0x55, 0x50, 0x57, 0x43, 0x52, 0x4c,
               0x47, 0x52, 0x4a, 0x35, 0x4d, 0x33, 0x41, 0x55, 0x4c, 0x4a, 0x44, 0x4c, 0x4f, 0x46,
               0x46, 0x59, 0x4c, 0x37, 0x49, 0x54, 0x55, 0x5a, 0x43, 0x41]
    base58 := [0x51, 0x6d, 0x4e, 0x73, 0x50, 0x4e, 0x57, 0x6a, 0x6e, 0x61, 0x55, 0x46, 0x44, 0x62,
               0x44, 0x66, 0x33, 0x6e, 0x4d, 0x5a, 0x64, 0x4b, 0x4e, 0x35, 0x58, 0x7a, 0x59, 0x70,
               0x7a, 0x51, 0x36, 0x4b, 0x71, 0x71, 0x70, 0x31, 0x50, 0x4a, 0x4e, 0x52, 0x44, 0x72,
               0x71, 0x4c, 0x6d, 0x48] }

def namelessTable : Digest.Table where
  entries := [fileDigest, namelessDigest]
  other := List.replicate 32 0
  lengths := by decide
  distinct := by decide
  written := by decide
  apart := by decide
  alphabet := by decide

def namelessRepo : FsRepo (.known namelessTable) :=
  ((FsRepo.new namelessTable).add fileDigest.sha256 fileDigest.block [fileDigest.sha256]).add
    namelessDigest.sha256 namelessDigest.block [namelessDigest.sha256, fileDigest.sha256]

theorem not_serves_nameless :
    (∃ node, hashtableNodeProtobufDecode (Library.known namelessTable).pb namelessDigest.block = .returned node) ∧
      namelessRepo.HoldsBlock ((Library.known namelessTable).crypto.sha256 namelessDigest.block) namelessDigest.block ∧
      ¬ namelessRepo.Serves ((Library.known namelessTable).crypto.sha256 namelessDigest.block) namelessDigest.block := by
  refine ⟨⟨_, rfl⟩, ⟨⟨_, _, rfl, rfl, rfl⟩, rfl⟩, fun serves => ?_⟩
  exact absurd serves.2 (by decide)

theorem serves_file :
    namelessRepo.Serves ((Library.known namelessTable).crypto.sha256 fileDigest.block) fileDigest.block :=
  (serves_iff namelessRepo fileDigest.block ⟨_, rfl⟩ ⟨⟨_, _, rfl, rfl, rfl⟩, rfl⟩).mpr
    ⟨{ data := [0x08, 0x02, 0x12, 0x02, 0x68, 0x69, 0x18, 0x02] }, rfl, fun _ mem => absurd mem List.not_mem_nil, _, rfl,
      by decide⟩

end Ipfs
