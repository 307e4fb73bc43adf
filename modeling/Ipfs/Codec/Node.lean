import Ipfs.Codec.Multihash
import Ipfs.Codec.UnixFS

namespace Ipfs

/-- `struct NodeLink`. -/
structure NodeLink where
  hash : Bytes := []
  name : Option CString := none
  tSize : UInt64 := 0
  deriving DecidableEq

/-- `struct HashtableNode`; `hash` is not saved. -/
structure HashtableNode where
  data : Bytes := []
  links : List NodeLink := []
  hash : Option Bytes := none
  deriving DecidableEq

/-! ## Links -/

def nodeLinkCreate (name : Option CString) (hash : Bytes) : NodeLink :=
  { hash, name := name.filter (0 < ·.strlen), tSize := 0 }

def nodeLinkProtobufEncodeSize (link : NodeLink) : Nat :=
  (if 0 < link.hash.length then 11 + link.hash.length else 0) +
    (match link.name with
      | some name => if 0 < name.strlen then 11 + name.strlen else 0
      | none => 0) +
    if 0 < link.tSize then 22 else 0

def nodeLinkProtobufEncode (pb : Protobuf) (mh : Multihash) (link : NodeLink) (maxBufferLength : Nat) :
    Option Bytes := do
  let out ← Wire.appendIf (0 < link.hash.length) maxBufferLength [] fun left =>
    pb.encodeLengthDelimited 1 .lengthDelimited (mh.new link.hash) left
  -- name is optional, but they encode it anyways
  let name := match link.name with
    | some name => if 0 < name.strlen then name else .empty
    | none => .empty
  let out ← Wire.append maxBufferLength out fun left => pb.encodeString 2 .lengthDelimited name left
  Wire.appendIf (0 < link.tSize) maxBufferLength out fun left => pb.encodeVarint 3 .varint link.tSize left

def nodeLinkFields : Nat → Option (Field NodeLink)
  | 1 => some (.lengthDelimited fun link hash =>
      if hash.length < 2 then .failed else .returned { link with hash := hash.drop 2 })
  | 2 => some (.string fun link name => { link with name := some name })
  | 3 => some (.varint fun link tSize => { link with tSize })
  | _ => none

def nodeLinkProtobufDecode (pb : Protobuf) (buffer : Bytes) : Outcome NodeLink :=
  (decodeFields pb nodeLinkFields buffer {}).result

/-! ## Nodes -/

def hashtableNodeAddLink (node : HashtableNode) (link : NodeLink) : HashtableNode :=
  { node with links := node.links ++ [link] }

/-- `ipfs_hashtable_node_set_data`; NULL is refused. -/
def hashtableNodeSetData (node : HashtableNode) (data : Option Bytes) : Option HashtableNode :=
  data.map fun data => { node with data }

def hashtableNodeRemoveLinkByName (name : Option CString) (node : HashtableNode) : Option HashtableNode :=
  match node.links.findIdx? (·.name = name) with
  | none => none
  | some 0 => some (match node.links with
      | _ :: next :: links => { node with links := next :: links }
      -- the only link stays
      | _ => node)
  | some i => some { node with links := node.links.eraseIdx i }

def hashtableNodeProtobufEncodeSize (node : HashtableNode) : Nat :=
  (node.links.map fun link => 11 + nodeLinkProtobufEncodeSize link).sum +
    if 0 < node.data.length then 11 + node.data.length else 0

def hashtableNodeEncodeLinks (pb : Protobuf) (mh : Multihash) (maxBufferLength : Nat) :
    Bytes → List NodeLink → Option Bytes
  | out, [] => some out
  | out, link :: links => do
      let temp ← nodeLinkProtobufEncode pb mh link (nodeLinkProtobufEncodeSize link)
      let out ← Wire.append maxBufferLength out fun left =>
        pb.encodeLengthDelimited 2 .lengthDelimited temp left
      hashtableNodeEncodeLinks pb mh maxBufferLength out links

def hashtableNodeProtobufEncode (pb : Protobuf) (mh : Multihash) (node : HashtableNode)
    (maxBufferLength : Nat) : Option Bytes := do
  let out ← hashtableNodeEncodeLinks pb mh maxBufferLength [] node.links
  Wire.appendIf (0 < node.data.length) maxBufferLength out fun left =>
    pb.encodeLengthDelimited 1 .lengthDelimited node.data left

def hashtableNodeFields (pb : Protobuf) : Nat → Option (Field HashtableNode)
  | 1 => some (.lengthDelimited fun node data => .returned { node with data })
  | 2 => some (.lengthDelimited fun node temp =>
      -- a link that does not decode is skipped
      match nodeLinkProtobufDecode pb temp with
      | .returned link => .returned (hashtableNodeAddLink node link)
      | .failed => .returned node
      | .fault cause => .fault cause)
  | _ => none

def hashtableNodeProtobufDecode (pb : Protobuf) (buffer : Bytes) : Outcome HashtableNode :=
  if buffer = [] then .failed
  else (decodeFields pb (hashtableNodeFields pb) buffer {}).result

def hashtableNodeCreateDirectory (pb : Protobuf) : Outcome HashtableNode := do
  let unixFs : UnixFS := { dataType := .directory }
  let protobuf ← unixfsProtobufEncode pb unixFs (unixfsProtobufEncodeSize unixFs)
  pure { data := protobuf }

def hashtableNodeIsDirectory (pb : Protobuf) (node : HashtableNode) : Outcome Bool :=
  if node.data.length < 2 then .returned false
  else match unixfsProtobufDecode pb node.data with
    | .returned unixFs => .returned (decide (unixFs.dataType = .directory))
    | .failed => .returned false
    | .fault cause => .fault cause

/-! ## What is written -/

def NodeLink.text (link : NodeLink) : CString := link.name.getD .empty

def NodeLink.named (link : NodeLink) : NodeLink := { link with name := some link.text }

def nodeLinkBytes (mh : Multihash) (link : NodeLink) : Bytes :=
  (if 0 < link.hash.length then Wire.bytesField 1 .lengthDelimited (mh.new link.hash) else []) ++
    Wire.bytesField 2 .lengthDelimited link.text.bytes ++
    if 0 < link.tSize then Wire.varintField 3 .varint link.tSize.toNat else []

def hashtableNodeBytes (mh : Multihash) (node : HashtableNode) : Bytes :=
  (node.links.flatMap fun link => Wire.bytesField 2 .lengthDelimited (nodeLinkBytes mh link)) ++
    if 0 < node.data.length then Wire.bytesField 1 .lengthDelimited node.data else []

def NodeLink.Same (link link' : NodeLink) : Prop :=
  link.hash = link'.hash ∧ link.text = link'.text ∧ link.tSize = link'.tSize

def HashtableNode.Same (node node' : HashtableNode) : Prop :=
  List.Forall₂ NodeLink.Same node.links node'.links ∧ node.data = node'.data

def NodeLink.Hashed (link : NodeLink) : Prop := 1 ≤ link.hash.length ∧ link.hash.length ≤ 127

instance : DecidablePred NodeLink.Hashed := fun link =>
  inferInstanceAs (Decidable (1 ≤ link.hash.length ∧ link.hash.length ≤ 127))

/-- The link as it is read back. Two bytes of the multihash are dropped, and with a shorter one the whole link. -/
def NodeLink.reread (mh : Multihash) (link : NodeLink) : Option NodeLink :=
  if link.hash = [] then some link.named
  else if (mh.new link.hash).length < 2 then none
  else some { link.named with hash := (mh.new link.hash).drop 2 }

/-- A node that can be saved: it has data or links, and its size does not wrap around a `size_t`. -/
structure HashtableNode.Saveable (node : HashtableNode) : Prop where
  nonempty : node.data ≠ [] ∨ node.links ≠ []
  hashed : ∀ link ∈ node.links, link.Hashed
  sized : hashtableNodeProtobufEncodeSize node < 2 ^ 64

structure HashtableNode.Fits (node : HashtableNode) : Prop where
  hashed : ∀ link ∈ node.links, link.Hashed
  sized : hashtableNodeProtobufEncodeSize node < 2 ^ 64

theorem HashtableNode.Saveable.fits {node : HashtableNode} (saveable : node.Saveable) : node.Fits :=
  ⟨saveable.hashed, saveable.sized⟩

variable (pb : Protobuf) (mh : Multihash)

theorem nodeLinkProtobufEncode_eq (link : NodeLink) (room : Nat) :
    nodeLinkProtobufEncode pb mh link room = Wire.fit room (nodeLinkBytes mh link) := by
  have written : (match link.name with
      | some name => if 0 < name.strlen then name else .empty
      | none => .empty) = link.text := by
    cases name : link.name with
    | none => simp [NodeLink.text, name]
    | some name' =>
        by_cases long : 0 < name'.strlen
        · simp [NodeLink.text, name, long]
        · have : name' = .empty := by
            ext1
            exact List.eq_nil_of_length_eq_zero (Nat.eq_zero_of_not_pos long)
          simp [NodeLink.text, name, this]
  simp only [nodeLinkProtobufEncode, written, pb.encodeVarint_eq, pb.encodeString_eq,
    pb.encodeLengthDelimited_eq, Option.bind_eq_bind, Wire.appendIf_nil, Wire.fit_bind_append_bind,
    Wire.fit_bind_appendIf, nodeLinkBytes]

theorem nodeLinkBytes_length_le {link : NodeLink} (hashed : link.Hashed)
    (bound : nodeLinkProtobufEncodeSize link < 2 ^ 64) :
    (nodeLinkBytes mh link).length ≤ nodeLinkProtobufEncodeSize link := by
  obtain ⟨present, short⟩ := hashed
  have hash : (Wire.bytesField 1 .lengthDelimited (mh.new link.hash)).length ≤ link.hash.length + 5 := by
    have := Leb128.encode_length_le 1 (link.hash.length + 2) (by omega)
    simp only [Wire.bytesField, List.length_append, Wire.tag_length .lengthDelimited (by decide : 1 < 15),
      mh.new_length short]
    omega
  have name : (Wire.bytesField 2 .lengthDelimited link.text.bytes).length ≤
      2 + match link.name with
        | some name => if 0 < name.strlen then 11 + name.strlen else 0
        | none => 0 := by
    by_cases empty : link.text.bytes.length = 0
    · rw [List.eq_nil_of_length_eq_zero empty]
      exact Nat.le_add_right _ _
    · cases given : link.name with
      | none => simp [NodeLink.text, given, CString.empty] at empty
      | some text =>
          have same : link.text = text := by simp [NodeLink.text, given]
          rw [same] at empty ⊢
          have long : 0 < text.strlen := Nat.pos_of_ne_zero empty
          simp only [nodeLinkProtobufEncodeSize, given, long, if_true] at bound
          have := Wire.bytesField_length_le .lengthDelimited (by decide : 2 < 15)
            (show text.bytes.length < 2 ^ 64 by rw [CString.strlen] at bound; omega)
          simp only [long, if_true]
          rw [CString.strlen]
          omega
  have size := Wire.varintField_length_le .varint (by decide : 3 < 15) link.tSize.toNat_lt
  simp only [nodeLinkBytes, nodeLinkProtobufEncodeSize, List.length_append, apply_ite List.length,
    List.length_nil, show 0 < link.hash.length from present, if_true]
  split <;> omega

theorem NodeLink.Hashed.reread {link : NodeLink} (hashed : link.Hashed) : link.reread mh = some link.named := by
  obtain ⟨present, short⟩ := hashed
  have nonempty : link.hash ≠ [] := List.ne_nil_of_length_pos present
  have long : ¬ (mh.new link.hash).length < 2 := by
    rw [mh.new_length short]
    omega
  rw [NodeLink.reread, if_neg nonempty, if_neg long, mh.new_drop short]
  rfl

theorem nodeLinkProtobufDecode_nodeLinkBytes (link : NodeLink) :
    nodeLinkProtobufDecode pb (nodeLinkBytes mh link) = .ofOption (link.reread mh) := by
  have name (s : NodeLink) : Feeds pb nodeLinkFields s (Wire.bytesField 2 .lengthDelimited link.text.bytes)
      { s with name := some link.text } :=
    .string (by decide) (by decide) rfl rfl
  have size (s : NodeLink) (unset : s.tSize = 0) : Feeds pb nodeLinkFields s
      (if 0 < link.tSize then Wire.varintField 3 .varint link.tSize.toNat else []) { s with tSize := link.tSize } := by
    by_cases positive : 0 < link.tSize
    · rw [if_pos positive]
      exact .varint (by decide) (by decide) rfl rfl
    · have zero : link.tSize = s.tSize := by simpa [unset] using positive
      rw [if_neg positive, zero]
      exact .nil s
  rw [nodeLinkProtobufDecode, nodeLinkBytes, NodeLink.reread, List.append_assoc]
  by_cases empty : link.hash = []
  · rw [if_neg (by simp [empty]), List.nil_append, if_pos empty, Outcome.ofOption_some]
    have feeds := (name {}).append (size { name := some link.text } rfl)
    rw [decodeFields_feeds feeds, NodeLink.named, empty]
  · rw [if_pos (List.length_pos_iff.mpr empty), if_neg empty]
    by_cases short : (mh.new link.hash).length < 2
    · rw [if_pos short, Outcome.ofOption_none]
      exact decodeFields_failed (by decide) (by decide) rfl (if_pos short) _
    · have hash : Feeds pb nodeLinkFields {} (Wire.bytesField 1 .lengthDelimited (mh.new link.hash))
          { hash := (mh.new link.hash).drop 2 } :=
        .lengthDelimited (by decide) (by decide) rfl (if_neg short)
      rw [if_neg short, Outcome.ofOption_some]
      exact decodeFields_feeds (hash.append ((name _).append (size _ rfl)))

section
variable {node : HashtableNode}

theorem HashtableNode.Fits.link_sized (fits : node.Fits) {link : NodeLink}
    (mem : link ∈ node.links) : 11 + nodeLinkProtobufEncodeSize link < 2 ^ 64 := by
  have part : 11 + nodeLinkProtobufEncodeSize link ≤
      (node.links.map fun link => 11 + nodeLinkProtobufEncodeSize link).sum :=
    List.single_le_sum (by simp) _ (List.mem_map_of_mem mem)
  have total := fits.sized
  rw [hashtableNodeProtobufEncodeSize] at total
  omega

theorem HashtableNode.Fits.link_fits (fits : node.Fits) {link : NodeLink}
    (mem : link ∈ node.links) : (nodeLinkBytes mh link).length ≤ nodeLinkProtobufEncodeSize link := by
  have sized := fits.link_sized mem
  exact nodeLinkBytes_length_le mh (fits.hashed link mem) (by omega)

theorem HashtableNode.Fits.data_sized (fits : node.Fits) : node.data.length < 2 ^ 64 := by
  have total := fits.sized
  rw [hashtableNodeProtobufEncodeSize] at total
  split at total <;> omega

theorem hashtableNodeEncodeLinks_eq (room : Nat) (out : Bytes) (links : List NodeLink)
    (fits : ∀ link ∈ links, (nodeLinkBytes mh link).length ≤ nodeLinkProtobufEncodeSize link) :
    ((Wire.fit room out).bind fun out => hashtableNodeEncodeLinks pb mh room out links) =
      Wire.fit room (out ++ links.flatMap fun link =>
        Wire.bytesField 2 .lengthDelimited (nodeLinkBytes mh link)) := by
  induction links generalizing out with
  | nil => simp [hashtableNodeEncodeLinks]
  | cons link links ih =>
      have rest := ih (out ++ Wire.bytesField 2 .lengthDelimited (nodeLinkBytes mh link))
        fun link' mem => fits link' (by simp [mem])
      simp only [hashtableNodeEncodeLinks, nodeLinkProtobufEncode_eq, pb.encodeLengthDelimited_eq,
        Option.bind_eq_bind, Wire.fit_of_le (fits link (by simp)), Option.bind_some]
      rw [Wire.fit_bind_append_bind, rest, List.flatMap_cons, List.append_assoc]

theorem hashtableNodeProtobufEncode_of_fits
    (fits : ∀ link ∈ node.links, (nodeLinkBytes mh link).length ≤ nodeLinkProtobufEncodeSize link) (room : Nat) :
    hashtableNodeProtobufEncode pb mh node room = Wire.fit room (hashtableNodeBytes mh node) := by
  have links := hashtableNodeEncodeLinks_eq pb mh room [] node.links fits
  rw [Wire.fit_of_le (by simp), Option.bind_some, List.nil_append] at links
  rw [hashtableNodeProtobufEncode, links]
  simp only [pb.encodeLengthDelimited_eq, Option.bind_eq_bind, Wire.fit_bind_appendIf, hashtableNodeBytes]

theorem hashtableNodeProtobufEncode_eq (fits : node.Fits) (room : Nat) :
    hashtableNodeProtobufEncode pb mh node room = Wire.fit room (hashtableNodeBytes mh node) :=
  hashtableNodeProtobufEncode_of_fits pb mh (fun _ mem => fits.link_fits mh mem) room

theorem hashtableNodeBytes_length_le (fits : node.Fits) :
    (hashtableNodeBytes mh node).length ≤ hashtableNodeProtobufEncodeSize node := by
  have links : (node.links.flatMap fun link =>
        Wire.bytesField 2 .lengthDelimited (nodeLinkBytes mh link)).length ≤
      (node.links.map fun link => 11 + nodeLinkProtobufEncodeSize link).sum := by
    rw [List.length_flatMap]
    apply List.sum_le_sum
    intro link mem
    have short := fits.link_fits mh mem
    have sized := fits.link_sized mem
    have := Wire.bytesField_length_le .lengthDelimited (by decide : 2 < 15)
      (show (nodeLinkBytes mh link).length < 2 ^ 64 by omega)
    omega
  have data := Wire.bytesField_length_le .lengthDelimited (by decide : 1 < 15) fits.data_sized
  simp only [hashtableNodeBytes, hashtableNodeProtobufEncodeSize, List.length_append,
    apply_ite List.length, List.length_nil]
  split <;> omega

theorem hashtableNodeEncodeLinks_fits {room : Nat} {written out : Bytes} {links : List NodeLink}
    (encoded : hashtableNodeEncodeLinks pb mh room written links = some out) :
    ∀ link ∈ links, (nodeLinkBytes mh link).length ≤ nodeLinkProtobufEncodeSize link := by
  induction links generalizing written with
  | nil => exact fun link mem => absurd mem List.not_mem_nil
  | cons link links ih =>
      simp only [hashtableNodeEncodeLinks, nodeLinkProtobufEncode_eq, Option.bind_eq_bind, Option.bind_eq_some_iff]
        at encoded
      obtain ⟨temp, fitted, next, _, rest⟩ := encoded
      intro link' mem
      rcases List.mem_cons.mp mem with rfl | mem
      · rw [Wire.fit] at fitted
        split at fitted
        · assumption
        · cases fitted
      · exact ih rest link' mem

theorem hashtableNodeProtobufEncode_eq_some {room : Nat} {out : Bytes}
    (encoded : hashtableNodeProtobufEncode pb mh node room = some out) :
    (∀ link ∈ node.links, (nodeLinkBytes mh link).length ≤ nodeLinkProtobufEncodeSize link) ∧
      out = hashtableNodeBytes mh node ∧ out.length ≤ room := by
  have fits : ∀ link ∈ node.links, (nodeLinkBytes mh link).length ≤ nodeLinkProtobufEncodeSize link := by
    rw [hashtableNodeProtobufEncode] at encoded
    obtain ⟨links, first, _⟩ := Option.bind_eq_some_iff.mp encoded
    exact hashtableNodeEncodeLinks_fits pb mh first
  rw [hashtableNodeProtobufEncode_of_fits pb mh fits, Wire.fit] at encoded
  split at encoded
  · obtain rfl := Option.some.inj encoded
    exact ⟨fits, rfl, by assumption⟩
  · cases encoded

theorem hashtableNodeEncodeLinks_length_le {room : Nat} {out written : Bytes} {links : List NodeLink}
    (before : written.length ≤ room) (encoded : hashtableNodeEncodeLinks pb mh room written links = some out) :
    out.length ≤ room := by
  induction links generalizing written with
  | nil => exact Option.some.inj encoded ▸ before
  | cons link links ih =>
      simp only [hashtableNodeEncodeLinks, pb.encodeLengthDelimited_eq, Option.bind_eq_bind,
        Option.bind_eq_some_iff] at encoded
      obtain ⟨temp, _, next, appended, rest⟩ := encoded
      exact ih (Wire.append_length_le before appended) rest

theorem hashtableNodeProtobufEncode_length_le {room : Nat} {out : Bytes}
    (encoded : hashtableNodeProtobufEncode pb mh node room = some out) : out.length ≤ room := by
  simp only [hashtableNodeProtobufEncode, pb.encodeLengthDelimited_eq, Option.bind_eq_bind,
    Option.bind_eq_some_iff] at encoded
  obtain ⟨links, first, rest⟩ := encoded
  have fits := hashtableNodeEncodeLinks_length_le pb mh (Nat.zero_le room) first
  rw [Wire.appendIf] at rest
  split at rest
  · exact Wire.append_length_le fits rest
  · exact Option.some.inj rest ▸ fits

theorem hashtableNodeProtobufEncode_size (fits : node.Fits) :
    hashtableNodeProtobufEncode pb mh node (hashtableNodeProtobufEncodeSize node) =
      some (hashtableNodeBytes mh node) := by
  rw [hashtableNodeProtobufEncode_eq pb mh fits,
    Wire.fit_of_le (hashtableNodeBytes_length_le mh fits)]

theorem hashtableNodeBytes_ne_nil (nonempty : node.data ≠ [] ∨ node.links ≠ []) :
    hashtableNodeBytes mh node ≠ [] := by
  obtain ⟨data, links, hash⟩ := node
  cases links with
  | nil =>
      have present : 0 < data.length := List.length_pos_iff.mpr (by simpa using nonempty)
      simpa [hashtableNodeBytes, present] using
        List.ne_nil_of_length_pos (Wire.bytesField_length_pos 1 .lengthDelimited data)
  | cons link links =>
      have := List.ne_nil_of_length_pos
        (Wire.bytesField_length_pos 2 .lengthDelimited (nodeLinkBytes mh link))
      simp [hashtableNodeBytes, this]

def hashtableNodeReread (mh : Multihash) (node : HashtableNode) (link : NodeLink) : HashtableNode :=
  match link.reread mh with
  | some link => hashtableNodeAddLink node link
  | none => node

theorem foldl_hashtableNodeReread (node : HashtableNode) (links : List NodeLink) :
    links.foldl (hashtableNodeReread mh) node = { node with links := node.links ++ links.filterMap (NodeLink.reread mh) } := by
  induction links generalizing node with
  | nil => simp
  | cons link links ih =>
      rw [List.foldl_cons, ih, hashtableNodeReread]
      cases reread : link.reread mh with
      | none => rw [List.filterMap_cons_none reread]
      | some link' =>
          simp only [List.filterMap_cons_some reread, hashtableNodeAddLink, List.append_assoc, List.singleton_append]

theorem hashtableNodeProtobufDecode_reread (nonempty : hashtableNodeBytes mh node ≠ []) :
    hashtableNodeProtobufDecode pb (hashtableNodeBytes mh node) =
      .returned { data := node.data, links := node.links.filterMap (NodeLink.reread mh) } := by
  have link : ∀ link ∈ node.links, ∀ s, Feeds pb (hashtableNodeFields pb) s
      (Wire.bytesField 2 .lengthDelimited (nodeLinkBytes mh link)) (hashtableNodeReread mh s link) := by
    intro link _ s
    refine .lengthDelimited (by decide) (by decide) rfl ?_
    simp only [nodeLinkProtobufDecode_nodeLinkBytes pb mh link, hashtableNodeReread]
    cases link.reread mh <;> rfl
  have links := Feeds.flatMap _ _ node.links {} link
  rw [foldl_hashtableNodeReread, List.nil_append] at links
  have data (s : HashtableNode) (unset : s.data = []) : Feeds pb (hashtableNodeFields pb) s
      (if 0 < node.data.length then Wire.bytesField 1 .lengthDelimited node.data else [])
      { s with data := node.data } := by
    by_cases present : 0 < node.data.length
    · rw [if_pos present]
      exact .lengthDelimited (by decide) (by decide) rfl rfl
    · have empty : node.data = [] := List.eq_nil_of_length_eq_zero (by omega)
      have same : { s with data := node.data } = s := by rw [empty, ← unset]
      rw [if_neg present, same]
      exact .nil s
  rw [hashtableNodeProtobufDecode, if_neg nonempty]
  exact decodeFields_feeds (links.append (data _ rfl))

theorem hashtableNodeProtobufDecode_hashtableNodeBytes (nonempty : node.data ≠ [] ∨ node.links ≠ [])
    (hashed : ∀ link ∈ node.links, link.Hashed) :
    hashtableNodeProtobufDecode pb (hashtableNodeBytes mh node) =
      .returned { data := node.data, links := node.links.map NodeLink.named } := by
  have links : node.links.filterMap (NodeLink.reread mh) = node.links.map NodeLink.named :=
    List.filterMap_eq_map_iff_forall_eq_some.mpr fun link mem => (hashed link mem).reread mh
  rw [hashtableNodeProtobufDecode_reread pb mh (hashtableNodeBytes_ne_nil mh nonempty), links]

end

/-! ## Round trip -/

theorem HashtableNode.same_of_named {node node' : HashtableNode}
    (data : node.data = node'.data)
    (links : node.links.map NodeLink.named = node'.links.map NodeLink.named) : node.Same node' := by
  refine ⟨?_, data⟩
  rw [← List.forall₂_eq_eq_eq] at links
  rw [List.forall₂_map_left_iff, List.forall₂_map_right_iff] at links
  refine links.imp fun link link' same => ?_
  simp only [NodeLink.named, NodeLink.mk.injEq, Option.some.injEq] at same
  exact same

theorem HashtableNode.Same.named {node node' : HashtableNode} (same : node.Same node') :
    node.data = node'.data ∧ node.links.map NodeLink.named = node'.links.map NodeLink.named := by
  obtain ⟨links, data⟩ := same
  refine ⟨data, ?_⟩
  rw [← List.forall₂_eq_eq_eq, List.forall₂_map_left_iff, List.forall₂_map_right_iff]
  exact links.imp fun link link' ⟨hash, text, tSize⟩ => by simp [NodeLink.named, hash, text, tSize]

theorem HashtableNode.Same.symm {node node' : HashtableNode} (same : node.Same node') : node'.Same node :=
  same_of_named same.named.1.symm same.named.2.symm

theorem HashtableNode.Same.trans {node node' node'' : HashtableNode} (first : node.Same node')
    (second : node'.Same node'') : node.Same node'' :=
  same_of_named (first.named.1.trans second.named.1) (first.named.2.trans second.named.2)

theorem HashtableNode.Same.nonempty {node node' : HashtableNode} (same : node.Same node')
    (nonempty : node.data ≠ [] ∨ node.links ≠ []) : node'.data ≠ [] ∨ node'.links ≠ [] := by
  obtain ⟨data, links⟩ := same.named
  rw [data, ne_eq node.links, ← List.map_eq_nil_iff (f := NodeLink.named), links, List.map_eq_nil_iff] at nonempty
  exact nonempty

theorem hashtableNode_roundTrip (node : HashtableNode) (saveable : node.Saveable) :
    ∃ bytes node',
      hashtableNodeProtobufEncode pb mh node (hashtableNodeProtobufEncodeSize node) = some bytes ∧
      hashtableNodeProtobufDecode pb bytes = .returned node' ∧ node'.Same node ∧
      ∀ other : HashtableNode, other.Saveable →
        hashtableNodeProtobufEncode pb mh other (hashtableNodeProtobufEncodeSize other) = some bytes →
        other.Same node := by
  refine ⟨_, _, hashtableNodeProtobufEncode_size pb mh saveable.fits,
    hashtableNodeProtobufDecode_hashtableNodeBytes pb mh saveable.nonempty saveable.hashed, ?_, ?_⟩
  · refine HashtableNode.same_of_named rfl ?_
    rw [List.map_map]
    rfl
  · intro other saveable' encoded
    rw [hashtableNodeProtobufEncode_size pb mh saveable'.fits, Option.some.injEq] at encoded
    have decoded := hashtableNodeProtobufDecode_hashtableNodeBytes pb mh saveable'.nonempty saveable'.hashed
    rw [encoded, hashtableNodeProtobufDecode_hashtableNodeBytes pb mh saveable.nonempty saveable.hashed,
      Outcome.returned.injEq, HashtableNode.mk.injEq] at decoded
    exact HashtableNode.same_of_named decoded.1.symm decoded.2.1.symm

theorem hashtableNode_roundTrip_twoLinks :
    ∃ node : HashtableNode, node.links.length = 2 ∧ node.Saveable ∧ ∃ bytes node',
      hashtableNodeProtobufEncode .standard .standard node (hashtableNodeProtobufEncodeSize node) =
        some bytes ∧
      hashtableNodeProtobufDecode .standard bytes = .returned node' ∧ node'.Same node := by
  let node : HashtableNode :=
    { data := [8, 1]
      links := [{ hash := [1, 2, 3], tSize := 300 }, { hash := [4], name := some ⟨[97], by decide⟩ }] }
  have saveable : node.Saveable :=
    { nonempty := by decide
      hashed := by decide
      sized := by decide }
  obtain ⟨bytes, node', encoded, decoded, same, _⟩ :=
    hashtableNode_roundTrip .standard .standard node saveable
  exact ⟨node, rfl, saveable, bytes, node', encoded, decoded, same⟩

end Ipfs
