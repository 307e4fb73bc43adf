import Ipfs.Importer.Exporter
import Ipfs.Lib.Base58
import Ipfs.Lib.Text
import Ipfs.Store.Known

/-!
# Cids as text

A Cid of version 0 is written as the base58 form of its multihash. It is recognised by its length and its first
two letters.
-/

namespace Ipfs
open Conversion

variable {lib : Library}

/-- Base58 of libp2p's crypto library, whose decoder is `crypto.base58Decode`. -/
structure Base58Encoder (crypto : Crypto) where
  encodeSize : Nat → Nat
  encode : Bytes → Option Bytes
  encode_eq : ∀ bytes, encode bytes = some (Base58.encode bytes)
  decode_encode : ∀ bytes, crypto.base58Decode (Base58.encode bytes) = some bytes
  encode_decode : ∀ text bytes, crypto.base58Decode text = some bytes → Base58.encode bytes = text

/-- `ipfs_cid_hash_to_base58`; the multihash is an array on the stack, its length an `int`. -/
def cidHashToBase58 (base58 : Base58Encoder lib.crypto) (hash : Bytes) (maxBufferLength : Nat) : Outcome Bytes :=
  if sizeToInt (hash.length + 2) < (lib.mh.new hash).length then .fault .outOfBounds
  -- buffer too small
  else if base58.encodeSize (hash.length + 2) > maxBufferLength then .failed
  else .ofOption (base58.encode (lib.mh.new hash))

/-- The numbers of 34 bytes that begin with 0x12 and 0x20 have 46 digits, of which the first are 23 and 44. -/
theorem multihash_quotient {hash : Bytes} (length : hash.length = 32) :
    Nat.ofDigits 256 ((0x12 :: 0x20 :: hash).map UInt8.toNat).reverse / 58 ^ 44 = 1378 := by
  have digits : ∀ digit ∈ (hash.map UInt8.toNat).reverse, digit < 256 := by
    intro digit mem
    obtain ⟨byte, -, rfl⟩ := List.mem_map.mp (List.mem_reverse.mp mem)
    exact byte.toNat_lt
  have bound := Nat.ofDigits_lt_base_pow_length (by decide) digits
  have value : Nat.ofDigits 256 ((0x12 :: 0x20 :: hash).map UInt8.toNat).reverse =
      Nat.ofDigits 256 (hash.map UInt8.toNat).reverse + 256 ^ 32 * 4640 := by
    have first : Nat.ofDigits 256 [32, 18] = 4640 := rfl
    rw [List.map_cons, List.map_cons, List.reverse_cons, List.reverse_cons, List.append_assoc, Nat.ofDigits_append,
      List.length_reverse, List.length_map, length]
    exact congrArg (fun value => _ + 256 ^ 32 * value) first
  rw [List.length_reverse, List.length_map, length] at bound
  rw [value]
  generalize Nat.ofDigits 256 (hash.map UInt8.toNat).reverse = n at bound
  exact Nat.div_eq_of_lt_le (by omega) (by omega)

theorem encode_multihash {hash : Bytes} (length : hash.length = 32) :
    ∃ low, low.length = 44 ∧ Base58.encode (0x12 :: 0x20 :: hash) = [0x51, 0x6d] ++ low := by
  have quotient := multihash_quotient length
  obtain ⟨low, size, encoded⟩ := @Base58.encode_eq_append (0x12 :: 0x20 :: hash) (by simp) 44
    (by rw [quotient]; decide)
  refine ⟨low, size, ?_⟩
  rw [encoded, quotient]
  rfl

/-- The base58 form of a multihash, as it is recognised. -/
structure Base58Text (lib : Library) (text multihash : Bytes) : Prop where
  length : text.length = 46
  start : text.take 2 = [0x51, 0x6d]
  decodes : lib.crypto.base58Decode text = some multihash

theorem Base58Text.long (base58 : Base58Encoder lib.crypto) {text multihash : Bytes}
    (form : Base58Text lib text multihash) : 2 ≤ multihash.length := by
  by_contra short
  have bound := Base58.encode_length_of_short (not_le.mp short)
  rw [base58.encode_decode text multihash form.decodes, form.length] at bound
  omega

theorem cidDecodeHashFromBase58_form (base58 : Base58Encoder lib.crypto) {text multihash : Bytes}
    (form : Base58Text lib text multihash) :
    cidDecodeHashFromBase58 lib text = .returned (cidNew 0 (multihash.drop 2) cidDagProtobuf) := by
  rw [cidDecodeHashFromBase58, if_neg (by rw [form.length]; decide), if_pos ⟨form.length, form.start⟩, form.decodes]
  exact if_neg (not_lt.mpr (form.long base58))

theorem cidDecodeHashFromBase58_other {text : Bytes} (other : ∀ multihash, ¬ Base58Text lib text multihash) :
    cidDecodeHashFromBase58 lib text = .failed := by
  rw [cidDecodeHashFromBase58]
  by_cases short : text.length < 2
  · rw [if_pos short]
  · rw [if_neg short]
    by_cases recognised : text.length = 46 ∧ text.take 2 = [0x51, 0x6d]
    · rw [if_pos recognised]
      cases decoded : lib.crypto.base58Decode text with
      | none => rfl
      | some multihash => exact absurd ⟨recognised.1, recognised.2, decoded⟩ (other multihash)
    · rw [if_neg recognised]

/-- The text form of a hash of 32 bytes is recognised and decoded. -/
theorem cidHashToBase58_roundTrip (base58 : Base58Encoder lib.crypto) (hash : Bytes) (length : hash.length = 32)
    (maxBufferLength : Nat) (room : base58.encodeSize 34 ≤ maxBufferLength) :
    ∃ text, cidHashToBase58 base58 hash maxBufferLength = .returned text ∧ text.length = 46 ∧
      [0x51, 0x6d] <+: text ∧
      cidDecodeHashFromBase58 lib text = .returned ⟨0, cidDagProtobuf.toInt32, hash⟩ := by
  have multihash : lib.mh.new hash = 0x12 :: 0x20 :: hash := by
    rw [lib.mh.new_eq hash (by omega), length]
    rfl
  obtain ⟨low, size, encoded⟩ := encode_multihash length
  refine ⟨Base58.encode (0x12 :: 0x20 :: hash), ?_, ?_, ?_, ?_⟩
  · have stack : ¬ sizeToInt (hash.length + 2) < (lib.mh.new hash).length := by
      rw [multihash, sizeToInt_of_lt (by omega)]
      simp
    rw [cidHashToBase58, if_neg stack, length, if_neg (not_lt.mpr room), base58.encode_eq, multihash]
    rfl
  · rw [encoded, List.length_append, size]
    rfl
  · exact ⟨low, encoded.symm⟩
  · refine cidDecodeHashFromBase58_form base58 ⟨?_, ?_, base58.decode_encode (0x12 :: 0x20 :: hash)⟩
    · rw [encoded, List.length_append, size]
      rfl
    · rw [encoded]
      rfl

theorem encode_fileDigest : Base58.encode (0x12 :: 0x20 :: fileDigest.sha256) = fileDigest.base58 := by decide +kernel

theorem slash_of_base58_decode (text hash : Bytes) (decoded : Base58.decode text = some hash) : 0x2f ∉ text :=
  fun mem => absurd (Base58.mem_alphabet_of_decode decoded 0x2f mem) (by decide)

def noDigests : Digest.Table where
  entries := []
  other := List.replicate 32 0
  lengths := by decide
  distinct := by decide
  written := by decide
  apart := by decide
  alphabet := by decide

def Library.base58 : Library where
  pb := .standard
  mh := .standard
  crypto :=
    { Crypto.known noDigests with
      base58Decode := Base58.decode
      base58Decode_slash := slash_of_base58_decode }
  store := .keys

def Base58Encoder.standard : Base58Encoder Library.base58.crypto where
  encodeSize size := size * 138 / 100 + 1
  encode bytes := some (Base58.encode bytes)
  encode_eq _ := rfl
  decode_encode := Base58.decode_encode
  encode_decode _ _ := Base58.encode_decode

theorem base58Decode_fileDigest :
    Library.base58.crypto.base58Decode fileDigest.base58 = some (0x12 :: 0x20 :: fileDigest.sha256) := by
  rw [← encode_fileDigest]
  exact Base58.decode_encode _

theorem cidHashToBase58_roundTrip_fileDigest :
    ∃ text, cidHashToBase58 Base58Encoder.standard fileDigest.sha256 100 = .returned text ∧ text.length = 46 ∧
      [0x51, 0x6d] <+: text ∧
      cidDecodeHashFromBase58 .base58 text = .returned ⟨0, cidDagProtobuf.toInt32, fileDigest.sha256⟩ :=
  cidHashToBase58_roundTrip Base58Encoder.standard fileDigest.sha256 rfl 100 (by decide)

/-! ## Paths -/

inductive NamePrefix
  | ipfs
  | ipns
  deriving DecidableEq

def NamePrefix.bytes : NamePrefix → Bytes
  | .ipfs => [0x2f, 0x69, 0x70, 0x66, 0x73, 0x2f]
  | .ipns => [0x2f, 0x69, 0x70, 0x6e, 0x73, 0x2f]

/-- `strstr(string, token) == string`. -/
def atStart (token string : Bytes) : Bool := (Text.search token string).map Prod.fst = some []

theorem atStart_iff {token string : Bytes} (nonempty : token ≠ []) : atStart token string ↔ token <+: string := by
  rw [atStart, decide_eq_true_eq]
  cases string with
  | nil => simp [Text.search, nonempty]
  | cons byte string =>
      rw [Text.search]
      by_cases start : token <+: byte :: string
      · simp [start]
      · rw [if_neg start]
        refine iff_of_false ?_ start
        cases Text.search token string <;> simp

/-- `ipfs_cid_decode_hash_from_ipfs_ipns_string`: the result, and the string of the caller afterwards. -/
def cidDecodeHashFromIpfsIpnsString (lib : Library) (incoming : Option Bytes) : Outcome Cid × Option Bytes :=
  match incoming with
  | none => (.failed, none)
  | some incoming =>
      if ¬ atStart NamePrefix.ipfs.bytes incoming ∧ ¬ atStart NamePrefix.ipns.bytes incoming then (.failed, some incoming)
      else
        let cut := match Text.search [0x2f] incoming with
          | some (before, _) => incoming.set before.length 0
          | none => incoming
        (cidDecodeHashFromBase58 lib (cString (cut.drop 6)), some cut)

theorem NamePrefix.bytes_ne_nil (start : NamePrefix) : start.bytes ≠ [] := by
  cases start <;> decide

theorem atStart_prefix (start : NamePrefix) (rest : Bytes) : atStart start.bytes (start.bytes ++ rest) = true :=
  (atStart_iff start.bytes_ne_nil).mpr (List.prefix_append ..)

/-- The first slash is the first byte of the prefix. -/
theorem cidDecodeHashFromIpfsIpnsString_append (lib : Library) (start : NamePrefix) (rest : Bytes) :
    cidDecodeHashFromIpfsIpnsString lib (some (start.bytes ++ rest)) =
      (cidDecodeHashFromBase58 lib (cString rest), some (0 :: (start.bytes ++ rest).tail)) := by
  have known : ¬ (¬ atStart NamePrefix.ipfs.bytes (start.bytes ++ rest) ∧
      ¬ atStart NamePrefix.ipns.bytes (start.bytes ++ rest)) := by
    have found := atStart_prefix start rest
    cases start with
    | ipfs => exact fun neither => neither.1 found
    | ipns => exact fun neither => neither.2 found
  have slash : Text.search [0x2f] (start.bytes ++ rest) = some ([], (start.bytes ++ rest).tail) := by
    cases start <;> exact Text.search_prefix (by simp) _
  simp only [cidDecodeHashFromIpfsIpnsString, if_neg known, slash]
  cases start <;> rfl

theorem cidDecodeHashFromIpfsIpnsString_other (lib : Library) {incoming : Bytes}
    (other : ∀ start : NamePrefix, ¬ start.bytes <+: incoming) :
    cidDecodeHashFromIpfsIpnsString lib (some incoming) = (.failed, some incoming) := by
  have absent (start : NamePrefix) : ¬ atStart start.bytes incoming :=
    mt (atStart_iff start.bytes_ne_nil).mp (other start)
  rw [cidDecodeHashFromIpfsIpnsString, if_pos ⟨absent .ipfs, absent .ipns⟩]

/-- What stands behind the hash does not matter, and the caller keeps its strings. -/
def IpfsIpnsTransparent (lib : Library) (start : NamePrefix) (hash remainder : Bytes) : Prop :=
  let short := start.bytes ++ hash
  let long := start.bytes ++ hash ++ 0x2f :: remainder
  (cidDecodeHashFromIpfsIpnsString lib (some long)).1 = (cidDecodeHashFromIpfsIpnsString lib (some short)).1 ∧
    (cidDecodeHashFromIpfsIpnsString lib (some long)).2 = some long ∧
    (cidDecodeHashFromIpfsIpnsString lib (some short)).2 = some short

/-- The string of the caller is empty afterwards. -/
theorem not_ipfsIpnsTransparent (lib : Library) (start : NamePrefix) (hash remainder : Bytes) :
    ¬ IpfsIpnsTransparent lib start hash remainder := by
  rintro ⟨-, -, kept⟩
  rw [cidDecodeHashFromIpfsIpnsString_append] at kept
  cases start <;> simp [NamePrefix.bytes] at kept

/-- The results differ as soon as the hash alone is one: the rest is taken for a part of it. -/
theorem cidDecodeHashFromIpfsIpnsString_same_iff (lib : Library) (start : NamePrefix) {hash remainder : Bytes}
    (length : hash.length = 46) (clean : 0 ∉ hash) (clean' : 0 ∉ remainder) :
    (cidDecodeHashFromIpfsIpnsString lib (some (start.bytes ++ hash ++ 0x2f :: remainder))).1 =
        (cidDecodeHashFromIpfsIpnsString lib (some (start.bytes ++ hash))).1 ↔
      cidDecodeHashFromBase58 lib hash = .failed := by
  have long : 0 ∉ hash ++ 0x2f :: remainder := by simp [clean, clean']
  rw [List.append_assoc, cidDecodeHashFromIpfsIpnsString_append, cidDecodeHashFromIpfsIpnsString_append,
    cString_of_clean clean, cString_of_clean long]
  have refused : cidDecodeHashFromBase58 lib (hash ++ 0x2f :: remainder) = .failed := by
    have size : (hash ++ 0x2f :: remainder).length = 47 + remainder.length := by
      rw [List.length_append, List.length_cons, length]
      omega
    rw [cidDecodeHashFromBase58, size, if_neg (by omega), if_neg (by omega)]
  rw [refused, eq_comm]

theorem not_ipfsIpnsTransparent_fileDigest :
    (cidDecodeHashFromIpfsIpnsString .base58 (some (NamePrefix.ipfs.bytes ++ fileDigest.base58))).1 =
        .returned ⟨0, cidDagProtobuf.toInt32, fileDigest.sha256⟩ ∧
      (cidDecodeHashFromIpfsIpnsString .base58
        (some (NamePrefix.ipfs.bytes ++ fileDigest.base58 ++ [0x2f, 0x78]))).1 = .failed ∧
      ¬ IpfsIpnsTransparent .base58 .ipfs fileDigest.base58 [0x78] := by
  have named : cidDecodeHashFromBase58 .base58 fileDigest.base58 =
      .returned ⟨0, cidDagProtobuf.toInt32, fileDigest.sha256⟩ :=
    cidDecodeHashFromBase58_form Base58Encoder.standard ⟨rfl, rfl, base58Decode_fileDigest⟩
  refine ⟨?_, rfl, ?_⟩
  · rw [cidDecodeHashFromIpfsIpnsString_append, cString_of_clean (by decide), named]
  · rintro ⟨-, -, kept⟩
    rw [cidDecodeHashFromIpfsIpnsString_append] at kept
    simp [NamePrefix.bytes] at kept

end Ipfs
