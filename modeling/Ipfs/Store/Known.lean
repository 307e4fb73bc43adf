import Ipfs.Store.FsRepo

/-!
# Libraries that know a few digests

SHA-256 and its text forms, given by a table for the blocks of one example.
-/

namespace Ipfs

/-- A block, its digest, and the two ways the digest is written. -/
structure Digest where
  block : Bytes
  sha256 : Bytes
  base32 : Bytes
  base58 : Bytes

def fileDigest : Digest :=
  { block := [0x0a, 0x08, 0x08, 0x02, 0x12, 0x02, 0x68, 0x69, 0x18, 0x02]
    sha256 := [0xe2, 0xfe, 0xcf, 0x4b, 0x8d, 0xf2, 0x82, 0xc8, 0x84, 0x8a, 0xe9, 0xf7, 0x0a, 0xd6,
               0xe9, 0x70, 0x69, 0xb4, 0x35, 0xf5, 0xb5, 0x90, 0x7c, 0x3f, 0xff, 0xe1, 0x4a, 0x6b,
               0xf5, 0xbe, 0xf0, 0xda]
    base32 := [0x34, 0x4c, 0x37, 0x4d, 0x36, 0x53, 0x34, 0x4e, 0x36, 0x4b, 0x42, 0x4d, 0x52, 0x42,
               0x45, 0x4b, 0x35, 0x48, 0x33, 0x51, 0x56, 0x56, 0x58, 0x4a, 0x4f, 0x42, 0x55, 0x33,
               0x49, 0x4e, 0x50, 0x56, 0x57, 0x57, 0x49, 0x48, 0x59, 0x50, 0x37, 0x37, 0x34, 0x46,
               0x46, 0x47, 0x58, 0x35, 0x4e, 0x36, 0x36, 0x44, 0x4e, 0x41]
    base58 := [0x51, 0x6d, 0x64, 0x63, 0x6b, 0x43, 0x6f, 0x50, 0x75, 0x68, 0x45, 0x74, 0x69, 0x4e,
               0x7a, 0x52, 0x45, 0x74, 0x71, 0x70, 0x59, 0x6e, 0x38, 0x64, 0x42, 0x67, 0x59, 0x38,
               0x69, 0x66, 0x63, 0x47, 0x38, 0x32, 0x51, 0x34, 0x65, 0x79, 0x45, 0x64, 0x47, 0x43,
               0x4c, 0x45, 0x69, 0x75] }

structure Digest.Table where
  entries : List Digest
  -- the digest of every other block
  other : Bytes
  lengths : ∀ hash ∈ other :: entries.map Digest.sha256, hash.length = 32
  distinct : (other :: entries.map Digest.sha256).Nodup
  written : ∀ text ∈ entries.map Digest.base32, text.head? ≠ some 0
  apart : (entries.map Digest.base32).Nodup
  alphabet : ∀ text ∈ entries.map Digest.base58, 0x2f ∉ text

def Digest.Table.base32 (table : Digest.Table) (hash : Bytes) : Bytes :=
  match table.entries.find? (·.sha256 = hash) with
  | some e => e.base32
  | none => 0 :: hash

theorem Digest.Table.base32_injective (table : Digest.Table) : Function.Injective table.base32 := by
  intro a b same
  simp only [base32] at same
  cases first : table.entries.find? (·.sha256 = a) with
  | none =>
      cases second : table.entries.find? (·.sha256 = b) with
      | none => simpa [first, second] using same
      | some e =>
          simp only [first, second] at same
          exact absurd (by rw [← same]; rfl) (table.written _ (List.mem_map_of_mem (List.mem_of_find?_eq_some second)))
  | some e =>
      have mem := List.mem_of_find?_eq_some first
      cases second : table.entries.find? (·.sha256 = b) with
      | none =>
          simp only [first, second] at same
          exact absurd (by rw [same]; rfl) (table.written _ (List.mem_map_of_mem mem))
      | some e' =>
          have eq := List.find?_some first
          have eq' := List.find?_some second
          simp only [first, second, decide_eq_true_eq] at same eq eq'
          rw [← eq, ← eq', List.inj_on_of_nodup_map table.apart mem (List.mem_of_find?_eq_some second) same]

def Digest.Table.sha256 (table : Digest.Table) (data : Bytes) : Bytes :=
  match table.entries.find? (·.block = data) with
  | some e => e.sha256
  | none => table.other

theorem Digest.Table.sha256_length (table : Digest.Table) (data : Bytes) : (table.sha256 data).length = 32 := by
  cases found : table.entries.find? (·.block = data) with
  | none => simpa [sha256, found] using table.lengths table.other (by simp)
  | some e =>
      have mem := List.mem_of_find?_eq_some found
      simpa [sha256, found] using table.lengths e.sha256 (List.mem_cons_of_mem _ (List.mem_map_of_mem mem))

theorem Digest.Table.eq_or_not_mem_of_sha256_eq (table : Digest.Table) {a b : Bytes}
    (same : table.sha256 a = table.sha256 b) :
    a = b ∨ (a ∉ table.entries.map Digest.block ∧ b ∉ table.entries.map Digest.block) := by
  obtain ⟨fresh, distinct⟩ := List.nodup_cons.mp table.distinct
  have absent {data : Bytes} (found : table.entries.find? (·.block = data) = none) :
      data ∉ table.entries.map Digest.block := by
    simpa using found
  cases first : table.entries.find? (·.block = a) with
  | none =>
      cases second : table.entries.find? (·.block = b) with
      | none => exact .inr ⟨absent first, absent second⟩
      | some e =>
          simp only [sha256, first, second] at same
          exact absurd (List.mem_map_of_mem (List.mem_of_find?_eq_some second)) (same ▸ fresh)
  | some e =>
      have mem := List.mem_of_find?_eq_some first
      cases second : table.entries.find? (·.block = b) with
      | none =>
          simp only [sha256, first, second] at same
          exact absurd (List.mem_map_of_mem mem) (same ▸ fresh)
      | some e' =>
          have eq := List.find?_some first
          have eq' := List.find?_some second
          simp only [sha256, first, second, decide_eq_true_eq] at same eq eq'
          rw [← eq, ← eq', List.inj_on_of_nodup_map distinct mem (List.mem_of_find?_eq_some second) same]
          exact .inl rfl

def Crypto.known (table : Digest.Table) : Crypto where
  sha256 := table.sha256
  base32 := table.base32
  base32EncodeSize n := (n + 4) / 5 * 8
  base58Decode text := (table.entries.find? (·.base58 = text)).map fun e => 0x12 :: 0x20 :: e.sha256
  sha256_length := table.sha256_length
  base32_injective := table.base32_injective
  base32EncodeSize_digest := by decide
  base58Decode_slash text hash decoded := by
    obtain ⟨e, found, _⟩ := Option.map_eq_some_iff.mp decoded
    have eq : e.base58 = text := by simpa using List.find?_some found
    exact eq ▸ table.alphabet e.base58 (List.mem_map_of_mem (List.mem_of_find?_eq_some found))

def Datastore.keys : Datastore where
  State := List Bytes
  put s key _ := some (key :: s)
  has s key := key ∈ s
  has_put s s' key value h := by simp [← Option.some.inj h]
  has_mono s s' key key' value h mem := by
    simp only [decide_eq_true_eq] at mem
    simp [← Option.some.inj h, mem]

def Library.known (table : Digest.Table) : Library :=
  { pb := .standard, mh := .standard, crypto := .known table, store := .keys }

def FsRepo.new (table : Digest.Table) : FsRepo (.known table) :=
  { blockstore := fun _ => none, datastore := [], disk := [] }

end Ipfs
