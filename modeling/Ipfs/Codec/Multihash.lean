import Ipfs.Lib.Wire

namespace Ipfs

/-- The multihash submodule, for `MH_H_SHA2_256`. `new` is the buffer of `mh_new_length` bytes after
`mh_new`, `digest` is `mh_multihash_digest`. -/
structure Multihash where
  new : Bytes → Bytes
  digest : Bytes → Option Bytes
  new_eq : ∀ hash, hash.length ≤ 127 → new hash = 0x12 :: UInt8.ofNat hash.length :: hash
  digest_new : ∀ hash, hash.length ≤ 127 → digest (new hash) = some hash

namespace Multihash

def standard : Multihash where
  new hash := 0x12 :: UInt8.ofNat hash.length :: hash
  digest multihash := if multihash.length < 2 then none else some (multihash.drop 2)
  new_eq _ _ := rfl
  digest_new hash _ := by simp

variable (mh : Multihash)

theorem new_length {hash : Bytes} (short : hash.length ≤ 127) : (mh.new hash).length = hash.length + 2 := by
  simp [mh.new_eq hash short]

theorem new_drop {hash : Bytes} (short : hash.length ≤ 127) : (mh.new hash).drop 2 = hash := by
  simp [mh.new_eq hash short]

end Multihash
end Ipfs
