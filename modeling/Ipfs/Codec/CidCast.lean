import Ipfs.Codec.Cid
import Ipfs.Codec.Multihash

/-!
# Binary Cids

`ipfs_cid_cast` takes 34 bytes that begin with 0x12 and 0x20 for a multihash, and anything else for two varints
with a hash behind them.
-/

namespace Ipfs
open Conversion

def multihashForm (incoming : Bytes) : Prop := incoming.length = 34 ∧ incoming.take 2 = [0x12, 0x20]

instance (incoming : Bytes) : Decidable (multihashForm incoming) := inferInstanceAs (Decidable (_ ∧ _))

/-- `ipfs_cid_cast`; the position is an `int`. -/
def cidCast (pb : Protobuf) (mh : Multihash) (incoming : Bytes) : Outcome Cid :=
  if multihashForm incoming then do
    let hash ← .access .unassigned (mh.digest incoming)
    pure ⟨0, cidDagProtobuf.toInt32, hash⟩
  else
    -- first the version
    let first := pb.varintDecode incoming
    let version := unsignedToInt first.1
    if first.2 = 0 ∨ version > 1 ∨ version < 0 then .failed
    else
      let pos := sizeToInt first.2
      if pos < 0 then .fault .outOfBounds
      else
        -- now the codec
        let codec := pb.varintDecode (incoming.drop pos.toNat)
        if codec.2 = 0 then .failed
        else
          let pos := sizeToInt (pos.toNat + codec.2)
          if pos < 0 then .fault .outOfBounds
          -- now what is left
          else .returned ⟨version, unsignedToInt codec.1, incoming.drop pos.toNat⟩

def varintForm (version codec : Nat) (hash : Bytes) : Bytes := Leb128.encode version ++ Leb128.encode codec ++ hash

/-- An input is one of the two forms and comes back as it was put together, or its version is above 1 and it is
rejected. -/
structure CastMeets (pb : Protobuf) (mh : Multihash) (incoming : Bytes) : Prop where
  varints : ∀ version codec hash, version ≤ 1 → codec < 2 ^ 31 → incoming = varintForm version codec hash →
    cidCast pb mh incoming = .returned ⟨.ofNat version, .ofNat codec, hash⟩
  multihash : ∀ digest : Bytes, digest.length = 32 → incoming = 0x12 :: 0x20 :: digest →
    cidCast pb mh incoming = .returned ⟨0, cidDagProtobuf.toInt32, digest⟩
  disjoint : ∀ version codec hash, version ≤ 1 → codec < 2 ^ 31 → incoming = varintForm version codec hash →
    ¬ multihashForm incoming
  rejected : ¬ multihashForm incoming → ∀ version numBytes, pb.varintDecode incoming = (version, numBytes) →
    numBytes ≠ 0 → 1 < version → cidCast pb mh incoming = .failed

/-- A leading varint above 1 is 0 or 1 when it is kept in an `int`, and a codec follows. -/
def CastMistaken (pb : Protobuf) (incoming : Bytes) : Prop :=
  ¬ multihashForm incoming ∧
    (pb.varintDecode incoming).2 ≠ 0 ∧ 1 < (pb.varintDecode incoming).1 ∧
    (pb.varintDecode incoming).1.toNat % 2 ^ 32 ≤ 1 ∧
    (0 ≤ sizeToInt (pb.varintDecode incoming).2 →
      (pb.varintDecode (incoming.drop (sizeToInt (pb.varintDecode incoming).2).toNat)).2 ≠ 0)

section
variable {pb : Protobuf} {mh : Multihash} {incoming : Bytes}

theorem multihashForm_cons (digest : Bytes) (length : digest.length = 32) : multihashForm (0x12 :: 0x20 :: digest) :=
  ⟨by simp [length], rfl⟩

theorem not_multihashForm_varintForm {version codec : Nat} (known : version ≤ 1) (hash : Bytes) :
    ¬ multihashForm (varintForm version codec hash) := by
  rintro ⟨-, start⟩
  have first : (varintForm version codec hash).head? = some version.toUInt8 := by
    rw [varintForm, Leb128.encode_lt (by omega)]
    rfl
  have same : some version.toUInt8 = some 0x12 := by
    have taken : ((varintForm version codec hash).take 2).head? = (varintForm version codec hash).head? := by
      rw [List.head?_take, if_neg (by decide)]
    rw [← first, ← taken, start]
    rfl
  interval_cases version <;> revert same <;> decide

theorem cidCast_multihash (digest : Bytes) (length : digest.length = 32) :
    cidCast pb mh (0x12 :: 0x20 :: digest) = .returned ⟨0, cidDagProtobuf.toInt32, digest⟩ := by
  have new : mh.new digest = 0x12 :: 0x20 :: digest := by
    rw [mh.new_eq digest (by omega), length]
    rfl
  rw [cidCast, if_pos (multihashForm_cons digest length), ← new, mh.digest_new digest (by omega)]
  rfl

theorem unsignedToInt_toInt (value : UInt64) : (unsignedToInt value).toInt = (value.toNat : Int).bmod (2 ^ 32) := by
  have bits : (unsignedToInt value).toBitVec = value.toBitVec.setWidth 32 := rfl
  rw [Int32.toInt, bits, BitVec.toInt_eq_toNat_bmod, BitVec.toNat_setWidth, Int.natCast_mod, Int.emod_bmod]
  rfl

theorem unsignedToInt_ofNat {n : Nat} (small : n < 2 ^ 64) : unsignedToInt (.ofNat n) = .ofNat n := by
  apply Int32.toInt_inj.mp
  rw [unsignedToInt_toInt, Int32.toInt_ofNat', UInt64.toNat_ofNat_of_lt' small]
  rfl

theorem unsignedToInt_unknown_iff (value : UInt64) :
    (unsignedToInt value > 1 ∨ unsignedToInt value < 0) ↔ 1 < value.toNat % 2 ^ 32 := by
  have one : (1 : Int32).toInt = 1 := rfl
  have zero : (0 : Int32).toInt = 0 := rfl
  rw [gt_iff_lt, Int32.lt_iff_toInt_lt, Int32.lt_iff_toInt_lt, one, zero, unsignedToInt_toInt, Int.bmod_def]
  split <;> omega

theorem varintDecode_encode_ofNat {n : Nat} (small : n < 2 ^ 64) (rest : Bytes) :
    pb.varintDecode (Leb128.encode n ++ rest) = (.ofNat n, (Leb128.encode n).length) := by
  have decoded := pb.varintDecode_encode (.ofNat n) rest
  rwa [UInt64.toNat_ofNat_of_lt' small] at decoded

theorem cidCast_varintForm {version codec : Nat} (known : version ≤ 1) (bound : codec < 2 ^ 31) (hash : Bytes) :
    cidCast pb mh (varintForm version codec hash) = .returned ⟨.ofNat version, .ofNat codec, hash⟩ := by
  have size := Leb128.encode_length_le_ten (show version < 2 ^ 64 by omega)
  have size' := Leb128.encode_length_le_ten (show codec < 2 ^ 64 by omega)
  have some := Leb128.encode_length_pos version
  have some' := Leb128.encode_length_pos codec
  have first : pb.varintDecode (varintForm version codec hash) = (.ofNat version, (Leb128.encode version).length) := by
    rw [varintForm, List.append_assoc]
    exact varintDecode_encode_ofNat (by omega) _
  have rest : (varintForm version codec hash).drop (Leb128.encode version).length = Leb128.encode codec ++ hash := by
    rw [varintForm, List.append_assoc, List.drop_left]
  have second : pb.varintDecode (Leb128.encode codec ++ hash) = (.ofNat codec, (Leb128.encode codec).length) :=
    varintDecode_encode_ofNat (by omega) hash
  have rest' : (varintForm version codec hash).drop ((Leb128.encode version).length + (Leb128.encode codec).length) =
      hash := by
    rw [varintForm, ← List.length_append, List.drop_left]
  have unknown : ¬ (unsignedToInt (.ofNat version) > 1 ∨ unsignedToInt (.ofNat version) < 0) := by
    rw [unsignedToInt_unknown_iff, UInt64.toNat_ofNat_of_lt' (show version < 2 ^ 64 by omega)]
    omega
  simp only [cidCast, if_neg (not_multihashForm_varintForm known hash), first]
  rw [if_neg (not_or.mpr ⟨by omega, unknown⟩), sizeToInt_of_lt (by omega), if_neg (by omega), Int.toNat_natCast, rest,
    second]
  simp only
  rw [if_neg (by omega), sizeToInt_of_lt (by omega), if_neg (by omega), Int.toNat_natCast, rest',
    unsignedToInt_ofNat (by omega), unsignedToInt_ofNat (by omega)]

theorem cidCast_eq_failed_iff (other : ¬ multihashForm incoming) :
    cidCast pb mh incoming = .failed ↔
      (pb.varintDecode incoming).2 = 0 ∨ 1 < (pb.varintDecode incoming).1.toNat % 2 ^ 32 ∨
        (0 ≤ sizeToInt (pb.varintDecode incoming).2 ∧
          (pb.varintDecode (incoming.drop (sizeToInt (pb.varintDecode incoming).2).toNat)).2 = 0) := by
  simp only [cidCast, if_neg other]
  by_cases known : (pb.varintDecode incoming).2 = 0 ∨ 1 < (pb.varintDecode incoming).1.toNat % 2 ^ 32
  · rw [if_pos (known.imp_right (unsignedToInt_unknown_iff _).mpr)]
    exact iff_of_true rfl (or_assoc.mp (.inl known))
  · rw [if_neg (mt (.imp_right (unsignedToInt_unknown_iff _).mp) known), ← or_assoc, or_iff_right known]
    by_cases before : sizeToInt (pb.varintDecode incoming).2 < 0
    · rw [if_pos before]
      exact iff_of_false (by simp) fun both => absurd both.1 (by omega)
    · rw [if_neg before, and_iff_right (by omega)]
      by_cases none : (pb.varintDecode (incoming.drop (sizeToInt (pb.varintDecode incoming).2).toNat)).2 = 0
      · rw [if_pos none]
        exact iff_of_true rfl none
      · rw [if_neg none]
        refine iff_of_false ?_ none
        split <;> simp

/-- Everything holds but the rejection of the versions that an `int` does not tell from 0 and 1. -/
theorem cidCast_meets_iff (pb : Protobuf) (mh : Multihash) (incoming : Bytes) :
    CastMeets pb mh incoming ↔ ¬ CastMistaken pb incoming := by
  constructor
  · rintro meets ⟨other, read, above, wrapped, follows⟩
    have failed := meets.rejected other _ _ rfl read above
    rcases (cidCast_eq_failed_iff other).mp failed with none | unknown | ⟨inside, none⟩
    · exact read none
    · omega
    · exact follows inside none
  · intro mistaken
    constructor
    case varints =>
      rintro version codec hash known bound rfl
      exact cidCast_varintForm known bound hash
    case multihash =>
      rintro digest length rfl
      exact cidCast_multihash digest length
    case disjoint =>
      rintro version codec hash known - rfl
      exact not_multihashForm_varintForm known hash
    case rejected =>
      intro other version numBytes decoded read above
      rw [cidCast_eq_failed_iff other]
      by_contra accepted
      rw [not_or, not_or, not_and] at accepted
      refine mistaken ⟨other, by rwa [decoded], by rwa [decoded], by omega, accepted.2.2⟩

/-- Version 2^32, a codec, and nothing behind it. -/
theorem not_cidCast_meets :
    cidCast .standard .standard [0x80, 0x80, 0x80, 0x80, 0x10, 0x70] = .returned ⟨0, 0x70, []⟩ ∧
      ¬ CastMeets .standard .standard [0x80, 0x80, 0x80, 0x80, 0x10, 0x70] := by
  refine ⟨by decide, fun meets => ?_⟩
  have failed := meets.rejected (by decide) 0x100000000 5 (by decide) (by decide) (by decide)
  revert failed
  decide

end

end Ipfs
