import Ipfs.Codec.CidText

/-!
# Resolving IPNS names

A name stands for a value, which may be a name again. The datastore is a map from hashes to values here.
-/

namespace Ipfs

variable {lib : Library} {datastore : Bytes → Option Bytes}

def isIpnsString (path : Bytes) : Bool := atStart NamePrefix.ipns.bytes path

/-- `ipfs_namesys_resolver_resolve_once`; the path that is cut is a copy of the caller. -/
def namesysResolverResolveOnce (lib : Library) (datastore : Bytes → Option Bytes) (path : Bytes) : Outcome Bytes := do
  let cid ← (cidDecodeHashFromIpfsIpnsString lib (some path)).1
  -- look locally
  let value ← .ofOption (datastore cid.hash)
  pure (cString value)

def namesysResolverLoop (lib : Library) (datastore : Bytes → Option Bytes) (recursive : Bool) (currentPath : Bytes)
    (counter : Nat) : Outcome Bytes :=
  -- if we go more than 10 deep, bail
  if counter > 10 then .failed
  else match namesysResolverResolveOnce lib datastore currentPath with
    | .failed => .failed
    | .fault cause => .fault cause
    | .returned result =>
        if recursive ∧ isIpnsString result then namesysResolverLoop lib datastore recursive result (counter + 1)
        else .returned result
termination_by 11 - counter

def namesysResolverResolve (lib : Library) (datastore : Bytes → Option Bytes) (path : Bytes) (recursive : Bool) :
    Outcome Bytes :=
  namesysResolverLoop lib datastore recursive path 0

/-! ## Chains of names -/

/-- The path is a prefix and the base58 form of a hash that is there. -/
def Names (lib : Library) (datastore : Bytes → Option Bytes) (path value : Bytes) : Prop :=
  ∃ (start : NamePrefix) (text multihash : Bytes), path = start.bytes ++ text ∧ Base58Text lib text multihash ∧
    datastore (multihash.drop 2) = some value

/-- After so many lookups the chain comes to its first value that is not an IPNS path. -/
inductive ResolvesIn (lib : Library) (datastore : Bytes → Option Bytes) : Nat → Bytes → Bytes → Prop
  | direct {path value : Bytes} (names : Names lib datastore path value)
      (other : ¬ NamePrefix.ipns.bytes <+: value) : ResolvesIn lib datastore 1 path value
  | onward {n : Nat} {path value result : Bytes} (names : Names lib datastore path value)
      (again : NamePrefix.ipns.bytes <+: value) (resolves : ResolvesIn lib datastore n value result) :
      ResolvesIn lib datastore (n + 1) path result

theorem isIpnsString_iff (path : Bytes) : isIpnsString path ↔ NamePrefix.ipns.bytes <+: path :=
  atStart_iff NamePrefix.ipns.bytes_ne_nil

theorem NamePrefix.eq_of_append {start start' : NamePrefix} {rest rest' : Bytes}
    (same : start.bytes ++ rest = start'.bytes ++ rest') : rest = rest' := by
  have length : start.bytes.length = start'.bytes.length := by
    cases start <;> cases start' <;> rfl
  exact (List.append_inj same length).2

/-- A lookup finds what the path names, or fails. -/
theorem resolveOnce_cases (base58 : Base58Encoder lib.crypto)
    (clean : ∀ hash value, datastore hash = some value → 0 ∉ value) {path : Bytes} (cleanPath : 0 ∉ path) :
    (∃ value, namesysResolverResolveOnce lib datastore path = .returned value ∧ Names lib datastore path value ∧
        0 ∉ value) ∨
      (namesysResolverResolveOnce lib datastore path = .failed ∧ ∀ value, ¬ Names lib datastore path value) := by
  rw [namesysResolverResolveOnce]
  by_cases known : ∃ start : NamePrefix, start.bytes <+: path
  · obtain ⟨start, text, rfl⟩ := known
    have cleanText : 0 ∉ text := fun mem => cleanPath (List.mem_append_right _ mem)
    rw [cidDecodeHashFromIpfsIpnsString_append, cString_of_clean cleanText]
    by_cases form : ∃ multihash, Base58Text lib text multihash
    · obtain ⟨multihash, form⟩ := form
      rw [cidDecodeHashFromBase58_form base58 form, Outcome.returned_bind, cidNew]
      cases found : datastore (multihash.drop 2) with
      | none =>
          refine .inr ⟨rfl, ?_⟩
          rintro value ⟨start', text', multihash', same, form', found'⟩
          obtain rfl := NamePrefix.eq_of_append same
          obtain rfl := Option.some.inj (form.decodes.symm.trans form'.decodes)
          rw [found] at found'
          cases found'
      | some value =>
          have cleanValue := clean _ _ found
          refine .inl ⟨value, ?_, ⟨start, text, multihash, rfl, form, found⟩, cleanValue⟩
          rw [Outcome.ofOption_some, Outcome.returned_bind, cString_of_clean cleanValue]
          rfl
    · rw [cidDecodeHashFromBase58_other (not_exists.mp form)]
      refine .inr ⟨rfl, ?_⟩
      rintro value ⟨start', text', multihash, same, form', -⟩
      obtain rfl := NamePrefix.eq_of_append same
      exact form ⟨multihash, form'⟩
  · rw [cidDecodeHashFromIpfsIpnsString_other lib (not_exists.mp known)]
    refine .inr ⟨rfl, ?_⟩
    rintro value ⟨start, text, multihash, rfl, -, -⟩
    exact known ⟨start, List.prefix_append ..⟩

theorem Names.unique {path value value' : Bytes} (names : Names lib datastore path value)
    (names' : Names lib datastore path value') : value = value' := by
  obtain ⟨start, text, multihash, rfl, form, found⟩ := names
  obtain ⟨start', text', multihash', same, form', found'⟩ := names'
  obtain rfl := NamePrefix.eq_of_append same
  obtain rfl := Option.some.inj (form.decodes.symm.trans form'.decodes)
  exact Option.some.inj (found.symm.trans found')

theorem ResolvesIn.pos {n : Nat} {path result : Bytes} (resolves : ResolvesIn lib datastore n path result) : 0 < n := by
  cases resolves with
  | direct | onward => exact Nat.succ_pos _

/-- What is left of the rounds is enough for the chain, or the loop gives up. -/
theorem namesysResolverLoop_recursive (base58 : Base58Encoder lib.crypto)
    (clean : ∀ hash value, datastore hash = some value → 0 ∉ value) (rounds : Nat) {path : Bytes} (cleanPath : 0 ∉ path)
    (counter : Nat) (left : 11 - counter = rounds) :
    (∃ result n, namesysResolverLoop lib datastore true path counter = .returned result ∧
        ResolvesIn lib datastore n path result ∧ n + counter ≤ 11) ∨
      (namesysResolverLoop lib datastore true path counter = .failed ∧
        ∀ result n, ResolvesIn lib datastore n path result → 11 < n + counter) := by
  induction rounds generalizing path counter with
  | zero =>
      rw [namesysResolverLoop, if_pos (by omega)]
      refine .inr ⟨rfl, fun result n resolves => ?_⟩
      have := resolves.pos
      omega
  | succ rounds ih =>
      rw [namesysResolverLoop, if_neg (by omega)]
      rcases resolveOnce_cases base58 clean cleanPath with ⟨value, found, names, cleanValue⟩ | ⟨failed, nothing⟩
      · rw [found]
        simp only [true_and]
        by_cases again : NamePrefix.ipns.bytes <+: value
        · rw [if_pos ((isIpnsString_iff value).mpr again)]
          rcases ih cleanValue (counter + 1) (by omega) with
            ⟨result, n, resolved, resolves, bound⟩ | ⟨failed, long⟩
          · exact .inl ⟨result, n + 1, resolved, .onward names again resolves, by omega⟩
          · refine .inr ⟨failed, fun result n resolves => ?_⟩
            cases resolves with
            | direct names' other => exact absurd again (names.unique names' ▸ other)
            | onward names' _ resolves =>
                have := long result _ (names.unique names' ▸ resolves)
                omega
        · rw [if_neg (mt (isIpnsString_iff value).mp again)]
          exact .inl ⟨value, 1, rfl, .direct names again, by omega⟩
      · rw [failed]
        refine .inr ⟨rfl, fun result n resolves => ?_⟩
        cases resolves with
        | direct names => exact absurd names (nothing _)
        | onward names => exact absurd names (nothing _)

theorem ResolvesIn.unique {n n' : Nat} {path result result' : Bytes} (resolves : ResolvesIn lib datastore n path result)
    (resolves' : ResolvesIn lib datastore n' path result') : result = result' := by
  induction resolves generalizing n' with
  | direct names other =>
      cases resolves' with
      | direct names' => exact names.unique names'
      | onward names' again => exact absurd again (names.unique names' ▸ other)
  | onward names again resolves ih =>
      cases resolves' with
      | direct names' other => exact absurd again (names.unique names' ▸ other)
      | onward names' _ resolves' => exact ih (names.unique names' ▸ resolves')

/-- Resolving ends with the first value on the chain that is not an IPNS path when 11 lookups come to it, and fails
otherwise; without `recursive` it ends with the first value. -/
theorem namesysResolverResolve_spec (base58 : Base58Encoder lib.crypto)
    (clean : ∀ hash value, datastore hash = some value → 0 ∉ value) (text : Bytes) (cleanText : 0 ∉ text) :
    (∀ result n, ResolvesIn lib datastore n (NamePrefix.ipns.bytes ++ text) result → n ≤ 11 →
        namesysResolverResolve lib datastore (NamePrefix.ipns.bytes ++ text) true = .returned result) ∧
      ((∀ result n, ResolvesIn lib datastore n (NamePrefix.ipns.bytes ++ text) result → 11 < n) →
        namesysResolverResolve lib datastore (NamePrefix.ipns.bytes ++ text) true = .failed) ∧
      (∀ value, Names lib datastore (NamePrefix.ipns.bytes ++ text) value →
        namesysResolverResolve lib datastore (NamePrefix.ipns.bytes ++ text) false = .returned value) ∧
      ((∀ value, ¬ Names lib datastore (NamePrefix.ipns.bytes ++ text) value) →
        namesysResolverResolve lib datastore (NamePrefix.ipns.bytes ++ text) false = .failed) := by
  have cleanPath : 0 ∉ NamePrefix.ipns.bytes ++ text := by simp [NamePrefix.bytes, cleanText]
  have loop := namesysResolverLoop_recursive base58 clean 11 cleanPath 0 rfl
  have once := resolveOnce_cases base58 clean cleanPath
  have single (outcome : Outcome Bytes)
      (first : namesysResolverResolveOnce lib datastore (NamePrefix.ipns.bytes ++ text) = outcome) :
      namesysResolverResolve lib datastore (NamePrefix.ipns.bytes ++ text) false = outcome := by
    rw [namesysResolverResolve, namesysResolverLoop, if_neg (by decide), first]
    cases outcome <;> simp
  refine ⟨?_, ?_, ?_, ?_⟩
  · intro result n resolves bound
    rcases loop with ⟨result', n', resolved, resolves', -⟩ | ⟨-, long⟩
    · rw [namesysResolverResolve, resolved, resolves.unique resolves']
    · have := long result n resolves
      omega
  · intro long
    rcases loop with ⟨result', n', -, resolves', bound⟩ | ⟨failed, -⟩
    · have := long result' n' resolves'
      omega
    · exact failed
  · intro value names
    rcases once with ⟨value', found, names', -⟩ | ⟨-, nothing⟩
    · rw [names.unique names']
      exact single _ found
    · exact absurd names (nothing value)
  · intro nothing
    rcases once with ⟨value', -, names', -⟩ | ⟨failed, -⟩
    · exact absurd names' (nothing value')
    · exact single _ failed

def publishedPath : Bytes := NamePrefix.ipfs.bytes ++ fileDigest.base58

def singleValue (hash : Bytes) : Option Bytes := if hash = fileDigest.sha256 then some publishedPath else none

theorem namesysResolverResolve_published :
    namesysResolverResolve .base58 singleValue (NamePrefix.ipns.bytes ++ fileDigest.base58) true =
        .returned publishedPath ∧
      namesysResolverResolve .base58 singleValue (NamePrefix.ipns.bytes ++ fileDigest.base58) false =
        .returned publishedPath := by
  have clean : ∀ hash value, singleValue hash = some value → 0 ∉ value := by
    intro hash value found
    rw [singleValue] at found
    split at found
    · obtain rfl := Option.some.inj found
      decide
    · cases found
  have names : Names .base58 singleValue (NamePrefix.ipns.bytes ++ fileDigest.base58) publishedPath :=
    ⟨.ipns, _, 0x12 :: 0x20 :: fileDigest.sha256, rfl, ⟨rfl, rfl, base58Decode_fileDigest⟩, rfl⟩
  have spec := namesysResolverResolve_spec Base58Encoder.standard clean fileDigest.base58 (by decide)
  exact ⟨spec.1 _ 1 (.direct names (by decide)) (by decide), spec.2.2.1 _ names⟩

end Ipfs
