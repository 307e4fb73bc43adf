import Ipfs.Store.Lmdb

/-!
# Which write a lookup sees

A put adds a datum to those of its key and removes none, and a lookup returns the smallest. A varint
starts with the low bits of the timestamp, so the smallest datum is not the oldest or the newest one.
-/

namespace Ipfs

/-- The datum of the call becomes the smallest of its key, or the smallest has the same value. -/
def PutPrevails (pb : Protobuf) (call : PutCall) (db : Lmdb) : Prop :=
  ∀ stored, db.datastore.get call.record.key = some stored →
    (∀ datum, putDatum pb call db = some datum → datum ≤ stored) ∨
      (lmdbBuildRecord pb call.record.key stored).value = call.record.value

variable {pb : Protobuf} {call : PutCall} {db db' : Lmdb}

theorem lmdbEncodeRecord_eq {record : DatastoreRecord} {datum : Bytes}
    (encoded : lmdbEncodeRecord pb record = some datum) :
    datum = Leb128.encode record.timestamp.toNat ++ record.value := by
  rw [lmdbEncodeRecord, pb.varintEncode_eq, Wire.fit] at encoded
  split at encoded
  · simpa using encoded.symm
  · simp at encoded

theorem lmdbBuildRecord_encode (key value : Bytes) (timestamp : UInt64) :
    lmdbBuildRecord pb key (Leb128.encode timestamp.toNat ++ value) = { key, value, timestamp } := by
  simp [lmdbBuildRecord, pb.varintDecode_encode]

theorem step_datastore (stepped : (lmdbMachine pb).step db call = some db') (succeeds : call.Succeeds) :
    ∃ datum, putDatum pb call db = some datum ∧
      db'.datastore = db.datastore.put call.record.key datum := by
  rcases lmdbMachine_step stepped with ⟨fails, _⟩ | ⟨_, datum, journalRecord, encoded, _, rfl⟩
  · exact absurd succeeds fails
  · exact ⟨datum, encoded, lmdbWrite_datastore succeeds _ _ _⟩

theorem step_get_of_ne (stepped : (lmdbMachine pb).step db call = some db') {key : Bytes}
    (other : call.record.key = key → ¬ call.Succeeds) : lmdbGet pb db' key = lmdbGet pb db key := by
  by_cases succeeds : call.Succeeds
  · obtain ⟨datum, _, datastore⟩ := step_datastore stepped succeeds
    rw [lmdbGet, lmdbGet, datastore, DupSort.get_put_of_ne]
    exact fun same => other same.symm succeeds
  · rcases lmdbMachine_step stepped with ⟨_, rfl⟩ | ⟨succeeds', _⟩
    · rfl
    · exact absurd succeeds' succeeds

theorem run_get_of_ne {calls : List PutCall} (ran : (lmdbMachine pb).run db calls = some db') {key : Bytes}
    (quiet : ∀ other ∈ calls, other.record.key = key → ¬ other.Succeeds) :
    lmdbGet pb db' key = lmdbGet pb db key := by
  induction calls generalizing db with
  | nil =>
      simp only [Machine.run, Option.some.injEq] at ran
      rw [ran]
  | cons call calls ih =>
      obtain ⟨next, stepped, rest⟩ := Option.bind_eq_some_iff.mp ran
      rw [ih rest fun other mem => quiet other (by simp [mem]),
        step_get_of_ne stepped (quiet call (by simp))]

/-- A successful put is what a lookup of its key sees, until the key is put again, exactly when it
prevails over what was stored. -/
theorem lmdbPut_lastWriteWins_iff (pb : Protobuf) (db db' : Lmdb) (call : PutCall) (later : List PutCall)
    (ran : (lmdbMachine pb).run db (call :: later) = some db') (succeeds : call.Succeeds)
    (quiet : ∀ other ∈ later, other.record.key = call.record.key → ¬ other.Succeeds) :
    (lmdbGet pb db' call.record.key).map DatastoreRecord.value = some call.record.value ↔
      PutPrevails pb call db := by
  obtain ⟨next, stepped, rest⟩ := Option.bind_eq_some_iff.mp ran
  obtain ⟨datum, encoded, datastore⟩ := step_datastore stepped succeeds
  have written : (lmdbBuildRecord pb call.record.key datum).value = call.record.value := by
    rw [lmdbEncodeRecord_eq encoded, lmdbBuildRecord_encode]
  rw [run_get_of_ne rest quiet, lmdbGet, if_neg succeeds.keyed, datastore, PutPrevails]
  cases found : db.datastore.get call.record.key with
  | none => simp [DupSort.get_put_of_none datum found, written]
  | some stored =>
      rw [DupSort.get_put_of_some datum found]
      simp only [Option.map_some, Option.some.injEq, forall_eq', encoded]
      rcases le_or_gt datum stored with le | gt
      · simp [written, le]
      · simp [min_eq_left gt.le, gt.not_ge]

theorem lmdbPut_lastWriteWins_fresh :
    ∃ db', (lmdbMachine .standard).run .empty
        [{ record := { key := [7], value := [1] }, now := 100 },
          { record := { key := [8], value := [2] }, now := 200 }] = some db' ∧
      (lmdbGet .standard db' [7]).map DatastoreRecord.value = some [1] := by
  have comes : ((lmdbMachine .standard).run .empty
      [{ record := { key := [7], value := [1] }, now := 100 },
        { record := { key := [8], value := [2] }, now := 200 }]).isSome := by decide
  obtain ⟨db', ran⟩ := Option.isSome_iff_exists.mp comes
  refine ⟨db', ran, (lmdbPut_lastWriteWins_iff .standard .empty db' _ _ ran ?_ ?_).mpr ?_⟩
  · exact ⟨rfl, rfl, rfl, by decide⟩
  · simp
  · intro stored found
    simp [Lmdb.empty] at found

theorem lmdbPut_lastWriteWins_stale :
    ¬ ∀ (before later : List PutCall) (call : PutCall) (db db' : Lmdb),
      (lmdbMachine .standard).run .empty before = some db →
      (lmdbMachine .standard).run db (call :: later) = some db' → call.Succeeds →
      (∀ other ∈ later, other.record.key = call.record.key → ¬ other.Succeeds) →
      (lmdbGet .standard db' call.record.key).map DatastoreRecord.value = some call.record.value := by
  intro wins
  let first : PutCall := { record := { key := [7], value := [1] }, now := 100 }
  let second : PutCall := { record := { key := [7], value := [2] }, now := 200 }
  have seen : ((lmdbMachine .standard).run .empty [first]).bind (fun db =>
      ((lmdbMachine .standard).run db [second]).bind fun db' =>
        (lmdbGet .standard db' [7]).map DatastoreRecord.value) = some [1] := by decide
  obtain ⟨db, ran, seen⟩ := Option.bind_eq_some_iff.mp seen
  obtain ⟨db', ran', seen⟩ := Option.bind_eq_some_iff.mp seen
  have latest := wins [first] [] second db db' ran ran' ⟨rfl, rfl, rfl, by decide⟩ (by simp)
  rw [show second.record.key = [7] from rfl, seen] at latest
  exact absurd latest (by decide)

end Ipfs
