import Ipfs.Store.LastWrite

/-!
# Whether the stored timestamp is the earliest one

The old data of a key stay, and a lookup takes the one that sorts first. Timestamps sort by their
varints, low bits first.
-/

namespace Ipfs

instance (call : PutCall) : Decidable call.Succeeds :=
  decidable_of_iff (call.begins ∧ call.puts ∧ call.commits ∧ call.record.key ≠ [])
    ⟨fun ⟨begins, puts, commits, keyed⟩ => ⟨begins, puts, commits, keyed⟩,
      fun ⟨begins, puts, commits, keyed⟩ => ⟨begins, puts, commits, keyed⟩⟩

/-- The timestamp of the record if it has one that is not in the future, and the clock otherwise. -/
def PutCall.effectiveTimestamp (call : PutCall) : UInt64 :=
  if call.record.timestamp ≠ 0 ∧ call.record.timestamp ≤ call.now then call.record.timestamp else call.now

def earliestTimestamp (key : Bytes) (calls : List PutCall) : Option UInt64 :=
  ((calls.filter fun call => call.record.key = key ∧ call.Succeeds).map PutCall.effectiveTimestamp).min?

/-- The varint of the first timestamp sorts before that of the second. -/
def VarintBefore (first second : UInt64) : Prop := Leb128.encode first.toNat < Leb128.encode second.toNat

instance (first second : UInt64) : Decidable (VarintBefore first second) :=
  inferInstanceAs (Decidable (_ < _))

/-- An earlier timestamp sorts before the stored one, and a later clock does not when there is no other
timestamp. -/
def PutInOrder (pb : Protobuf) (db : Lmdb) (call : PutCall) : Prop :=
  ∀ existing, lmdbGet pb db call.record.key = some existing →
    (call.effectiveTimestamp < existing.timestamp → VarintBefore call.effectiveTimestamp existing.timestamp) ∧
      (call.record.timestamp = 0 → existing.timestamp < call.now → ¬ VarintBefore call.now existing.timestamp)

def Lmdb.Encoded (db : Lmdb) : Prop :=
  ∀ key datum, db.datastore.Mem key datum →
    ∃ (timestamp : UInt64) (value : Bytes), datum = Leb128.encode timestamp.toNat ++ value

section
variable {pb : Protobuf} {call : PutCall} {db db' : Lmdb}

theorem putTimestamp_eq_effective (absent : lmdbGet pb db call.record.key = none) :
    putTimestamp pb call db = call.effectiveTimestamp := by
  simp only [putTimestamp, putClamped, absent, clampTimestamp, currentTimestamp, PutCall.effectiveTimestamp]
  by_cases zero : call.record.timestamp = 0
  · simp [zero]
  · by_cases later : call.record.timestamp > call.now
    · simp [zero, later, UInt64.not_le.mpr later]
    · simp [zero, later, UInt64.not_lt.mp later]

theorem putTimestamp_eq {existing : DatastoreRecord} (found : lmdbGet pb db call.record.key = some existing) :
    putTimestamp pb call db =
      if call.record.timestamp ≠ 0 ∧ existing.timestamp ≠ 0 ∧ existing.timestamp < call.effectiveTimestamp then
        existing.timestamp
      else call.effectiveTimestamp := by
  simp only [putTimestamp, putClamped, found, clampTimestamp, currentTimestamp, PutCall.effectiveTimestamp]
  grind [UInt64.lt_iff_toNat_lt, UInt64.le_iff_toNat_le, UInt64.toNat_inj]

theorem Lmdb.Encoded.step (encoded : db.Encoded) (stepped : (lmdbMachine pb).step db call = some db') :
    db'.Encoded := by
  by_cases succeeds : call.Succeeds
  · obtain ⟨datum, isDatum, datastore⟩ := step_datastore stepped succeeds
    intro key datum' mem
    rw [datastore, DupSort.mem_put] at mem
    rcases mem with ⟨_, rfl⟩ | old
    · exact ⟨_, _, lmdbEncodeRecord_eq isDatum⟩
    · exact encoded key datum' old
  · rcases lmdbMachine_step stepped with ⟨_, rfl⟩ | ⟨succeeds', _⟩
    · exact encoded
    · exact absurd succeeds' succeeds

theorem lmdbBuildRecord_min (key value value' : Bytes) (stored written : UInt64) :
    (lmdbBuildRecord pb key (min (Leb128.encode stored.toNat ++ value)
      (Leb128.encode written.toNat ++ value'))).timestamp = if VarintBefore written stored then written else stored := by
  by_cases same : written = stored
  · subst same
    rcases min_choice (Leb128.encode written.toNat ++ value) (Leb128.encode written.toNat ++ value') with eq | eq <;>
      simp [eq, lmdbBuildRecord_encode]
  · have order := Leb128.encode_append_lt_iff (fun eq => same (UInt64.toNat_inj.mp eq)) value' value
    by_cases before : VarintBefore written stored
    · rw [min_eq_right (order.mpr before).le, lmdbBuildRecord_encode, if_pos before]
    · rw [min_eq_left (not_lt.mp (mt order.mp before)), lmdbBuildRecord_encode, if_neg before]

theorem step_timestamp (stepped : (lmdbMachine pb).step db call = some db') (encoded : db.Encoded)
    (succeeds : call.Succeeds) {existing : DatastoreRecord}
    (found : lmdbGet pb db call.record.key = some existing) :
    (lmdbGet pb db' call.record.key).map DatastoreRecord.timestamp =
      some (if VarintBefore (putTimestamp pb call db) existing.timestamp then putTimestamp pb call db
        else existing.timestamp) := by
  obtain ⟨datum, isDatum, datastore⟩ := step_datastore stepped succeeds
  obtain rfl := lmdbEncodeRecord_eq isDatum
  rw [lmdbGet, if_neg succeeds.keyed, Option.map_eq_some_iff] at found
  obtain ⟨stored, isStored, rfl⟩ := found
  obtain ⟨timestamp, value, rfl⟩ := encoded _ _ (DupSort.get_smallest isStored).1
  rw [lmdbGet, if_neg succeeds.keyed, datastore, DupSort.get_put_of_some _ isStored, Option.map_some, Option.map_some,
    lmdbBuildRecord_min, lmdbBuildRecord_encode]

theorem step_earliest_iff (stepped : (lmdbMachine pb).step db call = some db') (encoded : db.Encoded)
    (succeeds : call.Succeeds) {existing : DatastoreRecord}
    (found : lmdbGet pb db call.record.key = some existing) :
    (lmdbGet pb db' call.record.key).map DatastoreRecord.timestamp =
        some (min existing.timestamp call.effectiveTimestamp) ↔ PutInOrder pb db call := by
  have unsigned (clock : call.record.timestamp = 0) : call.effectiveTimestamp = call.now := by
    simp [PutCall.effectiveTimestamp, clock]
  have zero (timestamp : UInt64) : ¬ VarintBefore timestamp 0 := Leb128.not_encode_lt_zero _
  rw [step_timestamp stepped encoded succeeds found, putTimestamp_eq found, PutInOrder, Std.min_eq_if]
  simp only [found, Option.some.injEq, forall_eq']
  rcases lt_trichotomy existing.timestamp.toNat call.effectiveTimestamp.toNat with later | same | earlier
  · have later : existing.timestamp < call.effectiveTimestamp := UInt64.lt_iff_toNat_lt.mpr later
    have le := UInt64.le_of_lt later
    have ne := (UInt64.ne_of_lt later).symm
    have notEarlier := UInt64.lt_asymm later
    by_cases clock : call.record.timestamp = 0
    · by_cases before : VarintBefore call.now existing.timestamp
      · simp [clock, le, ← unsigned clock, later, ne, show VarintBefore call.effectiveTimestamp _ from unsigned clock ▸ before]
      · simp [clock, le, ← unsigned clock, notEarlier, show ¬ VarintBefore call.effectiveTimestamp _ from unsigned clock ▸ before]
    · by_cases first : existing.timestamp = 0
      · simp [clock, first, zero]
      · simp [clock, notEarlier, le, later, first]
  · obtain same : existing.timestamp = call.effectiveTimestamp := UInt64.toNat_inj.mp same
    simp only [same, UInt64.lt_irrefl, and_false, ite_self, UInt64.le_refl, false_imp_iff, true_and, true_iff]
    intro clock later
    exact absurd later (by rw [unsigned clock]; exact UInt64.lt_irrefl _)
  · have earlier : call.effectiveTimestamp < existing.timestamp := UInt64.lt_iff_toNat_lt.mpr earlier
    have notLater := UInt64.lt_asymm earlier
    have ne := (UInt64.ne_of_lt earlier).symm
    have clock : call.record.timestamp = 0 → ¬ existing.timestamp < call.now := fun clock => unsigned clock ▸ notLater
    simp only [notLater, and_false, if_false, UInt64.not_le.mpr earlier, earlier, true_imp_iff]
    by_cases before : VarintBefore call.effectiveTimestamp existing.timestamp
    · simpa [before] using fun isClock later => absurd later (clock isClock)
    · simp [before, ne]

theorem earliestTimestamp_cons (key : Bytes) (call : PutCall) (calls : List PutCall) :
    earliestTimestamp key (call :: calls) =
      (earliestTimestamp key [call]).merge min (earliestTimestamp key calls) := by
  simp only [earliestTimestamp, List.filter_cons, List.filter_nil]
  split
  · rw [List.map_cons, List.min?_cons]
    cases ((calls.filter fun call => call.record.key = key ∧ call.Succeeds).map PutCall.effectiveTimestamp).min? <;> rfl
  · simp

theorem earliestTimestamp_append (key : Bytes) (before later : List PutCall) :
    earliestTimestamp key (before ++ later) =
      (earliestTimestamp key before).merge min (earliestTimestamp key later) := by
  induction before with
  | nil => simp [earliestTimestamp]
  | cons call before ih =>
      rw [List.cons_append, earliestTimestamp_cons, ih, earliestTimestamp_cons key call before]
      exact (Std.Associative.assoc _ _ _).symm

theorem step_earliest (stepped : (lmdbMachine pb).step db call = some db') (encoded : db.Encoded)
    (inOrder : PutInOrder pb db call) (key : Bytes) :
    (lmdbGet pb db' key).map DatastoreRecord.timestamp =
      ((lmdbGet pb db key).map DatastoreRecord.timestamp).merge min (earliestTimestamp key [call]) := by
  by_cases put : call.record.key = key ∧ call.Succeeds
  · obtain ⟨rfl, succeeds⟩ := put
    have written : earliestTimestamp call.record.key [call] = some call.effectiveTimestamp := by
      simp [earliestTimestamp, succeeds]
    rw [written]
    cases found : lmdbGet pb db call.record.key with
    | some existing => exact (step_earliest_iff stepped encoded succeeds found).mpr inOrder
    | none =>
        obtain ⟨datum, isDatum, datastore⟩ := step_datastore stepped succeeds
        have absent : db.datastore.get call.record.key = none := by
          simpa [lmdbGet, succeeds.keyed] using found
        rw [lmdbGet, if_neg succeeds.keyed, datastore, DupSort.get_put_of_none datum absent,
          lmdbEncodeRecord_eq isDatum, Option.map_some, lmdbBuildRecord_encode, Option.map_some,
          putTimestamp_eq_effective found]
        rfl
  · have nothing : earliestTimestamp key [call] = none := by
      simp [earliestTimestamp, put]
    rw [nothing, Option.merge_none_right, step_get_of_ne stepped fun same succeeds => put ⟨same, succeeds⟩]

theorem run_earliest {calls : List PutCall} (ran : (lmdbMachine pb).run db calls = some db') (encoded : db.Encoded)
    (inOrder : (lmdbMachine pb).RunMeets (PutInOrder pb) db calls) (key : Bytes) :
    (lmdbGet pb db' key).map DatastoreRecord.timestamp =
      ((lmdbGet pb db key).map DatastoreRecord.timestamp).merge min (earliestTimestamp key calls) := by
  induction calls generalizing db with
  | nil =>
      obtain rfl := Option.some.inj ran
      simp [earliestTimestamp]
  | cons call calls ih =>
      obtain ⟨next, stepped, rest⟩ := Option.bind_eq_some_iff.mp ran
      rw [ih rest (encoded.step stepped) (inOrder.2 next stepped), step_earliest stepped encoded inOrder.1 key,
        earliestTimestamp_cons key call calls]
      exact Std.Associative.assoc _ _ _

end

/-- In a run of puts that are in order, a lookup returns the earliest effective timestamp, and later puts
do not move it forward. -/
theorem lmdbPut_earliestTimestamp (pb : Protobuf) (before later : List PutCall) (db db' : Lmdb)
    (inOrder : (lmdbMachine pb).RunMeets (PutInOrder pb) .empty (before ++ later))
    (ran : (lmdbMachine pb).run .empty before = some db) (ran' : (lmdbMachine pb).run db later = some db')
    (key : Bytes) :
    (lmdbGet pb db' key).map DatastoreRecord.timestamp = earliestTimestamp key (before ++ later) ∧
      ∀ record, lmdbGet pb db key = some record →
        ∃ record', lmdbGet pb db' key = some record' ∧ record'.timestamp ≤ record.timestamp := by
  have start : Lmdb.empty.Encoded := fun key datum mem => by
    simp [Lmdb.empty, DupSort.Mem] at mem
  have encoded : db.Encoded := Machine.run_invariant Lmdb.Encoded (fun _ _ _ encoded _ stepped => encoded.step stepped)
    start (Machine.runMeets_append.mp inOrder).1 ran
  have first := run_earliest ran start (Machine.runMeets_append.mp inOrder).1 key
  have second := run_earliest ran' encoded ((Machine.runMeets_append.mp inOrder).2 db ran) key
  constructor
  · rw [second, first, earliestTimestamp_append]
    simp [lmdbGet, Lmdb.empty]
  · intro record found
    rw [found, Option.map_some] at second
    cases later' : earliestTimestamp key later with
    | none =>
        rw [later', Option.merge_none_right, Option.map_eq_some_iff] at second
        obtain ⟨record', found', same⟩ := second
        exact ⟨record', found', same ▸ UInt64.le_refl _⟩
    | some timestamp =>
        rw [later', Option.merge_some_some, Option.map_eq_some_iff] at second
        obtain ⟨record', found', same⟩ := second
        exact ⟨record', found', same ▸ Std.min_le_left⟩

theorem lmdbPut_earliestTimestamp_replicated :
    ∃ db db', (lmdbMachine .standard).run .empty [{ record := { key := [7], value := [1] }, now := 100 }] = some db ∧
      (lmdbMachine .standard).run db [{ record := { key := [7], value := [1], timestamp := 50 }, now := 200 }] =
        some db' ∧
      (lmdbGet .standard db' [7]).map DatastoreRecord.timestamp = some 50 := by
  let first : PutCall := { record := { key := [7], value := [1] }, now := 100 }
  let second : PutCall := { record := { key := [7], value := [1], timestamp := 50 }, now := 200 }
  have comes : (((lmdbMachine .standard).run .empty [first]).bind fun db =>
      (lmdbMachine .standard).run db [second]).isSome := by decide
  obtain ⟨db', ran⟩ := Option.isSome_iff_exists.mp comes
  obtain ⟨db, ran, ran'⟩ := Option.bind_eq_some_iff.mp ran
  have stored : (((lmdbMachine .standard).run .empty [first]).bind fun db =>
      (lmdbGet .standard db [7]).map DatastoreRecord.timestamp) = some 100 := by decide
  have inOrder : (lmdbMachine .standard).RunMeets (PutInOrder .standard) .empty ([first] ++ [second]) := by
    refine Machine.runMeets_append.mpr ⟨⟨fun existing found => ?_, fun _ _ => trivial⟩, fun next step => ⟨?_, fun _ _ => trivial⟩⟩
    · simp [lmdbGet, Lmdb.empty] at found
    · intro existing found
      rw [step, Option.bind_some, show ([7] : Bytes) = second.record.key from rfl, found, Option.map_some,
        Option.some.injEq] at stored
      exact ⟨fun _ => stored ▸ by decide, fun unsigned => absurd unsigned (by decide)⟩
  refine ⟨db, db', ran, ran', ?_⟩
  rw [(lmdbPut_earliestTimestamp .standard [first] [second] db db' inOrder ran ran' [7]).1]
  decide

theorem not_lmdbPut_earliestTimestamp_refreshed :
    ¬ ∀ (calls : List PutCall) (db : Lmdb) (key : Bytes), (lmdbMachine .standard).run .empty calls = some db →
      (lmdbGet .standard db key).map DatastoreRecord.timestamp = earliestTimestamp key calls := by
  intro claim
  let first : PutCall := { record := { key := [7], value := [1] }, now := 1699999999 }
  let second : PutCall := { record := { key := [7], value := [1] }, now := 1700000000 }
  have seen : (((lmdbMachine .standard).run .empty [first, second]).bind fun db =>
      (lmdbGet .standard db [7]).map DatastoreRecord.timestamp) = some 1700000000 := by decide
  obtain ⟨db, ran, seen⟩ := Option.bind_eq_some_iff.mp seen
  have earliest := claim [first, second] db [7] ran
  rw [seen] at earliest
  exact absurd earliest (by decide)

end Ipfs
