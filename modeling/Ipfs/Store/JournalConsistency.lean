import Ipfs.Store.LastWrite

/-!
# The journal beside the datastore

A new key gets one journal record. A put of a key that exists never removes the journal record it
finds; when the timestamp it writes is not the one it searched for, it adds a second record.
-/

namespace Ipfs
variable (pb : Protobuf)

def journalRecords (db : Lmdb) (key : Bytes) : List JournalRecord :=
  (db.journal.pairs.map (journalstoreBuildRecord pb)).filter (·.hash = key)

/-- A key of the datastore has one journal record, with its timestamp; another key has none. -/
def ConsistentAt (db : Lmdb) (key : Bytes) : Prop :=
  match lmdbGet pb db key with
  | none => journalRecords pb db key = []
  | some record => ∃ entry, journalRecords pb db key = [entry] ∧ entry.timestamp = record.timestamp

def JournalConsistent (db : Lmdb) : Prop := ∀ key, ConsistentAt pb db key

/-- A put of a key that exists leaves the journal alone, and the timestamp of the record as it is. -/
def KeepsTimestamp (call : PutCall) (db : Lmdb) (stored : Bytes) : Prop :=
  (∃ datum, putDatum pb call db = some datum ∧ db.datastore.Mem call.record.key datum) ∨
    (putTimestamp pb call db = putClamped pb call db ∧
      (putClamped pb call db = (lmdbBuildRecord pb call.record.key stored).timestamp ∨
        ∀ datum, putDatum pb call db = some datum → stored ≤ datum))

/-- The condition on a put: the clock fits into eight bytes of varint, and nothing is written, or the
key is new and its journal record arrives, or the key exists and its timestamp stays. -/
def KeepsJournal (db : Lmdb) (call : PutCall) : Prop :=
  call.now.toNat < 2 ^ 56 ∧
    (call.Succeeds → match db.datastore.get call.record.key with
      | none => call.journals ∧ ∀ bytes, call.stack bytes = bytes
      | some stored => KeepsTimestamp pb call db stored)

variable {pb} {call : PutCall} {db : Lmdb}

theorem currentTimestamp_le (now timestamp : UInt64) : currentTimestamp now timestamp ≤ now := by
  unfold currentTimestamp
  split
  · exact UInt64.le_refl _
  · rename_i other
    exact UInt64.not_lt.mp fun later => other (.inr later)

theorem putTimestamp_encode (small : call.now.toNat < 2 ^ 56) :
    pb.varintEncode (putTimestamp pb call db) 8 =
      some (Leb128.encode (putTimestamp pb call db).toNat) := by
  have le : (putTimestamp pb call db).toNat ≤ call.now.toNat := currentTimestamp_le _ _
  have short := Leb128.encode_length_le 7 (putTimestamp pb call db).toNat (by omega)
  rw [pb.varintEncode_eq, Wire.fit_of_le short]

theorem putDatum_eq (small : call.now.toNat < 2 ^ 56) :
    putDatum pb call db = some (Leb128.encode (putTimestamp pb call db).toNat ++ call.record.value) := by
  rw [putDatum, lmdbEncodeRecord, putTimestamp_encode small]
  rfl

theorem journalstoreSearch_returns (record : JournalRecord) (pairs : List (Bytes ×ₗ Bytes))
    (present : ∃ pair ∈ pairs, (journalstoreBuildRecord pb pair).hash = record.hash) :
    ∃ found, journalstoreSearch pb record pairs = some found ∧ found.timestamp = record.timestamp := by
  induction pairs with
  | nil => simp at present
  | cons pair pairs ih =>
      simp only [journalstoreSearch]
      split
      · exact ⟨_, rfl, rfl⟩
      · rename_i different
        split
        · exact ⟨record, rfl, rfl⟩
        · rename_i same
          apply ih
          obtain ⟨witness, mem, hash⟩ := present
          rcases List.mem_cons.mp mem with rfl | later
          · exact absurd ⟨not_not.mp same, hash.symm⟩ different
          · exact ⟨witness, later, hash⟩

theorem putJournalRecord_returns (call : PutCall) (consistent : JournalConsistent pb db) :
    ∃ journalRecord, putJournalRecord pb call db = some journalRecord ∧
      match lmdbGet pb db call.record.key with
      | none => journalRecord = none
      | some _ => ∃ record, journalRecord = some record ∧ record.timestamp = putClamped pb call db := by
  have here := consistent call.record.key
  unfold ConsistentAt at here
  unfold putJournalRecord
  cases existing : lmdbGet pb db call.record.key with
  | none => exact ⟨none, rfl, rfl⟩
  | some stored =>
      simp only [existing] at here
      obtain ⟨entry, records, _⟩ := here
      have mem : entry ∈ journalRecords pb db call.record.key := by simp [records]
      obtain ⟨mapped, hash⟩ := List.mem_filter.mp mem
      obtain ⟨pair, pairMem, rfl⟩ := List.mem_map.mp mapped
      have keyed : call.record.key ≠ [] := by
        intro empty
        simp [lmdbGet, empty] at existing
      obtain ⟨found, search, timestamp⟩ := journalstoreSearch_returns
        { timestamp := putClamped pb call db, hash := call.record.key } db.journal.pairs
        ⟨pair, pairMem, by simpa using hash⟩
      refine ⟨some found, ?_, found, rfl, timestamp⟩
      have nonempty : db.journal.pairs ≠ [] := List.ne_nil_of_mem pairMem
      rw [journalstoreGetRecord.eq_def]
      cases split : db.journal.pairs with
      | nil => exact absurd split nonempty
      | cons first rest =>
          rw [split] at search
          simp only [keyed, if_false]
          rw [search]
          rfl

theorem step_returns (consistent : JournalConsistent pb db) (small : call.now.toNat < 2 ^ 56) :
    ∃ db', (lmdbMachine pb).step db call = some db' := by
  obtain ⟨journalRecord, found, _⟩ := putJournalRecord_returns call consistent
  simp only [lmdbMachine, lmdbPut, found, putDatum_eq small, Option.bind_eq_bind, Option.bind_some]
  split <;> exact ⟨_, rfl⟩

/-! ## A new key -/

theorem ConsistentAt.of_perm {db db' : Lmdb} {key : Bytes} (holds : ConsistentAt pb db key)
    (same : lmdbGet pb db' key = lmdbGet pb db key)
    (perm : (journalRecords pb db' key).Perm (journalRecords pb db key)) : ConsistentAt pb db' key := by
  unfold ConsistentAt at holds ⊢
  rw [same]
  cases found : lmdbGet pb db key with
  | none =>
      simp only [found] at holds
      rw [holds] at perm
      exact perm.eq_nil
  | some record =>
      simp only [found] at holds
      obtain ⟨entry, single, timestamp⟩ := holds
      rw [single] at perm
      exact ⟨entry, List.perm_singleton.mp perm, timestamp⟩

variable (pb) in
theorem journalRecords_insert (db : Lmdb) (timestamp value key : Bytes) :
    (journalRecords pb { db with journal := db.journal.insert timestamp value } key).Perm
      ((journalstoreBuildRecord pb (toLex (timestamp, value)) ::
        db.journal.pairs.map (journalstoreBuildRecord pb)).filter (·.hash = key)) :=
  ((db.journal.insert_pairs_perm timestamp value).map _).filter _

variable (pb) in
theorem journalstoreBuildRecord_encode (timestamp : UInt64) (key : Bytes) :
    journalstoreBuildRecord pb (toLex (Leb128.encode timestamp.toNat, 1 :: 1 :: key)) =
      { timestamp, pin := 1, pending := 1, hash := key } := by
  have decoded := pb.varintDecode_encode timestamp []
  rw [List.append_nil] at decoded
  simp [journalstoreBuildRecord, decoded]

theorem newKey_consistent (consistent : JournalConsistent pb db) {key value : Bytes} (keyed : key ≠ [])
    (timestamp : UInt64) (absent : db.datastore.get key = none) :
    JournalConsistent pb
      { datastore := db.datastore.insert key (Leb128.encode timestamp.toNat ++ value)
        journal := db.journal.put (Leb128.encode timestamp.toNat) (1 :: 1 :: key) } := by
  have unjournaled : journalRecords pb db key = [] := by
    have here := consistent key
    simpa [ConsistentAt, lmdbGet, keyed, absent] using here
  have fresh : ¬ db.journal.Mem (Leb128.encode timestamp.toNat) (1 :: 1 :: key) := by
    intro mem
    have journaled : journalstoreBuildRecord pb (toLex (Leb128.encode timestamp.toNat, 1 :: 1 :: key)) ∈
        journalRecords pb db key :=
      List.mem_filter.mpr ⟨List.mem_map_of_mem mem, by simp [journalstoreBuildRecord_encode]⟩
    rw [unjournaled] at journaled
    simp at journaled
  rw [DupSort.put, if_neg fresh]
  intro key'
  have perm := journalRecords_insert pb db (Leb128.encode timestamp.toNat) (1 :: 1 :: key) key'
  rw [journalstoreBuildRecord_encode] at perm
  by_cases same : key' = key
  · subst same
    rw [List.filter_cons_of_pos (by simp)] at perm
    rw [journalRecords] at unjournaled
    rw [unjournaled] at perm
    have found : lmdbGet pb
        { datastore := db.datastore.insert key' (Leb128.encode timestamp.toNat ++ value)
          journal := db.journal.insert (Leb128.encode timestamp.toNat) (1 :: 1 :: key') } key' =
        some { key := key', value, timestamp } := by
      rw [lmdbGet, if_neg keyed, DupSort.get_insert_of_none _ absent, Option.map_some,
        lmdbBuildRecord_encode]
    unfold ConsistentAt
    rw [found]
    exact ⟨_, List.perm_singleton.mp perm, rfl⟩
  · rw [List.filter_cons_of_neg (by simpa using fun eq => same eq.symm)] at perm
    refine (consistent key').of_perm ?_ perm
    rw [lmdbGet, lmdbGet, DupSort.get_insert_of_ne _ _ same]

/-! ## A key that exists -/

theorem datum_consistent (consistent : JournalConsistent pb db) {key stored datum : Bytes}
    (found : db.datastore.get key = some stored)
    (timestamp : (lmdbBuildRecord pb key (min stored datum)).timestamp =
      (lmdbBuildRecord pb key stored).timestamp) :
    JournalConsistent pb { db with datastore := db.datastore.insert key datum } := by
  intro key'
  by_cases same : key' = key
  · subst same
    have here := consistent key'
    unfold ConsistentAt at here ⊢
    by_cases keyed : key' = []
    · simp only [lmdbGet, keyed, if_true] at here ⊢
      exact here
    · simp only [lmdbGet, keyed, if_false, found, Option.map_some] at here
      simp only [lmdbGet, keyed, if_false, DupSort.get_insert_of_some _ found, Option.map_some, timestamp]
      exact here
  · refine (consistent key').of_perm ?_ (List.Perm.refl _)
    rw [lmdbGet, lmdbGet, DupSort.get_insert_of_ne _ _ same]

theorem keepsTimestamp_min {stored : Bytes} (small : call.now.toNat < 2 ^ 56)
    (unchanged : putClamped pb call db = (lmdbBuildRecord pb call.record.key stored).timestamp ∨
      ∀ datum, putDatum pb call db = some datum → stored ≤ datum)
    (same : putTimestamp pb call db = putClamped pb call db) :
    (lmdbBuildRecord pb call.record.key
        (min stored (Leb128.encode (putTimestamp pb call db).toNat ++ call.record.value))).timestamp =
      (lmdbBuildRecord pb call.record.key stored).timestamp := by
  rcases unchanged with clamped | le
  · rcases min_choice stored (Leb128.encode (putTimestamp pb call db).toNat ++ call.record.value) with eq | eq
    · rw [eq]
    · rw [eq, lmdbBuildRecord_encode]
      exact same.trans clamped
  · rw [min_eq_left (le _ (putDatum_eq small))]

theorem keepsJournal_step (consistent : JournalConsistent pb db) (keeps : KeepsJournal pb db call) :
    ∃ db', (lmdbMachine pb).step db call = some db' ∧ JournalConsistent pb db' := by
  obtain ⟨small, keeps⟩ := keeps
  obtain ⟨db', stepped⟩ := step_returns consistent small
  refine ⟨db', stepped, ?_⟩
  rcases lmdbMachine_step stepped with ⟨_, rfl⟩ | ⟨succeeds, datum, journalRecord, encoded, search, rfl⟩
  · exact consistent
  have keeps := keeps succeeds
  obtain ⟨searched, search', record⟩ := putJournalRecord_returns call consistent
  obtain rfl : journalRecord = searched := Option.some.inj (search.symm.trans search')
  rw [putDatum_eq small, Option.some.injEq] at encoded
  subst encoded
  have writes : ¬ (call.puts = false ∨ call.record.key = []) := by
    simp [succeeds.puts, succeeds.keyed]
  rw [lmdbWrite, if_neg writes]
  split
  · exact consistent
  rename_i unstored
  cases found : db.datastore.get call.record.key with
  | none =>
      simp only [found] at keeps
      simp only [lmdbGet, succeeds.keyed, if_false, found, Option.map_none] at record
      subst record
      have written : (journalstoreBuildKeyValuePair pb
          { timestamp := putTimestamp pb call db, pin := 1, pending := 1, hash := call.record.key }) =
          (Leb128.encode (putTimestamp pb call db).toNat, 1 :: 1 :: call.record.key) := by
        rw [journalstoreBuildKeyValuePair, putTimestamp_encode small]
        rfl
      have nonempty := List.ne_nil_of_length_pos
        (Leb128.encode_length_pos (putTimestamp pb call db).toNat)
      simp only [journalstorePut, written, keeps.1, keeps.2, nonempty, true_and, ne_eq, not_false_eq_true, if_true]
      exact newKey_consistent consistent succeeds.keyed _ found
  | some stored =>
      simp only [found] at keeps
      simp only [lmdbGet, succeeds.keyed, if_false, found, Option.map_some] at record
      obtain ⟨record, rfl, timestamp⟩ := record
      rcases keeps with ⟨datum, encoded, mem⟩ | ⟨same, unchanged⟩
      · rw [putDatum_eq small, Option.some.injEq] at encoded
        exact absurd (encoded ▸ mem) unstored
      · simp only [timestamp, same, ne_eq, not_true_eq_false, if_false]
        have min := keepsTimestamp_min small unchanged same
        rw [same] at min
        exact datum_consistent consistent found min

theorem lmdbPut_journalConsistent (pb : Protobuf) (calls : List PutCall)
    (meets : (lmdbMachine pb).RunMeets (KeepsJournal pb) .empty calls) :
    ∃ db, (lmdbMachine pb).run .empty calls = some db ∧ JournalConsistent pb db := by
  have initial : JournalConsistent pb .empty := fun key => by
    by_cases keyed : key = [] <;> simp [ConsistentAt, lmdbGet, keyed, Lmdb.empty, journalRecords]
  exact Machine.run_returns (fun _ _ consistent keeps => keepsJournal_step consistent keeps) initial meets

theorem lmdbPut_journalConsistent_updated :
    ∃ db, (lmdbMachine .standard).run .empty
        [{ record := { key := [7], value := [1] }, now := 100 },
          { record := { key := [7], value := [3], timestamp := 100 }, now := 300 }] = some db ∧
      JournalConsistent .standard db := by
  apply lmdbPut_journalConsistent
  refine ⟨⟨by decide, fun _ => ⟨rfl, fun _ => rfl⟩⟩, fun db stepped => ⟨⟨by decide, fun _ => ?_⟩, by simp [Machine.RunMeets]⟩⟩
  let second : PutCall := { record := { key := [7], value := [3], timestamp := 100 }, now := 300 }
  have state : ((lmdbMachine .standard).step .empty { record := { key := [7], value := [1] }, now := 100 }).map
      (fun db => (db.datastore.get [7], putTimestamp .standard second db, putClamped .standard second db)) =
        some (some [100, 1], 100, 100) := by decide
  rw [stepped, Option.map_some, Option.some.injEq, Prod.mk.injEq, Prod.mk.injEq] at state
  obtain ⟨stored, timestamp, clamped⟩ := state
  simp only [stored]
  refine .inr ⟨timestamp.trans clamped.symm, .inl (clamped.trans ?_)⟩
  decide

theorem lmdbPut_journalConsistent_repeated :
    ¬ ∀ (calls : List PutCall) (db : Lmdb), (∀ call ∈ calls, call.Succeeds ∧ call.journals ∧ call.stack = id) →
      (lmdbMachine .standard).run .empty calls = some db → JournalConsistent .standard db := by
  intro consistent
  let first : PutCall := { record := { key := [7], value := [1] }, now := 100 }
  let second : PutCall := { record := { key := [7], value := [1] }, now := 101 }
  have twice : ((lmdbMachine .standard).run .empty [first, second]).map
      (fun db => ((lmdbGet .standard db [7]).isSome, (journalRecords .standard db [7]).length)) =
        some (true, 2) := by decide
  obtain ⟨db, ran, counted⟩ := Option.map_eq_some_iff.mp twice
  have here := consistent [first, second] db (by
    simp only [List.mem_cons, List.not_mem_nil, or_false, forall_eq_or_imp, forall_eq]
    exact ⟨⟨⟨rfl, rfl, rfl, by decide⟩, rfl, rfl⟩, ⟨rfl, rfl, rfl, by decide⟩, rfl, rfl⟩) ran [7]
  simp only [Prod.mk.injEq] at counted
  obtain ⟨present, two⟩ := counted
  obtain ⟨record, found⟩ := Option.isSome_iff_exists.mp present
  simp only [ConsistentAt, found] at here
  obtain ⟨entry, one, _⟩ := here
  simp [one] at two

end Ipfs
