import Ipfs.Store.EarliestTime
import Ipfs.Journal.GetRecord
import Ipfs.Journal.TimeMerge

/-!
# What a put reports

One variable takes the code of `mdb_put`, where 0 is success, and the result of the journal functions, where 1
is. The adjustment of a timestamp takes it for true or false.
-/

namespace Ipfs
variable (pb : Protobuf)

/-- `ipfs_journal_adjust_time`, with what its put meets on the way: what it returns, and the database. -/
def lmdbAdjustTime (todo : JournalToDo) (call : PutCall) (db : Lmdb) : Option (Int × Lmdb) :=
  match lmdbGet pb db todo.hash with
  | none => some (0, db)
  | some record =>
      let put (record : DatastoreRecord) : Option (Int × Lmdb) := do
        let (retVal, db) ← lmdbPut pb { call with record } db
        some (if retVal = 0 then 0 else 1, db)
      if todo.remoteTimestamp ≠ 0 then
        if record.timestamp > todo.remoteTimestamp then put { record with timestamp := todo.remoteTimestamp }
        -- we don't need to change the time
        else some (1, db)
      else put record

/-! ## What is wanted -/

def JournalHas (db : Lmdb) (timestamp : UInt64) (key : Bytes) : Prop :=
  ∃ record ∈ db.records pb, record.timestamp = timestamp ∧ record.hash = key

/-- The datastore has the value under the key, and the journal the key under the timestamp of the value. -/
def InBoth (db : Lmdb) (record : DatastoreRecord) : Prop :=
  ∃ stored, lmdbGet pb db record.key = some stored ∧ stored.value = record.value ∧
    JournalHas pb db stored.timestamp record.key

/-- The call comes back, with a positive value exactly if the record is held, and with 0 exactly if nothing
was stored. -/
def PutReports (call : PutCall) (db : Lmdb) : Prop :=
  ∃ retVal db', lmdbPut pb call db = some (retVal, db') ∧ (0 < retVal ↔ InBoth pb db' call.record) ∧
    (retVal = 0 ↔ db' = db)

/-- No other timestamp is known, or the stored one is not later. -/
def NeedsNoAdjustment (todo : JournalToDo) (db : Lmdb) : Prop :=
  ∃ record, lmdbGet pb db todo.hash = some record ∧
    (todo.remoteTimestamp = 0 ∨ record.timestamp ≤ todo.remoteTimestamp)

def Adjusted (todo : JournalToDo) (db : Lmdb) : Prop :=
  ∃ record, lmdbGet pb db todo.hash = some record ∧ record.timestamp = todo.remoteTimestamp

def AdjustReports (todo : JournalToDo) (call : PutCall) (db : Lmdb) : Prop :=
  ∃ retVal db', lmdbAdjustTime pb todo call db = some (retVal, db') ∧
    (retVal = 1 ↔ NeedsNoAdjustment pb todo db ∨ Adjusted pb todo db')

/-! ## When that is so -/

def SearchStops (records : List JournalRecord) (record : JournalRecord) : Prop :=
  records = [] ∨ (∃ stored ∈ sameSecond record records, record.SameKey stored) ∨
    ∃ stored ∈ records, stored.timestamp ≠ record.timestamp

def putSearch (call : PutCall) (db : Lmdb) : JournalRecord :=
  { timestamp := putClamped pb call db, hash := call.record.key }

/-- The call comes to its `mdb_put`, with a timestamp of at most eight bytes. -/
structure ReachesWrite (call : PutCall) (db : Lmdb) : Prop where
  begins : call.begins = true
  short : (putTimestamp pb call db).toNat < 2 ^ 56
  stops : lmdbGet pb db call.record.key ≠ none → SearchStops (db.records pb) (putSearch pb call db)

def putBytes (call : PutCall) (db : Lmdb) : Bytes :=
  Leb128.encode (putTimestamp pb call db).toNat ++ call.record.value

/-- A pair that LMDB takes, and does not have. -/
structure Inserts (call : PutCall) (db : Lmdb) : Prop where
  reaches : ReachesWrite pb call db
  puts : call.puts = true
  keyed : call.record.key ≠ []
  fresh : ¬ db.datastore.Mem call.record.key (putBytes pb call db)

/-- The journal is written for a new key, and for one whose timestamp is not the one that was searched. -/
def WritesJournal (call : PutCall) (db : Lmdb) : Prop :=
  call.journals ∧ (lmdbGet pb db call.record.key = none ∨ putClamped pb call db ≠ putTimestamp pb call db)

instance (call : PutCall) (db : Lmdb) : Decidable (WritesJournal pb call db) := inferInstanceAs (Decidable (_ ∧ _))

def putFlags (call : PutCall) (db : Lmdb) : UInt8 × UInt8 :=
  match lmdbGet pb db call.record.key with
  | none => (1, 1)
  | some _ =>
      let search := putSearch pb call db
      match (sameSecond search (db.records pb)).find? (fun stored => search.SameKey stored) with
      | some stored => (stored.pin, stored.pending)
      | none => (0, 0)

/-- The pair for the journal, as LMDB finds it on the stack. -/
def putPair (call : PutCall) (db : Lmdb) : Bytes × Bytes :=
  let (pin, pending) := putFlags pb call db
  let pair := journalstoreBuildKeyValuePair pb
    { timestamp := putTimestamp pb call db, pin, pending, hash := call.record.key }
  (call.stack pair.1, call.stack pair.2)

/-- What a lookup of the key gives when the pair is in. -/
def putKept (call : PutCall) (db : Lmdb) : DatastoreRecord :=
  lmdbBuildRecord pb call.record.key
    (match db.datastore.get call.record.key with
      | none => putBytes pb call db
      | some stored => min stored (putBytes pb call db))

/-- The record is what a lookup gives then, and the journal has its key, or gets it. -/
def HeldAfter (call : PutCall) (db : Lmdb) : Prop :=
  let kept := putKept pb call db
  let entry := journalstoreBuildRecord pb (toLex (putPair pb call db))
  kept.value = call.record.value ∧
    (JournalHas pb db kept.timestamp call.record.key ∨
      WritesJournal pb call db ∧ entry.timestamp = kept.timestamp ∧ entry.hash = call.record.key)

/-- The call stores nothing and says so. -/
def Refuses (call : PutCall) (db : Lmdb) : Prop :=
  call.begins = false ∨ ReachesWrite pb call db ∧ (call.puts = false ∨ call.record.key = []) ∨
    Inserts pb call db ∧ call.commits = false ∧ lmdbGet pb db call.record.key ≠ none ∧ ¬ WritesJournal pb call db

/-- Nothing is stored of a record that is not held; or the pair is new, the journal is written for it or the
key is new, the transaction commits and the record is held by it. -/
def PutReportsWhen (call : PutCall) (db : Lmdb) : Prop :=
  Refuses pb call db ∧ ¬ InBoth pb db call.record ∨
    Inserts pb call db ∧ call.commits = true ∧
      (lmdbGet pb db call.record.key = none ∨ WritesJournal pb call db) ∧ HeldAfter pb call db

def JournalToDo.adjusting (todo : JournalToDo) (call : PutCall) (record : DatastoreRecord) : PutCall :=
  { call with
    record := if todo.remoteTimestamp = 0 then record else { record with timestamp := todo.remoteTimestamp } }

/-- The timestamp is to be lowered, and the put does not come to store that and returns 0: it fails, or the
datum is not the one that is found then; or the clock is behind, and the journal is not written. -/
def LowersNothing (todo : JournalToDo) (call : PutCall) (db : Lmdb) : Prop :=
  call.begins = false ∨ ReachesWrite pb call db ∧ (call.puts = false ∨ Inserts pb call db ∧
    (todo.remoteTimestamp ≤ call.now → call.commits = false ∨
      ∀ stored, db.datastore.get todo.hash = some stored → stored ≤ putBytes pb call db) ∧
    (call.now < todo.remoteTimestamp → call.journals = false))

/-- The hash is unknown; or nothing needs to be adjusted, and what is put for that all the same is a duplicate or
goes to the journal; or nothing is adjusted. -/
def AdjustReportsWhen (todo : JournalToDo) (call : PutCall) (db : Lmdb) : Prop :=
  ∀ record, lmdbGet pb db todo.hash = some record →
    let put := todo.adjusting call record
    (todo.remoteTimestamp = 0 → ReachesWrite pb put db ∧ put.puts = true ∧
      (db.datastore.Mem todo.hash (putBytes pb put db) ∨ WritesJournal pb put db)) ∧
    (todo.remoteTimestamp ≠ 0 → todo.remoteTimestamp < record.timestamp → LowersNothing pb todo put db)

/-! ## The put -/

section
variable {pb} {call : PutCall} {db : Lmdb}

theorem journalstoreGetRecord_eq (record : JournalRecord) (hash : record.hash ≠ []) :
    journalstoreGetRecord pb db record =
      if db.records pb = [] then some record
      else match (sameSecond record (db.records pb)).find? (fun stored => record.SameKey stored) with
      | some stored => some stored
      | none => if ∀ stored ∈ db.records pb, stored.timestamp = record.timestamp then none else some record := by
  rw [Lmdb.records, journalstoreGetRecord]
  cases table : db.journal.pairs with
  | nil => simp
  | cons first pairs =>
      have found := congrArg (Option.map Prod.snd) (@journalstoreFlip_eq pb record 0 (first :: pairs))
      rw [Option.map_map] at found
      simp only [hash, if_false, ← @journalstoreFlip_eq_search pb record 0]
      rw [if_neg (by simp)]
      refine found.trans ?_
      cases (sameSecond record ((first :: pairs).map (journalstoreBuildRecord pb))).find?
          (fun stored => record.SameKey stored) with
      | some stored => rfl
      | none =>
          dsimp only
          split <;> rfl

theorem putJournalRecord_eq {existing : DatastoreRecord} (found : lmdbGet pb db call.record.key = some existing) :
    (SearchStops (db.records pb) (putSearch pb call db) → putJournalRecord pb call db =
      some (some { putSearch pb call db with pin := (putFlags pb call db).1, pending := (putFlags pb call db).2 })) ∧
    (¬ SearchStops (db.records pb) (putSearch pb call db) → putJournalRecord pb call db = none) := by
  have keyed : call.record.key ≠ [] := fun empty => by simp [lmdbGet, empty] at found
  have search : putJournalRecord pb call db =
      (journalstoreGetRecord pb db (putSearch pb call db)).map some := by
    simp only [putJournalRecord, found, putSearch]
  rw [search, journalstoreGetRecord_eq _ keyed]
  simp only [putFlags, found, SearchStops]
  by_cases empty : db.records pb = []
  · simp [empty, sameSecond, putSearch]
  simp only [empty, if_false, false_or]
  cases front : (sameSecond (putSearch pb call db) (db.records pb)).find?
      (fun stored => (putSearch pb call db).SameKey stored) with
  | some stored =>
      have same : (putSearch pb call db).SameKey stored := by simpa using List.find?_some front
      refine ⟨fun _ => ?_, fun stuck => absurd (.inl ⟨stored, List.mem_of_find?_eq_some front, same⟩) stuck⟩
      exact congrArg (fun record => some (some record)) same.merged.symm
  | none =>
      have notFront : ¬ ∃ stored ∈ sameSecond (putSearch pb call db) (db.records pb),
          (putSearch pb call db).SameKey stored := by simpa using front
      by_cases second : ∀ stored ∈ db.records pb, stored.timestamp = (putSearch pb call db).timestamp
      · have same : ¬ ∃ stored ∈ db.records pb, stored.timestamp ≠ (putSearch pb call db).timestamp := by
          simpa using second
        simp only [notFront, same, or_false, false_imp_iff, not_false_eq_true, true_imp_iff, true_and]
        rw [if_pos second]
        rfl
      · have other : ∃ stored ∈ db.records pb, stored.timestamp ≠ (putSearch pb call db).timestamp := by
          simpa using second
        simp only [notFront, other, second, or_true, if_false, Option.map_some, not_true_eq_false, false_imp_iff,
          and_true, true_imp_iff]
        rfl

theorem putDatum_of_short (short : (putTimestamp pb call db).toNat < 2 ^ 56) :
    putDatum pb call db = some (putBytes pb call db) := by
  have fits := Leb128.encode_length_le 7 (putTimestamp pb call db).toNat (by omega)
  rw [putDatum, lmdbEncodeRecord, pb.varintEncode_eq, Wire.fit_of_le fits]
  rfl

theorem putDatum_of_long (long : 2 ^ 56 ≤ (putTimestamp pb call db).toNat) : putDatum pb call db = none := by
  have tooLong := Leb128.le_encode_length 8 (putTimestamp pb call db).toNat (by omega)
  have unfit : ¬ (Leb128.encode (putTimestamp pb call db).toNat).length ≤ 8 := by omega
  rw [putDatum, lmdbEncodeRecord, pb.varintEncode_eq, Wire.fit, if_neg unfit]
  rfl

def putInserted (pb : Protobuf) (call : PutCall) (db : Lmdb) : Lmdb where
  datastore := db.datastore.insert call.record.key (putBytes pb call db)
  journal := if WritesJournal pb call db then db.journal.put (putPair pb call db).1 (putPair pb call db).2
    else db.journal

theorem lmdbPut_reaches (reaches : ReachesWrite pb call db) :
    lmdbPut pb call db = some (
      if call.puts = false ∨ call.record.key = [] then (0, db)
      else if db.datastore.Mem call.record.key (putBytes pb call db) then (mdbKeyexist, db)
      else (if lmdbGet pb db call.record.key = none ∨ WritesJournal pb call db then 1 else 0,
        if call.commits then putInserted pb call db else db)) := by
  have timed : pb.varintEncode (putTimestamp pb call db) 8 =
      some (Leb128.encode (putTimestamp pb call db).toNat) := by
    have fits := Leb128.encode_length_le 7 (putTimestamp pb call db).toNat (by have := reaches.short; omega)
    rw [pb.varintEncode_eq, Wire.fit_of_le fits]
  have nonempty : Leb128.encode (putTimestamp pb call db).toNat ≠ [] :=
    List.ne_nil_of_length_pos (Leb128.encode_length_pos _)
  cases existing : lmdbGet pb db call.record.key with
  | none =>
      have search : putJournalRecord pb call db = some none := by rw [putJournalRecord, existing]
      simp only [lmdbPut, reaches.begins, search, putDatum_of_short reaches.short]
      simp only [Bool.not_true, Bool.false_eq_true, if_false, Option.bind_eq_bind, Option.bind_some, lmdbWrite]
      split
      · simp
      · split
        · simp
        · cases journals : call.journals <;>
            simp [putInserted, WritesJournal, existing, journals, journalstorePut, journalstoreBuildKeyValuePair,
              timed, nonempty, putPair, putFlags]
  | some record =>
      have search := (putJournalRecord_eq existing).1 (reaches.stops (by simp [existing]))
      simp only [lmdbPut, reaches.begins, search, putDatum_of_short reaches.short]
      simp only [Bool.not_true, Bool.false_eq_true, if_false, Option.bind_eq_bind, Option.bind_some, lmdbWrite]
      split
      · simp
      · split
        · simp
        · by_cases adjusted : putClamped pb call db = putTimestamp pb call db
          · simp [putInserted, WritesJournal, existing, putSearch, adjusted]
          · cases journals : call.journals <;>
              simp [putInserted, WritesJournal, existing, putSearch, adjusted, journals, journalstorePut,
                journalstoreBuildKeyValuePair, timed, nonempty, putPair]

/-- A call that begins and does not come to its write does not come back. -/
theorem lmdbPut_stuck (begins : call.begins = true) (stuck : ¬ ReachesWrite pb call db) :
    lmdbPut pb call db = none := by
  simp only [lmdbPut, begins, Bool.not_true, Bool.false_eq_true, if_false, Option.bind_eq_bind]
  by_cases short : (putTimestamp pb call db).toNat < 2 ^ 56
  · have endless : lmdbGet pb db call.record.key ≠ none ∧ ¬ SearchStops (db.records pb) (putSearch pb call db) := by
      by_contra stops
      exact stuck ⟨begins, short, fun found => by_contra fun runs => stops ⟨found, runs⟩⟩
    obtain ⟨found, endless⟩ := endless
    obtain ⟨existing, found⟩ := Option.ne_none_iff_exists'.mp found
    rw [(putJournalRecord_eq found).2 endless]
    rfl
  · rw [putDatum_of_long (by omega)]
    simp

theorem lmdbPut_unbegun (begins : call.begins = false) : lmdbPut pb call db = some (0, db) := by
  simp [lmdbPut, begins]

/-! ## What the put stores -/

theorem journalHas_put (timestamp : UInt64) (key : Bytes) (pair : Bytes × Bytes) (datastore : DupSort Bytes Bytes) :
    JournalHas pb ⟨datastore, db.journal.put pair.1 pair.2⟩ timestamp key ↔
      JournalHas pb db timestamp key ∨ (journalstoreBuildRecord pb (toLex pair)).timestamp = timestamp ∧
        (journalstoreBuildRecord pb (toLex pair)).hash = key := by
  have mem (other : Bytes ×ₗ Bytes) :
      other ∈ (db.journal.put pair.1 pair.2).pairs ↔ other = toLex pair ∨ other ∈ db.journal.pairs := by
    have put : (db.journal.put pair.1 pair.2).Mem (ofLex other).1 (ofLex other).2 ↔
        ((ofLex other).1 = pair.1 ∧ (ofLex other).2 = pair.2) ∨ db.journal.Mem (ofLex other).1 (ofLex other).2 :=
      DupSort.mem_put
    exact put.trans (or_congr_left Prod.ext_iff.symm)
  simp only [JournalHas, Lmdb.records, List.mem_map, exists_exists_and_eq_and, mem, or_and_right, exists_or,
    exists_eq_left, exists_eq_left', or_comm]

theorem lmdbGet_putInserted (keyed : call.record.key ≠ []) :
    lmdbGet pb (putInserted pb call db) call.record.key = some (putKept pb call db) := by
  rw [lmdbGet, if_neg keyed, putKept, putInserted]
  cases found : db.datastore.get call.record.key with
  | none => rw [DupSort.get_insert_of_none _ found, Option.map_some]
  | some stored => rw [DupSort.get_insert_of_some _ found, Option.map_some]

theorem inBoth_putInserted (keyed : call.record.key ≠ []) :
    InBoth pb (putInserted pb call db) call.record ↔ HeldAfter pb call db := by
  have journal (timestamp : UInt64) : JournalHas pb (putInserted pb call db) timestamp call.record.key ↔
      JournalHas pb db timestamp call.record.key ∨
        WritesJournal pb call db ∧ (journalstoreBuildRecord pb (toLex (putPair pb call db))).timestamp = timestamp ∧
          (journalstoreBuildRecord pb (toLex (putPair pb call db))).hash = call.record.key := by
    by_cases writes : WritesJournal pb call db
    · simp only [putInserted, writes, if_true, true_and]
      exact journalHas_put ..
    · simp [putInserted, writes, JournalHas, Lmdb.records]
  simp [InBoth, lmdbGet_putInserted keyed, HeldAfter, journal]

theorem putInserted_ne : putInserted pb call db ≠ db := by
  intro same
  have pairs := congrArg (fun db => db.datastore.pairs.length) same
  have longer := (db.datastore.insert_pairs_perm call.record.key (putBytes pb call db)).length_eq
  simp only [putInserted] at pairs
  simp [longer] at pairs

end

theorem putReports_iff (call : PutCall) (db : Lmdb) : PutReports pb call db ↔ PutReportsWhen pb call db := by
  have refused (returned : lmdbPut pb call db = some (0, db)) : PutReports pb call db ↔ ¬ InBoth pb db call.record := by
    simp [PutReports, returned]
  cases begins : call.begins with
  | false =>
      have unreached : ¬ ReachesWrite pb call db := fun reaches => absurd reaches.begins (by simp [begins])
      have notInserts : ¬ Inserts pb call db := fun inserts => unreached inserts.reaches
      rw [refused (lmdbPut_unbegun begins)]
      simp [PutReportsWhen, Refuses, begins, notInserts]
  | true =>
      by_cases reaches : ReachesWrite pb call db
      · by_cases written : call.puts = false ∨ call.record.key = []
        · have notInserts : ¬ Inserts pb call db := by
            rintro ⟨-, puts, keyed, -⟩
            simp [puts, keyed] at written
          rw [refused (by rw [lmdbPut_reaches reaches, if_pos written])]
          simp [PutReportsWhen, Refuses, begins, reaches, written, notInserts]
        · by_cases stored : db.datastore.Mem call.record.key (putBytes pb call db)
          · have notInserts : ¬ Inserts pb call db := fun inserts => inserts.fresh stored
            have duplicate : lmdbPut pb call db = some (mdbKeyexist, db) := by
              rw [lmdbPut_reaches reaches, if_neg written, if_pos stored]
            simp [PutReports, PutReportsWhen, Refuses, duplicate, begins, written, notInserts, mdbKeyexist]
          · obtain ⟨puts, keyed⟩ := not_or.mp written
            have inserts : Inserts pb call db := ⟨reaches, by simpa using puts, keyed, stored⟩
            have returned := lmdbPut_reaches reaches
            rw [if_neg written, if_neg stored] at returned
            by_cases positive : lmdbGet pb db call.record.key = none ∨ WritesJournal pb call db
            · rw [if_pos positive] at returned
              have notRefuses : ¬ Refuses pb call db := by
                rintro (unbegun | ⟨-, unwritten⟩ | ⟨-, -, exists', silent⟩)
                · simp [begins] at unbegun
                · exact written unwritten
                · exact positive.elim exists' silent
              cases commits : call.commits <;>
                simp [PutReports, PutReportsWhen, returned, notRefuses, inserts, positive, commits, putInserted_ne,
                  inBoth_putInserted keyed]
            · rw [if_neg positive] at returned
              cases commits : call.commits with
              | false =>
                  have refuses : Refuses pb call db := .inr (.inr ⟨inserts, commits, not_or.mp positive⟩)
                  rw [refused (by simpa [commits] using returned)]
                  simp [PutReportsWhen, refuses, positive]
              | true =>
                  have notRefuses : ¬ Refuses pb call db := by
                    simp [Refuses, begins, written, commits]
                  simp [PutReports, PutReportsWhen, returned, notRefuses, positive, commits, putInserted_ne]
      · have notInserts : ¬ Inserts pb call db := fun inserts => reaches inserts.reaches
        simp [PutReports, PutReportsWhen, Refuses, lmdbPut_stuck begins reaches, begins, reaches, notInserts]

/-! ## The adjustment -/

section
variable {pb} {call : PutCall} {db : Lmdb} {todo : JournalToDo} {record : DatastoreRecord}

theorem lmdbGet_key {key : Bytes} (found : lmdbGet pb db key = some record) : record.key = key ∧ key ≠ [] := by
  rw [lmdbGet] at found
  split at found
  · cases found
  · rename_i keyed
    obtain ⟨stored, -, rfl⟩ := Option.map_eq_some_iff.mp found
    exact ⟨rfl, keyed⟩

theorem JournalToDo.adjusting_key (found : lmdbGet pb db todo.hash = some record) :
    (todo.adjusting call record).record.key = todo.hash := by
  rw [JournalToDo.adjusting]
  split <;> exact (lmdbGet_key found).1

theorem lmdbPut_nonzero_iff (found : lmdbGet pb db call.record.key = some record) :
    (∃ retVal db', lmdbPut pb call db = some (retVal, db') ∧ retVal ≠ 0) ↔
      ReachesWrite pb call db ∧ call.puts = true ∧
        (db.datastore.Mem call.record.key (putBytes pb call db) ∨ WritesJournal pb call db) := by
  have keyed := (lmdbGet_key found).2
  by_cases reaches : ReachesWrite pb call db
  · rw [lmdbPut_reaches reaches]
    simp only [keyed, or_false, found, reaches, true_and]
    cases puts : call.puts with
    | false => simp
    | true =>
        by_cases stored : db.datastore.Mem call.record.key (putBytes pb call db)
        · simp [stored, mdbKeyexist]
        · by_cases writes : WritesJournal pb call db <;> simp [stored, writes]
  · refine iff_of_false ?_ fun written => reaches written.1
    rintro ⟨retVal, db', returned, nonzero⟩
    cases begins : call.begins with
    | false =>
        rw [lmdbPut_unbegun begins, Option.some.injEq, Prod.mk.injEq] at returned
        exact nonzero returned.1.symm
    | true =>
        rw [lmdbPut_stuck begins reaches] at returned
        cases returned

theorem putClamped_adjusting (found : lmdbGet pb db todo.hash = some record) (given : todo.remoteTimestamp ≠ 0)
    (lower : todo.remoteTimestamp < record.timestamp) :
    putClamped pb (todo.adjusting call record) db = todo.remoteTimestamp := by
  have written : (todo.adjusting call record).record.timestamp = todo.remoteTimestamp := by
    simp [JournalToDo.adjusting, given]
  have notLater : ¬ todo.remoteTimestamp > record.timestamp := UInt64.lt_asymm lower
  simp [putClamped, JournalToDo.adjusting_key found, found, clampTimestamp, written, notLater]

theorem putTimestamp_adjusting (found : lmdbGet pb db todo.hash = some record) (given : todo.remoteTimestamp ≠ 0)
    (lower : todo.remoteTimestamp < record.timestamp) :
    putTimestamp pb (todo.adjusting call record) db =
      if todo.remoteTimestamp ≤ call.now then todo.remoteTimestamp else call.now := by
  rw [putTimestamp, putClamped_adjusting found given lower, currentTimestamp]
  by_cases reached : todo.remoteTimestamp ≤ call.now
  · simp [JournalToDo.adjusting, given, reached, UInt64.not_lt.mpr reached]
  · simp [JournalToDo.adjusting, given, reached, UInt64.not_le.mp reached]

theorem not_adjusted (found : lmdbGet pb db todo.hash = some record)
    (lower : todo.remoteTimestamp < record.timestamp) : ¬ Adjusted pb todo db := by
  rintro ⟨stored, found', timestamp⟩
  rw [found, Option.some.injEq] at found'
  subst found'
  exact UInt64.ne_of_lt lower timestamp.symm

theorem adjusted_putInserted (found : lmdbGet pb db todo.hash = some record) (given : todo.remoteTimestamp ≠ 0)
    (lower : todo.remoteTimestamp < record.timestamp) :
    Adjusted pb todo (putInserted pb (todo.adjusting call record) db) ↔ todo.remoteTimestamp ≤ call.now ∧
      ¬ ∀ stored, db.datastore.get todo.hash = some stored → stored ≤ putBytes pb (todo.adjusting call record) db := by
  have key := @JournalToDo.adjusting_key pb call db todo record found
  have keyed := (lmdbGet_key found).2
  have kept : lmdbGet pb (putInserted pb (todo.adjusting call record) db) todo.hash =
      some (putKept pb (todo.adjusting call record) db) := by
    rw [← key] at keyed ⊢
    exact lmdbGet_putInserted keyed
  have isRecord := found
  rw [lmdbGet, if_neg keyed, Option.map_eq_some_iff] at isRecord
  obtain ⟨stored, isStored, rfl⟩ := isRecord
  have timestamp := @putTimestamp_adjusting pb call db todo _ found given lower
  simp only [Adjusted, kept, Option.some.injEq, exists_eq_left', isStored, forall_eq', putKept, key]
  by_cases first : stored ≤ putBytes pb (todo.adjusting call (lmdbBuildRecord pb todo.hash stored)) db
  · rw [min_eq_left first]
    simp only [first, not_true_eq_false, and_false, iff_false]
    exact fun same => UInt64.ne_of_lt lower same.symm
  · have put : (lmdbBuildRecord pb todo.hash
        (putBytes pb (todo.adjusting call (lmdbBuildRecord pb todo.hash stored)) db)).timestamp =
          if todo.remoteTimestamp ≤ call.now then todo.remoteTimestamp else call.now := by
      rw [putBytes, lmdbBuildRecord_encode, timestamp]
    rw [min_eq_right (le_of_not_ge first), put]
    simp only [first, not_false_eq_true, and_true]
    by_cases reached : todo.remoteTimestamp ≤ call.now
    · simp [reached]
    · simpa [reached] using UInt64.ne_of_lt (UInt64.not_le.mp reached)

theorem lowers_iff (found : lmdbGet pb db todo.hash = some record) (given : todo.remoteTimestamp ≠ 0)
    (lower : todo.remoteTimestamp < record.timestamp) :
    (∃ retVal db', lmdbPut pb (todo.adjusting call record) db = some (retVal, db') ∧
        (retVal ≠ 0 ↔ Adjusted pb todo db')) ↔
      LowersNothing pb todo (todo.adjusting call record) db := by
  have key := @JournalToDo.adjusting_key pb call db todo record found
  have keyed := (lmdbGet_key found).2
  have unchanged := not_adjusted found lower
  cases begins : call.begins with
  | false =>
      have unbegun : (todo.adjusting call record).begins = false := begins
      simp [LowersNothing, lmdbPut_unbegun unbegun, unbegun, unchanged]
  | true =>
      have begun : (todo.adjusting call record).begins = true := begins
      by_cases reaches : ReachesWrite pb (todo.adjusting call record) db
      · rw [lmdbPut_reaches reaches]
        simp only [LowersNothing, begun, reaches, key, keyed, or_false]
        cases puts : (todo.adjusting call record).puts with
        | false => simp [unchanged]
        | true =>
            by_cases stored : db.datastore.Mem todo.hash (putBytes pb (todo.adjusting call record) db)
            · have notInserts : ¬ Inserts pb (todo.adjusting call record) db :=
                fun inserts => inserts.fresh (key ▸ stored)
              simp [stored, mdbKeyexist, unchanged, notInserts]
            · have inserts : Inserts pb (todo.adjusting call record) db := ⟨reaches, puts, key ▸ keyed, key ▸ stored⟩
              have now : (todo.adjusting call record).now = call.now := rfl
              have new : lmdbGet pb db (todo.adjusting call record).record.key ≠ none := by simp [key, found]
              have timestamp := @putTimestamp_adjusting pb call db todo record found given lower
              have adjusted := @adjusted_putInserted pb call db todo record found given lower
              simp only [stored, inserts, now, Bool.true_eq_false, if_false, false_or, true_and, found]
              by_cases reached : todo.remoteTimestamp ≤ call.now
              · have silent : ¬ WritesJournal pb (todo.adjusting call record) db := by
                  rintro ⟨-, absent | differs⟩
                  · exact new absent
                  · exact differs (by rw [putClamped_adjusting found given lower, timestamp, if_pos reached])
                cases commits : (todo.adjusting call record).commits <;>
                  simp [silent, reached, unchanged, adjusted, UInt64.not_lt.mpr reached]
              · have behind := UInt64.not_le.mp reached
                have differs : putClamped pb (todo.adjusting call record) db ≠
                    putTimestamp pb (todo.adjusting call record) db := by
                  rw [putClamped_adjusting found given lower, timestamp, if_neg reached]
                  exact (UInt64.ne_of_lt behind).symm
                cases commits : (todo.adjusting call record).commits <;>
                  simp [WritesJournal, differs, reached, behind, unchanged, adjusted]
      · have notInserts : ¬ Inserts pb (todo.adjusting call record) db := fun inserts => reaches inserts.reaches
        simp [LowersNothing, lmdbPut_stuck begun reaches, begun, reaches, notInserts]

theorem lmdbAdjustTime_put (found : lmdbGet pb db todo.hash = some record)
    (puts : todo.remoteTimestamp = 0 ∨ todo.remoteTimestamp < record.timestamp) :
    lmdbAdjustTime pb todo call db =
      (lmdbPut pb (todo.adjusting call record) db).map fun result => (if result.1 = 0 then 0 else 1, result.2) := by
  by_cases given : todo.remoteTimestamp = 0
  · simp only [lmdbAdjustTime, found, given, JournalToDo.adjusting, ne_eq, not_true_eq_false, if_false, if_true]
    cases lmdbPut pb { call with record := record } db <;> rfl
  · have lower := puts.resolve_left given
    simp only [lmdbAdjustTime, found, given, JournalToDo.adjusting, ne_eq, not_false_eq_true, if_true, if_false,
      gt_iff_lt, lower]
    cases lmdbPut pb { call with record := { record with timestamp := todo.remoteTimestamp } } db <;> rfl

end

theorem adjustReports_iff (todo : JournalToDo) (call : PutCall) (db : Lmdb) :
    AdjustReports pb todo call db ↔ AdjustReportsWhen pb todo call db := by
  cases found : lmdbGet pb db todo.hash with
  | none =>
      have unknown : lmdbAdjustTime pb todo call db = some (0, db) := by simp [lmdbAdjustTime, found]
      simp [AdjustReports, AdjustReportsWhen, unknown, found, NeedsNoAdjustment, Adjusted]
  | some record =>
      have needsNone : NeedsNoAdjustment pb todo db ↔
          todo.remoteTimestamp = 0 ∨ record.timestamp ≤ todo.remoteTimestamp := by
        simp [NeedsNoAdjustment, found]
      simp only [AdjustReports, AdjustReportsWhen, needsNone, found, Option.some.injEq, forall_eq']
      by_cases given : todo.remoteTimestamp = 0
      · have key := @JournalToDo.adjusting_key pb call db todo record found
        have nonzero := @lmdbPut_nonzero_iff pb (todo.adjusting call record) db record (key ▸ found)
        rw [key] at nonzero
        rw [lmdbAdjustTime_put found (.inl given)]
        simp only [given, true_or, iff_true, true_imp_iff, ne_eq, not_true_eq_false, false_imp_iff, and_true, ← nonzero]
        cases lmdbPut pb (todo.adjusting call record) db with
        | none => simp
        | some result => cases result; simp
      · by_cases lower : todo.remoteTimestamp < record.timestamp
        · have lowers := @lowers_iff pb call db todo record found given lower
          rw [lmdbAdjustTime_put found (.inr lower)]
          simp only [given, lower, UInt64.not_le.mpr lower, false_or, false_imp_iff, true_and, ne_eq, not_false_eq_true,
            true_imp_iff, ← lowers]
          cases lmdbPut pb (todo.adjusting call record) db with
          | none => simp
          | some result => cases result; simp
        · have unneeded : lmdbAdjustTime pb todo call db = some (1, db) := by
            simp [lmdbAdjustTime, found, given, lower]
          simp [unneeded, given, lower, UInt64.not_lt.mp lower]

/-- For every state of datastore and journal: what the put and the adjustment return is right exactly under
these conditions. -/
theorem lmdbPut_reports_iff (todo : JournalToDo) (call : PutCall) (db : Lmdb) :
    (PutReports pb call db ↔ PutReportsWhen pb call db) ∧
      (AdjustReports pb todo call db ↔ AdjustReportsWhen pb todo call db) :=
  ⟨putReports_iff pb call db, adjustReports_iff pb todo call db⟩

def storedOnce : Lmdb :=
  ((lmdbPut .standard { record := ⟨[1], [9], 100⟩, now := 100 } .empty).map Prod.snd).getD .empty

/-- A put with another value and the timestamp that is stored returns 0, although it stores the value; so does
an adjustment to an earlier time, although it lowers the time. -/
theorem not_lmdbPut_reports_existing :
    ¬ PutReports .standard { record := ⟨[1], [8], 100⟩, now := 100 } storedOnce ∧
      ¬ AdjustReports .standard { hash := [1], remoteTimestamp := 50 } { record := ⟨[], [], 0⟩, now := 100 }
        storedOnce := by
  constructor
  · rintro ⟨retVal, db', returned, -, nothing⟩
    have stores : (lmdbPut .standard { record := ⟨[1], [8], 100⟩, now := 100 } storedOnce).map
        (fun result => (result.1, result.2.datastore.pairs.length)) = some (0, 2) := by decide
    simp only [returned, Option.map_some, Option.some.injEq, Prod.mk.injEq] at stores
    have once : storedOnce.datastore.pairs.length = 1 := by decide
    rw [nothing.mp stores.1, once] at stores
    exact absurd stores.2 (by decide)
  · rintro ⟨retVal, db', returned, one⟩
    have lowers : (lmdbAdjustTime .standard { hash := [1], remoteTimestamp := 50 }
        { record := ⟨[], [], 0⟩, now := 100 } storedOnce).map
          (fun result => (result.1, lmdbGet .standard result.2 [1])) = some (0, some ⟨[1], [9], 50⟩) := by decide
    simp only [returned, Option.map_some, Option.some.injEq, Prod.mk.injEq] at lowers
    have adjusted := one.mpr (.inr ⟨_, lowers.2, rfl⟩)
    rw [lowers.1] at adjusted
    exact absurd adjusted (by decide)

end Ipfs
