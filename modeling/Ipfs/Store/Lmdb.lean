import Ipfs.Lib.DupSort
import Ipfs.Lib.Run
import Ipfs.Protobuf.Primitives

/-!
# The datastore and the journal

Both are tables of one LMDB environment, opened with `MDB_DUPSORT`. The datastore maps a hash to a
timestamp, as varint, and the value behind it; the journal maps a timestamp to two flags and the hash.
-/

namespace Ipfs

/-- `struct DatastoreRecord`. -/
structure DatastoreRecord where
  key : Bytes
  value : Bytes
  timestamp : UInt64 := 0
  deriving DecidableEq

/-- `struct JournalRecord`. -/
structure JournalRecord where
  timestamp : UInt64 := 0
  pin : UInt8 := 0
  pending : UInt8 := 0
  hash : Bytes := []
  deriving DecidableEq

structure Lmdb where
  datastore : DupSort Bytes Bytes
  journal : DupSort Bytes Bytes

def Lmdb.empty : Lmdb := ⟨.empty, .empty⟩

/-- A call of `repo_fsrepo_lmdb_put`: the record, and what the call meets on its way. -/
structure PutCall where
  record : DatastoreRecord
  -- `os_utils_gmtime`
  now : UInt64
  -- `mdb_txn_begin`, the two `mdb_put` and `mdb_txn_commit` succeed
  begins : Bool := true
  puts : Bool := true
  journals : Bool := true
  commits : Bool := true
  -- what LMDB finds in the stack arrays of `build_key_value_pair`, which has returned by then
  stack : Bytes → Bytes := id

variable (pb : Protobuf)

/-! ## Records -/

def lmdbEncodeRecord (record : DatastoreRecord) : Option Bytes :=
  (pb.varintEncode record.timestamp 8).map (· ++ record.value)

def lmdbBuildRecord (key value : Bytes) : DatastoreRecord :=
  let ts := pb.varintDecode value
  { key, value := value.drop ts.2, timestamp := ts.1 }

/-- `repo_fsrepo_lmdb_get`; LMDB refuses an empty key. -/
def lmdbGet (db : Lmdb) (key : Bytes) : Option DatastoreRecord :=
  if key = [] then none else (db.datastore.get key).map (lmdbBuildRecord pb key)

def journalstoreBuildKeyValuePair (record : JournalRecord) : Bytes × Bytes :=
  ((pb.varintEncode record.timestamp 8).getD [], record.pin :: record.pending :: record.hash)

def journalstoreBuildRecord (pair : Bytes ×ₗ Bytes) : JournalRecord :=
  let (key, value) := ofLex pair
  { timestamp := (pb.varintDecode key).1, pin := value.getD 0 0, pending := value.getD 1 0, hash := value.drop 2 }

/-! ## The journal -/

/-- Flip through the records of a timestamp. Behind the last record of the table `MDB_NEXT` fails
unnoticed, and the loop compares that record for ever. -/
def journalstoreSearch (record : JournalRecord) : List (Bytes ×ₗ Bytes) → Option JournalRecord
  | [] => none
  | pair :: pairs =>
      let curr := journalstoreBuildRecord pb pair
      if record.timestamp = curr.timestamp ∧ record.hash = curr.hash then
        some { record with pin := curr.pin, pending := curr.pending }
      else if record.timestamp ≠ curr.timestamp then some record
      else journalstoreSearch record pairs

/-- `lmdb_journalstore_get_record`, which starts at the first record of the table. -/
def journalstoreGetRecord (db : Lmdb) (record : JournalRecord) : Option JournalRecord :=
  match db.journal.pairs with
  | [] => some record
  | first :: pairs =>
      if record.hash = [] then some (journalstoreBuildRecord pb first)
      else journalstoreSearch pb record (first :: pairs)

/-- `lmdb_journalstore_journal_add` and `lmdb_journalstore_cursor_put`: both put the pair without flags
and return 1 on success. -/
def journalstorePut (call : PutCall) (db : Lmdb) (record : JournalRecord) : Int × Lmdb :=
  let pair := journalstoreBuildKeyValuePair pb record
  if call.journals ∧ pair.1 ≠ [] then
    (1, { db with journal := db.journal.put (call.stack pair.1) (call.stack pair.2) })
  else (0, db)

/-! ## The datastore -/

/-- Overwrite the timestamp of the incoming record if what we have is older. -/
def clampTimestamp (existing : Option DatastoreRecord) (timestamp : UInt64) : UInt64 :=
  match existing with
  | some existing =>
      if existing.timestamp ≠ 0 ∧ timestamp > existing.timestamp then existing.timestamp else timestamp
  | none => timestamp

/-- Put in the timestamp if it isn't there already (or is newer). -/
def currentTimestamp (now timestamp : UInt64) : UInt64 :=
  if timestamp = 0 ∨ timestamp > now then now else timestamp

def mdbKeyexist : Int := -30799

/-- What follows `mdb_put` on the datastore: the return value and the tables before the commit. -/
def lmdbWrite (call : PutCall) (db : Lmdb) (journalRecord : Option JournalRecord) (timestamp : UInt64)
    (datum : Bytes) : Int × Lmdb :=
  if call.puts = false ∨ call.record.key = [] then (0, db)
  else if db.datastore.Mem call.record.key datum then (mdbKeyexist, db)
  else
    let db := { db with datastore := db.datastore.insert call.record.key datum }
    match journalRecord with
    | some record =>
        if record.timestamp ≠ timestamp then journalstorePut pb call db { record with timestamp } else (0, db)
    | none =>
        (1, (journalstorePut pb call db { timestamp, pin := 1, pending := 1, hash := call.record.key }).2)

def putClamped (call : PutCall) (db : Lmdb) : UInt64 :=
  clampTimestamp (lmdbGet pb db call.record.key) call.record.timestamp

def putTimestamp (call : PutCall) (db : Lmdb) : UInt64 := currentTimestamp call.now (putClamped pb call db)

def putDatum (call : PutCall) (db : Lmdb) : Option Bytes :=
  lmdbEncodeRecord pb { call.record with timestamp := putTimestamp pb call db }

def putJournalRecord (call : PutCall) (db : Lmdb) : Option (Option JournalRecord) :=
  match lmdbGet pb db call.record.key with
  | some _ =>
      (journalstoreGetRecord pb db { timestamp := putClamped pb call db, hash := call.record.key }).map some
  | none => some none

/-- The return value and the database after the call. There is none when the call does not come back,
or when the timestamp is too long and the call goes on with a record that was never built. -/
def lmdbPut (call : PutCall) (db : Lmdb) : Option (Int × Lmdb) :=
  if !call.begins then some (0, db)
  else do
    let journalRecord ← putJournalRecord pb call db
    let datum ← putDatum pb call db
    let (retVal, written) := lmdbWrite pb call db journalRecord (putTimestamp pb call db) datum
    some (retVal, if call.commits then written else db)

def lmdbMachine : Machine Lmdb PutCall := ⟨fun db call => (lmdbPut pb call db).map (·.2)⟩

/-- The call writes what it was given: LMDB takes the pair, or has it, and the transaction commits. -/
structure PutCall.Succeeds (call : PutCall) : Prop where
  begins : call.begins
  puts : call.puts
  commits : call.commits
  keyed : call.record.key ≠ []

section
variable {pb} {call : PutCall} {db db' : Lmdb}

theorem lmdbMachine_step (stepped : (lmdbMachine pb).step db call = some db') :
    (¬ call.Succeeds ∧ db' = db) ∨
    (call.Succeeds ∧ ∃ datum journalRecord, putDatum pb call db = some datum ∧
      putJournalRecord pb call db = some journalRecord ∧
      db' = (lmdbWrite pb call db journalRecord (putTimestamp pb call db) datum).2) := by
  simp only [lmdbMachine, lmdbPut] at stepped
  cases begins : call.begins with
  | false =>
      left
      simp only [begins, Bool.not_false, if_true, Option.map_some, Option.some.injEq] at stepped
      exact ⟨fun succeeds => absurd succeeds.begins (by simp [begins]), stepped.symm⟩
  | true =>
      simp only [begins, Bool.not_true, Bool.false_eq_true, if_false, Option.bind_eq_bind,
        Option.map_eq_some_iff, Option.bind_eq_some_iff, Option.some.injEq] at stepped
      obtain ⟨_, ⟨journalRecord, found, datum, encoded, rfl⟩, rfl⟩ := stepped
      by_cases writes : call.puts ∧ call.record.key ≠ []
      · cases commits : call.commits with
        | false => exact .inl ⟨fun succeeds => absurd succeeds.commits (by simp [commits]), by simp⟩
        | true => exact .inr ⟨⟨begins, writes.1, commits, writes.2⟩, datum, journalRecord, encoded, found, by simp⟩
      · left
        refine ⟨fun succeeds => writes ⟨succeeds.puts, succeeds.keyed⟩, ?_⟩
        have refused : call.puts = false ∨ call.record.key = [] := by
          cases puts : call.puts <;> simp_all
        simp [lmdbWrite, refused]

theorem lmdbWrite_datastore (succeeds : call.Succeeds) (journalRecord : Option JournalRecord) (timestamp : UInt64)
    (datum : Bytes) :
    (lmdbWrite pb call db journalRecord timestamp datum).2.datastore =
      db.datastore.put call.record.key datum := by
  have journal (db : Lmdb) (record : JournalRecord) :
      (journalstorePut pb call db record).2.datastore = db.datastore := by
    simp only [journalstorePut]
    split <;> rfl
  simp only [lmdbWrite, succeeds.puts, succeeds.keyed, Bool.true_eq_false, false_or, if_false, DupSort.put]
  by_cases stored : db.datastore.Mem call.record.key datum
  · simp [stored]
  · simp only [stored, if_false]
    cases journalRecord with
    | none => exact journal _ _
    | some record =>
        simp only
        split
        · exact journal _ _
        · rfl

end
end Ipfs
