import Ipfs.Journal.GetLast

/-!
# The search for an exact record

A record of the journal is looked up by timestamp and hash. The key of the timestamp is built, but the cursor
is sent to the first record of the table, and from there through the records that follow.
-/

namespace Ipfs
variable (pb : Protobuf)

/-- `lmdb_journalstore_get_record` with a record given and an open cursor: what it returns, and the record
afterwards. `none` if it does not come back. -/
def lmdbJournalstoreGetRecord (db : Lmdb) (position : Option Nat) (record : JournalRecord) :
    Option (Bool × JournalRecord) := do
  let (found, _, walk) ← journalstoreCursorGet pb db.journal.pairs .first (some 0) ⟨position, [record]⟩
  let record ← walk.memory[0]?
  some (found, record)

/-! ## What is wanted -/

def JournalRecord.SameKey (record stored : JournalRecord) : Prop :=
  stored.timestamp = record.timestamp ∧ stored.hash = record.hash

instance (record stored : JournalRecord) : Decidable (record.SameKey stored) :=
  inferInstanceAs (Decidable (_ ∧ _))

/-- The search comes back, with 1 exactly if the record is stored, and then with the flags of one that is. -/
def SearchesExactly (db : Lmdb) (position : Option Nat) (record : JournalRecord) : Prop :=
  ∃ found after, lmdbJournalstoreGetRecord pb db position record = some (found, after) ∧
    (found = true ↔ ∃ stored ∈ db.records pb, record.SameKey stored) ∧
    (found = true → record.SameKey after ∧ after ∈ db.records pb)

def sameSecond (record : JournalRecord) (records : List JournalRecord) : List JournalRecord :=
  records.takeWhile fun stored => stored.timestamp = record.timestamp

/-- The record is one of those at the front of the table; or it is not stored, and a record of another second,
or no record at all, stops the search. -/
def FoundFromFirst (records : List JournalRecord) (record : JournalRecord) : Prop :=
  (∃ stored ∈ sameSecond record records, record.SameKey stored) ∨
    (∀ stored ∈ records, ¬ record.SameKey stored) ∧
      (records = [] ∨ ∃ stored ∈ records, stored.timestamp ≠ record.timestamp)

/-! ## The search -/

section
variable {pb} {record : JournalRecord}

theorem JournalRecord.SameKey.merged {stored : JournalRecord} (same : record.SameKey stored) :
    { record with pin := stored.pin, pending := stored.pending } = stored := by
  obtain ⟨timestamp, hash⟩ := same
  rw [← timestamp, ← hash]

theorem sameSecond_subset {records : List JournalRecord} {stored : JournalRecord}
    (mem : stored ∈ sameSecond record records) : stored ∈ records :=
  (List.takeWhile_sublist _).subset mem

/-- Through the records of the second, to the first that is the one; at the next second the search gives up,
and without one it goes on. -/
theorem journalstoreFlip_eq (i : Nat) (pairs : List (Bytes ×ₗ Bytes)) :
    (journalstoreFlip pb record i pairs).map (fun result => (result.1, result.2.2)) =
      match (sameSecond record (pairs.map (journalstoreBuildRecord pb))).find?
          (fun stored => record.SameKey stored) with
      | some stored => some (true, stored)
      | none =>
          if ∀ stored ∈ pairs.map (journalstoreBuildRecord pb), stored.timestamp = record.timestamp then none
          else some (false, record) := by
  induction pairs generalizing i with
  | nil => simp [journalstoreFlip, sameSecond]
  | cons pair pairs ih =>
      rw [journalstoreFlip]
      simp only [journalstoreCompositeKeyCompare_eq_zero, List.map_cons, sameSecond]
      by_cases second : (journalstoreBuildRecord pb pair).timestamp = record.timestamp
      · rw [List.takeWhile_cons_of_pos (by simpa using second)]
        by_cases hash : record.hash = (journalstoreBuildRecord pb pair).hash
        · have same : record.SameKey (journalstoreBuildRecord pb pair) := ⟨second, hash.symm⟩
          rw [if_pos ⟨second.symm, hash⟩, List.find?_cons_of_pos (by simpa using same)]
          exact congrArg (fun stored => some (true, stored)) same.merged
        · have other : ¬ record.SameKey (journalstoreBuildRecord pb pair) := fun same => hash same.2.symm
          rw [if_neg fun both => hash both.2, if_neg (not_not_intro second.symm),
            List.find?_cons_of_neg (by simpa using other), ih (i + 1)]
          simp only [sameSecond, List.forall_mem_cons, second, true_and]
      · have apart : ¬ record.timestamp = (journalstoreBuildRecord pb pair).timestamp := fun eq => second eq.symm
        rw [if_neg fun both => apart both.1, if_pos apart, List.takeWhile_cons_of_neg (by simpa using second)]
        simp only [List.find?_nil, List.forall_mem_cons, second, false_and, if_false, Option.map_some]

theorem lmdbJournalstoreGetRecord_eq (db : Lmdb) (position : Option Nat) (hash : record.hash ≠ []) :
    lmdbJournalstoreGetRecord pb db position record =
      if db.records pb = [] then some (false, record)
      else match (sameSecond record (db.records pb)).find? (fun stored => record.SameKey stored) with
      | some stored => some (true, stored)
      | none =>
          if ∀ stored ∈ db.records pb, stored.timestamp = record.timestamp then none else some (false, record) := by
  rw [Lmdb.records]
  cases table : db.journal.pairs with
  | nil => simp [lmdbJournalstoreGetRecord, journalstoreCursorGet, mdbCursorGet, table]
  | cons first pairs =>
      have flip := @journalstoreFlip_eq pb record 0 (first :: pairs)
      rw [if_neg (by simp), ← flip]
      cases flipped : journalstoreFlip pb record 0 (first :: pairs) <;>
        simp [lmdbJournalstoreGetRecord, journalstoreCursorGet, mdbCursorGet, table, hash, flipped]

end

/-- The search is right for the records at the front of the table, and for one that is not stored when there is
something to stop at. -/
theorem lmdbJournalstoreGetRecord_exact_iff (db : Lmdb) (position : Option Nat) (record : JournalRecord)
    (hash : record.hash ≠ []) :
    SearchesExactly pb db position record ↔ FoundFromFirst (db.records pb) record := by
  rw [SearchesExactly, FoundFromFirst, lmdbJournalstoreGetRecord_eq db position hash]
  by_cases empty : db.records pb = []
  · simp [empty]
  rw [if_neg empty]
  cases front : (sameSecond record (db.records pb)).find? (fun stored => record.SameKey stored) with
  | some stored =>
      have mem := List.mem_of_find?_eq_some front
      have same : record.SameKey stored := by simpa using List.find?_some front
      refine iff_of_true ⟨true, stored, rfl, ?_, fun _ => ⟨same, sameSecond_subset mem⟩⟩ (.inl ⟨stored, mem, same⟩)
      exact iff_of_true rfl ⟨stored, sameSecond_subset mem, same⟩
  | none =>
      have notFront : ¬ ∃ stored ∈ sameSecond record (db.records pb), record.SameKey stored := by
        simpa using front
      simp only [notFront, empty, false_or]
      by_cases second : ∀ stored ∈ db.records pb, stored.timestamp = record.timestamp
      · -- the whole table is of this second, and the end of it is not noticed
        rw [if_pos second]
        refine iff_of_false (by simp) fun stops => ?_
        obtain ⟨-, stored, mem, other⟩ := stops
        exact other (second stored mem)
      · rw [if_neg second]
        have stops : ∃ stored ∈ db.records pb, stored.timestamp ≠ record.timestamp := by simpa using second
        simp [stops]

/-- The record of the later second is not found, and the search for a hash that the only second does not have
does not end. -/
theorem not_lmdbJournalstoreGetRecord_exact :
    ¬ SearchesExactly .standard (journaled .standard [{ timestamp := 100, hash := [1] },
          { timestamp := 101, hash := [2] }]) none { timestamp := 101, hash := [2] } ∧
      ¬ SearchesExactly .standard (journaled .standard [{ timestamp := 100, hash := [1] }]) none
          { timestamp := 100, hash := [2] } := by
  constructor
  · rintro ⟨found, after, got, exact, -⟩
    have missed : lmdbJournalstoreGetRecord .standard (journaled .standard [{ timestamp := 100, hash := [1] },
        { timestamp := 101, hash := [2] }]) none { timestamp := 101, hash := [2] } =
          some (false, { timestamp := 101, hash := [2] }) := by decide
    rw [missed, Option.some.injEq, Prod.mk.injEq] at got
    rw [← got.1] at exact
    revert exact
    decide
  · rintro ⟨found, after, got, -⟩
    have endless : lmdbJournalstoreGetRecord .standard (journaled .standard [{ timestamp := 100, hash := [1] }]) none
        { timestamp := 100, hash := [2] } = none := by decide
    rw [endless] at got
    cases got

theorem lmdbJournalstoreGetRecord_exact_first :
    SearchesExactly .standard (journaled .standard [{ timestamp := 100, pin := 1, hash := [1] },
      { timestamp := 101, hash := [2] }]) none { timestamp := 100, hash := [1] } := by
  refine (lmdbJournalstoreGetRecord_exact_iff .standard _ none _ (by decide)).mpr (.inl ?_)
  exact ⟨{ timestamp := 100, pin := 1, hash := [1] }, by decide, by decide⟩

end Ipfs
