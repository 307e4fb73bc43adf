import Ipfs.Store.Lmdb

/-!
# The last records of the journal

The journal is walked backwards with a cursor. One record is allocated for the walk, and the cursor reads
what it holds before it moves on, so it is both where records are put and what is looked for.
-/

namespace Ipfs
variable (pb : Protobuf)

/-- `enum DatastoreCursorOp`. -/
inductive CursorOp
  | first
  | next
  | last
  | previous
  deriving DecidableEq

/-- The place of the cursor in the table, and the records that were allocated, by address. -/
structure JournalWalk where
  position : Option Nat := none
  memory : List JournalRecord := []
  deriving DecidableEq

/-- `mdb_cursor_get`: the new place with the pair there, or `MDB_NOTFOUND`. -/
def mdbCursorGet (pairs : List (Bytes ×ₗ Bytes)) (position : Option Nat) (op : CursorOp) :
    Option (Nat × (Bytes ×ₗ Bytes)) :=
  let place : Option Nat := match op, position with
    | .first, _ | .next, none => some 0
    | .last, _ | .previous, none => some (pairs.length - 1)
    | .next, some i => some (i + 1)
    | .previous, some 0 => none
    | .previous, some (i + 1) => some i
  place.bind fun i => pairs[i]?.map fun pair => (i, pair)

/-- `lmdb_journalstore_composite_key_compare`. -/
def journalstoreCompositeKeyCompare : Option JournalRecord → Option JournalRecord → Int
  | none, none => 0
  | none, some _ => 1
  | some _, none => -1
  | some a, some b =>
      if a.timestamp ≠ b.timestamp then if a.timestamp > b.timestamp then -1 else 1
      else if a.hash.length ≠ b.hash.length then if a.hash.length > b.hash.length then -1 else 1
      else match (a.hash.zip b.hash).find? fun bytes => bytes.1 ≠ bytes.2 with
        | some (byteA, byteB) => byteB.toNat - byteA.toNat
        | none => 0

/-- Flip through the records for the exact one, from a place on. Behind the last pair of the table the
loop does not end. -/
def journalstoreFlip (record : JournalRecord) : Nat → List (Bytes ×ₗ Bytes) → Option (Bool × Nat × JournalRecord)
  | _, [] => none
  | i, pair :: pairs =>
      let curr := journalstoreBuildRecord pb pair
      if journalstoreCompositeKeyCompare (some record) (some curr) = 0 then
        -- we found the exact record, merge it
        some (true, i, { record with pin := curr.pin, pending := curr.pending })
      else if record.timestamp ≠ curr.timestamp then some (false, i, record)
      else journalstoreFlip record (i + 1) pairs

/-- `lmdb_journalstore_cursor_get`, with the address of the record: what it returns, the address, and the
walk. `none` if it does not come back. -/
def journalstoreCursorGet (pairs : List (Bytes ×ₗ Bytes)) (op : CursorOp) (record : Option Nat) (walk : JournalWalk) :
    Option (Bool × Option Nat × JournalWalk) :=
  match mdbCursorGet pairs walk.position op with
  | none => some (false, record, walk)
  | some (i, pair) =>
      match record with
      | none =>
          -- make a new record and pass it back
          some (true, some walk.memory.length, ⟨some i, walk.memory ++ [journalstoreBuildRecord pb pair]⟩)
      | some address => do
          let content ← walk.memory[address]?
          if content.hash = [] then
            some (true, record, ⟨some i, walk.memory.set address (journalstoreBuildRecord pb pair)⟩)
          else
            let (found, i, content) ← journalstoreFlip pb content i (pairs.drop i)
            some (found, record, ⟨some i, walk.memory.set address content⟩)

/-- The loop of `ipfs_journal_get_last`, with the rounds that are left after this one. -/
def journalWalkBack (pairs : List (Bytes ×ₗ Bytes)) :
    Nat → Nat → JournalWalk → List Nat → Option (List Nat × List JournalRecord)
  | 0, record, walk, vector => do
      let (_, _, walk) ← journalstoreCursorGet pb pairs .previous (some record) walk
      some (vector ++ [record], walk.memory)
  | rounds + 1, record, walk, vector => do
      let (found, _, walk) ← journalstoreCursorGet pb pairs .previous (some record) walk
      if found then journalWalkBack pairs rounds record walk (vector ++ [record])
      else some (vector ++ [record], walk.memory)

/-- `ipfs_journal_get_last`: the records that the addresses in the vector lead to at the end, or no vector.
Outside, `none` if it does not come back. -/
def journalGetLast (db : Lmdb) (n : Int) : Option (Option (List JournalRecord)) := do
  let (found, record, walk) ← journalstoreCursorGet pb db.journal.pairs .last none {}
  match found, record with
  | true, some record => do
      let (vector, memory) ← journalWalkBack pb db.journal.pairs (n - 1).toNat record walk []
      some (some (vector.filterMap fun address => memory[address]?))
  | _, _ => some none

/-! ## What is wanted -/

/-- The records of the journal, in the order of the table. -/
def Lmdb.records (db : Lmdb) : List JournalRecord := db.journal.pairs.map (journalstoreBuildRecord pb)

/-- As many records as there are, up to `n`, each once and the newest first, and none that is left out is newer. -/
def NewestRecords (records : List JournalRecord) (n : Nat) (result : List JournalRecord) : Prop :=
  result.length = min n records.length ∧ result.Nodup ∧ (∀ record ∈ result, record ∈ records) ∧
    result.Pairwise (fun a b => b.timestamp ≤ a.timestamp) ∧
    ∀ other ∈ records, other ∉ result → ∀ record ∈ result, other.timestamp ≤ record.timestamp

/-- The last record of the table, or the one before it if the last has no hash, is as new as any. -/
def LastIsNewest (records : List JournalRecord) : Prop :=
  ∀ front before last, records = front ++ [before, last] →
    ∀ other ∈ records, other.timestamp ≤ (if last.hash = [] then before else last).timestamp

/-! ## The cursor -/

section
variable {pb} {pairs : List (Bytes ×ₗ Bytes)}

theorem find?_zip_eq_none {a b : Bytes} (length : a.length = b.length) :
    ((a.zip b).find? fun bytes => bytes.1 ≠ bytes.2) = none ↔ a = b := by
  induction a generalizing b with
  | nil => simp [List.eq_nil_of_length_eq_zero length.symm]
  | cons byte a ih =>
      cases b with
      | nil => simp at length
      | cons byte' b =>
          have rest := ih (b := b) (by simpa using length)
          by_cases same : byte = byte'
          · simpa [same] using rest
          · simp [same]

theorem journalstoreCompositeKeyCompare_eq_zero {a b : JournalRecord} :
    journalstoreCompositeKeyCompare (some a) (some b) = 0 ↔ a.timestamp = b.timestamp ∧ a.hash = b.hash := by
  by_cases timestamp : a.timestamp = b.timestamp
  · by_cases length : a.hash.length = b.hash.length
    · rw [← find?_zip_eq_none length]
      simp only [journalstoreCompositeKeyCompare, timestamp, length, ne_eq, not_true_eq_false, if_false, true_and]
      cases found : (a.hash.zip b.hash).find? fun bytes => bytes.1 ≠ bytes.2 with
      | none => simp
      | some bytes =>
          have differ : bytes.1 ≠ bytes.2 := by simpa using List.find?_some found
          have apart : bytes.1.toNat ≠ bytes.2.toNat := fun same => differ (UInt8.toNat_inj.mp same)
          simp
          omega
    · have hash : a.hash ≠ b.hash := fun same => length (congrArg List.length same)
      have sizes : journalstoreCompositeKeyCompare (some a) (some b) = if a.hash.length > b.hash.length then -1 else 1 := by
        simp [journalstoreCompositeKeyCompare, timestamp, length]
      rw [sizes]
      split <;> simp [hash]
  · have times : journalstoreCompositeKeyCompare (some a) (some b) = if a.timestamp > b.timestamp then -1 else 1 := by
      simp [journalstoreCompositeKeyCompare, timestamp]
    rw [times]
    split <;> simp [timestamp]

/-- The search that a put makes from the first record on is this one. -/
theorem journalstoreFlip_eq_search (record : JournalRecord) (i : Nat) (pairs : List (Bytes ×ₗ Bytes)) :
    (journalstoreFlip pb record i pairs).map (fun result => result.2.2) = journalstoreSearch pb record pairs := by
  induction pairs generalizing i with
  | nil => rfl
  | cons pair pairs ih =>
      rw [journalstoreFlip, journalstoreSearch]
      simp only [journalstoreCompositeKeyCompare_eq_zero]
      split
      · rfl
      · split
        · rfl
        · exact ih (i + 1)

theorem journalstoreCursorGet_first (db : Lmdb) (record : JournalRecord) :
    (journalstoreCursorGet pb db.journal.pairs .first (some 0) ⟨none, [record]⟩).map (fun result => result.2.2.memory) =
      (journalstoreGetRecord pb db record).map fun record => [record] := by
  cases table : db.journal.pairs with
  | nil => simp [journalstoreCursorGet, mdbCursorGet, journalstoreGetRecord, table]
  | cons first pairs =>
      by_cases hash : record.hash = []
      · simp [journalstoreCursorGet, mdbCursorGet, journalstoreGetRecord, table, hash]
      · have search := @journalstoreFlip_eq_search pb record 0 (first :: pairs)
        simp only [journalstoreGetRecord, table, hash, if_false, ← search]
        cases flipped : journalstoreFlip pb record 0 (first :: pairs) <;>
          simp [journalstoreCursorGet, mdbCursorGet, hash, flipped]

/-- The walk has its one record, whatever was found. -/
theorem journalstoreCursorGet_memory {op : CursorOp} {walk : JournalWalk} {record : JournalRecord}
    (memory : walk.memory = [record]) {result : Bool × Option Nat × JournalWalk}
    (got : journalstoreCursorGet pb pairs op (some 0) walk = some result) :
    ∃ record, result.2.2.memory = [record] := by
  rw [journalstoreCursorGet] at got
  cases found : mdbCursorGet pairs walk.position op with
  | none =>
      simp only [found, Option.some.injEq] at got
      exact ⟨record, got ▸ memory⟩
  | some place =>
      simp only [found, memory, List.getElem?_cons_zero, Option.bind_eq_bind, Option.bind_some, List.set_cons_zero] at got
      split at got
      · exact ⟨_, congrArg (fun result => result.2.2.memory) (Option.some.inj got).symm⟩
      · obtain ⟨flipped, -, eq⟩ := Option.bind_eq_some_iff.mp got
        exact ⟨_, congrArg (fun result => result.2.2.memory) (Option.some.inj eq).symm⟩

/-- The vector gets the address of the one record each time. -/
theorem journalWalkBack_vector {rounds : Nat} {walk : JournalWalk} {record : JournalRecord}
    (memory : walk.memory = [record]) {vector : List Nat} {result : List Nat × List JournalRecord}
    (walked : journalWalkBack pb pairs rounds 0 walk vector = some result) :
    ∃ times record, result = (vector ++ List.replicate (times + 1) 0, [record]) := by
  induction rounds generalizing walk record vector with
  | zero =>
      rw [journalWalkBack] at walked
      obtain ⟨got, previous, walked⟩ := Option.bind_eq_some_iff.mp walked
      obtain ⟨after, memory'⟩ := journalstoreCursorGet_memory memory previous
      refine ⟨0, after, ?_⟩
      simpa [memory'] using walked.symm
  | succ rounds ih =>
      rw [journalWalkBack] at walked
      obtain ⟨⟨found, address, walk'⟩, previous, walked⟩ := Option.bind_eq_some_iff.mp walked
      obtain ⟨after, memory'⟩ := journalstoreCursorGet_memory memory previous
      cases found with
      | false =>
          dsimp only at memory'
          exact ⟨0, after, by simpa [memory'] using walked.symm⟩
      | true =>
          obtain ⟨times, last, eq⟩ := ih memory' walked
          refine ⟨times + 1, last, ?_⟩
          rw [eq, List.append_assoc]
          rfl

/-! ## The end of the table -/

/-- The cursor behind the last two pairs reads the first of them over a record without hash; otherwise the
record that it was told to look for stays, but for flags of one with its timestamp. -/
theorem journalstoreCursorGet_lastTwo (front : List (Bytes ×ₗ Bytes)) (first second : Bytes ×ₗ Bytes) :
    let last := journalstoreBuildRecord pb second
    let before := journalstoreBuildRecord pb first
    ∃ found position content,
      journalstoreCursorGet pb (front ++ [first, second]) .previous (some 0) ⟨some (front.length + 1), [last]⟩ =
        some (found, some 0, ⟨position, [content]⟩) ∧
      (content = before ∨ content = last) ∧
      content.timestamp = (if last.hash = [] then before else last).timestamp := by
  intro last before
  have place : mdbCursorGet (front ++ [first, second]) (some (front.length + 1)) .previous =
      some (front.length, first) := by
    simp [mdbCursorGet]
  simp only [journalstoreCursorGet, place, List.getElem?_cons_zero, Option.bind_eq_bind, Option.bind_some,
    List.set_cons_zero, List.drop_left]
  by_cases hash : last.hash = []
  · simp only [hash, if_true]
    exact ⟨true, _, before, rfl, .inl rfl, rfl⟩
  · simp only [hash, if_false, journalstoreFlip, journalstoreCompositeKeyCompare_eq_zero]
    by_cases times : last.timestamp = before.timestamp
    · by_cases same : last.hash = before.hash
      · rw [if_pos ⟨times, same⟩]
        have merged : { last with pin := before.pin, pending := before.pending } = before := by
          rw [times, same]
        refine ⟨true, some front.length, before, ?_, .inl rfl, times.symm⟩
        exact congrArg (fun content => some (true, some 0, (⟨some front.length, [content]⟩ : JournalWalk))) merged
      · rw [if_neg fun both => same both.2, if_neg (not_not_intro times), if_pos ⟨rfl, rfl⟩]
        exact ⟨true, _, last, rfl, .inr rfl, rfl⟩
    · rw [if_neg fun both => times both.1, if_pos times]
      exact ⟨false, _, last, rfl, .inr rfl, rfl⟩

theorem journalstoreCursorGet_last (front : List (Bytes ×ₗ Bytes)) (pair : Bytes ×ₗ Bytes) :
    journalstoreCursorGet pb (front ++ [pair]) .last none {} =
      some (true, some 0, ⟨some front.length, [journalstoreBuildRecord pb pair]⟩) := by
  simp [journalstoreCursorGet, mdbCursorGet]

theorem journalGetLast_concat {db : Lmdb} {front : List (Bytes ×ₗ Bytes)} {pair : Bytes ×ₗ Bytes}
    (table : db.journal.pairs = front ++ [pair]) (n : Int) :
    journalGetLast pb db n =
      (journalWalkBack pb db.journal.pairs (n - 1).toNat 0 ⟨some front.length, [journalstoreBuildRecord pb pair]⟩ []).bind
        fun result => some (some (result.1.filterMap fun address => result.2[address]?)) := by
  rw [journalGetLast, table, journalstoreCursorGet_last]
  rfl

theorem journalGetLast_nil {db : Lmdb} (table : db.journal.pairs = []) (n : Int) :
    journalGetLast pb db n = some none := by
  rw [journalGetLast, table]
  rfl

theorem journalGetLast_singleton {db : Lmdb} {pair : Bytes ×ₗ Bytes} (table : db.journal.pairs = [pair]) (n : Int) :
    journalGetLast pb db n = some (some [journalstoreBuildRecord pb pair]) := by
  have ends : db.journal.pairs = [] ++ [pair] := table
  rw [journalGetLast_concat ends, table]
  cases (n - 1).toNat <;> rfl

theorem journalGetLast_same {db : Lmdb} {front : List (Bytes ×ₗ Bytes)} {pair : Bytes ×ₗ Bytes}
    (table : db.journal.pairs = front ++ [pair]) (n : Int) {result : Option (List JournalRecord)}
    (got : journalGetLast pb db n = some result) :
    ∃ times record, result = some (List.replicate (times + 1) record) := by
  rw [journalGetLast_concat table] at got
  obtain ⟨walk, walked, eq⟩ := Option.bind_eq_some_iff.mp got
  obtain ⟨times, record, rfl⟩ := journalWalkBack_vector rfl walked
  refine ⟨times, record, ?_⟩
  rw [← Option.some.inj eq, List.nil_append, List.filterMap_replicate]
  rfl

theorem journalGetLast_one {db : Lmdb} {front : List (Bytes ×ₗ Bytes)} {first second : Bytes ×ₗ Bytes}
    (table : db.journal.pairs = front ++ [first, second]) :
    let last := journalstoreBuildRecord pb second
    let before := journalstoreBuildRecord pb first
    ∃ content, journalGetLast pb db 1 = some (some [content]) ∧ (content = before ∨ content = last) ∧
      content.timestamp = (if last.hash = [] then before else last).timestamp := by
  intro last before
  obtain ⟨found, position, content, previous, rest⟩ := @journalstoreCursorGet_lastTwo pb front first second
  refine ⟨content, ?_, rest⟩
  have ends : db.journal.pairs = (front ++ [first]) ++ [second] := by rw [table, List.append_assoc]; rfl
  rw [journalGetLast_concat ends, table, sub_self, Int.toNat_zero, journalWalkBack, List.length_append,
    List.length_singleton, previous]
  rfl

/-! ## The newest records -/

theorem NewestRecords.single {records : List JournalRecord} {record : JournalRecord} (mem : record ∈ records)
    (newest : ∀ other ∈ records, other.timestamp ≤ record.timestamp) : NewestRecords records 1 [record] := by
  have nonempty : 0 < records.length := List.length_pos_of_mem mem
  refine ⟨?_, by simp, by simpa using mem, by simp, ?_⟩
  · rw [List.length_singleton]
    omega
  · intro other memOther _ kept here
    rw [List.mem_singleton.mp here]
    exact newest other memOther

theorem NewestRecords.of_replicate {records : List JournalRecord} {n times : Nat} {record : JournalRecord}
    (newest : NewestRecords records n (List.replicate (times + 1) record)) : times = 0 := by
  have once := newest.2.1
  rw [List.nodup_replicate] at once
  omega

theorem lastIsNewest_append (front : List JournalRecord) (before last : JournalRecord) :
    LastIsNewest (front ++ [before, last]) ↔ ∀ other ∈ front ++ [before, last],
      other.timestamp ≤ (if last.hash = [] then before else last).timestamp := by
  constructor
  · exact fun newest => newest front before last rfl
  · intro newest front' before' last' eq
    obtain ⟨-, ends⟩ := List.append_inj' eq rfl
    simp only [List.cons.injEq, and_true] at ends
    obtain ⟨rfl, rfl⟩ := ends
    exact newest

/-- With two records or more the walk is right for one of them at most. -/
theorem journalGetLast_two {db : Lmdb} {front : List (Bytes ×ₗ Bytes)} {first second : Bytes ×ₗ Bytes}
    (table : db.journal.pairs = front ++ [first, second]) (n : Int) (positive : 1 ≤ n) :
    (∃ result, journalGetLast pb db n = some result ∧ NewestRecords (db.records pb) n.toNat (result.getD [])) ↔
      n = 1 ∧ LastIsNewest (db.records pb) := by
  have records : db.records pb = front.map (journalstoreBuildRecord pb) ++
      [journalstoreBuildRecord pb first, journalstoreBuildRecord pb second] := by
    rw [Lmdb.records, table, List.map_append]
    rfl
  have two : 2 ≤ (db.records pb).length := by simp [records]
  by_cases single : n = 1
  · subst single
    obtain ⟨content, got, which, timestamp⟩ := @journalGetLast_one pb db front first second table
    have mem : content ∈ db.records pb := by
      rcases which with rfl | rfl <;> simp [records]
    simp only [got, Option.some.injEq, exists_eq_left', Option.getD_some, Int.toNat_one, true_and]
    rw [records, lastIsNewest_append, ← records, ← timestamp]
    constructor
    · intro newest other memOther
      by_cases same : other = content
      · exact same ▸ UInt64.le_refl _
      · exact newest.2.2.2.2 other memOther (by simpa using same) content (by simp)
    · exact fun newest => NewestRecords.single mem newest
  · constructor
    · rintro ⟨result, got, newest⟩
      have ends : db.journal.pairs = (front ++ [first]) ++ [second] := by rw [table, List.append_assoc]; rfl
      obtain ⟨times, record, rfl⟩ := journalGetLast_same ends n got
      obtain rfl := newest.of_replicate
      have length := newest.1
      simp only [Option.getD_some, List.length_replicate] at length
      omega
    · exact fun ⟨one, _⟩ => absurd one single

end

/-- The walk is right when there is nothing to walk to, or when one record is asked for and the order of the
table puts the newest at its end. -/
theorem journalGetLast_newest_iff (db : Lmdb) (n : Int) (positive : 1 ≤ n) :
    (∃ result, journalGetLast pb db n = some result ∧ NewestRecords (db.records pb) n.toNat (result.getD [])) ↔
      (db.records pb).length ≤ 1 ∨ n = 1 ∧ LastIsNewest (db.records pb) := by
  rcases List.eq_nil_or_concat db.journal.pairs with table | ⟨pairs, second, table⟩
  · have records : db.records pb = [] := by rw [Lmdb.records, table, List.map_nil]
    simp [journalGetLast_nil table, records, NewestRecords]
  · rcases List.eq_nil_or_concat pairs with rfl | ⟨front, first, rfl⟩
    · have records : db.records pb = [journalstoreBuildRecord pb second] := by rw [Lmdb.records, table]; rfl
      have once : min n.toNat 1 = 1 := by omega
      simp [journalGetLast_singleton table, records, NewestRecords, once]
    · rw [List.concat_eq_append, List.concat_eq_append, List.append_assoc] at table
      have two : ¬ (db.records pb).length ≤ 1 := by simp [Lmdb.records, table]
      rw [journalGetLast_two table n positive]
      simp only [two, false_or]

/-- The journal after records were added, those whose timestamp has no key left out. -/
def journaled (records : List JournalRecord) : Lmdb :=
  records.foldl (fun db record => (journalstorePut pb { record := ⟨[], [], 0⟩, now := 0 } db record).2) .empty

/-- Two seconds with a record each: the walk ends at the change of the second. Two records of one second: it
does not leave the last one. -/
theorem not_journalGetLast_newest_two :
    ¬ (∃ result, journalGetLast .standard (journaled .standard [{ timestamp := 100, hash := [1] },
          { timestamp := 101, hash := [2] }]) 2 = some result ∧
        NewestRecords ((journaled .standard [{ timestamp := 100, hash := [1] },
          { timestamp := 101, hash := [2] }]).records .standard) 2 (result.getD [])) ∧
      ¬ (∃ result, journalGetLast .standard (journaled .standard [{ timestamp := 100, hash := [1] },
          { timestamp := 100, hash := [2] }]) 2 = some result ∧
        NewestRecords ((journaled .standard [{ timestamp := 100, hash := [1] },
          { timestamp := 100, hash := [2] }]).records .standard) 2 (result.getD [])) := by
  constructor
  · rintro ⟨result, got, newest⟩
    have short : journalGetLast .standard (journaled .standard [{ timestamp := 100, hash := [1] },
        { timestamp := 101, hash := [2] }]) 2 = some (some [{ timestamp := 101, hash := [2] }]) := by decide
    rw [short, Option.some.injEq] at got
    have length := got ▸ newest.1
    revert length
    decide
  · rintro ⟨result, got, newest⟩
    have twice : journalGetLast .standard (journaled .standard [{ timestamp := 100, hash := [1] },
        { timestamp := 100, hash := [2] }]) 2 =
          some (some [{ timestamp := 100, hash := [2] }, { timestamp := 100, hash := [2] }]) := by decide
    rw [twice, Option.some.injEq] at got
    have nodup := got ▸ newest.2.1
    revert nodup
    decide

theorem journalGetLast_newest_last :
    ∃ result, journalGetLast .standard (journaled .standard [{ timestamp := 100, hash := [1] },
        { timestamp := 101, hash := [2] }]) 1 = some result ∧
      NewestRecords ((journaled .standard [{ timestamp := 100, hash := [1] },
        { timestamp := 101, hash := [2] }]).records .standard) (1 : Int).toNat (result.getD []) := by
  refine (journalGetLast_newest_iff .standard _ 1 le_rfl).mpr (.inr ⟨rfl, ?_⟩)
  have records : (journaled .standard [{ timestamp := 100, hash := [1] }, { timestamp := 101, hash := [2] }]).records
      .standard = [] ++ [{ timestamp := 100, hash := [1] }, { timestamp := 101, hash := [2] }] := by decide
  rw [records, lastIsNewest_append]
  decide

end Ipfs
