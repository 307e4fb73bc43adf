import Ipfs.Codec.Journal
import Ipfs.Store.Lmdb

/-!
# Merging the times of journal messages

A message is handled in two phases: what may need to change is collected first, and then done one
after the other. Here the datastore is a map, and `datastore_put` replaces the record of a key.
-/

namespace Ipfs

/-- The records that `datastore_get` finds; it puts the key it was asked for into each. -/
@[ext] structure RecordMap where
  get : Bytes → Option DatastoreRecord
  keyed : ∀ hash record, get hash = some record → record.key = hash

def RecordMap.put (db : RecordMap) (record : DatastoreRecord) : RecordMap where
  get := Function.update db.get record.key (some record)
  keyed hash record' found := by
    by_cases same : hash = record.key
    · subst same
      rw [Function.update_self, Option.some.injEq] at found
      rw [found]
    · rw [Function.update_of_ne same] at found
      exact db.keyed hash record' found

theorem RecordMap.get_put_self (db : RecordMap) (record : DatastoreRecord) :
    (db.put record).get record.key = some record :=
  Function.update_self ..

theorem RecordMap.get_put_of_ne (db : RecordMap) (record : DatastoreRecord) {hash : Bytes} (ne : hash ≠ record.key) :
    (db.put record).get hash = db.get hash :=
  Function.update_of_ne ne ..

inductive JournalAction
  | entryNeeded
  | timeAdjust
  | remoteNeeds

structure JournalToDo where
  action : JournalAction := .entryNeeded
  localTimestamp : UInt64 := 0
  remoteTimestamp : UInt64 := 0
  hash : Bytes

/-- `GetBlockAsync` of an exchange: whether it returned 1, and whether it handed over a block. -/
structure BlockExchange where
  State : Type
  getBlockAsync : State → Bytes → Bool × Bool × State

structure JournalNode (exchange : BlockExchange) where
  datastore : RecordMap
  exchange : exchange.State

def journalTodoOf (db : RecordMap) (entry : JournalEntry) : Option JournalToDo :=
  match db.get entry.hash with
  | none => some { action := .entryNeeded, hash := entry.hash, remoteTimestamp := entry.timestamp }
  | some record =>
      -- do we need to adjust the time?
      if (record.timestamp = 0 ∧ entry.timestamp ≠ 0) ∨
          (entry.timestamp ≠ 0 ∧ entry.timestamp < record.timestamp) then
        some { action := .timeAdjust, hash := entry.hash, localTimestamp := record.timestamp,
               remoteTimestamp := entry.timestamp }
      else none

def journalBuildTodo (db : RecordMap) (incoming : JournalMessage) : List JournalToDo :=
  incoming.journalEntries.filterMap (journalTodoOf db)

def journalAdjustTime (todo : JournalToDo) (db : RecordMap) : Bool × RecordMap :=
  match db.get todo.hash with
  | none => (false, db)
  | some record =>
      if todo.remoteTimestamp ≠ 0 then
        if record.timestamp > todo.remoteTimestamp then
          (true, db.put { record with timestamp := todo.remoteTimestamp })
        else (true, db)
      else (true, db.put record)

variable {exchange : BlockExchange}

def JournalNode.adjustTime (node : JournalNode exchange) (todo : JournalToDo) : JournalNode exchange :=
  { node with datastore := (journalAdjustTime todo node.datastore).2 }

def journalPerformTodo (node : JournalNode exchange) (todo : JournalToDo) : JournalNode exchange :=
  match todo.action with
  | .entryNeeded =>
      let (returned, block, state) := exchange.getBlockAsync node.exchange todo.hash
      let node := { node with exchange := state }
      -- set timestamp (if we got the block already, but we probably didn't)
      if returned ∧ block then node.adjustTime todo else node
  | .timeAdjust => node.adjustTime todo
  | .remoteNeeds => node

/-- See if the remote's time is within 5 minutes of now. -/
def JournalMessage.FreshAt (message : JournalMessage) (now : UInt64) : Prop :=
  (now - message.currentEpoch).toInt64.toInt.natAbs ≤ 300

instance (message : JournalMessage) (now : UInt64) : Decidable (message.FreshAt now) :=
  inferInstanceAs (Decidable (_ ≤ _))

/-- `ipfs_journal_handle_message` behind the decoder. -/
def journalHandleDecoded (now : UInt64) (message : JournalMessage) (node : JournalNode exchange) :
    Int × JournalNode exchange :=
  if message.FreshAt now then
    (1, (journalBuildTodo node.datastore message).foldl journalPerformTodo node)
  else (-1, node)

structure JournalCall where
  message : JournalMessage
  now : UInt64

def journalMachine (exchange : BlockExchange) : Machine (JournalNode exchange) JournalCall where
  step node call := some (journalHandleDecoded call.now call.message node).2

theorem min?_eq_of_mem_iff {times times' : List UInt64} (same : ∀ timestamp, timestamp ∈ times ↔ timestamp ∈ times') :
    times.min? = times'.min? := by
  ext timestamp
  simp [List.min?_eq_some_iff, same]

def receivedTimes (hash : Bytes) (entries : List JournalEntry) : List UInt64 :=
  (entries.filter fun entry => entry.hash = hash ∧ entry.timestamp ≠ 0).map JournalEntry.timestamp

def DatastoreRecord.lower (record : DatastoreRecord) (timestamp : UInt64) : DatastoreRecord :=
  { record with timestamp := min record.timestamp timestamp }

def DatastoreRecord.lowered (record : DatastoreRecord) (entries : List JournalEntry) : DatastoreRecord :=
  (receivedTimes record.key entries).foldl DatastoreRecord.lower record

section
variable {record : DatastoreRecord} {entry : JournalEntry} {entries : List JournalEntry} {db : RecordMap}

theorem DatastoreRecord.lower_eq_self {timestamp : UInt64} (later : record.timestamp ≤ timestamp) :
    record.lower timestamp = record := by
  rw [lower, Std.min_eq_if, if_pos later]

theorem DatastoreRecord.foldl_lower (times : List UInt64) :
    times.foldl lower record = { record with timestamp := times.foldl min record.timestamp } := by
  induction times generalizing record with
  | nil => rfl
  | cons timestamp times ih => rw [List.foldl_cons, ih, List.foldl_cons, lower]

@[simp] theorem DatastoreRecord.lowered_key : (record.lowered entries).key = record.key := by
  rw [lowered, foldl_lower]

theorem DatastoreRecord.lowered_append (entries' : List JournalEntry) :
    record.lowered (entries ++ entries') = (record.lowered entries).lowered entries' := by
  rw [lowered, lowered, lowered_key, receivedTimes, List.filter_append, List.map_append, List.foldl_append]
  rfl

theorem DatastoreRecord.lowered_le : (record.lowered entries).timestamp ≤ record.timestamp := by
  rw [lowered, foldl_lower]
  generalize receivedTimes record.key entries = times
  induction times generalizing record with
  | nil => exact UInt64.le_refl _
  | cons timestamp times ih =>
      have rest : times.foldl min (record.lower timestamp).timestamp ≤ (record.lower timestamp).timestamp := ih
      exact UInt64.le_trans rest Std.min_le_left

def RecordMap.Lowered (db db' : RecordMap) (entries : List JournalEntry) : Prop :=
  ∀ hash, db'.get hash = (db.get hash).map (·.lowered entries)

theorem RecordMap.Lowered.refl (db : RecordMap) : db.Lowered db [] := fun hash => by
  simp [DatastoreRecord.lowered, receivedTimes]

theorem RecordMap.Lowered.trans {db db' db'' : RecordMap} {entries' : List JournalEntry}
    (first : db.Lowered db' entries) (second : db'.Lowered db'' entries') : db.Lowered db'' (entries ++ entries') := by
  intro hash
  rw [second, first, Option.map_map]
  simp [Function.comp_def, DatastoreRecord.lowered_append]

theorem RecordMap.Lowered.of_late
    (late : ∀ record, db.get entry.hash = some record → entry.timestamp = 0 ∨ record.timestamp ≤ entry.timestamp) :
    db.Lowered db [entry] := by
  intro hash
  cases found : db.get hash with
  | none => rfl
  | some record =>
      have key := db.keyed hash record found
      rw [Option.map_some, DatastoreRecord.lowered, receivedTimes, key]
      by_cases own : entry.hash = hash ∧ entry.timestamp ≠ 0
      · have later := (late record (own.1 ▸ found)).resolve_left own.2
        simp [own, DatastoreRecord.lower_eq_self later]
      · simp [own]

theorem RecordMap.put_same (found : db.get record.key = some record) : db.put record = db := by
  ext1
  exact Function.update_eq_self_iff.mpr found.symm

theorem RecordMap.Lowered.put (found : db.get entry.hash = some record) (given : entry.timestamp ≠ 0)
    (earlier : entry.timestamp < record.timestamp) :
    db.Lowered (db.put { record with timestamp := entry.timestamp }) [entry] := by
  intro hash
  have key := db.keyed _ record found
  by_cases own : hash = record.key
  · subst own
    have lowered : record.lower entry.timestamp = { record with timestamp := entry.timestamp } := by
      rw [DatastoreRecord.lower, Std.min_eq_if, if_neg (UInt64.not_le.mpr earlier)]
    rw [RecordMap.get_put_self _ { record with timestamp := entry.timestamp }, key, found, Option.map_some,
      DatastoreRecord.lowered, receivedTimes, key]
    simp [given, lowered, key]
  · rw [RecordMap.get_put_of_ne _ { record with timestamp := entry.timestamp } own]
    cases other : db.get hash with
    | none => rfl
    | some record' =>
        have notOwn : ¬ entry.hash = hash := fun same => own (same.symm.trans key.symm)
        simp [DatastoreRecord.lowered, receivedTimes, db.keyed hash record' other, notOwn]

theorem journalAdjustTime_lowered {todo : JournalToDo} (hash : todo.hash = entry.hash)
    (timestamp : todo.remoteTimestamp = entry.timestamp) :
    db.Lowered (journalAdjustTime todo db).2 [entry] := by
  rw [journalAdjustTime, hash, timestamp]
  cases found : db.get entry.hash with
  | none => exact .of_late fun record present => by simp [found] at present
  | some record =>
      by_cases given : entry.timestamp = 0
      · have same : db.put record = db := RecordMap.put_same (db.keyed _ record found ▸ found)
        simp only [given, ne_eq, not_true, if_false, same]
        exact .of_late fun _ _ => .inl given
      · by_cases earlier : record.timestamp > entry.timestamp
        · simp only [ne_eq, given, not_false_eq_true, if_true, earlier]
          exact .put found given earlier
        · simp only [ne_eq, given, not_false_eq_true, if_true, earlier, if_false]
          refine .of_late fun record' found' => .inr ?_
          obtain rfl := Option.some.inj (found.symm.trans found')
          exact UInt64.not_lt.mp earlier

theorem journalPerformTodo_lowered {node : JournalNode exchange} {entries' : List JournalEntry}
    (reached : db.Lowered node.datastore entries') {todo : JournalToDo} (needed : journalTodoOf db entry = some todo) :
    node.datastore.Lowered (journalPerformTodo node todo).datastore [entry] := by
  rw [journalTodoOf] at needed
  cases found : db.get entry.hash with
  | none =>
      obtain rfl : _ = todo := by simpa [found] using needed
      have absent : node.datastore.get entry.hash = none := by simp [reached entry.hash, found]
      simp only [journalPerformTodo]
      split
      · exact journalAdjustTime_lowered rfl rfl
      · exact .of_late fun record present => by simp [absent] at present
  | some record =>
      simp only [found] at needed
      split at needed
      · obtain rfl := Option.some.inj needed
        exact journalAdjustTime_lowered rfl rfl
      · cases needed

theorem journalTodoOf_none {node : JournalNode exchange} {entries' : List JournalEntry}
    (reached : db.Lowered node.datastore entries') (notNeeded : journalTodoOf db entry = none) :
    node.datastore.Lowered node.datastore [entry] := by
  refine .of_late fun record present => ?_
  rw [reached, Option.map_eq_some_iff] at present
  obtain ⟨original, found, rfl⟩ := present
  simp only [journalTodoOf, found, ite_eq_right_iff, reduceCtorEq, imp_false, not_or, not_and, UInt64.not_lt] at notNeeded
  by_cases given : entry.timestamp = 0
  · exact .inl given
  · exact .inr (UInt64.le_trans DatastoreRecord.lowered_le (notNeeded.2 given))

theorem journalPerformTodos_lowered {node : JournalNode exchange} {before : List JournalEntry}
    (reached : db.Lowered node.datastore before) :
    db.Lowered ((entries.filterMap (journalTodoOf db)).foldl journalPerformTodo node).datastore (before ++ entries) := by
  induction entries generalizing node before with
  | nil => simpa using reached
  | cons entry entries ih =>
      rw [List.append_cons]
      cases needed : journalTodoOf db entry with
      | none =>
          rw [List.filterMap_cons_none needed]
          exact ih (reached.trans (journalTodoOf_none reached needed))
      | some todo =>
          rw [List.filterMap_cons_some needed, List.foldl_cons]
          exact ih (reached.trans (journalPerformTodo_lowered reached needed))

theorem journalHandleDecoded_lowered {now : UInt64} {message : JournalMessage} (fresh : message.FreshAt now)
    (node : JournalNode exchange) :
    node.datastore.Lowered (journalHandleDecoded now message node).2.datastore message.journalEntries := by
  rw [journalHandleDecoded, if_pos fresh]
  exact journalPerformTodos_lowered (.refl node.datastore)

theorem run_lowered {calls : List JournalCall} (fresh : ∀ call ∈ calls, call.message.FreshAt call.now)
    {node node' : JournalNode exchange} (ran : (journalMachine exchange).run node calls = some node') :
    node.datastore.Lowered node'.datastore (calls.flatMap fun call => call.message.journalEntries) := by
  induction calls generalizing node with
  | nil =>
      obtain rfl := Option.some.inj ran
      exact .refl _
  | cons call calls ih =>
      have step := journalHandleDecoded_lowered (fresh call (by simp)) node
      exact step.trans (ih (fun other mem => fresh other (by simp [mem])) ran)

end

def wantingExchange : BlockExchange := ⟨List Bytes, fun wanted hash => (true, false, hash :: wanted)⟩

def laterMessage : JournalMessage :=
  { currentEpoch := 200, journalEntries := [{ timestamp := 70, hash := [1] }, { timestamp := 50, hash := [1] }] }

def earlierMessage : JournalMessage :=
  { currentEpoch := 190, journalEntries := [{ timestamp := 60, hash := [1] }, { timestamp := 5, hash := [2] }] }

def singleRecord : RecordMap := .put ⟨fun _ => none, by simp⟩ { key := [1], value := [9], timestamp := 100 }

end Ipfs
