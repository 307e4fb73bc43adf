import Ipfs.Lib.Outcome
import Ipfs.Lib.Run

/-!
# Connections of the API server

The listening thread counts the connections and keeps each in a slot of a table, and each connection has a
thread of its own that frees the slot. The steps are those that one thread makes under the lock, or alone.
-/

namespace Ipfs

/-- `struct s_conns`. A thread that was not created leaves `pthread` as the allocation had it. -/
structure Conn where
  socket : Int
  ipv4 : UInt32
  port : UInt16
  pthread : Option Nat := none
  deriving DecidableEq

/-- The fields of `struct ApiContext` that the connections are counted and kept in. -/
structure ApiContext where
  maxConns : Nat
  conns : Option (List (Option Conn))
  connsCount : Int
  deriving DecidableEq

/-- A thread that runs `api_connection_thread`, with the index of its parameter. -/
structure ConnectionThread where
  pthread : Nat
  index : Nat
  deriving DecidableEq

structure ApiServer where
  context : ApiContext
  listening : Bool := true
  /-- Let through by the limit, not yet in the table. -/
  accepted : Option Conn := none
  threads : List ConnectionThread := []
  /-- How many threads were created, each with the next id. -/
  created : Nat := 0
  deriving DecidableEq

/-- How the allocations and the creation of the thread go. -/
inductive Admission
  | slotFails
  | paramFails
  | threadFails
  | admitted
  deriving DecidableEq

inductive ApiEvent
  | accept (conn : Conn)
  | enter (outcome : Admission)
  | inspect (pthread : Nat)
  | close (pthread : Nat)
  | cleanup
  deriving DecidableEq

namespace ApiServer

/-- The state `api_start` leaves, when the listening thread has set the count. -/
def start (maxConns : Nat) : ApiServer :=
  { context := { maxConns, conns := some (List.replicate maxConns none), connsCount := 0 } }

def slot (s : ApiServer) (i : Nat) : Option Conn := (s.context.conns.bind fun conns => conns[i]?).join

def setSlot (s : ApiServer) (i : Nat) (conn : Option Conn) : ApiServer :=
  { s with context := { s.context with conns := s.context.conns.map fun conns => conns.set i conn } }

def count (s : ApiServer) (change : Int) : ApiServer :=
  { s with context := { s.context with connsCount := s.context.connsCount + change } }

def readSlot (s : ApiServer) (i : Nat) : Outcome Conn := do
  let conns ← Outcome.access .nullPointer s.context.conns
  let conn ← Outcome.access .outOfBounds conns[i]?
  Outcome.access .nullPointer conn

/-! ## `api_listen_thread` -/

/-- The limit is looked at without the lock. -/
def accept (s : ApiServer) (conn : Conn) : ApiServer :=
  if !s.listening || s.accepted.isSome then s
  else if s.context.maxConns ≤ s.context.connsCount then s
  else { s with accepted := some conn }

/-- The first slot without a connection, or `max_conns`. -/
def searchSlot (conns : List (Option Conn)) : Nat := conns.findIdx Option.isNone

/-- What becomes of the slot that was found. -/
def enterAt (s : ApiServer) (i : Nat) (conn : Conn) : Admission → ApiServer
  | .slotFails => s.setSlot i none
  | .paramFails => s.setSlot i (some { conn with pthread := none })
  | .threadFails => (s.setSlot i none).count (-1)
  | .admitted =>
      let pthread := s.created + 1
      let s := s.setSlot i (some { conn with pthread := some pthread })
      let s : ApiServer := { s with created := pthread, threads := s.threads ++ [{ pthread, index := i }] }
      s.count 1

def enter (s : ApiServer) (outcome : Admission) : Outcome ApiServer :=
  match s.accepted with
  | none => pure s
  | some conn => do
      let s := { s with accepted := none }
      let conns ← Outcome.access .nullPointer s.context.conns
      let i := searchSlot conns
      if s.context.maxConns ≤ i then .fault .outOfBounds else pure (s.enterAt i conn outcome)

/-! ## `api_connection_thread` -/

def thread (s : ApiServer) (pthread : Nat) : Option ConnectionThread := s.threads.find? (·.pthread = pthread)

def endThread (s : ApiServer) (pthread : Nat) : ApiServer :=
  { s with threads := s.threads.filter (·.pthread ≠ pthread) }

/-- What is logged of the connection, read without the lock. -/
def inspect (s : ApiServer) (pthread : Nat) : Outcome ApiServer :=
  match s.thread pthread with
  | none => pure s
  | some thread => do
      let _ ← s.readSlot thread.index
      pure s

def close (s : ApiServer) (pthread : Nat) : Outcome ApiServer :=
  match s.thread pthread with
  | none => pure s
  | some thread => do
      let conns ← Outcome.access .nullPointer s.context.conns
      let _ ← Outcome.access .outOfBounds conns[thread.index]?
      pure (((s.setSlot thread.index none).count (-1)).endThread pthread)

/-! ## `api_connections_cleanup` -/

/-- A cancelled thread does not go on. -/
def cleanupSlot (s : ApiServer) (i : Nat) : Outcome ApiServer := do
  let conn ← s.readSlot i
  let pthread ← Outcome.access .unassigned conn.pthread
  if pthread ≠ 0 then pure ((s.setSlot i none).endThread pthread) else pure s

/-- The slots that a cleanup goes through. -/
def cleanupSlots (s : ApiServer) : List Nat :=
  if 0 < s.context.connsCount ∧ s.context.conns.isSome then List.range s.context.maxConns else []

def dropTable (s : ApiServer) : ApiServer :=
  { s with
    listening := false
    context := { s.context with
      conns := none
      connsCount := if 0 < s.context.connsCount ∧ s.context.conns.isSome then 0 else s.context.connsCount } }

def cleanup (s : ApiServer) : Outcome ApiServer := do
  let s ← s.cleanupSlots.foldlM cleanupSlot s
  pure s.dropTable

def step (s : ApiServer) : ApiEvent → Outcome ApiServer
  | .accept conn => pure (s.accept conn)
  | .enter outcome => s.enter outcome
  | .inspect pthread => s.inspect pthread
  | .close pthread => s.close pthread
  | .cleanup => s.cleanup

def machine : Machine ApiServer ApiEvent where
  step s event :=
    match s.step event with
    | .returned s => some s
    | _ => none

/-! ## Accounting -/

/-- The occupied slots. -/
def occupied (s : ApiServer) : Nat := (s.context.conns.getD []).countP Option.isSome

def Accounted (s : ApiServer) : Prop :=
  s.context.connsCount = s.occupied ∧
    ∀ i conn, s.slot i = some conn → ∃ thread ∈ s.threads, conn.pthread = some thread.pthread ∧ thread.index = i

/-- The slot indexes that a step uses. -/
def usedSlots (s : ApiServer) : ApiEvent → List Nat
  | .accept _ => []
  | .enter _ => if s.accepted.isSome then s.context.conns.toList.map searchSlot else []
  | .inspect pthread | .close pthread => (s.thread pthread).toList.map ConnectionThread.index
  | .cleanup => s.cleanupSlots

def SafeStep (s : ApiServer) (event : ApiEvent) : Prop :=
  (∀ i ∈ s.usedSlots event, i < s.context.maxConns) ∧
    (event = .cleanup → ∀ i ∈ s.usedSlots event, (s.slot i).isSome)

/-- In every state of the run the connections are accounted for, and each step uses slots of the table, a
cleanup only occupied ones. -/
def KeepsAccount (s : ApiServer) (events : List ApiEvent) : Prop :=
  machine.RunMeets (fun s event => s.Accounted ∧ s.SafeStep event) s events ∧
    ∃ s', machine.run s events = some s' ∧ s'.Accounted

/-- Parameters are allocated and threads created, the table is there, and there is no empty slot at a
cleanup that counts a connection. -/
def Allowed (s : ApiServer) : ApiEvent → Prop
  | .enter outcome =>
      s.accepted.isSome → s.context.conns.isSome ∧ (outcome = .slotFails ∨ outcome = .admitted)
  | .cleanup => 0 < s.context.connsCount → ∀ conns ∈ s.context.conns, ∀ conn ∈ conns, conn.isSome
  | _ => True

/-! ## Slots -/

section
variable {s s' : ApiServer} {conns : List (Option Conn)}

theorem slot_eq (table : s.context.conns = some conns) (i : Nat) : s.slot i = conns[i]?.join := by
  simp [slot, table]

theorem slot_setSlot (s : ApiServer) (i j : Nat) (conn : Option Conn) :
    (s.setSlot i conn).slot j =
      if i = j ∧ j < (s.context.conns.getD []).length then conn else s.slot j := by
  cases table : s.context.conns with
  | none => simp [slot, setSlot, table]
  | some conns =>
      simp only [slot, setSlot, table, Option.map_some, Option.bind_some, Option.getD_some, List.getElem?_set]
      by_cases same : i = j
      · by_cases inside : j < conns.length <;> simp [same, inside]
      · simp [same]

theorem readSlot_eq {i : Nat} {conn : Conn} (there : s.slot i = some conn) : s.readSlot i = .returned conn := by
  cases table : s.context.conns with
  | none => simp [slot, table] at there
  | some conns =>
      rw [slot_eq table, Option.join_eq_some_iff] at there
      simp [readSlot, table, there]

theorem slot_inside {i : Nat} {conn : Conn} (there : s.slot i = some conn) :
    ∃ conns, s.context.conns = some conns ∧ conns[i]? = some (some conn) := by
  cases table : s.context.conns with
  | none => simp [slot, table] at there
  | some conns =>
      rw [slot_eq table, Option.join_eq_some_iff] at there
      exact ⟨conns, rfl, there⟩

theorem occupied_setSlot (table : s.context.conns = some conns) {i : Nat} {before : Option Conn}
    (there : conns[i]? = some before) (conn : Option Conn) :
    (s.setSlot i conn).occupied + (if before.isSome then 1 else 0) =
      s.occupied + (if conn.isSome then 1 else 0) := by
  obtain ⟨inside, here⟩ := List.getElem?_eq_some_iff.mp there
  have counted : before.isSome → 0 < conns.countP Option.isSome :=
    fun some => List.countP_pos_iff.mpr ⟨before, List.mem_of_getElem? there, some⟩
  simp only [occupied, setSlot, table, Option.map_some, Option.getD_some, List.countP_set inside, here]
  split
  · have := counted ‹_›
    omega
  · omega

theorem searchSlot_free (table : s.context.conns = some conns) (size : conns.length = s.context.maxConns)
    (room : s.occupied < s.context.maxConns) :
    searchSlot conns < s.context.maxConns ∧ conns[searchSlot conns]? = some none := by
  have free : ∃ conn ∈ conns, conn.isNone := by
    by_contra none
    have full : conns.countP Option.isSome = conns.length :=
      List.countP_eq_length.mpr fun conn mem => by
        cases conn with
        | none => exact absurd ⟨_, mem, rfl⟩ none
        | some conn => rfl
    simp only [occupied, table, Option.getD_some] at room
    omega
  have inside := List.findIdx_lt_length_of_exists free
  have found : (conns[List.findIdx Option.isNone conns]).isNone := List.findIdx_getElem
  refine ⟨size ▸ inside, ?_⟩
  rw [searchSlot, List.getElem?_eq_getElem inside]
  exact congrArg some (Option.isNone_iff_eq_none.mp found)

/-! ## Slots and threads -/

/-- Slots and threads belong to each other, and no two threads have one id. -/
structure Owned (s : ApiServer) : Prop where
  slots : ∀ i conn, s.slot i = some conn → ∃ thread ∈ s.threads, conn.pthread = some thread.pthread ∧ thread.index = i
  threads : ∀ thread ∈ s.threads, ∃ conn, s.slot thread.index = some conn ∧ conn.pthread = some thread.pthread
  distinct : ∀ a ∈ s.threads, ∀ b ∈ s.threads, a.pthread = b.pthread → a = b
  created : ∀ thread ∈ s.threads, 0 < thread.pthread ∧ thread.pthread ≤ s.created

theorem Owned.congr (owned : s.Owned) (slots : ∀ i, s'.slot i = s.slot i) (threads : s'.threads = s.threads)
    (created : s'.created = s.created) : s'.Owned where
  slots i conn there := by
    rw [slots] at there
    exact threads ▸ owned.slots i conn there
  threads thread mem := by
    rw [threads] at mem
    simpa only [slots] using owned.threads thread mem
  distinct a memA b memB := owned.distinct a (threads ▸ memA) b (threads ▸ memB)
  created thread mem := created ▸ owned.created thread (threads ▸ mem)

theorem Owned.thread (owned : s.Owned) {thread : ConnectionThread} (mem : thread ∈ s.threads) :
    s.thread thread.pthread = some thread := by
  cases found : s.thread thread.pthread with
  | none =>
      have := List.find?_eq_none.mp found thread mem
      simp at this
  | some other =>
      have same : other.pthread = thread.pthread := by simpa using List.find?_some found
      rw [owned.distinct other (List.mem_of_find?_eq_some found) thread mem same]

theorem Owned.release (owned : s.Owned) {thread : ConnectionThread} (mem : thread ∈ s.threads) :
    ((s.setSlot thread.index none).endThread thread.pthread).Owned := by
  have left : ∀ {i : Nat} {conn : Conn}, (s.setSlot thread.index none).slot i = some conn →
      thread.index ≠ i ∧ s.slot i = some conn := by
    intro i conn there
    rw [slot_setSlot] at there
    by_cases same : thread.index = i
    · by_cases inside : i < (s.context.conns.getD []).length
      · simp [same, inside] at there
      · obtain ⟨conns, table, here⟩ : ∃ conns, s.context.conns = some conns ∧ conns[i]? = some (some conn) :=
          slot_inside (by simpa [inside] using there)
        have inside' := (List.getElem?_eq_some_iff.mp here).1
        simp [table, inside'] at inside
    · exact ⟨same, by simpa [same] using there⟩
  constructor
  · intro i conn there
    obtain ⟨other, before⟩ := left there
    obtain ⟨owner, ownerMem, id, index⟩ := owned.slots i conn before
    refine ⟨owner, List.mem_filter.mpr ⟨ownerMem, ?_⟩, id, index⟩
    simp only [decide_eq_true_eq]
    intro same
    exact other (owned.distinct owner ownerMem thread mem same ▸ index)
  · intro owner ownerMem
    obtain ⟨ownerMem, stays⟩ := List.mem_filter.mp ownerMem
    obtain ⟨conn, there, id⟩ := owned.threads owner ownerMem
    refine ⟨conn, ?_, id⟩
    have apart : thread.index ≠ owner.index := by
      intro same
      obtain ⟨conn', there', id'⟩ := owned.threads thread mem
      rw [same, there, Option.some.injEq] at there'
      rw [there', id'] at id
      simp [Option.some.inj id] at stays
    exact (slot_setSlot s thread.index owner.index none).trans (by simp [apart, there])
  · intro a memA b memB
    exact owned.distinct a (List.mem_filter.mp memA).1 b (List.mem_filter.mp memB).1
  · intro owner ownerMem
    exact owned.created owner (List.mem_filter.mp ownerMem).1

theorem Owned.enter (owned : s.Owned) (table : s.context.conns = some conns) {i : Nat}
    (free : conns[i]? = some none) (conn : Conn) (id : conn.pthread = some (s.created + 1))
    (slots : ∀ j, s'.slot j = (s.setSlot i (some conn)).slot j)
    (threads : s'.threads = s.threads ++ [{ pthread := s.created + 1, index := i }])
    (created : s'.created = s.created + 1) : s'.Owned := by
  have inside : i < conns.length := (List.getElem?_eq_some_iff.mp free).1
  have here : s'.slot i = some conn := by simp [slots, slot_setSlot, table, inside]
  have elsewhere : ∀ j, i ≠ j → s'.slot j = s.slot j := fun j apart => by simp [slots, slot_setSlot, apart]
  have unowned : ∀ thread ∈ s.threads, i ≠ thread.index := by
    rintro thread mem rfl
    obtain ⟨conn', there, -⟩ := owned.threads thread mem
    simp [slot_eq table, free] at there
  constructor
  · intro j conn' there
    by_cases same : i = j
    · subst same
      rw [here, Option.some.injEq] at there
      exact ⟨⟨s.created + 1, i⟩, by simp [threads], there ▸ id, rfl⟩
    · rw [elsewhere j same] at there
      obtain ⟨owner, mem, rest⟩ := owned.slots j conn' there
      exact ⟨owner, by simp [threads, mem], rest⟩
  · intro thread mem
    rw [threads, List.mem_append, List.mem_singleton] at mem
    rcases mem with mem | rfl
    · rw [elsewhere thread.index (unowned thread mem)]
      exact owned.threads thread mem
    · exact ⟨conn, here, id⟩
  · intro a memA b memB same
    rw [threads, List.mem_append, List.mem_singleton] at memA memB
    rcases memA with memA | rfl <;> rcases memB with memB | rfl
    · exact owned.distinct a memA b memB same
    · have := (owned.created a memA).2
      simp only at same
      omega
    · have := (owned.created b memB).2
      simp only at same
      omega
    · rfl
  · intro thread mem
    rw [threads, List.mem_append, List.mem_singleton] at mem
    rcases mem with mem | rfl
    · have := owned.created thread mem
      omega
    · simp [created]

/-! ## What a step keeps -/

structure Inv (s : ApiServer) : Prop extends Owned s where
  size : ∀ conns, s.context.conns = some conns → conns.length = s.context.maxConns
  count : s.context.connsCount = s.occupied
  room : s.accepted.isSome → s.context.conns.isSome → s.context.connsCount < s.context.maxConns

theorem Inv.accounted (inv : s.Inv) : s.Accounted := ⟨inv.count, inv.slots⟩

theorem Inv.start (maxConns : Nat) : (start maxConns).Inv where
  slots i conn there := by
    simp [slot, ApiServer.start, List.getElem?_replicate, Option.join_eq_some_iff] at there
  threads := by simp [ApiServer.start]
  distinct := by simp [ApiServer.start]
  created := by simp [ApiServer.start]
  size := by simp [ApiServer.start]
  count := by simp [ApiServer.start, occupied, List.countP_replicate]
  room := by simp [ApiServer.start]

theorem Inv.accept (inv : s.Inv) (conn : Conn) : (s.accept conn).Inv := by
  rw [ApiServer.accept]
  split
  · exact inv
  · by_cases full : (s.context.maxConns : Int) ≤ s.context.connsCount
    · rw [if_pos full]
      exact inv
    · rw [if_neg full]
      exact { inv.toOwned.congr (fun _ => rfl) rfl rfl with
        size := inv.size
        count := inv.count
        room := fun _ _ => not_le.mp full }

/-- The slot that an accepted connection gets is free, whatever comes of it. -/
theorem Inv.enter_eq (inv : s.Inv) {conn : Conn} (accepted : s.accepted = some conn)
    (table : s.context.conns = some conns) (outcome : Admission) :
    searchSlot conns < s.context.maxConns ∧ conns[searchSlot conns]? = some none ∧
      s.enter outcome = .returned ({ s with accepted := none }.enterAt (searchSlot conns) conn outcome) := by
  have room := inv.room (by simp [accepted]) (by simp [table])
  have count := inv.count
  obtain ⟨inside, free⟩ := searchSlot_free table (inv.size conns table) (by omega)
  refine ⟨inside, free, ?_⟩
  simp only [ApiServer.enter, accepted, table, Outcome.access_some, Outcome.returned_bind]
  rw [if_neg (by omega)]
  rfl

/-- The accounts after the table has lost or got a connection in one slot. -/
theorem Inv.setSlot (inv : s.Inv) (table : s.context.conns = some conns) {i : Nat} {before : Option Conn}
    (there : conns[i]? = some before) (conn : Option Conn) (owned : s'.Owned)
    (context : s'.context = ⟨s.context.maxConns, some (conns.set i conn),
      s.context.connsCount + (if conn.isSome then 1 else 0) - (if before.isSome then 1 else 0)⟩)
    (room : s'.accepted.isSome → s'.context.connsCount < s.context.maxConns) : s'.Inv := by
  have counted := occupied_setSlot table there conn
  have same : s'.occupied = (s.setSlot i conn).occupied := by simp [occupied, ApiServer.setSlot, context, table]
  exact { owned with
    size := fun conns' table' => by
      rw [context, Option.some.injEq] at table'
      rw [← table', List.length_set, context, inv.size conns table]
    count := by
      have := inv.count
      rw [same, context]
      cases conn <;> cases before <;> simp at counted ⊢ <;> omega
    room := fun accepted _ => by
      rw [context]
      simpa only [context] using room accepted }

theorem Inv.enter_slotFails (inv : s.Inv) (conn : Conn)
    (table : s.context.conns = some conns) (free : conns[searchSlot conns]? = some none) :
    ({ s with accepted := none }.enterAt (searchSlot conns) conn .slotFails).Inv := by
  have slots : ∀ j, (s.setSlot (searchSlot conns) none).slot j = s.slot j := by
    intro j
    rw [slot_setSlot]
    by_cases here : searchSlot conns = j
    · subst here
      simp [slot_eq table, free]
    · simp [here]
  refine inv.setSlot table free none (inv.toOwned.congr slots rfl rfl) ?_ (by simp [enterAt, ApiServer.setSlot])
  simp [enterAt, ApiServer.setSlot, table]

theorem Inv.enter_admitted (inv : s.Inv) (conn : Conn)
    (table : s.context.conns = some conns) (free : conns[searchSlot conns]? = some none) :
    ({ s with accepted := none }.enterAt (searchSlot conns) conn .admitted).Inv := by
  refine inv.setSlot table free (some { conn with pthread := some (s.created + 1) })
    (inv.toOwned.enter table free { conn with pthread := some (s.created + 1) } rfl (fun _ => rfl) rfl rfl) ?_ (by simp [enterAt, ApiServer.setSlot, ApiServer.count])
  simp [enterAt, ApiServer.setSlot, ApiServer.count, table]

theorem Inv.inspect_eq (inv : s.Inv) (pthread : Nat) : s.inspect pthread = .returned s := by
  rw [inspect]
  cases found : s.thread pthread with
  | none => rfl
  | some thread =>
      obtain ⟨conn, there, -⟩ := inv.threads thread (List.mem_of_find?_eq_some found)
      simp only [readSlot_eq there, Outcome.returned_bind]
      rfl

theorem Inv.close (inv : s.Inv) (pthread : Nat) : ∃ s', s.close pthread = .returned s' ∧ s'.Inv := by
  rw [ApiServer.close]
  cases found : s.thread pthread with
  | none => exact ⟨s, rfl, inv⟩
  | some thread =>
      have mem := List.mem_of_find?_eq_some found
      have id : thread.pthread = pthread := by simpa using List.find?_some found
      obtain ⟨conn, there, -⟩ := inv.threads thread mem
      obtain ⟨conns, table, here⟩ := slot_inside there
      have released := inv.toOwned.release mem
      rw [id] at released
      refine ⟨_, by simp only [table, here, Outcome.access_some, Outcome.returned_bind]; rfl, ?_⟩
      refine inv.setSlot table here none (released.congr (fun _ => rfl) rfl rfl) ?_ ?_
      · simp [endThread, ApiServer.count, ApiServer.setSlot, table, sub_eq_add_neg]
      · intro accepted
        have room := inv.room accepted (by simp [table])
        simp only [endThread, ApiServer.count, ApiServer.setSlot]
        omega

/-! ## A cleanup -/

theorem cleanupSlot_eq (owned : s.Owned) {thread : ConnectionThread} (mem : thread ∈ s.threads) :
    s.cleanupSlot thread.index = .returned ((s.setSlot thread.index none).endThread thread.pthread) := by
  obtain ⟨conn, there, id⟩ := owned.threads thread mem
  have nonzero : thread.pthread ≠ 0 := by
    have := (owned.created thread mem).1
    omega
  simp only [cleanupSlot, readSlot_eq there, id, Outcome.access_some, Outcome.returned_bind, ne_eq, nonzero,
    not_false_eq_true, if_true]
  rfl

/-- When each slot that is gone through is occupied, the threads of these slots end. -/
theorem foldlM_cleanupSlot (owned : s.Owned) (indexes : List Nat) (distinct : indexes.Nodup)
    (full : ∀ i ∈ indexes, (s.slot i).isSome) :
    ∃ s', indexes.foldlM cleanupSlot s = .returned s' ∧
      (∀ thread ∈ s'.threads, thread ∈ s.threads ∧ thread.index ∉ indexes) ∧
      s'.context.connsCount = s.context.connsCount ∧ s'.context.conns.isSome = s.context.conns.isSome := by
  induction indexes generalizing s with
  | nil => exact ⟨s, rfl, by simp, rfl, rfl⟩
  | cons i indexes ih =>
      obtain ⟨apart, rest⟩ := List.nodup_cons.mp distinct
      obtain ⟨conn, there⟩ := Option.isSome_iff_exists.mp (full i (by simp))
      obtain ⟨thread, mem, id, rfl⟩ := owned.slots i conn there
      have later : ∀ j ∈ indexes, (((s.setSlot thread.index none).endThread thread.pthread).slot j).isSome := by
        intro j memJ
        have other : thread.index ≠ j := fun same => apart (same ▸ memJ)
        have stays : (s.setSlot thread.index none).slot j = s.slot j := by rw [slot_setSlot, if_neg (fun both => other both.1)]
        exact (congrArg Option.isSome stays).trans (full j (by simp [memJ]))
      obtain ⟨s', ran, threads, counted, table⟩ := ih (owned.release mem) rest later
      refine ⟨s', by rw [List.foldlM_cons, cleanupSlot_eq owned mem]; exact ran, ?_, counted, ?_⟩
      · intro other memOther
        obtain ⟨before, outside⟩ := threads other memOther
        obtain ⟨before, stays⟩ := List.mem_filter.mp before
        refine ⟨before, fun memIndex => ?_⟩
        rcases List.mem_cons.mp memIndex with same | memIndex
        · obtain ⟨conn', there', id'⟩ := owned.threads other before
          rw [same, there, Option.some.injEq] at there'
          rw [← there', id, Option.some.injEq] at id'
          simp [id'] at stays
        · exact outside memIndex
      · simpa [endThread, ApiServer.setSlot] using table

theorem Owned.dropTable (s : ApiServer) (ended : s.threads = []) : s.dropTable.Owned where
  slots i conn there := by simp [slot, ApiServer.dropTable] at there
  threads := by simp [ApiServer.dropTable, ended]
  distinct := by simp [ApiServer.dropTable, ended]
  created := by simp [ApiServer.dropTable, ended]

theorem Inv.cleanup (inv : s.Inv) (full : ∀ i ∈ s.cleanupSlots, (s.slot i).isSome) :
    ∃ s', s.cleanup = .returned s' ∧ s'.Inv := by
  have nodup : s.cleanupSlots.Nodup := by
    rw [cleanupSlots]
    split
    · exact List.nodup_range
    · exact List.nodup_nil
  obtain ⟨s', ran, threads, counted, table⟩ := foldlM_cleanupSlot inv.toOwned s.cleanupSlots nodup full
  have ended : s'.threads = [] := by
    apply List.eq_nil_iff_forall_not_mem.mpr
    intro thread mem
    obtain ⟨before, outside⟩ := threads thread mem
    obtain ⟨conn, there, -⟩ := inv.threads thread before
    obtain ⟨conns, tableConns, here⟩ := slot_inside there
    obtain ⟨inside, value⟩ := List.getElem?_eq_some_iff.mp here
    have occupied : 0 < s.occupied := by
      simp only [ApiServer.occupied, tableConns, Option.getD_some]
      exact List.countP_pos_iff.mpr ⟨some conn, List.mem_of_getElem? here, rfl⟩
    have counts := inv.count
    rw [cleanupSlots, if_pos ⟨by omega, by simp [tableConns]⟩, List.mem_range, ← inv.size conns tableConns] at outside
    exact outside inside
  refine ⟨s'.dropTable, by rw [ApiServer.cleanup, ran]; rfl, Owned.dropTable s' ended, by simp [dropTable], ?_, by simp [dropTable]⟩
  have none : s'.dropTable.occupied = 0 := by simp [ApiServer.occupied, dropTable]
  rw [none]
  simp only [dropTable, counted, table]
  split
  · rfl
  · have counts := inv.count
    cases conns : s.context.conns with
    | none => simpa [ApiServer.occupied, conns] using counts
    | some conns' =>
        simp only [conns, Option.isSome_some, and_true, not_lt] at *
        omega

/-! ## Runs -/

theorem machine_step {event : ApiEvent} : machine.step s event = some s' ↔ s.step event = .returned s' := by
  simp only [machine]
  cases s.step event <;> simp

theorem Inv.used (inv : s.Inv) {pthread i : Nat} (used : i ∈ (s.thread pthread).toList.map ConnectionThread.index) :
    i < s.context.maxConns := by
  obtain ⟨thread, found, rfl⟩ := List.mem_map.mp used
  obtain ⟨conn, there, -⟩ := inv.threads thread (List.mem_of_find?_eq_some (Option.mem_toList.mp found))
  obtain ⟨conns, table, here⟩ := slot_inside there
  exact inv.size conns table ▸ (List.getElem?_eq_some_iff.mp here).1

theorem Inv.cleanup_full (inv : s.Inv) (allowed : s.Allowed .cleanup) {i : Nat} (used : i ∈ s.cleanupSlots) :
    i < s.context.maxConns ∧ (s.slot i).isSome := by
  rw [cleanupSlots] at used
  split at used
  · obtain ⟨counted, there⟩ := ‹_ ∧ _›
    obtain ⟨conns, table⟩ := Option.isSome_iff_exists.mp there
    have inside := List.mem_range.mp used
    have inside' : i < conns.length := inv.size conns table ▸ inside
    refine ⟨inside, ?_⟩
    rw [slot_eq table, List.getElem?_eq_getElem inside', Option.join_some]
    exact allowed counted conns table _ (List.getElem_mem inside')
  · simp at used

theorem Inv.step (inv : s.Inv) {event : ApiEvent} (allowed : s.Allowed event) :
    s.SafeStep event ∧ ∃ s', s.step event = .returned s' ∧ s'.Inv := by
  cases event with
  | accept conn => exact ⟨by simp [SafeStep, usedSlots], s.accept conn, rfl, inv.accept conn⟩
  | enter outcome =>
      cases accepted : s.accepted with
      | none => exact ⟨by simp [SafeStep, usedSlots, accepted], s, by simp [ApiServer.step, ApiServer.enter, accepted], inv⟩
      | some conn =>
          obtain ⟨there, ends⟩ := allowed (by simp [accepted])
          obtain ⟨conns, table⟩ := Option.isSome_iff_exists.mp there
          obtain ⟨inside, free, eq⟩ := inv.enter_eq accepted table outcome
          refine ⟨by simpa [SafeStep, usedSlots, accepted, table] using inside, _, eq, ?_⟩
          rcases ends with rfl | rfl
          · exact inv.enter_slotFails conn table free
          · exact inv.enter_admitted conn table free
  | inspect pthread => exact ⟨⟨fun _ used => inv.used used, by simp⟩, s, inv.inspect_eq pthread, inv⟩
  | close pthread =>
      obtain ⟨s', closed, inv'⟩ := inv.close pthread
      exact ⟨⟨fun _ used => inv.used used, by simp⟩, s', closed, inv'⟩
  | cleanup =>
      obtain ⟨s', cleaned, inv'⟩ := inv.cleanup fun i used => (inv.cleanup_full allowed used).2
      exact ⟨⟨fun i used => (inv.cleanup_full allowed used).1, fun _ i used => (inv.cleanup_full allowed used).2⟩,
        s', cleaned, inv'⟩

/-- A connection whose parameter or thread is not made is in the table for ever, or discounted. -/
theorem Inv.admitted (inv : s.Inv) {outcome : Admission} {conn : Conn} (accepted : s.accepted = some conn)
    (stepped : s.enter outcome = .returned s') (accounted : s'.Accounted) :
    s.context.conns.isSome ∧ (outcome = .slotFails ∨ outcome = .admitted) := by
  cases table : s.context.conns with
  | none => simp [ApiServer.enter, accepted, table] at stepped
  | some conns =>
      obtain ⟨inside, free, eq⟩ := inv.enter_eq accepted table outcome
      rw [eq, Outcome.returned.injEq] at stepped
      refine ⟨rfl, ?_⟩
      subst stepped
      cases outcome with
      | slotFails => exact .inl rfl
      | admitted => exact .inr rfl
      | paramFails =>
          have there : ({ s with accepted := none }.enterAt (searchSlot conns) conn .paramFails).slot (searchSlot conns) =
              some { conn with pthread := none } := by
            simp [enterAt, slot_setSlot, table, (List.getElem?_eq_some_iff.mp free).1]
          obtain ⟨thread, -, id, -⟩ := accounted.2 _ _ there
          simp at id
      | threadFails =>
          have counted := occupied_setSlot table free none
          have same : ({ s with accepted := none }.enterAt (searchSlot conns) conn .threadFails).occupied =
              (s.setSlot (searchSlot conns) none).occupied := rfl
          have count : s.context.connsCount + -1 = _ := accounted.1
          have counts := inv.count
          rw [same] at count
          simp at counted
          omega

theorem Inv.allowed (inv : s.Inv) {event : ApiEvent} (safe : s.SafeStep event)
    (stepped : s.step event = .returned s') (accounted : s'.Accounted) : s.Allowed event := by
  cases event with
  | accept conn => trivial
  | enter outcome =>
      intro pending
      obtain ⟨conn, accepted⟩ := Option.isSome_iff_exists.mp pending
      exact inv.admitted accepted stepped accounted
  | inspect pthread => trivial
  | close pthread => trivial
  | cleanup =>
      intro counted conns table conn mem
      obtain ⟨i, inside, rfl⟩ := List.mem_iff_getElem.mp mem
      have used : i ∈ s.usedSlots .cleanup := by
        rw [usedSlots, cleanupSlots, if_pos ⟨counted, by simp [Option.mem_def.mp table]⟩, List.mem_range]
        exact inv.size conns table ▸ inside
      have occupied := safe.2 rfl i used
      rw [slot_eq table, List.getElem?_eq_getElem inside, Option.join_some] at occupied
      exact occupied

end

end ApiServer

end Ipfs
