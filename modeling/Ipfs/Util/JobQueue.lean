import Ipfs.Lib.Heap
import Ipfs.Util.ThreadPool

/-!
# The job queue in memory

The queue of the pool as it is built from cells, and what a thread does with the cell that it pulled.
-/

namespace Ipfs
open ThreadPool

variable {Job : Type}

/-- `job`: where the next one is, and what is to be done. -/
structure JobCell (Job : Type) where
  prev : Option Nat
  job : Job

def JobCell.of (job : Job) (prev : Option Nat) : JobCell Job := ⟨prev, job⟩

/-- `jobqueue`, the heap, and the cell that each thread has pulled. -/
structure JobMemory (Job : Type) where
  heap : Heap (JobCell Job) := {}
  front : Option Nat := none
  rear : Option Nat := none
  len : Nat := 0
  held : Nat → Option Nat := fun _ => none

namespace JobMemory

def jobqueuePush (newjob : Nat) (memory : JobMemory Job) : Option (JobMemory Job) := do
  let cell ← memory.heap.load newjob
  let heap ← memory.heap.store newjob { cell with prev := none }
  match memory.len with
  | 0 => pure { memory with heap, front := some newjob, rear := some newjob, len := 1 }
  | len + 1 => do
      let rear ← memory.rear
      let last ← heap.load rear
      let heap ← heap.store rear { last with prev := some newjob }
      pure { memory with heap, rear := some newjob, len := len + 2 }

/-- `thpool_add_work`. -/
def thpoolAddWork (job : Job) (memory : JobMemory Job) : Option (JobMemory Job) :=
  let (newjob, heap) := memory.heap.alloc ⟨none, job⟩
  { memory with heap }.jobqueuePush newjob

/-- Thread `i` pulls. -/
def jobqueuePull (i : Nat) (memory : JobMemory Job) : Option (JobMemory Job) :=
  let pulled := { memory with held := Function.update memory.held i memory.front }
  match memory.len with
  | 0 => some pulled
  | 1 => some { pulled with front := none, rear := none, len := 0 }
  | len + 2 => do
      let front ← memory.front
      let cell ← memory.heap.load front
      pure { pulled with front := cell.prev, len := len + 1 }

/-- Thread `i` has run its job. -/
def free (i : Nat) (memory : JobMemory Job) : Option (JobMemory Job) := do
  let address ← memory.held i
  let heap ← memory.heap.free address
  pure { memory with heap, held := Function.update memory.held i none }

/-- What is done in memory when the pool takes a step. -/
def follow (pool : ThreadPool Job) (action : PoolAction Job) (memory : JobMemory Job) : Option (JobMemory Job) :=
  match action with
  | .thpoolAddWork job _ => memory.thpoolAddWork job
  | .thread i _ => match pool.threads[i]? with
      | some .pulling => memory.jobqueuePull i
      | some (.running _) => memory.free i
      | _ => some memory
  | _ => some memory

end JobMemory

/-- The pool, and its memory. -/
def pooledMemory (Job : Type) : Machine (ThreadPool Job × JobMemory Job) (PoolAction Job) where
  step
    | (pool, memory), action => do
        let pool' ← (threadPool Job).step pool action
        let memory' ← memory.follow pool action
        pure (pool', memory')

namespace JobMemory
variable {pool pool' : ThreadPool Job} {memory : JobMemory Job}

/-- The job that a thread runs. -/
def jobOf : Option (ThreadPlace Job) → Option Job
  | some (.running job) => some job
  | _ => none

/-- The cells of the queue and those that threads have pulled are apart, and there are no others. -/
structure Holds (memory : JobMemory Job) (pool : ThreadPool Job) (entries : List (Nat × Job)) : Prop where
  listed : Heap.Listed JobCell.of memory.heap memory.front entries
  jobs : entries.map Prod.snd = pool.queue
  rear : memory.rear = entries.getLast?.map Prod.fst
  len : memory.len = entries.length
  held : ∀ i, (memory.held i).isSome = (jobOf pool.threads[i]?).isSome
  pulled : ∀ i address, memory.held i = some address → address ∉ entries.map Prod.fst ∧
    ∃ cell, memory.heap.load address = some cell ∧ jobOf pool.threads[i]? = some cell.job
  apart : ∀ i j address, memory.held i = some address → memory.held j = some address → i = j
  live : ∀ address, (memory.heap.load address).isSome → address ∈ entries.map Prod.fst ∨ ∃ i, memory.held i = some address

theorem Holds.congr {entries : List (Nat × Job)} (holds : memory.Holds pool entries) (queue : pool'.queue = pool.queue)
    (same : ∀ i : Nat, jobOf pool'.threads[i]? = jobOf pool.threads[i]?) : memory.Holds pool' entries :=
  ⟨holds.listed, queue ▸ holds.jobs, holds.rear, holds.len, fun i => same i ▸ holds.held i,
    fun i address here => same i ▸ holds.pulled i address here, holds.apart, holds.live⟩

section
variable {entries : List (Nat × Job)}

/-- The new cell, before it is in the queue. -/
theorem Holds.fresh (holds : memory.Holds pool entries) : memory.heap.cells.length ∉ entries.map Prod.fst :=
  fun mem => Nat.lt_irrefl _ (holds.listed.chain.lt _ mem)

theorem Holds.held_lt (holds : memory.Holds pool entries) {i address : Nat} (held : memory.held i = some address) :
    address < memory.heap.cells.length := by
  obtain ⟨-, cell, present, -⟩ := holds.pulled i address held
  exact Heap.lt_of_load present

theorem load_alloc_ne (heap : Heap (JobCell Job)) (cell : JobCell Job) {address : Nat} (other : address ≠ heap.cells.length) :
    (heap.alloc cell).2.load address = heap.load address := by
  by_cases inside : address < heap.cells.length
  · rw [Heap.alloc, Heap.load, Heap.load, List.getElem?_append_left inside]
  · rw [Heap.load, Heap.load, Heap.alloc, List.getElem?_eq_none (by simpa using by omega),
      List.getElem?_eq_none (by omega)]

/-- The queue with one cell more behind it, when the cells of the others are what they were. -/
theorem Holds.append (holds : memory.Holds pool entries) (job : Job) {heap : Heap (JobCell Job)} {front : Option Nat}
    (listed : Heap.Listed JobCell.of heap front (entries ++ [(memory.heap.cells.length, job)]))
    (jobs : ∀ address ∉ entries.map Prod.fst, address ≠ memory.heap.cells.length →
      heap.load address = memory.heap.load address) :
    Holds { memory with heap, front, rear := some memory.heap.cells.length, len := entries.length + 1 }
      { pool with queue := pool.queue ++ [job] } (entries ++ [(memory.heap.cells.length, job)]) := by
  have outside {i address : Nat} (held : memory.held i = some address) :
      address ∉ (entries ++ [(memory.heap.cells.length, job)]).map Prod.fst := by
    have before := (holds.pulled i address held).1
    have less := holds.held_lt held
    simp only [List.map_append, List.map_singleton, List.mem_append, List.mem_singleton, not_or]
    exact ⟨before, by omega⟩
  refine ⟨listed, by simp [holds.jobs], by simp, by simp, holds.held, fun i address held => ?_, holds.apart, ?_⟩
  · obtain ⟨before, cell, present, same⟩ := holds.pulled i address held
    have less := holds.held_lt held
    exact ⟨outside held, cell, (jobs address before (by omega)).trans present, same⟩
  · intro address present
    simp only [List.map_append, List.map_singleton, List.mem_append, List.mem_singleton]
    by_cases queued : address ∈ entries.map Prod.fst
    · exact .inl (.inl queued)
    · by_cases new : address = memory.heap.cells.length
      · exact .inl (.inr new)
      · have present : (heap.load address).isSome := present
        rw [jobs address queued new] at present
        exact (holds.live address present).imp .inl id

theorem Holds.push (holds : memory.Holds pool entries) (job : Job) :
    ∃ memory', memory.thpoolAddWork job = some memory' ∧
      memory'.Holds { pool with queue := pool.queue ++ [job] } (entries ++ [(memory.heap.cells.length, job)]) := by
  have present : (memory.heap.alloc ⟨none, job⟩).2.load memory.heap.cells.length = some (JobCell.of job none) :=
    Heap.load_alloc_self _ _
  have alloc : (memory.heap.alloc ⟨none, job⟩).1 = memory.heap.cells.length := rfl
  have stored := Heap.store_eq present ⟨none, job⟩
  let heap := (memory.heap.alloc ⟨none, job⟩).2.put memory.heap.cells.length (some ⟨none, job⟩)
  have new : heap.load memory.heap.cells.length = some (JobCell.of job none) := Heap.load_put_self present _
  have kept {address : Nat} (other : address ≠ memory.heap.cells.length) :
      heap.load address = memory.heap.load address := by
    rw [Heap.load_put_ne _ (Ne.symm other), load_alloc_ne _ _ other]
  rcases entries.eq_nil_or_concat' with rfl | ⟨before, ⟨rear, last⟩, rfl⟩
  · refine ⟨{ memory with heap, front := some memory.heap.cells.length, rear := some memory.heap.cells.length, len := 1 },
      ?_, holds.append job ⟨List.nodup_singleton _, ⟨new, trivial⟩, rfl⟩ fun address _ => kept⟩
    have len : memory.len = 0 := holds.len
    simp only [thpoolAddWork, jobqueuePush, alloc, present, Option.bind_eq_bind, Option.bind_some, JobCell.of, stored, len]
    rfl
  · have len : memory.len = before.length + 1 := by rw [holds.len, List.length_append, List.length_singleton]
    have atRear : memory.rear = some rear := by simp [holds.rear]
    have listed : Heap.Listed JobCell.of heap memory.front (before ++ [(rear, last)]) :=
      ⟨holds.listed.distinct, (holds.listed.chain.alloc _).put holds.fresh _, holds.listed.head⟩
    have loaded : heap.load rear = some (JobCell.of last none) := listed.load_mid
    have stored' : heap.store rear (JobCell.of last (some memory.heap.cells.length)) = some _ := Heap.store_eq loaded _
    have longer : Heap.Listed JobCell.of (heap.put rear (some (JobCell.of last (some memory.heap.cells.length))))
        memory.front ((before ++ [(rear, last)]) ++ [(memory.heap.cells.length, job)]) := listed.snoc new holds.fresh
    refine ⟨_, ?_, holds.append job longer fun address outside other => ?_⟩
    · simp only [thpoolAddWork, jobqueuePush, alloc, present, Option.bind_eq_bind, Option.bind_some, JobCell.of, stored, len,
        atRear]
      simp only [heap, JobCell.of] at loaded stored'
      simp only [loaded, stored', Option.bind_some]
      rw [List.length_append, List.length_singleton]
      rfl
    · have apart : rear ≠ address := by
        rintro rfl
        simp at outside
      rw [Heap.load_put_ne _ apart, kept other]

theorem jobOf_set {threads : List (ThreadPlace Job)} {i : Nat} {old : ThreadPlace Job} (here : threads[i]? = some old)
    (new : ThreadPlace Job) (j : Nat) :
    jobOf (threads.set i new)[j]? = if j = i then jobOf (some new) else jobOf threads[j]? := by
  by_cases same : j = i
  · subst j
    rw [if_pos rfl, List.getElem?_set_self (List.getElem?_eq_some_iff.mp here).1]
  · rw [if_neg same, List.getElem?_set_ne (Ne.symm same)]

theorem Holds.held_eq_none (holds : memory.Holds pool entries) {i : Nat} (nothing : jobOf pool.threads[i]? = none) :
    memory.held i = none := by
  have held := holds.held i
  rw [nothing] at held
  simpa using held

theorem Holds.pull {i : Nat} (holds : memory.Holds pool entries) (here : pool.threads[i]? = some .pulling) {job : Job}
    {rest : List Job} (queue : pool.queue = job :: rest) :
    ∃ memory' entries', memory.jobqueuePull i = some memory' ∧ memory'.Holds (pool.take i job rest) entries' := by
  have jobs := holds.jobs
  rw [queue] at jobs
  obtain ⟨⟨address, job⟩, entries, rfl, rfl, rfl⟩ := List.map_eq_cons_iff.mp jobs
  have front : memory.front = some address := holds.listed.head.symm
  have loaded : memory.heap.load address = some (JobCell.of job (Heap.entrance none entries)) := holds.listed.chain.1
  have distinct := List.nodup_cons.mp holds.listed.distinct
  refine ⟨{ memory with
    front := Heap.entrance none entries
    rear := entries.getLast?.map Prod.fst
    len := entries.length
    held := Function.update memory.held i (some address) }, entries, ?_, ?_⟩
  · have len : memory.len = entries.length + 1 := holds.len
    have rear := holds.rear
    cases entries with
    | nil =>
        rw [jobqueuePull, len, front]
        rfl
    | cons next entries =>
        rw [List.getLast?_cons_cons] at rear
        simp only [jobqueuePull, len, List.length_cons, front, loaded, JobCell.of, Option.bind_eq_bind, Option.bind_some, rear]
        rfl
  · have free : memory.held i = none := holds.held_eq_none (by rw [here]; rfl)
    refine ⟨⟨distinct.2, holds.listed.chain.2, rfl⟩, rfl, rfl, rfl, fun j => ?_, fun j other held => ?_,
      fun j k other held held' => ?_, fun other present => ?_⟩
    · simp only [ThreadPool.take, ThreadPool.place, jobOf_set here, Function.update_apply]
      split
      · rfl
      · exact holds.held j
    · simp only [ThreadPool.take, ThreadPool.place, jobOf_set here, Function.update_apply] at held ⊢
      split at held
      · obtain rfl := Option.some.inj held
        exact ⟨distinct.1, _, loaded, if_pos ‹_›⟩
      · obtain ⟨outside, cell, present, same⟩ := holds.pulled j other held
        rw [List.map_cons, List.mem_cons, not_or] at outside
        exact ⟨outside.2, cell, present, by rw [if_neg ‹_›, same]⟩
    · simp only [Function.update_apply] at held held'
      split at held
      · split at held'
        · rw [‹j = i›, ‹k = i›]
        · obtain rfl := Option.some.inj held
          exact absurd List.mem_cons_self (holds.pulled k address held').1
      · split at held'
        · obtain rfl := Option.some.inj held'
          exact absurd List.mem_cons_self (holds.pulled j address held).1
        · exact holds.apart j k other held held'
    · rcases holds.live other present with queued | ⟨j, held⟩
      · rcases List.mem_cons.mp queued with rfl | queued
        · exact .inr ⟨i, Function.update_self _ _ _⟩
        · exact .inl queued
      · have elsewhere : j ≠ i := by
          rintro rfl
          rw [free] at held
          cases held
        exact .inr ⟨j, (Function.update_of_ne elsewhere _ _).trans held⟩

theorem Holds.free {i : Nat} (holds : memory.Holds pool entries) {job : Job} (here : pool.threads[i]? = some (.running job))
    (new : ThreadPlace Job) (idle : jobOf (some new) = none) :
    ∃ memory', memory.free i = some memory' ∧ memory'.Holds (pool.place i new) entries := by
  obtain ⟨address, held⟩ := Option.isSome_iff_exists.mp ((holds.held i).trans (by rw [here]; rfl))
  obtain ⟨outside, cell, loaded, -⟩ := holds.pulled i address held
  refine ⟨{ memory with heap := memory.heap.put address none, held := Function.update memory.held i none }, ?_, ?_⟩
  · simp only [JobMemory.free, held, Heap.free_eq loaded, Option.bind_eq_bind, Option.bind_some]
    rfl
  · have others {j other : Nat} (apart : j ≠ i) (held' : memory.held j = some other) : address ≠ other :=
      fun same => apart (holds.apart j i other held' (same ▸ held))
    refine ⟨⟨holds.listed.distinct, holds.listed.chain.put outside none, holds.listed.head⟩, holds.jobs, holds.rear,
      holds.len, fun j => ?_, fun j other held' => ?_, fun j k other held' held'' => ?_, fun other present => ?_⟩
    · simp only [ThreadPool.place, jobOf_set here, Function.update_apply]
      split
      · rw [idle]
        rfl
      · exact holds.held j
    · simp only [ThreadPool.place, jobOf_set here, Function.update_apply] at held' ⊢
      split at held'
      · cases held'
      · obtain ⟨outside', cell', present, same⟩ := holds.pulled j other held'
        exact ⟨outside', cell', by rw [Heap.load_put_ne _ (others ‹_› held'), present], by rw [if_neg ‹_›, same]⟩
    · simp only [Function.update_apply] at held' held''
      split at held'
      · cases held'
      · split at held''
        · cases held''
        · exact holds.apart j k other held' held''
    · by_cases freed : address = other
      · subst other
        rw [Heap.load_put_self loaded] at present
        cases present
      · rw [Heap.load_put_ne _ freed] at present
        rcases holds.live other present with queued | ⟨j, held'⟩
        · exact .inl queued
        · have elsewhere : j ≠ i := by
            rintro rfl
            exact freed (Option.some.inj (held.symm.trans held'))
          exact .inr ⟨j, (Function.update_of_ne elsewhere _ _).trans held'⟩

end

/-- Waking a thread up does not change what jobs run. -/
theorem jobOf_post {choice : Nat} (posted : pool.bsemPost choice = some pool') (j : Nat) :
    pool'.queue = pool.queue ∧ jobOf pool'.threads[j]? = jobOf pool.threads[j]? := by
  rcases bsemPost_eq posted with ⟨rfl, -⟩ | ⟨here, rfl⟩
  · exact ⟨rfl, rfl⟩
  · refine ⟨rfl, ?_⟩
    rw [jobOf_set here]
    split
    · subst j
      rw [here]
      rfl
    · rfl

theorem Holds.moved {entries : List (Nat × Job)} (holds : memory.Holds pool entries) {i : Nat} {old new : ThreadPlace Job}
    (here : pool.threads[i]? = some old) (threads : pool'.threads = pool.threads.set i new)
    (queue : pool'.queue = pool.queue) (same : jobOf (some new) = jobOf (some old)) : memory.Holds pool' entries := by
  refine holds.congr queue fun j => ?_
  rw [threads, jobOf_set here]
  split
  · subst j
    rw [same, here]
  · rfl

theorem Holds.thread {entries : List (Nat × Job)} {i choice : Nat} (holds : memory.Holds pool entries)
    (steps : ThreadSteps pool i choice pool') :
    ∃ memory' entries', memory.follow pool (.thread i choice) = some memory' ∧ memory'.Holds pool' entries' := by
  cases steps with
  | continues here | breaks here | takes here | sleeps here | goes here | turns here | enters here | finishes here
  | idles here | ends here =>
      simp only [follow, here]
      exact ⟨memory, entries, rfl, holds.moved here rfl rfl rfl⟩
  | pullsNothing here queue =>
      simp only [follow, here]
      have jobs := holds.jobs
      rw [queue, List.map_eq_nil_iff] at jobs
      subst jobs
      have front : memory.front = none := holds.listed.head.symm
      have free : memory.held i = none := holds.held_eq_none (by rw [here]; rfl)
      have stays : memory.jobqueuePull i = some memory := by
        have len : memory.len = 0 := holds.len
        have same : Function.update memory.held i none = memory.held := by rw [← free, Function.update_eq_self]
        simp only [jobqueuePull, len, front, same]
        rw [← front, ← len]
      exact ⟨memory, [], stays, holds.moved here rfl rfl rfl⟩
  | pullsLast here queue =>
      simp only [follow, here]
      exact holds.pull here queue
  | pulls here queue posted =>
      simp only [follow, here]
      obtain ⟨memory', entries', pulled, holds'⟩ := holds.pull here queue
      have woken := jobOf_post posted
      exact ⟨memory', entries', pulled, holds'.congr (woken 0).1 fun j => (woken j).2⟩
  | runs here =>
      simp only [follow, here]
      obtain ⟨memory', freed, holds'⟩ := holds.free here .finishing rfl
      exact ⟨memory', entries, freed, holds'.congr rfl fun _ => rfl⟩

theorem Holds.step {entries : List (Nat × Job)} {action : PoolAction Job} (holds : memory.Holds pool entries)
    (stepped : (threadPool Job).step pool action = some pool') :
    ∃ memory' entries', memory.follow pool action = some memory' ∧ memory'.Holds pool' entries' := by
  cases action with
  | thpoolAddWork job choice =>
      obtain ⟨memory', added, holds'⟩ := holds.push job
      have posted := jobOf_post stepped
      exact ⟨memory', _, added, holds'.congr (posted 0).1 fun i => (posted i).2⟩
  | thread i choice => exact holds.thread (threadStep_steps stepped)
  | thpoolWait | thpoolDestroy =>
      obtain rfl := Option.some.inj stepped
      exact ⟨memory, entries, rfl, holds.congr rfl fun _ => rfl⟩
  | waiter i =>
      obtain ⟨waiter, place, -, -, rfl⟩ := waiterStep_steps stepped
      exact ⟨memory, entries, rfl, holds.congr rfl fun _ => rfl⟩
  | wakeWaiter i =>
      obtain ⟨waiter, -, -, rfl⟩ := wakeWaiter_eq stepped
      exact ⟨memory, entries, rfl, holds.congr rfl fun _ => rfl⟩
  | wakeThread i =>
      obtain ⟨here, rfl⟩ := wakeThread_eq stepped
      exact ⟨memory, entries, rfl, holds.moved here rfl rfl rfl⟩
  | poll =>
      obtain ⟨-, -, rfl⟩ := poll_eq stepped
      refine ⟨memory, entries, rfl, holds.congr rfl fun i => ?_⟩
      rw [bsemPostAll, List.getElem?_map]
      cases pool.threads[i]? with
      | none => rfl
      | some place => cases place <;> rfl

/-- Before anything was added. -/
theorem holds_init (numThreads : Nat) : ({} : JobMemory Job).Holds (thpoolInit Job numThreads) [] where
  listed := ⟨List.nodup_nil, trivial, rfl⟩
  jobs := rfl
  rear := rfl
  len := rfl
  held i := by
    simp only [thpoolInit, List.getElem?_replicate]
    split <;> rfl
  pulled i address held := by cases held
  apart i j address held := by cases held
  live address present := by cases present

end JobMemory

theorem JobMemory.Holds.run {start pool : ThreadPool Job} {memory : JobMemory Job} {entries : List (Nat × Job)}
    (actions : List (PoolAction Job)) (holds : memory.Holds start entries)
    (ran : (threadPool Job).run start actions = some pool) :
    ∃ memory' entries', (pooledMemory Job).run (start, memory) actions = some (pool, memory') ∧
      memory'.Holds pool entries' := by
  induction actions generalizing start memory entries with
  | nil =>
      obtain rfl := Option.some.inj ran
      exact ⟨memory, entries, rfl, holds⟩
  | cons action actions ih =>
      obtain ⟨next, step, rest⟩ := Option.bind_eq_some_iff.mp ran
      obtain ⟨memory', entries', followed, holds'⟩ := holds.step step
      obtain ⟨memory'', entries'', ran', holds''⟩ := ih holds' rest
      refine ⟨memory'', entries'', ?_, holds''⟩
      have both : (pooledMemory Job).step (start, memory) action = some (next, memory') := by
        simp only [pooledMemory, step, followed, Option.bind_eq_bind, Option.bind_some]
        rfl
      rw [Machine.run, both, Option.bind_some, ran']

end Ipfs
