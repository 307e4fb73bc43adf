import Ipfs.Lib.Run

/-!
# The thread pool

Threads take jobs from a queue that they share. A step is a critical section, or a look at a variable that is read
without a lock. Which thread goes next is left open, and so is which of the sleepers a signal wakes.
-/

namespace Ipfs

variable {Job : Type}

/-! ## Places -/

/-- Where a thread is in `thread_do`. -/
inductive ThreadPlace (Job : Type)
  -- before `while(threads_keepalive)`
  | looping
  -- in `bsem_wait`, before it looks at the semaphore
  | waiting
  -- in `bsem_wait`, in `pthread_cond_wait`
  | sleeping
  -- before `if (threads_keepalive)`
  | woken
  -- before `num_threads_working++`
  | entering
  -- before `jobqueue_pull`
  | pulling
  | running (job : Job)
  -- before `num_threads_working--`
  | finishing
  -- before `num_threads_alive--`
  | ending
  | ended

/-- Where a caller is in `thpool_wait`. -/
inductive WaiterPlace
  -- before it has the lock
  | locking
  -- with the lock, and no job was in the queue
  | locked
  -- in `pthread_cond_wait`
  | sleeping
  | returned
  deriving DecidableEq

structure Waiter where
  place : WaiterPlace
  -- how many jobs had been added when it called
  before : Nat

namespace ThreadPlace

def isSleeping : ThreadPlace Job → Bool
  | .sleeping => true
  | _ => false

def isWaiting : ThreadPlace Job → Bool
  | .waiting => true
  | _ => false

/-- From the semaphore to the queue. -/
def isTaking : ThreadPlace Job → Bool
  | .woken | .entering | .pulling => true
  | _ => false

def isWorking : ThreadPlace Job → Bool
  | .pulling | .running _ | .finishing => true
  | _ => false

def isAlive : ThreadPlace Job → Bool
  | .ended => false
  | _ => true

/-- The job that it runs. -/
def carries : ThreadPlace Job → Multiset Job
  | .running job => {job}
  | _ => 0

end ThreadPlace

/-! ## The pool -/

/-- `thpool_`, the semaphore of the queue and `threads_keepalive`. -/
structure ThreadPool (Job : Type) where
  queue : List Job := []
  hasJobs : Bool := false
  threads : List (ThreadPlace Job)
  numThreadsAlive : Nat
  numThreadsWorking : Nat := 0
  keepalive : Bool := true
  waiters : List Waiter := []
  -- the jobs that were added, pulled and finished so far
  added : List Job := []
  pulled : List Job := []
  finished : List Job := []

/-- `pthread_cond_signal` wakes one that sleeps, if there is any. -/
def condSignal {α : Type} (sleeps : α → Bool) (wake : α → α) (choice : Nat) (places : List α) : Option (List α) :=
  if places.any sleeps then
    if places[choice]?.any sleeps then some (places.modify choice wake) else none
  else some places

def Waiter.sleeps (waiter : Waiter) : Bool := waiter.place = .sleeping

def Waiter.wake (waiter : Waiter) : Waiter := { waiter with place := .locking }

namespace ThreadPool

/-- `thpool_init`, when all threads have started. -/
def thpoolInit (Job : Type) (numThreads : Nat) : ThreadPool Job where
  threads := List.replicate numThreads .looping
  numThreadsAlive := numThreads

/-- Someone has `thcount_lock` over two steps. -/
def isLocked (pool : ThreadPool Job) : Bool := pool.waiters.any (·.place = .locked)

def place (i : Nat) (place : ThreadPlace Job) (pool : ThreadPool Job) : ThreadPool Job :=
  { pool with threads := pool.threads.set i place }

def bsemPost (choice : Nat) (pool : ThreadPool Job) : Option (ThreadPool Job) :=
  (condSignal ThreadPlace.isSleeping (fun _ => .waiting) choice pool.threads).map fun threads =>
    { pool with threads, hasJobs := true }

def bsemPostAll (pool : ThreadPool Job) : ThreadPool Job :=
  { pool with
    threads := pool.threads.map fun place => if place.isSleeping then .waiting else place
    hasJobs := true }

def jobqueuePush (job : Job) (choice : Nat) (pool : ThreadPool Job) : Option (ThreadPool Job) :=
  { pool with queue := pool.queue ++ [job], added := pool.added ++ [job] }.bsemPost choice

/-- The first job goes from the queue to the thread. -/
def take (i : Nat) (job : Job) (rest : List Job) (pool : ThreadPool Job) : ThreadPool Job :=
  { pool with queue := rest, pulled := pool.pulled ++ [job] }.place i (.running job)

/-- What it returns is left with the thread. -/
def jobqueuePull (i choice : Nat) (pool : ThreadPool Job) : Option (ThreadPool Job) :=
  match pool.queue with
  | [] => some (pool.place i .finishing)
  | [job] => some (pool.take i job [])
  -- more than one job in queue -> post it
  | job :: rest => (pool.take i job rest).bsemPost choice

/-- `num_threads_working--`. -/
def finish (i : Nat) (pool : ThreadPool Job) : ThreadPool Job :=
  { pool with numThreadsWorking := pool.numThreadsWorking - 1 }.place i .looping

/-- `pthread_cond_signal(&thpool_p->threads_all_idle)`. -/
def signalIdle (choice : Nat) (pool : ThreadPool Job) : Option (ThreadPool Job) :=
  (condSignal Waiter.sleeps Waiter.wake choice pool.waiters).map fun waiters => { pool with waiters }

/-- The next step of a thread in `thread_do`. -/
def threadStep (i choice : Nat) (pool : ThreadPool Job) : Option (ThreadPool Job) :=
  match pool.threads[i]? with
  | none | some .sleeping | some .ended => none
  | some .looping => some (pool.place i (if pool.keepalive then .waiting else .ending))
  | some .waiting =>
      if pool.hasJobs then some ({ pool with hasJobs := false }.place i .woken) else some (pool.place i .sleeping)
  | some .woken => some (pool.place i (if pool.keepalive then .entering else .looping))
  | some .entering =>
      if pool.isLocked then none
      else some ({ pool with numThreadsWorking := pool.numThreadsWorking + 1 }.place i .pulling)
  | some .pulling => pool.jobqueuePull i choice
  | some (.running job) => some ({ pool with finished := pool.finished ++ [job] }.place i .finishing)
  | some .finishing =>
      if pool.isLocked then none
      else
        let pool := pool.finish i
        if pool.numThreadsWorking = 0 then pool.signalIdle choice else some pool
  | some .ending =>
      if pool.isLocked then none
      else some ({ pool with numThreadsAlive := pool.numThreadsAlive - 1 }.place i .ended)

/-- The next step of a caller in `thpool_wait`. -/
def waiterStep (i : Nat) (pool : ThreadPool Job) : Option (ThreadPool Job) :=
  let moved (waiter : Waiter) (place : WaiterPlace) := some { pool with waiters := pool.waiters.set i { waiter with place } }
  match pool.waiters[i]? with
  | none => none
  | some waiter => match waiter.place with
      | .sleeping | .returned => none
      | .locking => if pool.isLocked then none else moved waiter (if pool.queue = [] then .locked else .sleeping)
      | .locked => moved waiter (if pool.numThreadsWorking = 0 then .returned else .sleeping)

end ThreadPool

/-- Whose step it is, and whom a signal in it wakes. -/
inductive PoolAction (Job : Type)
  | thpoolAddWork (job : Job) (choice : Nat)
  | thpoolWait
  | thread (i choice : Nat)
  | waiter (i : Nat)
  -- a sleeper may also wake up without a signal
  | wakeThread (i : Nat)
  | wakeWaiter (i : Nat)
  | thpoolDestroy
  -- a round of the loops in `thpool_destroy`
  | poll

def threadPool (Job : Type) : Machine (ThreadPool Job) (PoolAction Job) where
  step pool
    | .thpoolAddWork job choice => pool.jobqueuePush job choice
    | .thpoolWait => some { pool with waiters := pool.waiters ++ [⟨.locking, pool.added.length⟩] }
    | .thread i choice => pool.threadStep i choice
    | .waiter i => pool.waiterStep i
    | .wakeThread i => if pool.threads[i]?.any ThreadPlace.isSleeping then some (pool.place i .waiting) else none
    | .wakeWaiter i =>
        if pool.waiters[i]?.any Waiter.sleeps then some { pool with waiters := pool.waiters.modify i Waiter.wake } else none
    | .thpoolDestroy => some { pool with keepalive := false }
    | .poll => if pool.keepalive ∨ pool.numThreadsAlive = 0 then none else some pool.bsemPostAll

/-! ## Sums over places -/

section
variable {M α : Type} [AddCommMonoid M]

theorem sum_set (f : α → M) {places : List α} {i : Nat} {old : α} (here : places[i]? = some old) (new : α) :
    ((places.set i new).map f).sum + f old = (places.map f).sum + f new := by
  induction places generalizing i with
  | nil => cases here
  | cons place places ih =>
      cases i with
      | zero =>
          obtain rfl := Option.some.inj here
          simp only [List.set_cons_zero, List.map_cons, List.sum_cons]
          abel
      | succ i =>
          simp only [List.set_cons_succ, List.map_cons, List.sum_cons, add_assoc, ih here]

end

theorem modify_eq_set_of_getElem? {α : Type} {places : List α} {i : Nat} {place : α} (here : places[i]? = some place)
    (f : α → α) : places.modify i f = places.set i (f place) := by
  obtain ⟨inside, rfl⟩ := List.getElem?_eq_some_iff.mp here
  apply List.ext_getElem?
  intro j
  rw [List.getElem?_modify, List.getElem?_set]
  by_cases same : i = j
  · subst j
    simp [inside]
  · simp [same]

theorem condSignal_eq_some {α : Type} {sleeps : α → Bool} {wake : α → α} {choice : Nat} {places places' : List α}
    (signalled : condSignal sleeps wake choice places = some places') :
    (places' = places ∧ ∀ place ∈ places, sleeps place = false) ∨
      ∃ place, places[choice]? = some place ∧ sleeps place ∧ places' = places.set choice (wake place) := by
  unfold condSignal at signalled
  split at signalled
  · split at signalled
    · obtain rfl := Option.some.inj signalled
      rename_i chosen
      obtain ⟨place, here, asleep⟩ := (Option.any_eq_true _ _).mp chosen
      exact .inr ⟨place, here, asleep, modify_eq_set_of_getElem? here wake⟩
    · cases signalled
  · obtain rfl := Option.some.inj signalled
    rename_i none
    exact .inl ⟨rfl, by simpa using none⟩

namespace ThreadPool
variable {pool pool' : ThreadPool Job}

/-! ## What a step does -/

inductive ThreadSteps (pool : ThreadPool Job) (i choice : Nat) : ThreadPool Job → Prop
  | continues (here : pool.threads[i]? = some .looping) (keepalive : pool.keepalive = true) :
      ThreadSteps pool i choice (pool.place i .waiting)
  | breaks (here : pool.threads[i]? = some .looping) (keepalive : pool.keepalive = false) :
      ThreadSteps pool i choice (pool.place i .ending)
  | takes (here : pool.threads[i]? = some .waiting) (hasJobs : pool.hasJobs = true) :
      ThreadSteps pool i choice ({ pool with hasJobs := false }.place i .woken)
  | sleeps (here : pool.threads[i]? = some .waiting) (hasJobs : pool.hasJobs = false) :
      ThreadSteps pool i choice (pool.place i .sleeping)
  | goes (here : pool.threads[i]? = some .woken) (keepalive : pool.keepalive = true) :
      ThreadSteps pool i choice (pool.place i .entering)
  | turns (here : pool.threads[i]? = some .woken) (keepalive : pool.keepalive = false) :
      ThreadSteps pool i choice (pool.place i .looping)
  | enters (here : pool.threads[i]? = some .entering) (unlocked : pool.isLocked = false) :
      ThreadSteps pool i choice ({ pool with numThreadsWorking := pool.numThreadsWorking + 1 }.place i .pulling)
  | pullsNothing (here : pool.threads[i]? = some .pulling) (queue : pool.queue = []) :
      ThreadSteps pool i choice (pool.place i .finishing)
  | pullsLast {job : Job} (here : pool.threads[i]? = some .pulling) (queue : pool.queue = [job]) :
      ThreadSteps pool i choice (pool.take i job [])
  | pulls {job : Job} {rest : List Job} {pool' : ThreadPool Job} (here : pool.threads[i]? = some .pulling)
      (queue : pool.queue = job :: rest) (posted : (pool.take i job rest).bsemPost choice = some pool') :
      ThreadSteps pool i choice pool'
  | runs {job : Job} (here : pool.threads[i]? = some (.running job)) :
      ThreadSteps pool i choice ({ pool with finished := pool.finished ++ [job] }.place i .finishing)
  | finishes (here : pool.threads[i]? = some .finishing) (unlocked : pool.isLocked = false)
      (others : pool.numThreadsWorking - 1 ≠ 0) : ThreadSteps pool i choice (pool.finish i)
  | idles {waiters : List Waiter} (here : pool.threads[i]? = some .finishing) (unlocked : pool.isLocked = false)
      (none : pool.numThreadsWorking - 1 = 0)
      (signalled : condSignal Waiter.sleeps Waiter.wake choice pool.waiters = some waiters) :
      ThreadSteps pool i choice { pool.finish i with waiters }
  | ends (here : pool.threads[i]? = some .ending) (unlocked : pool.isLocked = false) :
      ThreadSteps pool i choice ({ pool with numThreadsAlive := pool.numThreadsAlive - 1 }.place i .ended)

theorem threadStep_steps {i choice : Nat} (stepped : pool.threadStep i choice = some pool') :
    ThreadSteps pool i choice pool' := by
  unfold threadStep at stepped
  cases here : pool.threads[i]? with
  | none => simp [here] at stepped
  | some place =>
      simp only [here] at stepped
      cases place with
      | sleeping | ended => cases stepped
      | looping =>
          obtain rfl := Option.some.inj stepped
          cases keepalive : pool.keepalive
          · exact .breaks here keepalive
          · exact .continues here keepalive
      | waiting =>
          cases hasJobs : pool.hasJobs with
          | false =>
              simp only [hasJobs] at stepped
              obtain rfl := Option.some.inj stepped
              exact .sleeps here hasJobs
          | true =>
              simp only [hasJobs] at stepped
              obtain rfl := Option.some.inj stepped
              exact .takes here hasJobs
      | woken =>
          obtain rfl := Option.some.inj stepped
          cases keepalive : pool.keepalive
          · exact .turns here keepalive
          · exact .goes here keepalive
      | entering =>
          cases unlocked : pool.isLocked with
          | true => simp [unlocked] at stepped
          | false =>
              simp only [unlocked] at stepped
              obtain rfl := Option.some.inj stepped
              exact .enters here unlocked
      | pulling =>
          simp only [jobqueuePull] at stepped
          split at stepped
          · rename_i queue
            obtain rfl := Option.some.inj stepped
            exact .pullsNothing here queue
          · rename_i queue
            obtain rfl := Option.some.inj stepped
            exact .pullsLast here queue
          · rename_i queue
            exact .pulls here queue stepped
      | running job =>
          obtain rfl := Option.some.inj stepped
          exact .runs here
      | finishing =>
          cases unlocked : pool.isLocked with
          | true => simp [unlocked] at stepped
          | false =>
              simp only [unlocked, Bool.false_eq_true, if_false] at stepped
              split at stepped
              · rename_i none
                obtain ⟨waiters, signalled, rfl⟩ := Option.map_eq_some_iff.mp stepped
                exact .idles here unlocked none signalled
              · rename_i others
                obtain rfl := Option.some.inj stepped
                exact .finishes here unlocked others
      | ending =>
          cases unlocked : pool.isLocked with
          | true => simp [unlocked] at stepped
          | false =>
              simp only [unlocked] at stepped
              obtain rfl := Option.some.inj stepped
              exact .ends here unlocked

/-- What a caller in `thpool_wait` does in a step. -/
inductive WaiterSteps (pool : ThreadPool Job) (waiter : Waiter) : WaiterPlace → Prop
  | looks (here : waiter.place = .locking) (unlocked : pool.isLocked = false) :
      WaiterSteps pool waiter (if pool.queue = [] then .locked else .sleeping)
  | counts (here : waiter.place = .locked) :
      WaiterSteps pool waiter (if pool.numThreadsWorking = 0 then .returned else .sleeping)

theorem waiterStep_steps {i : Nat} (stepped : pool.waiterStep i = some pool') :
    ∃ waiter place, pool.waiters[i]? = some waiter ∧ WaiterSteps pool waiter place ∧
      pool' = { pool with waiters := pool.waiters.set i { waiter with place } } := by
  unfold waiterStep at stepped
  cases here : pool.waiters[i]? with
  | none => simp [here] at stepped
  | some waiter =>
      simp only [here] at stepped
      cases place : waiter.place with
      | sleeping | returned => simp [place] at stepped
      | locking =>
          cases unlocked : pool.isLocked with
          | true => simp [place, unlocked] at stepped
          | false =>
              simp only [place, unlocked] at stepped
              exact ⟨waiter, _, rfl, .looks place unlocked, (Option.some.inj stepped).symm⟩
      | locked =>
          simp only [place] at stepped
          exact ⟨waiter, _, rfl, .counts place, (Option.some.inj stepped).symm⟩

/-- How many threads are in such a place. -/
def tally (test : ThreadPlace Job → Bool) (pool : ThreadPool Job) : Nat := (pool.threads.map fun place => (test place).toNat).sum

theorem tally_place {i : Nat} {old : ThreadPlace Job} (here : pool.threads[i]? = some old) (new : ThreadPlace Job)
    (test : ThreadPlace Job → Bool) :
    (pool.place i new).tally test + (test old).toNat = pool.tally test + (test new).toNat :=
  sum_set _ here new

theorem tally_pos {test : ThreadPlace Job → Bool} : 0 < pool.tally test ↔ ∃ place ∈ pool.threads, test place := by
  rw [tally, Nat.pos_iff_ne_zero, Ne, List.sum_eq_zero_iff]
  simp

/-! ## What every run keeps -/

/-- Each job that was added is in the queue, with a thread or finished, and they leave the queue in the order in which
they came. -/
structure Accounted (pool : ThreadPool Job) : Prop where
  fifo : pool.pulled ++ pool.queue = pool.added
  carried : (pool.finished : Multiset Job) + (pool.threads.map ThreadPlace.carries).sum = pool.pulled
  working : pool.numThreadsWorking = pool.tally ThreadPlace.isWorking
  alive : pool.numThreadsAlive = pool.tally ThreadPlace.isAlive

/-- No sleeper is forgotten. -/
structure Roused (pool : ThreadPool Job) : Prop where
  awake : pool.hasJobs → 0 < pool.tally ThreadPlace.isSleeping → 0 < pool.tally ThreadPlace.isWaiting
  underway : pool.queue ≠ [] → pool.keepalive → pool.hasJobs ∨ 0 < pool.tally ThreadPlace.isTaking

theorem Accounted.place (accounted : pool.Accounted) {i : Nat} {old new : ThreadPlace Job}
    (here : pool.threads[i]? = some old) (threads : pool'.threads = pool.threads.set i new)
    (fifo : pool'.pulled ++ pool'.queue = pool'.added)
    (carried : (pool'.finished : Multiset Job) + new.carries + pool.pulled = pool.finished + old.carries + pool'.pulled)
    (working : pool'.numThreadsWorking + old.isWorking.toNat = pool.numThreadsWorking + new.isWorking.toNat)
    (alive : pool'.numThreadsAlive + old.isAlive.toNat = pool.numThreadsAlive + new.isAlive.toNat) : pool'.Accounted := by
  have moved (test : ThreadPlace Job → Bool) : pool'.tally test + (test old).toNat = pool.tally test + (test new).toNat := by
    have := tally_place here new test
    rwa [tally, ThreadPool.place, ← threads] at this
  refine ⟨fifo, ?_, ?_, ?_⟩
  · have sums := sum_set ThreadPlace.carries here new
    rw [← threads] at sums
    have both : (pool'.finished : Multiset Job) + (pool'.threads.map ThreadPlace.carries).sum +
        (pool.finished + old.carries) = pool'.pulled + (pool.finished + old.carries) := by
      calc (pool'.finished : Multiset Job) + (pool'.threads.map ThreadPlace.carries).sum + (pool.finished + old.carries)
          = pool'.finished + pool.finished + ((pool'.threads.map ThreadPlace.carries).sum + old.carries) := by abel
        _ = pool'.finished + new.carries + (pool.finished + (pool.threads.map ThreadPlace.carries).sum) := by
          rw [sums]
          abel
        _ = pool.finished + old.carries + pool'.pulled := by rw [accounted.carried, carried]
        _ = pool'.pulled + (pool.finished + old.carries) := by abel
    exact add_right_cancel both
  · have := moved ThreadPlace.isWorking
    rw [accounted.working] at working
    omega
  · have := moved ThreadPlace.isAlive
    rw [accounted.alive] at alive
    omega

/-- A sleeper that is woken does not change the account. -/
theorem Accounted.wake (accounted : pool.Accounted) {i : Nat} (here : pool.threads[i]? = some .sleeping)
    (hasJobs : Bool) : ({ pool with hasJobs, threads := pool.threads.set i .waiting } : ThreadPool Job).Accounted :=
  accounted.place here rfl accounted.fifo (by abel) rfl rfl

theorem bsemPost_eq {choice : Nat} (posted : pool.bsemPost choice = some pool') :
    (pool' = { pool with hasJobs := true } ∧ pool.tally ThreadPlace.isSleeping = 0) ∨
      (pool.threads[choice]? = some .sleeping ∧
        pool' = { pool with hasJobs := true, threads := pool.threads.set choice .waiting }) := by
  obtain ⟨threads, signalled, rfl⟩ := Option.map_eq_some_iff.mp posted
  rcases condSignal_eq_some signalled with ⟨rfl, none⟩ | ⟨place, here, asleep, rfl⟩
  · refine .inl ⟨rfl, ?_⟩
    by_contra some
    obtain ⟨place, mem, asleep⟩ := tally_pos.mp (Nat.pos_of_ne_zero some)
    rw [none place mem] at asleep
    cases asleep
  · cases place with
    | sleeping => exact .inr ⟨here, rfl⟩
    | _ => cases asleep

theorem Accounted.post {choice : Nat} (accounted : pool.Accounted) (posted : pool.bsemPost choice = some pool') :
    pool'.Accounted := by
  rcases bsemPost_eq posted with ⟨rfl, -⟩ | ⟨here, rfl⟩
  · exact ⟨accounted.fifo, accounted.carried, accounted.working, accounted.alive⟩
  · exact accounted.wake here true

/-- A post wakes one of the sleepers. -/
theorem roused_of_post {choice : Nat} (posted : pool.bsemPost choice = some pool') : pool'.Roused := by
  rcases bsemPost_eq posted with ⟨rfl, none⟩ | ⟨here, rfl⟩
  · refine ⟨fun _ asleep => ?_, fun _ _ => .inl rfl⟩
    rw [← none] at asleep
    exact absurd asleep (Nat.lt_irrefl _)
  · refine ⟨fun _ _ => tally_pos.mpr ⟨.waiting, ?_, rfl⟩, fun _ _ => .inl rfl⟩
    exact List.mem_of_getElem? (List.getElem?_set_self (List.getElem?_eq_some_iff.mp here).1)

theorem Accounted.push {job : Job} {choice : Nat} (accounted : pool.Accounted)
    (pushed : pool.jobqueuePush job choice = some pool') : pool'.Accounted := by
  have queued : ({ pool with queue := pool.queue ++ [job], added := pool.added ++ [job] } : ThreadPool Job).Accounted :=
    ⟨by rw [← accounted.fifo, List.append_assoc], accounted.carried, accounted.working, accounted.alive⟩
  exact queued.post pushed

theorem Accounted.take (accounted : pool.Accounted) {i : Nat} {job : Job} {rest : List Job}
    (here : pool.threads[i]? = some .pulling) (queue : pool.queue = job :: rest) : (pool.take i job rest).Accounted := by
  refine accounted.place here rfl ?_ ?_ rfl rfl
  · have fifo := accounted.fifo
    rw [queue] at fifo
    simpa [ThreadPool.take, ThreadPool.place] using fifo
  · simp only [ThreadPlace.carries, ThreadPool.take, ThreadPool.place, add_zero, ← Multiset.coe_singleton,
      Multiset.coe_add]
    rw [Multiset.coe_eq_coe, List.append_assoc]
    exact List.perm_append_comm.append_left _

theorem Accounted.waiters (accounted : pool.Accounted) (waiters : List Waiter) :
    ({ pool with waiters } : ThreadPool Job).Accounted :=
  ⟨accounted.fifo, accounted.carried, accounted.working, accounted.alive⟩

theorem Accounted.finish (accounted : pool.Accounted) {i : Nat} (here : pool.threads[i]? = some .finishing) :
    (pool.finish i).Accounted := by
  have busy : 0 < pool.numThreadsWorking := by
    rw [accounted.working]
    exact tally_pos.mpr ⟨_, List.mem_of_getElem? here, rfl⟩
  exact accounted.place here rfl accounted.fifo rfl (Nat.sub_add_cancel busy) rfl

theorem Accounted.thread {i choice : Nat} (accounted : pool.Accounted) (steps : ThreadSteps pool i choice pool') :
    pool'.Accounted := by
  cases steps with
  | continues here | breaks here | takes here | sleeps here | goes here | turns here | enters here | pullsNothing here =>
      exact accounted.place here rfl accounted.fifo rfl rfl rfl
  | pullsLast here queue => exact accounted.take here queue
  | pulls here queue posted => exact (accounted.take here queue).post posted
  | runs here =>
      refine accounted.place here rfl accounted.fifo ?_ rfl rfl
      simp only [ThreadPlace.carries, ThreadPool.place, add_zero, ← Multiset.coe_singleton, Multiset.coe_add]
  | finishes here => exact accounted.finish here
  | idles here => exact (accounted.finish here).waiters _
  | ends here =>
      have living : 0 < pool.numThreadsAlive := by
        rw [accounted.alive]
        exact tally_pos.mpr ⟨_, List.mem_of_getElem? here, rfl⟩
      exact accounted.place here rfl accounted.fifo rfl rfl (Nat.sub_add_cancel living)

theorem wakeThread_eq {i : Nat} (stepped : (threadPool Job).step pool (.wakeThread i) = some pool') :
    pool.threads[i]? = some .sleeping ∧ pool' = pool.place i .waiting := by
  simp only [threadPool] at stepped
  split at stepped
  · rename_i asleep
    obtain ⟨place, here, asleep⟩ := (Option.any_eq_true _ _).mp asleep
    cases place with
    | sleeping => exact ⟨here, (Option.some.inj stepped).symm⟩
    | _ => cases asleep
  · cases stepped

theorem wakeWaiter_eq {i : Nat} (stepped : (threadPool Job).step pool (.wakeWaiter i) = some pool') :
    ∃ waiter, pool.waiters[i]? = some waiter ∧ waiter.place = .sleeping ∧
      pool' = { pool with waiters := pool.waiters.set i waiter.wake } := by
  simp only [threadPool] at stepped
  split at stepped
  · rename_i asleep
    obtain ⟨waiter, here, asleep⟩ := (Option.any_eq_true _ _).mp asleep
    refine ⟨waiter, here, of_decide_eq_true asleep, ?_⟩
    rw [← modify_eq_set_of_getElem? here]
    exact (Option.some.inj stepped).symm
  · cases stepped

theorem poll_eq (stepped : (threadPool Job).step pool .poll = some pool') :
    pool.keepalive = false ∧ pool.numThreadsAlive ≠ 0 ∧ pool' = pool.bsemPostAll := by
  simp only [threadPool] at stepped
  split at stepped
  · cases stepped
  · rename_i dying
    rw [not_or, Bool.not_eq_true] at dying
    exact ⟨dying.1, dying.2, (Option.some.inj stepped).symm⟩

/-- What does not tell sleeping from waiting is not changed when all are woken. -/
theorem tally_postAll {test : ThreadPlace Job → Bool} (same : test .sleeping = test .waiting) :
    pool.bsemPostAll.tally test = pool.tally test := by
  rw [tally, tally, bsemPostAll, List.map_map]
  congr 1
  apply List.map_congr_left
  intro place _
  cases place <;> simp [ThreadPlace.isSleeping, same]

theorem Accounted.postAll (accounted : pool.Accounted) : pool.bsemPostAll.Accounted := by
  refine ⟨accounted.fifo, ?_, ?_, ?_⟩
  · have same : pool.bsemPostAll.threads.map ThreadPlace.carries = pool.threads.map ThreadPlace.carries := by
      rw [bsemPostAll, List.map_map]
      apply List.map_congr_left
      intro place _
      cases place <;> rfl
    rw [same]
    exact accounted.carried
  · exact accounted.working.trans (tally_postAll rfl).symm
  · exact accounted.alive.trans (tally_postAll rfl).symm

theorem Accounted.step {action : PoolAction Job} (accounted : pool.Accounted)
    (stepped : (threadPool Job).step pool action = some pool') : pool'.Accounted := by
  cases action with
  | thpoolAddWork job choice => exact accounted.push stepped
  | thpoolWait =>
      obtain rfl := Option.some.inj stepped
      exact accounted.waiters _
  | thread i choice => exact accounted.thread (threadStep_steps stepped)
  | waiter i =>
      obtain ⟨waiter, place, -, -, rfl⟩ := waiterStep_steps stepped
      exact accounted.waiters _
  | wakeThread i =>
      obtain ⟨here, rfl⟩ := wakeThread_eq stepped
      exact accounted.wake here pool.hasJobs
  | wakeWaiter i =>
      obtain ⟨waiter, -, -, rfl⟩ := wakeWaiter_eq stepped
      exact accounted.waiters _
  | thpoolDestroy =>
      obtain rfl := Option.some.inj stepped
      exact ⟨accounted.fifo, accounted.carried, accounted.working, accounted.alive⟩
  | poll =>
      obtain ⟨-, -, rfl⟩ := poll_eq stepped
      exact accounted.postAll

theorem accounted_init (numThreads : Nat) : (thpoolInit Job numThreads).Accounted where
  fifo := rfl
  carried := by simp [thpoolInit, ThreadPlace.carries]
  working := by simp [thpoolInit, tally, ThreadPlace.isWorking]
  alive := by simp [thpoolInit, tally, ThreadPlace.isAlive]

/-! ## Those who wait -/

/-- What one who waits can rely on. -/
structure Serves (pool : ThreadPool Job) (waiter : Waiter) : Prop where
  before : waiter.before ≤ pool.added.length
  locked : waiter.place = .locked → waiter.before ≤ pool.pulled.length
  returned : waiter.place = .returned → (pool.added.take waiter.before : Multiset Job) ≤ pool.finished

/-- No record is ever taken back. -/
structure Grows (pool pool' : ThreadPool Job) : Prop where
  added : pool.added <+: pool'.added
  pulled : pool.pulled <+: pool'.pulled
  finished : pool.finished <+: pool'.finished

theorem Serves.mono {waiter : Waiter} (serves : pool.Serves waiter) (grows : pool.Grows pool') : pool'.Serves waiter where
  before := serves.before.trans grows.added.length_le
  locked place := (serves.locked place).trans grows.pulled.length_le
  returned place := by
    obtain ⟨more, added⟩ := grows.added
    rw [← added, List.take_append_of_le_length serves.before]
    exact (serves.returned place).trans (Multiset.coe_le.mpr grows.finished.sublist.subperm)

theorem Grows.refl (pool : ThreadPool Job) : pool.Grows pool := ⟨List.prefix_rfl, List.prefix_rfl, List.prefix_rfl⟩

theorem Grows.post {choice : Nat} {start : ThreadPool Job} (grows : start.Grows pool)
    (posted : pool.bsemPost choice = some pool') : start.Grows pool' := by
  rcases bsemPost_eq posted with ⟨rfl, -⟩ | ⟨-, rfl⟩
  · exact ⟨grows.added, grows.pulled, grows.finished⟩
  · exact ⟨grows.added, grows.pulled, grows.finished⟩

theorem Grows.thread {i choice : Nat} (steps : ThreadSteps pool i choice pool') : pool.Grows pool' := by
  have taken (job : Job) (rest : List Job) : pool.Grows (pool.take i job rest) :=
    ⟨List.prefix_rfl, List.prefix_append _ _, List.prefix_rfl⟩
  cases steps with
  | continues | breaks | takes | sleeps | goes | turns | enters | pullsNothing | finishes | idles | ends =>
      exact ⟨List.prefix_rfl, List.prefix_rfl, List.prefix_rfl⟩
  | pullsLast => exact taken _ _
  | pulls _ _ posted => exact (taken _ _).post posted
  | runs => exact ⟨List.prefix_rfl, List.prefix_rfl, List.prefix_append _ _⟩

theorem ThreadSteps.waiters {i choice : Nat} (steps : ThreadSteps pool i choice pool') :
    pool'.waiters = pool.waiters ∨
      condSignal Waiter.sleeps Waiter.wake choice pool.waiters = some pool'.waiters := by
  cases steps with
  | idles _ _ _ signalled => exact .inr signalled
  | pulls _ _ posted =>
      rcases bsemPost_eq posted with ⟨rfl, -⟩ | ⟨-, rfl⟩
      · exact .inl rfl
      · exact .inl rfl
  | _ => exact .inl rfl

theorem Serves.wake {waiter : Waiter} (serves : pool.Serves waiter) : pool.Serves waiter.wake where
  before := serves.before
  locked := by simp [Waiter.wake]
  returned := by simp [Waiter.wake]

theorem Serves.signal {choice : Nat} {waiters : List Waiter} (serves : ∀ waiter ∈ pool.waiters, pool.Serves waiter)
    (signalled : condSignal Waiter.sleeps Waiter.wake choice pool.waiters = some waiters) :
    ∀ waiter ∈ waiters, pool.Serves waiter := by
  rcases condSignal_eq_some signalled with ⟨rfl, -⟩ | ⟨sleeper, here, -, rfl⟩
  · exact serves
  · intro waiter mem
    rcases List.mem_or_eq_of_mem_set mem with old | rfl
    · exact serves waiter old
    · exact (serves sleeper (List.mem_of_getElem? here)).wake

theorem Accounted.all_finished (accounted : pool.Accounted) (idle : pool.numThreadsWorking = 0) :
    (pool.finished : Multiset Job) = pool.pulled := by
  have none : (pool.threads.map ThreadPlace.carries).sum = 0 := by
    apply List.sum_eq_zero
    rw [List.forall_mem_map]
    intro place mem
    rw [accounted.working, tally, List.sum_eq_zero_iff, List.forall_mem_map] at idle
    have resting := idle place mem
    cases place with
    | running job => cases resting
    | _ => rfl
  rw [← accounted.carried, none, add_zero]

theorem Accounted.serves_steps (accounted : pool.Accounted) {waiter : Waiter} (serves : pool.Serves waiter)
    {place : WaiterPlace} (steps : WaiterSteps pool waiter place) : pool.Serves { waiter with place } := by
  refine ⟨serves.before, fun locked => ?_, fun returned => ?_⟩
  · cases steps with
    | looks =>
        split at locked
        · rename_i empty
          have fifo := accounted.fifo
          rw [empty, List.append_nil] at fifo
          exact fifo ▸ serves.before
        · cases locked
    | counts => split at locked <;> cases locked
  · cases steps with
    | looks => split at returned <;> cases returned
    | counts here =>
        split at returned
        · rename_i idle
          have pulled := serves.locked here
          rw [accounted.all_finished idle, ← accounted.fifo, List.take_append_of_le_length pulled]
          exact Multiset.coe_le.mpr (List.take_sublist _ _).subperm
        · cases returned

/-- What is kept for those who wait. -/
structure Waits (pool : ThreadPool Job) : Prop where
  accounted : pool.Accounted
  serves : ∀ waiter ∈ pool.waiters, pool.Serves waiter

theorem Waits.step {action : PoolAction Job} (waits : pool.Waits)
    (stepped : (threadPool Job).step pool action = some pool') : pool'.Waits := by
  refine ⟨waits.accounted.step stepped, ?_⟩
  cases action with
  | thpoolAddWork job choice =>
      have queued : pool.Grows { pool with queue := pool.queue ++ [job], added := pool.added ++ [job] } :=
        ⟨List.prefix_append _ _, List.prefix_rfl, List.prefix_rfl⟩
      have same : pool'.waiters = pool.waiters := by
        rcases bsemPost_eq stepped with ⟨rfl, -⟩ | ⟨-, rfl⟩ <;> rfl
      rw [same]
      exact fun waiter mem => (waits.serves waiter mem).mono (queued.post stepped)
  | thpoolWait =>
      obtain rfl := Option.some.inj stepped
      simp only [List.mem_append, List.mem_singleton]
      rintro waiter (old | rfl)
      · exact (waits.serves waiter old).mono ⟨List.prefix_rfl, List.prefix_rfl, List.prefix_rfl⟩
      · exact ⟨le_rfl, fun locked => (by cases locked), fun returned => (by cases returned)⟩
  | thread i choice =>
      have steps := threadStep_steps stepped
      rcases steps.waiters with same | signalled
      · rw [same]
        exact fun waiter mem => (waits.serves waiter mem).mono (.thread steps)
      · exact fun waiter mem => (Serves.signal waits.serves signalled waiter mem).mono (.thread steps)
  | waiter i =>
      obtain ⟨waiter, place, here, steps, rfl⟩ := waiterStep_steps stepped
      have serves := waits.accounted.serves_steps (waits.serves waiter (List.mem_of_getElem? here)) steps
      intro waiter' mem
      rcases List.mem_or_eq_of_mem_set mem with old | rfl
      · exact (waits.serves waiter' old).mono ⟨List.prefix_rfl, List.prefix_rfl, List.prefix_rfl⟩
      · exact serves.mono ⟨List.prefix_rfl, List.prefix_rfl, List.prefix_rfl⟩
  | wakeThread i =>
      obtain ⟨here, rfl⟩ := wakeThread_eq stepped
      exact fun waiter mem => (waits.serves waiter mem).mono ⟨List.prefix_rfl, List.prefix_rfl, List.prefix_rfl⟩
  | wakeWaiter i =>
      obtain ⟨waiter, here, -, rfl⟩ := wakeWaiter_eq stepped
      intro waiter' mem
      rcases List.mem_or_eq_of_mem_set mem with old | rfl
      · exact (waits.serves waiter' old).mono ⟨List.prefix_rfl, List.prefix_rfl, List.prefix_rfl⟩
      · have serves := (waits.serves waiter (List.mem_of_getElem? here)).wake
        exact serves.mono ⟨List.prefix_rfl, List.prefix_rfl, List.prefix_rfl⟩
  | thpoolDestroy =>
      obtain rfl := Option.some.inj stepped
      exact fun waiter mem => (waits.serves waiter mem).mono ⟨List.prefix_rfl, List.prefix_rfl, List.prefix_rfl⟩
  | poll =>
      obtain ⟨-, -, rfl⟩ := poll_eq stepped
      exact fun waiter mem => (waits.serves waiter mem).mono ⟨List.prefix_rfl, List.prefix_rfl, List.prefix_rfl⟩

end ThreadPool

open ThreadPool

/-- One job, and one who waits for it. -/
def oneJob : List (PoolAction Nat) :=
  [.thpoolAddWork 7 0, .thread 0 0, .thread 0 0, .thread 0 0, .thread 0 0, .thread 0 0, .thread 0 0, .thpoolWait,
    .waiter 0, .waiter 0, .thread 0 0, .waiter 0, .waiter 0]

end Ipfs
