import Ipfs.Util.ThreadPool

/-!
# The thread pool comes to rest

Whoever goes next, the threads come to a point where none of them can go on, and there all the jobs are done.
-/

namespace Ipfs

variable {Job : Type}

namespace ThreadPlace

def isLeaving : ThreadPlace Job → Bool
  | .ending | .ended => true
  | _ => false

/-- Neither at the semaphore nor at its end. -/
def isBusy : ThreadPlace Job → Bool
  | .waiting | .sleeping | .ended => false
  | _ => true

/-- How many steps a thread can take from there, when it finds no job and wakes nobody. -/
def weight : ThreadPlace Job → Nat
  | .sleeping | .ended => 0
  | .waiting | .ending => 1
  | .looping => 2
  | .finishing => 5
  | .pulling | .running _ => 6
  | .entering => 7
  | .woken => 8

end ThreadPlace

def Waiter.weight (waiter : Waiter) : Nat :=
  match waiter.place with
  | .locking => 2
  | .locked => 1
  | .sleeping | .returned => 0

/-- A step that a thread of the pool takes, or one who waits, and not on a whim. -/
def PoolAction.isOwn : PoolAction Job → Bool
  | .thread _ _ | .waiter _ => true
  | _ => false

namespace ThreadPool
variable {pool pool' : ThreadPool Job}

/-- Each job takes a thread around its loop once, and so does the semaphore. -/
def measure (pool : ThreadPool Job) : Nat :=
  10 * pool.queue.length + 8 * pool.hasJobs.toNat + (pool.threads.map ThreadPlace.weight).sum +
    (pool.waiters.map Waiter.weight).sum

def Resting (pool : ThreadPool Job) : Prop :=
  ∀ action : PoolAction Job, action.isOwn → (threadPool Job).step pool action = none

/-! ## Steps -/

theorem weight_wake {choice : Nat} {waiters waiters' : List Waiter}
    (signalled : condSignal Waiter.sleeps Waiter.wake choice waiters = some waiters') :
    (waiters'.map Waiter.weight).sum ≤ (waiters.map Waiter.weight).sum + 2 := by
  rcases condSignal_eq_some signalled with ⟨rfl, -⟩ | ⟨waiter, here, -, rfl⟩
  · omega
  · have sums := sum_set Waiter.weight here waiter.wake
    have awake : waiter.wake.weight = 2 := rfl
    omega

theorem measure_post {choice : Nat} (posted : pool.bsemPost choice = some pool') :
    pool'.measure ≤ pool.measure + 9 := by
  have bound := Bool.toNat_le pool.hasJobs
  rcases bsemPost_eq posted with ⟨rfl, -⟩ | ⟨here, rfl⟩
  · simp only [measure, Bool.toNat_true]
    omega
  · have sums := sum_set ThreadPlace.weight here .waiting
    simp only [ThreadPlace.weight] at sums
    simp only [measure, Bool.toNat_true]
    omega

theorem measure_place (pool : ThreadPool Job) {i : Nat} {old : ThreadPlace Job} (here : pool.threads[i]? = some old)
    (new : ThreadPlace Job) : (pool.place i new).measure + old.weight = pool.measure + new.weight := by
  have sums := sum_set ThreadPlace.weight here new
  simp only [measure, ThreadPool.place]
  omega

theorem measure_place_lt (pool : ThreadPool Job) {i : Nat} {old new : ThreadPlace Job} (here : pool.threads[i]? = some old)
    (less : new.weight < old.weight) : (pool.place i new).measure < pool.measure := by
  have := pool.measure_place here new
  omega

theorem measure_take {i : Nat} {job : Job} {rest : List Job} (here : pool.threads[i]? = some .pulling)
    (queue : pool.queue = job :: rest) : (pool.take i job rest).measure + 10 = pool.measure := by
  have sums := measure_place { pool with queue := rest, pulled := pool.pulled ++ [job] } here (.running job)
  simp only [ThreadPlace.weight, Nat.add_right_cancel_iff] at sums
  rw [take, sums]
  simp only [measure, queue, List.length_cons]
  omega

theorem measure_finish {i : Nat} (here : pool.threads[i]? = some .finishing) :
    (pool.finish i).measure + 3 = pool.measure := by
  have sums := measure_place { pool with numThreadsWorking := pool.numThreadsWorking - 1 } here .looping
  have same : measure { pool with numThreadsWorking := pool.numThreadsWorking - 1 } = pool.measure := rfl
  simp only [ThreadPlace.weight, same] at sums
  rw [finish]
  omega

theorem ThreadSteps.measure {i choice : Nat} (steps : ThreadSteps pool i choice pool') :
    pool'.measure < pool.measure := by
  cases steps with
  | continues here | breaks here | sleeps here | goes here | turns here | pullsNothing here | runs here =>
      exact measure_place_lt _ here (by simp [ThreadPlace.weight])
  | enters here | ends here => exact measure_place_lt _ here (by simp [ThreadPlace.weight])
  | takes here hasJobs =>
      have sums := measure_place { pool with hasJobs := false } here .woken
      simp only [ThreadPlace.weight] at sums
      simp only [ThreadPool.measure, hasJobs, Bool.toNat_true, Bool.toNat_false] at sums ⊢
      omega
  | pullsLast here queue =>
      have := measure_take here queue
      omega
  | pulls here queue posted =>
      have := measure_take here queue
      have := measure_post posted
      omega
  | finishes here =>
      have := measure_finish here
      omega
  | idles here _ _ signalled =>
      have finished := measure_finish here
      have woken := weight_wake signalled
      simp only [ThreadPool.measure, ThreadPool.finish, ThreadPool.place] at finished ⊢
      omega

theorem WaiterSteps.weight {waiter : Waiter} {place : WaiterPlace} (steps : WaiterSteps pool waiter place) :
    Waiter.weight { waiter with place } < waiter.weight := by
  obtain ⟨old, before⟩ := waiter
  cases steps with
  | looks here => subst here; split <;> simp [Waiter.weight]
  | counts here => subst here; split <;> simp [Waiter.weight]

theorem measure_own {action : PoolAction Job} (own : action.isOwn)
    (stepped : (threadPool Job).step pool action = some pool') : pool'.measure < pool.measure := by
  cases action with
  | thread i choice => exact (threadStep_steps stepped).measure
  | waiter i =>
      obtain ⟨waiter, place, here, steps, rfl⟩ := waiterStep_steps stepped
      have sums := sum_set Waiter.weight here { waiter with place }
      have less := steps.weight
      simp only [measure]
      omega
  | _ => cases own

theorem measure_run {actions : List (PoolAction Job)} (own : ∀ action ∈ actions, action.isOwn)
    (ran : (threadPool Job).run pool actions = some pool') : actions.length + pool'.measure ≤ pool.measure := by
  induction actions generalizing pool with
  | nil =>
      obtain rfl := Option.some.inj ran
      simp
  | cons action actions ih =>
      obtain ⟨next, step, rest⟩ := Option.bind_eq_some_iff.mp ran
      rw [List.forall_mem_cons] at own
      have less := measure_own own.1 step
      have := ih own.2 rest
      rw [List.length_cons]
      omega

/-! ## Nobody is forgotten -/

theorem tally_moved {i : Nat} {old new : ThreadPlace Job} (here : pool.threads[i]? = some old)
    (threads : pool'.threads = pool.threads.set i new) (test : ThreadPlace Job → Bool) :
    pool'.tally test + (test old).toNat = pool.tally test + (test new).toNat := by
  rw [tally, threads]
  exact tally_place here new test

theorem Roused.moved (roused : pool.Roused) {i : Nat} {old new : ThreadPlace Job} (here : pool.threads[i]? = some old)
    (threads : pool'.threads = pool.threads.set i new)
    (awake : pool'.hasJobs → new.isWaiting ∨ (pool.hasJobs ∧ old.isWaiting = false ∧ new.isSleeping = false))
    (underway : pool'.queue ≠ [] → pool'.keepalive → pool'.hasJobs ∨ new.isTaking ∨
      (pool.queue ≠ [] ∧ pool.keepalive ∧ pool'.hasJobs = pool.hasJobs ∧ old.isTaking = false)) : pool'.Roused := by
  have moved := tally_moved here threads
  constructor
  · intro hasJobs asleep
    have waiting := moved ThreadPlace.isWaiting
    have sleeping := moved ThreadPlace.isSleeping
    rcases awake hasJobs with new | ⟨before, old, new⟩
    · have inside := (List.getElem?_eq_some_iff.mp here).1
      refine tally_pos.mpr ⟨_, ?_, new⟩
      rw [threads]
      exact List.mem_of_getElem? (List.getElem?_set_self inside)
    · have := roused.awake before
      simp only [old, new, Bool.toNat_false] at waiting sleeping
      omega
  · intro queue keepalive
    have taking := moved ThreadPlace.isTaking
    rcases underway queue keepalive with hasJobs | new | ⟨queue, keepalive, same, old⟩
    · exact .inl hasJobs
    · have inside := (List.getElem?_eq_some_iff.mp here).1
      refine .inr (tally_pos.mpr ⟨_, ?_, new⟩)
      rw [threads]
      exact List.mem_of_getElem? (List.getElem?_set_self inside)
    · rw [same]
      refine (roused.underway queue keepalive).imp id fun others => ?_
      simp only [old, Bool.toNat_false] at taking
      omega

theorem Roused.thread {i choice : Nat} (roused : pool.Roused) (steps : ThreadSteps pool i choice pool') :
    pool'.Roused := by
  cases steps with
  | continues here => exact roused.moved here rfl (fun _ => .inl rfl) fun queue keepalive => .inr (.inr ⟨queue, keepalive, rfl, rfl⟩)
  | breaks here keepalive =>
      exact roused.moved here rfl (fun jobs => .inr ⟨jobs, rfl, rfl⟩) fun queue keepalive =>
        .inr (.inr ⟨queue, keepalive, rfl, rfl⟩)
  | takes here => exact roused.moved here rfl (fun jobs => by cases jobs) fun _ _ => .inr (.inl rfl)
  | sleeps here hasJobs =>
      refine roused.moved here rfl (fun jobs => ?_) fun queue keepalive => .inr (.inr ⟨queue, keepalive, rfl, rfl⟩)
      rw [ThreadPool.place, hasJobs] at jobs
      cases jobs
  | goes here => exact roused.moved here rfl (fun jobs => .inr ⟨jobs, rfl, rfl⟩) fun _ _ => .inr (.inl rfl)
  | turns here stopped =>
      refine roused.moved here rfl (fun jobs => .inr ⟨jobs, rfl, rfl⟩) fun _ keepalive => ?_
      rw [ThreadPool.place, stopped] at keepalive
      cases keepalive
  | enters here => exact roused.moved here rfl (fun jobs => .inr ⟨jobs, rfl, rfl⟩) fun _ _ => .inr (.inl rfl)
  | pullsNothing here empty =>
      exact roused.moved here rfl (fun jobs => .inr ⟨jobs, rfl, rfl⟩) fun queue _ => absurd empty queue
  | pullsLast here =>
      exact roused.moved here rfl (fun jobs => .inr ⟨jobs, rfl, rfl⟩) fun queue _ => absurd rfl queue
  | pulls _ _ posted => exact roused_of_post posted
  | runs here | ends here =>
      exact roused.moved here rfl (fun jobs => .inr ⟨jobs, rfl, rfl⟩) fun queue keepalive =>
        .inr (.inr ⟨queue, keepalive, rfl, rfl⟩)
  | finishes here | idles here =>
      exact roused.moved here rfl (fun jobs => .inr ⟨jobs, rfl, rfl⟩) fun queue keepalive =>
        .inr (.inr ⟨queue, keepalive, rfl, rfl⟩)

theorem Roused.step {action : PoolAction Job} (roused : pool.Roused)
    (stepped : (threadPool Job).step pool action = some pool') : pool'.Roused := by
  cases action with
  | thpoolAddWork job choice => exact roused_of_post stepped
  | thpoolWait =>
      obtain rfl := Option.some.inj stepped
      exact ⟨roused.awake, roused.underway⟩
  | thread i choice => exact roused.thread (threadStep_steps stepped)
  | waiter i =>
      obtain ⟨waiter, place, -, -, rfl⟩ := waiterStep_steps stepped
      exact ⟨roused.awake, roused.underway⟩
  | wakeThread i =>
      obtain ⟨here, rfl⟩ := wakeThread_eq stepped
      exact roused.moved here rfl (fun _ => .inl rfl) fun queue keepalive => .inr (.inr ⟨queue, keepalive, rfl, rfl⟩)
  | wakeWaiter i =>
      obtain ⟨waiter, -, -, rfl⟩ := wakeWaiter_eq stepped
      exact ⟨roused.awake, roused.underway⟩
  | thpoolDestroy =>
      obtain rfl := Option.some.inj stepped
      exact ⟨roused.awake, fun _ keepalive => by cases keepalive⟩
  | poll =>
      obtain ⟨-, -, rfl⟩ := poll_eq stepped
      refine ⟨fun _ asleep => ?_, fun _ _ => .inl rfl⟩
      obtain ⟨place, mem, sleeping⟩ := tally_pos.mp asleep
      obtain ⟨old, -, rfl⟩ := List.mem_map.mp mem
      cases old <;> cases sleeping

/-- As long as the pool is not destroyed no thread leaves its loop. -/
structure Stays (numThreads : Nat) (pool : ThreadPool Job) : Prop where
  length : pool.threads.length = numThreads
  leaving : pool.keepalive → ∀ place ∈ pool.threads, place.isLeaving = false

theorem Stays.moved {numThreads : Nat} (stays : pool.Stays numThreads) {i : Nat} {new : ThreadPlace Job}
    (threads : pool'.threads = pool.threads.set i new)
    (keeps : pool'.keepalive → pool.keepalive ∧ new.isLeaving = false) : pool'.Stays numThreads := by
  refine ⟨by rw [threads, List.length_set, stays.length], fun keepalive place mem => ?_⟩
  obtain ⟨before, new⟩ := keeps keepalive
  rw [threads] at mem
  rcases List.mem_or_eq_of_mem_set mem with old | rfl
  · exact stays.leaving before place old
  · exact new

theorem Stays.post {numThreads choice : Nat} (stays : pool.Stays numThreads)
    (posted : pool.bsemPost choice = some pool') : pool'.Stays numThreads := by
  rcases bsemPost_eq posted with ⟨rfl, -⟩ | ⟨-, rfl⟩
  · exact ⟨stays.length, stays.leaving⟩
  · exact stays.moved rfl fun keepalive => ⟨keepalive, rfl⟩

theorem Stays.take {numThreads : Nat} (stays : pool.Stays numThreads) (i : Nat) (job : Job) (rest : List Job) :
    (pool.take i job rest).Stays numThreads := stays.moved rfl fun keepalive => ⟨keepalive, rfl⟩

theorem Stays.step {numThreads : Nat} {action : PoolAction Job} (stays : pool.Stays numThreads)
    (stepped : (threadPool Job).step pool action = some pool') : pool'.Stays numThreads := by
  cases action with
  | thpoolAddWork job choice =>
      have queued : Stays numThreads { pool with queue := pool.queue ++ [job], added := pool.added ++ [job] } :=
        ⟨stays.length, stays.leaving⟩
      exact queued.post stepped
  | thpoolWait =>
      obtain rfl := Option.some.inj stepped
      exact ⟨stays.length, stays.leaving⟩
  | thread i choice =>
      cases threadStep_steps stepped with
      | continues | takes | sleeps | goes | turns | enters | pullsNothing | runs | finishes | idles =>
          exact stays.moved rfl fun keepalive => ⟨keepalive, rfl⟩
      | pullsLast => exact stays.take i _ _
      | pulls _ _ posted => exact (stays.take i _ _).post posted
      | breaks _ stopped =>
          refine stays.moved rfl fun keepalive => ?_
          rw [ThreadPool.place, stopped] at keepalive
          cases keepalive
      | ends here =>
          refine stays.moved rfl fun keepalive => ?_
          have staying := stays.leaving keepalive _ (List.mem_of_getElem? here)
          cases staying
  | waiter i =>
      obtain ⟨waiter, place, -, -, rfl⟩ := waiterStep_steps stepped
      exact ⟨stays.length, stays.leaving⟩
  | wakeThread i =>
      obtain ⟨-, rfl⟩ := wakeThread_eq stepped
      exact stays.moved rfl fun keepalive => ⟨keepalive, rfl⟩
  | wakeWaiter i =>
      obtain ⟨waiter, -, -, rfl⟩ := wakeWaiter_eq stepped
      exact ⟨stays.length, stays.leaving⟩
  | thpoolDestroy =>
      obtain rfl := Option.some.inj stepped
      exact ⟨stays.length, fun keepalive => by cases keepalive⟩
  | poll =>
      obtain ⟨stopped, -, rfl⟩ := poll_eq stepped
      refine ⟨(List.length_map _).trans stays.length, fun keepalive => ?_⟩
      rw [bsemPostAll, stopped] at keepalive
      cases keepalive

/-! ## At rest -/

theorem condSignal_enabled {α : Type} (sleeps : α → Bool) (wake : α → α) (places : List α) :
    ∃ choice places', condSignal sleeps wake choice places = some places' := by
  unfold condSignal
  by_cases asleep : places.any sleeps
  · obtain ⟨place, mem, sleeping⟩ := List.any_eq_true.mp asleep
    obtain ⟨choice, here⟩ := List.mem_iff_getElem?.mp mem
    exact ⟨choice, _, by rw [if_pos asleep, here, Option.any_some, if_pos sleeping]⟩
  · exact ⟨0, _, by rw [if_neg asleep]⟩

theorem bsemPost_enabled (pool : ThreadPool Job) : ∃ choice pool', pool.bsemPost choice = some pool' := by
  obtain ⟨choice, threads, signalled⟩ :=
    condSignal_enabled ThreadPlace.isSleeping (fun _ => ThreadPlace.waiting) pool.threads
  exact ⟨choice, _, by rw [bsemPost, signalled]; rfl⟩

theorem signalIdle_enabled (pool : ThreadPool Job) : ∃ choice pool', pool.signalIdle choice = some pool' := by
  obtain ⟨choice, waiters, signalled⟩ := condSignal_enabled Waiter.sleeps Waiter.wake pool.waiters
  exact ⟨choice, _, by rw [signalIdle, signalled]; rfl⟩

theorem Resting.unlocked (resting : pool.Resting) : pool.isLocked = false := by
  rw [isLocked, List.any_eq_false]
  intro waiter mem locked
  obtain ⟨i, here⟩ := List.mem_iff_getElem?.mp mem
  have stuck := resting (.waiter i) rfl
  have place : waiter.place = .locked := of_decide_eq_true locked
  simp [threadPool, waiterStep, here, place] at stuck

theorem Resting.waiters (resting : pool.Resting) :
    ∀ waiter ∈ pool.waiters, waiter.place = .sleeping ∨ waiter.place = .returned := by
  intro waiter mem
  obtain ⟨i, here⟩ := List.mem_iff_getElem?.mp mem
  have stuck := resting (.waiter i) rfl
  cases place : waiter.place with
  | sleeping => exact .inl rfl
  | returned => exact .inr rfl
  | locking | locked => simp [threadPool, waiterStep, here, place, resting.unlocked] at stuck

theorem Resting.threads (resting : pool.Resting) :
    ∀ place ∈ pool.threads, place = .sleeping ∨ place = .ended := by
  intro place mem
  obtain ⟨i, here⟩ := List.mem_iff_getElem?.mp mem
  have stuck (choice : Nat) : pool.threadStep i choice = none := resting (.thread i choice) rfl
  cases place with
  | sleeping => exact .inl rfl
  | ended => exact .inr rfl
  | looping | woken | running => simp [threadStep, here] at stuck
  | waiting =>
      have := stuck 0
      simp only [threadStep, here] at this
      split at this <;> cases this
  | entering | ending => simp [threadStep, here, resting.unlocked] at stuck
  | pulling =>
      match queue : pool.queue with
      | [] | [_] =>
          have := stuck 0
          simp [threadStep, here, jobqueuePull, queue] at this
      | job :: next :: rest =>
          obtain ⟨choice, pool', posted⟩ := bsemPost_enabled (pool.take i job (next :: rest))
          have := stuck choice
          simp [threadStep, here, jobqueuePull, queue, posted] at this
  | finishing =>
      obtain ⟨choice, pool', signalled⟩ := signalIdle_enabled (pool.finish i)
      have := stuck choice
      simp only [threadStep, here, resting.unlocked, Bool.false_eq_true, if_false, signalled] at this
      split at this <;> cases this

theorem Resting.tally_eq_zero (resting : pool.Resting) {test : ThreadPlace Job → Bool} (sleeping : test .sleeping = false)
    (ended : test .ended = false) : pool.tally test = 0 := by
  by_contra some
  obtain ⟨place, mem, holds⟩ := tally_pos.mp (Nat.pos_of_ne_zero some)
  rcases resting.threads place mem with rfl | rfl
  · rw [sleeping] at holds
    cases holds
  · rw [ended] at holds
    cases holds

theorem Resting.queue_eq_nil (resting : pool.Resting) (roused : pool.Roused) {numThreads : Nat}
    (stays : pool.Stays numThreads) (positive : 0 < numThreads) (keepalive : pool.keepalive) : pool.queue = [] := by
  by_contra queue
  have hasJobs : pool.hasJobs := by
    rcases roused.underway queue keepalive with hasJobs | taking
    · exact hasJobs
    · rw [resting.tally_eq_zero rfl rfl] at taking
      exact absurd taking (Nat.lt_irrefl 0)
  have asleep : 0 < pool.tally ThreadPlace.isSleeping := by
    obtain ⟨place, mem⟩ := List.exists_mem_of_length_pos (stays.length ▸ positive)
    rcases resting.threads place mem with rfl | rfl
    · exact tally_pos.mpr ⟨_, mem, rfl⟩
    · cases stays.leaving keepalive _ mem
  have waiting := roused.awake hasJobs asleep
  rw [resting.tally_eq_zero rfl rfl] at waiting
  exact Nat.lt_irrefl 0 waiting

theorem Resting.idle (resting : pool.Resting) (accounted : pool.Accounted) : pool.numThreadsWorking = 0 := by
  rw [accounted.working]
  exact resting.tally_eq_zero rfl rfl

theorem roused_init (numThreads : Nat) : (thpoolInit Job numThreads).Roused :=
  ⟨fun hasJobs => (by cases hasJobs), fun queue => absurd rfl queue⟩

theorem stays_init (numThreads : Nat) : (thpoolInit Job numThreads).Stays numThreads :=
  ⟨List.length_replicate, fun _ place mem => by rw [List.eq_of_mem_replicate mem]; rfl⟩

theorem keepalive_own {action : PoolAction Job} (own : action.isOwn)
    (stepped : (threadPool Job).step pool action = some pool') : pool'.keepalive = pool.keepalive := by
  cases action with
  | thread i choice =>
      cases threadStep_steps stepped with
      | pulls _ _ posted => rcases bsemPost_eq posted with ⟨rfl, -⟩ | ⟨-, rfl⟩ <;> rfl
      | _ => rfl
  | waiter i =>
      obtain ⟨waiter, place, -, -, rfl⟩ := waiterStep_steps stepped
      rfl
  | _ => cases own

/-- What holds at every point. -/
structure Reached (numThreads : Nat) (pool : ThreadPool Job) : Prop where
  accounted : pool.Accounted
  roused : pool.Roused
  stays : pool.Stays numThreads

theorem reached_of_run {numThreads : Nat} {actions : List (PoolAction Job)}
    (ran : (threadPool Job).run (thpoolInit Job numThreads) actions = some pool) : pool.Reached numThreads where
  accounted := Machine.run_keeps (fun _ _ _ => Accounted.step) (accounted_init numThreads) ran
  roused := Machine.run_keeps (fun _ _ _ => Roused.step) (roused_init numThreads) ran
  stays := Machine.run_keeps (fun _ _ _ => Stays.step) (stays_init numThreads) ran

theorem Reached.run {numThreads : Nat} {actions : List (PoolAction Job)} (reached : pool.Reached numThreads)
    (ran : (threadPool Job).run pool actions = some pool') : pool'.Reached numThreads where
  accounted := Machine.run_keeps (fun _ _ _ => Accounted.step) reached.accounted ran
  roused := Machine.run_keeps (fun _ _ _ => Roused.step) reached.roused ran
  stays := Machine.run_keeps (fun _ _ _ => Stays.step) reached.stays ran

theorem keepalive_run {actions : List (PoolAction Job)} (own : ∀ action ∈ actions, action.isOwn)
    (ran : (threadPool Job).run pool actions = some pool') : pool'.keepalive = pool.keepalive := by
  induction actions generalizing pool with
  | nil => exact Option.some.inj ran ▸ rfl
  | cons action actions ih =>
      obtain ⟨next, step, rest⟩ := Option.bind_eq_some_iff.mp ran
      rw [List.forall_mem_cons] at own
      rw [ih own.2 rest, keepalive_own own.1 step]

end ThreadPool

open ThreadPool

namespace Waiter

def active (waiter : Waiter) : Nat := if waiter.place = .returned then 0 else 1

theorem active_eq_zero {waiter : Waiter} : waiter.active = 0 ↔ waiter.place = .returned := by
  simp [active]

end Waiter

namespace ThreadPool
variable {pool pool' : ThreadPool Job}

/-- Whoever calls `thpool_wait` is alone with it. -/
def OneWaits (pool : ThreadPool Job) (action : PoolAction Job) : Prop :=
  match action with
  | .thpoolWait => ∀ waiter ∈ pool.waiters, waiter.place = .returned
  | _ => True

/-- At most one waits, and it has not slept through the last signal. -/
structure Heard (pool : ThreadPool Job) : Prop where
  one : (pool.waiters.map Waiter.active).sum ≤ 1
  needed : ∀ waiter ∈ pool.waiters, waiter.place = .sleeping → pool.queue ≠ [] ∨ 0 < pool.numThreadsWorking

/-- When one of the waiters is active, no other is. -/
theorem active_others {waiters : List Waiter} (one : (waiters.map Waiter.active).sum ≤ 1) {i : Nat} {waiter : Waiter}
    (here : waiters[i]? = some waiter) (active : waiter.place ≠ .returned) (new : Waiter) :
    ∀ other ∈ waiters.set i new, other = new ∨ other.place = .returned := by
  have sums := sum_set Waiter.active here { waiter with place := .returned }
  have gone : Waiter.active { waiter with place := .returned } = 0 := rfl
  have present : waiter.active = 1 := if_neg active
  have none : ((waiters.set i { waiter with place := .returned }).map Waiter.active).sum = 0 := by omega
  rw [List.sum_eq_zero_iff, List.forall_mem_map] at none
  intro other mem
  obtain ⟨j, at'⟩ := List.mem_iff_getElem?.mp mem
  by_cases same : i = j
  · subst j
    rw [List.getElem?_set_self (List.getElem?_eq_some_iff.mp here).1] at at'
    exact .inl (Option.some.inj at').symm
  · rw [List.getElem?_set_ne same] at at'
    refine .inr (Waiter.active_eq_zero.mp (none other (List.mem_of_getElem? (i := j) ?_)))
    rwa [List.getElem?_set_ne same]

theorem Heard.congr (heard : pool.Heard) (waiters : pool'.waiters = pool.waiters)
    (needed : pool.queue ≠ [] ∨ 0 < pool.numThreadsWorking → pool'.queue ≠ [] ∨ 0 < pool'.numThreadsWorking) :
    pool'.Heard :=
  ⟨waiters ▸ heard.one, fun waiter mem asleep => needed (heard.needed waiter (waiters ▸ mem) asleep)⟩

theorem Heard.set (heard : pool.Heard) {i : Nat} {waiter : Waiter} (here : pool.waiters[i]? = some waiter)
    (active : waiter.place ≠ .returned) (new : Waiter)
    (needed : new.place = .sleeping → pool.queue ≠ [] ∨ 0 < pool.numThreadsWorking) :
    ({ pool with waiters := pool.waiters.set i new } : ThreadPool Job).Heard := by
  constructor
  · have sums := sum_set Waiter.active here new
    have present : waiter.active = 1 := if_neg active
    have bound : new.active ≤ 1 := by
      unfold Waiter.active
      split <;> omega
    have one := heard.one
    simp only
    omega
  · intro other mem asleep
    rcases active_others heard.one here active new other mem with rfl | returned
    · exact needed asleep
    · rw [returned] at asleep
      cases asleep

theorem Heard.thread (heard : pool.Heard) (accounted : pool.Accounted) {i choice : Nat}
    (steps : ThreadSteps pool i choice pool') : pool'.Heard := by
  have busy (here : pool.threads[i]? = some .pulling) : 0 < pool.numThreadsWorking := by
    rw [accounted.working]
    exact tally_pos.mpr ⟨_, List.mem_of_getElem? here, rfl⟩
  cases steps with
  | continues | breaks | takes | sleeps | goes | turns | pullsNothing | runs | ends => exact heard.congr rfl id
  | enters => exact heard.congr rfl fun _ => .inr (Nat.succ_pos _)
  | pullsLast here => exact heard.congr rfl fun _ => .inr (busy here)
  | pulls here _ posted =>
      rcases bsemPost_eq posted with ⟨rfl, -⟩ | ⟨-, rfl⟩
      · exact heard.congr rfl fun _ => .inr (busy here)
      · exact heard.congr rfl fun _ => .inr (busy here)
  | finishes _ _ others => exact heard.congr rfl fun _ => .inr (Nat.pos_of_ne_zero others)
  | idles _ _ _ signalled =>
      rcases condSignal_eq_some signalled with ⟨rfl, none⟩ | ⟨waiter, here, asleep, rfl⟩
      · refine ⟨heard.one, fun waiter mem asleep => ?_⟩
        have := none waiter mem
        simp [Waiter.sleeps, asleep] at this
      · have place : waiter.place = .sleeping := of_decide_eq_true asleep
        have woken := heard.set here (by simp [place]) waiter.wake fun asleep => by cases asleep
        refine ⟨woken.one, fun other mem asleep => ?_⟩
        rcases active_others heard.one here (by simp [place]) waiter.wake other mem with rfl | returned
        · cases asleep
        · rw [returned] at asleep
          cases asleep

theorem Heard.step {action : PoolAction Job} (heard : pool.Heard) (accounted : pool.Accounted)
    (allowed : OneWaits pool action) (stepped : (threadPool Job).step pool action = some pool') : pool'.Heard := by
  cases action with
  | thpoolAddWork job choice =>
      have queued : pool'.waiters = pool.waiters ∧ pool'.queue = pool.queue ++ [job] := by
        rcases bsemPost_eq stepped with ⟨rfl, -⟩ | ⟨-, rfl⟩ <;> exact ⟨rfl, rfl⟩
      exact heard.congr queued.1 fun _ => .inl (by simp [queued.2])
  | thpoolWait =>
      obtain rfl := Option.some.inj stepped
      have none : (pool.waiters.map Waiter.active).sum = 0 := by
        rw [List.sum_eq_zero_iff, List.forall_mem_map]
        exact fun waiter mem => Waiter.active_eq_zero.mpr (allowed waiter mem)
      refine ⟨by simp [none, Waiter.active], fun waiter mem asleep => ?_⟩
      rcases List.mem_append.mp mem with old | new
      · exact heard.needed waiter old asleep
      · rw [List.mem_singleton.mp new] at asleep
        cases asleep
  | thread i choice => exact heard.thread accounted (threadStep_steps stepped)
  | waiter i =>
      obtain ⟨waiter, place, here, steps, rfl⟩ := waiterStep_steps stepped
      cases steps with
      | looks locking =>
          refine heard.set here (by simp [locking]) _ fun asleep => .inl fun empty => ?_
          rw [if_pos empty] at asleep
          cases asleep
      | counts locked =>
          refine heard.set here (by simp [locked]) _ fun asleep => .inr (Nat.pos_of_ne_zero fun idle => ?_)
          rw [if_pos idle] at asleep
          cases asleep
  | wakeThread i =>
      obtain ⟨-, rfl⟩ := wakeThread_eq stepped
      exact heard.congr rfl id
  | wakeWaiter i =>
      obtain ⟨waiter, here, asleep, rfl⟩ := wakeWaiter_eq stepped
      exact heard.set here (by simp [asleep]) _ fun asleep => by cases asleep
  | thpoolDestroy =>
      obtain rfl := Option.some.inj stepped
      exact heard.congr rfl id
  | poll =>
      obtain ⟨-, -, rfl⟩ := poll_eq stepped
      exact heard.congr rfl id

end ThreadPool

/-- Of two who wait for one job the signal wakes only the first. -/
example : ((threadPool Nat).run (thpoolInit Nat 1)
    [.thpoolAddWork 7 0, .thpoolWait, .waiter 0, .thpoolWait, .waiter 1, .thread 0 0, .thread 0 0, .thread 0 0,
      .thread 0 0, .thread 0 0, .thread 0 0, .thread 0 0, .waiter 0, .waiter 0, .thread 0 0, .thread 0 0]).map
    (fun pool => (pool.threads.map ThreadPlace.isSleeping, pool.waiters.map Waiter.place)) =
      some ([true], [.returned, .sleeping]) := rfl

/-! ## The end of the pool -/

namespace ThreadPool
variable {pool pool' : ThreadPool Job}

/-- Since the last poll a thread has ended, or is about to. -/
structure Dies (alive : Nat) (pool : ThreadPool Job) : Prop where
  stopped : pool.keepalive = false
  atMost : pool.numThreadsAlive ≤ alive
  less : pool.numThreadsAlive < alive ∨ pool.hasJobs ∨ 0 < pool.tally ThreadPlace.isBusy

theorem Dies.busy {alive i : Nat} {new : ThreadPlace Job} (dies : pool.Dies alive) (inside : i < pool.threads.length)
    (threads : pool'.threads = pool.threads.set i new) (busy : new.isBusy)
    (same : pool'.keepalive = pool.keepalive ∧ pool'.numThreadsAlive = pool.numThreadsAlive) : pool'.Dies alive := by
  refine ⟨same.1 ▸ dies.stopped, same.2 ▸ dies.atMost, .inr (.inr (tally_pos.mpr ⟨new, ?_, busy⟩))⟩
  rw [threads]
  exact List.mem_of_getElem? (List.getElem?_set_self inside)

theorem Dies.thread {alive i choice : Nat} (dies : pool.Dies alive) (accounted : pool.Accounted)
    (steps : ThreadSteps pool i choice pool') : pool'.Dies alive := by
  have inside {place : ThreadPlace Job} (here : pool.threads[i]? = some place) : i < pool.threads.length :=
    (List.getElem?_eq_some_iff.mp here).1
  cases steps with
  | continues _ keepalive | goes _ keepalive =>
      rw [dies.stopped] at keepalive
      cases keepalive
  | breaks here | turns here | enters here | pullsNothing here | runs here | finishes here | takes here | pullsLast here
  | idles here => exact dies.busy (inside here) rfl rfl ⟨rfl, rfl⟩
  | sleeps here hasJobs =>
      refine ⟨dies.stopped, dies.atMost, dies.less.imp id fun others => .inr ?_⟩
      have moved := tally_place here .sleeping ThreadPlace.isBusy
      rw [hasJobs] at others
      simp only [ThreadPlace.isBusy, Bool.toNat_false, Nat.add_zero] at moved
      rw [moved]
      exact others.resolve_left Bool.false_ne_true
  | pulls here _ posted =>
      rcases bsemPost_eq posted with ⟨rfl, -⟩ | ⟨-, rfl⟩
      · exact ⟨dies.stopped, dies.atMost, .inr (.inl rfl)⟩
      · exact ⟨dies.stopped, dies.atMost, .inr (.inl rfl)⟩
  | ends here =>
      have living : 0 < pool.numThreadsAlive := by
        rw [accounted.alive]
        exact tally_pos.mpr ⟨_, List.mem_of_getElem? here, rfl⟩
      have atMost := dies.atMost
      refine ⟨dies.stopped, ?_, .inl ?_⟩
      · simp only [ThreadPool.place]
        omega
      · simp only [ThreadPool.place]
        omega

theorem Dies.own {alive : Nat} {action : PoolAction Job} (dies : pool.Dies alive) (accounted : pool.Accounted)
    (own : action.isOwn) (stepped : (threadPool Job).step pool action = some pool') : pool'.Dies alive := by
  cases action with
  | thread i choice => exact dies.thread accounted (threadStep_steps stepped)
  | waiter i =>
      obtain ⟨waiter, place, -, -, rfl⟩ := waiterStep_steps stepped
      exact ⟨dies.stopped, dies.atMost, dies.less⟩
  | _ => cases own

theorem Dies.run {alive : Nat} {actions : List (PoolAction Job)} (dies : pool.Dies alive) (accounted : pool.Accounted)
    (own : ∀ action ∈ actions, action.isOwn) (ran : (threadPool Job).run pool actions = some pool') :
    pool'.Dies alive := by
  induction actions generalizing pool with
  | nil => exact Option.some.inj ran ▸ dies
  | cons action actions ih =>
      obtain ⟨next, step, rest⟩ := Option.bind_eq_some_iff.mp ran
      rw [List.forall_mem_cons] at own
      exact ih (dies.own accounted own.1 step) (accounted.step step) own.2 rest

theorem Accounted.none_alive (accounted : pool.Accounted) (none : pool.numThreadsAlive = 0) :
    ∀ place ∈ pool.threads, place = .ended := by
  intro place mem
  rw [accounted.alive, tally, List.sum_eq_zero_iff, List.forall_mem_map] at none
  have dead := none place mem
  cases place with
  | ended => rfl
  | _ => cases dead

theorem Resting.dead (resting : pool.Resting) (accounted : pool.Accounted) (roused : pool.Roused) {alive : Nat}
    (dies : pool.Dies alive) (positive : 0 < alive) : pool.numThreadsAlive < alive := by
  rcases dies.less with less | hasJobs | busy
  · exact less
  · have none : pool.tally ThreadPlace.isSleeping = 0 := by
      by_contra asleep
      have waiting := roused.awake hasJobs (Nat.pos_of_ne_zero asleep)
      rw [resting.tally_eq_zero rfl rfl] at waiting
      exact Nat.lt_irrefl 0 waiting
    have ended : pool.tally ThreadPlace.isAlive = 0 := by
      by_contra alive
      obtain ⟨place, mem, living⟩ := tally_pos.mp (Nat.pos_of_ne_zero alive)
      rcases resting.threads place mem with rfl | rfl
      · have asleep : 0 < pool.tally ThreadPlace.isSleeping := tally_pos.mpr ⟨_, mem, rfl⟩
        rw [none] at asleep
        exact Nat.lt_irrefl 0 asleep
      · cases living
    rw [accounted.alive, ended]
    exact positive
  · rw [resting.tally_eq_zero rfl rfl] at busy
    exact absurd busy (Nat.lt_irrefl 0)

end ThreadPool

end Ipfs
