import Exios.Scheduler.Runs

namespace Exios

/-!
# Context — `ContextThread` and its runner threads

`n` threads share one `ContextThread`.  Any of them may be inside `run` or `run_once`, and any
of them may call `post`, `schedule`, `cancel`, `latch_work` and `release_work`, from outside or
from a completion handler that it is running.

A state records what every thread is about to do (`Pc` for `run`, `run_once` and `poll_once`,
`Call` for the rest of an API call) and who holds the two mutexes.  A label names the thread
and its next action, with the choices of the environment (what `epoll_pwait` returns, whether
a handler throws, spurious wake-ups).  A critical section is one step where nothing in it can
be observed; `post`, `schedule`, `cancel` and `release_work` are cut where they write the wake
event and notify the condition variable.

`step` is `none` when the action is not enabled and an error when a contract check fails.
-/

/-- `AnyAsyncOperation`: a posted completion, or an I/O operation. -/
inductive AnyAsyncOperation
  | plain (addr : Nat)
  | io (op : AsyncIoOperation)
deriving DecidableEq, Repr

/-- `kMaxEventsPerPoll`, the size of the event buffer. -/
def kMaxEventsPerPoll : Nat := 1024

/-- Where a thread stands in `run`, `run_once` and `poll_once`. -/
inductive Pc
  /-- Not inside `run` or `run_once`. -/
  | out
  /-- `while (remaining_count_ > 0)`. -/
  | runLoop
  /-- About to lock `data_mutex_` and test whether to wait. -/
  | runTest
  /-- In `cvar_.wait`, holding `data_mutex_`, about to evaluate the predicate. -/
  | waitEvaluate
  /-- The predicate was false; about to release `data_mutex_` and sleep. -/
  | waitSleep
  /-- Asleep on `cvar_`. -/
  | asleep
  /-- Notified; about to lock `data_mutex_` again. -/
  | woken
  /-- `run_once`: about to take the completion queue. -/
  | takeQueue
  /-- The loop of `drain_list`. -/
  | drain
  /-- The storage of `op` is released; its handler is about to be invoked. -/
  | invoke (op : AnyAsyncOperation)
  /-- Inside the handler of `op`. -/
  | handler (op : AnyAsyncOperation)
  /-- About to read `more_completions_ready`. -/
  | readMore
  /-- `if (!io_scheduler_.empty())`. -/
  | checkScheduler (moreCompletionsReady : Bool)
  /-- `poll_once`: about to run the cancellation phase. -/
  | pollCancel (block : Bool)
  /-- About to add to `threads_waiting`; `forever` says that the timeout is `-1`, not `0`. -/
  | announce (block forever : Bool)
  /-- In `epoll_pwait`. -/
  | polling (block forever : Bool)
  /-- About to subtract from `threads_waiting`; `none` when `epoll_pwait` failed. -/
  | polled (block : Bool) (events : Option (List EpollEvent))
  /-- About to process the batch. -/
  | notified (block : Bool) (events : List EpollEvent)
  /-- An exception leaves `run_once`: the guard that puts the batch back. -/
  | putBack
  /-- The guard that notifies `cvar_`. -/
  | guardNotify (thrown : Bool)
  /-- `run` has left its loop: `io_scheduler_.wake()`. -/
  | exitWake
  /-- `run` has left its loop: `cvar_.notify_all()`. -/
  | exitNotify
deriving DecidableEq

/-- User code runs at the position: outside, or in a handler. -/
def Pc.isUser : Pc → Bool
  | .out => true
  | .handler _ => true
  | _ => false

/-- The rest of an API call that a thread is making. -/
inductive Call
  | none
  /-- `post` has pushed the operation and holds `data_mutex_`. -/
  | postWake
  | postNotify
  /-- `schedule` has inserted the operation and holds the scheduler's mutex. -/
  | scheduleNotify
  /-- `cancel` has moved the operations and holds the scheduler's mutex. -/
  | cancelWake
  | cancelNotify
  /-- `release_work` has decremented `remaining_count_`. -/
  | releaseWake
  | releaseNotify
deriving DecidableEq

/-- A thread. -/
structure Thread where
  pc : Pc
  call : Call
  /-- `run_once` was called by `run`. -/
  inRun : Bool
  /-- `tmp` of `run_once`. -/
  batch : List AnyAsyncOperation
  /-- `num_processed` of `run_once`. -/
  numProcessedOnce : Nat
  /-- `num_processed` of `run`. -/
  numProcessed : Nat
deriving DecidableEq

/-- What happens to an operation at the end of its life. -/
inductive Consumption
  /-- Its storage was destroyed and deallocated. -/
  | released (op : AnyAsyncOperation)
  /-- Its handler was invoked, with this result if it is an I/O operation. -/
  | invoked (op : AnyAsyncOperation) (result : Option IoResult)
deriving DecidableEq

/-- `ContextThread` with its scheduler, the threads that use it, and the history of a run. -/
structure ContextThread (K : Type) (n : Nat) where
  /-- `io_scheduler_`. -/
  sched : Sched K
  /-- Holder of `IoScheduler::data_mutex_`. -/
  schedMutex : Option (Fin n)
  /-- `completion_queue_`. -/
  completionQueue : List AnyAsyncOperation
  /-- `remaining_count_`. -/
  remainingCount : Nat
  /-- Holder of `ContextThread::data_mutex_`. -/
  dataMutex : Option (Fin n)
  /-- `threads_waiting`, which `io_scheduler.cpp` shares between all contexts. -/
  threadsWaiting : Nat
  threads : Fin n → Thread
  /-- Operations handed to `post` or `schedule`, oldest first. -/
  handed : List AnyAsyncOperation
  /-- Ends of operations, oldest first. -/
  log : List Consumption
  /-- The destructor has run. -/
  destroyed : Bool

/-- The actions of a thread. -/
inductive Act
  | enterRun
  | enterRunOnce
  | loop
  | test
  | evaluate
  | sleep
  | spuriousWake
  | relock
  | take
  | drain
  | invoke
  | handlerReturn
  | handlerThrow
  | readMore
  | checkScheduler
  | pollCancel
  | announce
  | epollReturn (events : List EpollEvent)
  | epollFail
  | retire
  | notifications
  | putBack
  | guardNotify
  | exitWake
  | exitNotify
  | post (addr : Nat)
  | schedule (op : AsyncIoOperation)
  | cancel (fd : Int) (fuel : Nat)
  | latchWork
  | releaseWork
  | callWake
  | callNotify
deriving DecidableEq

/-- The actions that start an API call. -/
def Act.isCall : Act → Bool
  | .post _ | .schedule _ | .cancel _ _ | .latchWork | .releaseWork => true
  | _ => false

/-- The labels of a run: an action of a thread, the destructor, or what other code does to the
    kernel. -/
inductive Label (K : Type) (n : Nat)
  | thread (t : Fin n) (a : Act)
  | destroy
  | kernel (k : K)
  | forget (fd : Int)

namespace ContextThread

variable {K : Type} {n : Nat}

/-- A thread that has not called anything yet. -/
def idle : Thread := ⟨.out, .none, false, [], 0, 0⟩

/-- A run starts with a constructed context, in any kernel state. -/
def Init (s : ContextThread K n) : Prop :=
  Sched.Init s.sched ∧
    s = ⟨s.sched, none, [], 0, none, 0, fun _ => idle, [], [], false⟩

/-! ### Updates -/

/-- Update one thread. -/
def mapThread (s : ContextThread K n) (t : Fin n) (f : Thread → Thread) : ContextThread K n :=
  { s with threads := Function.update s.threads t (f (s.threads t)) }

/-- The thread's next position. -/
def goto (s : ContextThread K n) (t : Fin n) (pc : Pc) : ContextThread K n :=
  s.mapThread t (fun th => { th with pc := pc })

/-- The rest of the thread's call. -/
def setCall (s : ContextThread K n) (t : Fin n) (call : Call) : ContextThread K n :=
  s.mapThread t (fun th => { th with call := call })

/-- `cvar_.notify_all()`. -/
def notifyAll (s : ContextThread K n) : ContextThread K n :=
  { s with threads := fun u =>
      if (s.threads u).pc = .asleep then { s.threads u with pc := .woken } else s.threads u }

/-- `io_scheduler_.wake()`. -/
def wake (s : ContextThread K n) : ContextThread K n :=
  { s with sched := { s.sched with io := s.sched.io.trigger s.threadsWaiting } }

/-- The completion queue after the `post` calls of the scheduler, each of which also notifies
    (its wake-up is part of the scheduler's function). -/
def enqueue (s : ContextThread K n) (ops : List AsyncIoOperation) : ContextThread K n :=
  if ops = [] then s
  else ({ s with completionQueue := s.completionQueue ++ ops.map AnyAsyncOperation.io }).notifyAll

/-- The predicate of `cvar_.wait`. -/
def predicate (s : ContextThread K n) : Bool :=
  !s.completionQueue.isEmpty || !s.sched.io.empty || decide (s.remainingCount = 0)

/-- `std::move(operation).dispatch(f)`: for an I/O operation it checks and delivers `result_`. -/
def deliver (s : ContextThread K n) : AnyAsyncOperation → Except Contract (Option IoResult)
  | .plain _ => .ok none
  | .io op =>
    match (s.sched.io.state op).result with
    | none => .error .resultNotSet
    | some r => .ok (some r)

/-! ### The actions -/

/-- The actions inside `run`, `run_once` and `poll_once`. -/
def runStep (M : Kernel K) (s : ContextThread K n) (t : Fin n) :
    Act → Option (Except Contract (ContextThread K n))
  | .enterRun =>
    if (s.threads t).pc = .out then
      some (.ok (s.mapThread t (fun th =>
        { th with pc := .runLoop, inRun := true, numProcessed := 0 })))
    else none
  | .enterRunOnce =>
    if (s.threads t).pc = .out then
      some (.ok (s.mapThread t (fun th => { th with pc := .takeQueue, inRun := false })))
    else none
  | .loop =>
    if (s.threads t).pc = .runLoop then
      some (.ok (s.goto t (if 0 < s.remainingCount then .runTest else .exitWake)))
    else none
  | .test =>
    if (s.threads t).pc = .runTest ∧ s.dataMutex = none then
      if s.completionQueue = [] ∧ s.sched.io.empty = true ∧ 0 < s.remainingCount then
        some (.ok (({ s with dataMutex := some t }).goto t .waitEvaluate))
      else some (.ok (s.goto t .takeQueue))
    else none
  | .evaluate =>
    if (s.threads t).pc = .waitEvaluate then
      if s.predicate then some (.ok (({ s with dataMutex := none }).goto t .takeQueue))
      else some (.ok (s.goto t .waitSleep))
    else none
  | .sleep =>
    if (s.threads t).pc = .waitSleep then
      some (.ok (({ s with dataMutex := none }).goto t .asleep))
    else none
  | .spuriousWake =>
    if (s.threads t).pc = .asleep then some (.ok (s.goto t .woken)) else none
  | .relock =>
    if (s.threads t).pc = .woken ∧ s.dataMutex = none then
      some (.ok (({ s with dataMutex := some t }).goto t .waitEvaluate))
    else none
  | .take =>
    if (s.threads t).pc = .takeQueue ∧ s.dataMutex = none then
      some (.ok (({ s with completionQueue := [] }).mapThread t (fun th =>
        { th with pc := .drain, batch := s.completionQueue, numProcessedOnce := 0 })))
    else none
  | .drain =>
    if (s.threads t).pc = .drain then
      match (s.threads t).batch with
      | [] => some (.ok (s.goto t .readMore))
      | op :: rest =>
        -- `dispatch` moves the handler out and releases the storage before it calls it
        some (.ok (({ s with log := s.log ++ [Consumption.released op] }).mapThread t (fun th =>
          { th with pc := .invoke op, batch := rest })))
    else none
  | .invoke =>
    match (s.threads t).pc with
    | .invoke op =>
      match s.deliver op with
      | .error e => some (.error e)
      | .ok result => some (.ok
        (({ s with log := s.log ++ [Consumption.invoked op result] }).goto t (.handler op)))
    | _ => none
  | .handlerReturn =>
    match (s.threads t).pc with
    | .handler _ => some (.ok (s.mapThread t (fun th =>
        { th with pc := .drain, numProcessedOnce := th.numProcessedOnce + 1 })))
    | _ => none
  | .handlerThrow =>
    match (s.threads t).pc with
    | .handler _ => some (.ok (s.goto t .putBack))
    | _ => none
  | .readMore =>
    if (s.threads t).pc = .readMore ∧ s.dataMutex = none then
      some (.ok (s.goto t (.checkScheduler (!s.completionQueue.isEmpty))))
    else none
  | .checkScheduler =>
    match (s.threads t).pc with
    | .checkScheduler more =>
      some (.ok (s.goto t (if s.sched.io.empty then .guardNotify false else .pollCancel (!more))))
    | _ => none
  | .pollCancel =>
    match (s.threads t).pc with
    | .pollCancel block =>
      if s.schedMutex = none then
        match s.sched.pollCancellations s.threadsWaiting with
        | .error e => some (.error e)
        | .ok (sched, p) =>
          if p.posted = [] ∨ s.dataMutex = none then
            some (.ok ((({ s with sched := sched }).enqueue p.posted).goto t
              (if p.returned then .guardNotify false
                else .announce block (block && decide (p.numCancelled = 0)))))
          else none
      else none
    | _ => none
  | .announce =>
    match (s.threads t).pc with
    | .announce block forever =>
      some (.ok (({ s with threadsWaiting := s.threadsWaiting + 1 }).goto t (.polling block forever)))
    | _ => none
  | .epollReturn events =>
    match (s.threads t).pc with
    | .polling block forever =>
      -- an infinite timeout does not expire
      if events.length ≤ kMaxEventsPerPoll ∧ (forever = true → events ≠ []) then
        some (.ok (s.goto t (.polled block (some events))))
      else none
    | _ => none
  | .epollFail =>
    match (s.threads t).pc with
    | .polling block _ => some (.ok (s.goto t (.polled block none)))
    | _ => none
  | .retire =>
    match (s.threads t).pc with
    | .polled block events =>
      some (.ok (({ s with threadsWaiting := s.threadsWaiting - 1 }).goto t
        (match events with
          | none => .putBack
          | some events => .notified block events)))
    | _ => none
  | .notifications =>
    match (s.threads t).pc with
    | .notified block events =>
      if s.schedMutex = none then
        match s.sched.pollNotifications M s.threadsWaiting events with
        | .error e => some (.error e)
        | .ok (sched, r) =>
          if r.posted = [] ∨ s.dataMutex = none then
            some (.ok ((({ s with sched := sched }).enqueue r.posted).goto t
              (if events.length = kMaxEventsPerPoll ∧ block = false then .announce block false
                else .guardNotify false)))
          else none
      else none
    | _ => none
  | .putBack =>
    if (s.threads t).pc = .putBack then
      if (s.threads t).batch = [] then some (.ok (s.goto t (.guardNotify true)))
      else if s.dataMutex = none then
        some (.ok (({ s with
          completionQueue := (s.threads t).batch ++ s.completionQueue }).mapThread t
            (fun th => { th with pc := .guardNotify true, batch := [] })))
      else none
    else none
  | .guardNotify =>
    match (s.threads t).pc with
    | .guardNotify thrown =>
      some (.ok (s.notifyAll.mapThread t (fun th =>
        { th with
          pc := if thrown = false ∧ th.inRun = true then .runLoop else .out
          numProcessed :=
            if thrown then th.numProcessed else th.numProcessed + th.numProcessedOnce })))
    | _ => none
  | .exitWake =>
    if (s.threads t).pc = .exitWake then some (.ok (s.wake.goto t .exitNotify)) else none
  | .exitNotify =>
    if (s.threads t).pc = .exitNotify then some (.ok (s.notifyAll.goto t .out)) else none
  | _ => none

/-- The first action of an API call. -/
def callStep (M : Kernel K) (s : ContextThread K n) (t : Fin n) :
    Act → Option (Except Contract (ContextThread K n))
  | .post addr =>
    if s.dataMutex = none ∧ AnyAsyncOperation.plain addr ∉ s.handed then
      some (.ok (({ s with
        completionQueue := s.completionQueue ++ [AnyAsyncOperation.plain addr]
        handed := s.handed ++ [AnyAsyncOperation.plain addr]
        dataMutex := some t }).setCall t .postWake))
    else none
  | .schedule op =>
    if s.schedMutex = none ∧ op ∉ s.sched.scheduled then
      match s.sched.schedule M op with
      | .error e => some (.error e)
      | .ok sched =>
        some (.ok (({ s with
          sched := sched
          handed := s.handed ++ [AnyAsyncOperation.io op]
          schedMutex := some t }).setCall t .scheduleNotify))
    else none
  | .cancel fd fuel =>
    if s.schedMutex = none then
      match s.sched.cancel M fuel fd with
      | none => none
      | some (.error e) => some (.error e)
      | some (.ok (sched, found)) =>
        if found then
          some (.ok (({ s with sched := sched, schedMutex := some t }).setCall t .cancelWake))
        else some (.ok { s with sched := sched })
    else none
  | .latchWork =>
    if s.remainingCount < 2 ^ 64 - 1 then
      some (.ok { s with remainingCount := s.remainingCount + 1 })
    else some (.error .latchOverflow)
  | .releaseWork =>
    if 0 < s.remainingCount then
      some (.ok (({ s with remainingCount := s.remainingCount - 1 }).setCall t .releaseWake))
    else some (.error .releaseWithoutWork)
  | _ => none

/-- The later actions of an API call. -/
def callRest (s : ContextThread K n) (t : Fin n) : Act → Option (ContextThread K n)
  | .callWake =>
    match (s.threads t).call with
    | .postWake => some (s.wake.setCall t .postNotify)
    | .cancelWake => some (s.wake.setCall t .cancelNotify)
    | .releaseWake => some (s.wake.setCall t .releaseNotify)
    | _ => none
  | .callNotify =>
    match (s.threads t).call with
    | .postNotify => some (({ s with dataMutex := none }).notifyAll.setCall t .none)
    | .scheduleNotify => some (({ s with schedMutex := none }).notifyAll.setCall t .none)
    | .cancelNotify => some (({ s with schedMutex := none }).notifyAll.setCall t .none)
    | .releaseNotify => some (s.notifyAll.setCall t .none)
    | _ => none
  | _ => none

/-- One action of a thread: the rest of its call first; a new call where user code runs. -/
def threadStep (M : Kernel K) (s : ContextThread K n) (t : Fin n) (a : Act) :
    Option (Except Contract (ContextThread K n)) :=
  if (s.threads t).call ≠ .none then (s.callRest t a).map .ok
  else if a.isCall then
    if (s.threads t).pc.isUser then s.callStep M t a else none
  else s.runStep M t a

/-- `~ContextThread`: the queued completions are discarded, then the scheduler's operations. -/
def destroy (s : ContextThread K n) : ContextThread K n :=
  { s with
    completionQueue := []
    sched := { s.sched with io := { s.sched.io with operations := [], beginCancelled := none } }
    log := s.log ++ s.completionQueue.map .released
      ++ s.sched.io.operations.map (fun op => .released (.io op))
    destroyed := true }

/-- One step. -/
def step (M : Kernel K) (s : ContextThread K n) :
    Label K n → Option (Except Contract (ContextThread K n))
  | .thread t a => if s.destroyed then none else s.threadStep M t a
  | .destroy =>
    if s.destroyed then none
    else if ∀ t, (s.threads t).pc = .out ∧ (s.threads t).call = .none then some (.ok s.destroy)
    else none
  | .kernel k => some (.ok { s with sched := { s.sched with kernel := k } })
  | .forget fd =>
    some (.ok { s with sched := { s.sched with
      io := { s.sched.io with interest := Function.update s.sched.io.interest fd none } } })

/-- The successor state, when there is one. -/
def next (M : Kernel K) (s : ContextThread K n) (l : Label K n) : Option (ContextThread K n) :=
  (s.step M l).bind Except.toOption

/-- States reached by runs whose steps satisfy `ok`. -/
def Reach (M : Kernel K) (ok : ContextThread K n → Label K n → Prop) : ContextThread K n → Prop :=
  Transition.Reach Init (next M) ok

end ContextThread

end Exios
