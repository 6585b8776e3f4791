import Exios.Base.Search
import Exios.Base.Transition
import Exios.IntrusiveList
import Exios.Operation

namespace Exios

open Search (lowerBound)

/-!
# Scheduler — `IoScheduler`

The state and the functions of `io_scheduler.cpp`.  `operations_` is the sequence its
intrusive list denotes and `begin_cancelled_` a cursor into it (`IntrusiveList.lean` relates
both to the linked nodes); everything in front of the cursor is *active*, the rest is
*cancelled*.

The kernel is a parameter: `Kernel K` gives the outcome of the system call that an operation
makes on a kernel state `K`, and says which descriptors are open.  The epoll instance is part
of the scheduler, as a map from descriptors to registered masks.

Every function is one critical section of `data_mutex_` (or a part of one); `Sched` adds the
history that the statements speak about, and `Sched.step` is the transition function whose
runs are the interleavings of these critical sections.
-/

/-! ### The kernel -/

/-- The kernel, as far as the scheduler depends on it. -/
structure Kernel (K : Type) where
  /-- The system call of an operation's `io` member. -/
  syscall : AsyncIoOperation → K → SysOutcome × K
  /-- The descriptor number denotes an open descriptor. -/
  isOpen : K → Int → Bool

/-- How `epoll_ctl` fails. -/
inductive CtlError
  | EEXIST
  | ENOENT
  | EBADF
deriving DecidableEq, Repr

/-- The registrations of an epoll instance. -/
abbrev Registrations := Int → Option Events

/-- `epoll_ctl` with `EPOLL_CTL_ADD`. -/
def epollAdd (isOpen : Bool) (reg : Registrations) (fd : Int) (events : Events) :
    Except CtlError Registrations :=
  if !isOpen then .error .EBADF
  else if (reg fd).isSome then .error .EEXIST
  else .ok (Function.update reg fd (some events))

/-- `epoll_ctl` with `EPOLL_CTL_MOD`. -/
def epollMod (isOpen : Bool) (reg : Registrations) (fd : Int) (events : Events) :
    Except CtlError Registrations :=
  if !isOpen then .error .EBADF
  else if (reg fd).isNone then .error .ENOENT
  else .ok (Function.update reg fd (some events))

/-- `epoll_ctl` with `EPOLL_CTL_DEL`. -/
def epollDel (isOpen : Bool) (reg : Registrations) (fd : Int) : Except CtlError Registrations :=
  if !isOpen then .error .EBADF
  else if (reg fd).isNone then .error .ENOENT
  else .ok (Function.update reg fd none)

/-- An `epoll_event` as `epoll_pwait` returns it. -/
structure EpollEvent where
  fd : Int
  events : Events
deriving DecidableEq, Repr

/-! ### The scheduler state -/

/-- `IoScheduler`. -/
structure IoScheduler where
  /-- `operations_`. -/
  operations : List AsyncIoOperation
  /-- `begin_cancelled_`. -/
  beginCancelled : Option AsyncIoOperation
  /-- `poll_queue_length_`. -/
  pollQueueLength : Nat
  /-- Registrations of `epoll_fd_`. -/
  interest : Registrations
  /-- Descriptor of `wake_event_`. -/
  wakeFd : Int
  /-- Counter of `wake_event_`. -/
  wakeCounter : Nat
  /-- The mutable fields of the operations. -/
  state : AsyncIoOperation → OpState

namespace IoScheduler

/-- A constructed scheduler: no operations, only the wake descriptor registered. -/
def init (wakeFd : Int) : IoScheduler where
  operations := []
  beginCancelled := none
  pollQueueLength := 0
  interest := Function.update (fun _ => none) wakeFd (some EPOLLIN)
  wakeFd := wakeFd
  wakeCounter := 0
  state := fun _ => .fresh

/-- The range `[begin(), begin_cancelled_)`. -/
def activeSegment (s : IoScheduler) : List AsyncIoOperation :=
  Cursor.front s.operations s.beginCancelled

/-- The range `[begin_cancelled_, end())`. -/
def cancelledSegment (s : IoScheduler) : List AsyncIoOperation :=
  Cursor.back s.operations s.beginCancelled

/-- `empty()`. -/
def empty (s : IoScheduler) : Bool := decide (s.pollQueueLength = 0)

/-- `wake_event_.trigger(threads_waiting)`; the argument is converted to 32 bits. -/
def trigger (s : IoScheduler) (threadsWaiting : Nat) : IoScheduler :=
  { s with wakeCounter := s.wakeCounter + threadsWaiting % 2 ^ 32 }

/-! ### `schedule` -/

/-- Where `schedule` starts looking for the insertion point: the front and back shortcuts,
    else the binary search. -/
def insertOffset (active : List AsyncIoOperation) (fd : Int) : Nat :=
  match active.head?, active.getLast? with
  | some first, some last =>
    if fd ≤ first.fd then 0
    else if last.fd ≤ fd then active.length
    else lowerBound (fun a => decide (a.fd < fd)) active
  | _, _ => lowerBound (fun a => decide (a.fd < fd)) active

/-- The loop that steps over the operations on `fd` and collects their interest: the mask and
    the number of operations stepped over. -/
def gatherInterest (fd : Int) : List AsyncIoOperation → Events → Events × Nat
  | [], events => (events, 0)
  | a :: rest, events =>
    if a.fd = fd then
      let (events', n) := gatherInterest fd rest (events ||| a.interest)
      (events', n + 1)
    else (events, 0)

/-- Registration of the mask: `ADD`, and `MOD` when the descriptor is already there. -/
def register (isOpen : Bool) (reg : Registrations) (fd : Int) (events : Events) :
    Except Contract Registrations :=
  match epollAdd isOpen reg fd events with
  | .ok reg' => .ok reg'
  | .error .EEXIST =>
    match epollMod isOpen reg fd events with
    | .ok reg' => .ok reg'
    | .error _ => .error .epollRegister
  | .error _ => .error .epollRegister

/-- `schedule(op)`, up to the notification of the context. -/
def schedule (isOpen : Bool) (s : IoScheduler) (op : AsyncIoOperation) :
    Except Contract IoScheduler :=
  let start := insertOffset s.activeSegment op.fd
  let (events, skipped) := gatherInterest op.fd (s.activeSegment.drop start) op.interest
  match register isOpen s.interest op.fd events with
  | .error e => .error e
  | .ok reg =>
    .ok { s with
      operations := Cursor.insert op s.operations[start + skipped]? s.operations
      pollQueueLength := s.pollQueueLength + 1
      interest := reg }

/-! ### `cancel` -/

/-- The range `[first_pos, last_pos)` of `cancel`: its offset and its elements. -/
def cancelRange (s : IoScheduler) (fd : Int) : Nat × List AsyncIoOperation :=
  let firstPos := lowerBound (fun a => decide (a.fd < fd)) s.activeSegment
  (firstPos, (s.activeSegment.drop firstPos).takeWhile (fun a => a.fd = fd))

/-- `cancel(fd)` up to the de-registration: mark the range, splice it to `begin_cancelled_`
    and drop the registration.  `none` when the splice has not returned within `fuel`
    rounds; the flag says whether there was anything to cancel. -/
def cancelSection (fuel : Nat) (isOpen : Bool) (s : IoScheduler) (fd : Int) :
    Option (Except Contract (IoScheduler × Bool)) :=
  let (firstPos, range) := s.cancelRange fd
  if range = [] then some (.ok (s, false))
  else
    (IntrusiveList.spliceSeq fuel s.operations s.beginCancelled s.operations[firstPos]?
        s.operations[firstPos + range.length]?).map (·.map (fun (ops, first) =>
      ({ s with
          operations := ops
          beginCancelled := first
          interest := match epollDel isOpen s.interest fd with
            | .ok reg => reg
            | .error _ => s.interest
          state := fun op => if op ∈ range then (s.state op).cancel else s.state op }, true)))

/-- `cancel(fd)`, up to the notification of the context. -/
def cancel (fuel : Nat) (isOpen : Bool) (threadsWaiting : Nat) (s : IoScheduler) (fd : Int) :
    Option (Except Contract IoScheduler) :=
  (cancelSection fuel isOpen s fd).map (·.map (fun (s', found) =>
    if found then s'.trigger threadsWaiting else s'))

/-! ### `process_notifications` -/

/-- One `perform_io` call: the operation, the kernel state the call was made in, and the
    operation's `result_` at that moment. -/
structure Attempt (K : Type) where
  op : AsyncIoOperation
  kernel : K
  result : Option IoResult

/-- The variables of `process_notifications` that outlive one event. -/
structure Notify (K : Type) where
  sched : IoScheduler
  kernel : K
  /-- Operations posted to the completion queue, oldest first. -/
  posted : List AsyncIoOperation
  /-- `perform_io` calls made, oldest first. -/
  attempts : List (Attempt K)
  /-- `total_processed`. -/
  total : Nat

/-- The variables of the loop over the operations of one event. -/
structure FdLoop (K : Type) extends Notify K where
  /-- `items_for_this_fd`. -/
  itemsForFd : Nat
  /-- `items_processed_for_this_fd`. -/
  itemsProcessed : Nat
  /-- `events_to_reregister`. -/
  reregister : Events

variable {K : Type}

/-- The scope guard `reset_event` fires: the operation's interest is registered again. -/
def FdLoop.keep (st : FdLoop K) (item : AsyncIoOperation) : FdLoop K :=
  { st with reregister := st.reregister ||| item.interest }

/-- The completed operation leaves the list and is posted; `post` wakes the pollers. -/
def FdLoop.complete (st : FdLoop K) (threadsWaiting : Nat) (item : AsyncIoOperation) : FdLoop K :=
  { st with
    sched := ({ st.sched with operations := st.sched.operations.erase item }).trigger threadsWaiting
    posted := st.posted ++ [item]
    itemsProcessed := st.itemsProcessed + 1 }

/-- `item.perform_io()`: the system call and the bookkeeping of the operation's kind. -/
def performIo (M : Kernel K) (st : FdLoop K) (item : AsyncIoOperation) :
    Except Contract (Bool × FdLoop K) :=
  let (out, kernel) := M.syscall item st.kernel
  let attempt : Attempt K := ⟨item, st.kernel, (st.sched.state item).result⟩
  match io item.kind out (st.sched.state item).result with
  | .error e => .error e
  | .ok (done, result) =>
    .ok (done, { st with
      kernel := kernel
      attempts := st.attempts ++ [attempt]
      sched := { st.sched with
        state := Function.update st.sched.state item ⟨(st.sched.state item).cancelled, result⟩ } })

/-- The body of the loop for one operation of the descriptor. -/
def notifyItem (M : Kernel K) (threadsWaiting : Nat) (mask : Events) (st : FdLoop K)
    (item : AsyncIoOperation) : Except Contract (FdLoop K) :=
  let st := { st with itemsForFd := st.itemsForFd + 1 }
  if (st.sched.state item).cancelled then .ok (st.keep item)
  else if decide (mask &&& EPOLLIN ≠ 0) ≠ item.isReadOperation then .ok (st.keep item)
  else
    match performIo M st item with
    | .error e => .error e
    | .ok (false, st') => .ok (st'.keep item)
    | .ok (true, st') => .ok (st'.complete threadsWaiting item)

/-- The loop over the operations from `lower_bound` on, as long as they are on `fd`.  An
    erased operation is one the loop has already stepped past, so the rest of the range is
    not affected. -/
def notifyLoop (M : Kernel K) (threadsWaiting : Nat) (fd : Int) (mask : Events) :
    List AsyncIoOperation → FdLoop K → Except Contract (FdLoop K)
  | [], st => .ok st
  | item :: rest, st =>
    if item.fd = fd then
      match notifyItem M threadsWaiting mask st item with
      | .error e => .error e
      | .ok st' => notifyLoop M threadsWaiting fd mask rest st'
    else .ok st

/-- After the loop: de-register the descriptor when all its operations are done, else
    register what is left. -/
def reregister (isOpen : Bool) (reg : Registrations) (fd : Int) (allDone : Bool)
    (events : Events) : Except Contract Registrations :=
  if allDone then
    match epollDel isOpen reg fd with
    | .ok reg' => .ok reg'
    | .error .ENOENT => .ok reg
    | .error _ => .error .epollDelete
  else
    match epollMod isOpen reg fd events with
    | .ok reg' => .ok reg'
    | .error _ => .error .epollModify

/-- One event of `process_notifications`. -/
def processEvent (M : Kernel K) (threadsWaiting : Nat) (ev : EpollEvent) (st : Notify K) :
    Except Contract (Notify K) :=
  if ev.fd = st.sched.wakeFd then
    .ok { st with sched := { st.sched with wakeCounter := 0 } }
  else
    let active := st.sched.activeSegment
    let start := lowerBound (fun a => decide (a.fd < ev.fd)) active
    match notifyLoop M threadsWaiting ev.fd ev.events (active.drop start)
        { st with itemsForFd := 0, itemsProcessed := 0, reregister := 0 } with
    | .error e => .error e
    | .ok l =>
      match reregister (M.isOpen l.kernel ev.fd) l.sched.interest ev.fd
          (decide (l.itemsForFd = l.itemsProcessed)) l.reregister with
      | .error e => .error e
      | .ok reg =>
        .ok { l.toNotify with
          sched := { l.sched with interest := reg }
          total := l.total + l.itemsProcessed }

/-- `process_notifications`. -/
def processNotifications (M : Kernel K) (threadsWaiting : Nat) :
    List EpollEvent → Notify K → Except Contract (Notify K)
  | [], st => .ok st
  | ev :: evs, st =>
    match processEvent M threadsWaiting ev st with
    | .error e => .error e
    | .ok st' => processNotifications M threadsWaiting evs st'

/-! ### `poll_once` -/

/-- `decrement_count`. -/
def decrementCount (counter val : Nat) : Except Contract Nat :=
  if val = 0 ∨ val ≤ counter then .ok (counter - val) else .error .decrementBelowZero

/-- `process_cancellations` on the operations of the cancelled segment: each is erased,
    counted and posted. -/
def processCancellations (threadsWaiting : Nat) :
    List AsyncIoOperation → IoScheduler × Nat → IoScheduler × Nat
  | [], st => st
  | item :: rest, (s, count) =>
    processCancellations threadsWaiting rest
      (({ s with operations := s.operations.erase item }).trigger threadsWaiting, count + 1)

/-- What the first critical section of `poll_once` leaves behind: the scheduler, the posted
    operations, `num_cancelled`, and whether the function returned there. -/
structure CancelPhase where
  sched : IoScheduler
  posted : List AsyncIoOperation
  numCancelled : Nat
  returned : Bool

/-- The first critical section of `poll_once`. -/
def cancellationPhase (threadsWaiting : Nat) (s : IoScheduler) : Except Contract CancelPhase :=
  let items := s.cancelledSegment
  let (s₁, numCancelled) := processCancellations threadsWaiting items (s, 0)
  -- the iterator the loop ends at is `end()`
  let s₂ := { s₁ with beginCancelled := none }
  if s₂.beginCancelled ≠ none then .error .cancellationsLeft
  else
    match decrementCount s₂.pollQueueLength numCancelled with
    | .error e => .error e
    | .ok length =>
      let s₃ := { s₂ with pollQueueLength := length }
      if s₃.operations.head? = s₃.beginCancelled then
        if s₃.pollQueueLength ≠ 0 then .error .pollQueueLeft
        else .ok ⟨s₃, items, numCancelled, true⟩
      else .ok ⟨s₃, items, numCancelled, false⟩

/-- The second critical section of `poll_once`. -/
def notificationPhase (M : Kernel K) (threadsWaiting : Nat) (kernel : K)
    (events : List EpollEvent) (s : IoScheduler) : Except Contract (Notify K) :=
  match processNotifications M threadsWaiting events
      { sched := s, kernel := kernel, posted := [], attempts := [], total := 0 } with
  | .error e => .error e
  | .ok st =>
    match decrementCount st.sched.pollQueueLength st.total with
    | .error e => .error e
    | .ok length => .ok { st with sched := { st.sched with pollQueueLength := length } }

end IoScheduler

/-! ### Runs -/

/-- The scheduler with the history of a run. -/
structure Sched (K : Type) where
  io : IoScheduler
  kernel : K
  /-- Operations handed to `schedule`, oldest first. -/
  scheduled : List AsyncIoOperation
  /-- Operations posted to the completion queue, oldest first. -/
  posted : List AsyncIoOperation
  /-- Operations that were active on `fd` when some `cancel(fd)` took effect. -/
  struck : List AsyncIoOperation
  /-- `perform_io` calls, oldest first. -/
  attempts : List (IoScheduler.Attempt K)

/-- The critical sections, with the choices of the environment.  `kernel` and `forget` are
    what other code does to the kernel's state (a closed descriptor loses its registration). -/
inductive SchedAct (K : Type)
  | schedule (op : AsyncIoOperation)
  | cancel (fd : Int) (fuel : Nat)
  | pollCancellations (threadsWaiting : Nat)
  | pollNotifications (events : List EpollEvent) (threadsWaiting : Nat)
  | wake (threadsWaiting : Nat)
  | kernel (k : K)
  | forget (fd : Int)

namespace Sched

variable {K : Type}

/-- A run starts with a constructed scheduler, in any kernel state. -/
def Init (s : Sched K) : Prop :=
  ∃ wakeFd k, s = ⟨IoScheduler.init wakeFd, k, [], [], [], []⟩

/-- `schedule(op)` of a newly constructed operation. -/
def schedule (M : Kernel K) (s : Sched K) (op : AsyncIoOperation) : Except Contract (Sched K) :=
  (s.io.schedule (M.isOpen s.kernel op.fd) op).map (fun io =>
    { s with io := io, scheduled := s.scheduled ++ [op] })

/-- The marking and splicing part of `cancel(fd)`. -/
def cancel (M : Kernel K) (fuel : Nat) (s : Sched K) (fd : Int) :
    Option (Except Contract (Sched K × Bool)) :=
  (s.io.cancelSection fuel (M.isOpen s.kernel fd) fd).map (·.map (fun (io, found) =>
    ({ s with
        io := io
        struck := s.struck ++ s.io.activeSegment.filter (fun a => decide (a.fd = fd)) }, found)))

/-- First critical section of `poll_once`. -/
def pollCancellations (threadsWaiting : Nat) (s : Sched K) :
    Except Contract (Sched K × IoScheduler.CancelPhase) :=
  (s.io.cancellationPhase threadsWaiting).map (fun p =>
    ({ s with io := p.sched, posted := s.posted ++ p.posted }, p))

/-- Second critical section of `poll_once`. -/
def pollNotifications (M : Kernel K) (threadsWaiting : Nat) (events : List EpollEvent)
    (s : Sched K) : Except Contract (Sched K × IoScheduler.Notify K) :=
  (s.io.notificationPhase M threadsWaiting s.kernel events).map (fun n =>
    ({ s with
        io := n.sched
        kernel := n.kernel
        posted := s.posted ++ n.posted
        attempts := s.attempts ++ n.attempts }, n))

/-- One critical section.  A failed contract check and a `cancel` that does not return have
    no successor state. -/
def step (M : Kernel K) (s : Sched K) : SchedAct K → Option (Sched K)
  | .schedule op => if op ∈ s.scheduled then none else (s.schedule M op).toOption
  | .cancel fd fuel => (s.cancel M fuel fd).bind (fun r => r.toOption.map Prod.fst)
  | .pollCancellations tw => (s.pollCancellations tw).toOption.map Prod.fst
  | .pollNotifications events tw => (s.pollNotifications M tw events).toOption.map Prod.fst
  | .wake tw => some { s with io := s.io.trigger tw }
  | .kernel k => some { s with kernel := k }
  | .forget fd =>
    some { s with io := { s.io with interest := Function.update s.io.interest fd none } }

/-- States reached by runs whose steps satisfy `ok`. -/
def Reach (M : Kernel K) (ok : Sched K → SchedAct K → Prop) : Sched K → Prop :=
  Transition.Reach Init (step M) ok

end Sched

end Exios
