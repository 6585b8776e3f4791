import Exios.Base.Iterator
import Exios.Context.Places
import Exios.IntrusiveList.Calls

namespace Exios

open Exios.Ring (Links lowerBoundIt findIf forEach)
open IntrusiveList (beginIt pushBack popFront insertItem erase splice)

/-!
# Context — the lists as linked nodes

`operations_`, `completion_queue_` and the `tmp` of every `run_once` are intrusive lists over
the same nodes: an operation is linked through its own two fields, so it can be in one of them
only.  Here the functions that touch the lists are written on the nodes, as the source has them:
iterators are addresses, the searches of the standard library walk along the links, `fd` and
`is_read` are read from the object at an address, and the storage of a dispatched operation may
be handed out again.

The rest of `ContextThread` (positions of threads, mutexes, counters) is not repeated:
`LinkedAct` is the part of a step that touches the lists.  `LinkedSections.lean` relates the
functions below to those on sequences, `LinkedSteps.lean` the steps.
-/

/-- The intrusive lists of a context and its runners. -/
inductive ListName (n : Nat)
  /-- `IoScheduler::operations_`. -/
  | operations
  /-- `ContextThread::completion_queue_`. -/
  | completionQueue
  /-- `tmp` of `run_once`. -/
  | batch (t : Fin n)
deriving DecidableEq

/-- The address of a `ListItemBase`. -/
inductive Node (n : Nat)
  /-- The sentinel inside a list object. -/
  | sentinel (list : ListName n)
  /-- The storage of an operation. -/
  | item (loc : Nat)
  | null
deriving DecidableEq

/-- What the storage of an operation holds beside the links. -/
structure Cell where
  op : AnyAsyncOperation
  state : OpState

/-- `static_cast` to `AsyncIoOperation`; the fields mean nothing for another object. -/
def Cell.io (c : Cell) : AsyncIoOperation :=
  match c.op with
  | .io op => op
  | .plain addr => ⟨addr, 0, .ioRead⟩

/-- `dispatch` delivers `result_` of the operation that it has moved to the stack. -/
def Cell.deliver (c : Cell) : Except Contract (Option IoResult) :=
  match c.op with
  | .plain _ => .ok none
  | .io _ =>
    match c.state.result with
    | none => .error .resultNotSet
    | some r => .ok (some r)

/-- The memory of a context: all nodes, and the members that are not lists. -/
structure Linked (K : Type) (n : Nat) where
  links : Links (Node n)
  cell : Node n → Cell
  /-- `begin_cancelled_`. -/
  beginCancelled : Node n
  /-- `poll_queue_length_`. -/
  pollQueueLength : Nat
  /-- Registrations of `epoll_fd_`. -/
  interest : Registrations
  /-- Descriptor of `wake_event_`. -/
  wakeFd : Int
  /-- Counter of `wake_event_`. -/
  wakeCounter : Nat
  kernel : K
  /-- The `f` and `operation` that `dispatch` has moved out, of each thread. -/
  moved : Fin n → Cell

namespace Linked

variable {K : Type} {n : Nat}

/-! ### The scheduler -/

/-- `it->get_fd()`. -/
def fd (l : Linked K n) (it : Node n) : Int := (l.cell it).io.fd

/-- `make_async_operation` or `make_async_io_operation` in the storage `loc`; `ListItemBase`
    initialises its links to null. -/
def construct (l : Linked K n) (loc : Nat) (op : AnyAsyncOperation) : Linked K n :=
  { l with
    links := ⟨Function.update l.links.next (.item loc) .null,
      Function.update l.links.prev (.item loc) .null⟩
    cell := Function.update l.cell (.item loc) ⟨op, .fresh⟩ }

/-- `wake_event_.trigger(threads_waiting)`. -/
def trigger (l : Linked K n) (threadsWaiting : Nat) : Linked K n :=
  { l with wakeCounter := l.wakeCounter + threadsWaiting % 2 ^ 32 }

/-- The item goes to the end of the completion queue, which is checked not to be empty then. -/
def enqueue (l : Linked K n) (item : Node n) : Except Contract (Linked K n) :=
  (pushBack l.links (.sentinel .completionQueue) (some item)).bind (fun links =>
    if IntrusiveList.empty links (.sentinel .completionQueue) then .error .queueEmpty
    else .ok { l with links := links })

/-- `ContextThread::post`: the item enters the completion queue, and the pollers are woken. -/
def post (l : Linked K n) (threadsWaiting : Nat) (item : Node n) : Except Contract (Linked K n) :=
  (l.enqueue item).map (·.trigger threadsWaiting)

/-- Where `schedule` starts looking for `insert_pos`. -/
def insertPos (fuel : Nat) (l : Linked K n) (fd : Int) : Option (Node n) :=
  let first := beginIt l.links (.sentinel .operations)
  let last := l.beginCancelled
  if first ≠ last ∧ fd ≤ l.fd first then some first
  else if first ≠ last ∧ l.fd (l.links.prev last) ≤ fd then some last
  else lowerBoundIt fuel l.links (fun it => decide (l.fd it < fd)) first last

/-- The loop that steps over the operations on `fd` and collects their interest. -/
def gatherInterest (l : Linked K n) (last : Node n) (fd : Int) :
    Nat → Node n → Events → Option (Events × Node n)
  | 0, _, _ => none
  | fuel + 1, it, events =>
    if it ≠ last ∧ l.fd it = fd then
      gatherInterest l last fd fuel (l.links.next it) (events ||| (l.cell it).io.interest)
    else some (events, it)

/-- `IoScheduler::schedule(item)`, up to the notification of the context. -/
def schedule (fuel : Nat) (isOpen : Bool) (l : Linked K n) (item : Node n) :
    Option (Except Contract (Linked K n)) :=
  let op := (l.cell item).io
  (l.insertPos fuel op.fd).bind (fun pos =>
    (l.gatherInterest l.beginCancelled op.fd fuel pos op.interest).map (fun (events, pos) =>
      match IoScheduler.register isOpen l.interest op.fd events with
      | .error e => .error e
      | .ok reg =>
        (insertItem l.links (some item) pos).map (fun p =>
          { l with
            links := p.1
            pollQueueLength := l.pollQueueLength + 1
            interest := reg })))

/-- `item.cancel()` for the item at `it`. -/
def mark (cell : Node n → Cell) (it : Node n) : Node n → Cell :=
  Function.update cell it ⟨(cell it).op, (cell it).state.cancel⟩

/-- `IoScheduler::cancel(fd)` up to the de-registration. -/
def cancel (fuel : Nat) (isOpen : Bool) (l : Linked K n) (fd : Int) :
    Option (Except Contract (Linked K n)) :=
  let first := beginIt l.links (.sentinel .operations)
  let last := l.beginCancelled
  (lowerBoundIt fuel l.links (fun it => decide (l.fd it < fd)) first last).bind (fun firstPos =>
    (findIf l.links last (fun it => decide (l.fd it ≠ fd)) fuel firstPos).bind (fun lastPos =>
      if firstPos = lastPos then some (.ok l)
      else
        (forEach l.links lastPos mark fuel firstPos l.cell).bind (fun cell =>
          (splice fuel l.links (.sentinel .operations) l.beginCancelled (.sentinel .operations)
              firstPos lastPos).map (·.map (fun (links, begin) =>
            { l with
              links := links
              cell := cell
              beginCancelled := begin
              interest := match epollDel isOpen l.interest fd with
                | .ok reg => reg
                | .error _ => l.interest })))))

/-- `process_cancellations(next, last, ..)` with `count`; returns where the loop ends. -/
def processCancellations (threadsWaiting : Nat) (last : Node n) :
    Nat → Node n → Linked K n → Nat → Option (Except Contract (Linked K n × Nat × Node n))
  | 0, _, _, _ => none
  | fuel + 1, next, l, count =>
    if next = last then some (.ok (l, count, next))
    else
      match erase l.links (.sentinel .operations) next with
      | .error e => some (.error e)
      | .ok (links, next') =>
        match ({ l with links := links }).post threadsWaiting next with
        | .error e => some (.error e)
        | .ok l' => processCancellations threadsWaiting last fuel next' l' (count + 1)

/-- The first critical section of `poll_once`: the memory after it, `num_cancelled`, and whether
    the function returned there. -/
def pollCancellations (fuel threadsWaiting : Nat) (l : Linked K n) :
    Option (Except Contract (Linked K n × Nat × Bool)) :=
  (processCancellations threadsWaiting (.sentinel .operations) fuel l.beginCancelled l 0).map
    (·.bind (fun (l₁, numCancelled, it) =>
      let l₂ := { l₁ with beginCancelled := it }
      if l₂.beginCancelled ≠ .sentinel .operations then .error .cancellationsLeft
      else
        match IoScheduler.decrementCount l₂.pollQueueLength numCancelled with
        | .error e => .error e
        | .ok length =>
          let l₃ := { l₂ with pollQueueLength := length }
          if beginIt l₃.links (.sentinel .operations) = l₃.beginCancelled then
            if l₃.pollQueueLength ≠ 0 then .error .pollQueueLeft else .ok (l₃, numCancelled, true)
          else .ok (l₃, numCancelled, false)))

/-! ### `process_notifications` -/

/-- The variables of the loop over the operations of one event. -/
structure EventLoop (K : Type) (n : Nat) where
  mem : Linked K n
  /-- `items_for_this_fd`. -/
  itemsForFd : Nat
  /-- `items_processed_for_this_fd`. -/
  itemsProcessed : Nat
  /-- `events_to_reregister`. -/
  reregister : Events

/-- The scope guard `reset_event` fires. -/
def EventLoop.keep (st : EventLoop K n) (item : Node n) : EventLoop K n :=
  { st with reregister := st.reregister ||| (st.mem.cell item).io.interest }

/-- `item.perform_io()`: the system call, and `io` of the operation's kind on its `result_`. -/
def performIo (M : Kernel K) (l : Linked K n) (item : Node n) : Except Contract (Bool × Linked K n) :=
  let c := l.cell item
  let (out, kernel) := M.syscall c.io l.kernel
  match io c.io.kind out c.state.result with
  | .error e => .error e
  | .ok (done, result) =>
    .ok (done, { l with
      kernel := kernel
      cell := Function.update l.cell item ⟨c.op, ⟨c.state.cancelled, result⟩⟩ })

/-- The loop over the operations from `it` on, as long as they are on `fd`. -/
def eventLoop (M : Kernel K) (threadsWaiting : Nat) (fd : Int) (mask : Events) (last : Node n) :
    Nat → Node n → EventLoop K n → Option (Except Contract (EventLoop K n))
  | 0, _, _ => none
  | fuel + 1, it, st =>
    if it ≠ last ∧ st.mem.fd it = fd then
      let item := it
      let next := st.mem.links.next it
      let st := { st with itemsForFd := st.itemsForFd + 1 }
      if (st.mem.cell item).state.cancelled then
        eventLoop M threadsWaiting fd mask last fuel next (st.keep item)
      else if decide (mask &&& EPOLLIN ≠ 0) ≠ (st.mem.cell item).io.isReadOperation then
        eventLoop M threadsWaiting fd mask last fuel next (st.keep item)
      else
        match performIo M st.mem item with
        | .error e => some (.error e)
        | .ok (false, l) =>
          eventLoop M threadsWaiting fd mask last fuel next (({ st with mem := l }).keep item)
        | .ok (true, l) =>
          -- the item leaves this list before `post` links it into the completion queue
          match erase l.links (.sentinel .operations) item with
          | .error e => some (.error e)
          | .ok (links, next') =>
            match ({ l with links := links }).post threadsWaiting item with
            | .error e => some (.error e)
            | .ok l' =>
              eventLoop M threadsWaiting fd mask last fuel next'
                { st with mem := l', itemsProcessed := st.itemsProcessed + 1 }
    else some (.ok st)

/-- One event of `process_notifications`, with `total_processed`. -/
def processEvent (M : Kernel K) (fuel threadsWaiting : Nat) (ev : EpollEvent) (l : Linked K n)
    (total : Nat) : Option (Except Contract (Linked K n × Nat)) :=
  if ev.fd = l.wakeFd then some (.ok ({ l with wakeCounter := 0 }, total))
  else
    (lowerBoundIt fuel l.links (fun it => decide (l.fd it < ev.fd))
        (beginIt l.links (.sentinel .operations)) l.beginCancelled).bind (fun first =>
      (eventLoop M threadsWaiting ev.fd ev.events l.beginCancelled fuel first ⟨l, 0, 0, 0⟩).map
        (·.bind (fun st =>
          (IoScheduler.reregister (M.isOpen st.mem.kernel ev.fd) st.mem.interest ev.fd
              (decide (st.itemsForFd = st.itemsProcessed)) st.reregister).map (fun reg =>
            ({ st.mem with interest := reg }, total + st.itemsProcessed)))))

/-- `process_notifications`. -/
def processNotifications (M : Kernel K) (fuel threadsWaiting : Nat) :
    List EpollEvent → Linked K n → Nat → Option (Except Contract (Linked K n × Nat))
  | [], l, total => some (.ok (l, total))
  | ev :: evs, l, total =>
    match processEvent M fuel threadsWaiting ev l total with
    | none => none
    | some (.error e) => some (.error e)
    | some (.ok (l', total')) => processNotifications M fuel threadsWaiting evs l' total'

/-- The second critical section of `poll_once`. -/
def pollNotifications (M : Kernel K) (fuel threadsWaiting : Nat) (events : List EpollEvent)
    (l : Linked K n) : Option (Except Contract (Linked K n)) :=
  (processNotifications M fuel threadsWaiting events l 0).map (·.bind (fun (l', num) =>
    (IoScheduler.decrementCount l'.pollQueueLength num).map (fun length =>
      { l' with pollQueueLength := length })))

/-! ### The context -/

/-- The splice at the start of `run_once`: all of the completion queue goes to the end of
    `tmp`, and the queue is checked to be empty then. -/
def take (fuel : Nat) (l : Linked K n) (t : Fin n) : Option (Except Contract (Linked K n)) :=
  (splice fuel l.links (.sentinel (.batch t)) (.sentinel (.batch t)) (.sentinel .completionQueue)
      (beginIt l.links (.sentinel .completionQueue)) (.sentinel .completionQueue)).map
    (·.bind (fun (links, _) =>
      if IntrusiveList.empty links (.sentinel .completionQueue) then .ok { l with links := links }
      else .error .queueLeft))

/-- One round of `drain_list(tmp, ..)`: the first item leaves the list, and `dispatch` moves its
    handler and operation out of the storage that it is about to release. -/
def drain (l : Linked K n) (t : Fin n) : Except Contract (Linked K n) :=
  if IntrusiveList.empty l.links (.sentinel (.batch t)) then .ok l
  else
    let item := beginIt l.links (.sentinel (.batch t))
    (popFront l.links (.sentinel (.batch t))).map (fun links =>
      { l with links := links, moved := Function.update l.moved t (l.cell item) })

/-- The guard of `run_once` that puts the rest of the batch back. -/
def putBack (fuel : Nat) (l : Linked K n) (t : Fin n) : Option (Except Contract (Linked K n)) :=
  if IntrusiveList.empty l.links (.sentinel (.batch t)) then some (.ok l)
  else
    (splice fuel l.links (.sentinel .completionQueue)
        (beginIt l.links (.sentinel .completionQueue)) (.sentinel (.batch t))
        (beginIt l.links (.sentinel (.batch t))) (.sentinel (.batch t))).map
      (·.map (fun (links, _) => { l with links := links }))

/-- `drain_list(list, discard)`. -/
def drainAll (list : ListName n) : Nat → Linked K n → Option (Except Contract (Linked K n))
  | 0, _ => none
  | fuel + 1, l =>
    if IntrusiveList.empty l.links (.sentinel list) then some (.ok l)
    else
      match popFront l.links (.sentinel list) with
      | .error e => some (.error e)
      | .ok links => drainAll list fuel { l with links := links }

/-- The destructors: the queued completions are discarded, then the scheduler's operations. -/
def destroy (fuel : Nat) (l : Linked K n) : Option (Except Contract (Linked K n)) :=
  match drainAll .completionQueue fuel l with
  | some (.ok l') => drainAll .operations fuel l'
  | r => r

end Linked

/-- The part of a step that touches the lists or the memory that goes with them. -/
inductive LinkedAct (K : Type) (n : Nat)
  /-- A completion is made in the storage `loc` and posted. -/
  | post (loc : Nat) (op : AnyAsyncOperation)
  /-- An operation is made in the storage `loc` and scheduled. -/
  | schedule (loc : Nat) (op : AsyncIoOperation)
  | cancel (fd : Int)
  | pollCancellations (threadsWaiting : Nat)
  | pollNotifications (events : List EpollEvent) (threadsWaiting : Nat)
  | take (t : Fin n)
  | drain (t : Fin n)
  | putBack (t : Fin n)
  | wake (threadsWaiting : Nat)
  | destroy
  | kernel (k : K)
  | forget (fd : Int)
  /-- Nothing of it. -/
  | none

/-- The memory after an action; `none` when a loop has not ended within `fuel` rounds. -/
def Linked.act {K : Type} {n : Nat} (M : Kernel K) (fuel : Nat) (l : Linked K n) :
    LinkedAct K n → Option (Except Contract (Linked K n))
  | .post loc op => some ((l.construct loc op).enqueue (.item loc))
  | .schedule loc op =>
    (l.construct loc (.io op)).schedule fuel (M.isOpen l.kernel op.fd) (.item loc)
  | .cancel fd => l.cancel fuel (M.isOpen l.kernel fd) fd
  | .pollCancellations tw => (l.pollCancellations fuel tw).map (·.map (fun r => r.1))
  | .pollNotifications events tw => l.pollNotifications M fuel tw events
  | .take t => l.take fuel t
  | .drain t => some (l.drain t)
  | .putBack t => l.putBack fuel t
  | .wake tw => some (.ok (l.trigger tw))
  | .destroy => l.destroy fuel
  | .kernel k => some (.ok { l with kernel := k })
  | .forget fd => some (.ok { l with interest := Function.update l.interest fd none })
  | .none => some (.ok l)

end Exios
