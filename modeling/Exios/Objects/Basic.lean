import Exios.FileDescriptor
import Exios.Scheduler.Runs

namespace Exios

/-!
# I/O objects — descriptors, objects and pending operations together

The scheduler runs against a kernel with a descriptor table: each open descriptor has a
generation, so that a number that is closed and handed out again denotes another descriptor,
and a mode.  Objects are the values of `FileDescriptor.lean`; what they close is closed in the
table and loses its epoll registration.

* `ObjectCtor.flags` — the flags that each constructor of an I/O object passes to the call
  that creates its descriptor;
* `IoKind.callFlags` — the flags of the call that each operation kind makes;
* `Files.syscall` — the kernel's side of an operation; `::accept` passes no flags;
* `Objects.step` — programs that construct, move, close and destroy objects, start operations
  on them, cancel and poll.
-/

/-! ### Flags -/

/-- A flags argument. -/
abbrev Flags := BitVec 32

/-- `SOCK_STREAM`. -/
def SOCK_STREAM : Flags := 0x1#32
/-- `SOCK_DGRAM`. -/
def SOCK_DGRAM : Flags := 0x2#32
/-- `EFD_SEMAPHORE`. -/
def EFD_SEMAPHORE : Flags := 0x1#32
/-- `O_NONBLOCK`, which is also `SOCK_NONBLOCK`, `TFD_NONBLOCK`, `EFD_NONBLOCK` and
    `SFD_NONBLOCK`. -/
def O_NONBLOCK : Flags := 0x800#32
/-- `O_CLOEXEC`, which is also `SOCK_CLOEXEC`, `TFD_CLOEXEC`, `EFD_CLOEXEC` and
    `SFD_CLOEXEC`. -/
def O_CLOEXEC : Flags := 0x80000#32
/-- `MSG_DONTWAIT`. -/
def MSG_DONTWAIT : Flags := 0x40#32
/-- `MSG_NOSIGNAL`. -/
def MSG_NOSIGNAL : Flags := 0x4000#32
/-- `EBADF`. -/
def EBADF : Nat := 9

/-- The flags of the system call of each kind: only `recvmsg` and `sendmsg` get any. -/
def IoKind.callFlags : IoKind → Flags
  | .receiveMessage | .sendMessage => MSG_DONTWAIT ||| MSG_NOSIGNAL
  | .ioRead | .ioWrite | .netSendTo | .netReceiveFrom | .unixConnect | .netConnect | .unixAccept
  | .timerExpiryOrEvent | .eventWrite | .signalRead => 0

/-- The call passes `MSG_DONTWAIT`. -/
def IoKind.dontWait (kind : IoKind) : Bool := decide (kind.callFlags &&& MSG_DONTWAIT ≠ 0)

/-! ### The object types -/

/-- The I/O object types. -/
inductive ObjectKind
  | timer
  | event
  | signal
  | unixSocket
  | unixSocketAcceptor
  | tcpSocket
  | tcpSocketAcceptor
  | udpSocket
deriving DecidableEq, Repr

/-- The operations that the members of each type start. -/
def ObjectKind.performs : ObjectKind → IoKind → Bool
  | .timer, kind => kind = .timerExpiryOrEvent
  | .event, kind => kind = .timerExpiryOrEvent ∨ kind = .eventWrite
  | .signal, kind => kind = .signalRead
  | .unixSocket, kind =>
    kind ∈ [IoKind.unixConnect, .ioRead, .receiveMessage, .ioWrite, .sendMessage]
  | .tcpSocket, kind =>
    kind ∈ [IoKind.netConnect, .ioRead, .receiveMessage, .ioWrite, .sendMessage]
  | .unixSocketAcceptor, kind => kind = .unixAccept
  | .tcpSocketAcceptor, kind => kind = .unixAccept
  | .udpSocket, kind =>
    kind ∈ [IoKind.netConnect, .netReceiveFrom, .netSendTo, .ioRead, .ioWrite]

/-- The type can be the target of an `accept`. -/
def ObjectKind.isTarget : ObjectKind → Bool
  | .unixSocket | .tcpSocket => true
  | _ => false

/-- The constructors that create a descriptor. -/
inductive ObjectCtor
  | timer
  | event
  | semaphoreEvent
  | signal
  | unixSocket
  | unixSocketAcceptor
  | tcpSocket
  | tcpSocketAcceptor
  | udpSocket
deriving DecidableEq, Repr

/-- The type that a constructor constructs. -/
def ObjectCtor.kind : ObjectCtor → ObjectKind
  | .timer => .timer
  | .event => .event
  | .semaphoreEvent => .event
  | .signal => .signal
  | .unixSocket => .unixSocket
  | .unixSocketAcceptor => .unixSocketAcceptor
  | .tcpSocket => .tcpSocket
  | .tcpSocketAcceptor => .tcpSocketAcceptor
  | .udpSocket => .udpSocket

/-- The flags of `timerfd_create`, `eventfd` and `signalfd`, and the type argument of
    `socket`, in each constructor. -/
def ObjectCtor.flags : ObjectCtor → Flags
  | .timer => O_NONBLOCK ||| O_CLOEXEC
  | .event => O_CLOEXEC ||| O_NONBLOCK
  | .semaphoreEvent => O_CLOEXEC ||| O_NONBLOCK ||| EFD_SEMAPHORE
  | .signal => O_NONBLOCK ||| O_CLOEXEC
  | .unixSocket => SOCK_STREAM ||| O_NONBLOCK ||| O_CLOEXEC
  | .unixSocketAcceptor => SOCK_STREAM ||| O_NONBLOCK ||| O_CLOEXEC
  | .tcpSocket => SOCK_STREAM ||| O_NONBLOCK ||| O_CLOEXEC
  | .tcpSocketAcceptor => SOCK_STREAM ||| O_NONBLOCK ||| O_CLOEXEC
  | .udpSocket => SOCK_DGRAM ||| O_NONBLOCK ||| O_CLOEXEC

/-! ### The descriptor table -/

/-- What an open descriptor number denotes. -/
structure OpenFile where
  generation : Nat
  nonblocking : Bool
  /-- The descriptor was returned by `::accept`. -/
  accepted : Bool
deriving DecidableEq, Repr

/-- The kernel: the open descriptors, and what it will answer to the next system calls.  No
    generation is given out twice. -/
structure Files where
  file : Int → Option OpenFile
  next : Nat
  /-- The outcomes of the next system calls. -/
  answers : List SysOutcome
  /-- The numbers that the next successful `::accept` calls return. -/
  numbers : List Nat
  fresh : ∀ n f, file n = some f → f.generation < next

namespace Files

/-- Nothing is open.  Descriptors of the process that the library does not open are not in
    the table. -/
def empty : Files := ⟨fun _ => none, 0, [], [], by simp⟩

def isOpen (k : Files) (n : Int) : Bool := (k.file n).isSome

/-- The generation of the descriptor that the number denotes. -/
def generation (k : Files) (n : Int) : Option Nat := (k.file n).map (·.generation)

/-- The kernel opens a descriptor; non-blocking mode is set only where the flags ask for it. -/
def acquire (k : Files) (n : Int) (flags : Flags) (accepted : Bool) : Files where
  file := Function.update k.file n
    (some ⟨k.next, decide (flags &&& O_NONBLOCK ≠ 0), accepted⟩)
  next := k.next + 1
  answers := k.answers
  numbers := k.numbers
  fresh := by
    intro m f hf
    rw [Function.update_apply] at hf
    split at hf
    · rw [← Option.some.inj hf]
      exact Nat.lt_succ_self _
    · exact Nat.lt_succ_of_lt (k.fresh m f hf)

/-- `::close(n)`. -/
def close (k : Files) (n : Int) : Files where
  file := Function.update k.file n none
  next := k.next
  answers := k.answers
  numbers := k.numbers
  fresh := by
    intro m f hf
    rw [Function.update_apply] at hf
    split at hf
    · exact absurd hf (by simp)
    · exact k.fresh m f hf

/-- The system call of an operation.  `::accept(fd, nullptr, nullptr)` opens a descriptor under
    a number that is not in use. -/
def syscall (op : AsyncIoOperation) (k : Files) : SysOutcome × Files :=
  let out := k.answers.headD .wouldBlock
  let k₁ := { k with answers := k.answers.tail }
  if k.isOpen op.fd = false then (⟨.error EBADF, 0⟩, k₁)
  else if op.kind = .unixAccept then
    match out.ret, k.numbers with
    | .ok _, n :: rest =>
      if k.isOpen n then (.wouldBlock, k₁)
      else (⟨.ok n, 0⟩, { k₁ with numbers := rest }.acquire n 0 true)
    | .ok _, [] => (.wouldBlock, k₁)
    | .error _, _ => (out, k₁)
  else (out, k₁)

end Files

/-- The kernel with a descriptor table. -/
def filesKernel : Kernel Files := ⟨Files.syscall, Files.isOpen⟩

/-- `::close(n)` and what it does to the epoll registrations. -/
def Sched.closeCall (s : Sched Files) (n : Int) : Sched Files :=
  if s.kernel.isOpen n then
    { s with
      kernel := s.kernel.close n
      io := { s.io with interest := Function.update s.io.interest n none } }
  else s

/-- The calls a value made, as the kernel sees them. -/
def Sched.observe (s : Sched Files) : FdEvent → Sched Files
  | .closed n => s.closeCall n
  | .acquired _ => s

/-! ### Programs with objects -/

/-- The live objects, the scheduler they share, and the history. -/
structure Objects where
  values : Values
  /-- The types of the values. -/
  kind : Nat → ObjectKind
  sched : Sched Files
  /-- The generation that the descriptor of an operation denoted when it was scheduled. -/
  born : AsyncIoOperation → Option Nat
  /-- `accept` operations whose completion has assigned the target. -/
  assigned : List AsyncIoOperation

/-- What a program does. -/
inductive ObjectAct
  /-- A constructor, whose call returns the number. -/
  | construct (a : Nat) (ctor : ObjectCtor) (fd : Nat)
  /-- A step on values that creates no descriptor. -/
  | value (act : FdAct)
  /-- `target = UnixSocket { ctx, fd }` (or `TcpSocket`) in the completion of an `accept`. -/
  | assignAccepted (target tmp : Nat) (op : AsyncIoOperation)
  /-- An asynchronous member of an object.  On a timer it is the free function
      `wait_for_timer_expiry_after`; the member `Timer::wait_for_expiry_after` is a `cancel` and
      then this. -/
  | schedule (a : Nat) (addr : Nat) (kind : IoKind)
  /-- `IoObject::cancel()`. -/
  | cancel (a : Nat) (fuel : Nat)
  | pollCancellations (threadsWaiting : Nat)
  | pollNotifications (events : List EpollEvent) (threadsWaiting : Nat) (answers : List SysOutcome)
      (numbers : List Nat)
  | wake (threadsWaiting : Nat)

namespace Objects

/-- Nothing exists yet. -/
def Init (s : Objects) : Prop :=
  ∃ kind wakeFd, s = ⟨⟨fun _ => none, fun _ => false, []⟩, kind,
    ⟨IoScheduler.init wakeFd, .empty, [], [], [], []⟩, fun _ => none, []⟩

/-- The values after some of their members ran, with their calls made. -/
def withValues (s : Objects) (v : Values) : Objects :=
  { s with
    values := v
    sched := (v.trace.drop s.values.trace.length).foldl Sched.observe s.sched }

/-- Moves, assignments and swaps are between values of one type. -/
def typed (s : Objects) : FdAct → Bool
  | .moveConstruct a b | .moveAssign a b | .swap a b => s.kind a = s.kind b
  | _ => true

/-- The steps of `target = UnixSocket { ctx, n }`, where `tmp` is the temporary. -/
def assignment (target tmp : Nat) (n : Int) : List FdAct :=
  [.construct tmp n, .moveAssign target tmp, .destroy tmp]

/-- The descriptor that a completed `accept` returned. -/
def acceptedBy (s : Objects) (op : AsyncIoOperation) : Option Nat :=
  match (s.sched.io.state op).result with
  | some (.ok (.accepted n)) => some n
  | _ => none

/-- One step.  A constructor whose call fails throws, so it leaves no object; the `schedule` of a
    timer is that of the free function, without the `cancel` of the member. -/
def step (s : Objects) : ObjectAct → Option Objects
  | .construct a ctor fd =>
    if s.values.idle (.construct a fd) && !s.sched.kernel.isOpen fd && s.kind a = ctor.kind then
      (s.values.call (.construct a fd)).map (fun v =>
        { s with
          values := v
          sched := { s.sched with kernel := s.sched.kernel.acquire fd ctor.flags false } })
    else none
  | .value act =>
    if act.handedOut = none && s.values.idle act && s.typed act then
      (s.values.call act).map s.withValues
    else none
  | .assignAccepted target tmp op =>
    if op ∈ s.sched.posted && op ∉ s.assigned && (s.kind target).isTarget && target ≠ tmp &&
        s.values.idle (.moveAssign target tmp) then
      (s.acceptedBy op).bind (fun n =>
        (Transition.exec Values.call s.values (assignment target tmp n)).map (fun v =>
          { s.withValues v with assigned := s.assigned ++ [op] }))
    else none
  | .schedule a addr kind =>
    if !s.values.closing a && (s.kind a).performs kind then
      (s.values.fd a).bind (fun fd =>
        (Sched.step filesKernel s.sched (.schedule ⟨addr, fd, kind⟩)).map (fun sched =>
          { s with
            sched := sched
            born := Function.update s.born ⟨addr, fd, kind⟩ (s.sched.kernel.generation fd) }))
    else none
  | .cancel a fuel =>
    if s.values.closing a then none
    else
      (s.values.fd a).bind (fun fd =>
        (Sched.step filesKernel s.sched (.cancel fd fuel)).map (fun sched =>
          { s with sched := sched }))
  | .pollCancellations tw =>
    (Sched.step filesKernel s.sched (.pollCancellations tw)).map (fun sched =>
      { s with sched := sched })
  | .pollNotifications events tw answers numbers =>
    (Sched.step filesKernel
        { s.sched with kernel := { s.sched.kernel with answers := answers, numbers := numbers } }
        (.pollNotifications events tw)).map (fun sched => { s with sched := sched })
  | .wake tw =>
    (Sched.step filesKernel s.sched (.wake tw)).map (fun sched => { s with sched := sched })

/-- States reached by runs whose steps satisfy `ok`. -/
def Reach (ok : Objects → ObjectAct → Prop) : Objects → Prop := Transition.Reach Init step ok

end Objects

end Exios
