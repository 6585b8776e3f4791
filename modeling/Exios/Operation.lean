import Exios.Contracts
import Mathlib.Data.BitVec

namespace Exios

/-!
# Operations — the twelve I/O kinds and their results

An `AsyncIoOperation` is its immutable part: the address of the object, its descriptor and
its kind (which fixes `is_readable`).  The mutable part, `result_` of the kind's operation
object and `is_cancelled_`, is an `OpState` kept beside it.

`io kind out` is the kind's `io(int fd)` member (`IoRead.io`, `IoWrite.io` and so on) applied to
the outcome `out` of its system call: it returns whether the operation is done, together with the
new `result_`.  The kinds are two families (`IoRead` and `IoWrite` test the outcome first and check
`result_` only when they store; all others check it first) and `SignalRead`, which stores a success
for every outcome that does not mean "try again".
-/

/-! ### Results -/

/-- The categories of `std::error_code` that the library produces. -/
inductive ErrorCategory
  | generic
  | system
deriving DecidableEq, Repr

/-- `std::error_code`. -/
structure ErrorCode where
  category : ErrorCategory
  value : Nat
deriving DecidableEq, Repr

/-- `EAGAIN`, which is also `EWOULDBLOCK` on Linux. -/
def EAGAIN : Nat := 11
/-- `EINPROGRESS`. -/
def EINPROGRESS : Nat := 115
/-- `ECANCELED`. -/
def ECANCELED : Nat := 125

/-- `std::make_error_code(std::errc::operation_canceled)`. -/
def operationCanceled : ErrorCode := ⟨.generic, ECANCELED⟩

/-- `std::error_code { errno, std::system_category() }`. -/
def systemError (errno : Nat) : ErrorCode := ⟨.system, errno⟩

/-- The success values of the result types of `io.hpp`.  Out-parameters that the kernel fills
    in (a `signalfd_siginfo`, a `msghdr`, a `sockaddr_in`) are opaque numbers. -/
inductive IoValue
  /-- `IoResult`: a byte count. -/
  | size (n : Nat)
  /-- `ConnectResult`. -/
  | connected
  /-- `AcceptResult`: the accepted descriptor. -/
  | accepted (fd : Nat)
  /-- `TimerOrEventIoResult`: the value read. -/
  | counter (v : Nat)
  /-- `SignalResult`. -/
  | siginfo (info : Nat)
  /-- `ReceiveMessageResult`: byte count and message header. -/
  | message (n hdr : Nat)
  /-- `ReceiveFromResult`: byte count and source address. -/
  | datagram (n addr : Nat)
deriving DecidableEq, Repr

/-- The contents of `result_` once it is set. -/
abbrev IoResult := Except ErrorCode IoValue

/-- The result that the library's `cancel` members emplace. -/
def cancelledResult : IoResult := .error operationCanceled

/-- Outcome of one system call: the return value or `errno`, and what the out-parameter
    holds afterwards (indeterminate when the call failed). -/
structure SysOutcome where
  ret : Except Nat Nat
  data : Nat
deriving DecidableEq

/-- The call would block. -/
def SysOutcome.wouldBlock : SysOutcome := ⟨.error EAGAIN, 0⟩

/-! ### The operation kinds -/

/-- The operation types of `io.hpp`. -/
inductive IoKind
  | ioRead
  | ioWrite
  | receiveMessage
  | sendMessage
  | netSendTo
  | netReceiveFrom
  | unixConnect
  | netConnect
  | unixAccept
  | timerExpiryOrEvent
  | eventWrite
  | signalRead
deriving DecidableEq, Repr

/-- `is_readable` of each operation type. -/
def IoKind.isReadable : IoKind → Bool
  | .ioRead | .receiveMessage | .netReceiveFrom | .unixAccept | .timerExpiryOrEvent
  | .signalRead => true
  | .ioWrite | .sendMessage | .netSendTo | .unixConnect | .netConnect | .eventWrite => false

/-- `errno == EAGAIN || errno == EINPROGRESS`, also as spelled with
    `operation_would_block` and `operation_in_progress`. -/
def isPending (errno : Nat) : Bool := decide (errno = EAGAIN ∨ errno = EINPROGRESS)

/-- `set_result` of `IoOpBase`. -/
def setResult (result : Option IoResult) (r : IoResult) :
    Except Contract (Bool × Option IoResult) :=
  if result.isSome then .error .resultAlreadySet else .ok (true, some r)

/-- The common shape of `IoRead::io` and `IoWrite::io`: only `operation_would_block` means "try
    again", and `result_` is checked when it is set. -/
def streamIo (out : SysOutcome) (result : Option IoResult) :
    Except Contract (Bool × Option IoResult) :=
  match out.ret with
  | .error e =>
    if e = EAGAIN then .ok (false, result) else setResult result (.error (systemError e))
  | .ok n => setResult result (.ok (.size n))

/-- The common shape of the other kinds: check `result_`, leave it alone when the call is
    pending, and store the error or the value `ok` makes of the outcome. -/
def checkedIo (ok : Nat → Nat → IoValue) (out : SysOutcome) (result : Option IoResult) :
    Except Contract (Bool × Option IoResult) :=
  if result.isSome then .error .resultAlreadySet
  else
    match out.ret with
    | .error e => if isPending e then .ok (false, none) else .ok (true, some (.error (systemError e)))
    | .ok n => .ok (true, some (.ok (ok n out.data)))

/-- An `io` member: the outcome of its system call and `result_` before it; whether the operation
    is done and `result_` after it. -/
abbrev IoMember := SysOutcome → Option IoResult → Except Contract (Bool × Option IoResult)

/-- `IoRead::io`. -/
def IoRead.io : IoMember := streamIo

/-- `IoWrite::io`. -/
def IoWrite.io : IoMember := streamIo

/-- `UnixConnect::io`: a `ConnectResult` has no value. -/
def UnixConnect.io : IoMember := checkedIo (fun _ _ => .connected)

/-- `NetConnect::io`. -/
def NetConnect.io : IoMember := checkedIo (fun _ _ => .connected)

/-- `UnixAccept::io`: the value is the descriptor that `::accept` returned. -/
def UnixAccept.io : IoMember := checkedIo (fun n _ => .accepted n)

/-- `TimerExpiryOrEvent::io`: the value is what was read, not the size. -/
def TimerExpiryOrEvent.io : IoMember := checkedIo (fun _ v => .counter v)

/-- `EventWrite::io`. -/
def EventWrite.io : IoMember := checkedIo (fun n _ => .size n)

/-- `SignalRead::io`: `result_ok(val)` is stored whether or not the read succeeded. -/
def SignalRead.io : IoMember := fun out result =>
  if result.isSome then .error .resultAlreadySet
  else
    match out.ret with
    | .error e =>
      if isPending e then .ok (false, none) else .ok (true, some (.ok (.siginfo out.data)))
    | .ok _ => .ok (true, some (.ok (.siginfo out.data)))

/-- `SendMessage::io`. -/
def SendMessage.io : IoMember := checkedIo (fun n _ => .size n)

/-- `ReceiveMessage::io`. -/
def ReceiveMessage.io : IoMember := checkedIo (fun n hdr => .message n hdr)

/-- `NetSendTo::io`. -/
def NetSendTo.io : IoMember := checkedIo (fun n _ => .size n)

/-- `NetReceiveFrom::io`: the value has the address that `::recvfrom` filled in. -/
def NetReceiveFrom.io : IoMember := checkedIo (fun n addr => .datagram n addr)

/-- The `io(int fd)` member of each kind. -/
def io : IoKind → IoMember
  | .ioRead => IoRead.io
  | .ioWrite => IoWrite.io
  | .receiveMessage => ReceiveMessage.io
  | .sendMessage => SendMessage.io
  | .netSendTo => NetSendTo.io
  | .netReceiveFrom => NetReceiveFrom.io
  | .unixConnect => UnixConnect.io
  | .netConnect => NetConnect.io
  | .unixAccept => UnixAccept.io
  | .timerExpiryOrEvent => TimerExpiryOrEvent.io
  | .eventWrite => EventWrite.io
  | .signalRead => SignalRead.io

/-- The success value that each kind derives from the return value and the data its system
    call fills in. -/
def IoKind.okValue : IoKind → Nat → Nat → IoValue
  | .ioRead | .ioWrite | .sendMessage | .netSendTo | .eventWrite => fun n _ => .size n
  | .receiveMessage => fun n hdr => .message n hdr
  | .netReceiveFrom => fun n addr => .datagram n addr
  | .unixConnect | .netConnect => fun _ _ => .connected
  | .unixAccept => fun n _ => .accepted n
  | .timerExpiryOrEvent => fun _ v => .counter v
  | .signalRead => fun _ info => .siginfo info

/-- All kinds but three have the common shape, each with its own value. -/
theorem io_eq_checkedIo {kind : IoKind}
    (h : kind ≠ .ioRead ∧ kind ≠ .ioWrite ∧ kind ≠ .signalRead) :
    io kind = checkedIo kind.okValue := by
  obtain ⟨hread, hwrite, hsignal⟩ := h
  cases kind
  case ioRead => exact absurd rfl hread
  case ioWrite => exact absurd rfl hwrite
  case signalRead => exact absurd rfl hsignal
  all_goals rfl

/-- The two good outcomes of an `io` call on an operation without a result: it is pending and
    still has none, or it is done with a result that is not the one of `cancel`. -/
def PendingOrStored (x : Except Contract (Bool × Option IoResult)) : Prop :=
  x = .ok (false, none) ∨ ∃ r, x = .ok (true, some r) ∧ r ≠ cancelledResult

/-- A system error is in another category than the cancellation. -/
theorem systemError_ne_cancelledResult (e : Nat) :
    (Except.error (systemError e) : IoResult) ≠ cancelledResult := by
  intro h
  simp [cancelledResult, systemError, operationCanceled] at h

/-- A value is not the cancelled result. -/
theorem ok_ne_cancelledResult (v : IoValue) : (Except.ok v : IoResult) ≠ cancelledResult := by
  intro h
  simp [cancelledResult] at h

theorem streamIo_unset (out : SysOutcome) : PendingOrStored (streamIo out none) := by
  unfold streamIo
  cases out.ret with
  | error e =>
    by_cases he : e = EAGAIN
    · exact Or.inl (by simp [he])
    · exact Or.inr ⟨_, if_neg he, systemError_ne_cancelledResult e⟩
  | ok n => exact Or.inr ⟨_, rfl, ok_ne_cancelledResult _⟩

theorem checkedIo_unset (ok : Nat → Nat → IoValue) (out : SysOutcome) :
    PendingOrStored (checkedIo ok out none) := by
  unfold checkedIo
  cases out.ret with
  | error e =>
    by_cases he : isPending e = true
    · exact Or.inl (if_pos he)
    · exact Or.inr ⟨_, if_neg he, systemError_ne_cancelledResult e⟩
  | ok n => exact Or.inr ⟨_, rfl, ok_ne_cancelledResult _⟩

theorem signalReadIo_unset (out : SysOutcome) : PendingOrStored (SignalRead.io out none) := by
  unfold SignalRead.io
  cases out.ret with
  | error e =>
    by_cases he : isPending e = true
    · exact Or.inl (if_pos he)
    · exact Or.inr ⟨_, if_neg he, ok_ne_cancelledResult _⟩
  | ok n => exact Or.inr ⟨_, rfl, ok_ne_cancelledResult _⟩

/-- **Spec of `io`.** On an operation without a result, every kind is pending or stores. -/
theorem io_unset (kind : IoKind) (out : SysOutcome) : PendingOrStored (io kind out none) := by
  cases kind
  case ioRead => exact streamIo_unset out
  case ioWrite => exact streamIo_unset out
  case signalRead => exact signalReadIo_unset out
  all_goals
    rw [io_eq_checkedIo (by simp)]
    exact checkedIo_unset _ out

/-- A call that succeeded completes its operation. -/
theorem io_of_ok (kind : IoKind) (n data : Nat) :
    ∃ v, io kind ⟨.ok n, data⟩ none = .ok (true, some (.ok v)) := by
  cases kind <;> exact ⟨_, rfl⟩

/-! ### Faithful outcomes -/

/-- The end `x` of an `io` call without a result reports the outcome `out` faithfully: it is
    "not done" only for a pending call, and otherwise stores the `errno` of a failed call or
    the value of a successful one. -/
def Reports (ok : Nat → Nat → IoValue) (out : SysOutcome)
    (x : Except Contract (Bool × Option IoResult)) : Prop :=
  (∀ r, x = .ok (false, r) → r = none ∧ ∃ e, out.ret = .error e ∧ isPending e = true) ∧
  ((∀ r, x ≠ .ok (false, r)) → ∃ r, x = .ok (true, some r) ∧
    (∀ e, r = .error (systemError e) ↔ out.ret = .error e) ∧
    (∀ n, out.ret = .ok n → r = .ok (ok n out.data)))

theorem reports_pending {ok : Nat → Nat → IoValue} {out : SysOutcome} {e : Nat}
    (he : out.ret = .error e) (hp : isPending e = true) : Reports ok out (.ok (false, none)) := by
  refine ⟨?_, fun hdone => absurd rfl (hdone none)⟩
  intro r hr
  simp only [Except.ok.injEq, Prod.mk.injEq, true_and] at hr
  exact ⟨hr.symm, e, he, hp⟩

theorem reports_error {ok : Nat → Nat → IoValue} {out : SysOutcome} {e : Nat}
    (he : out.ret = .error e) : Reports ok out (.ok (true, some (.error (systemError e)))) := by
  refine ⟨by simp, fun _ => ⟨_, rfl, ?_, by simp [he]⟩⟩
  intro e'
  simp [systemError, he]

theorem reports_ok {ok : Nat → Nat → IoValue} {out : SysOutcome} {n : Nat}
    (hn : out.ret = .ok n) : Reports ok out (.ok (true, some (.ok (ok n out.data)))) := by
  refine ⟨by simp, fun _ => ⟨_, rfl, by simp [hn], ?_⟩⟩
  intro n' hn'
  rw [hn, Except.ok.injEq] at hn'
  rw [hn']

/-- A failed call that is stored as a success is not reported. -/
theorem not_reports_ok {ok : Nat → Nat → IoValue} {out : SysOutcome} {e : Nat}
    (he : out.ret = .error e) (v : IoValue) : ¬ Reports ok out (.ok (true, some (.ok v))) := by
  rintro ⟨_, hdone⟩
  obtain ⟨r, hr, herr, _⟩ := hdone (by simp)
  simp only [Except.ok.injEq, Prod.mk.injEq, Option.some.injEq, true_and] at hr
  rw [← hr] at herr
  exact absurd ((herr e).mpr he) (by simp)

/-- Reads and writes report the outcome of their call. -/
theorem streamIo_reports (out : SysOutcome) :
    Reports (fun n _ => .size n) out (streamIo out none) := by
  unfold streamIo
  cases hret : out.ret with
  | error e =>
    simp only
    split
    · rename_i he
      exact reports_pending hret (by simp [isPending, he])
    · exact reports_error hret
  | ok n => exact reports_ok hret

/-- The kinds that share `checkedIo` report it too. -/
theorem checkedIo_reports (ok : Nat → Nat → IoValue) (out : SysOutcome) :
    Reports ok out (checkedIo ok out none) := by
  unfold checkedIo
  cases hret : out.ret with
  | error e =>
    rw [if_neg (by simp)]
    simp only
    split
    · rename_i he
      exact reports_pending hret he
    · exact reports_error hret
  | ok n => exact reports_ok hret

/-- `SignalRead::io` reports all outcomes but the failures that do not mean "try again". -/
theorem signalReadIo_reports (out : SysOutcome) :
    Reports (fun _ info => .siginfo info) out (SignalRead.io out none)
      ↔ ¬ ∃ e, out.ret = .error e ∧ isPending e = false := by
  unfold SignalRead.io
  cases hret : out.ret with
  | error e =>
    rw [if_neg (by simp)]
    simp only
    -- a spurious wake-up, then a failure that is stored as a success
    split
    · rename_i he
      have hnot : ¬ ∃ e', (Except.error e : Except Nat Nat) = .error e' ∧ isPending e' = false := by
        rintro ⟨e', heq, hp⟩
        rw [Except.error.injEq] at heq
        rw [← heq, he] at hp
        exact absurd hp (by simp)
      exact iff_of_true (reports_pending hret he) hnot
    · rename_i he
      refine iff_of_false (not_reports_ok hret _) (not_not.mpr ⟨e, rfl, ?_⟩)
      simpa using he
  | ok n =>
    have hok : Reports (fun _ info => .siginfo info) out
        (.ok (true, some (.ok (.siginfo out.data)))) := reports_ok hret
    exact iff_of_true hok (by simp)

/-- **Faithful outcomes.** Every kind reports every outcome of its system call, except that
    `SignalRead` stores a success for a failed read that does not mean "try again". -/
theorem io_reports_iff (kind : IoKind) (out : SysOutcome) :
    Reports kind.okValue out (io kind out none)
      ↔ ¬ (kind = .signalRead ∧ ∃ e, out.ret = .error e ∧ isPending e = false) := by
  cases kind
  case signalRead =>
    rw [eq_self, true_and]
    exact signalReadIo_reports out
  case ioRead => exact iff_of_true (streamIo_reports out) (by simp)
  case ioWrite => exact iff_of_true (streamIo_reports out) (by simp)
  all_goals
    rw [io_eq_checkedIo (by simp)]
    exact iff_of_true (checkedIo_reports _ out) (by simp)

/-- A signal read that fails with `EBADF` (9), on a closed descriptor, is reported as a
    signal. -/
theorem io_signalRead_failed :
    ¬ Reports (IoKind.okValue .signalRead) ⟨.error 9, 0⟩ (io .signalRead ⟨.error 9, 0⟩ none) := by
  apply not_reports_ok
  rfl

/-! ### Operations -/

/-- `AsyncIoOperation`: the fields fixed at construction.  `addr` is the identity of the
    object; the model never reuses it. -/
structure AsyncIoOperation where
  addr : Nat
  fd : Int
  kind : IoKind
deriving DecidableEq, Repr

/-- `is_read_operation()`. -/
def AsyncIoOperation.isReadOperation (op : AsyncIoOperation) : Bool := op.kind.isReadable

/-- The fields of an operation that change: `is_cancelled_` and the kind's `result_`. -/
structure OpState where
  cancelled : Bool
  result : Option IoResult

/-- A newly constructed operation. -/
def OpState.fresh : OpState := ⟨false, none⟩

/-- `AsyncIoOperation::cancel`: `do_cancel` emplaces the cancellation result, whatever
    `result_` held, then the flag is set. -/
def OpState.cancel (_ : OpState) : OpState := ⟨true, some cancelledResult⟩

/-! ### Event masks -/

/-- The `events` field of an `epoll_event`. -/
abbrev Events := BitVec 32

/-- `EPOLLIN`. -/
def EPOLLIN : Events := 0x001#32
/-- `EPOLLOUT`. -/
def EPOLLOUT : Events := 0x004#32

/-- The interest bit of an operation: `is_read_operation() ? EPOLLIN : EPOLLOUT`. -/
def AsyncIoOperation.interest (op : AsyncIoOperation) : Events :=
  if op.isReadOperation then EPOLLIN else EPOLLOUT

/-- The mask contains the bit. -/
def Events.Has (mask bit : Events) : Prop := mask &&& bit = bit

instance (mask bit : Events) : Decidable (Events.Has mask bit) :=
  inferInstanceAs (Decidable (mask &&& bit = bit))

theorem Events.has_self (bit : Events) : Events.Has bit bit := BitVec.and_self

theorem Events.Has.or_left {mask bit : Events} (h : Events.Has mask bit) (other : Events) :
    Events.Has (mask ||| other) bit := by
  unfold Events.Has at h ⊢
  rw [BitVec.and_comm, BitVec.and_or_distrib_left, BitVec.and_comm bit mask, h]
  ext i hi
  simp only [BitVec.getElem_or, BitVec.getElem_and]
  cases bit[i] <;> simp

theorem Events.Has.or_right {mask bit : Events} (h : Events.Has mask bit) (other : Events) :
    Events.Has (other ||| mask) bit := by
  rw [BitVec.or_comm]
  exact h.or_left other

end Exios
