import Mathlib.Logic.Basic

namespace Exios

/-!
# Contracts — the checks of `EXIOS_EXPECT`

`EXIOS_EXPECT(cond)` calls `contract_check_failed`, which prints the text of `cond` and
terminates the process.  A modelled function that runs such checks returns
`Except Contract _`; the constructor says which check failed.
-/

/-- The contract checks of the modelled code, one constructor per checked condition. -/
inductive Contract
  /-- `pos != end()` in `IntrusiveList::erase`. -/
  | eraseAtEnd
  /-- `!empty()` in `IntrusiveList::erase`. -/
  | eraseFromEmpty
  /-- `!(&other == this && before == first)` in `IntrusiveList::splice`. -/
  | spliceBeforeFirst
  /-- `item` in `IntrusiveList::push_front`, `push_back` and `insert`. -/
  | nullItem
  /-- `!empty()` in `IntrusiveList::pop_front` and `pop_back`. -/
  | popFromEmpty
  /-- `val == 0 || prev >= val` in `decrement_count`. -/
  | decrementBelowZero
  /-- `!error || errno == ENOENT` after `EPOLL_CTL_DEL` in `process_notifications`. -/
  | epollDelete
  /-- `epoll_ctl(efd, EPOLL_CTL_MOD, fd, &event) == 0` in `process_notifications`. -/
  | epollModify
  /-- `false && "Failed to register epoll event"` in `IoScheduler::schedule`. -/
  | epollRegister
  /-- `begin_cancelled_ == operations_.end()` in `IoScheduler::poll_once`. -/
  | cancellationsLeft
  /-- `poll_queue_length_ == 0` in `IoScheduler::poll_once`. -/
  | pollQueueLeft
  /-- `!result_` in `IoOpBase::set_result` and the `io` members of the operation kinds. -/
  | resultAlreadySet
  /-- `result_` in the `dispatch` members of the operation kinds. -/
  | resultNotSet
  /-- `!completion_queue_.empty()` in `ContextThread::post`. -/
  | queueEmpty
  /-- `completion_queue_.empty()` in `ContextThread::run_once`. -/
  | queueLeft
  /-- `prev > 0` in `ContextThread::release_work`. -/
  | releaseWithoutWork
  /-- `prev < max()` in `ContextThread::latch_work`. -/
  | latchOverflow
  /-- `name.size() < sizeof(addr_.sun_path)` in `UnixConnect` and `UnixSocketAcceptor`. -/
  | nameTooLong
deriving DecidableEq, Repr

end Exios
