import Exios.Context.Steps
import Exios.Scheduler.Cancellation

namespace Exios

/-!
# Context — the scheduler's list and the operations' results

The scheduler's critical sections, interleaved by any number of threads:

* `ResultInv` — the scheduler's run invariant, and for every I/O operation that has left the
  scheduler: it was posted, so it has a result; the delivered result is the one of `cancel`
  exactly when a `cancel` struck the operation while it was active;
* `step_error` — the only contract checks that can fail are those on `epoll_ctl` and on the
  work count;
* `representation_invariant`, `result_protocol` — the two results, for every reachable state.
-/

/-- The checks that depend on the kernel or on the callers: those on `epoll_ctl` and on the
    work count. -/
def Contract.IsExternal (c : Contract) : Prop :=
  c = .epollRegister ∨ c = .epollDelete ∨ c = .epollModify ∨ c = .releaseWithoutWork ∨
    c = .latchOverflow

namespace ContextThread

variable {K : Type} {n : Nat} {M : Kernel K} {s s' : ContextThread K n} {t : Fin n}

/-- The invariant of the scheduler and of the results. -/
structure ResultInv (s : ContextThread K n) : Prop where
  live : s.destroyed = false → s.sched.Inv
  queue : ∀ op, .io op ∈ s.completionQueue → op ∈ s.sched.posted
  batch : ∀ u op, .io op ∈ (s.threads u).batch → op ∈ s.sched.posted
  invoke : ∀ u op, (s.threads u).pc = .invoke (.io op) → op ∈ s.sched.posted
  delivered : ∀ op r, .invoked (.io op) r ∈ s.log →
    op ∈ s.sched.posted ∧ ∃ res, r = some res ∧ (res = cancelledResult ↔ op ∈ s.sched.struck)
  attempts : ∀ a ∈ s.sched.attempts, a.result = none

namespace ResultInv

/-- Mutexes and counters are not part of the invariant. -/
theorem shared (h : s.ResultInv) (sm dm : Option (Fin n)) (rc tw : Nat)
    (handed : List AnyAsyncOperation) :
    ({ s with schedMutex := sm, dataMutex := dm, remainingCount := rc, threadsWaiting := tw,
              handed := handed }).ResultInv :=
  ⟨h.live, h.queue, h.batch, h.invoke, h.delivered, h.attempts⟩

/-- The queue holds other operations that the scheduler has posted. -/
theorem withQueue (h : s.ResultInv) {queue : List AnyAsyncOperation}
    (hqueue : ∀ op, .io op ∈ queue → op ∈ s.sched.posted) :
    ({ s with completionQueue := queue }).ResultInv :=
  ⟨h.live, hqueue, h.batch, h.invoke, h.delivered, h.attempts⟩

/-- The storage of an operation is released. -/
theorem withReleased (h : s.ResultInv) (op : AnyAsyncOperation) :
    ({ s with log := s.log ++ [Consumption.released op] }).ResultInv :=
  ⟨h.live, h.queue, h.batch, h.invoke, fun x r hx => h.delivered x r (by simpa using hx),
    h.attempts⟩

/-- A thread takes a batch, or goes to an invocation, of operations that the scheduler has
    posted. -/
theorem withBatch (h : s.ResultInv) {f : Thread → Thread}
    (hbatch : ∀ op, .io op ∈ (f (s.threads t)).batch → op ∈ s.sched.posted)
    (hinvoke : ∀ op, (f (s.threads t)).pc = .invoke (.io op) → op ∈ s.sched.posted) :
    (s.mapThread t f).ResultInv where
  live := h.live
  queue := h.queue
  batch := fun u op hop => by
    rw [mapThread_threads] at hop
    split at hop
    · -- the thread whose step it is
      rename_i hu
      subst hu
      exact hbatch op hop
    · exact h.batch u op hop
  invoke := fun u op hop => by
    rw [mapThread_threads] at hop
    split at hop
    · rename_i hu
      subst hu
      exact hinvoke op hop
    · exact h.invoke u op hop
  delivered := h.delivered
  attempts := h.attempts

/-- A thread goes on without touching its batch, and not to an invocation. -/
theorem mapThread (h : s.ResultInv) {f : Thread → Thread} (hbatch : ∀ th, (f th).batch = th.batch)
    (hpc : ∀ op, (f (s.threads t)).pc = .invoke op → (s.threads t).pc = .invoke op) :
    (s.mapThread t f).ResultInv := by
  refine h.withBatch (fun op hop => ?_) (fun op hop => h.invoke t op (hpc _ hop))
  rw [hbatch] at hop
  exact h.batch t op hop

/-- A thread goes on to a position that invokes nothing. -/
theorem goto (h : s.ResultInv) {pc : Pc} (hpc : ∀ op, pc ≠ .invoke op) : (s.goto t pc).ResultInv :=
  h.mapThread (fun _ => rfl) (fun op hop => absurd hop (hpc op))

/-- A call invokes nothing. -/
theorem setCall (h : s.ResultInv) (call : Call) : (s.setCall t call).ResultInv :=
  h.mapThread (fun _ => rfl) (fun _ hop => hop)

/-- Nor does being woken up. -/
theorem notifyAll (h : s.ResultInv) : s.notifyAll.ResultInv where
  live := h.live
  queue := h.queue
  batch := fun u op hop => h.batch u op (by simpa using hop)
  invoke := fun u op hop => by
    rw [notifyAll_pc] at hop
    split at hop
    · exact absurd hop (by simp)
    · exact h.invoke u op hop
  delivered := h.delivered
  attempts := h.attempts

/-- A critical section of the scheduler, which keeps its invariant and what it has posted. -/
theorem withSched (h : s.ResultInv) {sched : Sched K} (hinv : sched.Inv)
    (hext : Sched.Extends s.sched sched) : ({ s with sched := sched }).ResultInv where
  live := fun _ => hinv
  queue := fun op hop => hext.posted op (h.queue op hop)
  batch := fun u op hop => hext.posted op (h.batch u op hop)
  invoke := fun u op hop => hext.posted op (h.invoke u op hop)
  delivered := by
    intro op r hop
    obtain ⟨hposted, res, hr, hiff⟩ := h.delivered op r hop
    exact ⟨hext.posted op hposted, res, hr, hiff.trans (hext.struck op hposted).symm⟩
  attempts := fun a ha => (hinv.attempts a ha).2

/-- Operations that the scheduler has posted enter the queue. -/
theorem enqueue (h : s.ResultInv) {ops : List AsyncIoOperation}
    (hops : ∀ op ∈ ops, op ∈ s.sched.posted) : (s.enqueue ops).ResultInv := by
  unfold ContextThread.enqueue
  split
  · exact h
  · refine notifyAll ⟨h.live, ?_, h.batch, h.invoke, h.delivered, h.attempts⟩
    intro op hop
    rcases List.mem_append.mp hop with hop | hop
    · exact h.queue op hop
    · exact hops op (by simpa using hop)

/-- Nor does the wake event. -/
theorem wake (h : s.ResultInv) (hlive : s.destroyed = false) : s.wake.ResultInv :=
  h.withSched ((h.live hlive).withEvents s.sched.io.interest _ s.sched.kernel)
    ⟨fun _ hop => hop, fun _ _ => Iff.rfl⟩

/-- The result that `dispatch` finds. -/
theorem deliver_ok (h : s.ResultInv) (hlive : s.destroyed = false) {op : AsyncIoOperation}
    (hop : op ∈ s.sched.posted) :
    ∃ r, s.deliver (.io op) = .ok (some r) ∧ (r = cancelledResult ↔ op ∈ s.sched.struck) := by
  have hinv := h.live hlive
  obtain ⟨r, hr⟩ := Option.ne_none_iff_exists'.mp (hinv.posted_result op hop)
  refine ⟨r, by simp [deliver, hr], ?_⟩
  rw [hinv.struck_iff, hr, Option.some.injEq]

end ResultInv

/-- A constructed context has nothing to deliver. -/
theorem init_resultInv (h : Init s) : s.ResultInv := by
  obtain ⟨hsched, hs⟩ := h
  have hinv := Sched.init_inv hsched
  rw [hs]
  exact ⟨fun _ => hinv, by simp, by simp [idle], by simp [idle], by simp,
    fun a ha => (hinv.attempts a ha).2⟩

/-! ### Steps -/

/-- The steps inside `run`, `run_once` and `poll_once`. -/
theorem run_resultInv (h : s.ResultInv) (hlive : s.destroyed = false) {a : Act}
    (hs : RunStep M s t a s') : s'.ResultInv := by
  have hinv := h.live hlive
  cases hs with
  -- steps that only move the thread: no list, no log entry, no result changes
  | enterRun hpc | enterRunOnce hpc | handlerReturn hpc =>
    exact h.mapThread (fun _ => rfl) (by simp)
  | loop hpc | checkScheduler hpc =>
    apply h.goto
    split <;> simp
  | testGo | evaluateFalse | spuriousWake | drained | handlerThrow | readMore | epollReturn
  | epollFail | putBackNone =>
    exact h.goto (by simp)
  | testWait | evaluateTrue | sleep | relock | announce | retireThrow | retire =>
    exact (h.shared _ _ _ _ _).goto (by simp)
  | guardNotify hpc =>
    refine h.notifyAll.mapThread (fun _ => rfl) ?_
    intro op hop
    split at hop <;> exact absurd hop (by simp)
  | exitWake hpc => exact (h.wake hlive).goto (by simp)
  | exitNotify hpc => exact h.notifyAll.goto (by simp)
  -- the whole queue becomes the batch of the thread
  | take hpc hfree =>
    exact (h.withQueue (by simp)).withBatch (fun op hop => h.queue op hop) (by simp)
  -- the head of the batch is the operation about to be invoked
  | @popFront op rest hpc hbatch =>
    refine (h.withReleased op).withBatch (fun x hx => ?_) (fun x hx => ?_)
    · exact h.batch t x (by rw [hbatch]; exact List.mem_cons_of_mem _ hx)
    · rw [Pc.invoke.injEq] at hx
      exact h.batch t x (by rw [hbatch, hx]; exact List.mem_cons_self)
  | @invoke op result hpc hdeliver =>
    have hlog : ({ s with log := s.log ++ [Consumption.invoked op result] }).ResultInv := by
      refine ⟨h.live, h.queue, h.batch, h.invoke, ?_, h.attempts⟩
      intro x r hx
      have hx' : .invoked (.io x) r ∈ s.log ∨ op = .io x ∧ result = r := by
        simpa [eq_comm] using hx
      rcases hx' with hx' | ⟨rfl, rfl⟩
      · exact h.delivered x r hx'
      · -- the result is set when the handler is invoked
        have hposted := h.invoke t x hpc
        obtain ⟨res, hok, hiff⟩ := h.deliver_ok hlive hposted
        rw [hok, Except.ok.injEq] at hdeliver
        exact ⟨hposted, res, hdeliver.symm, hiff⟩
    exact hlog.goto (by simp)
  -- both sections of `poll_once` queue exactly what the scheduler posted
  | @pollCancel block sched p hpc hfree hpoll hpost =>
    obtain ⟨hext, hposted, -⟩ := Sched.pollCancellations_extends hpoll
    refine ((h.withSched (Sched.pollCancellations_inv hinv hpoll) hext).enqueue ?_).goto ?_
    · intro op hop
      show op ∈ sched.posted
      rw [hposted]
      exact List.mem_append.mpr (Or.inr hop)
    · split <;> simp
  | @notifications block events sched r hpc hfree hpoll hpost =>
    obtain ⟨hext, hposted, -⟩ := Sched.pollNotifications_extends hinv hpoll
    refine ((h.withSched (Sched.pollNotifications_inv hinv hpoll) hext).enqueue ?_).goto ?_
    · intro op hop
      show op ∈ sched.posted
      rw [hposted]
      exact List.mem_append.mpr (Or.inr hop)
    · split <;> simp
  -- after an exception the rest of the batch is in front of the queue again
  | putBack hpc hfree =>
    refine (h.withQueue (fun op hop => ?_)).withBatch (by simp) (by simp)
    rcases List.mem_append.mp hop with hop | hop
    · exact h.batch t op hop
    · exact h.queue op hop

/-- The first step of an API call. -/
theorem call_resultInv (h : s.ResultInv) (hlive : s.destroyed = false) {a : Act}
    (hs : CallStep M s t a s') : s'.ResultInv := by
  have hinv := h.live hlive
  cases hs with
  -- a posted completion has no result
  | @post addr hfree hnew =>
    have hqueue : ({ s with
        completionQueue := s.completionQueue ++ [AnyAsyncOperation.plain addr] }).ResultInv :=
      h.withQueue (fun op hop => h.queue op (by simpa using hop))
    exact (hqueue.shared _ _ _ _ _).setCall _
  | schedule hfree hnew hsched =>
    exact (((h.withSched (Sched.schedule_inv hinv hnew hsched) (Sched.schedule_extends hsched)).shared
      _ _ _ _ _).setCall _)
  | cancel hfree hcancel =>
    exact (((h.withSched (Sched.cancel_inv hinv hcancel) (Sched.cancel_extends hinv hcancel)).shared
      _ _ _ _ _).setCall _)
  | cancelNothing hcancel =>
    exact h.withSched (Sched.cancel_inv hinv hcancel) (Sched.cancel_extends hinv hcancel)
  | latchWork => exact h.shared _ _ _ _ _
  | releaseWork hpos => exact (h.shared _ _ _ _ _).setCall _

/-- The later steps of an API call. -/
theorem rest_resultInv (h : s.ResultInv) (hlive : s.destroyed = false) {a : Act}
    (hs : CallRest s t a s') : s'.ResultInv := by
  cases hs with
  | postWake | cancelWake | releaseWake => exact (h.wake hlive).setCall _
  | postNotify | scheduleNotify | cancelNotify => exact ((h.shared _ _ _ _ _).notifyAll).setCall _
  | releaseNotify => exact h.notifyAll.setCall _

/-- **The step lemma** for results. -/
theorem step_resultInv (h : s.ResultInv) {l : Label K n} (hs : Step M s l s') : s'.ResultInv := by
  cases hs with
  | run hlive hcall hs => exact run_resultInv h hlive hs
  | call hlive hcall huser hs => exact call_resultInv h hlive hs
  | rest hlive hs => exact rest_resultInv h hlive hs
  | destroy hlive hout =>
    refine ⟨fun hd => absurd hd (by simp [destroy]), by simp [destroy], h.batch, h.invoke, ?_,
      h.attempts⟩
    intro op r hop
    exact h.delivered op r (by simpa [destroy] using hop)
  | kernel =>
    exact ⟨fun hd => (h.live hd).withEvents s.sched.io.interest s.sched.io.wakeCounter _, h.queue,
      h.batch, h.invoke, h.delivered, h.attempts⟩
  | forget =>
    exact ⟨fun hd => (h.live hd).withEvents _ s.sched.io.wakeCounter s.sched.kernel, h.queue,
      h.batch, h.invoke, h.delivered, h.attempts⟩

/-- **The run lemma**: whatever is about to be delivered has its result. -/
theorem reach_resultInv {ok : ContextThread K n → Label K n → Prop} (h : Reach M ok s) :
    s.ResultInv :=
  Transition.Reach.invariant ResultInv (fun _ => init_resultInv)
    (fun _ _ _ hinv _ hs => step_resultInv hinv (next_cases hs)) h

/-! ### Contract checks -/

/-- Where a check can fail, and why. -/
inductive Fails (M : Kernel K) (s : ContextThread K n) : Label K n → Contract → Prop
  | register {t : Fin n} {op : AsyncIoOperation} : Fails M s (.thread t (.schedule op)) .epollRegister
  | notifications {t : Fin n} {block : Bool} {events : List EpollEvent} {c : Contract}
    (hlive : s.destroyed = false) (hpc : (s.threads t).pc = .notified block events)
    (hpoll : s.sched.pollNotifications M s.threadsWaiting events = .error c)
    (hc : c = .epollDelete ∨ c = .epollModify) : Fails M s (.thread t .notifications) c
  | latch {t : Fin n} : Fails M s (.thread t .latchWork) .latchOverflow
  | release {t : Fin n} (hzero : s.remainingCount = 0) :
    Fails M s (.thread t .releaseWork) .releaseWithoutWork

/-- What may fail is external: the kernel's answer, or a contract of the caller. -/
theorem Fails.isExternal {l : Label K n} {c : Contract} (h : Fails M s l c) : c.IsExternal := by
  cases h with
  | register => exact Or.inl rfl
  | notifications hlive hpc hpoll hc =>
    rcases hc with rfl | rfl
    · exact Or.inr (Or.inl rfl)
    · exact Or.inr (Or.inr (Or.inl rfl))
  | latch => exact Or.inr (Or.inr (Or.inr (Or.inr rfl)))
  | release => exact Or.inr (Or.inr (Or.inr (Or.inl rfl)))

/-- A step of a runner fails no check but these. -/
theorem run_fails (h : s.ResultInv) (hlive : s.destroyed = false) {a : Act} {c : Contract}
    (hs : s.runStep M t a = some (.error c)) : Fails M s (.thread t a) c := by
  have hinv := h.live hlive
  cases a with
  -- `dispatch` finds the result of a posted operation set
  | invoke =>
    simp only [runStep] at hs
    split at hs
    · rename_i op hpc
      split at hs
      · rename_i e hdeliver
        cases op with
        | plain addr => exact absurd hdeliver (by simp [deliver])
        | io op =>
          obtain ⟨r, hok, -⟩ := h.deliver_ok hlive (h.invoke t op hpc)
          rw [hok] at hdeliver
          exact absurd hdeliver (by simp)
      · exact absurd hs (by simp)
    · exact absurd hs (by simp)
  -- the cancellation phase never fails
  | pollCancel =>
    simp only [runStep] at hs
    split at hs
    · rw [Option.ite_none_right_eq_some] at hs
      obtain ⟨-, hs⟩ := hs
      obtain ⟨w, -, hw⟩ := Sched.pollCancellations_eq hinv s.threadsWaiting
      rw [hw] at hs
      simp only [Option.ite_none_right_eq_some] at hs
      exact absurd hs.2 (by simp)
    · exact absurd hs (by simp)
  -- the notification phase fails only on `epoll_ctl`
  | notifications =>
    simp only [runStep] at hs
    split at hs
    · rename_i block events hpc
      rw [Option.ite_none_right_eq_some] at hs
      obtain ⟨-, hs⟩ := hs
      split at hs
      · rename_i e hpoll
        simp only [Option.some.injEq, Except.error.injEq] at hs
        subst hs
        exact .notifications hlive hpc hpoll (Sched.pollNotifications_error hinv hpoll)
      · simp only [Option.ite_none_right_eq_some] at hs
        exact absurd hs.2 (by simp)
    · exact absurd hs (by simp)
  | _ =>
    -- the other actions check nothing
    simp only [runStep] at hs
    repeat' split at hs
    all_goals exact absurd hs (by simp)

/-- Nor does a call. -/
theorem call_fails (h : s.ResultInv) (hlive : s.destroyed = false) {a : Act} {c : Contract}
    (hs : s.callStep M t a = some (.error c)) : Fails M s (.thread t a) c := by
  have hinv := h.live hlive
  cases a with
  -- `schedule` fails only when the descriptor cannot be registered
  | schedule op =>
    simp only [callStep, Option.ite_none_right_eq_some] at hs
    obtain ⟨-, hs⟩ := hs
    split at hs
    · rename_i e hsched
      simp only [Option.some.injEq, Except.error.injEq] at hs
      obtain rfl : c = .epollRegister := hs ▸ Sched.schedule_error hsched
      exact .register
    · exact absurd hs (by simp)
  -- `cancel` checks nothing that can fail
  | cancel fd fuel =>
    simp only [callStep, Option.ite_none_right_eq_some] at hs
    obtain ⟨-, hs⟩ := hs
    split at hs
    · exact absurd hs (by simp)
    · rename_i e hcancel
      exact absurd hcancel (Sched.cancel_ne_error hinv fuel fd e)
    · split at hs <;> exact absurd hs (by simp)
  | latchWork =>
    simp only [callStep] at hs
    split at hs
    · exact absurd hs (by simp)
    · simp only [Option.some.injEq, Except.error.injEq] at hs
      exact hs ▸ .latch
  | releaseWork =>
    simp only [callStep] at hs
    split at hs
    · exact absurd hs (by simp)
    · rename_i hzero
      simp only [Option.some.injEq, Except.error.injEq] at hs
      exact hs ▸ .release (by omega)
  | _ =>
    simp only [callStep] at hs
    repeat' split at hs
    all_goals exact absurd hs (by simp)

/-- A failed check fails for one of these reasons. -/
theorem step_fails (h : s.ResultInv) {l : Label K n} {c : Contract}
    (hs : s.step M l = some (.error c)) : Fails M s l c := by
  cases l with
  | thread t a =>
    simp only [step, threadStep] at hs
    split at hs
    · -- a context that is gone makes no step
      exact absurd hs (by simp)
    · rename_i hlive
      have hlive' : s.destroyed = false := by simpa using hlive
      split at hs
      · rw [Option.map_eq_some_iff] at hs
        obtain ⟨_, -, heq⟩ := hs
        exact absurd heq (by simp)
      · split at hs
        · rw [Option.ite_none_right_eq_some] at hs
          exact call_fails h hlive' hs.2
        · exact run_fails h hlive' hs
  | destroy =>
    simp only [step] at hs
    repeat' split at hs
    all_goals exact absurd hs (by simp)
  | kernel k => exact absurd hs (by simp [step])
  | forget fd => exact absurd hs (by simp [step])

/-- **The only checks that can fail** are the external ones. -/
theorem step_error (h : s.ResultInv) {l : Label K n} {c : Contract}
    (hs : s.step M l = some (.error c)) : c.IsExternal :=
  (step_fails h hs).isExternal

/-! ### The two results -/

/-- **Scheduler representation.**  In every state of every run, the list is an active segment,
    sorted by descriptor and in schedule order on each descriptor, followed by a cancelled
    segment, with `begin_cancelled_` at the seam and the right length; so the checks on these in
    `poll_once` never fail. -/
theorem representation_invariant (h : Reach M Transition.always s) (hlive : s.destroyed = false) :
    (s.sched.io.operations = s.sched.io.activeSegment ++ s.sched.io.cancelledSegment ∧
      s.sched.io.operations.Nodup ∧
      s.sched.io.beginCancelled = s.sched.io.cancelledSegment.head? ∧
      (∀ op ∈ s.sched.io.activeSegment, (s.sched.io.state op).cancelled = false) ∧
      s.sched.io.activeSegment.Pairwise (fun a b => a.fd ≤ b.fd) ∧
      (∀ fd, (s.sched.io.activeOn fd).Sublist s.sched.scheduled) ∧
      (∀ op ∈ s.sched.io.cancelledSegment, (s.sched.io.state op).cancelled = true) ∧
      s.sched.io.pollQueueLength = s.sched.io.operations.length) ∧
    ∀ l c, s.step M l = some (.error c) →
      c ≠ .cancellationsLeft ∧ c ≠ .pollQueueLeft ∧ c ≠ .decrementBelowZero := by
  have hinv := reach_resultInv h
  have hrep := (hinv.live hlive).rep
  refine ⟨⟨s.sched.io.segments_append.symm, hrep.nodup, hrep.cursor, ?_, hrep.sorted, hrep.fifo, ?_,
    hrep.length⟩, ?_⟩
  · intro op hop
    rw [hrep.active op hop]
    rfl
  · intro op hop
    rw [hrep.cancelled op hop]
  · intro l c hc
    -- none of the external checks is one of these
    rcases step_error hinv hc with rfl | rfl | rfl | rfl | rfl <;> decide

/-- A constructed context over the quiet kernel. -/
def quietContext (n : Nat) : ContextThread Unit n :=
  ⟨quietStart, none, [], 0, none, 0, fun _ => idle, [], [], false⟩

theorem quietContext_init (n : Nat) : Init (quietContext n) := ⟨quietStart_init, rfl⟩

/-- Two threads schedule waits on 5 and 3, then the wait on 5 is cancelled. -/
def scheduleAndCancel : List (Label Unit 2) :=
  [.thread 0 (.schedule ⟨1, 5, .timerExpiryOrEvent⟩), .thread 0 .callNotify,
    .thread 1 (.schedule ⟨2, 3, .timerExpiryOrEvent⟩), .thread 1 .callNotify,
    .thread 0 (.cancel 5 3), .thread 0 .callWake, .thread 0 .callNotify]

/-- A run in which a wait is cancelled and not polled yet. -/
theorem representation_after_cancel :
    ∃ s : ContextThread Unit 2, s.sched.io.cancelledSegment.length = 1 ∧
      s.sched.io.pollQueueLength = s.sched.io.operations.length := by
  have hrun : ∃ s, Reach quietKernel Transition.always s ∧
      decide (s.destroyed = false ∧ s.sched.io.cancelledSegment.length = 1) = true :=
    Transition.exists_reach (quietContext_init 2) scheduleAndCancel _ (by decide)
  obtain ⟨s, hs, hp⟩ := hrun
  have hp' := of_decide_eq_true hp
  exact ⟨s, hp'.2, (representation_invariant hs hp'.1).1.2.2.2.2.2.2.2⟩

/-- **Result protocol.**  In every state of every run: `perform_io` was never called on an
    operation with a result; no check on `result_` can fail; `cancel` finds only operations
    without a result; the delivered results are those of `cancel` exactly for the operations
    that a `cancel` struck while they were active; and an operation not yet scheduled is
    untouched by all earlier `cancel` calls. -/
theorem result_protocol (h : Reach M Transition.always s) :
    (∀ a ∈ s.sched.attempts, a.result = none) ∧
    (∀ l c, s.step M l = some (.error c) → c ≠ .resultAlreadySet ∧ c ≠ .resultNotSet) ∧
    (s.destroyed = false → ∀ fd, ∀ op ∈ (s.sched.io.cancelRange fd).2,
      (s.sched.io.state op).result = none) ∧
    (∀ op r, .invoked (.io op) r ∈ s.log →
      ∃ res, r = some res ∧ (res = cancelledResult ↔ op ∈ s.sched.struck)) ∧
    (s.destroyed = false → ∀ op, op ∉ s.sched.scheduled →
      op ∉ s.sched.struck ∧ s.sched.io.state op = .fresh) := by
  have hinv := reach_resultInv h
  refine ⟨hinv.attempts, ?_, ?_, fun op r hop => (hinv.delivered op r hop).2, ?_⟩
  · intro l c hc
    rcases step_error hinv hc with rfl | rfl | rfl | rfl | rfl <;> decide
  · intro hlive fd op hop
    have hrep := (hinv.live hlive).rep
    -- `cancel` finds operations that are active, so without a result
    obtain ⟨lo, eq, hi, hsplit⟩ := exists_fdSplit hrep.sorted fd
    rw [IoScheduler.cancelRange_eq hsplit] at hop
    rw [hrep.active op (by rw [hsplit.append]; simp [hop])]
    rfl
  · intro hlive op hop
    exact ⟨(hinv.live hlive).unscheduled_not_struck hop, (hinv.live hlive).unscheduled op hop⟩

/-- The cancelled wait is delivered to its handler with the result of `cancel`. -/
theorem cancelled_wait_delivered :
    ∃ s : ContextThread Unit 2, ∃ res,
      .invoked (.io ⟨1, 5, .timerExpiryOrEvent⟩) (some res) ∈ s.log ∧
        (res = cancelledResult ↔ ⟨1, 5, .timerExpiryOrEvent⟩ ∈ s.sched.struck) := by
  have hrun : ∃ s, Reach quietKernel Transition.always s ∧
      decide (.invoked (.io ⟨1, 5, .timerExpiryOrEvent⟩) (some cancelledResult) ∈ s.log) = true :=
    Transition.exists_reach (quietContext_init 2) (scheduleAndCancel ++
      [.thread 1 .enterRunOnce, .thread 1 .take, .thread 1 .drain, .thread 1 .readMore,
        .thread 1 .checkScheduler, .thread 1 .pollCancel, .thread 0 .enterRunOnce, .thread 0 .take,
        .thread 0 .drain, .thread 0 .invoke]) _ (by decide)
  obtain ⟨s, hs, hp⟩ := hrun
  have hmem := of_decide_eq_true hp
  obtain ⟨res, hres, hiff⟩ := (result_protocol hs).2.2.2.1 _ _ hmem
  exact ⟨s, res, hres ▸ hmem, hiff⟩

end ContextThread

end Exios
