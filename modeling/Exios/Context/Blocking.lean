import Exios.Context.Places
import Exios.Context.WakeUps

namespace Exios

/-!
# Context — a single-threaded loop blocks only when it has to

With one thread, nobody changes the queue or the scheduler between `run_once`'s look at the
completion queue and the `epoll_pwait` call: the three facts that the timeout is computed from
are still true when the call is made.

* `Decision` — what each position on the way to `epoll_pwait` has established;
* `blocks_only_on_io` — in `epoll_pwait` with timeout `-1` there is no completion, nothing
  cancelled, and something to wait for.
-/

namespace ContextThread

variable {K : Type} {M : Kernel K} {s s' : ContextThread K 1} {t : Fin 1}

/-- No completion is ready, no operation is cancelled, and an operation is active. -/
structure OnlyWaits (s : ContextThread K 1) : Prop where
  queue : s.completionQueue = []
  cancelled : s.sched.io.cancelledSegment = []
  active : s.sched.io.activeSegment ≠ []

/-- What is known at a position. -/
def Decision (s : ContextThread K 1) : Pc → Prop
  | .checkScheduler false => s.completionQueue = []
  | .pollCancel true => s.completionQueue = []
  | .announce _ true => s.OnlyWaits
  | .polling _ true => s.OnlyWaits
  | _ => True

/-- Nothing is known where user code runs. -/
theorem decision_of_isUser {pc : Pc} (h : pc.isUser = true) : s.Decision pc := by
  cases pc with
  | out | handler => trivial
  | _ => exact absurd h (by simp [Pc.isUser])

/-- The facts are about the queue and the scheduler's list. -/
theorem Decision.congr {pc : Pc} (h : s.Decision pc) (hqueue : s'.completionQueue = s.completionQueue)
    (hcancelled : s'.sched.io.cancelledSegment = s.sched.io.cancelledSegment)
    (hactive : s'.sched.io.activeSegment = s.sched.io.activeSegment) : s'.Decision pc := by
  have hwaits : s.OnlyWaits → s'.OnlyWaits := fun hw =>
    ⟨hqueue.trans hw.queue, hcancelled.trans hw.cancelled, by rw [hactive]; exact hw.active⟩
  unfold Decision at h ⊢
  split
  · exact hqueue.trans h
  · exact hqueue.trans h
  · exact hwaits h
  · exact hwaits h
  · trivial

/-- The thread goes to a position with its facts established. -/
theorem decision_mapThread {f : Thread → Thread} (h : s.Decision (f (s.threads t)).pc) :
    (s.mapThread t f).Decision ((s.mapThread t f).threads 0).pc := by
  obtain rfl : t = 0 := Subsingleton.elim _ _
  rw [mapThread_threads, if_pos rfl]
  exact h.congr rfl rfl rfl

/-- A move to another position keeps what the thread has decided, if it is right there. -/
theorem decision_goto {pc : Pc} (h : s.Decision pc) :
    (s.goto t pc).Decision ((s.goto t pc).threads 0).pc :=
  decision_mapThread h

/-- The cancellation phase that posted nothing leaves only waiting operations. -/
theorem pollCancel_onlyWaits (hinv : s.sched.Inv) (hqueue : s.completionQueue = [])
    {sched : Sched K} {p : IoScheduler.CancelPhase}
    (hpoll : s.sched.pollCancellations s.threadsWaiting = .ok (sched, p))
    (hreturned : p.returned = false) (hnone : p.numCancelled = 0) :
    (({ s with sched := sched }).enqueue p.posted).OnlyWaits := by
  obtain ⟨w, -, hw⟩ := Sched.pollCancellations_eq hinv s.threadsWaiting
  rw [hw, Except.ok.injEq, Prod.mk.injEq] at hpoll
  obtain ⟨rfl, rfl⟩ := hpoll
  have hcan : s.sched.io.cancelledSegment = [] := List.length_eq_zero_iff.mp hnone
  have hact : s.sched.io.activeSegment ≠ [] := of_decide_eq_false hreturned
  rw [hcan]
  refine ⟨hqueue, ?_, ?_⟩
  · simp [enqueue, IoScheduler.cancelledSegment]
  · simpa [enqueue, IoScheduler.activeSegment] using hact

/-- A step of the runner keeps what it has decided: it alone changes the queue and the scheduler
    while it is outside handlers. -/
theorem run_decision (hinv : s.sched.Inv) {a : Act} (h : s.Decision (s.threads 0).pc)
    (hs : RunStep M s t a s') : s'.Decision (s'.threads 0).pc := by
  obtain rfl : t = 0 := Subsingleton.elim _ _
  cases hs with
  | loop hpc =>
    apply decision_goto
    split <;> trivial
  | readMore hpc hfree =>
    apply decision_goto
    -- the queue is seen to be empty
    cases hq : s.completionQueue with
    | nil => exact hq
    | cons => trivial
  | @checkScheduler more hpc =>
    apply decision_goto
    rw [hpc] at h
    split
    · trivial
    · cases more with
      | true => trivial
      | false => exact h
  | @pollCancel block sched p hpc hfree hpoll hpost =>
    apply decision_goto
    rw [hpc] at h
    split
    · trivial
    · rename_i hreturned
      cases hforever : block && decide (p.numCancelled = 0) with
      | false => trivial
      | true =>
        obtain ⟨hblock, hnone⟩ := (Bool.and_eq_true _ _).mp hforever
        subst hblock
        exact pollCancel_onlyWaits hinv h hpoll (by simpa using hreturned) (of_decide_eq_true hnone)
  | @announce block forever hpc =>
    apply decision_goto
    rw [hpc] at h
    cases forever with
    | true => exact ⟨h.queue, h.cancelled, h.active⟩
    | false => trivial
  | notifications hpc hfree hpoll hpost =>
    apply decision_goto
    split <;> trivial
  | guardNotify hpc =>
    apply decision_mapThread
    dsimp only
    split <;> trivial
  | _ => exact decision_mapThread trivial

/-- **The step lemma** for what the one runner has decided. -/
theorem step_decision (hres : s.ResultInv) (huser : CallsInUser s) {l : Label K 1}
    (h : s.Decision (s.threads 0).pc) (hs : Step M s l s') : s'.Decision (s'.threads 0).pc := by
  cases hs with
  | run hlive hcall hs => exact run_decision (hres.live hlive) h hs
  | @call t a _ hlive hcall huser hs =>
    -- there is only one thread
    obtain rfl : t = 0 := Subsingleton.elim _ _
    rw [hs.frame.1]
    exact decision_of_isUser huser
  | @rest t a _ hlive hs =>
    obtain rfl : t = 0 := Subsingleton.elim _ _
    obtain ⟨hcall, hpc, -⟩ := hs.frame
    have hin := huser 0 hcall
    rcases hpc 0 with heq | ⟨heq, -⟩
    · rw [heq]
      exact decision_of_isUser hin
    · -- a thread that makes a call is in user code, not asleep
      rw [heq] at hin
      exact absurd hin (by simp [Pc.isUser])
  | destroy hlive hout =>
    show s.destroy.Decision (s.threads 0).pc
    rw [(hout 0).1]
    trivial
  | kernel | forget => exact h.congr rfl rfl rfl

/-- **A single-threaded loop never blocks on ready work.**  Whatever the handlers and the kernel
    do, whenever the thread is in `epoll_pwait` with timeout `-1`, the completion queue is empty,
    no operation is cancelled, and some operation is active. -/
theorem blocks_only_on_io (h : Reach M Transition.always s) {block : Bool}
    (hpc : (s.threads 0).pc = .polling block true) :
    s.completionQueue = [] ∧ s.sched.io.cancelledSegment = [] ∧ s.sched.io.activeSegment ≠ [] := by
  have hall : s.ResultInv ∧ CallsInUser s ∧ s.Decision (s.threads 0).pc := by
    refine Transition.Reach.invariant
      (fun s => s.ResultInv ∧ CallsInUser s ∧ s.Decision (s.threads 0).pc) ?_ ?_ h
    · intro s hi
      refine ⟨init_resultInv hi, ?_, ?_⟩ <;> rw [hi.2]
      · intro u hu
        exact absurd rfl hu
      · trivial
    · rintro s l s' ⟨hres, huser, hd⟩ - hs
      have hs' := next_cases hs
      exact ⟨step_resultInv hres hs', step_callsInUser huser hs', step_decision hres huser hd hs'⟩
  have hwaits : s.Decision (.polling block true) := hpc ▸ hall.2.2
  exact ⟨hwaits.queue, hwaits.cancelled, hwaits.active⟩

/-- A handler cancels the wait on 5; the next `run_once` delivers the cancellation, and the one
    after it blocks, with only the wait on 7 left. -/
theorem blocks_after_cancellation :
    ∃ s : ContextThread Unit 1, (s.threads 0).pc = .polling true true ∧ s.invoked.length = 2 ∧
      s.completionQueue = [] ∧ s.sched.io.cancelledSegment = [] ∧ s.sched.io.activeSegment ≠ [] := by
  have hrun : ∃ s, Reach quietKernel Transition.always s ∧
      decide ((s.threads 0).pc = .polling true true ∧ s.invoked.length = 2) = true :=
    Transition.exists_reach (quietContext_init 1)
      ([.schedule ⟨1, 5, .ioRead⟩, .callNotify, .schedule ⟨2, 7, .ioRead⟩, .callNotify,
        .post 3, .callWake, .callNotify,
        .enterRunOnce, .take, .drain, .invoke, .cancel 5 2, .callWake, .callNotify, .handlerReturn,
        .drain, .readMore, .checkScheduler, .pollCancel, .announce, .epollReturn [], .retire,
        .notifications, .guardNotify,
        .enterRunOnce, .take, .drain, .invoke, .handlerReturn, .drain, .readMore, .checkScheduler,
        .pollCancel, .announce].map (Label.thread 0)) _ (by decide)
  obtain ⟨s, hs, hp⟩ := hrun
  obtain ⟨hpc, hlen⟩ := of_decide_eq_true hp
  exact ⟨s, hpc, hlen, blocks_only_on_io hs hpc⟩

end ContextThread

end Exios
