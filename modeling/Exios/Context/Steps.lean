import Exios.Context.Basic

namespace Exios

/-!
# Context — what a step can do

The step function as relations, one constructor per branch: `RunStep` for the actions inside
`run`, `run_once` and `poll_once`, `CallStep` for the first part of an API call, `CallRest` for
the rest of one.  Every invariant of the context is proved by cases on these.

* `step_cases`, `next_cases` — a step of the system is an instance of one of them;
* `Step.sched` — the scheduler's part of it is at most one step of the scheduler.
-/

namespace ContextThread

variable {K : Type} {n : Nat} {M : Kernel K} {s s' : ContextThread K n} {t : Fin n}

/-! ### Threads after an update -/

section Updates

variable (s : ContextThread K n) (t u : Fin n) (f : Thread → Thread) (pc : Pc) (call : Call)
  (ops : List AsyncIoOperation)

/-- A thread's own step changes no other thread. -/
theorem mapThread_threads :
    (s.mapThread t f).threads u = if u = t then f (s.threads u) else s.threads u := by
  show Function.update s.threads t (f (s.threads t)) u = _
  by_cases h : u = t
  · rw [h, Function.update_self, if_pos rfl]
  · rw [Function.update_of_ne h, if_neg h]

/-- `goto` moves one thread. -/
@[simp] theorem goto_pc :
    ((s.goto t pc).threads u).pc = if u = t then pc else (s.threads u).pc := by
  rw [goto, mapThread_threads]
  split <;> rfl

@[simp] theorem goto_call : ((s.goto t pc).threads u).call = (s.threads u).call := by
  rw [goto, mapThread_threads]
  split <;> rfl

@[simp] theorem goto_batch : ((s.goto t pc).threads u).batch = (s.threads u).batch := by
  rw [goto, mapThread_threads]
  split <;> rfl

@[simp] theorem setCall_pc : ((s.setCall t call).threads u).pc = (s.threads u).pc := by
  rw [setCall, mapThread_threads]
  split <;> rfl

/-- `setCall` changes the call of one thread. -/
@[simp] theorem setCall_call :
    ((s.setCall t call).threads u).call = if u = t then call else (s.threads u).call := by
  rw [setCall, mapThread_threads]
  split <;> rfl

/-- `notify_all` wakes who sleeps. -/
@[simp] theorem notifyAll_pc :
    (s.notifyAll.threads u).pc
      = if (s.threads u).pc = .asleep then .woken else (s.threads u).pc := by
  unfold notifyAll
  dsimp only
  split <;> rfl

@[simp] theorem notifyAll_call : (s.notifyAll.threads u).call = (s.threads u).call := by
  unfold notifyAll
  dsimp only
  split <;> rfl

@[simp] theorem notifyAll_batch : (s.notifyAll.threads u).batch = (s.threads u).batch := by
  unfold notifyAll
  dsimp only
  split <;> rfl

@[simp] theorem notifyAll_inRun : (s.notifyAll.threads u).inRun = (s.threads u).inRun := by
  unfold notifyAll
  dsimp only
  split <;> rfl

/-- Posting from the scheduler wakes the sleepers, if anything is posted. -/
@[simp] theorem enqueue_pc :
    ((s.enqueue ops).threads u).pc
      = if ops ≠ [] ∧ (s.threads u).pc = .asleep then .woken else (s.threads u).pc := by
  unfold enqueue
  by_cases h : ops = []
  · simp [h]
  · simp [h]

@[simp] theorem enqueue_call : ((s.enqueue ops).threads u).call = (s.threads u).call := by
  unfold enqueue
  split <;> simp

@[simp] theorem enqueue_batch : ((s.enqueue ops).threads u).batch = (s.threads u).batch := by
  unfold enqueue
  split <;> simp

end Updates

/-! ### Inside `run`, `run_once` and `poll_once` -/

/-- One step inside `run`, `run_once` or `poll_once`. -/
inductive RunStep (M : Kernel K) (s : ContextThread K n) (t : Fin n) :
    Act → ContextThread K n → Prop
  | enterRun (hpc : (s.threads t).pc = .out) :
    RunStep M s t .enterRun
      (s.mapThread t (fun th => { th with pc := .runLoop, inRun := true, numProcessed := 0 }))
  | enterRunOnce (hpc : (s.threads t).pc = .out) :
    RunStep M s t .enterRunOnce
      (s.mapThread t (fun th => { th with pc := .takeQueue, inRun := false }))
  | loop (hpc : (s.threads t).pc = .runLoop) :
    RunStep M s t .loop (s.goto t (if 0 < s.remainingCount then .runTest else .exitWake))
  | testWait (hpc : (s.threads t).pc = .runTest) (hfree : s.dataMutex = none)
    (hempty : s.completionQueue = [] ∧ s.sched.io.empty = true ∧ 0 < s.remainingCount) :
    RunStep M s t .test (({ s with dataMutex := some t }).goto t .waitEvaluate)
  | testGo (hpc : (s.threads t).pc = .runTest) (hfree : s.dataMutex = none) :
    RunStep M s t .test (s.goto t .takeQueue)
  | evaluateTrue (hpc : (s.threads t).pc = .waitEvaluate) (hpred : s.predicate = true) :
    RunStep M s t .evaluate (({ s with dataMutex := none }).goto t .takeQueue)
  | evaluateFalse (hpc : (s.threads t).pc = .waitEvaluate) (hpred : s.predicate = false) :
    RunStep M s t .evaluate (s.goto t .waitSleep)
  | sleep (hpc : (s.threads t).pc = .waitSleep) :
    RunStep M s t .sleep (({ s with dataMutex := none }).goto t .asleep)
  | spuriousWake (hpc : (s.threads t).pc = .asleep) :
    RunStep M s t .spuriousWake (s.goto t .woken)
  | relock (hpc : (s.threads t).pc = .woken) (hfree : s.dataMutex = none) :
    RunStep M s t .relock (({ s with dataMutex := some t }).goto t .waitEvaluate)
  | take (hpc : (s.threads t).pc = .takeQueue) (hfree : s.dataMutex = none) :
    RunStep M s t .take (({ s with completionQueue := [] }).mapThread t (fun th =>
      { th with pc := .drain, batch := s.completionQueue, numProcessedOnce := 0 }))
  | drained (hpc : (s.threads t).pc = .drain) (hbatch : (s.threads t).batch = []) :
    RunStep M s t .drain (s.goto t .readMore)
  | popFront {op : AnyAsyncOperation} {rest : List AnyAsyncOperation}
    (hpc : (s.threads t).pc = .drain) (hbatch : (s.threads t).batch = op :: rest) :
    RunStep M s t .drain
      (({ s with log := s.log ++ [Consumption.released op] }).mapThread t (fun th =>
        { th with pc := .invoke op, batch := rest }))
  | invoke {op : AnyAsyncOperation} {result : Option IoResult}
    (hpc : (s.threads t).pc = .invoke op) (hdeliver : s.deliver op = .ok result) :
    RunStep M s t .invoke
      (({ s with log := s.log ++ [Consumption.invoked op result] }).goto t (.handler op))
  | handlerReturn {op : AnyAsyncOperation} (hpc : (s.threads t).pc = .handler op) :
    RunStep M s t .handlerReturn (s.mapThread t (fun th =>
      { th with pc := .drain, numProcessedOnce := th.numProcessedOnce + 1 }))
  | handlerThrow {op : AnyAsyncOperation} (hpc : (s.threads t).pc = .handler op) :
    RunStep M s t .handlerThrow (s.goto t .putBack)
  | readMore (hpc : (s.threads t).pc = .readMore) (hfree : s.dataMutex = none) :
    RunStep M s t .readMore (s.goto t (.checkScheduler (!s.completionQueue.isEmpty)))
  | checkScheduler {more : Bool} (hpc : (s.threads t).pc = .checkScheduler more) :
    RunStep M s t .checkScheduler
      (s.goto t (if s.sched.io.empty then .guardNotify false else .pollCancel (!more)))
  | pollCancel {block : Bool} {sched : Sched K} {p : IoScheduler.CancelPhase}
    (hpc : (s.threads t).pc = .pollCancel block) (hfree : s.schedMutex = none)
    (hpoll : s.sched.pollCancellations s.threadsWaiting = .ok (sched, p))
    (hpost : p.posted = [] ∨ s.dataMutex = none) :
    RunStep M s t .pollCancel ((({ s with sched := sched }).enqueue p.posted).goto t
      (if p.returned then .guardNotify false
        else .announce block (block && decide (p.numCancelled = 0))))
  | announce {block forever : Bool} (hpc : (s.threads t).pc = .announce block forever) :
    RunStep M s t .announce
      (({ s with threadsWaiting := s.threadsWaiting + 1 }).goto t (.polling block forever))
  | epollReturn {block forever : Bool} {events : List EpollEvent}
    (hpc : (s.threads t).pc = .polling block forever) :
    RunStep M s t (.epollReturn events) (s.goto t (.polled block (some events)))
  | epollFail {block forever : Bool} (hpc : (s.threads t).pc = .polling block forever) :
    RunStep M s t .epollFail (s.goto t (.polled block none))
  | retireThrow {block : Bool} (hpc : (s.threads t).pc = .polled block none) :
    RunStep M s t .retire (({ s with threadsWaiting := s.threadsWaiting - 1 }).goto t .putBack)
  | retire {block : Bool} {events : List EpollEvent}
    (hpc : (s.threads t).pc = .polled block (some events)) :
    RunStep M s t .retire
      (({ s with threadsWaiting := s.threadsWaiting - 1 }).goto t (.notified block events))
  | notifications {block : Bool} {events : List EpollEvent} {sched : Sched K}
    {r : IoScheduler.Notify K} (hpc : (s.threads t).pc = .notified block events)
    (hfree : s.schedMutex = none)
    (hpoll : s.sched.pollNotifications M s.threadsWaiting events = .ok (sched, r))
    (hpost : r.posted = [] ∨ s.dataMutex = none) :
    RunStep M s t .notifications ((({ s with sched := sched }).enqueue r.posted).goto t
      (if events.length = kMaxEventsPerPoll ∧ block = false then .announce block false
        else .guardNotify false))
  | putBackNone (hpc : (s.threads t).pc = .putBack) (hbatch : (s.threads t).batch = []) :
    RunStep M s t .putBack (s.goto t (.guardNotify true))
  | putBack (hpc : (s.threads t).pc = .putBack) (hfree : s.dataMutex = none) :
    RunStep M s t .putBack
      (({ s with completionQueue := (s.threads t).batch ++ s.completionQueue }).mapThread t
        (fun th => { th with pc := .guardNotify true, batch := [] }))
  | guardNotify {thrown : Bool} (hpc : (s.threads t).pc = .guardNotify thrown) :
    RunStep M s t .guardNotify (s.notifyAll.mapThread t (fun th =>
      { th with
        pc := if thrown = false ∧ th.inRun = true then .runLoop else .out
        numProcessed := if thrown then th.numProcessed else th.numProcessed + th.numProcessedOnce }))
  | exitWake (hpc : (s.threads t).pc = .exitWake) :
    RunStep M s t .exitWake (s.wake.goto t .exitNotify)
  | exitNotify (hpc : (s.threads t).pc = .exitNotify) :
    RunStep M s t .exitNotify (s.notifyAll.goto t .out)

/-- Only the thread `t` moves: no thread's call changes, and other threads only wake up. -/
structure OnlyMoves (s s' : ContextThread K n) (t : Fin n) : Prop where
  calls : ∀ u, (s'.threads u).call = (s.threads u).call
  others : ∀ u, u ≠ t → (s'.threads u).pc = (s.threads u).pc ∨
    ((s.threads u).pc = .asleep ∧ (s'.threads u).pc = .woken)

/-- **Frame of a run step.** -/
theorem RunStep.frame {a : Act} (hs : RunStep M s t a s') : OnlyMoves s s' t := by
  -- an update of `t` after a notification of everyone
  have hmap : ∀ (s₁ : ContextThread K n) (f : Thread → Thread), (∀ th, (f th).call = th.call) →
      (∀ u, (s₁.threads u).call = (s.threads u).call) →
      (∀ u, (s₁.threads u).pc = (s.threads u).pc ∨
        ((s.threads u).pc = .asleep ∧ (s₁.threads u).pc = .woken)) →
      OnlyMoves s (s₁.mapThread t f) t := by
    intro s₁ f hf hcall hpc
    refine ⟨fun u => ?_, fun u hu => ?_⟩ <;> rw [mapThread_threads]
    · split
      · rw [hf, hcall]
      · exact hcall u
    · rw [if_neg hu]
      exact hpc u
  have hnotify : ∀ u, (s.notifyAll.threads u).pc = (s.threads u).pc ∨
      ((s.threads u).pc = .asleep ∧ (s.notifyAll.threads u).pc = .woken) := by
    intro u
    by_cases hu : (s.threads u).pc = .asleep <;> simp [hu]
  cases hs with
  | guardNotify | exitNotify =>
    exact hmap _ _ (fun _ => rfl) (fun u => notifyAll_call s u) hnotify
  | pollCancel | notifications =>
    refine hmap _ _ (fun _ => rfl) (fun u => enqueue_call _ u _) (fun u => ?_)
    rw [enqueue_pc]
    split
    · rename_i hu
      exact Or.inr ⟨hu.2, rfl⟩
    · exact Or.inl rfl
  | _ => exact hmap _ _ (fun _ => rfl) (fun _ => rfl) (fun _ => Or.inl rfl)

/-- What `runStep` computes is one of the steps of a runner. -/
theorem runStep_cases {a : Act} (h : s.runStep M t a = some (.ok s')) : RunStep M s t a s' := by
  cases a with
  -- these need no mutex and read nothing but the position
  | enterRun | enterRunOnce | loop | sleep | spuriousWake | exitWake | exitNotify =>
    simp only [runStep, Option.ite_none_right_eq_some, Option.some.injEq, Except.ok.injEq] at h
    obtain ⟨hpc, rfl⟩ := h
    constructor
    exact hpc
  -- these wait for the mutex
  | relock | take | readMore =>
    simp only [runStep, Option.ite_none_right_eq_some, Option.some.injEq, Except.ok.injEq] at h
    obtain ⟨⟨hpc, hfree⟩, rfl⟩ := h
    constructor
    · exact hpc
    · exact hfree
  -- the position itself carries the arguments of these
  | handlerReturn | handlerThrow | checkScheduler | announce | epollFail | guardNotify =>
    simp only [runStep] at h
    split at h
    · rename_i hpc
      simp only [Option.some.injEq, Except.ok.injEq] at h
      subst h
      constructor
      exact hpc
    · exact absurd h (by simp)
  | test =>
    simp only [runStep, Option.ite_none_right_eq_some] at h
    obtain ⟨⟨hpc, hfree⟩, h⟩ := h
    split at h
    · rename_i hempty
      simp only [Option.some.injEq, Except.ok.injEq] at h
      exact h ▸ .testWait hpc hfree hempty
    · simp only [Option.some.injEq, Except.ok.injEq] at h
      exact h ▸ .testGo hpc hfree
  | evaluate =>
    simp only [runStep, Option.ite_none_right_eq_some] at h
    -- the predicate decides between waking and going to sleep
    obtain ⟨hpc, h⟩ := h
    by_cases hpred : s.predicate = true
    · rw [if_pos hpred, Option.some.injEq, Except.ok.injEq] at h
      exact h ▸ .evaluateTrue hpc hpred
    · rw [if_neg hpred, Option.some.injEq, Except.ok.injEq] at h
      exact h ▸ .evaluateFalse hpc (by simpa using hpred)
  | drain =>
    simp only [runStep, Option.ite_none_right_eq_some] at h
    obtain ⟨hpc, h⟩ := h
    split at h
    · rename_i hbatch
      simp only [Option.some.injEq, Except.ok.injEq] at h
      exact h ▸ .drained hpc hbatch
    · rename_i op rest hbatch
      simp only [Option.some.injEq, Except.ok.injEq] at h
      exact h ▸ .popFront hpc hbatch
  | invoke =>
    simp only [runStep] at h
    split at h
    · rename_i op hpc
      -- a completion without a result: `context.hpp` expects one
      split at h
      · exact absurd h (by simp)
      · rename_i result hdeliver
        simp only [Option.some.injEq, Except.ok.injEq] at h
        exact h ▸ .invoke hpc hdeliver
    · exact absurd h (by simp)
  | pollCancel =>
    simp only [runStep] at h
    split at h
    · rename_i block hpc
      rw [Option.ite_none_right_eq_some] at h
      obtain ⟨hfree, h⟩ := h
      -- a section of the scheduler that failed, then one that threw or returned
      split at h
      · exact absurd h (by simp)
      · rename_i sched p hpoll
        simp only [Option.ite_none_right_eq_some, Option.some.injEq, Except.ok.injEq] at h
        exact h.2 ▸ .pollCancel hpc hfree hpoll h.1
    · exact absurd h (by simp)
  | epollReturn events =>
    simp only [runStep] at h
    split at h
    · rename_i block forever hpc
      simp only [Option.ite_none_right_eq_some, Option.some.injEq, Except.ok.injEq] at h
      exact h.2 ▸ .epollReturn hpc
    · exact absurd h (by simp)
  | retire =>
    simp only [runStep] at h
    split at h
    · rename_i block events hpc
      simp only [Option.some.injEq, Except.ok.injEq] at h
      -- an exception of the poll goes up, else its events are processed
      cases events with
      | none => exact h ▸ .retireThrow hpc
      | some events => exact h ▸ .retire hpc
    · exact absurd h (by simp)
  | notifications =>
    simp only [runStep] at h
    split at h
    · rename_i block events hpc
      rw [Option.ite_none_right_eq_some] at h
      obtain ⟨hfree, h⟩ := h
      split at h
      · exact absurd h (by simp)
      · rename_i sched r hpoll
        simp only [Option.ite_none_right_eq_some, Option.some.injEq, Except.ok.injEq] at h
        exact h.2 ▸ .notifications hpc hfree hpoll h.1
    · exact absurd h (by simp)
  | putBack =>
    simp only [runStep, Option.ite_none_right_eq_some] at h
    obtain ⟨hpc, h⟩ := h
    split at h
    · rename_i hbatch
      simp only [Option.some.injEq, Except.ok.injEq] at h
      exact h ▸ .putBackNone hpc hbatch
    · simp only [Option.ite_none_right_eq_some, Option.some.injEq, Except.ok.injEq] at h
      exact h.2 ▸ .putBack hpc h.1
  -- calls, not steps of the loop
  | post | schedule | cancel | latchWork | releaseWork | callWake | callNotify =>
    exact absurd h (by simp [runStep])

/-! ### API calls -/

/-- The first step of an API call. -/
inductive CallStep (M : Kernel K) (s : ContextThread K n) (t : Fin n) :
    Act → ContextThread K n → Prop
  | post {addr : Nat} (hfree : s.dataMutex = none)
    (hnew : AnyAsyncOperation.plain addr ∉ s.handed) :
    CallStep M s t (.post addr) (({ s with
      completionQueue := s.completionQueue ++ [AnyAsyncOperation.plain addr]
      handed := s.handed ++ [AnyAsyncOperation.plain addr]
      dataMutex := some t }).setCall t .postWake)
  | schedule {op : AsyncIoOperation} {sched : Sched K} (hfree : s.schedMutex = none)
    (hnew : op ∉ s.sched.scheduled) (hsched : s.sched.schedule M op = .ok sched) :
    CallStep M s t (.schedule op) (({ s with
      sched := sched
      handed := s.handed ++ [AnyAsyncOperation.io op]
      schedMutex := some t }).setCall t .scheduleNotify)
  | cancel {fd : Int} {fuel : Nat} {sched : Sched K} (hfree : s.schedMutex = none)
    (hcancel : s.sched.cancel M fuel fd = some (.ok (sched, true))) :
    CallStep M s t (.cancel fd fuel)
      (({ s with sched := sched, schedMutex := some t }).setCall t .cancelWake)
  | cancelNothing {fd : Int} {fuel : Nat} {sched : Sched K}
    (hcancel : s.sched.cancel M fuel fd = some (.ok (sched, false))) :
    CallStep M s t (.cancel fd fuel) { s with sched := sched }
  | latchWork : CallStep M s t .latchWork { s with remainingCount := s.remainingCount + 1 }
  | releaseWork (hpos : 0 < s.remainingCount) :
    CallStep M s t .releaseWork
      (({ s with remainingCount := s.remainingCount - 1 }).setCall t .releaseWake)

/-- **Frame of a first call step.**  No thread moves, and the other threads' calls stay. -/
theorem CallStep.frame {a : Act} (hs : CallStep M s t a s') :
    (∀ u, (s'.threads u).pc = (s.threads u).pc) ∧
      ∀ u, u ≠ t → (s'.threads u).call = (s.threads u).call := by
  cases hs with
  | cancelNothing | latchWork => exact ⟨fun _ => rfl, fun _ _ => rfl⟩
  | _ =>
    refine ⟨fun u => by rw [setCall_pc], fun u hu => ?_⟩
    rw [setCall_call, if_neg hu]

/-- What `callStep` computes is one of the calls. -/
theorem callStep_cases {a : Act} (h : s.callStep M t a = some (.ok s')) : CallStep M s t a s' := by
  cases a with
  | post addr =>
    simp only [callStep, Option.ite_none_right_eq_some, Option.some.injEq, Except.ok.injEq] at h
    exact h.2 ▸ .post h.1.1 h.1.2
  | schedule op =>
    simp only [callStep, Option.ite_none_right_eq_some] at h
    obtain ⟨⟨hfree, hnew⟩, h⟩ := h
    split at h
    · exact absurd h (by simp)
    · rename_i sched hsched
      simp only [Option.some.injEq, Except.ok.injEq] at h
      exact h ▸ .schedule hfree hnew hsched
  | cancel fd fuel =>
    simp only [callStep, Option.ite_none_right_eq_some] at h
    obtain ⟨hfree, h⟩ := h
    split at h
    · -- a cancel that has not returned, or that broke a precondition, makes no step here
      exact absurd h (by simp)
    · exact absurd h (by simp)
    · rename_i sched found hcancel
      cases found with
      | true =>
        simp only [if_true, Option.some.injEq, Except.ok.injEq] at h
        exact h ▸ .cancel hfree hcancel
      | false =>
        simp only [Bool.false_eq_true, if_false, Option.some.injEq, Except.ok.injEq] at h
        exact h ▸ .cancelNothing hcancel
  | latchWork =>
    simp only [callStep] at h
    split at h
    · simp only [Option.some.injEq, Except.ok.injEq] at h
      exact h ▸ .latchWork
    · exact absurd h (by simp)
  | releaseWork =>
    simp only [callStep] at h
    split at h
    · rename_i hpos
      simp only [Option.some.injEq, Except.ok.injEq] at h
      exact h ▸ .releaseWork hpos
    · exact absurd h (by simp)
  -- steps of the loop, not calls
  | _ => exact absurd h (by simp [callStep])

/-- A later step of an API call. -/
inductive CallRest (s : ContextThread K n) (t : Fin n) : Act → ContextThread K n → Prop
  | postWake (hcall : (s.threads t).call = .postWake) :
    CallRest s t .callWake (s.wake.setCall t .postNotify)
  | cancelWake (hcall : (s.threads t).call = .cancelWake) :
    CallRest s t .callWake (s.wake.setCall t .cancelNotify)
  | releaseWake (hcall : (s.threads t).call = .releaseWake) :
    CallRest s t .callWake (s.wake.setCall t .releaseNotify)
  | postNotify (hcall : (s.threads t).call = .postNotify) :
    CallRest s t .callNotify (({ s with dataMutex := none }).notifyAll.setCall t .none)
  | scheduleNotify (hcall : (s.threads t).call = .scheduleNotify) :
    CallRest s t .callNotify (({ s with schedMutex := none }).notifyAll.setCall t .none)
  | cancelNotify (hcall : (s.threads t).call = .cancelNotify) :
    CallRest s t .callNotify (({ s with schedMutex := none }).notifyAll.setCall t .none)
  | releaseNotify (hcall : (s.threads t).call = .releaseNotify) :
    CallRest s t .callNotify (s.notifyAll.setCall t .none)

/-- **Frame of a later call step.**  Threads only wake up, and the other threads' calls stay. -/
theorem CallRest.frame {a : Act} (hs : CallRest s t a s') :
    (s.threads t).call ≠ .none ∧
      (∀ u, (s'.threads u).pc = (s.threads u).pc ∨
        ((s.threads u).pc = .asleep ∧ (s'.threads u).pc = .woken)) ∧
      ∀ u, u ≠ t → (s'.threads u).call = (s.threads u).call := by
  cases hs with
  | postWake hcall | cancelWake hcall | releaseWake hcall =>
    refine ⟨by rw [hcall]; simp, fun u => Or.inl (by rw [setCall_pc]; rfl), fun u hu => ?_⟩
    rw [setCall_call, if_neg hu]
    rfl
  | postNotify hcall | scheduleNotify hcall | cancelNotify hcall | releaseNotify hcall =>
    refine ⟨by rw [hcall]; simp, fun u => ?_, fun u hu => ?_⟩
    · -- `notify_all` moves the sleepers, whatever the call
      rw [setCall_pc, notifyAll_pc]
      split
      · rename_i hu
        exact Or.inr ⟨hu, rfl⟩
      · exact Or.inl rfl
    · rw [setCall_call, if_neg hu, notifyAll_call]

/-- What `callRest` computes is one of the later steps of a call. -/
theorem callRest_cases {a : Act} (h : s.callRest t a = some s') : CallRest s t a s' := by
  cases a with
  | callWake =>
    simp only [callRest] at h
    cases hcall : (s.threads t).call <;> simp only [hcall, Option.some.injEq, reduceCtorEq] at h
    case postWake => exact h ▸ .postWake hcall
    case cancelWake => exact h ▸ .cancelWake hcall
    case releaseWake => exact h ▸ .releaseWake hcall
  | callNotify =>
    simp only [callRest] at h
    cases hcall : (s.threads t).call <;> simp only [hcall, Option.some.injEq, reduceCtorEq] at h
    case postNotify => exact h ▸ .postNotify hcall
    case scheduleNotify => exact h ▸ .scheduleNotify hcall
    case cancelNotify => exact h ▸ .cancelNotify hcall
    case releaseNotify => exact h ▸ .releaseNotify hcall
  -- every other action starts a call or belongs to the loop
  | _ => exact absurd h (by simp [callRest])

/-! ### Steps of the system -/

/-- One step of the system. -/
inductive Step (M : Kernel K) (s : ContextThread K n) : Label K n → ContextThread K n → Prop
  | run {t : Fin n} {a : Act} {s' : ContextThread K n} (hlive : s.destroyed = false)
    (hcall : (s.threads t).call = .none) (h : RunStep M s t a s') : Step M s (.thread t a) s'
  | call {t : Fin n} {a : Act} {s' : ContextThread K n} (hlive : s.destroyed = false)
    (hcall : (s.threads t).call = .none) (huser : (s.threads t).pc.isUser = true)
    (h : CallStep M s t a s') : Step M s (.thread t a) s'
  | rest {t : Fin n} {a : Act} {s' : ContextThread K n} (hlive : s.destroyed = false)
    (h : CallRest s t a s') : Step M s (.thread t a) s'
  | destroy (hlive : s.destroyed = false)
    (hout : ∀ t, (s.threads t).pc = .out ∧ (s.threads t).call = .none) : Step M s .destroy s.destroy
  | kernel {k : K} : Step M s (.kernel k) { s with sched := { s.sched with kernel := k } }
  | forget {fd : Int} : Step M s (.forget fd) { s with sched := { s.sched with
      io := { s.sched.io with interest := Function.update s.sched.io.interest fd none } } }

/-- **Inversion of the step function.** -/
theorem step_cases {l : Label K n} (hr : s.step M l = some (.ok s')) : Step M s l s' := by
  cases l with
  | thread t a =>
    simp only [step, threadStep] at hr
    split at hr
    · exact absurd hr (by simp)
    · rename_i hlive
      have hlive' : s.destroyed = false := by simpa using hlive
      split at hr
      · rw [Option.map_eq_some_iff] at hr
        obtain ⟨s₁, hs₁, heq⟩ := hr
        rw [Except.ok.injEq] at heq
        exact .rest hlive' (callRest_cases (heq ▸ hs₁))
      · rename_i hcall
        have hcall' : (s.threads t).call = .none := by simpa using hcall
        split at hr
        · rw [Option.ite_none_right_eq_some] at hr
          exact .call hlive' hcall' hr.1 (callStep_cases hr.2)
        · exact .run hlive' hcall' (runStep_cases hr)
  | destroy =>
    simp only [step] at hr
    split at hr
    · exact absurd hr (by simp)
    · rename_i hlive
      simp only [Option.ite_none_right_eq_some, Option.some.injEq, Except.ok.injEq] at hr
      exact hr.2 ▸ .destroy (by simpa using hlive) hr.1
  | kernel k =>
    simp only [step, Option.some.injEq, Except.ok.injEq] at hr
    exact hr ▸ .kernel
  | forget fd =>
    simp only [step, Option.some.injEq, Except.ok.injEq] at hr
    exact hr ▸ .forget

/-- What `next` computes is one of the steps, so every invariant is a case analysis on `Step`. -/
theorem next_cases {l : Label K n} (h : s.next M l = some s') : Step M s l s' := by
  unfold next at h
  rw [Option.bind_eq_some_iff] at h
  obtain ⟨r, hr, hok⟩ := h
  rw [Transition.toOption_eq_some] at hok
  exact step_cases (hok ▸ hr)

/-- A destroyed context stays destroyed. -/
theorem Step.live {l : Label K n} (hs : Step M s l s') (hlive' : s'.destroyed = false) :
    s.destroyed = false := by
  cases hs with
  | run hlive | call hlive | rest hlive | destroy hlive => exact hlive
  | kernel | forget => exact hlive'

/-! ### The scheduler's part of a step -/

/-- The critical section of the scheduler that a step makes, if any. -/
def schedAct (s : ContextThread K n) : Label K n → Option (SchedAct K)
  | .thread _ (.schedule op) => some (.schedule op)
  | .thread _ (.cancel fd fuel) => some (.cancel fd fuel)
  | .thread _ .pollCancel => some (.pollCancellations s.threadsWaiting)
  | .thread t .notifications =>
    match (s.threads t).pc with
    | .notified _ events => some (.pollNotifications events s.threadsWaiting)
    | _ => none
  | .thread _ .exitWake => some (.wake s.threadsWaiting)
  | .thread _ .callWake => some (.wake s.threadsWaiting)
  | .kernel k => some (.kernel k)
  | .forget fd => some (.forget fd)
  | _ => none

@[simp] theorem enqueue_sched (s : ContextThread K n) (ops : List AsyncIoOperation) :
    (s.enqueue ops).sched = s.sched := by
  unfold enqueue
  split <;> rfl

@[simp] theorem enqueue_log (s : ContextThread K n) (ops : List AsyncIoOperation) :
    (s.enqueue ops).log = s.log := by
  unfold enqueue
  split <;> rfl

@[simp] theorem enqueue_remainingCount (s : ContextThread K n) (ops : List AsyncIoOperation) :
    (s.enqueue ops).remainingCount = s.remainingCount := by
  unfold enqueue
  split <;> rfl

/-- What is posted goes to the end of the queue. -/
@[simp] theorem enqueue_completionQueue (s : ContextThread K n) (ops : List AsyncIoOperation) :
    (s.enqueue ops).completionQueue = s.completionQueue ++ ops.map .io := by
  unfold enqueue
  split
  · rename_i hnil
    simp [hnil]
  · rfl

/-- **A step of the context is at most one step of the scheduler.** -/
theorem Step.sched {l : Label K n} (hs : Step M s l s') (hl : l ≠ .destroy) :
    (s.schedAct l = none ∧ s'.sched = s.sched) ∨
      ∃ a, s.schedAct l = some a ∧ Sched.step M s.sched a = some s'.sched := by
  cases hs with
  | run hlive hcall hs =>
    cases hs with
    | pollCancel hpc hfree hpoll hpost =>
      refine Or.inr ⟨_, rfl, ?_⟩
      rw [goto, mapThread, enqueue_sched]
      exact Sched.step_pollCancellations.mpr ⟨_, hpoll⟩
    | @notifications block events sched r hpc hfree hpoll hpost =>
      refine Or.inr ⟨.pollNotifications events s.threadsWaiting, by simp [schedAct, hpc], ?_⟩
      rw [goto, mapThread, enqueue_sched]
      exact Sched.step_pollNotifications.mpr ⟨_, hpoll⟩
    | exitWake hpc => exact Or.inr ⟨_, rfl, rfl⟩
    | _ => exact Or.inl ⟨rfl, rfl⟩
  | call hlive hcall huser hs =>
    cases hs with
    | schedule hfree hnew hsched =>
      exact Or.inr ⟨_, rfl, Sched.step_schedule.mpr ⟨hnew, hsched⟩⟩
    | cancel hfree hcancel => exact Or.inr ⟨_, rfl, Sched.step_cancel.mpr ⟨_, hcancel⟩⟩
    | cancelNothing hcancel => exact Or.inr ⟨_, rfl, Sched.step_cancel.mpr ⟨_, hcancel⟩⟩
    | post | latchWork | releaseWork => exact Or.inl ⟨rfl, rfl⟩
  | rest hlive hs =>
    cases hs with
    | postWake | cancelWake | releaseWake => exact Or.inr ⟨_, rfl, rfl⟩
    | postNotify | scheduleNotify | cancelNotify | releaseNotify => exact Or.inl ⟨rfl, rfl⟩
  | destroy => exact absurd rfl hl
  | kernel | forget => exact Or.inr ⟨_, rfl, rfl⟩

end ContextThread

end Exios
