import Exios.Context.Mutexes
import Exios.Context.Counts

namespace Exios

open Locks (Frame held)
open Sections (Mutex Func Stmt Threads)

/-!
# Context — the sections of a run

The states of `ContextThread`, seen as states of the code with its critical sections: what is left
on the stack of each thread, and who holds the two mutexes.

* `ContextThread.view` — the view of a state;
* `step_view` — every step of `ContextThread` is a run of that code by the same thread;
* `reach_view` — so whatever `ContextThread` reaches, its view is reached, and has what reached
  states of the code have;
* `holder_iff` — in particular, the holders that a state records are the threads that stand in a
  section.
-/

namespace Sections

/-! ### Stacks -/

/-- Under everything: the thread's own code. -/
def outside : List (Frame Mutex Func Stmt) := [.code userCode]

/-- Under a round of `run`. -/
def underRun : List (Frame Mutex Func Stmt) :=
  .code (.loop (.seq testAndWait (.call .runOnce))) ::
    .code (.seq (.act .trigger) (.act .notifyAll)) :: .caught :: outside

/-- Under `run_once`, which `run` or the thread's own code has called. -/
def underRunOnce (inRun : Bool) : List (Frame Mutex Func Stmt) :=
  if inRun then underRun else .caught :: outside

/-- The two guards of `run_once`. -/
def underGuards (inRun : Bool) : List (Frame Mutex Func Stmt) :=
  .guard putBack :: .guard (.act .notifyAll) :: underRunOnce inRun

/-- Under `drain_list`. -/
def underDrain (inRun : Bool) : List (Frame Mutex Func Stmt) :=
  .code (.loop dispatch) :: .code pollIfAny :: underGuards inRun

/-- In `cvar_.wait`. -/
def underWait : List (Frame Mutex Func Stmt) :=
  .code (.loop (.seq (.pause .sleep) (.locked .context (.act .evaluate)))) ::
    .code (.call .runOnce) :: underRun

/-- Under a round of `poll_once`. -/
def underPoll (inRun : Bool) : List (Frame Mutex Func Stmt) :=
  .code (.loop pollRound) :: underGuards inRun

/-- What is left on the stack at a position. -/
def positionFrames (inRun : Bool) : Pc → List (Frame Mutex Func Stmt)
  | .out => outside
  | .runLoop => underRun
  | .runTest => .code testAndWait :: .code (.call .runOnce) :: underRun
  | .waitEvaluate => .code (.act .evaluate) :: .unlock .context :: underWait
  | .waitSleep => .unlock .context :: underWait
  -- a sleeper may wake up at any time; both stand in the wait until they have the mutex
  | .asleep | .woken =>
    .code (.seq (.pause .sleep) (.locked .context (.act .evaluate))) :: underWait
  | .takeQueue => .code (.call .runOnce) :: underRunOnce inRun
  | .drain => underDrain inRun
  | .invoke _ => .code (.call .handler) :: underDrain inRun
  | .handler _ => .code userCode :: .code (.branch (.act .skip) .throw) :: underDrain inRun
  | .readMore => .code pollIfAny :: underGuards inRun
  | .checkScheduler _ => .code (.branch (.act .skip) (.call .pollOnce)) :: underGuards inRun
  | .pollCancel _ => .code (.call .pollOnce) :: underGuards inRun
  | .announce _ _ => .code pollRound :: underPoll inRun
  | .polling _ _ => .code (.block (.pause .epollPwait)
      [.act .count, .branch .throw processNotifications]) :: underPoll inRun
  | .polled _ _ => .code (.block (.act .count) [.branch .throw processNotifications]) ::
      underPoll inRun
  | .notified _ _ => .code processNotifications :: underPoll inRun
  | .putBack => .code putBack :: .code .throw :: .guard (.act .notifyAll) :: underRunOnce inRun
  | .guardNotify thrown =>
    (if thrown then [.code .throw] else []) ++ .guard (.act .notifyAll) :: underRunOnce inRun
  | .exitWake => .code (.seq (.act .trigger) (.act .notifyAll)) :: .caught :: outside
  | .exitNotify => .code (.act .notifyAll) :: .caught :: outside

/-- What is left on the stack of an API call. -/
def callFrames : Call → List (Frame Mutex Func Stmt)
  | .none => []
  | .postWake => [.code (.seq (.act .trigger) (.act .notifyAll)), .unlock .context]
  | .postNotify => [.code (.act .notifyAll), .unlock .context]
  | .scheduleNotify => [.code (.act .notifyAll), .unlock .scheduler]
  | .cancelWake => [.code (.seq (.act .trigger) (.act .notifyAll)), .unlock .scheduler]
  | .cancelNotify => [.code (.act .notifyAll), .unlock .scheduler]
  | .releaseWake => [.code (.seq (.act .trigger) (.act .notifyAll))]
  | .releaseNotify => [.code (.act .notifyAll)]

/-- The stack of a thread. -/
def frames (th : Thread) : List (Frame Mutex Func Stmt) :=
  callFrames th.call ++ positionFrames th.inRun th.pc

/-- The holders of the two mutexes. -/
def holders {T : Type} (scheduler context : Option T) : Mutex → Option T
  | .scheduler => scheduler
  | .context => context

/-- Taking or giving back the context's mutex leaves the scheduler's holder alone. -/
@[simp] theorem update_holders_context {T : Type} (a b c : Option T) :
    Function.update (holders a b) Mutex.context c = holders a c := by
  funext ℓ
  cases ℓ <;> rfl

/-- And the other way around. -/
@[simp] theorem update_holders_scheduler {T : Type} (a b c : Option T) :
    Function.update (holders a b) Mutex.scheduler c = holders c b := by
  funext ℓ
  cases ℓ <;> rfl

/-- A thread that is woken up is still in its wait. -/
theorem frames_congr {th th' : Thread} (hcall : th'.call = th.call) (hrun : th'.inRun = th.inRun)
    (hpc : th'.pc = th.pc ∨ (th.pc = .asleep ∧ th'.pc = .woken)) : frames th' = frames th := by
  unfold frames
  rcases hpc with hpc | ⟨hasleep, hwoken⟩
  · rw [hcall, hrun, hpc]
  · rw [hcall, hasleep, hwoken]
    rfl

end Sections

namespace ContextThread

open Sections

variable {K : Type} {n : Nat} {M : Kernel K} {s s' : ContextThread K n} {t : Fin n}

/-- **The view of a state.** -/
def view (s : ContextThread K n) : Threads (Fin n) :=
  ⟨fun u => frames (s.threads u), holders s.schedMutex s.dataMutex⟩

@[simp] theorem goto_dataMutex (s : ContextThread K n) (pc : Pc) :
    (s.goto t pc).dataMutex = s.dataMutex := rfl

@[simp] theorem goto_schedMutex (s : ContextThread K n) (pc : Pc) :
    (s.goto t pc).schedMutex = s.schedMutex := rfl

@[simp] theorem enqueue_dataMutex (s : ContextThread K n) (ops : List AsyncIoOperation) :
    (s.enqueue ops).dataMutex = s.dataMutex := by
  unfold enqueue
  split <;> rfl

@[simp] theorem enqueue_schedMutex (s : ContextThread K n) (ops : List AsyncIoOperation) :
    (s.enqueue ops).schedMutex = s.schedMutex := by
  unfold enqueue
  split <;> rfl

/-- An operation that enters the queue does not move a thread into `run` or out of it. -/
@[simp] theorem enqueue_inRun (s : ContextThread K n) (ops : List AsyncIoOperation) (u : Fin n) :
    ((s.enqueue ops).threads u).inRun = (s.threads u).inRun := by
  unfold enqueue
  split <;> simp

/-- A thread in the loop of `run` is in `run`. -/
def LoopsInRun (s : ContextThread K n) : Prop :=
  ∀ u, (s.threads u).pc.inLoop = true → (s.threads u).inRun = true

/-! ### Inside `run`, `run_once` and `poll_once` -/

/-- What the thread's stack and the holders become. -/
def Follows (s s' : ContextThread K n) (t : Fin n) : Prop :=
  Locks.Leads body t (frames (s.threads t)) (holders s.schedMutex s.dataMutex)
    (frames (s'.threads t)) (holders s'.schedMutex s'.dataMutex)

/-- A thread follows the code if what it does alone leads from its frames to its new frames. -/
theorem follows_to {k k' : List (Frame Mutex Func Stmt)} (hfrom : frames (s.threads t) = k)
    (hto : frames (s'.threads t) = k')
    (h : Locks.Leads body t k (holders s.schedMutex s.dataMutex) k'
      (holders s'.schedMutex s'.dataMutex)) : Follows s s' t := by
  unfold Follows
  rw [hfrom, hto]
  exact h

/-- From a position to a position. -/
theorem follows_of {pc : Pc} (pc' : Pc) (r' : Bool) (hcall : (s.threads t).call = .none)
    (hpc : (s.threads t).pc = pc)
    (hself : (s'.threads t).call = .none ∧ (s'.threads t).pc = pc' ∧ (s'.threads t).inRun = r')
    (h : Locks.Leads body t (positionFrames (s.threads t).inRun pc)
      (holders s.schedMutex s.dataMutex) (positionFrames r' pc')
      (holders s'.schedMutex s'.dataMutex)) : Follows s s' t := by
  obtain ⟨hcall', hpc', hrun'⟩ := hself
  have hfrom : frames (s.threads t) = positionFrames (s.threads t).inRun pc := by
    rw [frames, hcall, hpc]
    rfl
  have hto : frames (s'.threads t) = positionFrames r' pc' := by
    rw [frames, hcall', hpc', hrun']
    rfl
  exact follows_to hfrom hto h

/-- **A step inside `run`, `run_once` or `poll_once`** is a run of the thread's code. -/
theorem RunStep.follows {a : Act} (hs : RunStep M s t a s') (hcall : (s.threads t).call = .none)
    (hin : LoopsInRun s) : Follows s s' t := by
  -- what an update of the thread leaves of it
  have hmap : ∀ (s₁ : ContextThread K n) (f : Thread → Thread) (pc' : Pc) (r' : Bool),
      (s₁.threads t).call = .none → (f (s₁.threads t)).call = (s₁.threads t).call →
      (f (s₁.threads t)).pc = pc' → (f (s₁.threads t)).inRun = r' →
      ((s₁.mapThread t f).threads t).call = .none ∧ ((s₁.mapThread t f).threads t).pc = pc' ∧
        ((s₁.mapThread t f).threads t).inRun = r' := by
    intro s₁ f pc' r' hs₁ hfcall hfpc hfrun
    rw [mapThread_threads, if_pos rfl]
    exact ⟨hfcall.trans hs₁, hfpc, hfrun⟩
  cases hs with
  | enterRun hpc =>
    exact follows_of .runLoop true hcall hpc (hmap _ _ _ _ hcall rfl rfl rfl)
      (.quiet [.again, .go, .go, .other, .other, .other, .other, .other, .go, .go, .go, .go]
        rfl .refl)
  | enterRunOnce hpc =>
    exact follows_of .takeQueue false hcall hpc (hmap _ _ _ _ hcall rfl rfl rfl)
      (.quiet [.again, .go, .go, .other, .other, .other, .other, .other, .other, .go] rfl .refl)
  | loop hpc =>
    refine follows_of _ _ hcall hpc (hmap _ _ _ _ hcall rfl rfl rfl) ?_
    dsimp only
    split
    · exact .quiet [.again, .go] rfl .refl
    · exact .quiet [.go] rfl .refl
  | testWait hpc hfree hempty =>
    refine follows_of .waitEvaluate _ hcall hpc (hmap _ _ _ _ hcall rfl rfl rfl) ?_
    exact .quiet [.go] rfl (.take hfree (.quiet [.go] rfl
      (by rw [update_holders_context]; exact .refl)))
  | testGo hpc hfree =>
    have hrun := hin t (by rw [hpc]; rfl)
    refine follows_of .takeQueue _ hcall hpc (hmap _ _ _ _ hcall rfl rfl rfl) ?_
    dsimp only
    rw [hrun]
    exact .quiet [.go] rfl (.within [.other, .go] hfree rfl (.quiet [.go] rfl .refl))
  | evaluateTrue hpc hpred =>
    have hrun := hin t (by rw [hpc]; rfl)
    refine follows_of .takeQueue _ hcall hpc (hmap _ _ _ _ hcall rfl rfl rfl) ?_
    dsimp only
    rw [hrun]
    exact .quiet [.go] rfl (.release (.quiet [.go] rfl
      (by rw [update_holders_context]; exact .refl)))
  | evaluateFalse hpc hpred =>
    exact follows_of .waitSleep _ hcall hpc (hmap _ _ _ _ hcall rfl rfl rfl) (.quiet [.go] rfl .refl)
  | sleep hpc =>
    refine follows_of .asleep _ hcall hpc (hmap _ _ _ _ hcall rfl rfl rfl) ?_
    exact .release (.quiet [.again] rfl (by rw [update_holders_context]; exact .refl))
  | spuriousWake hpc =>
    exact follows_of .woken _ hcall hpc (hmap _ _ _ _ hcall rfl rfl rfl) .refl
  | relock hpc hfree =>
    refine follows_of .waitEvaluate _ hcall hpc (hmap _ _ _ _ hcall rfl rfl rfl) ?_
    exact .quiet [.go, .go] rfl (.take hfree (by rw [update_holders_context]; exact .refl))
  | take hpc hfree =>
    exact follows_of .drain _ hcall hpc (hmap _ _ _ _ hcall rfl rfl rfl) (.quiet [.go, .go] rfl
      (.within [.go, .go, .go, .go, .go, .go] hfree rfl (.quiet [.go, .go, .go] rfl .refl)))
  | drained hpc hbatch =>
    exact follows_of .readMore _ hcall hpc (hmap _ _ _ _ hcall rfl rfl rfl) (.quiet [.go] rfl .refl)
  | popFront hpc hbatch =>
    exact follows_of (.invoke _) _ hcall hpc (hmap _ _ _ _ hcall rfl rfl rfl)
      (.quiet [.again, .go, .go] rfl .refl)
  | invoke hpc hdeliver =>
    exact follows_of (.handler _) _ hcall hpc (hmap _ _ _ _ hcall rfl rfl rfl)
      (.quiet [.go, .go] rfl .refl)
  | handlerReturn hpc =>
    exact follows_of .drain _ hcall hpc (hmap _ _ _ _ hcall rfl rfl rfl)
      (.quiet [.go, .go, .go] rfl .refl)
  | handlerThrow hpc =>
    exact follows_of .putBack _ hcall hpc (hmap _ _ _ _ hcall rfl rfl rfl)
      (.quiet [.go, .other, .go, .go, .go] rfl .refl)
  | readMore hpc hfree =>
    exact follows_of (.checkScheduler _) _ hcall hpc (hmap _ _ _ _ hcall rfl rfl rfl)
      (.quiet [.go] rfl (.within [.go] hfree rfl .refl))
  | checkScheduler hpc =>
    refine follows_of _ _ hcall hpc (hmap _ _ _ _ hcall rfl rfl rfl) ?_
    dsimp only
    split
    · exact .quiet [.go, .go, .go, .go, .go] rfl .refl
    · exact .quiet [.other] rfl .refl
  | pollCancel hpc hfree hpoll hpost =>
    refine follows_of _ (s.threads t).inRun hcall hpc
      (hmap _ _ _ _ ((enqueue_call _ _ _).trans hcall) rfl rfl (enqueue_inRun _ _ _)) ?_
    rw [goto_dataMutex, goto_schedMutex, enqueue_dataMutex, enqueue_schedMutex]
    refine .quiet [.go, .go] rfl (.within [.go, .go, .go, .go, .go, .go, .go] hfree rfl ?_)
    split
    · exact .quiet [.go, .go, .go, .go, .go] rfl .refl
    · exact .quiet [.other, .go] rfl .refl
  | announce hpc =>
    exact follows_of (.polling _ _) _ hcall hpc (hmap _ _ _ _ hcall rfl rfl rfl)
      (.quiet [.go, .go] rfl .refl)
  | epollReturn hpc =>
    exact follows_of (.polled _ _) _ hcall hpc (hmap _ _ _ _ hcall rfl rfl rfl)
      (.quiet [.go, .go] rfl .refl)
  | epollFail hpc =>
    exact follows_of (.polled _ _) _ hcall hpc (hmap _ _ _ _ hcall rfl rfl rfl)
      (.quiet [.go, .go] rfl .refl)
  | retireThrow hpc =>
    exact follows_of .putBack _ hcall hpc (hmap _ _ _ _ hcall rfl rfl rfl)
      (.quiet [.go, .go, .go, .go, .go] rfl .refl)
  | retire hpc =>
    exact follows_of (.notified _ _) _ hcall hpc (hmap _ _ _ _ hcall rfl rfl rfl)
      (.quiet [.go, .go, .other] rfl .refl)
  | notifications hpc hfree hpoll hpost =>
    refine follows_of _ (s.threads t).inRun hcall hpc
      (hmap _ _ _ _ ((enqueue_call _ _ _).trans hcall) rfl rfl (enqueue_inRun _ _ _)) ?_
    rw [goto_dataMutex, goto_schedMutex, enqueue_dataMutex, enqueue_schedMutex]
    refine .within [.go, .go, .go, .go, .go] hfree rfl ?_
    split
    · exact .quiet [.again] rfl .refl
    · exact .quiet [.go, .go, .go, .go] rfl .refl
  | putBackNone hpc hbatch =>
    exact follows_of (.guardNotify true) _ hcall hpc (hmap _ _ _ _ hcall rfl rfl rfl)
      (.quiet [.go, .go] rfl .refl)
  | putBack hpc hfree =>
    exact follows_of (.guardNotify true) _ hcall hpc (hmap _ _ _ _ hcall rfl rfl rfl)
      (.quiet [.other] rfl (.within [.go, .go, .go, .go] hfree rfl .refl))
  | @guardNotify thrown hpc =>
    refine follows_of _ (s.threads t).inRun hcall hpc
      (hmap _ _ _ _ ((notifyAll_call _ _).trans hcall) rfl rfl (notifyAll_inRun _ _)) ?_
    rw [notifyAll_inRun]
    cases hrun : (s.threads t).inRun <;> cases thrown
    · exact .quiet [.go, .go, .go] rfl .refl
    · exact .quiet [.go, .go, .go] rfl .refl
    · exact .quiet [.go, .go] rfl .refl
    · exact .quiet [.go, .go, .go, .go, .go] rfl .refl
  | exitWake hpc =>
    exact follows_of .exitNotify _ hcall hpc (hmap _ _ _ _ hcall rfl rfl rfl)
      (.quiet [.go, .go] rfl .refl)
  | exitNotify hpc =>
    refine follows_of .out _ hcall hpc (hmap _ _ _ _ (by simpa using hcall) rfl rfl rfl) ?_
    exact (.quiet [.go, .go] rfl .refl)

/-! ### Calls -/

/-- Where user code runs, the next thing on the stack is to run it. -/
theorem positionFrames_user {pc : Pc} (huser : pc.isUser = true) (r : Bool) :
    ∃ k, positionFrames r pc = .code userCode :: k := by
  cases pc with
  | out => exact ⟨_, rfl⟩
  | handler op => exact ⟨_, rfl⟩
  | _ => exact absurd huser (by simp [Pc.isUser])

/-- **The first step of a call** is a run of the thread's code. -/
theorem CallStep.follows {a : Act} (hs : CallStep M s t a s')
    (hcall : (s.threads t).call = .none) (huser : (s.threads t).pc.isUser = true) :
    Follows s s' t := by
  obtain ⟨k, hk⟩ := positionFrames_user huser (s.threads t).inRun
  have hfrom : frames (s.threads t) = .code userCode :: k := by
    rw [frames, hcall, hk]
    rfl
  -- a new call goes on top of the position's stack
  have hto : ∀ (s₁ : ContextThread K n) (call : Call), s₁.threads = s.threads →
      frames ((s₁.setCall t call).threads t) = callFrames call ++ .code userCode :: k := by
    intro s₁ call hs₁
    rw [setCall, mapThread_threads, if_pos rfl, ← hk, hs₁]
    rfl
  cases hs with
  | post hfree hnew =>
    refine follows_to hfrom (hto _ _ rfl) ?_
    refine .quiet [.again, .go, .go, .go, .go] rfl (.take hfree ?_)
    rw [update_holders_context]
    exact .quiet [.go, .go, .go, .go] rfl .refl
  | schedule hfree hnew hsched =>
    refine follows_to hfrom (hto _ _ rfl) ?_
    refine .quiet [.again, .go, .go, .other, .other, .other, .go, .go] rfl (.take hfree ?_)
    rw [update_holders_scheduler]
    exact .quiet [.go, .go, .go, .go, .go, .go, .go, .go, .go, .go, .go, .go, .go] rfl .refl
  | cancel hfree hcancel =>
    refine follows_to hfrom (hto _ _ rfl) ?_
    refine .quiet [.again, .go, .go, .other, .other, .other, .other, .go, .go] rfl
      (.take hfree ?_)
    rw [update_holders_scheduler]
    exact .quiet [.go, .go, .go, .go, .other, .go, .go, .go, .go, .go, .go, .go, .go, .go] rfl .refl
  | cancelNothing => exact follows_to hfrom hfrom .refl
  | latchWork => exact follows_to hfrom hfrom .refl
  | releaseWork hpos =>
    refine follows_to hfrom (hto _ _ rfl) ?_
    exact .quiet [.again, .go, .go, .other, .other, .go, .go, .go, .go, .go, .go] rfl .refl

/-- **The later steps of a call.** -/
theorem CallRest.follows {a : Act} (hs : CallRest s t a s') : Follows s s' t := by
  have hto : ∀ (s₁ : ContextThread K n) (call : Call), s₁.threads = s.threads →
      frames ((s₁.setCall t call).threads t) =
        callFrames call ++ positionFrames (s.threads t).inRun (s.threads t).pc := by
    intro s₁ call hs₁
    rw [setCall, mapThread_threads, if_pos rfl, hs₁]
    rfl
  have hwoken : ∀ (s₁ : ContextThread K n) (call : Call), s₁.threads = s.threads →
      frames ((s₁.notifyAll.setCall t call).threads t) =
        callFrames call ++ positionFrames (s.threads t).inRun (s.threads t).pc := by
    intro s₁ call hs₁
    rw [setCall, mapThread_threads, if_pos rfl, frames, notifyAll_inRun, notifyAll_pc, hs₁]
    -- a thread that sleeps where it makes a call would be woken, too
    split
    · rename_i hasleep
      rw [hasleep]
      rfl
    · rfl
  have hfrom : ∀ {call : Call}, (s.threads t).call = call → frames (s.threads t) =
      callFrames call ++ positionFrames (s.threads t).inRun (s.threads t).pc := by
    rintro call rfl
    rfl
  cases hs with
  | postWake hcall | cancelWake hcall | releaseWake hcall =>
    exact follows_to (hfrom hcall) (hto _ _ rfl) (.quiet [.go, .go] rfl .refl)
  | postNotify hcall =>
    refine follows_to (hfrom hcall) (hwoken _ _ rfl) (.quiet [.go] rfl (.release ?_))
    rw [update_holders_context]
    exact .refl
  | scheduleNotify hcall | cancelNotify hcall =>
    refine follows_to (hfrom hcall) (hwoken _ _ rfl) (.quiet [.go] rfl (.release ?_))
    rw [update_holders_scheduler]
    exact .refl
  | releaseNotify hcall =>
    exact follows_to (hfrom hcall) (hwoken _ _ rfl) (.quiet [.go] rfl .refl)

/-! ### Runs -/

/-- A step of one thread leaves the others where they are, or wakes them up. -/
theorem Step.others {a : Act} (hs : Step M s (.thread t a) s') {u : Fin n} (hu : u ≠ t) :
    (s'.threads u).call = (s.threads u).call ∧ (s'.threads u).inRun = (s.threads u).inRun ∧
      ((s'.threads u).pc = (s.threads u).pc ∨
        ((s.threads u).pc = .asleep ∧ (s'.threads u).pc = .woken)) := by
  have hmap : ∀ (s₁ : ContextThread K n) (f : Thread → Thread),
      (s₁.threads u).inRun = (s.threads u).inRun →
      ((s₁.mapThread t f).threads u).inRun = (s.threads u).inRun := by
    intro s₁ f hs₁
    rw [mapThread_threads, if_neg hu]
    exact hs₁
  cases hs with
  | run hlive hcall hr =>
    refine ⟨hr.frame.calls u, ?_, hr.frame.others u hu⟩
    -- the others are where they were, or `notify_all` has woken them
    cases hr with
    | guardNotify | exitNotify => exact hmap _ _ (notifyAll_inRun _ _)
    | pollCancel | notifications => exact hmap _ _ (enqueue_inRun _ _ _)
    | _ => exact hmap _ _ rfl
  | call hlive hcall huser hc =>
    refine ⟨hc.frame.2 u hu, ?_, Or.inl (hc.frame.1 u)⟩
    cases hc with
    | cancelNothing | latchWork => rfl
    | _ => exact hmap _ _ rfl
  | rest hlive hr =>
    refine ⟨hr.frame.2.2 u hu, ?_, hr.frame.2.1 u⟩
    cases hr with
    | postNotify | scheduleNotify | cancelNotify | releaseNotify =>
      exact hmap _ _ (notifyAll_inRun _ _)
    | _ => exact hmap _ _ rfl

/-- What a thread does of the code is a run of the threads. -/
theorem Follows.exec_view (h : Follows s s' t)
    (hothers : ∀ u, u ≠ t → frames (s'.threads u) = frames (s.threads u)) :
    ∃ as, Transition.exec (Locks.step body) s.view as = some s'.view := by
  obtain ⟨as, has⟩ := Locks.Leads.exec (s := s.view) (t := t) h
  refine ⟨as, has.trans ?_⟩
  congr 1
  show (⟨_, _⟩ : Threads (Fin n)) = ⟨_, _⟩
  congr 1
  funext u
  by_cases hu : u = t
  · subst hu
    rw [Function.update_self]
  · rw [Function.update_of_ne hu]
    exact (hothers u hu).symm

/-- **The step lemma**: every step of `ContextThread` is a run of the code with its sections. -/
theorem step_view {l : Label K n} (hs : Step M s l s') (hin : LoopsInRun s) :
    ∃ as, Transition.exec (Locks.step body) s.view as = some s'.view := by
  have hothers : ∀ {t a}, Step M s (.thread t a) s' →
      ∀ u, u ≠ t → frames (s'.threads u) = frames (s.threads u) := by
    intro t a hs u hu
    obtain ⟨hcall, hrun, hpc⟩ := hs.others hu
    exact frames_congr hcall hrun hpc
  have hs' := hs
  cases hs with
  | run hlive hcall h => exact (h.follows hcall hin).exec_view (hothers hs')
  | call hlive hcall huser h => exact (h.follows hcall huser).exec_view (hothers hs')
  | rest hlive h => exact h.follows.exec_view (hothers hs')
  | destroy | kernel | forget => exact ⟨[], rfl⟩

/-- A thread that goes on in the loop of `run` is in `run`. -/
theorem RunStep.loopsInRun {a : Act} (hs : RunStep M s t a s') (hin : LoopsInRun s)
    (hloop : (s'.threads t).pc.inLoop = true) : (s'.threads t).inRun = true := by
  cases hs with
  | enterRun hpc =>
    rw [mapThread_threads, if_pos rfl]
  | loop hpc | testWait hpc | evaluateFalse hpc | sleep hpc | spuriousWake hpc | relock hpc
  | exitWake hpc =>
    rw [goto, mapThread_threads, if_pos rfl]
    exact hin t (by rw [hpc]; rfl)
  -- `run_once` returns to the loop only inside `run`
  | guardNotify hpc =>
    rw [mapThread_threads, if_pos rfl] at hloop ⊢
    dsimp only at hloop ⊢
    split at hloop
    · rename_i hstay
      exact hstay.2
    · exact absurd hloop (by simp [Pc.inLoop])
  | checkScheduler hpc | pollCancel hpc | notifications hpc =>
    rw [goto_pc, if_pos rfl] at hloop
    split at hloop <;> exact absurd hloop (by simp [Pc.inLoop])
  | testGo | evaluateTrue | drained | invoke | handlerThrow | readMore | announce | epollReturn
  | epollFail | retireThrow | retire | putBackNone | exitNotify =>
    rw [goto_pc, if_pos rfl] at hloop
    exact absurd hloop (by simp [Pc.inLoop])
  -- these are no positions of the loop
  | enterRunOnce | take | popFront | handlerReturn | putBack =>
    rw [mapThread_threads, if_pos rfl] at hloop
    exact absurd hloop (by simp [Pc.inLoop])

/-- **The step lemma**: whoever is in the loop of `run` has entered `run`. -/
theorem step_loopsInRun {l : Label K n} (hs : Step M s l s') (hin : LoopsInRun s) :
    LoopsInRun s' := by
  -- a thread that is woken up, or makes a call, was in the loop already
  have hsame : ∀ u, (s'.threads u).inRun = (s.threads u).inRun →
      ((s'.threads u).pc = (s.threads u).pc ∨
        ((s.threads u).pc = .asleep ∧ (s'.threads u).pc = .woken)) →
      (s'.threads u).pc.inLoop = true → (s'.threads u).inRun = true := by
    intro u hrun hpc hloop
    rw [hrun]
    rcases hpc with hpc | ⟨hasleep, -⟩
    · exact hin u (hpc ▸ hloop)
    · exact hin u (by rw [hasleep]; rfl)
  have hs' := hs
  intro u
  cases hs with
  | @run t a _ hlive hcall h =>
    by_cases hu : u = t
    · exact hu ▸ h.loopsInRun hin
    · exact hsame u (hs'.others hu).2.1 (hs'.others hu).2.2
  | @call t a _ hlive hcall huser h =>
    by_cases hu : u = t
    · refine hsame u ?_ (Or.inl (h.frame.1 u))
      subst hu
      cases h with
      | cancelNothing | latchWork => rfl
      | _ =>
        rw [setCall, mapThread_threads, if_pos rfl]
    · exact hsame u (hs'.others hu).2.1 (hs'.others hu).2.2
  | @rest t a _ hlive h =>
    by_cases hu : u = t
    · refine hsame u ?_ (h.frame.2.1 u)
      subst hu
      cases h with
      | postWake | cancelWake | releaseWake =>
        rw [setCall, mapThread_threads, if_pos rfl]
        rfl
      | _ =>
        rw [setCall, mapThread_threads, if_pos rfl]
        exact notifyAll_inRun _ _
    · exact hsame u (hs'.others hu).2.1 (hs'.others hu).2.2
  | destroy | kernel | forget => exact hin u

/-- **The run lemma**: whatever `ContextThread` reaches, its view is reached. -/
theorem reach_view {s : ContextThread K n} (h : Reach M Transition.always s) : Reached s.view := by
  suffices hboth : LoopsInRun s ∧ Reached s.view from hboth.2
  refine h.invariant (fun s => LoopsInRun s ∧ Reached s.view) ?_ ?_
  · -- idle threads have the thread's own code on their stacks, and hold nothing
    rintro s ⟨-, hs⟩
    rw [hs]
    refine ⟨fun u hu => absurd hu (by simp [idle, Pc.inLoop]), .start ?_⟩
    show view _ = _
    unfold view
    congr 1
    funext ℓ
    cases ℓ <;> rfl
  · rintro s l s' ⟨hin, hreached⟩ - hs
    have hstep := next_cases hs
    obtain ⟨as, has⟩ := step_view hstep hin
    refine ⟨step_loopsInRun hstep hin, Transition.exec_reach hreached as ?_⟩
    rw [Transition.guarded_always]
    exact has

/-- The holders that a reached state records are the threads that stand in a section, in `cvar_.wait`
    or in a call. -/
theorem holder_iff {s : ContextThread K n} (h : Reach M Transition.always s) (t : Fin n) :
    (s.dataMutex = some t ↔ .context ∈ held (frames (s.threads t))) ∧
      (s.schedMutex = some t ↔ .scheduler ∈ held (frames (s.threads t))) :=
  ⟨(reach_view h).sound.owned .context t, (reach_view h).sound.owned .scheduler t⟩

end ContextThread

end Exios
