import Exios.Context.Dispatch
import Exios.Context.Work

namespace Exios

open Placement (Placed)

/-!
# Context — what `run` and `run_once` return

`run_once` counts the handlers that return in its own batch, `run` adds up what its `run_once`
calls return.  With any number of threads in both, and handlers that post, cancel and throw:

* `Counts` — the context with the history of the counts: which operations each thread has
  counted, and which of them a return value stands for;
* `TallyInv` — where a thread stands, and what it has counted;
* `run_once_counts` — `run_once` returns only after all handlers of the batch that it took have
  returned, in the order of the batch, and then the number of them;
* `counts_accounted` — every handler invoked is counted in one return value, or lost to one
  exception, or still in the hands of one thread.
-/

/-- The operation whose handler runs. -/
def Pc.running : Pc → List AnyAsyncOperation
  | .handler op => [op]
  | _ => []

/-- The positions in `run` outside of `run_once`. -/
def Pc.inLoop : Pc → Bool
  | .runLoop | .runTest | .waitEvaluate | .waitSleep | .asleep | .woken | .exitWake
  | .exitNotify => true
  | _ => false

/-- An exception is on its way out of `run_once`. -/
def Pc.throws : Pc → Bool
  | .polled _ none | .putBack | .guardNotify true => true
  | _ => false

/-- The operations that a thread has counted. -/
structure Tally where
  /-- The batch that `run_once` took last. -/
  taken : List AnyAsyncOperation
  /-- Its operations whose handlers have returned: `num_processed` of `run_once`. -/
  ran : List AnyAsyncOperation
  /-- Its operation whose handler threw, if one did. -/
  failed : List AnyAsyncOperation
  /-- Those counted by the `run_once` calls before, in the same `run`: `num_processed` of `run`. -/
  ranBefore : List AnyAsyncOperation

/-- `ContextThread` with the history of the counts. -/
structure Counts (K : Type) (n : Nat) where
  ctx : ContextThread K n
  tally : Fin n → Tally
  /-- What `run` and `run_once` returned to user code, and the operations it stands for. -/
  returned : List (Nat × List AnyAsyncOperation)
  /-- The operations that were counted when an exception left `run` or `run_once`. -/
  lost : List AnyAsyncOperation
  /-- The operations whose handlers threw. -/
  threw : List AnyAsyncOperation
  /-- How often `epoll_pwait` failed. -/
  failures : Nat

namespace Counts

variable {K : Type} {n : Nat}

/-- A thread's count changes. -/
def tell (h : Counts K n) (t : Fin n) (f : Tally → Tally) : Counts K n :=
  { h with tally := Function.update h.tally t (f (h.tally t)) }

/-- An exception leaves `run_once`, and `run` if it was called there: the counts are gone. -/
def loseCounts (h : Counts K n) (t : Fin n) : Counts K n :=
  { h.tell t (fun y => { y with ran := [], ranBefore := [] }) with
    lost := h.lost ++ ((h.tally t).ranBefore ++ (h.tally t).ran) }

/-- `num_processed += run_once()` in `run`. -/
def addUp (h : Counts K n) (t : Fin n) : Counts K n :=
  h.tell t (fun y => { y with ran := [], ranBefore := y.ranBefore ++ y.ran })

/-- `run_once` returns to user code. -/
def returnOnce (h : Counts K n) (t : Fin n) : Counts K n :=
  { h.tell t (fun y => { y with ran := [] }) with
    returned := h.returned ++ [((h.ctx.threads t).numProcessedOnce, (h.tally t).ran)] }

/-- The end of `run_once`. -/
def leaveRunOnce (h : Counts K n) (t : Fin n) : Counts K n :=
  if (h.ctx.threads t).pc = .guardNotify true then h.loseCounts t
  else if (h.ctx.threads t).inRun then h.addUp t
  else h.returnOnce t

/-- `run` returns to user code. -/
def leaveRun (h : Counts K n) (t : Fin n) : Counts K n :=
  { h.tell t (fun y => { y with ranBefore := [] }) with
    returned := h.returned ++ [((h.ctx.threads t).numProcessed, (h.tally t).ranBefore)] }

/-- The history before the step's own change of the context. -/
def note (h : Counts K n) : Label K n → Counts K n
  | .thread t .take => h.tell t (fun y => { y with taken := h.ctx.completionQueue, failed := [] })
  | .thread t .handlerReturn =>
    h.tell t (fun y => { y with ran := y.ran ++ (h.ctx.threads t).pc.running })
  | .thread t .handlerThrow =>
    { h.tell t (fun y => { y with failed := (h.ctx.threads t).pc.running }) with
      threw := h.threw ++ (h.ctx.threads t).pc.running }
  | .thread _ .epollFail => { h with failures := h.failures + 1 }
  | .thread t .guardNotify => h.leaveRunOnce t
  | .thread t .exitNotify => h.leaveRun t
  | _ => h

/-- The history after a step. -/
def record (h : Counts K n) (l : Label K n) (ctx : ContextThread K n) : Counts K n :=
  { h.note l with ctx := ctx }

/-- One step. -/
def next (M : Kernel K) (h : Counts K n) (l : Label K n) : Option (Counts K n) :=
  (h.ctx.next M l).map (h.record l)

/-- A run starts with a constructed context. -/
def Init (h : Counts K n) : Prop :=
  ContextThread.Init h.ctx ∧ h = ⟨h.ctx, fun _ => ⟨[], [], [], []⟩, [], [], [], 0⟩

/-- States reached by runs. -/
def Reach (M : Kernel K) : Counts K n → Prop :=
  Transition.Reach Init (next M) Transition.always

/-- Who answers for an operation whose handler was invoked. -/
inductive Share (n : Nat)
  /-- A return value. -/
  | returned
  | lost
  | threw
  /-- A thread that is still in `run` or `run_once`. -/
  | held (t : Fin n)
deriving DecidableEq

/-- What each of them answers for. -/
def share (h : Counts K n) : Share n → List AnyAsyncOperation
  | .returned => h.returned.flatMap Prod.snd
  | .lost => h.lost
  | .threw => h.threw
  | .held t => (h.tally t).ranBefore ++ ((h.tally t).ran ++ (h.ctx.threads t).pc.running)

/-! ### One thread -/

/-- What `run_once` has counted, by its phase. -/
def Counted (th : Thread) (y : Tally) : Prop :=
  match th.pc.phase with
  | .idle => y.ran = []
  | .batch | .handler =>
    y.taken = y.ran ++ (th.pc.dispatching.toList ++ th.batch) ∧
      th.numProcessedOnce = y.ran.length ∧ y.failed = []
  | .unwind => y.taken = y.ran ++ (y.failed ++ th.batch) ∧ y.failed.length ≤ 1
  | .thrown => True

/-- **The invariant of a thread's count.** -/
structure TallyInv (th : Thread) (y : Tally) : Prop where
  once : Counted th y
  inLoop : th.pc.inLoop = true → th.inRun = true
  total : th.pc ≠ .out → th.inRun = true → th.numProcessed = y.ranBefore.length
  before : th.pc = .out ∨ th.inRun = false → y.ranBefore = []

variable {M : Kernel K} {h : Counts K n} {ctx : ContextThread K n} {t : Fin n}

/-- A thread that others wake up, or that makes a call. -/
structure Undisturbed (th th' : Thread) : Prop where
  pc : th'.pc = th.pc ∨ (th.pc = .asleep ∧ th'.pc = .woken)
  inRun : th'.inRun = th.inRun
  batch : th'.batch = th.batch
  numProcessedOnce : th'.numProcessedOnce = th.numProcessedOnce
  numProcessed : th'.numProcessed = th.numProcessed

namespace TallyInv

variable {th : Thread} {y : Tally}

/-- The thread goes on within its phase. -/
theorem goto (hinv : TallyInv th y) {pc : Pc} (hphase : pc.phase = th.pc.phase)
    (hdispatching : pc.dispatching = th.pc.dispatching)
    (hloop : pc.inLoop = true → th.pc.inLoop = true) (hpc : th.pc ≠ .out) (hpc' : pc ≠ .out) :
    TallyInv { th with pc := pc } y where
  once := by
    have honce := hinv.once
    unfold Counted at honce ⊢
    dsimp only
    rw [hphase, hdispatching]
    exact honce
  inLoop := fun hp => hinv.inLoop (hloop hp)
  total := fun _ => hinv.total hpc
  before := by
    rintro (hp | hp)
    · exact absurd hp hpc'
    · exact hinv.before (Or.inr hp)

/-- The thread goes on inside `run_once`, after which only the count of the batch may differ. -/
theorem within (hinv : TallyInv th y) {th' : Thread} {y' : Tally} (honce : Counted th' y')
    (hpc : th.pc ≠ .out) (hpc' : th'.pc ≠ .out ∧ th'.pc.inLoop = false)
    (hrun : th'.inRun = th.inRun ∧ th'.numProcessed = th.numProcessed)
    (hbefore : y'.ranBefore = y.ranBefore) : TallyInv th' y' where
  once := honce
  inLoop := fun hp => absurd (hpc'.2.symm.trans hp) (by simp)
  total := by
    rw [hrun.1, hrun.2, hbefore]
    exact fun _ => hinv.total hpc
  before := by
    rw [hrun.1, hbefore]
    rintro (hp | hp)
    · exact absurd hp hpc'.1
    · exact hinv.before (Or.inr hp)

/-- Another thread's step, or a call, leaves the count as it is. -/
theorem undisturbed (hinv : TallyInv th y) {th' : Thread} (hth : Undisturbed th th') :
    TallyInv th' y := by
  obtain ⟨pc, call, inRun, batch, once, total⟩ := th'
  obtain ⟨hpc, rfl, rfl, rfl, rfl⟩ := hth
  rcases hpc with rfl | ⟨hasleep, rfl⟩
  · exact ⟨hinv.once, hinv.inLoop, hinv.total, hinv.before⟩
  · have hwoken : TallyInv { th with pc := .woken } y := by
      apply hinv.goto <;> simp [hasleep, Pc.phase, Pc.dispatching, Pc.inLoop]
    exact ⟨hwoken.once, hwoken.inLoop, hwoken.total, hwoken.before⟩

end TallyInv

/-! ### Steps of the thread itself -/

@[simp] theorem tell_self (f : Tally → Tally) : (h.tell t f).tally t = f (h.tally t) :=
  Function.update_self t _ _

/-- A `run_once` that throws loses what it has counted. -/
theorem leaveRunOnce_thrown (hpc : (h.ctx.threads t).pc = .guardNotify true) :
    h.leaveRunOnce t = h.loseCounts t :=
  if_pos hpc

/-- In `run`, what `run_once` returns is added to the rounds before it. -/
theorem leaveRunOnce_inRun (hpc : (h.ctx.threads t).pc = .guardNotify false)
    (hrun : (h.ctx.threads t).inRun = true) : h.leaveRunOnce t = h.addUp t := by
  rw [leaveRunOnce, if_neg (by simp [hpc]), if_pos hrun]

/-- Outside `run`, the caller gets it. -/
theorem leaveRunOnce_once (hpc : (h.ctx.threads t).pc = .guardNotify false)
    (hrun : (h.ctx.threads t).inRun = false) : h.leaveRunOnce t = h.returnOnce t := by
  rw [leaveRunOnce, if_neg (by simp [hpc]), if_neg (by simp [hrun])]

/-- A move to another position changes only that. -/
theorem goto_threads (s : ContextThread K n) (pc : Pc) :
    (s.goto t pc).threads t = { s.threads t with pc := pc } := by
  rw [ContextThread.goto, ContextThread.mapThread_threads, if_pos rfl]

/-- **Every step of a thread inside `run` and `run_once` keeps its count.** -/
theorem run_tallyInv {a : Act} (hinv : TallyInv (h.ctx.threads t) (h.tally t))
    (hs : ContextThread.RunStep M h.ctx t a ctx) :
    TallyInv (ctx.threads t) ((h.note (.thread t a)).tally t) := by
  -- a thread that moves within its phase counts nothing
  have hgoto : ∀ (s : ContextThread K n) {pc : Pc}, s.threads t = h.ctx.threads t →
      pc.phase = (h.ctx.threads t).pc.phase →
      pc.dispatching = (h.ctx.threads t).pc.dispatching →
      (pc.inLoop = true → (h.ctx.threads t).pc.inLoop = true) →
      (h.ctx.threads t).pc ≠ .out → pc ≠ .out →
      TallyInv ((s.goto t pc).threads t) (h.tally t) := by
    intro s pc hth hphase hdispatching hloop hpc hpc'
    rw [goto_threads, hth]
    exact hinv.goto hphase hdispatching hloop hpc hpc'
  have honce := hinv.once
  unfold Counted at honce
  cases hs with
  | enterRun hpc =>
    rw [hpc] at honce
    rw [ContextThread.mapThread_threads, if_pos rfl]
    refine ⟨honce, fun _ => rfl, fun _ _ => ?_, fun hp => absurd hp (by simp)⟩
    show 0 = (h.tally t).ranBefore.length
    rw [hinv.before (Or.inl hpc)]
    rfl
  | enterRunOnce hpc =>
    rw [hpc] at honce
    rw [ContextThread.mapThread_threads, if_pos rfl]
    refine ⟨honce, fun hp => absurd hp (by simp [Pc.inLoop]), fun _ hp => absurd hp (by simp), ?_⟩
    exact fun _ => hinv.before (Or.inl hpc)
  | loop hpc =>
    refine hgoto _ rfl ?_ ?_ ?_ (by simp [hpc]) (by split <;> simp) <;> rw [hpc]
    · split <;> rfl
    · split <;> rfl
    · exact fun _ => rfl
  | checkScheduler hpc =>
    refine hgoto _ rfl ?_ ?_ ?_ (by simp [hpc]) (by split <;> simp) <;> rw [hpc]
    · split <;> rfl
    · split <;> rfl
    · split <;> simp [Pc.inLoop]
  | testWait hpc | testGo hpc | evaluateTrue hpc | evaluateFalse hpc | sleep hpc | spuriousWake hpc
  | relock hpc | exitWake hpc | readMore hpc | announce hpc | epollReturn hpc | epollFail hpc
  | retire hpc | drained hpc =>
    refine hgoto _ rfl ?_ ?_ ?_ ?_ ?_ <;> simp [hpc, Pc.phase, Pc.dispatching, Pc.inLoop]
  | pollCancel hpc | notifications hpc =>
    refine hgoto _ (Dispatch.enqueue_threads (by simp [hpc])) ?_ ?_ ?_ (by simp [hpc])
      (by split <;> simp) <;> rw [hpc]
    · split <;> rfl
    · split <;> rfl
    · split <;> simp [Pc.inLoop]
  | take hpc hfree =>
    -- nothing of the new batch is counted yet
    rw [hpc] at honce
    have hran : (h.tally t).ran = [] := honce
    rw [ContextThread.mapThread_threads, if_pos rfl]
    simp only [note, tell_self]
    refine hinv.within ⟨?_, ?_, rfl⟩ (by simp [hpc]) ⟨by simp, rfl⟩ ⟨rfl, rfl⟩ rfl
    · show h.ctx.completionQueue = (h.tally t).ran ++ ([] ++ h.ctx.completionQueue)
      rw [hran]
      rfl
    · show 0 = (h.tally t).ran.length
      rw [hran]
      rfl
  | @popFront op rest hpc hbatch =>
    rw [hpc] at honce
    rw [ContextThread.mapThread_threads, if_pos rfl]
    refine hinv.within ⟨?_, honce.2⟩ (by simp [hpc]) ⟨by simp, rfl⟩ ⟨rfl, rfl⟩ rfl
    show (h.tally t).taken = (h.tally t).ran ++ ([op] ++ rest)
    rw [honce.1, hbatch]
    rfl
  | invoke hpc hdeliver =>
    rw [hpc] at honce
    rw [goto_threads]
    exact hinv.within honce (by simp [hpc]) ⟨by simp, rfl⟩ ⟨rfl, rfl⟩ rfl
  | @handlerReturn op hpc =>
    -- the operation goes from the handler to what has run
    rw [hpc] at honce
    rw [ContextThread.mapThread_threads, if_pos rfl]
    simp only [note, tell_self]
    refine hinv.within ⟨?_, ?_, honce.2.2⟩ (by simp [hpc]) ⟨by simp, rfl⟩ ⟨rfl, rfl⟩ rfl
    · show (h.tally t).taken = ((h.tally t).ran ++ (h.ctx.threads t).pc.running)
        ++ ([] ++ (h.ctx.threads t).batch)
      rw [honce.1, hpc, List.append_assoc]
      rfl
    · show (h.ctx.threads t).numProcessedOnce + 1
        = ((h.tally t).ran ++ (h.ctx.threads t).pc.running).length
      rw [honce.2.1, hpc, List.length_append]
      rfl
  | @handlerThrow op hpc =>
    -- the operation that was dispatched is the one that has failed
    rw [hpc] at honce
    rw [goto_threads]
    simp only [note, tell_self]
    refine hinv.within ⟨?_, ?_⟩ (by simp [hpc]) ⟨by simp, rfl⟩ ⟨rfl, rfl⟩ rfl
    · show (h.tally t).taken
        = (h.tally t).ran ++ ((h.ctx.threads t).pc.running ++ (h.ctx.threads t).batch)
      rw [honce.1, hpc]
      rfl
    · show (h.ctx.threads t).pc.running.length ≤ 1
      rw [hpc]
      exact le_refl 1
  | retireThrow hpc =>
    rw [hpc] at honce
    rw [goto_threads]
    refine hinv.within ⟨?_, ?_⟩ (by simp [hpc]) ⟨by simp, rfl⟩ ⟨rfl, rfl⟩ rfl
    · show (h.tally t).taken
        = (h.tally t).ran ++ ((h.tally t).failed ++ (h.ctx.threads t).batch)
      rw [honce.1, honce.2.2]
      rfl
    · show (h.tally t).failed.length ≤ 1
      rw [honce.2.2]
      exact Nat.zero_le 1
  | putBackNone hpc hbatch =>
    rw [goto_threads]
    exact hinv.within trivial (by simp [hpc]) ⟨by simp, rfl⟩ ⟨rfl, rfl⟩ rfl
  | putBack hpc hfree =>
    rw [ContextThread.mapThread_threads, if_pos rfl]
    exact hinv.within trivial (by simp [hpc]) ⟨by simp, rfl⟩ ⟨rfl, rfl⟩ rfl
  | @guardNotify thrown hpc =>
    rw [ContextThread.mapThread_threads, if_pos rfl,
      Dispatch.notifyAll_threads (by simp [hpc])]
    cases thrown with
    | true =>
      rw [note, leaveRunOnce_thrown hpc, loseCounts, tell_self]
      exact ⟨rfl, fun hp => absurd hp (by simp [Pc.inLoop]), fun hp => absurd rfl hp, fun _ => rfl⟩
    | false =>
      rw [hpc] at honce
      cases hrun : (h.ctx.threads t).inRun with
      | true =>
        rw [note, leaveRunOnce_inRun hpc hrun, addUp, tell_self]
        refine ⟨rfl, fun _ => rfl, fun _ _ => ?_, fun hp => absurd hp (by simp)⟩
        have htotal := hinv.total (by simp [hpc]) hrun
        show (h.ctx.threads t).numProcessed + (h.ctx.threads t).numProcessedOnce
          = ((h.tally t).ranBefore ++ (h.tally t).ran).length
        rw [htotal, honce.2.1, List.length_append]
      | false =>
        rw [note, leaveRunOnce_once hpc hrun, returnOnce, tell_self]
        refine ⟨rfl, fun hp => absurd hp (by simp [Pc.inLoop]), fun hp => absurd rfl hp, fun _ => ?_⟩
        exact hinv.before (Or.inr hrun)
  | exitNotify hpc =>
    rw [hpc] at honce
    rw [goto_threads, Dispatch.notifyAll_threads (by simp [hpc]), note, leaveRun, tell_self]
    exact ⟨honce, fun hp => absurd hp (by simp [Pc.inLoop]), fun hp => absurd rfl hp, fun _ => rfl⟩

/-! ### Steps of others -/

/-- A thread that has not moved is undisturbed. -/
theorem Undisturbed.refl (th : Thread) : Undisturbed th th := ⟨Or.inl rfl, rfl, rfl, rfl, rfl⟩

/-- Being woken up does not disturb a thread. -/
theorem Undisturbed.notifyAll {th : Thread} (s : ContextThread K n) {u : Fin n}
    (hth : s.threads u = th) : Undisturbed th (s.notifyAll.threads u) := by
  rw [← hth]
  by_cases hpc : (s.threads u).pc = .asleep
  · have hth : s.notifyAll.threads u = { s.threads u with pc := .woken } := if_pos hpc
    rw [hth]
    exact ⟨Or.inr ⟨hpc, rfl⟩, rfl, rfl, rfl, rfl⟩
  · rw [Dispatch.notifyAll_threads hpc]
    exact .refl _

/-- Nor does an operation that enters the queue. -/
theorem Undisturbed.enqueue {th : Thread} (s : ContextThread K n) (ops : List AsyncIoOperation)
    {u : Fin n} (hth : s.threads u = th) : Undisturbed th ((s.enqueue ops).threads u) := by
  unfold ContextThread.enqueue
  split
  · rw [hth]
    exact .refl _
  · exact .notifyAll _ hth

/-- A call changes nothing but the rest of the call. -/
theorem Undisturbed.setCall {th : Thread} {s : ContextThread K n} {u : Fin n}
    (hth : Undisturbed th (s.threads u)) (call : Call) :
    Undisturbed th ((s.setCall t call).threads u) := by
  rw [ContextThread.setCall, ContextThread.mapThread_threads]
  split
  · exact ⟨hth.pc, hth.inRun, hth.batch, hth.numProcessedOnce, hth.numProcessed⟩
  · exact hth

/-- A step inside `run` or `run_once` leaves the other threads alone. -/
theorem run_undisturbed {a : Act} (hs : ContextThread.RunStep M h.ctx t a ctx) {u : Fin n}
    (hu : u ≠ t) : Undisturbed (h.ctx.threads u) (ctx.threads u) := by
  have hmap : ∀ (s : ContextThread K n) (f : Thread → Thread),
      Undisturbed (h.ctx.threads u) (s.threads u) →
      Undisturbed (h.ctx.threads u) ((s.mapThread t f).threads u) := by
    intro s f hth
    rw [ContextThread.mapThread_threads, if_neg hu]
    exact hth
  cases hs with
  | pollCancel | notifications => exact hmap _ _ (.enqueue _ _ rfl)
  | guardNotify | exitNotify => exact hmap _ _ (.notifyAll _ rfl)
  | _ => exact hmap _ _ (.refl _)

/-- A call disturbs no thread, its own included: it is made from user code. -/
theorem call_undisturbed {a : Act} (hs : ContextThread.CallStep M h.ctx t a ctx) (u : Fin n) :
    Undisturbed (h.ctx.threads u) (ctx.threads u) := by
  cases hs with
  | cancelNothing | latchWork => exact .refl _
  | post | schedule | cancel | releaseWork => exact Undisturbed.setCall (.refl _) _

/-- Nor do the rest of a call's steps. -/
theorem rest_undisturbed {a : Act} (hs : ContextThread.CallRest h.ctx t a ctx) (u : Fin n) :
    Undisturbed (h.ctx.threads u) (ctx.threads u) := by
  cases hs with
  | postWake | cancelWake | releaseWake => exact Undisturbed.setCall (.refl _) _
  | postNotify | scheduleNotify | cancelNotify | releaseNotify =>
    exact Undisturbed.setCall (.notifyAll _ rfl) _

/-- A thread's step tells nothing about the counts of the others. -/
theorem note_tally_ne {a : Act} {u : Fin n} (hu : u ≠ t) :
    (h.note (.thread t a)).tally u = h.tally u := by
  cases a with
  | take | handlerReturn | handlerThrow | exitNotify => exact Function.update_of_ne hu _ _
  | guardNotify =>
    rw [note, leaveRunOnce]
    split
    · exact Function.update_of_ne hu _ _
    · split <;> exact Function.update_of_ne hu _ _
  | _ => rfl

/-- Calls are not counted. -/
theorem note_call {a : Act} (hs : ContextThread.CallStep M h.ctx t a ctx) :
    h.note (.thread t a) = h := by
  cases hs <;> rfl

/-- The rest of a call has no part in the counts. -/
theorem note_rest {a : Act} (hs : ContextThread.CallRest h.ctx t a ctx) :
    h.note (.thread t a) = h := by
  cases hs <;> rfl

/-- **Every step keeps every thread's count.** -/
theorem step_tallyInv {l : Label K n} (hinv : ∀ u, TallyInv (h.ctx.threads u) (h.tally u))
    (hs : ContextThread.Step M h.ctx l ctx) (u : Fin n) :
    TallyInv (ctx.threads u) ((h.record l ctx).tally u) := by
  show TallyInv (ctx.threads u) ((h.note l).tally u)
  cases hs with
  | @run t a _ hlive hcall hs =>
    -- the record changes the tally of the thread that made the step, and of no other
    by_cases hu : u = t
    · rw [hu]
      exact run_tallyInv (hinv t) hs
    · rw [note_tally_ne hu]
      exact (hinv u).undisturbed (run_undisturbed hs hu)
  | call hlive hcall huser hs =>
    rw [note_call hs]
    exact (hinv u).undisturbed (call_undisturbed hs u)
  | rest hlive hs =>
    rw [note_rest hs]
    exact (hinv u).undisturbed (rest_undisturbed hs u)
  | destroy | kernel | forget => exact hinv u

/-! ### Who answers for an operation -/

/-- An undisturbed thread is in the handler that it was in. -/
theorem Undisturbed.running {th th' : Thread} (hth : Undisturbed th th') :
    th'.pc.running = th.pc.running := by
  rcases hth.pc with hpc | ⟨hasleep, hwoken⟩
  · rw [hpc]
  · rw [hasleep, hwoken]
    rfl

/-- A note that moves nothing between the shares. -/
structure Agrees (h h' : Counts K n) : Prop where
  ran : ∀ u, (h'.tally u).ran = (h.tally u).ran
  ranBefore : ∀ u, (h'.tally u).ranBefore = (h.tally u).ranBefore
  returned : h'.returned = h.returned
  lost : h'.lost = h.lost
  threw : h'.threw = h.threw

/-- A note that changes nothing moves nothing. -/
theorem Agrees.refl (h : Counts K n) : Agrees h h := ⟨fun _ => rfl, fun _ => rfl, rfl, rfl, rfl⟩

theorem share_held {l : Label K n} {u : Fin n} :
    (h.record l ctx).share (.held u) = ((h.note l).tally u).ranBefore ++
      (((h.note l).tally u).ran ++ (ctx.threads u).pc.running) := rfl

/-- What is not in a thread's hands is decided by the record alone. -/
theorem share_of_note {l : Label K n} (p : Share n) (hp : ∀ u, p ≠ .held u) :
    (h.record l ctx).share p = (h.note l).share p := by
  cases p with
  | held u => exact absurd rfl (hp u)
  | returned | lost | threw => rfl

/-- A step in which everyone goes on running what they run. -/
theorem share_quiet {l : Label K n} (hp : Placed h.ctx.invoked h.share)
    (hnote : Agrees h (h.note l)) (hinvoked : ctx.invoked = h.ctx.invoked)
    (hrunning : ∀ u, (ctx.threads u).pc.running = (h.ctx.threads u).pc.running) :
    Placed ctx.invoked (h.record l ctx).share := by
  rw [hinvoked]
  refine hp.congr (fun p => ?_)
  have hsame : (h.record l ctx).share p = h.share p := by
    cases p with
    | returned => exact congrArg (List.flatMap Prod.snd) hnote.returned
    | lost => exact hnote.lost
    | threw => exact hnote.threw
    | held u =>
      rw [share_held, hnote.ran, hnote.ranBefore, hrunning]
      rfl
  rw [hsame]

/-- The share of another thread. -/
theorem share_held_ne {a : Act} (hs : ContextThread.RunStep M h.ctx t a ctx) {u : Fin n}
    (hu : u ≠ t) : (h.record (.thread t a) ctx).share (.held u) = h.share (.held u) := by
  rw [share_held, note_tally_ne hu, (run_undisturbed hs hu).running]
  rfl

/-- The share of the thread `t` stays the same, whatever it was doing. -/
theorem share_held_kept {a : Act} (hs : ContextThread.RunStep M h.ctx t a ctx)
    (hp : Placed h.ctx.invoked h.share) (hinvoked : ctx.invoked = h.ctx.invoked)
    (hself : (h.record (.thread t a) ctx).share (.held t) = h.share (.held t))
    (hother : ∀ r, (∀ u, r ≠ .held u) → (h.record (.thread t a) ctx).share r = h.share r) :
    Placed ctx.invoked (h.record (.thread t a) ctx).share := by
  rw [hinvoked]
  refine hp.congr (fun p => ?_)
  have hsame : (h.record (.thread t a) ctx).share p = h.share p := by
    cases p with
    | held u =>
      by_cases hu : u = t
      · rw [hu]
        exact hself
      · exact share_held_ne hs hu
    | returned | lost | threw => exact hother _ (by simp)
  rw [hsame]

/-- The thread `t` hands over its share. -/
theorem share_moved {a : Act} (hs : ContextThread.RunStep M h.ctx t a ctx) {q : Share n}
    (hp : Placed h.ctx.invoked h.share) (hq : ∀ u, q ≠ .held u)
    (hinvoked : ctx.invoked = h.ctx.invoked)
    (hperm : ((h.record (.thread t a) ctx).share (.held t) ++
        (h.record (.thread t a) ctx).share q).Perm
      (h.share (.held t) ++ h.share q))
    (hother : ∀ r, r ≠ q → (∀ u, r ≠ .held u) →
      (h.record (.thread t a) ctx).share r = h.share r) :
    Placed ctx.invoked (h.record (.thread t a) ctx).share := by
  rw [hinvoked]
  refine hp.move (hq t).symm hperm ?_
  intro r hr hrq
  cases r with
  | held u => exact share_held_ne hs (fun hu => hr (by rw [hu]))
  | returned | lost | threw => exact hother _ hrq (by simp)

/-- **A step of a thread: what it held is handed over, or it starts a handler.** -/
theorem run_share (hplace : h.ctx.PlaceInv) (hinv : TallyInv (h.ctx.threads t) (h.tally t))
    (hp : Placed h.ctx.invoked h.share) {a : Act} (hs : ContextThread.RunStep M h.ctx t a ctx) :
    Placed ctx.invoked (h.record (.thread t a) ctx).share := by
  -- a thread that neither starts nor ends a handler
  have hquiet : Agrees h (h.note (.thread t a)) → ctx.invoked = h.ctx.invoked →
      (ctx.threads t).pc.running = (h.ctx.threads t).pc.running →
      Placed ctx.invoked (h.record (.thread t a) ctx).share := by
    intro hnote hinvoked hrunning
    refine share_quiet hp hnote hinvoked (fun u => ?_)
    by_cases hu : u = t
    · rw [hu, hrunning]
    · exact (run_undisturbed hs hu).running
  have honce := hinv.once
  unfold Counted at honce
  have hs' := hs
  cases hs with
  | enterRun hpc | enterRunOnce hpc | putBack hpc =>
    refine hquiet (.refl h) rfl ?_
    rw [ContextThread.mapThread_threads, if_pos rfl, hpc]
    rfl
  | loop hpc | checkScheduler hpc =>
    refine hquiet (.refl h) rfl ?_
    rw [goto_threads, hpc]
    split <;> rfl
  | testWait hpc | testGo hpc | evaluateTrue hpc | evaluateFalse hpc | sleep hpc | spuriousWake hpc
  | relock hpc | exitWake hpc | readMore hpc | announce hpc | epollReturn hpc
  | retire hpc | drained hpc | retireThrow hpc | putBackNone hpc =>
    refine hquiet (.refl h) rfl ?_
    rw [goto_threads, hpc]
    rfl
  | epollFail hpc =>
    refine hquiet ⟨fun _ => rfl, fun _ => rfl, rfl, rfl, rfl⟩ rfl ?_
    rw [goto_threads, hpc]
    rfl
  | pollCancel hpc | notifications hpc =>
    refine hquiet (.refl h) ?_ ?_
    · exact congrArg (List.filterMap Consumption.invoked?) (ContextThread.enqueue_log _ _)
    · rw [goto_threads, hpc]
      split <;> rfl
  | take hpc hfree =>
    refine share_held_kept hs' hp rfl ?_ (fun r hr => ?_)
    · rw [share_held, ContextThread.mapThread_threads, if_pos rfl, note, tell_self, share, hpc]
      rfl
    · cases r with
      | held u => exact absurd rfl (hr u)
      | returned | lost | threw => rfl
  | @popFront op rest hpc hbatch =>
    refine hquiet (.refl h) ?_ ?_
    · exact (ContextThread.invoked_append h.ctx [.released op]).trans (List.append_nil _)
    · rw [ContextThread.mapThread_threads, if_pos rfl, hpc]
      rfl
  | @invoke op result hpc hdeliver =>
    have hinvoked : (({ h.ctx with log := h.ctx.log ++ [Consumption.invoked op result] }).goto t
        (.handler op)).invoked = h.ctx.invoked ++ [op] :=
      ContextThread.invoked_append h.ctx [.invoked op result]
    rw [hinvoked]
    refine hp.add (p := .held t) (hplace.invoking t op hpc).2 ?_ ?_
    · rw [share_held, goto_threads, share, hpc]
      simp only [note, Pc.running, List.append_nil, ← List.append_assoc]
      exact List.perm_append_singleton _ _
    · intro r hr
      cases r with
      | held u => exact share_held_ne hs' (fun hu => hr (by rw [hu]))
      | returned | lost | threw => rfl
  | @handlerReturn op hpc =>
    -- the operation stays with the thread
    refine share_held_kept hs' hp rfl ?_ (fun r hr => ?_)
    · rw [share_held, ContextThread.mapThread_threads, if_pos rfl, note, tell_self, share, hpc]
      simp only [Pc.running, List.append_nil]
    · cases r with
      | held u => exact absurd rfl (hr u)
      | returned | lost | threw => rfl
  | @handlerThrow op hpc =>
    refine share_moved hs' hp (q := .threw) (by simp) rfl ?_ ?_
    · rw [share_held, goto_threads, share_of_note .threw (by simp), note, tell_self]
      show List.Perm (((h.tally t).ranBefore ++ ((h.tally t).ran ++ []))
          ++ (h.threw ++ (h.ctx.threads t).pc.running))
        (((h.tally t).ranBefore ++ ((h.tally t).ran ++ (h.ctx.threads t).pc.running)) ++ h.threw)
      rw [List.append_nil, ← List.append_assoc (h.tally t).ranBefore, List.append_assoc _ _ h.threw]
      exact List.perm_append_comm.append_left _
    · intro r hr hheld
      cases r with
      | held u => exact absurd rfl (hheld u)
      | threw => exact absurd rfl hr
      | returned | lost => rfl
  | @guardNotify thrown hpc =>
    have hth : ((h.ctx.notifyAll.mapThread t (fun th => { th with
        pc := if thrown = false ∧ th.inRun = true then .runLoop else .out
        numProcessed :=
          if thrown then th.numProcessed else th.numProcessed + th.numProcessedOnce })).threads
        t).pc.running = [] := by
      rw [ContextThread.mapThread_threads, if_pos rfl]
      dsimp only
      split <;> rfl
    have hheld : h.share (.held t) = (h.tally t).ranBefore ++ (h.tally t).ran := by
      rw [share, hpc]
      exact congrArg _ (List.append_nil _)
    cases thrown with
    | true =>
      have hnote : h.note (.thread t .guardNotify) = h.loseCounts t := leaveRunOnce_thrown hpc
      refine share_moved hs' hp (q := .lost) (by simp) rfl ?_ ?_
      · rw [share_held, hth, hheld, share_of_note .lost (by simp), hnote, loseCounts, tell_self]
        show List.Perm (h.lost ++ ((h.tally t).ranBefore ++ (h.tally t).ran))
          (((h.tally t).ranBefore ++ (h.tally t).ran) ++ h.lost)
        exact List.perm_append_comm
      · intro r hr hr'
        rw [share_of_note r hr', hnote]
        cases r with
        | held u => exact absurd rfl (hr' u)
        | lost => exact absurd rfl hr
        | returned | threw => rfl
    | false =>
      cases hrun : (h.ctx.threads t).inRun with
      | true =>
        have hnote : h.note (.thread t .guardNotify) = h.addUp t := leaveRunOnce_inRun hpc hrun
        refine share_held_kept hs' hp rfl ?_ (fun r hr => ?_)
        · rw [share_held, hth, hheld, hnote, addUp, tell_self]
          exact List.append_nil _
        · rw [share_of_note r hr, hnote]
          cases r with
          | held u => exact absurd rfl (hr u)
          | returned | lost | threw => rfl
      | false =>
        have hnote : h.note (.thread t .guardNotify) = h.returnOnce t := leaveRunOnce_once hpc hrun
        -- `run` was not called, so it holds nothing
        have hbefore := hinv.before (Or.inr hrun)
        refine share_moved hs' hp (q := .returned) (by simp) rfl ?_ ?_
        · rw [share_held, hth, hheld, share_of_note .returned (by simp), hnote, returnOnce,
            tell_self, hbefore]
          simp only [share, List.flatMap_append, List.flatMap_singleton, List.nil_append]
          exact List.perm_append_comm
        · intro r hr hr'
          rw [share_of_note r hr', hnote]
          cases r with
          | held u => exact absurd rfl (hr' u)
          | returned => exact absurd rfl hr
          | lost | threw => rfl
  | exitNotify hpc =>
    rw [hpc] at honce
    have hran : (h.tally t).ran = [] := honce
    refine share_moved hs' hp (q := .returned) (by simp) rfl ?_ ?_
    · rw [share_held, goto_threads, share_of_note .returned (by simp), note, leaveRun, tell_self,
        hran, show h.share (.held t) = (h.tally t).ranBefore ++ ((h.tally t).ran ++
          (h.ctx.threads t).pc.running) from rfl, hran, hpc]
      simp only [share, List.flatMap_append, List.flatMap_singleton, List.nil_append, Pc.running,
        List.append_nil]
      exact List.perm_append_comm
    · intro r hr hr'
      rw [share_of_note r hr']
      cases r with
      | held u => exact absurd rfl (hr' u)
      | returned => exact absurd rfl hr
      | lost | threw => rfl

/-- **Every step keeps the shares apart.** -/
theorem step_share (hplace : h.ctx.PlaceInv) (hinv : ∀ u, TallyInv (h.ctx.threads u) (h.tally u))
    (hp : Placed h.ctx.invoked h.share) {l : Label K n} (hs : ContextThread.Step M h.ctx l ctx) :
    Placed ctx.invoked (h.record l ctx).share := by
  cases hs with
  | run hlive hcall hs => exact run_share hplace (hinv _) hp hs
  | call hlive hcall huser hs =>
    refine share_quiet hp (by rw [note_call hs]; exact .refl h) ?_
      (fun u => (call_undisturbed hs u).running)
    cases hs <;> rfl
  | rest hlive hs =>
    refine share_quiet hp (by rw [note_rest hs]; exact .refl h) ?_
      (fun u => (rest_undisturbed hs u).running)
    cases hs <;> rfl
  | destroy => exact share_quiet hp (.refl h) (ContextThread.destroy_invoked _) (fun _ => rfl)
  | kernel | forget => exact share_quiet hp (.refl h) rfl (fun _ => rfl)

/-! ### Exceptions -/

/-- Counts get lost through a handler that throws or an `epoll_pwait` that fails. -/
structure Blamed (h : Counts K n) : Prop where
  throws : ∀ u, (h.ctx.threads u).pc.throws = true → h.threw ≠ [] ∨ 0 < h.failures
  lost : h.lost ≠ [] → h.threw ≠ [] ∨ 0 < h.failures

/-- An undisturbed thread is as much on its way out by an exception as before. -/
theorem Undisturbed.throws {th th' : Thread} (hth : Undisturbed th th') :
    th'.pc.throws = th.pc.throws := by
  rcases hth.pc with hpc | ⟨hasleep, hwoken⟩
  · rw [hpc]
  · rw [hasleep, hwoken]
    rfl

/-- A step of a thread in which no exception starts. -/
theorem Blamed.quiet (hb : Blamed h) {a : Act} (hs : ContextThread.RunStep M h.ctx t a ctx)
    (hcauses : (h.note (.thread t a)).threw = h.threw ∧
      (h.note (.thread t a)).failures = h.failures)
    (hlost : (h.note (.thread t a)).lost ≠ [] →
      h.lost ≠ [] ∨ (h.ctx.threads t).pc.throws = true)
    (hthrows : (ctx.threads t).pc.throws = true → (h.ctx.threads t).pc.throws = true) :
    Blamed (h.record (.thread t a) ctx) := by
  refine ⟨fun u hu => ?_, fun hl => ?_⟩
  · show (h.note (.thread t a)).threw ≠ [] ∨ 0 < (h.note (.thread t a)).failures
    rw [hcauses.1, hcauses.2]
    -- another thread's way out is as it was
    apply hb.throws u
    by_cases hut : u = t
    · rw [hut] at hu ⊢
      exact hthrows hu
    · rw [← (run_undisturbed hs hut).throws]
      exact hu
  · show (h.note (.thread t a)).threw ≠ [] ∨ 0 < (h.note (.thread t a)).failures
    rw [hcauses.1, hcauses.2]
    rcases hlost hl with hlost | hthrow
    · exact hb.lost hlost
    · exact hb.throws t hthrow

/-- Whatever a step of a runner loses, an exception is to blame. -/
theorem run_blamed (hb : Blamed h) {a : Act} (hs : ContextThread.RunStep M h.ctx t a ctx) :
    Blamed (h.record (.thread t a) ctx) := by
  have hs' := hs
  cases hs with
  | @handlerThrow op hpc =>
    -- this very throw is to blame
    have hcause : h.threw ++ (h.ctx.threads t).pc.running ≠ [] := by simp [hpc, Pc.running]
    exact ⟨fun _ _ => Or.inl hcause, fun _ => Or.inl hcause⟩
  | epollFail hpc => exact ⟨fun _ _ => Or.inr (Nat.succ_pos _), fun _ => Or.inr (Nat.succ_pos _)⟩
  | enterRun hpc | enterRunOnce hpc | popFront hpc | take hpc | handlerReturn hpc =>
    refine hb.quiet hs' ⟨rfl, rfl⟩ Or.inl ?_
    rw [ContextThread.mapThread_threads, if_pos rfl]
    exact fun hthrow => absurd hthrow (by simp [Pc.throws])
  -- these positions come before any throw of the round
  | loop hpc | checkScheduler hpc | pollCancel hpc | notifications hpc =>
    refine hb.quiet hs' ⟨rfl, rfl⟩ Or.inl ?_
    rw [goto_threads]
    dsimp only
    split <;> exact fun hthrow => absurd hthrow (by simp [Pc.throws])
  | testWait hpc | testGo hpc | evaluateTrue hpc | evaluateFalse hpc | sleep hpc | spuriousWake hpc
  | relock hpc | exitWake hpc | readMore hpc | announce hpc | epollReturn hpc
  | retire hpc | drained hpc | invoke hpc =>
    refine hb.quiet hs' ⟨rfl, rfl⟩ Or.inl ?_
    rw [goto_threads]
    exact fun hthrow => absurd hthrow (by simp [Pc.throws])
  | retireThrow hpc | putBackNone hpc =>
    refine hb.quiet hs' ⟨rfl, rfl⟩ Or.inl (fun _ => ?_)
    rw [hpc]
    rfl
  -- an exception is on its way already
  | putBack hpc =>
    refine hb.quiet hs' ⟨rfl, rfl⟩ Or.inl (fun _ => ?_)
    rw [hpc]
    rfl
  | @guardNotify thrown hpc =>
    refine hb.quiet hs' ?_ ?_ ?_
    · rw [note, leaveRunOnce]
      split
      · exact ⟨rfl, rfl⟩
      · split <;> exact ⟨rfl, rfl⟩
    · rw [note, leaveRunOnce]
      -- only a throw loses what was counted
      split
      · rename_i hthrown
        exact fun _ => Or.inr (by rw [hthrown]; rfl)
      · split <;> exact Or.inl
    · rw [ContextThread.mapThread_threads, if_pos rfl]
      dsimp only
      split <;> exact fun hthrow => absurd hthrow (by simp [Pc.throws])
  | exitNotify hpc =>
    refine hb.quiet hs' ⟨rfl, rfl⟩ Or.inl ?_
    rw [goto_threads]
    exact fun hthrow => absurd hthrow (by simp [Pc.throws])

/-- **The step lemma** for what is lost. -/
theorem step_blamed (hb : Blamed h) {l : Label K n} (hs : ContextThread.Step M h.ctx l ctx) :
    Blamed (h.record l ctx) := by
  cases hs with
  | run hlive hcall hs => exact run_blamed hb hs
  | @call t a _ hlive hcall huser hs =>
    rw [record, note_call hs]
    exact ⟨fun u hu => hb.throws u ((call_undisturbed hs u).throws.symm.trans hu), hb.lost⟩
  | @rest t a _ hlive hs =>
    rw [record, note_rest hs]
    exact ⟨fun u hu => hb.throws u ((rest_undisturbed hs u).throws.symm.trans hu), hb.lost⟩
  | destroy | kernel | forget => exact ⟨hb.throws, hb.lost⟩

/-! ### Return values -/

/-- **Every value returned is the number of operations it stands for.** -/
theorem step_returned (hinv : ∀ u, TallyInv (h.ctx.threads u) (h.tally u))
    (hret : ∀ r ∈ h.returned, r.1 = r.2.length) {l : Label K n}
    (hs : ContextThread.Step M h.ctx l ctx) : ∀ r ∈ (h.record l ctx).returned, r.1 = r.2.length := by
  -- a value that is returned now
  have hnew : ∀ v : Nat × List AnyAsyncOperation, v.1 = v.2.length →
      ∀ r ∈ h.returned ++ [v], r.1 = r.2.length := by
    intro v hv r hr
    rcases List.mem_append.mp hr with hr | hr
    · exact hret r hr
    · rw [List.mem_singleton.mp hr]
      exact hv
  cases hs with
  | @run t a _ hlive hcall hs =>
    have honce := (hinv t).once
    unfold Counted at honce
    cases hs with
    | @guardNotify thrown hpc =>
      show ∀ r ∈ (h.leaveRunOnce t).returned, r.1 = r.2.length
      cases thrown with
      | true =>
        rw [leaveRunOnce_thrown hpc]
        exact hret
      | false =>
        cases hrun : (h.ctx.threads t).inRun with
        | true =>
          rw [leaveRunOnce_inRun hpc hrun]
          exact hret
        | false =>
          rw [hpc] at honce
          rw [leaveRunOnce_once hpc hrun]
          exact hnew _ honce.2.1
    | exitNotify hpc =>
      exact hnew _ ((hinv t).total (by simp [hpc]) ((hinv t).inLoop (by rw [hpc]; rfl)))
    | _ => exact hret
  | @call t a _ hlive hcall huser hs =>
    rw [record, note_call hs]
    exact hret
  | @rest t a _ hlive hs =>
    rw [record, note_rest hs]
    exact hret
  | destroy | kernel | forget => exact hret

/-! ### Runs -/

/-- What a thread has recorded as failed is among the operations that threw, and stays there. -/
theorem note_failed (l : Label K n) (hf : ∀ u, ∀ op ∈ (h.tally u).failed, op ∈ h.threw) :
    ∀ u, ∀ op ∈ ((h.note l).tally u).failed, op ∈ (h.note l).threw := by
  -- an update of a thread's count that keeps what has failed
  have hkeep : ∀ (t : Fin n) (f : Tally → Tally), (∀ y, (f y).failed = y.failed) →
      ∀ u, ∀ op ∈ ((h.tell t f).tally u).failed, op ∈ h.threw := by
    intro t f hfailed u op hop
    by_cases hu : u = t
    · rw [hu, tell_self, hfailed] at hop
      exact hf t op hop
    · rw [show (h.tell t f).tally u = h.tally u from Function.update_of_ne hu _ _] at hop
      exact hf u op hop
  cases l with
  | thread t a =>
    cases a with
    | take =>
      intro u op hop
      by_cases hu : u = t
      · rw [hu, note, tell_self] at hop
        exact absurd hop (by simp)
      · rw [note_tally_ne hu] at hop
        exact hf u op hop
    | handlerThrow =>
      intro u op hop
      by_cases hu : u = t
      · subst hu
        rw [note] at hop ⊢
        exact List.mem_append_right _ (by simpa using hop)
      · rw [note_tally_ne hu] at hop
        exact List.mem_append_left _ (hf u op hop)
    | handlerReturn =>
      rw [note]
      exact hkeep t _ (fun _ => rfl)
    | exitNotify => exact hkeep t (fun y => { y with ranBefore := [] }) (fun _ => rfl)
    | guardNotify =>
      rw [note, leaveRunOnce]
      split
      · exact hkeep t (fun y => { y with ran := [], ranBefore := [] }) (fun _ => rfl)
      · split
        · rw [addUp]
          exact hkeep t _ (fun _ => rfl)
        · exact hkeep t (fun y => { y with ran := [] }) (fun _ => rfl)
    | _ => exact hf
  | destroy | kernel | forget => exact hf

/-- The invariant of the history. -/
structure CountInv (h : Counts K n) : Prop where
  result : h.ctx.ResultInv
  place : h.ctx.PlaceInv
  tally : ∀ u, TallyInv (h.ctx.threads u) (h.tally u)
  failed : ∀ u, ∀ op ∈ (h.tally u).failed, op ∈ h.threw
  share : Placed h.ctx.invoked h.share
  blamed : Blamed h
  returned : ∀ r ∈ h.returned, r.1 = r.2.length

/-- Before anything is taken, nothing is counted. -/
theorem init_countInv (hi : Init h) : CountInv h := by
  obtain ⟨hctx, hh⟩ := hi
  have hres := ContextThread.init_resultInv hctx
  have hplace := ContextThread.init_placeInv hctx
  rw [hctx.2] at hres hplace
  rw [hh, hctx.2]
  exact
    { result := hres
      place := hplace
      tally := fun _ => ⟨rfl, fun hp => absurd hp (by simp [Pc.inLoop, ContextThread.idle]),
        fun hp => absurd rfl hp, fun _ => rfl⟩
      failed := fun _ _ hop => absurd hop (by simp)
      share := .empty (fun p => by cases p <;> rfl)
      blamed := ⟨fun _ hp => absurd hp (by simp [Pc.throws, ContextThread.idle]),
        fun hp => absurd rfl hp⟩
      returned := by simp }

/-- **The run lemma**: the counts are right in every run. -/
theorem reach_countInv (hr : Reach M h) : CountInv h := by
  refine Transition.Reach.invariant CountInv (fun _ => init_countInv) ?_ hr
  rintro h l h' hinv - hs
  obtain ⟨ctx, hctx, rfl⟩ := Option.map_eq_some_iff.mp hs
  have hs' := ContextThread.next_cases hctx
  exact
    { result := ContextThread.step_resultInv hinv.result hs'
      place := ContextThread.step_placeInv hinv.result hinv.place hs'
      tally := step_tallyInv hinv.tally hs'
      failed := note_failed l hinv.failed
      share := step_share hinv.place hinv.tally hinv.share hs'
      blamed := step_blamed hinv.blamed hs'
      returned := step_returned hinv.tally hinv.returned hs' }

/-- The constructed context, with nothing counted. -/
def quiet (n : Nat) : Counts Unit n :=
  ⟨ContextThread.quietContext n, fun _ => ⟨[], [], [], []⟩, [], [], [], 0⟩

theorem quiet_init (n : Nat) : Init (quiet n) := ⟨ContextThread.quietContext_init n, rfl⟩

/-- The thread `t` runs while two completions are waiting, the second of which posts a third; the
    thread `u` has latched work. -/
def runBatch {n : Nat} (t u : Fin n) : List (Label Unit n) :=
  [.latchWork, .post 1, .callWake, .callNotify, .post 2, .callWake, .callNotify].map (Label.thread u)
    ++ [.enterRun, .loop, .test, .take, .drain, .invoke, .handlerReturn, .drain, .invoke,
      .post 3, .callWake, .callNotify, .handlerReturn, .drain, .readMore,
      .checkScheduler].map (Label.thread t)

/-- **Return values account for all handlers.**  In every run, with any number of threads in `run`
    and `run_once` and handlers that throw: every value that `run` or `run_once` returned is the
    number of the operations it stands for; every operation whose handler was invoked is counted
    in one return value and once there, or was counted when an exception left `run`, or threw, or
    is in the hands of one thread; so when no thread is inside, the values add up to the number of
    handlers invoked, less the lost and those that threw; and without a throw or a failing
    `epoll_pwait` nothing is lost. -/
theorem counts_accounted (hr : Reach M h) :
    (∀ r ∈ h.returned, r.1 = r.2.length) ∧
    (h.returned.flatMap Prod.snd).Nodup ∧
    (∀ op ∈ h.ctx.invoked, ∃! p, op ∈ h.share p) ∧
    ((∀ t, (h.ctx.threads t).pc = .out) →
      (h.returned.map Prod.fst).sum + h.lost.length + h.threw.length = h.ctx.invoked.length) ∧
    (h.threw = [] → h.failures = 0 → h.lost = []) := by
  have hinv := reach_countInv hr
  refine ⟨hinv.returned, hinv.share.nodup .returned, fun op hop => hinv.share.existsUnique hop,
    fun hout => ?_, ?_⟩
  · -- a thread outside holds nothing
    have hheld : ∀ u, h.share (.held u) = [] := by
      intro u
      have honce := (hinv.tally u).once
      unfold Counted at honce
      rw [hout u] at honce
      have hran : (h.tally u).ran = [] := honce
      rw [share, (hinv.tally u).before (Or.inl (hout u)), hran, hout u]
      rfl
    have hperm : h.ctx.invoked.Perm ([Share.returned, .lost, .threw].flatMap h.share) := by
      apply hinv.share.perm_flatMap hinv.place.invoked_nodup (by simp)
      intro p hp
      cases p with
      | held u => exact hheld u
      | returned | lost | threw => exact absurd hp (by simp)
    have hcounts : (h.returned.flatMap Prod.snd).length = (h.returned.map Prod.fst).sum := by
      rw [List.length_flatMap]
      exact congrArg List.sum (List.map_congr_left (fun r hr => (hinv.returned r hr).symm))
    have hlength := hperm.length_eq
    simp only [List.flatMap_cons, List.flatMap_nil, List.append_nil, List.length_append] at hlength
    rw [hlength, ← hcounts, Nat.add_assoc]
    rfl
  · intro hthrew hfailures
    by_contra hlost
    rcases hinv.blamed.lost hlost with hne | hpos
    · exact hne hthrew
    · omega

/-- Then the other thread takes the third completion, whose handler throws, and releases its work:
    `run` returns 2 for the three handlers invoked. -/
theorem counts_accounted_thrown :
    ∃ h : Counts Unit 2, h.returned = [(2, [.plain 1, .plain 2])] ∧ h.threw = [.plain 3] ∧
      (h.returned.map Prod.fst).sum + h.lost.length + h.threw.length = h.ctx.invoked.length := by
  have hrun : ∃ h, Reach quietKernel h ∧ decide ((∀ t, (h.ctx.threads t).pc = .out) ∧
      h.returned = [(2, [.plain 1, .plain 2])] ∧ h.threw = [.plain 3]) = true :=
    Transition.exists_reach (quiet_init 2) (runBatch 0 1
      ++ [.enterRunOnce, .take, .drain, .invoke, .handlerThrow, .putBack, .guardNotify,
        .releaseWork, .callWake, .callNotify].map (Label.thread 1)
      ++ [.guardNotify, .loop, .exitWake, .exitNotify].map (Label.thread 0)) _ (by decide)
  obtain ⟨h, hh, hend⟩ := hrun
  obtain ⟨hout, hreturned, hthrew⟩ := of_decide_eq_true hend
  exact ⟨h, hreturned, hthrew, (counts_accounted hh).2.2.2.1 hout⟩

end Counts

end Exios
