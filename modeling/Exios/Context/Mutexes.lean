import Exios.Base.Locks
import Exios.Context.Steps

namespace Exios

open Locks (Code Choice held wants pauses)

/-!
# Context — the two mutexes

What the functions of `ContextThread` and `IoScheduler` do under `ContextThread::data_mutex_` and
`IoScheduler::data_mutex_`, statement by statement: the calls of `post` inside the sections of
`poll_once`, handlers that call anything again, exceptions that leave `run_once` through its scope
guards.  The data is left out: a test may have both outcomes, and a loop any number of rounds.

* `body` — the code of the functions, `discipline` — how it uses the mutexes, `checked` — it does;
* `mutexes_released` — who holds a mutex, what is never done under it, and for how long it is held;
* `no_deadlock` — who waits for a mutex waits for a thread that can go on.
-/

namespace Sections

inductive Mutex
  /-- `IoScheduler::data_mutex_`. -/
  | scheduler
  /-- `ContextThread::data_mutex_`. -/
  | context
deriving DecidableEq

/-- The functions that take a mutex, call one that does, or run user code. -/
inductive Func
  | post
  | latchWork
  | releaseWork
  | schedule
  | cancel
  | run
  | runOnce
  | pollOnce
  /-- A completion handler. -/
  | handler
deriving DecidableEq

/-- The statements, by what they do. -/
inductive Stmt
  | pushBack
  | erase
  | insert
  /-- One element that `splice` moves. -/
  | spliceItem
  /-- One step of a search in a list. -/
  | advance
  /-- `item.cancel()`. -/
  | cancelItem
  /-- An atomic counter is changed. -/
  | count
  /-- A contract check. -/
  | expect
  /-- The condition of a test, where it is not the branch itself. -/
  | evaluate
  /-- `wake_event_.trigger(threads_waiting)`. -/
  | trigger
  /-- `wake_event.reset()`. -/
  | reset
  /-- `cvar_.notify_all()`. -/
  | notifyAll
  /-- Asleep on `cvar_`. -/
  | sleep
  | epollCtl
  | epollPwait
  | performIo
  /-- `dispatch` releases the operation's storage. -/
  | release
  /-- Other code of a thread, or of a handler. -/
  | user
  /-- Nothing: the other branch of a test. -/
  | skip
deriving DecidableEq

/-- The code of the repository. -/
abbrev Text := Code Mutex Func Stmt

open Locks.Code (block)

/-! ### The code -/

/-- `ContextThread::post`. -/
def post : Text :=
  .locked .context (block (.act .pushBack) [.act .expect, .act .trigger, .act .notifyAll])

/-- `ContextThread::latch_work`. -/
def latchWork : Text := .seq (.act .count) (.act .expect)

/-- `ContextThread::release_work`. -/
def releaseWork : Text := block (.act .count) [.act .expect, .act .trigger, .act .notifyAll]

/-- `IoScheduler::schedule`: the search for the position, then the operations on the same file
    descriptor. -/
def schedule : Text :=
  .locked .scheduler (block (.loop (.act .advance))
    [.loop (.act .advance), .act .epollCtl, .branch (.act .skip) (.act .epollCtl), .act .insert,
      .act .count, .act .notifyAll])

/-- `IntrusiveList::splice`. -/
def splice : Text := .seq (.act .expect) (.branch (.act .skip) (.loop (.act .spliceItem)))

/-- `IoScheduler::cancel`. -/
def cancel : Text :=
  .locked .scheduler (block (.loop (.act .advance)) [.loop (.act .advance),
    .branch (.act .skip) (block (.loop (.act .cancelItem))
      [splice, .act .epollCtl, .act .trigger, .act .notifyAll])])

/-- The section of `run`: the test, and `cvar_.wait(lock, predicate)`, which gives the mutex back
    while the thread sleeps and takes it again to evaluate the predicate. -/
def testAndWait : Text :=
  .seq (.locked .context (.branch (.act .evaluate) (.act .skip)))
    (.loop (.seq (.pause .sleep) (.locked .context (.act .evaluate))))

/-- `ContextThread::run`. -/
def run : Text :=
  .seq (.loop (.seq testAndWait (.call .runOnce))) (.seq (.act .trigger) (.act .notifyAll))

/-- The guard of `run_once` that puts the batch back. -/
def putBack : Text := .branch (.act .skip) (.locked .context splice)

/-- One operation of the batch. -/
def dispatch : Text := .seq (.act .release) (.call .handler)

/-- The rest of `run_once` when the batch is done. -/
def pollIfAny : Text :=
  .seq (.locked .context (.act .evaluate)) (.branch (.act .skip) (.call .pollOnce))

/-- `ContextThread::run_once`. -/
def runOnce : Text :=
  .seq (.locked .context (.seq splice (.act .expect)))
    (.guarded (.act .notifyAll) (.guarded putBack (.seq (.loop dispatch) pollIfAny)))

/-- One operation in `process_notifications`: it is left in the list, or posted. -/
def notifyItem : Text :=
  .branch (.act .skip) (.seq (.pause .performIo)
    (.branch (.act .skip) (block (.act .erase) [.call .post, .act .count])))

/-- One event in `process_notifications`. -/
def notifyEvent : Text :=
  .branch (.act .reset)
    (block (.loop (.act .advance)) [.loop notifyItem, .act .epollCtl, .act .expect])

/-- The second section of `poll_once`. -/
def processNotifications : Text :=
  .locked .scheduler (block (.loop notifyEvent) [.act .count, .act .expect])

/-- A round of `poll_once`'s loop. -/
def pollRound : Text :=
  block (.act .count) [.pause .epollPwait, .act .count, .branch .throw processNotifications]

/-- The first section of `poll_once`. -/
def processCancellations : Text :=
  .locked .scheduler (block (.loop (block (.act .erase) [.act .count, .call .post]))
    [.act .expect, .act .count, .act .evaluate])

/-- `IoScheduler::poll_once`. -/
def pollOnce : Text :=
  .seq processCancellations (.branch (.act .skip) (.seq pollRound (.loop pollRound)))

/-- Code outside, or in a handler, calls anything any number of times. -/
def userCode : Text :=
  .loop (.seq (.pause .user)
    (.branch (.call .post) (.branch (.call .latchWork) (.branch (.call .releaseWork)
      (.branch (.call .schedule) (.branch (.call .cancel)
        (.branch (.attempt (.call .run)) (.attempt (.call .runOnce)))))))))

/-- A handler returns or throws. -/
def handler : Text := .seq userCode (.branch (.act .skip) .throw)

/-- The bodies of the functions. -/
def body : Func → Text
  | .post => post
  | .latchWork => latchWork
  | .releaseWork => releaseWork
  | .schedule => schedule
  | .cancel => cancel
  | .run => run
  | .runOnce => runOnce
  | .pollOnce => pollOnce
  | .handler => handler

/-- How the code uses the mutexes: the scheduler's before the context's, and no pause under them
    but `perform_io` under the scheduler's. -/
def discipline : Locks.Discipline Mutex Func Stmt where
  rank
    | .scheduler => 0
    | .context => 1
  height := 2
  rests
    | .scheduler, .performIo => true
    | _, _ => false
  bound
    | .scheduler => 18
    | .context => 8
  round
    | .scheduler => 19
    | .context => 2
  length
    | .post => 9
    | .latchWork => 3
    | .releaseWork => 7
    | .schedule => 16
    | .cancel => 19
    | .run => 5
    | .runOnce => 56
    | .pollOnce => 27
    | .handler => 4
  contexts
    | .post => [[], [.scheduler]]
    | _ => [[]]

/-- **The code keeps its discipline.** -/
theorem checked : discipline.Checked body where
  ranks := by rintro (_ | _) <;> decide
  fits := by
    intro f
    cases f <;> decide
  lengths := by
    intro f
    cases f <;> decide

/-! ### Holding and waiting -/

/-- The threads, with any type of names for them. -/
abbrev Threads (T : Type) := Locks.State T Mutex Func Stmt

variable {T : Type} [DecidableEq T] {s : Threads T}

/-- Threads that run user code reach the state, in some interleaving. -/
def Reached (s : Threads T) : Prop :=
  Transition.Reach (Locks.Start userCode) (Locks.step body) Transition.always s

/-- A computed run. -/
theorem exists_reached (as : List (T × Choice)) (p : Threads T → Bool)
    (hexec : (Transition.exec (Locks.step body)
      ⟨fun _ => [.code userCode], fun _ => none⟩ as).any p = true) :
    ∃ s, Reached s ∧ p s = true := by
  have hstart : Locks.Start (T := T) userCode ⟨fun _ => [.code userCode], fun _ => none⟩ := rfl
  rw [← @Transition.guarded_always _ _ (Locks.step body)] at hexec
  exact Transition.exists_reach hstart as p hexec

/-- Every state that threads reach is sound, since the code was checked. -/
theorem Reached.sound (h : Reached s) : Locks.Sound discipline s :=
  Locks.reach_sound checked (by decide) h

/-- A thread pauses in a section only in `perform_io`. -/
theorem rests_iff {ℓ : Mutex} {a : Stmt} :
    discipline.rests ℓ a = true ↔ ℓ = .scheduler ∧ a = .performIo := by
  cases ℓ <;> cases a <;> simp [discipline]

/-- A thread's way from user code to the first section of `poll_once`, through one round of
    `run_once` without operations. -/
def toPollOnce : List Choice :=
  [.again, .go, .go] ++ List.replicate 6 .other ++ List.replicate 19 .go ++ [.other, .go, .go]

/-- From inside the section to the mutex that `post` takes for a cancelled operation. -/
def toPost : List Choice := [.go, .again, .go, .go, .go, .go, .go]

/-- **No deadlock.** -/
theorem no_deadlock (h : Reached s) :
    (∀ t, ¬ Relation.TransGen s.WaitsFor t t) ∧
    ∀ t u, s.WaitsFor t u → ∃ v, Relation.TransGen s.WaitsFor t v ∧ held (s.stack v) ≠ [] ∧
      (∀ a, pauses (s.stack v) = some a → a = .performIo) ∧
      ∃ s', Locks.step body s (v, .go) = some s' := by
  refine ⟨fun t => h.sound.not_waits_in_circle, fun t u hw => ?_⟩
  obtain ⟨v, hv, hadv⟩ := h.sound.wait_ends checked hw
  refine ⟨v, hv, hadv.holds, fun a ha => ?_, hadv.steps⟩
  obtain ⟨ℓ, hℓ⟩ := List.exists_mem_of_ne_nil _ hadv.holds
  exact (rests_iff.mp (hadv.rests a ha ℓ hℓ)).2

/-- One thread holds the scheduler's mutex and waits for the context's, which another one holds. -/
theorem no_deadlock_nested :
    ∃ s : Threads Bool, Reached s ∧ held (s.stack true) = [.scheduler] ∧ s.WaitsFor true false ∧
      ∃ v, Relation.TransGen s.WaitsFor true v ∧ held (s.stack v) ≠ [] ∧
        (∀ a, pauses (s.stack v) = some a → a = .performIo) ∧
        ∃ s', Locks.step body s (v, .go) = some s' := by
  obtain ⟨s, hs, hp⟩ := exists_reached
    ((toPollOnce ++ .go :: toPost).map (fun c => (true, c)) ++
      [(false, .again), (false, .go), (false, .go), (false, .go), (false, .go), (false, .go)])
    (fun s => decide (held (s.stack true) = [.scheduler]) &&
      decide (wants (s.stack true) = some .context) && decide (s.holder .context = some false))
    (by decide)
  simp only [Bool.and_eq_true, decide_eq_true_eq] at hp
  have hwaits : s.WaitsFor true false := ⟨.context, hp.1.2, hp.2⟩
  exact ⟨s, hs, hp.1.1, hwaits, (no_deadlock hs).2 true false hwaits⟩

end Sections

end Exios
