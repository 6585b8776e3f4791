import Exios.Context.Results
import Exios.Scheduler.Registrations

namespace Exios

/-!
# Context — batches of events that are out of date

`epoll_pwait` fills its buffer without a lock; by the time a thread processes the batch, other
threads may have cancelled, rescheduled, closed or recycled its descriptors.

* `ClosesCancelled` — the callers' part: a descriptor is closed only when no active operation
  is on it;
* `stale_batches_pass` — a batch passes the checks of `process_notifications` when the numbers
  in it are open, and only if each of them is open at some moment of the critical section;
* `closed_in_batch_fails` — a number that was closed after it was cancelled, while a batch with
  an event for it was under way, fails the check on `EPOLL_CTL_DEL`: it admits `ENOENT` and not
  `EBADF`.
-/

namespace ContextThread

variable {K : Type} {n : Nat} {M : Kernel K} {s s' : ContextThread K n} {t : Fin n}

/-- Descriptors are closed, and lose their registration, after their operations are cancelled. -/
def ClosesCancelled (M : Kernel K) (s : ContextThread K n) : Label K n → Prop
  | .kernel k => ∀ fd, M.isOpen s.sched.kernel fd = true → M.isOpen k fd = false →
    s.sched.io.activeOn fd = []
  | .forget fd => s.sched.io.activeOn fd = []
  | _ => True

/-- The numbers in the batch that the step processes are open. -/
def NumbersOpen (M : Kernel K) (s : ContextThread K n) : Label K n → Prop
  | .thread t .notifications => ∀ block events, (s.threads t).pc = .notified block events →
    ∀ ev ∈ events, ev.fd ≠ s.sched.io.wakeFd → M.isOpen s.sched.kernel ev.fd = true
  | _ => True

/-- The callers' part, for the scheduler. -/
theorem ClosesCancelled.closesIdle {l : Label K n} {a : SchedAct K} (hok : ClosesCancelled M s l)
    (ha : s.schedAct l = some a) : s.sched.ClosesIdle M a := by
  cases l with
  | kernel k =>
    rw [schedAct, Option.some.injEq] at ha
    exact ha ▸ hok
  | forget fd =>
    rw [schedAct, Option.some.injEq] at ha
    exact ha ▸ hok
  | destroy => exact absurd ha (by simp [schedAct])
  | thread t act =>
    -- the threads' own actions close nothing
    cases act with
    | schedule | cancel | pollCancel | exitWake | callWake =>
      rw [schedAct, Option.some.injEq] at ha
      exact ha ▸ trivial
    | notifications =>
      rw [schedAct] at ha
      split at ha
      · rw [Option.some.injEq] at ha
        exact ha ▸ trivial
      · exact absurd ha (by simp)
    | _ => exact absurd ha (by simp [schedAct])

/-- Active operations stay on open, registered descriptors. -/
theorem step_backed (hM : M.NeverCloses) (hres : s.ResultInv) {l : Label K n}
    (hok : ClosesCancelled M s l) (hb : s.destroyed = false → s.sched.Backed M)
    (hs : Step M s l s') : s'.destroyed = false → s'.sched.Backed M := by
  intro hlive'
  -- the destructor leaves no scheduler to speak of
  have hl : l ≠ .destroy := by
    rintro rfl
    cases hs
    exact absurd hlive' (by simp [destroy])
  have hlive := hs.live hlive'
  rcases hs.sched hl with ⟨-, hsame⟩ | ⟨a, ha, hstep⟩
  · rw [hsame]
    exact hb hlive
  · exact Sched.step_backed hM (hres.live hlive) (hok.closesIdle ha) (hb hlive) hstep

/-- **Batches of open numbers are harmless.**  In every run that closes descriptors only after
    cancelling them, with any number of threads between fetching and processing a batch: no step
    fails a check of `process_notifications` while the numbers of the batch it processes are
    open, whatever they refer to by then; and a batch that passes had each of its numbers open
    at some moment of the critical section. -/
theorem stale_batches_pass (hM : M.NeverCloses) (h : Reach M (ClosesCancelled M) s) :
    (∀ l, NumbersOpen M s l →
      s.step M l ≠ some (.error .epollDelete) ∧ s.step M l ≠ some (.error .epollModify)) ∧
    ∀ t block events s', (s.threads t).pc = .notified block events →
      s.step M (.thread t .notifications) = some (.ok s') →
      ∀ ev ∈ events, ev.fd ≠ s.sched.io.wakeFd →
        ∃ k, IoScheduler.Moves M s.sched.kernel k ∧ M.isOpen k ev.fd = true := by
  have hall : s.ResultInv ∧ (s.destroyed = false → s.sched.Backed M) := by
    refine Transition.Reach.invariant
      (fun s => s.ResultInv ∧ (s.destroyed = false → s.sched.Backed M)) ?_ ?_ h
    · rintro s hi
      refine ⟨init_resultInv hi, fun _ a ha => ?_⟩
      obtain ⟨wakeFd, k, hsched⟩ := hi.1
      rw [hsched] at ha
      exact absurd ha (by simp [IoScheduler.init, IoScheduler.activeSegment])
    · rintro s l s' ⟨hres, hb⟩ hok hs
      have hs' := next_cases hs
      exact ⟨step_resultInv hres hs', step_backed hM hres hok hb hs'⟩
  obtain ⟨hres, hb⟩ := hall
  -- a check of `process_notifications` fails only on a closed number
  have hpass : ∀ l c, NumbersOpen M s l → c = .epollDelete ∨ c = .epollModify →
      s.step M l ≠ some (.error c) := by
    intro l c hopen hc hstep
    cases step_fails hres hstep with
    | register | latch | release => simp at hc
    | @notifications t block events _ hlive hpc hpoll _ =>
      obtain ⟨s', n, hok⟩ := Sched.pollNotifications_ok_of_open hM (hres.live hlive) (hb hlive)
        s.threadsWaiting events (hopen block events hpc)
      rw [hok] at hpoll
      exact absurd hpoll (by simp)
  refine ⟨fun l hl => ⟨hpass l _ hl (Or.inl rfl), hpass l _ hl (Or.inr rfl)⟩, ?_⟩
  intro t block events s' hpc hstep
  have hnext : s.next M (.thread t .notifications) = some s' := by
    rw [next, hstep]
    rfl
  cases next_cases hnext with
  | call hlive hcall huser hs => cases hs
  | rest hlive hs => cases hs
  | run hlive hcall hs =>
    cases hs with
    | @notifications block' events' sched r hpc' hfree hpoll hpost =>
      obtain ⟨rfl, rfl⟩ : block = block' ∧ events = events' := by simpa [hpc] using hpc'
      obtain ⟨st, done, hst, -⟩ := Sched.pollNotifications_cases (hres.live hlive) hpoll
      exact IoScheduler.processNotifications_isOpen
        (show (IoScheduler.Notify.start s.sched.io s.sched.kernel).sched.Inv _ _ from
          (hres.live hlive).rep) hst

/-! ### A closed descriptor in a batch -/

/-- A kernel whose state is the list of open numbers; every call would block. -/
def tableKernel : Kernel (List Int) where
  syscall := fun _ k => (.wouldBlock, k)
  isOpen := fun k fd => decide (fd ∈ k)

/-- System calls on a table of descriptors close none of them. -/
theorem tableKernel_neverCloses : tableKernel.NeverCloses := fun _ _ _ h => h

/-- A constructed context; 5 is open. -/
def tableContext (n : Nat) : ContextThread (List Int) n :=
  ⟨⟨IoScheduler.init 0, [5], [], [], [], []⟩, none, [], 0, none, 0, fun _ => idle, [], [], false⟩

theorem tableContext_init (n : Nat) : Init (tableContext n) := ⟨⟨0, [5], rfl⟩, rfl⟩

instance (s : ContextThread (List Int) n) (l : Label (List Int) n) :
    Decidable (ClosesCancelled tableKernel s l) :=
  match l with
  | .kernel k =>
    decidable_of_iff (∀ fd ∈ s.sched.kernel, fd ∉ k → s.sched.io.activeOn fd = [])
      (by simp [ClosesCancelled, tableKernel])
  | .forget fd => inferInstanceAs (Decidable (s.sched.io.activeOn fd = []))
  | .thread _ _ => isTrue trivial
  | .destroy => isTrue trivial

/-- One thread fetches an event for 5, then another cancels the operation on it. -/
def fetchThenCancel (t u : Fin n) : List (Label (List Int) n) :=
  [.schedule ⟨1, 5, .ioRead⟩, .callNotify, .enterRunOnce, .take, .drain, .readMore,
    .checkScheduler, .pollCancel, .announce, .epollReturn [⟨5, EPOLLIN⟩], .retire].map (.thread t)
  ++ [.cancel 5 2, .callWake, .callNotify].map (.thread u)

/-- While 5 stays open, the stale event passes. -/
theorem stale_batch_passes :
    ∃ s : ContextThread (List Int) 2, (s.threads 0).pc = .notified true [⟨5, EPOLLIN⟩] ∧
      s.sched.io.activeOn 5 = [] ∧
      s.step tableKernel (.thread 0 .notifications) ≠ some (.error .epollDelete) := by
  have hrun : ∃ s, Reach tableKernel (ClosesCancelled tableKernel) s ∧
      decide ((s.threads 0).pc = .notified true [⟨5, EPOLLIN⟩] ∧ s.sched.io.activeOn 5 = [] ∧
        (5 : Int) ∈ s.sched.kernel) = true :=
    Transition.exists_reach (tableContext_init 2) (fetchThenCancel 0 1) _ (by decide)
  obtain ⟨s, hs, hend⟩ := hrun
  obtain ⟨hpc, hidle, hopen⟩ := of_decide_eq_true hend
  refine ⟨s, hpc, hidle, ((stale_batches_pass tableKernel_neverCloses hs).1 _ ?_).1⟩
  -- the only event of the batch is on 5, which is still open
  intro block events hpc' ev hev _
  obtain ⟨-, rfl⟩ : true = block ∧ [⟨5, EPOLLIN⟩] = events := by simpa [hpc] using hpc'
  rw [List.mem_singleton] at hev
  subst hev
  exact decide_eq_true hopen

/-- When 5 is closed after the cancellation, processing the batch fails the check on
    `EPOLL_CTL_DEL`. -/
theorem closed_in_batch_fails :
    ¬ ∀ s : ContextThread (List Int) 2, Reach tableKernel (ClosesCancelled tableKernel) s → ∀ l,
      s.step tableKernel l ≠ some (.error .epollDelete) ∧
        s.step tableKernel l ≠ some (.error .epollModify) := by
  intro hall
  have hrun : ∃ s : ContextThread (List Int) 2, Reach tableKernel (ClosesCancelled tableKernel) s ∧
      (s.step tableKernel (.thread 0 .notifications)).any (fun r => !r.isOk) = true :=
    Transition.exists_reach (tableContext_init 2) (fetchThenCancel 0 1 ++ [.kernel [], .forget 5]) _
      (by decide)
  obtain ⟨s, hs, hend⟩ := hrun
  rw [Option.any_eq_true] at hend
  obtain ⟨r, hstep, hr⟩ := hend
  cases r with
  | ok s' => exact absurd hr (by simp [Except.isOk, Except.toBool])
  | error c =>
    obtain ⟨hdelete, hmodify⟩ := hall s hs (.thread 0 .notifications)
    cases step_fails (reach_resultInv hs) hstep with
    -- 5 was closed under the batch: either `epoll_ctl` call fails
    | notifications hlive hpc hpoll hc =>
      rcases hc with rfl | rfl
      · exact hdelete hstep
      · exact hmodify hstep

end ContextThread

end Exios
