import Exios.Context.WakeUps

namespace Exios

/-!
# Context — notifying sleepers on `cvar_`

A thread of `run` evaluates the predicate while it holds `data_mutex_`, then releases the mutex
and sleeps.  `post` makes the predicate true and notifies under the mutex; `schedule` and
`release_work` do both without it, so their notification can fall between the evaluation and
the sleep.

* `MissesWaiter` — that step: the last notification to come is sent while a thread is about to
  sleep on a predicate that has become true;
* `SleepInv` — a true predicate is always going to be notified;
* `no_lost_notification` — runs without such steps lose no notification.
-/

/-- The thread has left or is leaving a function and is about to notify `cvar_`. -/
def Pc.notifies : Pc → Bool
  | .guardNotify _ | .exitWake | .exitNotify => true
  | _ => false

/-- The thread has a `notify_all` still to execute. -/
def Thread.notifies (th : Thread) : Prop := th.call ≠ .none ∨ th.pc.notifies = true

instance (th : Thread) : Decidable th.notifies := inferInstanceAs (Decidable (_ ∨ _))

/-- The actions that execute a `notify_all`, those of the sections of `poll_once` apart, which hold
    `data_mutex_`. -/
def Act.notifies : Act → Bool
  | .callNotify | .guardNotify | .exitNotify => true
  | _ => false

namespace ContextThread

variable {K : Type} {n : Nat} {M : Kernel K} {s s' : ContextThread K n} {t : Fin n}

/-- A `notify_all` is sent while a thread is about to sleep on a predicate that is now true, and no
    other thread has one to send. -/
def MissesWaiter (s : ContextThread K n) : Label K n → Prop
  | .thread t a =>
    a.notifies = true ∧ s.predicate = true ∧ (∃ u, (s.threads u).pc = .waitSleep) ∧
      ∀ v, v ≠ t → ¬ (s.threads v).notifies
  | .destroy | .kernel _ | .forget _ => False

instance (s : ContextThread K n) (l : Label K n) : Decidable (MissesWaiter s l) :=
  match l with
  | .thread t a =>
    inferInstanceAs (Decidable (a.notifies = true ∧ s.predicate = true ∧
      (∃ u, (s.threads u).pc = .waitSleep) ∧ ∀ v, v ≠ t → ¬ (s.threads v).notifies))
  | .destroy => isFalse id
  | .kernel _ => isFalse id
  | .forget _ => isFalse id

/-- A thread that is about to sleep on a true predicate is not missed. -/
theorem exists_notifies {a : Act} (hok : ¬ MissesWaiter s (.thread t a)) (ha : a.notifies = true)
    {u : Fin n} (hu : (s.threads u).pc = .waitSleep) (hp : s.predicate = true) :
    ∃ v, v ≠ t ∧ (s.threads v).notifies := by
  by_contra hno
  exact hok ⟨ha, hp, ⟨u, hu⟩, fun v hv hn => hno ⟨v, hv, hn⟩⟩

/-- The thread sleeps, or is about to. -/
def Dozes (s : ContextThread K n) (u : Fin n) : Prop :=
  (s.threads u).pc = .waitSleep ∨ (s.threads u).pc = .asleep

/-- The invariant of the waiting threads. -/
structure SleepInv (s : ContextThread K n) : Prop where
  waits : ∀ u, (s.threads u).pc = .waitEvaluate ∨ (s.threads u).pc = .waitSleep →
    s.dataMutex = some u
  posts : ∀ u, (s.threads u).call = .postWake ∨ (s.threads u).call = .postNotify →
    s.dataMutex = some u
  noticed : ∀ u, s.Dozes u → s.predicate = true → ∃ v, (s.threads v).notifies

/-- Before the first step nobody sleeps. -/
theorem init_sleepInv (h : Init s) : s.SleepInv := by
  rw [h.2]
  exact ⟨by simp [idle], by simp [idle], by simp [Dozes, idle]⟩

/-- Nobody waits or posts while `data_mutex_` is free. -/
theorem SleepInv.free (h : s.SleepInv) (hfree : s.dataMutex = none) (u : Fin n) :
    (s.threads u).pc ≠ .waitEvaluate ∧ (s.threads u).pc ≠ .waitSleep ∧
      (s.threads u).call ≠ .postWake ∧ (s.threads u).call ≠ .postNotify := by
  have hw := h.waits u
  have hp := h.posts u
  rw [hfree] at hw hp
  simp only [reduceCtorEq, imp_false, not_or] at hw hp
  exact ⟨hw.1, hw.2, hp.1, hp.2⟩

/-- A thread moves, to a position outside `cvar_.wait`, without making the predicate true; its
    notification is still to be sent, or is sent and others have one for those about to sleep. -/
theorem SleepInv.move (h : s.SleepInv) (hframe : OnlyMoves s s' t)
    (hmutex : s'.dataMutex = s.dataMutex) (hpred : s'.predicate = true → s.predicate = true)
    (hpc : (s'.threads t).pc ≠ .waitEvaluate ∧ (s'.threads t).pc ≠ .waitSleep ∧
      (s'.threads t).pc ≠ .asleep)
    (hnotifies : ((s.threads t).pc.notifies = true → (s'.threads t).pc.notifies = true) ∨
      ((∀ u, (s'.threads u).pc ≠ .asleep) ∧ ∀ u, (s.threads u).pc = .waitSleep →
        s.predicate = true → ∃ v, v ≠ t ∧ (s.threads v).notifies)) : s'.SleepInv := by
  obtain ⟨hcalls, hother⟩ := hframe
  -- a thread that waits or sleeps afterwards did so before
  have hsame : ∀ u, (s'.threads u).pc = .waitEvaluate ∨ (s'.threads u).pc = .waitSleep ∨
      (s'.threads u).pc = .asleep → (s'.threads u).pc = (s.threads u).pc := by
    intro u hu
    have hut : u ≠ t := by
      rintro rfl
      tauto
    rcases hother u hut with heq | ⟨-, heq⟩
    · exact heq
    · rw [heq] at hu
      simp at hu
  -- the notifications of the others are still to come
  have hkeep : ∀ v, v ≠ t → (s.threads v).notifies → (s'.threads v).notifies := by
    intro v hv hn
    unfold Thread.notifies at hn ⊢
    rw [hcalls]
    refine hn.imp id (fun hn => ?_)
    rcases hother v hv with heq | ⟨heq, -⟩
    · rw [heq]
      exact hn
    · rw [heq] at hn
      exact absurd hn (by simp [Pc.notifies])
  refine ⟨fun u hu => ?_, fun u hu => ?_, fun u hu hp => ?_⟩
  · rw [hmutex]
    exact h.waits u (by rw [← hsame u (by tauto)]; exact hu)
  · rw [hcalls] at hu
    rw [hmutex]
    exact h.posts u hu
  · have hdozes : s.Dozes u := by
      unfold Dozes
      rw [← hsame u (Or.inr hu)]
      exact hu
    rcases hnotifies with hself | ⟨hawake, hothers⟩
    · obtain ⟨v, hv⟩ := h.noticed u hdozes (hpred hp)
      refine ⟨v, ?_⟩
      by_cases hvt : v = t
      · subst hvt
        unfold Thread.notifies at hv ⊢
        rw [hcalls]
        exact hv.imp id hself
      · exact hkeep v hvt hv
    · have hwait : (s.threads u).pc = .waitSleep := by
        rw [← hsame u (Or.inr hu)]
        exact hu.resolve_right (hawake u)
      obtain ⟨v, hvt, hv⟩ := hothers u hwait (hpred hp)
      exact ⟨v, hkeep v hvt hv⟩

/-- A thread moves while `data_mutex_` is free, and everyone asleep was notified or the thread
    is about to notify. -/
theorem SleepInv.of_free (h : s.SleepInv) (hfree : s.dataMutex = none) (hframe : OnlyMoves s s' t)
    (hpc : (s'.threads t).pc ≠ .waitEvaluate ∧ (s'.threads t).pc ≠ .waitSleep)
    (hasleep : (∀ u, (s'.threads u).pc ≠ .asleep) ∨ (s'.threads t).pc.notifies = true) :
    s'.SleepInv := by
  obtain ⟨hcalls, hother⟩ := hframe
  have hnone : ∀ u, (s'.threads u).pc ≠ .waitEvaluate ∧ (s'.threads u).pc ≠ .waitSleep := by
    intro u
    by_cases hut : u = t
    · rw [hut]; exact hpc
    · rcases hother u hut with heq | ⟨-, heq⟩
      · rw [heq]
        exact ⟨(h.free hfree u).1, (h.free hfree u).2.1⟩
      · rw [heq]; simp
  -- nobody waits afterwards, and nobody posts, since both hold the mutex
  refine ⟨fun u hu => ?_, fun u hu => ?_, fun u hu _ => ?_⟩
  · rcases hu with hu | hu
    · exact absurd hu (hnone u).1
    · exact absurd hu (hnone u).2
  · rw [hcalls] at hu
    rcases hu with hu | hu
    · exact absurd hu (h.free hfree u).2.2.1
    · exact absurd hu (h.free hfree u).2.2.2
  · rcases hasleep with hno | hn
    · exact absurd (hu.resolve_left (hnone u).2) (hno u)
    · exact ⟨t, Or.inr hn⟩

/-- The owner of `data_mutex_` in `cvar_.wait` is the only one that waits or posts. -/
theorem SleepInv.owner (h : s.SleepInv) {u : Fin n}
    (hpc : (s.threads t).pc = .waitEvaluate ∨ (s.threads t).pc = .waitSleep) (hut : u ≠ t) :
    (s.threads u).pc ≠ .waitEvaluate ∧ (s.threads u).pc ≠ .waitSleep ∧
      (s.threads u).call ≠ .postWake ∧ (s.threads u).call ≠ .postNotify := by
  have hmutex := h.waits t hpc
  have hne : s.dataMutex ≠ some u := by
    rw [hmutex]
    simpa using fun he => hut he.symm
  refine ⟨fun he => hne (h.waits u (Or.inl he)), fun he => hne (h.waits u (Or.inr he)),
    fun he => hne (h.posts u (Or.inl he)), fun he => hne (h.posts u (Or.inr he))⟩

/-- After a notification nobody is asleep. -/
theorem not_asleep_of_notifyAll {f : Thread → Thread}
    (hf : (f (s.notifyAll.threads t)).pc ≠ .asleep) (u : Fin n) :
    ((s.notifyAll.mapThread t f).threads u).pc ≠ .asleep := by
  rw [mapThread_threads]
  split
  · rename_i hu
    subst hu
    exact hf
  · rw [notifyAll_pc]
    split
    · simp
    · assumption

/-! ### Steps -/

/-- A critical section of `poll_once` that posts the operations `ops`. -/
theorem SleepInv.poll (h : s.SleepInv) {sched : Sched K} {ops : List AsyncIoOperation} {pc : Pc}
    (hframe : OnlyMoves s ((({ s with sched := sched }).enqueue ops).goto t pc) t)
    (hpost : ops = [] ∨ s.dataMutex = none) (hinv : s.sched.Inv) (hinv' : sched.Inv)
    (hscheduled : sched.scheduled = s.sched.scheduled)
    (hposted : sched.posted = s.sched.posted ++ ops)
    (hpc : pc ≠ .waitEvaluate ∧ pc ≠ .waitSleep ∧ pc ≠ .asleep)
    (hold : (s.threads t).pc.notifies = false) :
    ((({ s with sched := sched }).enqueue ops).goto t pc).SleepInv := by
  by_cases hops : ops = []
  · subst hops
    -- nothing completed, so the queue's length is the old one
    have hlength : sched.io.pollQueueLength = s.sched.io.pollQueueLength := by
      have hperm := (hinv.operations_perm hinv' hscheduled hposted).length_eq
      rw [List.append_nil] at hperm
      rw [hinv'.rep.length, hinv.rep.length, hperm]
    refine h.move hframe rfl ?_ (by simpa using hpc) (Or.inl (by simp [hold]))
    intro hp
    have hp' : ({ s with sched := sched } : ContextThread K n).predicate = true := hp
    unfold predicate IoScheduler.empty at hp' ⊢
    rw [← hlength]
    exact hp'
  · have hfree := hpost.resolve_left hops
    refine h.of_free hfree hframe (by simpa using ⟨hpc.1, hpc.2.1⟩) (Or.inl ?_)
    unfold enqueue
    rw [if_neg hops]
    exact fun u => not_asleep_of_notifyAll hpc.2.2 u

/-- A thread that has no notification to send moves on; the others still have theirs. -/
theorem notifies_goto {s₁ : ContextThread K n} {pc : Pc} {v : Fin n}
    (hthreads : s₁.threads = s.threads) (hold : (s.threads t).pc.notifies = false)
    (hv : (s.threads v).notifies) : ((s₁.goto t pc).threads v).notifies := by
  unfold Thread.notifies at hv ⊢
  rw [goto_call, goto_pc, hthreads]
  refine hv.imp id (fun hn => ?_)
  split
  · rename_i hvt
    rw [hvt, hold] at hn
    exact absurd hn (by simp)
  · exact hn

/-- A thread takes `data_mutex_` to evaluate the predicate. -/
theorem acquire_sleepInv (h : s.SleepInv) (hfree : s.dataMutex = none)
    (hold : (s.threads t).pc.notifies = false) :
    (({ s with dataMutex := some t }).goto t .waitEvaluate).SleepInv := by
  refine ⟨?_, ?_, ?_⟩
  · intro u hu
    rw [goto_pc] at hu
    split at hu
    · rename_i hut
      rw [hut]
      rfl
    · -- the mutex was free, so no other thread waits with it or posts under it
      rcases hu with hu | hu
      · exact absurd hu (h.free hfree u).1
      · exact absurd hu (h.free hfree u).2.1
  · intro u hu
    rw [goto_call] at hu
    rcases hu with hu | hu
    · exact absurd hu (h.free hfree u).2.2.1
    · exact absurd hu (h.free hfree u).2.2.2
  · -- whoever was about to notify still is
    intro u hu hp
    unfold Dozes at hu
    rw [goto_pc] at hu
    split at hu
    · exact absurd hu (by simp)
    · obtain ⟨v, hv⟩ := h.noticed u hu hp
      exact ⟨v, notifies_goto rfl hold hv⟩

/-- The owner of `data_mutex_` in `cvar_.wait` releases it: to go on or to sleep. -/
theorem release_sleepInv (h : s.SleepInv) (hcall : (s.threads t).call = .none) {pc : Pc}
    (howner : (s.threads t).pc = .waitEvaluate ∨ (s.threads t).pc = .waitSleep)
    (hpc : pc ≠ .waitEvaluate ∧ pc ≠ .waitSleep)
    (hsleep : pc = .asleep → (s.threads t).pc = .waitSleep) :
    (({ s with dataMutex := none }).goto t pc).SleepInv := by
  have hold : (s.threads t).pc.notifies = false := by
    rcases howner with he | he <;> rw [he] <;> rfl
  have hothers : ∀ u, ((({ s with dataMutex := none }).goto t pc).threads u).pc ≠ .waitEvaluate ∧
      ((({ s with dataMutex := none }).goto t pc).threads u).pc ≠ .waitSleep := by
    intro u
    rw [goto_pc]
    split
    · exact hpc
    · rename_i hut
      exact ⟨(h.owner howner hut).1, (h.owner howner hut).2.1⟩
  refine ⟨?_, ?_, ?_⟩
  · intro u hu
    rcases hu with hu | hu
    · exact absurd hu (hothers u).1
    · exact absurd hu (hothers u).2
  · intro u hu
    rw [goto_call] at hu
    by_cases hut : u = t
    · rw [hut] at hu
      rcases hu with hu | hu <;> exact absurd (hcall.symm.trans hu) (by simp)
    · rcases hu with hu | hu
      · exact absurd hu (h.owner howner hut).2.2.1
      · exact absurd hu (h.owner howner hut).2.2.2
  · intro u hu hp
    have hasleep := hu.resolve_left (hothers u).2
    rw [goto_pc] at hasleep
    -- a thread that falls asleep now was about to: whoever made the predicate true has yet to notify
    have hdozes : s.Dozes u := by
      split at hasleep
      · rename_i hut
        exact Or.inl (hut ▸ hsleep hasleep)
      · exact Or.inr hasleep
    obtain ⟨v, hv⟩ := h.noticed u hdozes hp
    exact ⟨v, notifies_goto rfl hold hv⟩

/-- The steps inside `run`, `run_once` and `poll_once`. -/
theorem run_sleepInv (hres : s.ResultInv) (hlive : s.destroyed = false) (h : s.SleepInv) {a : Act}
    (hok : ¬ MissesWaiter s (.thread t a)) (hcall : (s.threads t).call = .none)
    (hs : RunStep M s t a s') : s'.SleepInv := by
  have hinv := hres.live hlive
  have hframe := hs.frame
  cases hs with
  | enterRun hpc | enterRunOnce hpc | handlerReturn hpc | popFront hpc =>
    refine h.move hframe rfl id ?_ (Or.inl ?_) <;> rw [mapThread_threads, if_pos rfl]
    · simp
    · simp [hpc, Pc.notifies]
  -- emptying the queue can only make the predicate false
  | take hpc =>
    refine h.move hframe rfl ?_ ?_ (Or.inl ?_)
    · intro hp
      have hp' : ({ s with completionQueue := [] } : ContextThread K n).predicate = true := hp
      unfold predicate at hp' ⊢
      simp only [List.isEmpty_nil, Bool.not_true, Bool.false_or] at hp'
      rw [Bool.or_assoc, hp', Bool.or_true]
    · rw [mapThread_threads, if_pos rfl]
      simp
    · rw [mapThread_threads, if_pos rfl]
      simp [hpc, Pc.notifies]
  | testGo hpc | spuriousWake hpc | drained hpc | invoke hpc | handlerThrow hpc | readMore hpc
  | announce hpc | epollReturn hpc | epollFail hpc | retireThrow hpc | retire hpc
  | putBackNone hpc | exitWake hpc =>
    exact h.move hframe rfl id (by simp) (Or.inl (by simp [hpc, Pc.notifies]))
  | loop hpc | checkScheduler hpc =>
    refine h.move hframe rfl id ?_ (Or.inl (by simp [hpc, Pc.notifies]))
    rw [goto_pc, if_pos rfl]
    split <;> simp
  -- `cvar_.wait` takes the mutex, evaluates, and releases it in one of two ways
  | testWait hpc hfree hempty => exact acquire_sleepInv h hfree (by rw [hpc]; rfl)
  | relock hpc hfree => exact acquire_sleepInv h hfree (by rw [hpc]; rfl)
  | evaluateTrue hpc hpred => exact release_sleepInv h hcall (Or.inl hpc) (by simp) (by simp)
  | sleep hpc => exact release_sleepInv h hcall (Or.inr hpc) (by simp) (fun _ => hpc)
  -- the window opens: the predicate is false while the mutex is held
  | evaluateFalse hpc hpred =>
    have hmutex := h.waits t (Or.inl hpc)
    have hfalse : ¬ (s.goto t .waitSleep).predicate = true := by
      show ¬ s.predicate = true
      simp [hpred]
    refine ⟨?_, ?_, fun u _ hp => absurd hp hfalse⟩
    · intro u hu
      rw [goto_pc] at hu
      split at hu
      · rename_i hut
        rw [hut]
        exact hmutex
      · exact h.waits u hu
    · intro u hu
      rw [goto_call] at hu
      exact h.posts u hu
  -- what `poll_once` posts, it notifies under the mutex
  | @pollCancel block sched p hpc hfree hpoll hpost =>
    obtain ⟨-, hposted, hscheduled⟩ := Sched.pollCancellations_extends hpoll
    refine h.poll hframe hpost hinv (Sched.pollCancellations_inv hinv hpoll) hscheduled hposted ?_
      (by rw [hpc]; rfl)
    split <;> simp
  | @notifications block events sched r hpc hfree hpoll hpost =>
    obtain ⟨-, hposted, hscheduled⟩ := Sched.pollNotifications_extends hinv hpoll
    refine h.poll hframe hpost hinv (Sched.pollNotifications_inv hinv hpoll) hscheduled hposted ?_
      (by rw [hpc]; rfl)
    split <;> simp
  -- the queue grows, but the guard that notifies comes next
  | putBack hpc hfree =>
    refine h.of_free hfree hframe ?_ (Or.inr ?_) <;> rw [mapThread_threads, if_pos rfl]
    · simp
    · rfl
  | @guardNotify thrown hpc =>
    have hnot : ∀ th : Thread, (if thrown = false ∧ th.inRun = true then Pc.runLoop else Pc.out)
        ≠ .asleep := by
      intro th
      split <;> simp
    refine h.move hframe rfl id ?_ (Or.inr ⟨not_asleep_of_notifyAll (hnot _),
      fun _ => exists_notifies hok rfl⟩)
    rw [mapThread_threads, if_pos rfl]
    refine ⟨?_, ?_, hnot _⟩ <;> dsimp only <;> split <;> simp
  | exitNotify hpc =>
    exact h.move hframe rfl id (by simp) (Or.inr ⟨not_asleep_of_notifyAll (by simp),
      fun _ => exists_notifies hok rfl⟩)

/-- A call goes on that has yet to notify; nobody moves. -/
theorem SleepInv.call (h : s.SleepInv) {s₁ : ContextThread K n} {c : Call}
    (hthreads : s₁.threads = s.threads) (hmutex : s₁.dataMutex = s.dataMutex) (hc : c ≠ .none)
    (hposts : c = .postWake ∨ c = .postNotify → s.dataMutex = some t) :
    (s₁.setCall t c).SleepInv := by
  refine ⟨?_, ?_, ?_⟩
  · intro u hu
    rw [setCall_pc, hthreads] at hu
    show s₁.dataMutex = some u
    rw [hmutex]
    exact h.waits u hu
  · intro u hu
    rw [setCall_call, hthreads] at hu
    show s₁.dataMutex = some u
    rw [hmutex]
    split at hu
    · rename_i hut
      rw [hut]
      exact hposts hu
    · exact h.posts u hu
  · -- the call just made is the one that will notify
    intro u _ _
    refine ⟨t, Or.inl ?_⟩
    rw [setCall_call, if_pos rfl]
    exact hc

/-- A call ends with its notification: nobody is asleep, and whoever is about to sleep on a true
    predicate has another notification to come. -/
theorem SleepInv.notified (h : s.SleepInv) {s₁ : ContextThread K n}
    (hthreads : s₁.threads = s.threads) (hpred : s₁.predicate = s.predicate)
    (hmutex : s₁.dataMutex = s.dataMutex ∨
      (s.dataMutex = some t ∧ (s.threads t).pc.isUser = true))
    (hok : ¬ MissesWaiter s (.thread t .callNotify)) :
    (s₁.notifyAll.setCall t .none).SleepInv := by
  have hpc : ∀ u, ((s₁.notifyAll.setCall t .none).threads u).pc
      = if (s.threads u).pc = .asleep then .woken else (s.threads u).pc := by
    intro u
    rw [setCall_pc, notifyAll_pc, hthreads]
  -- a thread in `cvar_.wait` keeps the mutex: it is not the caller
  have hkeep : ∀ u, s.dataMutex = some u → u ≠ t → s₁.dataMutex = some u := by
    intro u hu hut
    rcases hmutex with hm | ⟨hm, -⟩
    · rw [hm]; exact hu
    · rw [hm, Option.some.injEq] at hu
      exact absurd hu.symm hut
  refine ⟨?_, ?_, ?_⟩
  · intro u hu
    rw [hpc] at hu
    split at hu
    · simp at hu
    · have hm := h.waits u hu
      rcases hmutex with hm' | ⟨-, huser⟩
      · exact hm'.trans hm
      · apply hkeep u hm
        rintro rfl
        rcases hu with hu | hu <;> rw [hu] at huser <;> exact absurd huser (by simp [Pc.isUser])
  · intro u hu
    rw [setCall_call] at hu
    split at hu
    · simp at hu
    · rename_i hut
      rw [notifyAll_call, hthreads] at hu
      exact hkeep u (h.posts u hu) hut
  · intro u hu hp
    unfold Dozes at hu
    rw [hpc] at hu
    split at hu
    · exact absurd hu (by simp)
    · rename_i hasleep
      obtain ⟨v, hvt, hv⟩ := exists_notifies hok rfl (hu.resolve_right hasleep) (hpred ▸ hp)
      refine ⟨v, ?_⟩
      unfold Thread.notifies at hv ⊢
      rw [setCall_call, if_neg hvt, notifyAll_call, hthreads, hpc]
      refine hv.imp id (fun hn => ?_)
      split
      · rename_i hv'
        rw [hv'] at hn
        exact absurd hn (by simp [Pc.notifies])
      · exact hn

/-- The first step of an API call. -/
theorem call_sleepInv (hres : s.ResultInv) (hlive : s.destroyed = false) (h : s.SleepInv) {a : Act}
    (hs : CallStep M s t a s') : s'.SleepInv := by
  have hinv := hres.live hlive
  cases hs with
  -- `post` takes the mutex, so nobody is in the window
  | post hfree hnew =>
    refine ⟨?_, ?_, ?_⟩
    · intro u hu
      rw [setCall_pc] at hu
      rcases hu with hu | hu
      · exact absurd hu (h.free hfree u).1
      · exact absurd hu (h.free hfree u).2.1
    · intro u hu
      rw [setCall_call] at hu
      split at hu
      · rename_i hut
        rw [hut]
        rfl
      · rcases hu with hu | hu
        · exact absurd hu (h.free hfree u).2.2.1
        · exact absurd hu (h.free hfree u).2.2.2
    · intro u _ _
      exact ⟨t, Or.inl (by simp)⟩
  -- the caller itself is the one still to notify
  | schedule hfree hnew hsched => exact h.call rfl rfl (by simp) (by simp)
  | cancel hfree hc => exact h.call rfl rfl (by simp) (by simp)
  | releaseWork hpos => exact h.call rfl rfl (by simp) (by simp)
  -- `cancel` leaves the length of the queue alone
  | @cancelNothing fd fuel sched hc =>
    have hpred : ({ s with sched := sched } : ContextThread K n).predicate = s.predicate := by
      obtain ⟨io, hio, rfl⟩ := Sched.cancel_cases hc
      obtain ⟨lo, eq, hi, -, ⟨-, rfl, -⟩ | ⟨-, -, rfl, -⟩⟩ :=
        IoScheduler.cancelSection_ok hinv.rep hio
      · rfl
      · rfl
    exact ⟨h.waits, h.posts, fun u hu hp => h.noticed u hu (hpred ▸ hp)⟩
  -- more work can only make the predicate false
  | latchWork =>
    have hpred : ({ s with remainingCount := s.remainingCount + 1 } :
        ContextThread K n).predicate = true → s.predicate = true := by
      unfold predicate
      simp only [Nat.add_eq_zero_iff, Nat.one_ne_zero, and_false, decide_false, Bool.or_false]
      intro hp
      rw [hp, Bool.true_or]
    exact ⟨h.waits, h.posts, fun u hu hp => h.noticed u hu (hpred hp)⟩

/-- The later steps of an API call. -/
theorem rest_sleepInv (h : s.SleepInv) (huser : CallsInUser s) {a : Act}
    (hok : ¬ MissesWaiter s (.thread t a)) (hs : CallRest s t a s') : s'.SleepInv := by
  cases hs with
  | postWake hcall => exact h.call rfl rfl (by simp) (fun _ => h.posts t (Or.inl hcall))
  | cancelWake hcall | releaseWake hcall => exact h.call rfl rfl (by simp) (by simp)
  | postNotify hcall =>
    exact h.notified rfl rfl (Or.inr ⟨h.posts t (Or.inr hcall), huser t (by rw [hcall]; simp)⟩) hok
  | scheduleNotify hcall | cancelNotify hcall | releaseNotify hcall =>
    exact h.notified rfl rfl (Or.inl rfl) hok

/-! ### Runs -/

/-- **The step lemma** for sleepers, in runs that notify no waiter too early. -/
theorem step_sleepInv (hres : s.ResultInv) (huser : CallsInUser s) (h : s.SleepInv)
    {l : Label K n} (hok : ¬ MissesWaiter s l) (hs : Step M s l s') : s'.SleepInv := by
  cases hs with
  | run hlive hcall hs => exact run_sleepInv hres hlive h hok hcall hs
  | call hlive hcall _ hs => exact call_sleepInv hres hlive h hs
  | rest hlive hs => exact rest_sleepInv h huser hok hs
  | destroy hlive hout =>
    refine ⟨h.waits, h.posts, fun u hu => ?_⟩
    rcases hu with hu | hu <;> exact absurd ((hout u).1.symm.trans hu) (by simp)
  | kernel | forget => exact ⟨h.waits, h.posts, h.noticed⟩

/-- **The run lemma** for sleepers. -/
theorem reach_sleepInv (h : Reach M (fun s l => ¬ MissesWaiter s l) s) : s.SleepInv := by
  have hall : s.ResultInv ∧ CallsInUser s ∧ s.SleepInv := by
    refine Transition.Reach.invariant (fun s => s.ResultInv ∧ CallsInUser s ∧ s.SleepInv) ?_ ?_ h
    · intro s hi
      refine ⟨init_resultInv hi, ?_, init_sleepInv hi⟩
      rw [hi.2]
      exact fun u hu => absurd rfl hu
    · rintro s l s' ⟨hres, huser, hsleep⟩ hok hs
      have hs' := next_cases hs
      exact ⟨step_resultInv hres hs', step_callsInUser huser hs',
        step_sleepInv hres huser hsleep hok hs'⟩
  exact hall.2.2

/-- A notification is lost: a thread sleeps on `cvar_` while its predicate is true, and no
    thread has a `notify_all` still to execute. -/
def LostNotification (s : ContextThread K n) : Prop :=
  (∃ u, (s.threads u).pc = .asleep) ∧ s.predicate = true ∧ ∀ v, ¬ (s.threads v).notifies

instance (s : ContextThread K n) : Decidable (LostNotification s) :=
  inferInstanceAs (Decidable (_ ∧ _))

/-- **No lost notification** in runs in which the last notification to come misses no waiter. -/
theorem no_lost_notification (h : Reach M (fun s l => ¬ MissesWaiter s l) s) :
    ¬ LostNotification s := by
  rintro ⟨⟨u, hu⟩, hpred, hnone⟩
  obtain ⟨v, hv⟩ := (reach_sleepInv h).noticed u (Or.inr hu) hpred
  exact hnone v hv

/-- A runner enters `run` with work outstanding and finds nothing to do. -/
def runUntilEvaluated (runner other : Fin n) : List (Label Unit n) :=
  [.thread other .latchWork, .thread runner .enterRun, .thread runner .loop, .thread runner .test,
    .thread runner .evaluate]

/-- A whole `schedule`. -/
def scheduleBy (t : Fin n) : List (Label Unit n) :=
  [.thread t (.schedule ⟨1, 5, .signalRead⟩), .thread t .callNotify]

/-- A `schedule` that notifies after the runner has fallen asleep wakes it. -/
theorem schedule_after_sleep_kept :
    ∃ s : ContextThread Unit 2, (s.threads 0).pc = .woken ∧ s.predicate = true ∧
      ¬ LostNotification s := by
  have hrun : ∃ s, Reach quietKernel (fun s l => ¬ MissesWaiter s l) s ∧
      decide ((s.threads 0).pc = .woken ∧ s.predicate = true) = true :=
    Transition.exists_reach (quietContext_init 2)
      (runUntilEvaluated 0 1 ++ [.thread 0 .sleep] ++ scheduleBy 1) _ (by decide)
  obtain ⟨s, hs, hp⟩ := hrun
  have hp' := of_decide_eq_true hp
  exact ⟨s, hp'.1, hp'.2, no_lost_notification hs⟩

/-- A `schedule` between the evaluation of the predicate and the sleep is not noticed. -/
theorem schedule_before_sleep_lost :
    ¬ ∀ s : ContextThread Unit 2, Reach quietKernel Transition.always s → ¬ LostNotification s := by
  intro hall
  have hrun : ∃ s, Reach quietKernel Transition.always s ∧ decide (LostNotification s) = true :=
    Transition.exists_reach (quietContext_init 2)
      (runUntilEvaluated 0 1 ++ scheduleBy 1 ++ [.thread 0 .sleep]) _ (by decide)
  obtain ⟨s, hs, hlost⟩ := hrun
  exact hall s hs (of_decide_eq_true hlost)

end ContextThread

end Exios
