import Exios.Context.Results

namespace Exios

/-!
# Context — waking blocked pollers

A runner decides to block in `epoll_pwait` after two checks: it has read the completion queue
as empty, and its cancellation phase has found nothing.  A `post` or `cancel` that comes after
the check must wake it through the wake event; the value it writes is `threads_waiting`, to
which the runner adds itself only later.

* `Watch` — the two things a runner checks for, and the positions from which it goes on to block
  without checking again (`blind`), which depends on what it will find in the scheduler;
* `Strands` — the steps that strand the blind runners: a wake-up of `0`, a `schedule` that gives
  them something to wait for, and the departure of the last runner that would have looked again;
* `Watched` — what is pending is covered: some runner will look, or the wake event is
  readable, or a call is about to write it;
* `no_lost_wakeup` — runs without stranding steps never lose a wake-up.
-/

/-- The position is inside `run` or `run_once`. -/
def Pc.inside : Pc → Bool
  | .out => false
  | _ => true

/-- What a runner checks for before it blocks. -/
inductive Watch
  | queue
  | cancelled
deriving DecidableEq

namespace Watch

/-- The runner has made its check and goes on to block.  `waits` says that `poll_once` finds
    operations to wait for and none that was cancelled; otherwise it returns, or polls without
    blocking. -/
def blind (waits : Bool) : Watch → Pc → Bool
  | .queue, .checkScheduler more => !more && waits
  | .queue, .pollCancel block => block && waits
  | _, .announce _ forever => forever
  | _, .polling _ forever => forever
  | _, _ => false

/-- Who is blind to a wake-up is blind to it with more reasons to wait. -/
theorem blind_mono {waits waits' : Bool} (h : waits = true → waits' = true) {w : Watch} {pc : Pc}
    (hb : w.blind waits pc = true) : w.blind waits' pc = true := by
  cases waits with
  | true => rwa [h rfl]
  | false => cases w <;> cases pc <;> simp_all [blind]

/-- There is something to be found. -/
def pending {K : Type} {n : Nat} (s : ContextThread K n) : Watch → Prop
  | .queue => s.completionQueue ≠ []
  | .cancelled => s.sched.io.cancelledSegment ≠ []

instance {K : Type} {n : Nat} (s : ContextThread K n) (w : Watch) : Decidable (pending s w) :=
  match w with
  | .queue => inferInstanceAs (Decidable (s.completionQueue ≠ []))
  | .cancelled => inferInstanceAs (Decidable (s.sched.io.cancelledSegment ≠ []))

end Watch

/-- A `post` or `cancel` that is about to write the wake event. -/
def Call.wakes : Call → Bool
  | .postWake | .cancelWake => true
  | _ => false

/-- A `schedule`. -/
def Act.schedules : Act → Bool
  | .schedule _ => true
  | _ => false

namespace ContextThread

variable {K : Type} {n : Nat} {M : Kernel K} {s s' : ContextThread K n} {t : Fin n} {w : Watch}

/-- `poll_once` finds operations to wait for and none that was cancelled. -/
def waits (s : ContextThread K n) : Bool :=
  !s.sched.io.activeSegment.isEmpty && s.sched.io.cancelledSegment.isEmpty

/-- Apart from the thread `t`, something is pending, the wake event is not readable, there are
    runners, all of them go on to block without looking, and no call is about to wake them. -/
def OthersBlind (s : ContextThread K n) (t : Fin n) (waits : Bool) (w : Watch) : Prop :=
  Watch.pending s w ∧ s.sched.io.wakeCounter = 0 ∧
    (∃ u, u ≠ t ∧ (s.threads u).pc.inside = true) ∧
    (∀ u, u ≠ t → (s.threads u).pc.inside = true → w.blind waits (s.threads u).pc = true) ∧
    ∀ u, u ≠ t → (s.threads u).call.wakes = false

instance (s : ContextThread K n) (t : Fin n) (waits : Bool) (w : Watch) :
    Decidable (OthersBlind s t waits w) :=
  inferInstanceAs (Decidable (_ ∧ _))

/-- The action takes the thread out of `run` or `run_once`. -/
def Leaves (s : ContextThread K n) (t : Fin n) (a : Act) : Prop :=
  (a = .guardNotify ∧ ((s.threads t).pc = .guardNotify true ∨
    ((s.threads t).pc = .guardNotify false ∧ (s.threads t).inRun = false))) ∨
  (a = .exitNotify ∧ (s.threads t).pc = .exitNotify)

/-- A `post` or `cancel` from outside writes `0` to the wake event. -/
def WakesNobody (s : ContextThread K n) (t : Fin n) (a : Act) : Prop :=
  a = .callWake ∧ (s.threads t).call.wakes = true ∧ (s.threads t).pc = .out ∧
    s.threadsWaiting % 2 ^ 32 = 0

instance (s : ContextThread K n) (t : Fin n) (a : Act) : Decidable (Leaves s t a) :=
  inferInstanceAs (Decidable (_ ∨ _))

instance (s : ContextThread K n) (t : Fin n) (a : Act) : Decidable (WakesNobody s t a) :=
  inferInstanceAs (Decidable (_ ∧ _))

/-- A `schedule` from outside. -/
def SchedulesOutside (s : ContextThread K n) (t : Fin n) (a : Act) : Prop :=
  a.schedules = true ∧ (s.threads t).pc = .out

instance (s : ContextThread K n) (t : Fin n) (a : Act) : Decidable (SchedulesOutside s t a) :=
  inferInstanceAs (Decidable (_ ∧ _))

/-- Among blind runners, the steps of another thread that strand them: a wake-up of `0`, the
    departure of the last runner that would have looked, or a `schedule`, after which there is
    something to wait for. -/
def StrandsFor (s : ContextThread K n) (w : Watch) : Label K n → Prop
  | .thread t a =>
    (OthersBlind s t s.waits w ∧ (WakesNobody s t a ∨ Leaves s t a)) ∨
      (OthersBlind s t s.sched.io.cancelledSegment.isEmpty w ∧ SchedulesOutside s t a)
  | .destroy | .kernel _ | .forget _ => False

instance (s : ContextThread K n) (w : Watch) (l : Label K n) : Decidable (StrandsFor s w l) :=
  match l with
  | .thread t a =>
    inferInstanceAs (Decidable ((OthersBlind s t s.waits w ∧ (WakesNobody s t a ∨ Leaves s t a)) ∨
      (OthersBlind s t s.sched.io.cancelledSegment.isEmpty w ∧ SchedulesOutside s t a)))
  | .destroy => isFalse id
  | .kernel _ => isFalse id
  | .forget _ => isFalse id

/-- The steps after which a wake-up can be lost. -/
def Strands (s : ContextThread K n) (l : Label K n) : Prop :=
  StrandsFor s .queue l ∨ StrandsFor s .cancelled l

instance (s : ContextThread K n) (l : Label K n) : Decidable (Strands s l) :=
  inferInstanceAs (Decidable (_ ∨ _))

/-- To strand the one that is watched is to strand somebody. -/
theorem strands_of {l : Label K n} (h : StrandsFor s w l) : Strands s l := by
  cases w with
  | queue => exact Or.inl h
  | cancelled => exact Or.inr h

/-! ### The invariant -/

/-- Some runner will look, or the wake event is readable, or a call is about to write it. -/
def Covered (s : ContextThread K n) (w : Watch) : Prop :=
  (∃ u, (s.threads u).pc.inside = true ∧ w.blind s.waits (s.threads u).pc = false) ∨
    0 < s.sched.io.wakeCounter ∨ ∃ u, (s.threads u).call.wakes = true

/-- What is pending is covered as long as there are runners. -/
def Watched (s : ContextThread K n) (w : Watch) : Prop :=
  Watch.pending s w → (∃ u, (s.threads u).pc.inside = true) → Covered s w

/-- A runner that will look covers everything. -/
theorem Watched.of_awake (hin : (s.threads t).pc.inside = true)
    (hblind : w.blind s.waits (s.threads t).pc = false) : Watched s w :=
  fun _ _ => Or.inl ⟨t, hin, hblind⟩

/-- A call that is about to write the wake event covers everything. -/
theorem Watched.of_call (hcall : (s.threads t).call.wakes = true) : Watched s w :=
  fun _ _ => Or.inr (Or.inr ⟨t, hcall⟩)

/-- Where nothing is pending there is nothing to watch. -/
theorem Watched.of_not_pending (h : ¬ Watch.pending s w) : Watched s w := fun hp => absurd hp h

/-- Steps that neither add to what is pending nor take a cover away. -/
theorem Watched.keep (h : Watched s w) (hpending : Watch.pending s' w → Watch.pending s w)
    (hinside : ∀ u, (s'.threads u).pc.inside = (s.threads u).pc.inside)
    (hblind : ∀ u, w.blind s'.waits (s'.threads u).pc = true →
      w.blind s.waits (s.threads u).pc = true)
    (hcounter : s.sched.io.wakeCounter ≤ s'.sched.io.wakeCounter)
    (hcall : ∀ u, (s.threads u).call.wakes = true → (s'.threads u).call.wakes = true) :
    Watched s' w := by
  rintro hp ⟨u, hu⟩
  rcases h (hpending hp) ⟨u, by rw [← hinside]; exact hu⟩ with ⟨v, hin, hb⟩ | hc | ⟨v, hv⟩
  · refine Or.inl ⟨v, by rw [hinside]; exact hin, ?_⟩
    by_contra hb'
    rw [hblind v (by simpa using hb')] at hb
    exact absurd hb (by simp)
  · exact Or.inr (Or.inl (by omega))
  · exact Or.inr (Or.inr ⟨v, hcall v hv⟩)

/-- When the thread `t` is neither a runner afterwards nor about to wake anyone, the others
    cover what is pending unless they are all blind. -/
theorem Watched.of_others {waits : Bool} (hnot : ¬ OthersBlind s t waits w)
    (hpending : Watch.pending s' w → Watch.pending s w)
    (hout : (s'.threads t).pc.inside = false)
    (hinside : ∀ u, u ≠ t → (s'.threads u).pc.inside = (s.threads u).pc.inside)
    (hblind : ∀ u, u ≠ t → w.blind s'.waits (s'.threads u).pc = true →
      w.blind waits (s.threads u).pc = true)
    (hcounter : s.sched.io.wakeCounter ≤ s'.sched.io.wakeCounter)
    (hcall : ∀ u, u ≠ t → (s.threads u).call.wakes = true → (s'.threads u).call.wakes = true) :
    Watched s' w := by
  -- an uncovered state is exactly one in which the others are all blind
  rintro hp ⟨u, hu⟩
  by_contra hcov
  unfold Covered at hcov
  rw [not_or, not_or] at hcov
  obtain ⟨hawake, hcount, hcalls⟩ := hcov
  have hut : u ≠ t := by
    rintro rfl
    rw [hout] at hu
    exact absurd hu (by simp)
  refine hnot ⟨hpending hp, by omega, ⟨u, hut, by rw [← hinside u hut]; exact hu⟩, ?_, ?_⟩
  · intro v hv hin
    apply hblind v hv
    by_contra hb
    exact hawake ⟨v, by rw [hinside v hv]; exact hin, by simpa using hb⟩
  · intro v hv
    by_contra hc
    exact hcalls ⟨v, hcall v hv (by simpa using hc)⟩

/-! ### Positions after notifications -/

/-- Being woken up does not take a thread out of `run`. -/
theorem notifyAll_inside (s : ContextThread K n) (u : Fin n) :
    (s.notifyAll.threads u).pc.inside = (s.threads u).pc.inside := by
  rw [notifyAll_pc]
  split
  · rename_i h
    rw [h]; rfl
  · rfl

/-- Nor does it change what the thread will look at. -/
theorem notifyAll_blind (s : ContextThread K n) (waits : Bool) (w : Watch) (u : Fin n) :
    w.blind waits (s.notifyAll.threads u).pc = w.blind waits (s.threads u).pc := by
  rw [notifyAll_pc]
  split
  · rename_i h
    rw [h]
    cases w <;> rfl
  · rfl

/-- A runner moves to a position that is blind only if the one it comes from is. -/
theorem Watched.goto_blind (h : Watched s w) {s₁ : ContextThread K n} {pc : Pc}
    (hthreads : s₁.threads = s.threads) (hpending : Watch.pending s₁ w → Watch.pending s w)
    (hwaits : s₁.waits = true → s.waits = true)
    (hcounter : s.sched.io.wakeCounter ≤ s₁.sched.io.wakeCounter)
    (hin : (s.threads t).pc.inside = true) (hin' : pc.inside = true)
    (hb : w.blind s₁.waits pc = true → w.blind s.waits (s.threads t).pc = true) :
    Watched (s₁.goto t pc) w := by
  refine h.keep ?_ ?_ ?_ hcounter ?_
  · intro hp
    exact hpending (by cases w <;> exact hp)
  · intro u
    rw [goto_pc, hthreads]
    split
    · rename_i hu
      rw [hu, hin, hin']
    · rfl
  · intro u
    rw [goto_pc, hthreads]
    split
    · rename_i hu
      rw [hu]
      exact hb
    · exact Watch.blind_mono hwaits
  · intro u hu
    rw [goto_call, hthreads]
    exact hu

/-- A runner moves to a position from which it will look. -/
theorem watched_mapThread {f : Thread → Thread} (hin : (f (s.threads t)).pc.inside = true)
    (hb : ∀ waits, w.blind waits (f (s.threads t)).pc = false) : Watched (s.mapThread t f) w := by
  refine Watched.of_awake (t := t) ?_ ?_ <;> rw [mapThread_threads, if_pos rfl]
  · exact hin
  · exact hb _

/-- A thread that goes on to a position from which it will look again keeps watch. -/
theorem watched_goto {pc : Pc} (hin : pc.inside = true) (hb : ∀ waits, w.blind waits pc = false) :
    Watched (s.goto t pc) w :=
  watched_mapThread hin hb

/-! ### Steps -/

/-- A thread leaves, and no runner is stranded. -/
theorem leave_watched {f : Thread → Thread} (hnot : ¬ OthersBlind s t s.waits w)
    (hout : (f (s.notifyAll.threads t)).pc = .out) : Watched (s.notifyAll.mapThread t f) w := by
  refine Watched.of_others hnot ?_ ?_ ?_ ?_ (le_refl _) ?_
  · cases w <;> exact id
  · rw [mapThread_threads, if_pos rfl, hout]
    rfl
  · intro u hu
    rw [mapThread_threads, if_neg hu, notifyAll_inside]
  · intro u hu hb
    rw [mapThread_threads, if_neg hu, notifyAll_blind] at hb
    exact hb
  · intro u hu hc
    rw [mapThread_threads, if_neg hu, notifyAll_call]
    exact hc

/-- The cancellation phase leaves no cancelled operations. -/
theorem pollCancel_watched (h : Watched s w) (hinv : s.sched.Inv) {block : Bool} {sched : Sched K}
    {p : IoScheduler.CancelPhase} (hpc : (s.threads t).pc = .pollCancel block)
    (hpoll : s.sched.pollCancellations s.threadsWaiting = .ok (sched, p)) :
    Watched ((({ s with sched := sched }).enqueue p.posted).goto t
      (if p.returned then .guardNotify false
        else .announce block (block && decide (p.numCancelled = 0)))) w := by
  obtain ⟨c, hle, hspec⟩ := Sched.pollCancellations_eq hinv s.threadsWaiting
  rw [hspec, Except.ok.injEq, Prod.mk.injEq] at hpoll
  obtain ⟨rfl, rfl⟩ := hpoll
  -- with nothing active `poll_once` returns and the runner will look again
  by_cases hact : s.sched.io.activeSegment = []
  · simp only [hact, decide_true, if_true]
    exact watched_goto rfl (fun _ => by cases w <;> rfl)
  · simp only [hact, decide_false, Bool.false_eq_true, if_false]
    by_cases hforever : (block && decide (s.sched.io.cancelledSegment.length = 0)) = true
    · rw [hforever]
      rw [Bool.and_eq_true, decide_eq_true_eq, List.length_eq_zero_iff] at hforever
      obtain ⟨hblock, hcan⟩ := hforever
      -- the runner was blind already: there is something to wait for
      have hwaits : s.waits = true := by simp [waits, hact, hcan]
      rw [hcan]
      cases w with
      -- the queue was read before; the runner stays blind for it
      | queue =>
        refine h.goto_blind rfl id (fun _ => hwaits) hle (by rw [hpc]; rfl) rfl (fun _ => ?_)
        rw [hpc, hblock, hwaits]
        rfl
      -- the phase has just emptied the cancelled segment
      | cancelled =>
        refine .of_not_pending (fun hp => hp ?_)
        exact Cursor.back_none _
    · rw [Bool.not_eq_true] at hforever
      rw [hforever]
      exact watched_goto rfl (fun _ => by cases w <;> rfl)

/-- The steps inside `run`, `run_once` and `poll_once`. -/
theorem run_watched (hinv : s.sched.Inv) (h : Watched s w) {a : Act}
    (hok : ¬ StrandsFor s w (.thread t a)) (hs : RunStep M s t a s') : Watched s' w := by
  cases hs with
  -- from these positions the runner reads the queue before it can block
  | enterRun | enterRunOnce | handlerReturn | take | popFront | putBack =>
    exact watched_mapThread rfl (fun _ => by cases w <;> rfl)
  | testWait | testGo | evaluateTrue | evaluateFalse | sleep | spuriousWake | relock | drained
  | invoke | handlerThrow | epollReturn | epollFail | retireThrow | retire | putBackNone
  | exitWake =>
    exact watched_goto rfl (fun _ => by cases w <;> rfl)
  | loop hpc =>
    split <;> exact watched_goto rfl (fun _ => by cases w <;> rfl)
  -- the check itself: the runner goes blind only on an empty queue
  | readMore hpc hfree =>
    cases w with
    | cancelled => exact watched_goto rfl (fun _ => rfl)
    | queue =>
      cases hq : s.completionQueue with
      | nil => exact .of_not_pending (fun hp => hp hq)
      | cons x xs => exact watched_goto rfl (fun _ => rfl)
  | @checkScheduler more hpc =>
    split
    · exact watched_goto rfl (fun _ => by cases w <;> rfl)
    · cases w with
      | cancelled => exact watched_goto rfl (fun _ => rfl)
      | queue =>
        refine h.goto_blind rfl id id (le_refl _) (by rw [hpc]; rfl) rfl (fun hb => ?_)
        rw [hpc]
        exact hb
  | pollCancel hpc hfree hpoll hpost => exact pollCancel_watched h hinv hpc hpoll
  -- between the check and the sleep nothing changes but `threads_waiting`
  | @announce block forever hpc =>
    refine h.goto_blind rfl (by cases w <;> exact id) id (le_refl _) (by rw [hpc]; rfl) rfl ?_
    rw [hpc]
    cases w <;> exact id
  | notifications hpc hfree hpoll hpost =>
    split <;> exact watched_goto rfl (fun _ => by cases w <;> rfl)
  -- `run` goes round again; `run_once` and exceptions leave
  | @guardNotify thrown hpc =>
    by_cases hstay : thrown = false ∧ (s.threads t).inRun = true
    · refine watched_mapThread ?_ (fun _ => ?_) <;>
        simp only [notifyAll_inRun, hstay, and_self, if_true]
      · rfl
      · cases w <;> rfl
    · refine leave_watched (fun hb => hok (Or.inl ⟨hb, Or.inr (Or.inl ⟨rfl, ?_⟩)⟩)) ?_
      · cases thrown with
        | true => exact Or.inl hpc
        | false => exact Or.inr ⟨hpc, by simpa using hstay⟩
      · simp only [notifyAll_inRun, hstay, if_false]
  | exitNotify hpc =>
    exact leave_watched (fun hb => hok (Or.inl ⟨hb, Or.inr (Or.inr ⟨rfl, hpc⟩)⟩)) rfl

/-- A call that is not about to wake anyone begins. -/
theorem Watched.begin_call (h : Watched s w) {s₁ : ContextThread K n} {c : Call}
    (hcall : (s.threads t).call = .none) (hthreads : s₁.threads = s.threads)
    (hpending : Watch.pending s₁ w → Watch.pending s w)
    (hwaits : s₁.waits = true → s.waits = true)
    (hcounter : s.sched.io.wakeCounter ≤ s₁.sched.io.wakeCounter) : Watched (s₁.setCall t c) w := by
  refine h.keep (fun hp => hpending (by cases w <;> exact hp)) ?_ ?_ hcounter ?_
  · intro u
    rw [setCall_pc, hthreads]
  · intro u hb
    rw [setCall_pc, hthreads] at hb
    exact Watch.blind_mono hwaits hb
  · intro u hu
    -- the caller was in no call, so its new one takes no cover away
    rw [setCall_call, hthreads, if_neg]
    · exact hu
    · rintro rfl
      rw [hcall] at hu
      exact absurd hu (by simp [Call.wakes])

/-- A thread that makes a call in a handler looks again before it blocks. -/
theorem Watched.of_handler {s₁ : ContextThread K n} {c : Call} {op : AnyAsyncOperation}
    (hpc : (s₁.threads t).pc = .handler op) : Watched (s₁.setCall t c) w := by
  refine Watched.of_awake (t := t) ?_ ?_ <;> rw [setCall_pc]
  · exact congrArg Pc.inside hpc
  · rw [hpc]
    cases w <;> rfl

/-- `schedule` from outside gives the runners something to wait for; from a handler, the caller is
    a runner that will look. -/
theorem schedule_watched (hinv : s.sched.Inv) (huser : (s.threads t).pc.isUser = true)
    {op : AsyncIoOperation} (hok : ¬ StrandsFor s w (.thread t (.schedule op))) {sched : Sched K}
    {handed : List AnyAsyncOperation} {holder : Option (Fin n)} (hnew : op ∉ s.sched.scheduled)
    (hsched : s.sched.schedule M op = .ok sched) :
    Watched (({ s with sched := sched, handed := handed, schedMutex := holder }).setCall t
      .scheduleNotify) w := by
  obtain ⟨io, hio, rfl⟩ := Sched.schedule_cases hsched
  have hop : op ∉ s.sched.io.operations := fun hm => hnew (hinv.mem_operations hm)
  obtain ⟨-, hcan, -⟩ := IoScheduler.schedule_segments hinv.rep hop hio
  have hcounter : io.wakeCounter = s.sched.io.wakeCounter := by
    obtain ⟨_, _, _, -, rfl⟩ := IoScheduler.schedule_ok hinv.rep hio
    rfl
  cases hpc : (s.threads t).pc with
  | out =>
    refine Watched.of_others (s := s) (t := t)
      (fun hb => hok (Or.inr ⟨hb, rfl, hpc⟩)) ?_ ?_ ?_ ?_ hcounter.ge ?_
    · -- `schedule` inserts in the active segment
      cases w with
      | queue => exact id
      | cancelled =>
        intro hp he
        exact hp (hcan.trans he)
    · rw [setCall_pc]
      exact congrArg Pc.inside hpc
    · intro u hu
      rw [setCall_pc]
    · intro u hu hb
      rw [setCall_pc] at hb
      refine Watch.blind_mono (fun hw => ?_) hb
      have hw' : (!io.activeSegment.isEmpty && io.cancelledSegment.isEmpty) = true := hw
      rw [hcan, Bool.and_eq_true] at hw'
      exact hw'.2
    · intro u hu hc
      rw [setCall_call, if_neg hu]
      exact hc
  | handler x => exact Watched.of_handler hpc
  | _ => rw [hpc] at huser; exact absurd huser (by simp [Pc.isUser])

/-- The first step of an API call. -/
theorem call_watched (hinv : s.sched.Inv) (h : Watched s w) {a : Act}
    (hok : ¬ StrandsFor s w (.thread t a)) (huser : (s.threads t).pc.isUser = true)
    (hcall : (s.threads t).call = .none) (hs : CallStep M s t a s') : Watched s' w := by
  cases hs with
  -- `post` and `cancel` are about to wake the runners
  | post hfree hnew => exact .of_call (t := t) (by simp [Call.wakes])
  | cancel hfree hcancel => exact .of_call (t := t) (by simp [Call.wakes])
  | schedule hfree hnew hsched => exact schedule_watched hinv huser hok hnew hsched
  | cancelNothing hcancel =>
    obtain ⟨io, hio, rfl⟩ := Sched.cancel_cases hcancel
    obtain ⟨lo, eq, hi, -, ⟨-, rfl, -⟩ | ⟨-, -, -, hfound⟩⟩ :=
      IoScheduler.cancelSection_ok hinv.rep hio
    · exact h.keep (by cases w <;> exact id) (fun _ => rfl) (fun _ => id) (le_refl _) (fun _ hu => hu)
    · exact absurd hfound (by simp)
  | latchWork =>
    exact h.keep (by cases w <;> exact id) (fun _ => rfl) (fun _ => id) (le_refl _) (fun _ hu => hu)
  | releaseWork hpos => exact h.begin_call hcall rfl (by cases w <;> exact id) id (le_refl _)

/-- A call that is not about to wake anyone goes on; the wake event may have been written. -/
theorem Watched.setCall (h : Watched s w) {s₁ : ContextThread K n} {c : Call}
    (hpc : ∀ u, (s₁.threads u).pc.inside = (s.threads u).pc.inside ∧
      (w.blind s₁.waits (s₁.threads u).pc = true → w.blind s.waits (s.threads u).pc = true))
    (hcalls : ∀ u, (s₁.threads u).call = (s.threads u).call)
    (hpending : Watch.pending s₁ w → Watch.pending s w)
    (hcounter : s.sched.io.wakeCounter ≤ s₁.sched.io.wakeCounter)
    (hcall : (s.threads t).call.wakes = false) : Watched (s₁.setCall t c) w := by
  refine h.keep (fun hp => hpending (by cases w <;> exact hp)) ?_ ?_ hcounter ?_
  · intro u
    rw [setCall_pc]
    exact (hpc u).1
  · intro u hb
    rw [setCall_pc] at hb
    exact (hpc u).2 hb
  · intro u hu
    rw [setCall_call, hcalls, if_neg]
    · exact hu
    · rintro rfl
      rw [hcall] at hu
      exact absurd hu (by simp)

/-- A `post` or `cancel` writes the wake event. -/
theorem wake_watched {c : Call} (hok : ¬ StrandsFor s w (.thread t .callWake))
    (huser : (s.threads t).pc.isUser = true) (hcall : (s.threads t).call.wakes = true) :
    Watched (s.wake.setCall t c) w := by
  -- the written value is `threads_waiting`, converted to 32 bits
  by_cases htw : s.threadsWaiting % 2 ^ 32 = 0
  · cases hpc : (s.threads t).pc with
    | out =>
      refine Watched.of_others (s := s) (t := t)
        (fun hb => hok (Or.inl ⟨hb, Or.inl ⟨rfl, hcall, hpc, htw⟩⟩))
        (by cases w <;> exact id) ?_ ?_ ?_ (Nat.le_add_right _ _) ?_
      · rw [setCall_pc]
        exact congrArg Pc.inside hpc
      · intro u hu
        rw [setCall_pc]
        rfl
      · intro u hu hb
        rw [setCall_pc] at hb
        exact hb
      · intro u hu hc
        rw [setCall_call, if_neg hu]
        exact hc
    | handler op => exact Watched.of_handler hpc
    | _ => rw [hpc] at huser; exact absurd huser (by simp [Pc.isUser])
  · -- the event becomes readable
    intro _ _
    refine Or.inr (Or.inl ?_)
    show 0 < s.sched.io.wakeCounter + s.threadsWaiting % 2 ^ 32
    omega

/-- The later steps of an API call. -/
theorem rest_watched (h : Watched s w) {a : Act} (hok : ¬ StrandsFor s w (.thread t a))
    (huser : (s.threads t).call ≠ .none → (s.threads t).pc.isUser = true) (hs : CallRest s t a s') :
    Watched s' w := by
  have hwake : s.sched.io.wakeCounter ≤ s.wake.sched.io.wakeCounter := Nat.le_add_right _ _
  cases hs with
  | postWake hcall | cancelWake hcall =>
    exact wake_watched hok (huser (by rw [hcall]; simp)) (by rw [hcall]; rfl)
  | releaseWake hcall =>
    exact h.setCall (fun _ => ⟨rfl, id⟩) (fun _ => rfl) (by cases w <;> exact id) hwake
      (by rw [hcall]; rfl)
  | postNotify hcall | scheduleNotify hcall | cancelNotify hcall | releaseNotify hcall =>
    refine h.setCall (fun u => ⟨notifyAll_inside _ u, ?_⟩)
      (fun u => notifyAll_call _ u) (by cases w <;> exact id) (le_refl _) (by rw [hcall]; rfl)
    rw [notifyAll_blind]
    exact id

/-! ### Calls are made by user code -/

/-- A thread that is in a call runs user code. -/
def CallsInUser (s : ContextThread K n) : Prop :=
  ∀ u, (s.threads u).call ≠ .none → (s.threads u).pc.isUser = true

/-- Calls are made from user code only. -/
theorem step_callsInUser (h : CallsInUser s) {l : Label K n} (hs : Step M s l s') :
    CallsInUser s' := by
  -- sleepers are in no call, so waking them up changes nothing
  have hwoken : ∀ u, (s.threads u).call ≠ .none → (s'.threads u).pc = (s.threads u).pc ∨
      ((s.threads u).pc = .asleep ∧ (s'.threads u).pc = .woken) →
      (s'.threads u).pc.isUser = true := by
    intro u hu hpc
    rcases hpc with heq | ⟨heq, -⟩
    · rw [heq]
      exact h u hu
    · have := h u hu
      rw [heq] at this
      exact absurd this (by simp [Pc.isUser])
  cases hs with
  | @run t a _ hlive hcall hs =>
    obtain ⟨hcalls, hpc⟩ := hs.frame
    intro u hu
    rw [hcalls] at hu
    exact hwoken u hu (hpc u (by rintro rfl; exact hu hcall))
  | @call t a _ hlive hcall huser hs =>
    obtain ⟨hpc, hcalls⟩ := hs.frame
    intro u hu
    rw [hpc]
    by_cases hut : u = t
    · rw [hut]
      exact huser
    · rw [hcalls u hut] at hu
      exact h u hu
  | @rest t a _ hlive hs =>
    obtain ⟨hcall, hpc, hcalls⟩ := hs.frame
    intro u hu
    by_cases hut : u = t
    · subst hut
      exact hwoken u hcall (hpc u)
    · rw [hcalls u hut] at hu
      exact hwoken u hu (hpc u)
  | destroy | kernel | forget => exact h

/-! ### Runs -/

/-- **The step lemma** for what is watched, in runs whose steps strand nothing. -/
theorem step_watched (hres : s.ResultInv) (huser : CallsInUser s) (h : Watched s w) {l : Label K n}
    (hok : ¬ Strands s l) (hs : Step M s l s') : Watched s' w := by
  have hok' : ¬ StrandsFor s w l := fun hb => hok (strands_of hb)
  cases hs with
  | run hlive hcall hs => exact run_watched (hres.live hlive) h hok' hs
  | call hlive hcall huser hs => exact call_watched (hres.live hlive) h hok' huser hcall hs
  | @rest t a _ hlive hs => exact rest_watched h hok' (huser t) hs
  -- nobody is inside when the destructor runs
  | destroy hlive hout =>
    rintro _ ⟨u, hu⟩
    have hu' : (s.threads u).pc.inside = true := hu
    rw [(hout u).1] at hu'
    exact absurd hu' (by simp [Pc.inside])
  | kernel | forget =>
    exact h.keep (by cases w <;> exact id) (fun _ => rfl) (fun _ => id) (le_refl _) (fun _ hu => hu)

/-- Along a run without stranding steps everything pending is covered. -/
theorem reach_watched (h : Reach M (fun s l => ¬ Strands s l) s) (w : Watch) : Watched s w := by
  have hall : s.ResultInv ∧ CallsInUser s ∧ Watched s w := by
    refine Transition.Reach.invariant (fun s => s.ResultInv ∧ CallsInUser s ∧ Watched s w) ?_ ?_ h
    · intro s hi
      refine ⟨init_resultInv hi, ?_, ?_⟩ <;> rw [hi.2]
      · intro u hu
        exact absurd rfl hu
      · rintro _ ⟨u, hu⟩
        exact absurd hu (by simp [idle, Pc.inside])
    · rintro s l s' ⟨hres, huser, hw⟩ hok hs
      have hs' := next_cases hs
      exact ⟨step_resultInv hres hs', step_callsInUser huser hs', step_watched hres huser hw hok hs'⟩
  exact hall.2.2

/-- A wake-up is lost: there are runners, all of them are blocked in `epoll_pwait` without a
    timeout, no `post` or `cancel` is in progress, the wake event is not readable, and there are
    completions or cancelled operations. -/
def LostWakeUp (s : ContextThread K n) : Prop :=
  (∃ u, (s.threads u).pc.inside = true) ∧
    (∀ u, (s.threads u).pc.inside = true → ∃ block, (s.threads u).pc = .polling block true) ∧
    (∀ u, (s.threads u).call ≠ .postWake ∧ (s.threads u).call ≠ .postNotify ∧
      (s.threads u).call ≠ .cancelWake ∧ (s.threads u).call ≠ .cancelNotify) ∧
    s.sched.io.wakeCounter = 0 ∧ (s.completionQueue ≠ [] ∨ s.sched.io.cancelledSegment ≠ [])

/-- **No lost wake-up** in runs without stranding steps. -/
theorem no_lost_wakeup (h : Reach M (fun s l => ¬ Strands s l) s) : ¬ LostWakeUp s := by
  rintro ⟨hin, hblocked, hcalls, hcounter, hpending⟩
  obtain ⟨w, hw⟩ : ∃ w, Watch.pending s w := by
    rcases hpending with hq | hc
    · exact ⟨.queue, hq⟩
    · exact ⟨.cancelled, hc⟩
  rcases reach_watched h w hw hin with ⟨u, hu, hb⟩ | hc | ⟨u, hu⟩
  · obtain ⟨block, hpc⟩ := hblocked u hu
    rw [hpc] at hb
    cases w <;> exact absurd hb (by simp [Watch.blind])
  · omega
  · obtain ⟨hpost, -, hcancel, -⟩ := hcalls u
    cases hc : (s.threads u).call with
    | postWake => exact hpost hc
    | cancelWake => exact hcancel hc
    | _ => rw [hc] at hu; exact absurd hu (by simp [Call.wakes])

instance (s : ContextThread K n) : Decidable (LostWakeUp s) :=
  inferInstanceAs (Decidable (_ ∧ _))

/-- A thread waits on a descriptor; a runner enters `run_once` and makes its checks. -/
def checkThenBlock (runner other : Fin n) : List (Label Unit n) :=
  [.thread other (.schedule ⟨1, 5, .signalRead⟩), .thread other .callNotify,
    .thread runner .enterRunOnce, .thread runner .take, .thread runner .drain,
    .thread runner .readMore, .thread runner .checkScheduler, .thread runner .pollCancel]

/-- A whole `post`. -/
def postBy (t : Fin n) : List (Label Unit n) :=
  [.thread t (.post 2), .thread t .callWake, .thread t .callNotify]

/-- A `post` after the runner has announced itself is not lost. -/
theorem post_after_announce_kept :
    ∃ s : ContextThread Unit 2, (s.threads 0).pc = .polling true true ∧ s.completionQueue ≠ [] ∧
      ¬ LostWakeUp s := by
  have hrun : ∃ s, Reach quietKernel (fun s l => ¬ Strands s l) s ∧
      decide ((s.threads 0).pc = .polling true true ∧ s.completionQueue ≠ []) = true :=
    Transition.exists_reach (quietContext_init 2)
      (checkThenBlock 0 1 ++ [.thread 0 .announce] ++ postBy 1) _ (by decide)
  obtain ⟨s, hs, hp⟩ := hrun
  have hp' := of_decide_eq_true hp
  exact ⟨s, hp'.1, hp'.2, no_lost_wakeup hs⟩

/-- A `post` between the runner's checks and its announcement is lost. -/
theorem post_before_announce_lost :
    ¬ ∀ s : ContextThread Unit 2, Reach quietKernel Transition.always s → ¬ LostWakeUp s := by
  intro hall
  have hrun : ∃ s, Reach quietKernel Transition.always s ∧ decide (LostWakeUp s) = true :=
    Transition.exists_reach (quietContext_init 2)
      (checkThenBlock 0 1 ++ postBy 1 ++ [.thread 0 .announce]) _ (by decide)
  obtain ⟨s, hs, hlost⟩ := hrun
  exact hall s hs (of_decide_eq_true hlost)

end ContextThread

end Exios
