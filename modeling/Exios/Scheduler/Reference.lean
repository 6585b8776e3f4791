import Exios.Scheduler.Attempts

namespace Exios

open Search (lowerBound)

/-!
# Scheduler — refinement of a naive scheduler

What the sorted list is for, without it: the *reference* scheduler keeps the active operations
in the order they were scheduled, scans all of them for the descriptor of an event or of a
`cancel`, and posts the cancelled ones at the next poll, those of the latest `cancel` first.

* `Reference` and its members — the reference scheduler;
* `Sim` — the simulation relation: both have the same operations on every descriptor, in the
  same order (the orders across descriptors differ);
* `step_sim` — every step of the scheduler is one of the reference scheduler;
* `refines_reference` — along every run both attempt and post the same, and the binary searches
  find what the scans find.
-/

/-- The reference scheduler, with the history of a run. -/
structure Reference (K : Type) where
  /-- Active operations, in schedule order. -/
  active : List AsyncIoOperation
  /-- Cancelled operations: those of the latest `cancel` first. -/
  cancelled : List AsyncIoOperation
  kernel : K
  wakeFd : Int
  posted : List AsyncIoOperation
  attempts : List (IoScheduler.Attempt K)

namespace Reference

variable {K : Type}

/-- Nothing scheduled. -/
def init (wakeFd : Int) (k : K) : Reference K := ⟨[], [], k, wakeFd, [], []⟩

/-- One `perform_io` call, if the event is for the operation's direction. -/
def attempt (M : Kernel K) (mask : Events) (r : Reference K) (op : AsyncIoOperation) :
    Reference K :=
  if IoScheduler.Selects mask op then
    let r₁ := { r with
      kernel := (M.syscall op r.kernel).2
      attempts := r.attempts ++ [⟨op, r.kernel, none⟩] }
    match io op.kind (M.syscall op r.kernel).1 none with
    | .ok (true, _) =>
      { r₁ with active := r.active.filter (fun a => decide (a ≠ op)), posted := r.posted ++ [op] }
    | _ => r₁
  else r

/-- An event: scan all active operations for its descriptor. -/
def event (M : Kernel K) (r : Reference K) (ev : EpollEvent) : Reference K :=
  if ev.fd = r.wakeFd then r
  else
    r.active.foldl (fun r op => if op.fd = ev.fd then r.attempt M ev.events op else r) r

/-- One step. -/
def step (M : Kernel K) (r : Reference K) : SchedAct K → Reference K
  | .schedule op => { r with active := r.active ++ [op] }
  | .cancel fd _ =>
    { r with
      active := r.active.filter (fun a => decide (a.fd ≠ fd))
      cancelled := r.active.filter (fun a => decide (a.fd = fd)) ++ r.cancelled }
  | .pollCancellations _ => { r with posted := r.posted ++ r.cancelled, cancelled := [] }
  | .pollNotifications events _ => events.foldl (event M) r
  | .kernel k => { r with kernel := k }
  | .wake _ => r
  | .forget _ => r

/-- The reference scheduler after a run. -/
def run (M : Kernel K) (wakeFd : Int) (k : K) (as : List (SchedAct K)) : Reference K :=
  as.foldl (step M) (init wakeFd k)

/-- The scan only meets the operations on the descriptor. -/
theorem event_eq {M : Kernel K} {r : Reference K} {ev : EpollEvent} (hfd : ev.fd ≠ r.wakeFd) :
    r.event M ev
      = (r.active.filter (fun a => decide (a.fd = ev.fd))).foldl (attempt M ev.events) r := by
  rw [event, if_neg hfd, List.foldl_filter]
  simp only [decide_eq_true_eq]

/-- An attempt leaves the cancelled operations and the wake event alone. -/
theorem attempt_frame (M : Kernel K) (mask : Events) (r : Reference K) (op : AsyncIoOperation) :
    (r.attempt M mask op).cancelled = r.cancelled ∧ (r.attempt M mask op).wakeFd = r.wakeFd := by
  unfold attempt
  split
  · dsimp only
    split <;> exact ⟨rfl, rfl⟩
  · exact ⟨rfl, rfl⟩

/-- Attempts leave the cancelled operations and the wake event's descriptor alone. -/
theorem foldl_attempt_frame (M : Kernel K) (mask : Events) (items : List AsyncIoOperation)
    (r : Reference K) :
    (items.foldl (attempt M mask) r).cancelled = r.cancelled ∧
      (items.foldl (attempt M mask) r).wakeFd = r.wakeFd := by
  induction items generalizing r with
  | nil => exact ⟨rfl, rfl⟩
  | cons op items ih =>
    obtain ⟨hcan, hwake⟩ := ih (r.attempt M mask op)
    obtain ⟨hcan₁, hwake₁⟩ := attempt_frame M mask r op
    exact ⟨hcan.trans hcan₁, hwake.trans hwake₁⟩

/-- What attempts take off the active operations is what they post. -/
theorem foldl_attempt_active (M : Kernel K) (mask : Events) (items : List AsyncIoOperation)
    (r : Reference K) :
    ∃ done, (items.foldl (attempt M mask) r).posted = r.posted ++ done ∧
      (items.foldl (attempt M mask) r).active = r.active.filter (fun a => decide (a ∉ done)) := by
  induction items generalizing r with
  | nil => exact ⟨[], by simp, by simp⟩
  | cons op items ih =>
    obtain ⟨done, hposted, hactive⟩ := ih (r.attempt M mask op)
    -- an attempt completes its operation, or nothing
    have hone : (r.attempt M mask op).posted = r.posted ∧ (r.attempt M mask op).active = r.active ∨
        (r.attempt M mask op).posted = r.posted ++ [op] ∧
          (r.attempt M mask op).active = r.active.filter (fun a => decide (a ≠ op)) := by
      unfold attempt
      split
      · dsimp only
        split
        · exact Or.inr ⟨rfl, rfl⟩
        · exact Or.inl ⟨rfl, rfl⟩
      · exact Or.inl ⟨rfl, rfl⟩
    rw [List.foldl_cons]
    rcases hone with ⟨hp, ha⟩ | ⟨hp, ha⟩
    · exact ⟨done, by rw [hposted, hp], by rw [hactive, ha]⟩
    · refine ⟨op :: done, by rw [hposted, hp]; simp, ?_⟩
      rw [hactive, ha, List.filter_filter]
      refine List.filter_congr (fun x _ => ?_)
      by_cases hx : x = op <;> by_cases hd : x ∈ done <;> simp [hx, hd]

end Reference

/-! ### The rounds of the loop -/

namespace IoScheduler

variable {K : Type} {M : Kernel K} {tw : Nat}

/-- The variables of `process_notifications` that both schedulers have, when `posted` and
    `attempts` of the run before the section are given. -/
structure SameOutput (posted : List AsyncIoOperation) (attempts : List (Attempt K))
    (st : Notify K) (r : Reference K) : Prop where
  kernel : r.kernel = st.kernel
  posted_eq : r.posted = posted ++ st.posted
  attempts_eq : r.attempts = attempts ++ st.attempts

variable {posted : List AsyncIoOperation} {attempts : List (Attempt K)}

/-- A round is an attempt. -/
theorem ItemStep.sameOutput {mask : Events} {item : AsyncIoOperation} {st st' : Notify K}
    {r : Reference K} (hout : SameOutput posted attempts st r) (h : ItemStep M mask item st st') :
    SameOutput posted attempts st' (r.attempt M mask item) := by
  obtain ⟨hkernel, hposted, hattempts⟩ := hout
  unfold Reference.attempt
  cases h with
  | skipped hsel =>
    rw [if_neg hsel]
    exact ⟨hkernel, hposted, hattempts⟩
  | pending hsel hio =>
    rw [if_pos hsel, hkernel, hio]
    exact ⟨rfl, hposted, by simp [Notify.attempted, hattempts]⟩
  | stored hsel hio =>
    rw [if_pos hsel, hkernel, hio]
    exact ⟨rfl, by simp [Notify.completed, hposted],
      by simp [Notify.completed, Notify.attempted, hattempts]⟩

/-- The loop over the operations of an event makes the attempts of the reference, one by one. -/
theorem LoopRun.sameOutput {mask : Events} {items : List AsyncIoOperation} {st st' : Notify K}
    {r : Reference K} (hout : SameOutput posted attempts st r) (h : LoopRun M mask items st st') :
    SameOutput posted attempts st' (items.foldl (Reference.attempt M mask) r) := by
  induction h generalizing r with
  | nil => exact hout
  | cons _ _ hstep _ ih => exact ih (hstep.sameOutput hout)

/-- The relation between the variables of `process_notifications` and the reference. -/
structure NotifySim (posted : List AsyncIoOperation) (attempts : List (Attempt K))
    (st : Notify K) (r : Reference K) : Prop extends SameOutput posted attempts st r where
  group : ∀ fd, r.active.filter (fun a => decide (a.fd = fd)) = st.sched.activeOn fd
  cancelled : r.cancelled = st.sched.cancelledSegment
  wakeFd : r.wakeFd = st.sched.wakeFd

/-- **One event.**  Both schedulers attempt the operations on the descriptor in the same order. -/
theorem processEvent_sim {ev : EpollEvent} {st st' : Notify K} {log : List AsyncIoOperation}
    {r : Reference K} (hinv : st.sched.Inv log st.total) (hsim : NotifySim posted attempts st r)
    (h : processEvent M tw ev st = .ok st') : NotifySim posted attempts st' (r.event M ev) := by
  by_cases hfd : ev.fd = st.sched.wakeFd
  · rw [processEvent, if_pos hfd, Except.ok.injEq] at h
    subst h
    rw [Reference.event, if_pos (hfd.trans hsim.wakeFd.symm)]
    exact ⟨⟨hsim.kernel, hsim.posted_eq, hsim.attempts_eq⟩, hsim.group, hsim.cancelled, hsim.wakeFd⟩
  · obtain ⟨done, hdone⟩ := processEvent_completed hinv h
    obtain ⟨st₁, reg, total, hrun, hst'⟩ := processEvent_loop hinv hfd h
    rw [Reference.event_eq (fun he => hfd (he.trans hsim.wakeFd)), hsim.group]
    have hout := hrun.sameOutput hsim.toSameOutput
    obtain ⟨hcan, hwake⟩ :=
      Reference.foldl_attempt_frame M ev.events (st.sched.activeOn ev.fd) r
    obtain ⟨done', hposted', hactive'⟩ :=
      Reference.foldl_attempt_active M ev.events (st.sched.activeOn ev.fd) r
    -- both posted the same operations, so both lost the same ones
    have hsame : done' = done := by
      have hboth : posted ++ st.posted ++ done' = posted ++ st.posted ++ done := by
        rw [← hsim.posted_eq, ← hposted', hout.posted_eq, hsim.posted_eq]
        have : st₁.posted = st.posted ++ done := by
          rw [← hdone.posted, hst']
        rw [this, List.append_assoc]
      exact List.append_cancel_left hboth
    refine ⟨⟨?_, ?_, ?_⟩, ?_, ?_, ?_⟩
    · rw [hout.kernel, hst']
    · rw [hout.posted_eq, hst']
    · rw [hout.attempts_eq, hst']
    · intro fd
      rw [hactive', hsame, List.filter_comm, hsim.group fd, activeOn, activeOn, hdone.active,
        List.filter_comm]
    · rw [hcan, hsim.cancelled, hdone.cancelled]
    · rw [hwake, hsim.wakeFd, hdone.wakeFd]

/-- A batch makes the steps of the reference, event by event. -/
theorem processNotifications_sim {events : List EpollEvent} {st st' : Notify K}
    {log : List AsyncIoOperation} {r : Reference K} (hinv : st.sched.Inv log st.total)
    (hsim : NotifySim posted attempts st r)
    (h : processNotifications M tw events st = .ok st') :
    NotifySim posted attempts st' (events.foldl (Reference.event M) r) := by
  induction events generalizing st r with
  | nil =>
    rw [processNotifications, Except.ok.injEq] at h
    exact h ▸ hsim
  | cons ev events ih =>
    obtain ⟨st₁, hev, hrest⟩ := processNotifications_cons.mp h
    obtain ⟨done, hdone⟩ := processEvent_completed hinv hev
    exact ih (hdone.inv hinv) (processEvent_sim hinv hsim hev) hrest

/-! ### What a batch leaves alone -/

/-- An event attempts operations on its descriptor only. -/
theorem processEvent_attempts {ev : EpollEvent} {st st' : Notify K} {log : List AsyncIoOperation}
    (hinv : st.sched.Inv log st.total) (h : processEvent M tw ev st = .ok st') :
    ∃ new, st'.attempts = st.attempts ++ new ∧ ∀ a ∈ new, a.op.fd = ev.fd := by
  by_cases hfd : ev.fd = st.sched.wakeFd
  · rw [processEvent, if_pos hfd, Except.ok.injEq] at h
    subst h
    exact ⟨[], by simp, by simp⟩
  · obtain ⟨st₁, reg, total, hrun, rfl⟩ := processEvent_loop hinv hfd h
    obtain ⟨new, happ, hnew⟩ := hrun.attempts
    exact ⟨new, happ, fun a ha => of_decide_eq_true (List.mem_filter.mp (hnew a ha)).2⟩

/-- An event keeps the operations on other descriptors in place. -/
theorem processEvent_others {ev : EpollEvent} {st st' : Notify K} {log : List AsyncIoOperation}
    (hinv : st.sched.Inv log st.total) (h : processEvent M tw ev st = .ok st')
    (p : AsyncIoOperation → Bool) (hp : ∀ a, p a = true → a.fd ≠ ev.fd) :
    st'.sched.activeSegment.filter p = st.sched.activeSegment.filter p := by
  rcases processEvent_ok hinv h with ⟨-, rfl⟩ | ⟨-, done, kept, hspec⟩
  · rfl
  · rw [hspec.completed.active, List.filter_filter]
    refine List.filter_congr (fun a _ => ?_)
    by_cases hpa : p a = true
    · -- completed operations are on the event's descriptor
      have hnot : a ∉ done := by
        intro hd
        have hmem := hspec.perm.mem_iff.mpr (List.mem_append_left kept hd)
        exact hp a hpa (of_decide_eq_true (List.mem_filter.mp hmem).2)
      simp [hpa, hnot]
    · simp [hpa]

/-- A batch attempts and posts only operations on the descriptors that it reports, and leaves the
    line of every other descriptor as it is. -/
theorem processNotifications_confined {events : List EpollEvent} {st st' : Notify K}
    {log : List AsyncIoOperation} (hinv : st.sched.Inv log st.total)
    (h : processNotifications M tw events st = .ok st') (p : AsyncIoOperation → Bool)
    (hp : ∀ a, p a = true → ∀ ev ∈ events, a.fd ≠ ev.fd) :
    (∃ new, st'.attempts = st.attempts ++ new ∧ ∀ a ∈ new, ∃ ev ∈ events, a.op.fd = ev.fd) ∧
      st'.sched.activeSegment.filter p = st.sched.activeSegment.filter p := by
  induction events generalizing st with
  | nil =>
    rw [processNotifications, Except.ok.injEq] at h
    subst h
    exact ⟨⟨[], by simp, by simp⟩, rfl⟩
  | cons ev events ih =>
    obtain ⟨st₁, hev, hrest⟩ := processNotifications_cons.mp h
    obtain ⟨done, hdone⟩ := processEvent_completed hinv hev
    obtain ⟨new₁, happ₁, hnew₁⟩ := processEvent_attempts hinv hev
    have hothers := processEvent_others hinv hev p (fun a ha => hp a ha ev (by simp))
    obtain ⟨⟨new, happ, hnew⟩, hkeep⟩ :=
      ih (hdone.inv hinv) hrest (fun a ha e he => hp a ha e (by simp [he]))
    -- the later events are on descriptors that the filter leaves out as well
    refine ⟨⟨new₁ ++ new, by rw [happ, happ₁, List.append_assoc], ?_⟩, hkeep.trans hothers⟩
    intro a ha
    rcases List.mem_append.mp ha with ha | ha
    · exact ⟨ev, by simp, hnew₁ a ha⟩
    · obtain ⟨e, he, hfd⟩ := hnew a ha
      exact ⟨e, by simp [he], hfd⟩

end IoScheduler

/-! ### Runs -/

namespace Sched

variable {K : Type} {M : Kernel K} {s s' : Sched K}

/-- The simulation relation. -/
structure Sim (s : Sched K) (r : Reference K) : Prop where
  inv : s.Inv
  group : ∀ fd, r.active.filter (fun a => decide (a.fd = fd)) = s.io.activeOn fd
  cancelled : r.cancelled = s.io.cancelledSegment
  kernel : r.kernel = s.kernel
  wakeFd : r.wakeFd = s.io.wakeFd
  posted : r.posted = s.posted
  attempts : r.attempts = s.attempts

/-- A constructed scheduler is the reference's initial state. -/
theorem init_sim (wakeFd : Int) (k : K) :
    Sim (⟨IoScheduler.init wakeFd, k, [], [], [], []⟩ : Sched K) (Reference.init wakeFd k) :=
  ⟨init_inv ⟨wakeFd, k, rfl⟩, fun _ => rfl, rfl, rfl, rfl, rfl, rfl⟩

/-- **Every step is one of the reference scheduler.** -/
theorem step_sim {r : Reference K} {a : SchedAct K} (hsim : Sim s r) (h : step M s a = some s') :
    Sim s' (r.step M a) := by
  have hinv' := step_inv hsim.inv h
  cases a with
  | schedule op =>
    obtain ⟨hnew, hs⟩ := step_schedule.mp h
    obtain ⟨hcan, hwake⟩ := schedule_cancelledSegment hsim.inv hnew hs
    have hgroup := schedule_activeOn hsim.inv hnew hs
    obtain ⟨io, -, rfl⟩ := schedule_cases hs
    refine ⟨hinv', ?_, hsim.cancelled.trans hcan.symm, hsim.kernel, hsim.wakeFd.trans hwake.symm,
      hsim.posted, hsim.attempts⟩
    -- on its descriptor the operation comes last, on the others nothing changes
    intro fd
    rw [hgroup fd, ← hsim.group fd, ← List.filter_append]
    rfl
  | cancel fd fuel =>
    obtain ⟨found, hs⟩ := step_cancel.mp h
    obtain ⟨hact, hcan, hwake⟩ := cancel_segments hsim.inv hs
    obtain ⟨io, -, rfl⟩ := cancel_cases hs
    refine ⟨hinv', ?_, ?_, hsim.kernel, hsim.wakeFd.trans hwake.symm, hsim.posted, hsim.attempts⟩
    · -- the lines of the other descriptors stay, the one of `fd` is struck
      intro fd'
      show (r.active.filter _).filter _ = _
      rw [IoScheduler.activeOn, hact, List.filter_comm, hsim.group fd', IoScheduler.activeOn,
        List.filter_comm]
    · show r.active.filter _ ++ r.cancelled = _
      rw [hcan, hsim.group fd, hsim.cancelled]
  | pollCancellations tw =>
    obtain ⟨p, hp⟩ := step_pollCancellations.mp h
    obtain ⟨w, rfl⟩ := pollCancellations_cases hsim.inv hp
    refine ⟨hinv', ?_, ?_, hsim.kernel, hsim.wakeFd, ?_, hsim.attempts⟩
    · -- posting what is struck leaves the lines alone
      intro fd
      show r.active.filter _ = _
      rw [hsim.group fd]
      simp [IoScheduler.activeOn, IoScheduler.activeSegment]
    · simp [Reference.step, IoScheduler.cancelledSegment]
    · show r.posted ++ r.cancelled = _
      rw [hsim.posted, hsim.cancelled]
  | pollNotifications events tw =>
    obtain ⟨n, hn⟩ := step_pollNotifications.mp h
    obtain ⟨st, done, hst, -, rfl, rfl⟩ := pollNotifications_cases hsim.inv hn
    have hstart : IoScheduler.NotifySim s.posted s.attempts (.start s.io s.kernel) r :=
      ⟨⟨hsim.kernel, hsim.posted.trans (List.append_nil _).symm,
        hsim.attempts.trans (List.append_nil _).symm⟩, hsim.group, hsim.cancelled, hsim.wakeFd⟩
    have hend := IoScheduler.processNotifications_sim
      (hsim.inv.rep.start s.kernel) hstart hst
    exact ⟨hinv', hend.group, hend.cancelled, hend.kernel, hend.wakeFd, hend.posted_eq,
      hend.attempts_eq⟩
  | wake tw =>
    rw [step, Option.some.injEq] at h
    subst h
    exact ⟨hinv', hsim.group, hsim.cancelled, hsim.kernel, hsim.wakeFd, hsim.posted, hsim.attempts⟩
  | kernel k =>
    rw [step, Option.some.injEq] at h
    subst h
    exact ⟨hinv', hsim.group, hsim.cancelled, rfl, hsim.wakeFd, hsim.posted, hsim.attempts⟩
  | forget fd =>
    rw [step, Option.some.injEq] at h
    subst h
    exact ⟨hinv', hsim.group, hsim.cancelled, hsim.kernel, hsim.wakeFd, hsim.posted, hsim.attempts⟩

/-- What a notification phase leaves alone: it attempts operations on the descriptors of its
    events only, keeps all others in place, and counts what it posts. -/
structure Confined (s s' : Sched K) (n : IoScheduler.Notify K) (events : List EpollEvent) :
    Prop where
  attempts : ∀ a ∈ n.attempts, ∃ ev ∈ events, a.op.fd = ev.fd
  others : s'.io.activeSegment.filter (fun a => decide (∀ ev ∈ events, a.fd ≠ ev.fd))
    = s.io.activeSegment.filter (fun a => decide (∀ ev ∈ events, a.fd ≠ ev.fd))
  count : n.total = n.posted.length

/-- So does the second section of `poll_once`: everything that it does is on the descriptors that
    were reported. -/
theorem pollNotifications_confined (hinv : s.Inv) {tw : Nat} {events : List EpollEvent}
    {n : IoScheduler.Notify K} (h : s.pollNotifications M tw events = .ok (s', n)) :
    Confined s s' n events := by
  obtain ⟨st, done, hst, hdone, rfl, rfl⟩ := pollNotifications_cases hinv h
  obtain ⟨⟨new, happ, hnew⟩, hothers⟩ := IoScheduler.processNotifications_confined
    (hinv.rep.start s.kernel) hst
    (fun a => decide (∀ ev ∈ events, a.fd ≠ ev.fd)) (fun a ha => of_decide_eq_true ha)
  refine ⟨fun a ha => hnew a ?_, hothers, ?_⟩
  · have happ' : st.attempts = new := happ
    exact happ' ▸ ha
  · show st.total = st.posted.length
    rw [hdone.total, hdone.posted]
    simp [IoScheduler.Notify.start]

/-- The range that `process_notifications` and `cancel` find for a descriptor: the binary search
    over the active segment and the scan from there. -/
def foundRange (s : Sched K) (fd : Int) : List AsyncIoOperation :=
  (s.io.activeSegment.drop (lowerBound (fun a => decide (a.fd < fd)) s.io.activeSegment)).takeWhile
    (fun a => decide (a.fd = fd))

/-- `cancel` finds exactly the active operations on its descriptor: the list is sorted. -/
theorem foundRange_eq (hinv : s.Inv) (fd : Int) : s.foundRange fd = s.io.activeOn fd := by
  obtain ⟨lo, eq, hi, hsplit⟩ := exists_fdSplit hinv.rep.sorted fd
  rw [foundRange, hsplit.lowerBound_eq, hsplit.drop_eq, hsplit.takeWhile_eq, IoScheduler.activeOn,
    hsplit.filter_on]

/-- **The scheduler refines the reference scheduler.**  After every run of critical sections,
    both have made the same `perform_io` calls and posted the same operations, in the same
    order.  The searches find exactly the operations that the reference has on a descriptor,
    `cancel` and the notification phase leave those on other descriptors alone, and the count
    that `process_notifications` returns is the number of operations it posted. -/
theorem refines_reference {wakeFd : Int} {k : K} {as : List (SchedAct K)}
    (h : Transition.exec (step M) ⟨IoScheduler.init wakeFd, k, [], [], [], []⟩ as = some s) :
    s.attempts = (Reference.run M wakeFd k as).attempts ∧
    s.posted = (Reference.run M wakeFd k as).posted ∧
    (∀ fd, s.foundRange fd
      = (Reference.run M wakeFd k as).active.filter (fun a => decide (a.fd = fd))) ∧
    (∀ fd fuel s' found, s.cancel M fuel fd = some (.ok (s', found)) →
      s'.io.activeSegment = s.io.activeSegment.filter (fun a => decide (a.fd ≠ fd))) ∧
    (∀ tw events s' n, s.pollNotifications M tw events = .ok (s', n) →
      Confined s s' n events) := by
  have hsim : Sim s (Reference.run M wakeFd k as) :=
    Transition.exec_sim Sim (Reference.step M) (fun _ _ _ _ hsim hs => step_sim hsim hs)
      (init_sim wakeFd k) as h
  refine ⟨hsim.attempts.symm, hsim.posted.symm, ?_, ?_, ?_⟩
  · intro fd
    rw [foundRange_eq hsim.inv fd, hsim.group fd]
  · intro fd fuel s' found hs
    exact (cancel_segments hsim.inv hs).1
  · intro tw events s' n hs
    exact pollNotifications_confined hsim.inv hs

/-- Waits on 5, 3 and 5, the second of which is cancelled; then 5 is notified. -/
def threeDescriptorsRun : List (SchedAct Unit) :=
  [.schedule ⟨1, 5, .ioRead⟩, .schedule ⟨2, 3, .ioRead⟩, .schedule ⟨3, 5, .ioRead⟩, .cancel 3 2,
    .pollNotifications [⟨5, EPOLLIN⟩] 0, .pollCancellations 0]

/-- Both schedulers attempt the waits on 5 in schedule order and post the cancelled one. -/
theorem refines_reference_unsorted :
    ∃ s : Sched Unit, s.attempts.map (·.op.addr) = [1, 3] ∧ s.posted.map (·.addr) = [2] ∧
      s.attempts = (Reference.run quietKernel 0 () threeDescriptorsRun).attempts ∧
      s.posted = (Reference.run quietKernel 0 () threeDescriptorsRun).posted := by
  have hrun : (Transition.exec (step quietKernel) quietStart threeDescriptorsRun).any
      (fun s => decide (s.attempts.map (·.op.addr) = [1, 3] ∧ s.posted.map (·.addr) = [2]))
      = true := by
    decide
  rw [Option.any_eq_true] at hrun
  obtain ⟨s, hs, hend⟩ := hrun
  have href := refines_reference (show Transition.exec (step quietKernel)
    ⟨IoScheduler.init 0, (), [], [], [], []⟩ threeDescriptorsRun = some s from hs)
  exact ⟨s, (of_decide_eq_true hend).1, (of_decide_eq_true hend).2, href.1, href.2.1⟩

end Sched

end Exios
