import Exios.Scheduler.Polling

namespace Exios

/-!
# Scheduler — what holds along every run

`Sched.Inv` joins the representation invariant of the list to the history of the run: every
operation ever scheduled is in the list or was posted, exactly once, and its `result_` says
which of the two ways it went.

* `Sched.schedule_inv`, `Sched.cancel_inv`, `Sched.pollCancellations_inv`,
  `Sched.pollNotifications_inv` — one step lemma per critical section;
* `Sched.reach_inv` — the invariant in every state reached.
-/

namespace Sched

variable {K : Type} {M : Kernel K} {s s' : Sched K}

/-- The invariant of a run. -/
structure Inv (s : Sched K) : Prop where
  rep : s.io.Inv s.scheduled 0
  nodup : s.scheduled.Nodup
  split : s.scheduled.Perm (s.io.operations ++ s.posted)
  unscheduled : ∀ op, op ∉ s.scheduled → s.io.state op = .fresh
  posted_result : ∀ op ∈ s.posted, (s.io.state op).result ≠ none
  struck_iff : ∀ op, op ∈ s.struck ↔ (s.io.state op).result = some cancelledResult
  attempts : ∀ a ∈ s.attempts, a.op ∈ s.scheduled ∧ a.result = none

namespace Inv

/-- What is in the list was scheduled. -/
theorem mem_operations (hinv : s.Inv) {op : AsyncIoOperation} (h : op ∈ s.io.operations) :
    op ∈ s.scheduled :=
  hinv.split.mem_iff.mpr (List.mem_append.mpr (Or.inl h))

/-- What is active was scheduled. -/
theorem mem_active (hinv : s.Inv) {op : AsyncIoOperation} (h : op ∈ s.io.activeSegment) :
    op ∈ s.scheduled := by
  apply hinv.mem_operations
  rw [← s.io.segments_append]
  exact List.mem_append.mpr (Or.inl h)

/-- An active operation was not struck by a `cancel`. -/
theorem active_not_struck (hinv : s.Inv) {op : AsyncIoOperation}
    (h : op ∈ s.io.activeSegment) : op ∉ s.struck := by
  rw [hinv.struck_iff, hinv.rep.active op h]
  simp [OpState.fresh]

/-- An operation that was never scheduled was not struck either. -/
theorem unscheduled_not_struck (hinv : s.Inv) {op : AsyncIoOperation}
    (h : op ∉ s.scheduled) : op ∉ s.struck := by
  rw [hinv.struck_iff, hinv.unscheduled op h]
  simp [OpState.fresh]

/-- The list and the posted operations are disjoint. -/
theorem operations_not_posted (hinv : s.Inv) {op : AsyncIoOperation}
    (h : op ∈ s.io.operations) : op ∉ s.posted := by
  have hnd : (s.io.operations ++ s.posted).Nodup := hinv.split.nodup_iff.mp hinv.nodup
  exact fun hp => List.disjoint_of_nodup_append hnd h hp

/-- Registrations, wake counter and kernel state are not part of the invariant. -/
theorem withEvents (hinv : s.Inv) (reg : Registrations) (w : Nat) (k : K) :
    ({ s with io := { s.io with interest := reg, wakeCounter := w }, kernel := k }).Inv :=
  ⟨hinv.rep.withEvents reg w, hinv.nodup, hinv.split, hinv.unscheduled, hinv.posted_result,
    hinv.struck_iff, hinv.attempts⟩

end Inv

/-- A constructed scheduler keeps the invariant. -/
theorem init_inv (h : Init s) : s.Inv := by
  obtain ⟨wakeFd, k, rfl⟩ := h
  refine ⟨IoScheduler.init_inv wakeFd, List.nodup_nil, .refl _, fun _ _ => rfl, by simp, ?_, by simp⟩
  intro op
  simp [IoScheduler.init, OpState.fresh]

/-! ### One step lemma per critical section -/

/-- What `schedule` does. -/
theorem schedule_cases {op : AsyncIoOperation} (h : s.schedule M op = .ok s') :
    ∃ io, s.io.schedule (M.isOpen s.kernel op.fd) op = .ok io ∧
      s' = { s with io := io, scheduled := s.scheduled ++ [op] } := by
  unfold schedule at h
  cases hio : s.io.schedule (M.isOpen s.kernel op.fd) op with
  | error e => rw [hio] at h; exact absurd h (by simp [Except.map])
  | ok io => rw [hio] at h; exact ⟨io, rfl, by simpa [Except.map] using h.symm⟩

/-- `schedule` keeps it. -/
theorem schedule_inv (hinv : s.Inv) {op : AsyncIoOperation} (hnew : op ∉ s.scheduled)
    (h : s.schedule M op = .ok s') : s'.Inv := by
  obtain ⟨io, hio, rfl⟩ := schedule_cases h
  obtain ⟨hperm, hstate⟩ := IoScheduler.schedule_perm hinv.rep hio
  have hop : op ∉ s.io.operations := fun hm => hnew (hinv.mem_operations hm)
  refine ⟨IoScheduler.schedule_inv hinv.rep hop (hinv.unscheduled op hnew) hio,
    ?_, ?_, ?_, ?_, ?_, ?_⟩
  · rw [List.nodup_append']
    exact ⟨hinv.nodup, List.nodup_singleton op, by simpa using hnew⟩
  · -- what was scheduled is what is in the list and what was posted
    calc (s.scheduled ++ [op]).Perm (op :: s.scheduled) := List.perm_append_singleton op _
      List.Perm _ (op :: (s.io.operations ++ s.posted)) := hinv.split.cons op
      List.Perm _ (io.operations ++ s.posted) := hperm.symm.append_right s.posted
  · intro x hx
    rw [List.mem_append, not_or] at hx
    show io.state x = _
    rw [hstate]
    exact hinv.unscheduled x hx.1
  · show ∀ x ∈ s.posted, (io.state x).result ≠ none
    rw [hstate]
    exact hinv.posted_result
  · show ∀ x, x ∈ s.struck ↔ (io.state x).result = _
    rw [hstate]
    exact hinv.struck_iff
  · intro a ha
    exact ⟨List.mem_append.mpr (Or.inl (hinv.attempts a ha).1), (hinv.attempts a ha).2⟩

/-- What a `cancel` that returns does. -/
theorem cancel_cases {fuel : Nat} {fd : Int} {found : Bool}
    (h : s.cancel M fuel fd = some (.ok (s', found))) :
    ∃ io, s.io.cancelSection fuel (M.isOpen s.kernel fd) fd = some (.ok (io, found)) ∧
      s' = { s with
        io := io
        struck := s.struck ++ s.io.activeSegment.filter (fun a => decide (a.fd = fd)) } := by
  unfold cancel at h
  rw [Option.map_eq_some_iff] at h
  obtain ⟨r, hr, hmap⟩ := h
  cases r with
  | error e => exact absurd hmap (by simp [Except.map])
  | ok p =>
    obtain ⟨io, b⟩ := p
    simp only [Except.map, Except.ok.injEq, Prod.mk.injEq] at hmap
    obtain ⟨rfl, rfl⟩ := hmap
    exact ⟨io, hr, rfl⟩

/-- `cancel` keeps it, when it returns. -/
theorem cancel_inv (hinv : s.Inv) {fuel : Nat} {fd : Int} {found : Bool}
    (h : s.cancel M fuel fd = some (.ok (s', found))) : s'.Inv := by
  obtain ⟨io, hio, rfl⟩ := cancel_cases h
  obtain ⟨lo, eq, hi, hsplit, ⟨rfl, rfl, -⟩ | ⟨heq, -, rfl, -⟩⟩ :=
    IoScheduler.cancelSection_ok hinv.rep hio
  · -- nothing to cancel
    rw [hsplit.filter_on, List.append_nil]
    exact hinv
  · rw [hsplit.filter_on]
    have hact : ∀ x ∈ eq, x ∈ s.io.activeSegment := by
      intro x hx
      rw [hsplit.append]; simp [hx]
    have hsched : ∀ x ∈ eq, x ∈ s.scheduled := fun x hx => hinv.mem_active (hact x hx)
    refine ⟨IoScheduler.afterCancel_inv hinv.rep hsplit heq _, hinv.nodup, ?_, ?_, ?_, ?_,
      hinv.attempts⟩
    · -- the cancelled operations have only moved within the list
      refine hinv.split.trans (List.Perm.append_right _ ?_)
      rw [← s.io.segments_append, hsplit.append]
      show List.Perm _ (lo ++ (hi ++ (eq ++ s.io.cancelledSegment)))
      rw [List.append_assoc, List.append_assoc]
      exact (List.perm_append_comm_assoc eq hi s.io.cancelledSegment).append_left lo
    · intro x hx
      show (if x ∈ eq then _ else s.io.state x) = _
      rw [if_neg (fun hm => hx (hsched x hm))]
      exact hinv.unscheduled x hx
    · intro x hx
      show (if x ∈ eq then (s.io.state x).cancel else s.io.state x).result ≠ none
      split
      · simp [OpState.cancel]
      · exact hinv.posted_result x hx
    · -- struck are those that were before, and those of the range
      intro x
      show _ ↔ (if x ∈ eq then (s.io.state x).cancel else s.io.state x).result = _
      rw [List.mem_append]
      by_cases hx : x ∈ eq
      · simp [hx, OpState.cancel]
      · rw [if_neg hx, ← hinv.struck_iff x]
        simp [hx]

/-- The cancellation phase of `poll_once` always succeeds. -/
theorem pollCancellations_eq (hinv : s.Inv) (tw : Nat) :
    ∃ w, s.io.wakeCounter ≤ w ∧ s.pollCancellations tw = .ok
      ({ s with
          io := { s.io with
            operations := s.io.activeSegment
            beginCancelled := none
            pollQueueLength := s.io.activeSegment.length
            wakeCounter := w }
          posted := s.posted ++ s.io.cancelledSegment },
        { sched := { s.io with
            operations := s.io.activeSegment
            beginCancelled := none
            pollQueueLength := s.io.activeSegment.length
            wakeCounter := w }
          posted := s.io.cancelledSegment
          numCancelled := s.io.cancelledSegment.length
          returned := decide (s.io.activeSegment = []) }) := by
  obtain ⟨w, hle, hw⟩ := IoScheduler.cancellationPhase_spec hinv.rep tw
  exact ⟨w, hle, by unfold pollCancellations; rw [hw]; rfl⟩

/-- What the cancellation phase leaves. -/
theorem pollCancellations_cases (hinv : s.Inv) {tw : Nat} {p : IoScheduler.CancelPhase}
    (h : s.pollCancellations tw = .ok (s', p)) :
    ∃ w, s' = { s with
      io := { s.io with
        operations := s.io.activeSegment
        beginCancelled := none
        pollQueueLength := s.io.activeSegment.length
        wakeCounter := w }
      posted := s.posted ++ s.io.cancelledSegment } := by
  obtain ⟨w, -, hw⟩ := pollCancellations_eq hinv tw
  rw [hw, Except.ok.injEq, Prod.mk.injEq] at h
  exact ⟨w, h.1.symm⟩

/-- The first section of `poll_once` keeps it. -/
theorem pollCancellations_inv (hinv : s.Inv) {tw : Nat} {p : IoScheduler.CancelPhase}
    (h : s.pollCancellations tw = .ok (s', p)) : s'.Inv := by
  obtain ⟨w, -, hw⟩ := IoScheduler.cancellationPhase_spec hinv.rep tw
  have hrep := IoScheduler.cancellationPhase_inv hinv.rep hw
  unfold pollCancellations at h
  rw [hw] at h
  simp only [Except.map, Except.ok.injEq, Prod.mk.injEq] at h
  obtain ⟨rfl, -⟩ := h
  refine ⟨hrep, hinv.nodup, ?_, hinv.unscheduled, ?_, hinv.struck_iff, hinv.attempts⟩
  · -- the cancelled operations move from the list to what was posted
    refine hinv.split.trans ?_
    show List.Perm _ (s.io.activeSegment ++ (s.posted ++ s.io.cancelledSegment))
    rw [← s.io.segments_append, List.append_assoc]
    exact List.perm_append_comm.append_left _
  · intro x hx
    rcases List.mem_append.mp hx with hx | hx
    · exact hinv.posted_result x hx
    · -- a cancelled operation has its result
      show (s.io.state x).result ≠ none
      rw [hinv.rep.cancelled x hx]
      simp

/-- What the notification phase of `poll_once` does. -/
theorem pollNotifications_cases (hinv : s.Inv) {tw : Nat} {events : List EpollEvent}
    {n : IoScheduler.Notify K} (h : s.pollNotifications M tw events = .ok (s', n)) :
    ∃ st done,
      IoScheduler.processNotifications M tw events (.start s.io s.kernel) = .ok st ∧
      IoScheduler.Completed M (.start s.io s.kernel) st done ∧
      n = { st with sched := { st.sched with pollQueueLength := st.sched.operations.length } } ∧
      s' = { s with
        io := n.sched
        kernel := n.kernel
        posted := s.posted ++ n.posted
        attempts := s.attempts ++ n.attempts } := by
  unfold pollNotifications at h
  cases hn : s.io.notificationPhase M tw s.kernel events with
  | error e => rw [hn] at h; exact absurd h (by simp [Except.map])
  -- the section has passed its checks, and completed a part of the active operations
  | ok n' =>
    rw [hn] at h
    simp only [Except.map, Except.ok.injEq, Prod.mk.injEq] at h
    obtain ⟨rfl, rfl⟩ := h
    obtain ⟨st, done, hst, hdone, hn'⟩ := IoScheduler.notificationPhase_ok hinv.rep hn
    exact ⟨st, done, hst, hdone, hn', rfl⟩

/-- The second section of `poll_once` keeps it, whatever events it is given. -/
theorem pollNotifications_inv (hinv : s.Inv) {tw : Nat} {events : List EpollEvent}
    {n : IoScheduler.Notify K} (h : s.pollNotifications M tw events = .ok (s', n)) : s'.Inv := by
  obtain ⟨st, done, -, hdone, rfl, rfl⟩ := pollNotifications_cases hinv h
  have hst := hdone.inv (hinv.rep.start s.kernel)
  have hperm := hdone.operations_perm hinv.rep.nodup
  have hposted : st.posted = done := by rw [hdone.posted]; rfl
  have hact : ∀ x ∈ done, x ∈ s.io.activeSegment := hdone.done_sub
  obtain ⟨new, happ, hnew⟩ := hdone.performed.attempts
  refine ⟨⟨hst.nodup, hst.cursor, hst.sorted, hst.active, hst.cancelled, hst.fifo, rfl⟩, hinv.nodup,
    ?_, ?_, ?_, ?_, ?_⟩
  · refine hinv.split.trans ((hperm.append_right s.posted).trans ?_)
    show List.Perm _ (st.sched.operations ++ (s.posted ++ st.posted))
    rw [hposted, List.append_assoc]
    exact List.perm_append_comm.append_left _
  · intro x hx
    show st.sched.state x = _
    rw [hdone.state_other x (fun hm => hx (hinv.mem_active (hact x hm)))]
    exact hinv.unscheduled x hx
  · intro x hx
    show (st.sched.state x).result ≠ none
    by_cases hxd : x ∈ done
    · obtain ⟨r, -, hr⟩ := hdone.state_done x hxd
      rw [hr]; simp
    · rw [hdone.state_other x hxd]
      refine hinv.posted_result x ((List.mem_append.mp hx).resolve_right ?_)
      show x ∉ st.posted
      rwa [hposted]
  · intro x
    show _ ↔ (st.sched.state x).result = _
    by_cases hxd : x ∈ done
    · -- completed by I/O: it was active, so no `cancel` had struck it
      obtain ⟨r, hne, hr⟩ := hdone.state_done x hxd
      rw [hr]
      exact iff_of_false (hinv.active_not_struck (hact x hxd)) (by simpa using hne)
    · rw [hdone.state_other x hxd]
      exact hinv.struck_iff x
  · intro a ha
    rcases List.mem_append.mp ha with ha | ha
    · exact hinv.attempts a ha
    · have happ' : st.attempts = new := by rw [happ]; rfl
      have ha' : a ∈ new := by rw [← happ']; exact ha
      exact ⟨hinv.mem_active (hnew a ha').1, (hnew a ha').2.1⟩

/-! ### Failing checks -/

/-- `schedule` can only fail to register the descriptor. -/
theorem schedule_error {op : AsyncIoOperation} {e : Contract} (h : s.schedule M op = .error e) :
    e = .epollRegister := by
  unfold schedule at h
  cases hio : s.io.schedule (M.isOpen s.kernel op.fd) op with
  | error e' =>
    rw [hio] at h
    simp only [Except.map, Except.error.injEq] at h
    exact h ▸ IoScheduler.schedule_error hio
  | ok io => rw [hio] at h; exact absurd h (by simp [Except.map])

/-- No check of `cancel` fails. -/
theorem cancel_ne_error (hinv : s.Inv) (fuel : Nat) (fd : Int) (e : Contract) :
    s.cancel M fuel fd ≠ some (.error e) := by
  intro h
  unfold cancel at h
  rw [Option.map_eq_some_iff] at h
  obtain ⟨r, hr, hmap⟩ := h
  cases r with
  | error e' => exact IoScheduler.cancelSection_ne_error hinv.rep fd fuel _ e' hr
  | ok p => exact absurd hmap (by simp [Except.map])

/-- The second section of `poll_once` can only fail in one of its two calls of `epoll_ctl`. -/
theorem pollNotifications_error (hinv : s.Inv) {tw : Nat} {events : List EpollEvent} {e : Contract}
    (h : s.pollNotifications M tw events = .error e) : e = .epollDelete ∨ e = .epollModify := by
  unfold pollNotifications at h
  cases hn : s.io.notificationPhase M tw s.kernel events with
  | error e' =>
    rw [hn] at h
    simp only [Except.map, Except.error.injEq] at h
    exact h ▸ IoScheduler.notificationPhase_error hinv.rep hn
  | ok n => rw [hn] at h; exact absurd h (by simp [Except.map])

/-! ### Posted operations are final -/

/-- What was posted stays posted, with the same result, and no later `cancel` strikes it. -/
structure Extends (s s' : Sched K) : Prop where
  posted : ∀ op ∈ s.posted, op ∈ s'.posted
  struck : ∀ op ∈ s.posted, (op ∈ s'.struck ↔ op ∈ s.struck)

/-- `schedule` posts nothing and strikes nothing. -/
theorem schedule_extends {op : AsyncIoOperation} (h : s.schedule M op = .ok s') : Extends s s' := by
  obtain ⟨io, -, rfl⟩ := schedule_cases h
  exact ⟨fun _ h => h, fun _ _ => Iff.rfl⟩

/-- `cancel` posts nothing, and strikes nothing that was posted. -/
theorem cancel_extends (hinv : s.Inv) {fuel : Nat} {fd : Int} {found : Bool}
    (h : s.cancel M fuel fd = some (.ok (s', found))) : Extends s s' := by
  obtain ⟨io, -, rfl⟩ := cancel_cases h
  refine ⟨fun _ h => h, fun op hop => ?_⟩
  -- an active operation has not been posted
  have hnot : op ∉ s.io.activeSegment.filter (fun a => decide (a.fd = fd)) := by
    intro hm
    have hact : op ∈ s.io.operations := by
      rw [← s.io.segments_append]
      exact List.mem_append.mpr (Or.inl (List.mem_filter.mp hm).1)
    exact hinv.operations_not_posted hact hop
  rw [List.mem_append]
  exact ⟨fun h => h.resolve_right hnot, Or.inl⟩

/-- The first section of `poll_once` posts what it returns, and strikes nothing. -/
theorem pollCancellations_extends {tw : Nat} {p : IoScheduler.CancelPhase}
    (h : s.pollCancellations tw = .ok (s', p)) :
    Extends s s' ∧ s'.posted = s.posted ++ p.posted ∧ s'.scheduled = s.scheduled := by
  unfold pollCancellations at h
  cases hp : s.io.cancellationPhase tw with
  | error e => rw [hp] at h; exact absurd h (by simp [Except.map])
  | ok p' =>
    rw [hp] at h
    simp only [Except.map, Except.ok.injEq, Prod.mk.injEq] at h
    obtain ⟨rfl, rfl⟩ := h
    exact ⟨⟨fun _ h => List.mem_append.mpr (Or.inl h), fun _ _ => Iff.rfl⟩, rfl, rfl⟩

/-- The second section of `poll_once` posts what it returns, and strikes nothing. -/
theorem pollNotifications_extends (hinv : s.Inv) {tw : Nat} {events : List EpollEvent}
    {n : IoScheduler.Notify K} (h : s.pollNotifications M tw events = .ok (s', n)) :
    Extends s s' ∧ s'.posted = s.posted ++ n.posted ∧ s'.scheduled = s.scheduled := by
  obtain ⟨st, done, -, -, -, rfl⟩ := pollNotifications_cases hinv h
  exact ⟨⟨fun _ h => List.mem_append.mpr (Or.inl h), fun _ _ => Iff.rfl⟩, rfl, rfl⟩

/-- What leaves the list in a critical section is what was posted in it. -/
theorem Inv.operations_perm (hinv : s.Inv) (hinv' : s'.Inv) (hsched : s'.scheduled = s.scheduled)
    {ops : List AsyncIoOperation} (hposted : s'.posted = s.posted ++ ops) :
    s.io.operations.Perm (s'.io.operations ++ ops) := by
  have hsplit := hinv'.split
  rw [hsched, hposted] at hsplit
  have hboth : (s.io.operations ++ s.posted).Perm ((s'.io.operations ++ ops) ++ s.posted) := by
    refine hinv.split.symm.trans (hsplit.trans ?_)
    rw [List.append_assoc]
    exact List.perm_append_comm.append_left _
  exact (List.perm_append_right_iff _).mp hboth

/-! ### Active operations and attempts -/

/-- A successful `schedule` found the descriptor open. -/
theorem schedule_isOpen {op : AsyncIoOperation} (h : s.schedule M op = .ok s') :
    M.isOpen s.kernel op.fd = true := by
  obtain ⟨io, hio, -⟩ := schedule_cases h
  by_contra hclosed
  rw [Bool.not_eq_true] at hclosed
  rw [hclosed] at hio
  simp [IoScheduler.schedule, IoScheduler.register, epollAdd] at hio

/-- `schedule` activates its operation and no other. -/
theorem schedule_active (hinv : s.Inv) {op : AsyncIoOperation} (hnew : op ∉ s.scheduled)
    (h : s.schedule M op = .ok s') :
    ∀ x ∈ s'.io.activeSegment, x = op ∨ x ∈ s.io.activeSegment := by
  obtain ⟨io, hio, rfl⟩ := schedule_cases h
  intro x hx
  exact (IoScheduler.mem_schedule_active hinv.rep (fun hm => hnew (hinv.mem_operations hm))
    hio x).mp hx

/-- `cancel` activates nothing. -/
theorem cancel_active (hinv : s.Inv) {fuel : Nat} {fd : Int} {found : Bool}
    (h : s.cancel M fuel fd = some (.ok (s', found))) :
    ∀ x ∈ s'.io.activeSegment, x ∈ s.io.activeSegment := by
  obtain ⟨io, hio, rfl⟩ := cancel_cases h
  obtain ⟨lo, eq, hi, hsplit, ⟨-, rfl, -⟩ | ⟨heq, -, rfl, -⟩⟩ :=
    IoScheduler.cancelSection_ok hinv.rep hio
  · exact fun x hx => hx
  · intro x hx
    obtain ⟨-, hact, -⟩ :=
      IoScheduler.afterCancel_segments hinv.rep hsplit heq (M.isOpen s.kernel fd)
    have hx' : x ∈ lo ++ hi := hact ▸ hx
    rw [hsplit.append]
    simp only [List.mem_append] at hx' ⊢
    tauto

/-- The first section of `poll_once` performs no I/O and leaves the active operations alone. -/
theorem pollCancellations_active (hinv : s.Inv) {tw : Nat} {p : IoScheduler.CancelPhase}
    (h : s.pollCancellations tw = .ok (s', p)) :
    s'.kernel = s.kernel ∧ s'.attempts = s.attempts ∧
      s'.io.activeSegment = s.io.activeSegment := by
  obtain ⟨w, rfl⟩ := pollCancellations_cases hinv h
  exact ⟨rfl, rfl, by simp [IoScheduler.activeSegment]⟩

/-- `perform_io` is called on operations that were active when the section began, in kernel
    states that system calls lead to. -/
structure Performs (M : Kernel K) (s s' : Sched K) : Prop where
  active : ∀ x ∈ s'.io.activeSegment, x ∈ s.io.activeSegment
  kernel : IoScheduler.Moves M s.kernel s'.kernel
  attempts : ∀ a ∈ s'.attempts, a ∈ s.attempts ∨
    a.op ∈ s.io.activeSegment ∧ IoScheduler.Moves M s.kernel a.kernel

/-- The second section of `poll_once` performs I/O only on operations that were active. -/
theorem pollNotifications_performs (hinv : s.Inv) {tw : Nat} {events : List EpollEvent}
    {n : IoScheduler.Notify K} (h : s.pollNotifications M tw events = .ok (s', n)) :
    Performs M s s' := by
  obtain ⟨st, done, -, hdone, rfl, rfl⟩ := pollNotifications_cases hinv h
  obtain ⟨new, happ, hnew⟩ := hdone.performed.attempts
  refine ⟨?_, hdone.performed.kernel, ?_⟩
  · intro x hx
    have hx' : x ∈ st.sched.activeSegment := hx
    rw [hdone.active] at hx'
    exact (List.mem_filter.mp hx').1
  · intro a ha
    rcases List.mem_append.mp ha with ha | ha
    · exact Or.inl ha
    · -- what was performed in this section is at the end of the record
      have ha' : a ∈ new := by
        rw [show st.attempts = new from happ] at ha
        exact ha
      exact Or.inr ⟨(hnew a ha').1, (hnew a ha').2.2⟩

/-! ### Runs -/

/-- A step that schedules is a `schedule` of an operation that was not scheduled before. -/
theorem step_schedule {op : AsyncIoOperation} :
    step M s (.schedule op) = some s' ↔ op ∉ s.scheduled ∧ s.schedule M op = .ok s' := by
  rw [step]
  split
  · rename_i h
    simp [h]
  · rename_i h
    rw [Transition.toOption_eq_some]
    exact (and_iff_right h).symm

/-- A step that cancels is a `cancel` that returns. -/
theorem step_cancel {fd : Int} {fuel : Nat} :
    step M s (.cancel fd fuel) = some s' ↔ ∃ found, s.cancel M fuel fd = some (.ok (s', found)) := by
  simp only [step, Option.bind_eq_some_iff, Option.map_eq_some_iff, Transition.toOption_eq_some]
  constructor
  · rintro ⟨r, hr, ⟨s₁, found⟩, rfl, rfl⟩
    exact ⟨found, hr⟩
  · rintro ⟨found, h⟩
    exact ⟨_, h, _, rfl, rfl⟩

theorem step_pollCancellations {tw : Nat} :
    step M s (.pollCancellations tw) = some s' ↔ ∃ p, s.pollCancellations tw = .ok (s', p) := by
  simp [step, Transition.toOption_eq_some]

theorem step_pollNotifications {events : List EpollEvent} {tw : Nat} :
    step M s (.pollNotifications events tw) = some s' ↔
      ∃ n, s.pollNotifications M tw events = .ok (s', n) := by
  simp [step, Transition.toOption_eq_some]

/-- The steps of a run, by critical section. -/
theorem step_inv (hinv : s.Inv) {a : SchedAct K} (h : step M s a = some s') : s'.Inv := by
  cases a with
  | schedule op =>
    obtain ⟨hnew, hs⟩ := step_schedule.mp h
    exact schedule_inv hinv hnew hs
  | cancel fd fuel =>
    obtain ⟨found, hs⟩ := step_cancel.mp h
    exact cancel_inv hinv hs
  | pollCancellations tw =>
    obtain ⟨p, hs⟩ := step_pollCancellations.mp h
    exact pollCancellations_inv hinv hs
  | pollNotifications events tw =>
    obtain ⟨n, hs⟩ := step_pollNotifications.mp h
    exact pollNotifications_inv hinv hs
  -- the kernel, the wake event and the registrations are no part of the invariant
  | wake tw =>
    rw [step, Option.some.injEq] at h
    exact h ▸ hinv.withEvents s.io.interest _ s.kernel
  | kernel k =>
    rw [step, Option.some.injEq] at h
    exact h ▸ hinv.withEvents s.io.interest s.io.wakeCounter k
  | forget fd =>
    rw [step, Option.some.injEq] at h
    exact h ▸ hinv.withEvents _ s.io.wakeCounter s.kernel

/-- **Every reached state satisfies the invariant.** -/
theorem reach_inv {ok : Sched K → SchedAct K → Prop} (h : Reach M ok s) : s.Inv :=
  Transition.Reach.invariant Inv (fun _ => init_inv) (fun _ _ _ hinv _ hs => step_inv hinv hs) h

end Sched

end Exios
