import Exios.Scheduler.Cancellation

namespace Exios

/-!
# Scheduler — `process_notifications`, one `perform_io` at a time

`Polling.lean` says what a batch of events has done when it is over.  Here the loop is opened:
`ItemStep` is one round on an operation without a result (skipped, attempted in vain, or
completed), `LoopRun` the rounds on the operations of one descriptor, in order.

* `processEvent_loop` — an event on an operation's descriptor is a `LoopRun` over the active
  operations on it, followed by an adjustment of the registration;
* `processNotifications_items` — the induction rule: what every round and every adjustment
  preserves, a batch does.
-/

namespace IoScheduler

variable {K : Type}

/-- The event is for the direction of the operation. -/
def Selects (mask : Events) (item : AsyncIoOperation) : Prop :=
  decide (mask &&& EPOLLIN ≠ 0) = item.isReadOperation

instance (mask : Events) (item : AsyncIoOperation) : Decidable (Selects mask item) :=
  inferInstanceAs (Decidable (_ = _))

/-- The variables after a `perform_io` call that did not complete the operation. -/
def Notify.attempted (M : Kernel K) (st : Notify K) (item : AsyncIoOperation) : Notify K :=
  { st with
    kernel := (M.syscall item st.kernel).2
    attempts := st.attempts ++ [⟨item, st.kernel, none⟩] }

/-- The variables after a `perform_io` call that stored a result. -/
def Notify.completed (M : Kernel K) (st : Notify K) (tw : Nat) (item : AsyncIoOperation)
    (r : IoResult) : Notify K :=
  { st.attempted M item with
    sched := ({ st.sched with
      operations := st.sched.operations.erase item
      state := Function.update st.sched.state item ⟨false, some r⟩ }).trigger tw
    posted := st.posted ++ [item] }

/-- One round of the loop on an operation without a result. -/
inductive ItemStep (M : Kernel K) (mask : Events) (item : AsyncIoOperation) (st : Notify K) :
    Notify K → Prop
  | skipped (hsel : ¬ Selects mask item) : ItemStep M mask item st st
  | pending (hsel : Selects mask item)
    (hio : io item.kind (M.syscall item st.kernel).1 none = .ok (false, none)) :
    ItemStep M mask item st (st.attempted M item)
  | stored {r : IoResult} {tw : Nat} (hsel : Selects mask item)
    (hio : io item.kind (M.syscall item st.kernel).1 none = .ok (true, some r)) :
    ItemStep M mask item st (st.completed M tw item r)

/-- The rounds of the loop on the operations of one descriptor. -/
inductive LoopRun (M : Kernel K) (mask : Events) : List AsyncIoOperation → Notify K → Notify K → Prop
  | nil (st : Notify K) : LoopRun M mask [] st st
  | cons {item : AsyncIoOperation} {rest : List AsyncIoOperation} {st st₁ st' : Notify K}
    (hfresh : st.sched.state item = .fresh) (hmem : item ∈ st.sched.operations)
    (hstep : ItemStep M mask item st st₁) (hrest : LoopRun M mask rest st₁ st') :
    LoopRun M mask (item :: rest) st st'

variable {M : Kernel K} {tw : Nat} {mask : Events}

/-- The body of the loop is one round. -/
theorem notifyItem_step {st st' : FdLoop K} {item : AsyncIoOperation}
    (hfresh : st.sched.state item = .fresh) (h : notifyItem M tw mask st item = .ok st') :
    ItemStep M mask item st.toNotify st'.toNotify := by
  unfold notifyItem at h
  simp only [hfresh, OpState.fresh, Bool.false_eq_true, if_false] at h
  split at h
  · rename_i hsel
    rw [Except.ok.injEq] at h
    subst h
    exact .skipped hsel
  · rename_i hsel
    have hsel' : Selects mask item := not_not.mp hsel
    simp only [performIo, hfresh, OpState.fresh] at h
    rcases io_unset item.kind (M.syscall item st.kernel).1 with hio | ⟨r, hio, -⟩
    · -- the stored state is the old one
      have hstate : Function.update st.sched.state item ⟨false, none⟩ = st.sched.state := by
        rw [show (⟨false, none⟩ : OpState) = st.sched.state item from hfresh.symm,
          Function.update_eq_self]
      simp only [hio, hstate, Except.ok.injEq] at h
      subst h
      exact .pending hsel' hio
    · simp only [hio, Except.ok.injEq] at h
      subst h
      exact .stored hsel' hio

/-- Other operations are not touched by a round. -/
theorem ItemStep.other {st st' : Notify K} {item x : AsyncIoOperation}
    (h : ItemStep M mask item st st') (hne : x ≠ item) :
    st'.sched.state x = st.sched.state x ∧
      (x ∈ st.sched.operations → x ∈ st'.sched.operations) := by
  cases h with
  | skipped => exact ⟨rfl, id⟩
  | pending => exact ⟨rfl, id⟩
  | stored => exact ⟨Function.update_of_ne hne _ _, (List.mem_erase_of_ne hne).mpr⟩

/-- The loop over the operations on a descriptor is a run of rounds. -/
theorem notifyLoop_run {fd : Int} {eq hi : List AsyncIoOperation} {st st' : FdLoop K}
    (heq : ∀ x ∈ eq, x.fd = fd) (hhi : ∀ x ∈ hi, fd < x.fd) (hnd : eq.Nodup)
    (hfresh : ∀ x ∈ eq, st.sched.state x = .fresh) (hmem : ∀ x ∈ eq, x ∈ st.sched.operations)
    (h : notifyLoop M tw fd mask (eq ++ hi) st = .ok st') :
    LoopRun M mask eq st.toNotify st'.toNotify := by
  induction eq generalizing st with
  | nil =>
    have hst : st = st' := by
      cases hi with
      | nil => simpa [notifyLoop] using h
      | cons y hi =>
        have hy : y.fd ≠ fd := by have := hhi y (by simp); omega
        simpa [notifyLoop, hy] using h
    exact hst ▸ .nil _
  | cons item eq ih =>
    rw [List.nodup_cons] at hnd
    rw [List.cons_append, notifyLoop, if_pos (heq item (by simp))] at h
    split at h
    · exact absurd h (by simp)
    · rename_i st₁ hitem
      have hstep := notifyItem_step (hfresh item (by simp)) hitem
      -- the rest of the range is untouched by the first operation
      have hother : ∀ x ∈ eq, x ≠ item := fun x hx he => hnd.1 (he ▸ hx)
      refine .cons (hfresh item (by simp)) (hmem item (by simp)) hstep ?_
      refine ih (fun x hx => heq x (by simp [hx])) hnd.2 ?_ ?_ h
      · intro x hx
        exact (hstep.other (hother x hx)).1.trans (hfresh x (by simp [hx]))
      · intro x hx
        exact (hstep.other (hother x hx)).2 (hmem x (by simp [hx]))

/-- **The loop of an event is a run of rounds** over the active operations on its descriptor. -/
theorem eventLoop_run {ev : EpollEvent} {st : Notify K} {l : FdLoop K} {log : List AsyncIoOperation}
    (hinv : st.sched.Inv log st.total) (h : eventLoop M tw ev st = .ok l) :
    LoopRun M ev.events (st.sched.activeOn ev.fd) st l.toNotify := by
  obtain ⟨lo, eq, hi, hsplit⟩ := exists_fdSplit hinv.sorted ev.fd
  have hact : ∀ x ∈ eq, x ∈ st.sched.activeSegment := by
    intro x hx
    rw [hsplit.append]; simp [hx]
  have hmem : ∀ x ∈ eq, x ∈ st.sched.operations := by
    intro x hx
    rw [← st.sched.segments_append]
    exact List.mem_append_left _ (hact x hx)
  rw [eventLoop_eq hsplit] at h
  rw [activeOn, hsplit.filter_on]
  exact notifyLoop_run hsplit.on hsplit.above (hinv.nodup_on hsplit)
    (fun x hx => hinv.active x (hact x hx)) hmem h

/-- **An event is a run of rounds** over the active operations on its descriptor, and an
    adjustment of the registration. -/
theorem processEvent_loop {ev : EpollEvent} {st st' : Notify K} {log : List AsyncIoOperation}
    (hinv : st.sched.Inv log st.total) (hfd : ev.fd ≠ st.sched.wakeFd)
    (h : processEvent M tw ev st = .ok st') :
    ∃ st₁ reg total, LoopRun M ev.events (st.sched.activeOn ev.fd) st st₁ ∧
      st' = { st₁ with sched := { st₁.sched with interest := reg }, total := total } := by
  obtain ⟨l, _, _, _, _, _, -, -, hloop⟩ := eventLoop_spec M tw ev st hinv
  exact ⟨l.toNotify, _, _, eventLoop_run hinv hloop, (processEvent_passed hfd hloop h).2⟩

/-- What every round preserves, a run of rounds does. -/
theorem LoopRun.induct (P : Notify K → Prop)
    (hP : ∀ item st st', st.sched.state item = .fresh → item ∈ st.sched.operations → P st →
      ItemStep M mask item st st' → P st')
    {items : List AsyncIoOperation} {st st' : Notify K} (h : LoopRun M mask items st st')
    (h0 : P st) : P st' := by
  induction h with
  | nil => exact h0
  | cons hfresh hmem hstep _ ih => exact ih (hP _ _ _ hfresh hmem h0 hstep)

/-- **Rounds attempt every selected operation once**, in order, and no other. -/
theorem LoopRun.attempts_eq {items : List AsyncIoOperation} {st st' : Notify K}
    (h : LoopRun M mask items st st') :
    ∃ new, st'.attempts = st.attempts ++ new ∧
      new.map (·.op) = items.filter (fun a => decide (Selects mask a)) := by
  induction h with
  | nil => exact ⟨[], by simp, rfl⟩
  | @cons item rest _ _ _ hfresh hmem hstep hrest ih =>
    obtain ⟨new, happ, hnew⟩ := ih
    cases hstep with
    | skipped hsel => exact ⟨new, happ, by rw [hnew, List.filter_cons_of_neg (by simpa using hsel)]⟩
    | pending hsel | stored hsel =>
      refine ⟨_, happ.trans (List.append_assoc _ _ _), ?_⟩
      rw [List.map_append, hnew, List.filter_cons_of_pos (by simpa using hsel)]
      rfl

/-- Rounds attempt their own operations. -/
theorem LoopRun.attempts {items : List AsyncIoOperation} {st st' : Notify K}
    (h : LoopRun M mask items st st') :
    ∃ new, st'.attempts = st.attempts ++ new ∧ ∀ a ∈ new, a.op ∈ items := by
  obtain ⟨new, happ, hnew⟩ := h.attempts_eq
  refine ⟨new, happ, ?_⟩
  intro a ha
  have hop : a.op ∈ new.map (·.op) := List.mem_map_of_mem ha
  rw [hnew] at hop
  exact (List.mem_filter.mp hop).1

/-- **Induction over the rounds of a batch.**  Rounds are made on operations without a result;
    between them only registrations, the wake counter and the count change. -/
theorem processNotifications_items {log : List AsyncIoOperation} (P : Notify K → Prop)
    (hitem : ∀ mask item st st', st.sched.state item = .fresh → item ∈ st.sched.operations →
      P st → ItemStep M mask item st st' → P st')
    (hadjust : ∀ (st : Notify K) reg w total, P st →
      P { st with sched := { st.sched with interest := reg, wakeCounter := w }, total := total })
    (events : List EpollEvent) {st st' : Notify K} (hinv : st.sched.Inv log st.total) (h0 : P st)
    (h : processNotifications M tw events st = .ok st') : P st' := by
  refine processNotifications_induct P ?_ events hinv h0 h
  intro ev t t' ht hPt hev
  by_cases hfd : ev.fd = t.sched.wakeFd
  · rw [processEvent, if_pos hfd, Except.ok.injEq] at hev
    exact hev ▸ hadjust t t.sched.interest 0 t.total hPt
  · obtain ⟨t₁, reg, total, hrun, rfl⟩ := processEvent_loop ht hfd hev
    exact hadjust t₁ reg t₁.sched.wakeCounter total (hrun.induct P (hitem ev.events) hPt)

end IoScheduler

end Exios
