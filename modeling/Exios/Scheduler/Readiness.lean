import Exios.Scheduler.Registrations
import Exios.Scheduler.Reference

namespace Exios

/-!
# Scheduler — which operations a notification tries

An event carries a mask; the loop of `process_notifications` tries the operations whose
direction agrees with the single test for `EPOLLIN`.

* `eventLoop_attempts` — the operations an event tries, in order, each once;
* `readyAttempted_iff` — when these contain every operation whose direction is in the mask: a
  write is passed over when the mask has both directions;
* `processNotifications_triedOn` — the same for a descriptor of a whole batch;
* `reach_justified` — along every run in which a closed descriptor loses its registration, the
  registered masks are those of active operations;
* `attempted_iff` — when an event that epoll can report there makes an attempt: a mask without
  either direction is taken for one of the writes, and may find reads only.
-/

/-! ### Masks -/

/-- The test of the loop is the one for the bit. -/
theorem Events.has_in_iff {mask : Events} : Events.Has mask EPOLLIN ↔ mask &&& EPOLLIN ≠ 0 := by
  have hnat : (mask &&& EPOLLIN).toNat = mask.toNat % 2 := by
    rw [BitVec.toNat_and]
    exact Nat.and_one_is_mod _
  have hin : mask &&& EPOLLIN = EPOLLIN ↔ mask.toNat % 2 = 1 := by
    rw [← BitVec.toNat_inj, hnat]
    rfl
  have hzero : mask &&& EPOLLIN = 0 ↔ mask.toNat % 2 = 0 := by
    rw [← BitVec.toNat_inj, hnat]
    rfl
  rw [Events.Has, hin, ne_eq, hzero]
  omega

/-- What contains a mask contains its bits. -/
theorem Events.Has.trans {mask part bit : Events} (h : Events.Has mask part)
    (hbit : Events.Has part bit) : Events.Has mask bit := by
  unfold Events.Has at *
  rw [← hbit, ← BitVec.and_assoc, h]

/-- A bit that is not in one half of a mask is in the other. -/
theorem Events.Has.of_or_left {mask other bit : Events} (h : Events.Has (mask ||| other) bit)
    (hother : bit &&& other = 0) : Events.Has mask bit := by
  unfold Events.Has at *
  rw [BitVec.and_comm, BitVec.and_or_distrib_left, hother, BitVec.and_comm] at h
  simpa using h

/-- `EPOLLERR`. -/
def EPOLLERR : Events := 0x008#32
/-- `EPOLLHUP`. -/
def EPOLLHUP : Events := 0x010#32

namespace IoScheduler

variable {K : Type} {M : Kernel K} {tw : Nat}

/-- An event is for the reads if its mask has `EPOLLIN`, else for the writes. -/
theorem selects_iff {mask : Events} {item : AsyncIoOperation} :
    Selects mask item ↔ (item.isReadOperation = true ↔ Events.Has mask EPOLLIN) := by
  rw [Selects, Events.has_in_iff]
  by_cases hin : mask &&& EPOLLIN = 0 <;> cases hread : item.isReadOperation <;> simp [hin]

/-- Of the operations whose direction is in the mask, the event is not for the writes beside
    `EPOLLIN`. -/
theorem selects_of_ready {mask : Events} {item : AsyncIoOperation}
    (hready : Events.Has mask item.interest) :
    Selects mask item ↔ ¬ (item.isReadOperation = false ∧ Events.Has mask EPOLLIN) := by
  rw [selects_iff]
  cases hread : item.isReadOperation with
  | true =>
    rw [AsyncIoOperation.interest_eq_in.mpr hread] at hready
    simp [hready]
  | false => simp

/-! ### The operations an event tries -/

/-- **The `perform_io` calls of an event**: the active operations on its descriptor that the
    mask selects, in order. -/
theorem eventLoop_attempts (M : Kernel K) (tw : Nat) (ev : EpollEvent) (st : Notify K)
    {log : List AsyncIoOperation} (hinv : st.sched.Inv log st.total) :
    ∃ l new, eventLoop M tw ev st = .ok l ∧ l.attempts = st.attempts ++ new ∧
      new.map (·.op)
        = (st.sched.activeOn ev.fd).filter (fun a => decide (Selects ev.events a)) := by
  obtain ⟨l, _, _, _, _, _, -, -, hloop⟩ := eventLoop_spec M tw ev st hinv
  obtain ⟨new, happ, hnew⟩ := (eventLoop_run hinv hloop).attempts_eq
  exact ⟨l, new, hloop, happ, hnew⟩

/-- Events on other descriptors leave the operations on a descriptor where they are. -/
theorem processNotifications_activeOn {events : List EpollEvent} {st st' : Notify K}
    {log : List AsyncIoOperation} (hinv : st.sched.Inv log st.total)
    (h : processNotifications M tw events st = .ok st') {fd : Int}
    (hfd : ∀ ev ∈ events, fd ≠ ev.fd) : st'.sched.activeOn fd = st.sched.activeOn fd := by
  refine (processNotifications_confined hinv h (fun a => decide (a.fd = fd)) ?_).2
  intro a ha ev hev
  rw [of_decide_eq_true ha]
  exact hfd ev hev

/-- The calls `new` of an event try every active operation on its descriptor whose direction is
    in the mask, once. -/
def ReadyAttempted (s : IoScheduler) (ev : EpollEvent) (new : List (Attempt K)) : Prop :=
  ∀ op ∈ s.activeOn ev.fd, Events.Has ev.events op.interest → (new.map (·.op)).count op = 1

/-- An event has made the calls of its loop. -/
theorem processEvent_attempts_eq {ev : EpollEvent} {st st' : Notify K} {l : FdLoop K}
    (hfd : ev.fd ≠ st.sched.wakeFd) (hloop : eventLoop M tw ev st = .ok l)
    (h : processEvent M tw ev st = .ok st') : st'.attempts = l.attempts := by
  rw [(processEvent_passed hfd hloop h).2]

/-- **A batch tries what its events select**: every call is on an operation for whose direction
    there is an event on its descriptor. -/
theorem processNotifications_selected {events : List EpollEvent} {st st' : Notify K}
    {log : List AsyncIoOperation} (hinv : st.sched.Inv log st.total)
    (h : processNotifications M tw events st = .ok st') :
    ∀ a ∈ st'.attempts, a ∈ st.attempts ∨
      ∃ ev ∈ events, ev.fd = a.op.fd ∧ Selects ev.events a.op := by
  induction events generalizing st with
  | nil =>
    rw [processNotifications, Except.ok.injEq] at h
    subst h
    exact fun a ha => Or.inl ha
  | cons e events ih =>
    obtain ⟨st₁, hev, hrest⟩ := processNotifications_cons.mp h
    obtain ⟨done, hdone⟩ := processEvent_completed hinv hev
    intro a ha
    rcases ih (hdone.inv hinv) hrest a ha with ha | ⟨ev, hmem, hsel⟩
    · -- the calls of the first event
      by_cases hfd : e.fd = st.sched.wakeFd
      · rw [processEvent, if_pos hfd, Except.ok.injEq] at hev
        subst hev
        exact Or.inl ha
      · obtain ⟨l, new, hloop, happ, hnew⟩ := eventLoop_attempts M tw e st hinv
        rw [processEvent_attempts_eq hfd hloop hev, happ] at ha
        rcases List.mem_append.mp ha with ha | ha
        · exact Or.inl ha
        · have hop : a.op ∈ new.map (·.op) := List.mem_map_of_mem ha
          rw [hnew, List.mem_filter] at hop
          have hfd' : a.op.fd = e.fd := of_decide_eq_true (List.mem_filter.mp hop.1).2
          exact Or.inr ⟨e, List.mem_cons_self, hfd'.symm, of_decide_eq_true hop.2⟩
    · exact Or.inr ⟨ev, List.mem_cons_of_mem _ hmem, hsel⟩

/-- Selecting by direction tries all ready operations exactly if there is no write beside
    `EPOLLIN`. -/
theorem readyAttempted_of_selects {s : IoScheduler} {ev : EpollEvent} {new : List (Attempt K)}
    (hnd : (s.activeOn ev.fd).Nodup)
    (hnew : new.map (·.op) = (s.activeOn ev.fd).filter (fun a => decide (Selects ev.events a))) :
    ReadyAttempted s ev new ↔
      ¬ (Events.Has ev.events EPOLLIN ∧ Events.Has ev.events EPOLLOUT ∧
        ∃ op ∈ s.activeOn ev.fd, op.isReadOperation = false) := by
  -- an operation is tried at most once
  have hcount : ∀ op ∈ s.activeOn ev.fd,
      (new.map (·.op)).count op = 1 ↔ Selects ev.events op := by
    intro op hop
    rw [hnew, (hnd.filter _).count]
    simp [List.mem_filter, hop]
  constructor
  · rintro hall ⟨hin, hout, op, hop, hwrite⟩
    have hready : Events.Has ev.events op.interest := by
      rw [AsyncIoOperation.interest_eq_out.mpr hwrite]
      exact hout
    have hsel := (hcount op hop).mp (hall op hop hready)
    exact (selects_of_ready hready).mp hsel ⟨hwrite, hin⟩
  · intro hnot op hop hready
    rw [hcount op hop, selects_of_ready hready]
    rintro ⟨hwrite, hin⟩
    rw [AsyncIoOperation.interest_eq_out.mpr hwrite] at hready
    exact hnot ⟨hin, hready, op, hop, hwrite⟩

/-- **Ready operations are tried, except writes beside `EPOLLIN`.**  When the events in front of
    `ev` in a batch have been handled, the loop of `ev` runs to its end, and its `perform_io`
    calls try all ready operations exactly if the mask does not have both directions while a
    write is pending. -/
theorem readyAttempted_iff {s : IoScheduler} {log : List AsyncIoOperation} (hinv : s.Inv log 0)
    {k : K} {pre post : List EpollEvent} {ev : EpollEvent} {st : Notify K}
    (hdistinct : ((pre ++ ev :: post).map (·.fd)).Nodup) (hfd : ev.fd ≠ s.wakeFd)
    (hpre : processNotifications M tw pre (Notify.start s k) = .ok st) :
    ∃ l new, eventLoop M tw ev st = .ok l ∧ l.attempts = st.attempts ++ new ∧
      (∀ st', processEvent M tw ev st = .ok st' → st'.attempts = l.attempts) ∧
      (ReadyAttempted s ev new ↔
        ¬ (Events.Has ev.events EPOLLIN ∧ Events.Has ev.events EPOLLOUT ∧
          ∃ op ∈ s.activeOn ev.fd, op.isReadOperation = false)) := by
  have hstart : (Notify.start s k).sched.Inv log (Notify.start s k).total := hinv
  obtain ⟨done, hdone⟩ := processNotifications_ok hstart hpre
  -- the events in front are on other descriptors
  have hother : ∀ e ∈ pre, ev.fd ≠ e.fd := by
    intro e he heq
    rw [List.map_append, List.nodup_append] at hdistinct
    exact hdistinct.2.2 e.fd (List.mem_map_of_mem he) ev.fd (by simp) heq.symm
  have hon : st.sched.activeOn ev.fd = s.activeOn ev.fd :=
    processNotifications_activeOn hstart hpre hother
  obtain ⟨l, new, hloop, happ, hnew⟩ := eventLoop_attempts M tw ev st (hdone.inv hstart)
  rw [hon] at hnew
  refine ⟨l, new, hloop, happ, ?_, readyAttempted_of_selects (hinv.nodup_activeOn ev.fd) hnew⟩
  intro st' hev
  exact processEvent_attempts_eq (by rw [hdone.wakeFd]; exact hfd) hloop hev

/-- A write is pending on descriptor 5. -/
def pendingWrite : IoScheduler :=
  { init 0 with
    operations := [⟨1, 5, .ioWrite⟩]
    pollQueueLength := 1
    interest := Function.update (init 0).interest 5 (some EPOLLOUT) }

/-- The scheduler with one pending write keeps the representation invariant. -/
theorem pendingWrite_inv : pendingWrite.Inv [⟨1, 5, .ioWrite⟩] 0 :=
  schedule_inv (init_inv 0) (show (⟨1, 5, .ioWrite⟩ : AsyncIoOperation) ∉ [] by simp) rfl
    (show (init 0).schedule true ⟨1, 5, .ioWrite⟩ = .ok pendingWrite from rfl)

/-- Descriptor 3 is notified first; then 5 can be written to, and the write is tried. -/
theorem readyAttempted_write :
    ∃ st l new,
      processNotifications quietKernel 0 [⟨3, EPOLLIN⟩] (Notify.start pendingWrite ()) = .ok st ∧
      eventLoop quietKernel 0 ⟨5, EPOLLOUT⟩ st = .ok l ∧ l.attempts = st.attempts ++ new ∧
      ReadyAttempted pendingWrite ⟨5, EPOLLOUT⟩ new := by
  obtain ⟨st, hst⟩ : ∃ st, processNotifications quietKernel 0 [⟨3, EPOLLIN⟩]
      (Notify.start pendingWrite ()) = .ok st := ⟨_, rfl⟩
  have hdistinct :
      (([⟨3, EPOLLIN⟩] ++ ⟨5, EPOLLOUT⟩ :: [] : List EpollEvent).map (·.fd)).Nodup := by decide
  obtain ⟨l, new, hloop, happ, -, hiff⟩ :=
    readyAttempted_iff pendingWrite_inv hdistinct (by decide) hst
  exact ⟨st, l, new, hst, hloop, happ, hiff.mpr (fun h => absurd h.1 (by decide))⟩

/-- Descriptor 5 can be read from and written to: the pending write is not tried. -/
theorem write_passed_over :
    pendingWrite.Inv [⟨1, 5, .ioWrite⟩] 0 ∧
      ∃ st, processNotifications quietKernel 0 [⟨5, EPOLLIN ||| EPOLLOUT⟩]
          (Notify.start pendingWrite ()) = .ok st ∧
        st.attempts = [] ∧ ¬ ReadyAttempted pendingWrite ⟨5, EPOLLIN ||| EPOLLOUT⟩ st.attempts := by
  refine ⟨pendingWrite_inv, _, rfl, rfl, ?_⟩
  intro hall
  have htried := hall ⟨1, 5, .ioWrite⟩ (by decide) (by decide)
  exact absurd htried (by decide)

/-! ### The operations a batch tries -/

/-- The operations on `fd` that were tried so far, oldest first. -/
def Notify.triedOn (st : Notify K) (fd : Int) : List AsyncIoOperation :=
  (st.attempts.map (·.op)).filter (fun a => decide (a.fd = fd))

/-- An event tries the selected operations on its descriptor. -/
theorem processEvent_triedOn {ev : EpollEvent} {st st' : Notify K} {log : List AsyncIoOperation}
    (hinv : st.sched.Inv log st.total) (hfd : ev.fd ≠ st.sched.wakeFd)
    (h : processEvent M tw ev st = .ok st') :
    st'.triedOn ev.fd = st.triedOn ev.fd
      ++ (st.sched.activeOn ev.fd).filter (fun a => decide (Selects ev.events a)) := by
  obtain ⟨l, new, hloop, happ, hnew⟩ := eventLoop_attempts M tw ev st hinv
  have hown : (new.map (·.op)).filter (fun a => decide (a.fd = ev.fd)) = new.map (·.op) := by
    rw [List.filter_eq_self]
    intro a ha
    rw [hnew] at ha
    exact (List.mem_filter.mp (List.mem_filter.mp ha).1).2
  unfold Notify.triedOn
  rw [processEvent_attempts_eq hfd hloop h, happ, List.map_append, List.filter_append, hown, hnew]

/-- An event tries no operation on another descriptor. -/
theorem processEvent_triedOn_other {ev : EpollEvent} {st st' : Notify K}
    {log : List AsyncIoOperation} (hinv : st.sched.Inv log st.total)
    (h : processEvent M tw ev st = .ok st') {fd : Int} (hfd : fd ≠ ev.fd) :
    st'.triedOn fd = st.triedOn fd := by
  obtain ⟨new, happ, hnew⟩ := processEvent_attempts hinv h
  have hnone : (new.map (·.op)).filter (fun a => decide (a.fd = fd)) = [] := by
    rw [List.filter_eq_nil_iff]
    intro a ha
    obtain ⟨b, hb, rfl⟩ := List.mem_map.mp ha
    rw [decide_eq_true_eq, hnew b hb]
    exact fun he => hfd he.symm
  unfold Notify.triedOn
  rw [happ, List.map_append, List.filter_append, hnone, List.append_nil]

/-- **What a batch tries on a descriptor**: the operations that the event on it selects. -/
theorem processNotifications_triedOn {events : List EpollEvent} {st st' : Notify K}
    {log : List AsyncIoOperation} (hinv : st.sched.Inv log st.total)
    (hdistinct : (events.map (·.fd)).Nodup)
    (h : processNotifications M tw events st = .ok st') :
    (∀ ev ∈ events, ev.fd ≠ st.sched.wakeFd → st'.triedOn ev.fd = st.triedOn ev.fd
      ++ (st.sched.activeOn ev.fd).filter (fun a => decide (Selects ev.events a))) ∧
    ∀ fd, (∀ ev ∈ events, fd ≠ ev.fd) → st'.triedOn fd = st.triedOn fd := by
  induction events generalizing st with
  | nil =>
    rw [processNotifications, Except.ok.injEq] at h
    subst h
    exact ⟨by simp, fun _ _ => rfl⟩
  | cons e events ih =>
    rw [List.map_cons, List.nodup_cons] at hdistinct
    obtain ⟨st₁, hev, hrest⟩ := processNotifications_cons.mp h
    obtain ⟨done, hdone⟩ := processEvent_completed hinv hev
    obtain ⟨hself, hother⟩ := ih (hdone.inv hinv) hdistinct.2 hrest
    have hne : ∀ ev ∈ events, e.fd ≠ ev.fd := by
      intro ev hev he
      exact hdistinct.1 (List.mem_map.mpr ⟨ev, hev, he.symm⟩)
    refine ⟨?_, ?_⟩
    · intro ev hmem hfd
      rcases List.mem_cons.mp hmem with rfl | hmem
      · -- the rest of the batch is on other descriptors
        rw [hother ev.fd hne, processEvent_triedOn hinv hfd hev]
      · have hfd₁ : ev.fd ≠ st₁.sched.wakeFd := by
          rw [hdone.wakeFd]
          exact hfd
        have hon : st₁.sched.activeOn ev.fd = st.sched.activeOn ev.fd := by
          refine processEvent_others hinv hev _ (fun a ha => ?_)
          rw [of_decide_eq_true ha]
          exact (hne ev hmem).symm
        rw [hself ev hmem hfd₁, hon, processEvent_triedOn_other hinv hev (hne ev hmem).symm]
    · intro fd hfd
      rw [hother fd (fun ev hmem => hfd ev (List.mem_cons_of_mem _ hmem)),
        processEvent_triedOn_other hinv hev (hfd e List.mem_cons_self)]

/-! ### What epoll can report -/

/-- An event that epoll can report: a non-empty part of the registered mask, to which epoll adds
    `EPOLLERR` and `EPOLLHUP`. -/
def Reportable (s : IoScheduler) (ev : EpollEvent) : Prop :=
  ∃ mask, s.interest ev.fd = some mask ∧ ev.events ≠ 0 ∧
    Events.Has (mask ||| EPOLLERR ||| EPOLLHUP) ev.events

/-- A direction that is reported was registered. -/
theorem registered_of_reported {mask events bit : Events} (hbit : bit = EPOLLIN ∨ bit = EPOLLOUT)
    (hpart : Events.Has (mask ||| EPOLLERR ||| EPOLLHUP) events) (h : Events.Has events bit) :
    Events.Has mask bit := by
  have herr : bit &&& EPOLLERR = 0 := by rcases hbit with rfl | rfl <;> rfl
  have hhup : bit &&& EPOLLHUP = 0 := by rcases hbit with rfl | rfl <;> rfl
  exact ((hpart.trans h).of_or_left hhup).of_or_left herr

/-- **When a reported event is for an active operation**: unless it has neither direction and
    there are reads only. -/
theorem Reportable.exists_selects {s : IoScheduler} {ev : EpollEvent} (h : s.Reportable ev)
    (hj : s.AllJustified) (hfd : ev.fd ≠ s.wakeFd) :
    (∃ op ∈ s.activeOn ev.fd, Selects ev.events op) ↔
      Events.Has ev.events EPOLLIN ∨ Events.Has ev.events EPOLLOUT ∨
        ∃ op ∈ s.activeOn ev.fd, op.isReadOperation = false := by
  obtain ⟨mask, hmask, -, hpart⟩ := h
  obtain ⟨-, -, hread, hwrite⟩ := (hj ev.fd hfd mask hmask).spec
  constructor
  · rintro ⟨op, hop, hsel⟩
    by_contra hnone
    push Not at hnone
    obtain ⟨hin, -, hreads⟩ := hnone
    exact hin ((selects_iff.mp hsel).mp (by simpa using hreads op hop))
  · intro hcase
    by_cases hin : Events.Has ev.events EPOLLIN
    · obtain ⟨op, hop, hr⟩ := hread (registered_of_reported (Or.inl rfl) hpart hin)
      exact ⟨op, hop, selects_iff.mpr ⟨fun _ => hin, fun _ => hr⟩⟩
    · -- without `EPOLLIN` the event is for the writes
      have hw : ∃ op ∈ s.activeOn ev.fd, op.isReadOperation = false := by
        rcases hcase with h | hout | hw
        · exact absurd h hin
        · exact hwrite (registered_of_reported (Or.inr rfl) hpart hout)
        · exact hw
      obtain ⟨op, hop, hr⟩ := hw
      exact ⟨op, hop, selects_iff.mpr ⟨fun h => absurd h (by simp [hr]), fun h => absurd h hin⟩⟩

/-- An event leaves the registrations of other descriptors alone. -/
theorem processEvent_interest_other {ev : EpollEvent} {st st' : Notify K}
    {log : List AsyncIoOperation} (hinv : st.sched.Inv log st.total)
    (h : processEvent M tw ev st = .ok st') {fd : Int} (hfd : fd ≠ ev.fd) :
    st'.sched.interest fd = st.sched.interest fd := by
  rcases processEvent_ok hinv h with ⟨-, rfl⟩ | ⟨-, done, kept, hspec⟩
  · rfl
  · rw [hspec.interest, Function.update_of_ne hfd]

/-- **A batch of reported events passes its checks.** -/
theorem processNotifications_ok_of_reportable (hM : M.NeverCloses) (tw : Nat)
    {events : List EpollEvent} {st : Notify K} {log : List AsyncIoOperation}
    (hinv : st.sched.Inv log st.total) (hdistinct : (events.map (·.fd)).Nodup)
    (hreg : ∀ ev ∈ events, ev.fd ≠ st.sched.wakeFd →
      M.isOpen st.kernel ev.fd = true ∧ (st.sched.interest ev.fd).isSome = true) :
    ∃ st', processNotifications M tw events st = .ok st' := by
  induction events generalizing st with
  | nil => exact ⟨st, rfl⟩
  | cons e events ih =>
    rw [List.map_cons, List.nodup_cons] at hdistinct
    obtain ⟨st₁, hev⟩ : ∃ st₁, processEvent M tw e st = .ok st₁ := by
      by_cases hfd : e.fd = st.sched.wakeFd
      · exact ⟨_, by rw [processEvent, if_pos hfd]⟩
      · obtain ⟨hopen, hsome⟩ := hreg e List.mem_cons_self hfd
        exact processEvent_ok_of_open hM tw hinv (fun _ => hsome) (fun _ => hopen)
    obtain ⟨done, hdone⟩ := processEvent_completed hinv hev
    -- the other descriptors of the batch stay open and registered while one is processed
    obtain ⟨st', hst'⟩ := ih (hdone.inv hinv) hdistinct.2 (fun ev hmem hfd => by
      rw [hdone.wakeFd] at hfd
      have hne : ev.fd ≠ e.fd := fun he => hdistinct.1 (List.mem_map.mpr ⟨ev, hmem, he⟩)
      obtain ⟨hopen, hsome⟩ := hreg ev (List.mem_cons_of_mem _ hmem) hfd
      rw [processEvent_interest_other hinv hev hne]
      exact ⟨hM.moves hdone.performed.kernel hopen, hsome⟩)
    exact ⟨st', by rw [processNotifications, hev]; exact hst'⟩

/-- Every registration besides that of the wake event is of an open descriptor. -/
def OnlyOpen (s : IoScheduler) (isOpen : Int → Bool) : Prop :=
  ∀ fd, fd ≠ s.wakeFd → (s.interest fd).isSome = true → isOpen fd = true

/-- An event that passes its `epoll_ctl` has an open descriptor, and touches no other
    registration. -/
theorem processEvent_onlyOpen (hM : M.NeverCloses) {ev : EpollEvent} {st st' : Notify K}
    {log : List AsyncIoOperation} (hinv : st.sched.Inv log st.total)
    (hopen : st.sched.OnlyOpen (M.isOpen st.kernel)) (h : processEvent M tw ev st = .ok st') :
    st'.sched.OnlyOpen (M.isOpen st'.kernel) := by
  obtain ⟨done, hdone⟩ := processEvent_completed hinv h
  intro fd hfd hsome
  rw [hdone.wakeFd] at hfd
  by_cases hsame : fd = ev.fd
  · subst hsame
    exact processEvent_isOpen hinv h hfd
  · rw [processEvent_interest_other hinv h hsame] at hsome
    exact hM.moves hdone.performed.kernel (hopen fd hfd hsome)

end IoScheduler

/-! ### Runs -/

namespace Sched

variable {K : Type} {M : Kernel K} {s s' : Sched K}

/-- The condition on the steps: a descriptor that is closed has lost its registration. -/
def ForgetsClosed (M : Kernel K) (s : Sched K) : SchedAct K → Prop
  | .kernel k => ∀ fd, fd ≠ s.io.wakeFd → M.isOpen k fd = false → s.io.interest fd = none
  | _ => True

/-- **The step lemma**: only open descriptors stay registered. -/
theorem step_onlyOpen (hM : M.NeverCloses) {a : SchedAct K} (hinv : s.Inv)
    (hok : ForgetsClosed M s a) (hopen : s.io.OnlyOpen (M.isOpen s.kernel))
    (h : step M s a = some s') : s'.io.OnlyOpen (M.isOpen s'.kernel) := by
  cases a with
  | schedule op =>
    obtain ⟨hnew, hs⟩ := step_schedule.mp h
    have hop := schedule_isOpen hs
    obtain ⟨io, hio, rfl⟩ := schedule_cases hs
    have hwake : io.wakeFd = s.io.wakeFd := by
      obtain ⟨_, _, _, -, rfl⟩ := IoScheduler.schedule_ok hinv.rep hio
      rfl
    intro fd hfd hsome
    by_cases hsame : fd = op.fd
    · -- `EPOLL_CTL_ADD` and `EPOLL_CTL_MOD` pass on open descriptors only
      rw [hsame]
      exact hop
    · apply hopen fd (by rw [← hwake]; exact hfd)
      have hsome' : (io.interest fd).isSome = true := hsome
      rw [IoScheduler.schedule_interest hinv.rep hio, Function.update_of_ne hsame] at hsome'
      exact hsome'
  | cancel fd fuel =>
    obtain ⟨found, hs⟩ := step_cancel.mp h
    obtain ⟨-, -, hwake⟩ := cancel_segments hinv hs
    obtain ⟨io, hio, rfl⟩ := cancel_cases hs
    intro fd' hfd' hsome
    exact hopen fd' (by rw [← hwake]; exact hfd')
      (IoScheduler.cancelSection_unregisters hinv.rep hio hsome)
  | pollCancellations tw =>
    obtain ⟨p, hp⟩ := step_pollCancellations.mp h
    obtain ⟨w, rfl⟩ := pollCancellations_cases hinv hp
    exact hopen
  | pollNotifications events tw =>
    obtain ⟨n, hn⟩ := step_pollNotifications.mp h
    obtain ⟨st, done, hst, -, rfl, rfl⟩ := pollNotifications_cases hinv hn
    exact IoScheduler.processNotifications_induct (fun t => t.sched.OnlyOpen (M.isOpen t.kernel))
      (fun _ _ _ hi hp he => IoScheduler.processEvent_onlyOpen hM hi hp he) events
      (hinv.rep.start s.kernel) hopen hst
  | wake tw =>
    rw [step, Option.some.injEq] at h
    exact h ▸ hopen
  | kernel k =>
    rw [step, Option.some.injEq] at h
    subst h
    intro fd hfd hsome
    -- a kernel step that closes a descriptor does so when its registration is gone
    by_contra hclosed
    have hnone : s.io.interest fd = none := hok fd hfd (by simpa using hclosed)
    exact absurd hsome (by simp [hnone])
  | forget fd =>
    rw [step, Option.some.injEq] at h
    subst h
    intro fd' hfd' hsome
    by_cases hsame : fd' = fd
    · rw [hsame] at hsome
      exact absurd hsome (by simp)
    · apply hopen fd' hfd'
      rw [← Function.update_of_ne hsame none s.io.interest]
      exact hsome

/-- **Registered masks have a cause** in every state of a run, with descriptors closed in it. -/
theorem reach_justified (hM : M.NeverCloses) (h : Reach M (ForgetsClosed M) s) :
    s.Inv ∧ s.io.OnlyOpen (M.isOpen s.kernel) ∧ s.io.AllJustified := by
  refine Transition.Reach.invariant
    (fun t => t.Inv ∧ t.io.OnlyOpen (M.isOpen t.kernel) ∧ t.io.AllJustified) ?_ ?_ h
  · rintro t ht
    refine ⟨init_inv ht, ?_, ?_⟩ <;> obtain ⟨wakeFd, k, rfl⟩ := ht
    · intro fd hfd hsome
      have hfd' : fd ≠ wakeFd := hfd
      exact absurd hsome (by simp [IoScheduler.init, Function.update_of_ne hfd'])
    · intro fd hfd mask hmask
      have hfd' : fd ≠ wakeFd := hfd
      exact absurd hmask (by simp [IoScheduler.init, Function.update_of_ne hfd'])
  · rintro t a t' ⟨hinv, hopen, hj⟩ hok hs
    -- the registration of a closed descriptor is gone
    have hdrop : ∀ fd, fd ≠ t.io.wakeFd → t.io.activeOn fd ≠ [] →
        M.isOpen t.kernel fd = true ∨ t.io.interest fd = none := by
      intro fd hfd _
      cases hreg : t.io.interest fd with
      | none => exact Or.inr rfl
      | some mask => exact Or.inl (hopen fd hfd (by simp [hreg]))
    exact ⟨step_inv hinv hs, step_onlyOpen hM hinv hok hopen hs, step_justified hinv hdrop hj hs⟩

/-- **When a notification makes an attempt.**  In every state of a run, a batch of events that
    epoll can report there passes its checks, and an event of it makes a `perform_io` call on an
    active operation of its descriptor exactly if it has a direction or a write is pending. -/
theorem attempted_iff (hM : M.NeverCloses) (h : Reach M (ForgetsClosed M) s) (tw : Nat)
    {events : List EpollEvent} (hdistinct : (events.map (·.fd)).Nodup)
    (hreport : ∀ ev ∈ events, ev.fd ≠ s.io.wakeFd → s.io.Reportable ev) :
    ∃ st, IoScheduler.processNotifications M tw events (.start s.io s.kernel) = .ok st ∧
      ∀ ev ∈ events, ev.fd ≠ s.io.wakeFd →
        ((∃ a ∈ st.attempts, a.op ∈ s.io.activeOn ev.fd) ↔
          Events.Has ev.events EPOLLIN ∨ Events.Has ev.events EPOLLOUT ∨
            ∃ op ∈ s.io.activeOn ev.fd, op.isReadOperation = false) := by
  obtain ⟨hinv, hopen, hj⟩ := reach_justified hM h
  have hstart : (IoScheduler.Notify.start s.io s.kernel).sched.Inv s.scheduled
      (IoScheduler.Notify.start s.io s.kernel).total := hinv.rep
  have hreg : ∀ ev ∈ events, ev.fd ≠ s.io.wakeFd →
      M.isOpen s.kernel ev.fd = true ∧ (s.io.interest ev.fd).isSome = true := by
    intro ev hev hfd
    obtain ⟨mask, hmask, -⟩ := hreport ev hev hfd
    have hsome : (s.io.interest ev.fd).isSome = true := by simp [hmask]
    exact ⟨hopen ev.fd hfd hsome, hsome⟩
  obtain ⟨st, hst⟩ := IoScheduler.processNotifications_ok_of_reportable hM tw hstart hdistinct hreg
  refine ⟨st, hst, ?_⟩
  intro ev hev hfd
  rw [← (hreport ev hev hfd).exists_selects hj hfd]
  -- the calls on the descriptor are those of the event
  have htried : st.triedOn ev.fd
      = (s.io.activeOn ev.fd).filter (fun a => decide (IoScheduler.Selects ev.events a)) :=
    (IoScheduler.processNotifications_triedOn hstart hdistinct hst).1 ev hev hfd
  constructor
  · rintro ⟨a, ha, hop⟩
    have hmem : a.op ∈ st.triedOn ev.fd :=
      List.mem_filter.mpr ⟨List.mem_map_of_mem ha, (List.mem_filter.mp hop).2⟩
    rw [htried] at hmem
    exact ⟨a.op, hop, of_decide_eq_true (List.mem_filter.mp hmem).2⟩
  · rintro ⟨op, hop, hsel⟩
    have hmem : op ∈ st.triedOn ev.fd := by
      rw [htried]
      exact List.mem_filter.mpr ⟨hop, decide_eq_true hsel⟩
    obtain ⟨a, ha, rfl⟩ := List.mem_map.mp (List.mem_filter.mp hmem).1
    exact ⟨a, ha, hop⟩

/-- Every descriptor of the quiet kernel is open. -/
instance (s : Sched Unit) (a : SchedAct Unit) : Decidable (ForgetsClosed quietKernel s a) :=
  match a with
  | .kernel _ => isTrue (fun _ _ h => absurd h (by simp [quietKernel]))
  | .schedule _ => isTrue trivial
  | .cancel _ _ => isTrue trivial
  | .pollCancellations _ => isTrue trivial
  | .pollNotifications _ _ => isTrue trivial
  | .wake _ => isTrue trivial
  | .forget _ => isTrue trivial

/-- A read and a write are pending on descriptor 5, which hangs up: the write is tried. -/
theorem attempted_on_hangUp :
    ∃ s : Sched Unit, s.io.Reportable ⟨5, EPOLLHUP⟩ ∧
      ∃ st, IoScheduler.processNotifications quietKernel 0 [⟨5, EPOLLHUP⟩]
          (.start s.io s.kernel) = .ok st ∧
        ∃ a ∈ st.attempts, a.op ∈ s.io.activeOn 5 := by
  have hrun : ∃ s, Reach quietKernel (ForgetsClosed quietKernel) s ∧
      decide (s.io.interest 5 = some (EPOLLIN ||| EPOLLOUT) ∧ s.io.wakeFd = 0 ∧
        ⟨2, 5, .ioWrite⟩ ∈ s.io.activeOn 5) = true :=
    Transition.exists_reach quietStart_init
      [.schedule ⟨1, 5, .ioRead⟩, .schedule ⟨2, 5, .ioWrite⟩] _ (by decide)
  obtain ⟨s, hs, hend⟩ := hrun
  obtain ⟨hmask, hwake, hwrite⟩ := of_decide_eq_true hend
  have hreport : s.io.Reportable ⟨5, EPOLLHUP⟩ := ⟨_, hmask, by decide, by decide⟩
  have hall : ∀ ev ∈ ([⟨5, EPOLLHUP⟩] : List EpollEvent), ev.fd ≠ s.io.wakeFd →
      s.io.Reportable ev := by
    intro ev hev _
    rw [List.mem_singleton.mp hev]
    exact hreport
  obtain ⟨st, hst, hiff⟩ := attempted_iff (fun _ _ _ h => h) hs 0 (by decide) hall
  refine ⟨s, hreport, st, hst, ?_⟩
  -- the event has no `EPOLLIN`, so it is the write that is tried
  apply (hiff ⟨5, EPOLLHUP⟩ (by simp) (by rw [hwake]; decide)).mpr
  exact Or.inr (Or.inr ⟨⟨2, 5, .ioWrite⟩, hwrite, rfl⟩)

/-- A read is pending on descriptor 5, which hangs up: nothing is tried, and the descriptor is
    registered as before, to be reported again. -/
theorem hangUp_without_attempt :
    ∃ s : Sched Unit, Reach quietKernel (ForgetsClosed quietKernel) s ∧
      s.io.activeOn 5 ≠ [] ∧ s.io.Reportable ⟨5, EPOLLHUP⟩ ∧
      ∃ st, IoScheduler.processNotifications quietKernel 0 [⟨5, EPOLLHUP⟩]
          (.start s.io s.kernel) = .ok st ∧
        st.attempts = [] ∧ st.sched.interest 5 = s.io.interest 5 := by
  have hrun : ∃ s, Reach quietKernel (ForgetsClosed quietKernel) s ∧
      (decide (s.io.interest 5 = some EPOLLIN ∧ s.io.activeOn 5 ≠ []) &&
        (IoScheduler.processNotifications quietKernel 0 [⟨5, EPOLLHUP⟩]
          (.start s.io s.kernel)).toOption.any (fun st =>
            st.attempts.isEmpty && decide (st.sched.interest 5 = some EPOLLIN))) = true :=
    Transition.exists_reach quietStart_init [.schedule ⟨1, 5, .ioRead⟩] _ (by decide)
  obtain ⟨s, hs, hend⟩ := hrun
  rw [Bool.and_eq_true, Option.any_eq_true] at hend
  obtain ⟨hstate, st, hst, hafter⟩ := hend
  obtain ⟨hmask, hbusy⟩ := of_decide_eq_true hstate
  rw [Bool.and_eq_true, List.isEmpty_iff, decide_eq_true_eq] at hafter
  refine ⟨s, hs, hbusy, ⟨_, hmask, by decide, by decide⟩, st, ?_, hafter.1, ?_⟩
  · exact Transition.toOption_eq_some.mp hst
  · rw [hafter.2, hmask]

end Sched

end Exios
