import Exios.Scheduler.Interest

namespace Exios

/-!
# Scheduler — the registrations agree with the list

The epoll instance and the operation list are changed separately; this module relates them
while descriptors stay open.

* `Backed` — every active operation is on an open descriptor that is registered;
* `Justified` — every registration besides that of the wake event is the union of the
  interests of some active operations on the descriptor, and not of none;
* `processNotifications_ok_of_open` — a batch of events on open descriptors passes the checks
  on `epoll_ctl`, also when it is stale;
* `registrations_agree` — both hold in every run that keeps its descriptors open, and no check
  on `epoll_ctl` fails there.
-/

/-! ### Masks -/

/-- Adding an interest adds only the direction of its operation. -/
theorem Events.Has.of_or_interest {m bit : Events} {a : AsyncIoOperation}
    (hbit : bit = EPOLLIN ∨ bit = EPOLLOUT) (h : Events.Has (m ||| a.interest) bit) :
    Events.Has m bit ∨ a.interest = bit := by
  by_cases hsame : a.interest = bit
  · exact Or.inr hsame
  · -- the other direction's bit does not meet this one
    have hdisj : bit &&& a.interest = 0 := by
      unfold AsyncIoOperation.interest at hsame ⊢
      rcases hbit with rfl | rfl <;> cases hr : a.isReadOperation <;> simp_all [EPOLLIN, EPOLLOUT]
    apply Or.inl
    unfold Events.Has at h ⊢
    rw [BitVec.and_comm, BitVec.and_or_distrib_left, hdisj, BitVec.and_comm] at h
    simpa using h

/-- A collected mask has a direction only if one of the operations does. -/
theorem exists_interest_of_foldl {bit : Events} (hbit : bit = EPOLLIN ∨ bit = EPOLLOUT)
    (ops : List AsyncIoOperation) {m : Events}
    (h : Events.Has (ops.foldl (fun m a => m ||| a.interest) m) bit) :
    Events.Has m bit ∨ ∃ a ∈ ops, a.interest = bit := by
  -- the mask collected so far is general
  induction ops generalizing m with
  | nil => exact Or.inl h
  | cons x ops ih =>
    rcases ih h with hm | ⟨a, ha, hint⟩
    · rcases hm.of_or_interest hbit with hm | hx
      · exact Or.inl hm
      · exact Or.inr ⟨x, by simp, hx⟩
    · exact Or.inr ⟨a, by simp [ha], hint⟩

/-- An empty mask asks for neither direction. -/
theorem not_has_zero {bit : Events} (hbit : bit = EPOLLIN ∨ bit = EPOLLOUT) :
    ¬ Events.Has 0 bit := by
  rcases hbit with rfl | rfl <;> decide

/-- An operation is interested in one direction. -/
theorem AsyncIoOperation.interest_eq (a : AsyncIoOperation) :
    a.interest = EPOLLIN ∨ a.interest = EPOLLOUT := by
  unfold interest
  split
  · exact Or.inl rfl
  · exact Or.inr rfl

theorem AsyncIoOperation.interest_eq_in {a : AsyncIoOperation} :
    a.interest = EPOLLIN ↔ a.isReadOperation = true := by
  unfold interest
  cases a.isReadOperation <;> simp [EPOLLIN, EPOLLOUT]

theorem AsyncIoOperation.interest_eq_out {a : AsyncIoOperation} :
    a.interest = EPOLLOUT ↔ a.isReadOperation = false := by
  unfold interest
  cases a.isReadOperation <;> simp [EPOLLIN, EPOLLOUT]

/-- System calls of operations close no descriptor. -/
def Kernel.NeverCloses {K : Type} (M : Kernel K) : Prop :=
  ∀ op k fd, M.isOpen k fd = true → M.isOpen (M.syscall op k).2 fd = true

/-- System calls of a kernel that closes nothing leave what is open open. -/
theorem Kernel.NeverCloses.moves {K : Type} {M : Kernel K} (hM : M.NeverCloses) {k k' : K}
    (h : IoScheduler.Moves M k k') {fd : Int} (hopen : M.isOpen k fd = true) :
    M.isOpen k' fd = true := by
  induction h with
  | refl => exact hopen
  | tail _ hstep ih =>
    obtain ⟨op, rfl⟩ := hstep
    exact hM op _ fd ih

namespace IoScheduler

/-! ### Active operations are registered -/

/-- Every active operation is on an open descriptor that is registered. -/
def Backed (s : IoScheduler) (isOpen : Int → Bool) : Prop :=
  ∀ op ∈ s.activeSegment, isOpen op.fd = true ∧ (s.interest op.fd).isSome = true

/-- The descriptor of an active operation is open and registered. -/
theorem Backed.of_busy {s : IoScheduler} {isOpen : Int → Bool} (hb : s.Backed isOpen) {fd : Int}
    (hbusy : s.activeOn fd ≠ []) : isOpen fd = true ∧ (s.interest fd).isSome = true := by
  obtain ⟨a, ha⟩ := List.exists_mem_of_ne_nil _ hbusy
  obtain ⟨ha, hfd⟩ := List.mem_filter.mp ha
  rw [← of_decide_eq_true hfd]
  exact hb a ha

/-- Scheduling on an open descriptor backs the new operation, and those that shared its
    registration. -/
theorem schedule_backed {s s' : IoScheduler} {log : List AsyncIoOperation} {extra : Nat}
    (hinv : s.Inv log extra) {isOpen : Int → Bool} {op : AsyncIoOperation}
    (hnew : op ∉ s.operations) (hopen : isOpen op.fd = true) (hb : s.Backed isOpen)
    (h : s.schedule (isOpen op.fd) op = .ok s') : s'.Backed isOpen := by
  intro a ha
  have ha' : a = op ∨ a ∈ s.activeSegment := (mem_schedule_active hinv hnew h a).mp ha
  rw [schedule_interest hinv h]
  by_cases hfd : a.fd = op.fd
  · rw [hfd, Function.update_self]
    exact ⟨hopen, rfl⟩
  · rw [Function.update_of_ne hfd]
    rcases ha' with rfl | ha'
    · exact absurd rfl hfd
    · exact hb a ha'

/-- What `cancel` leaves active is on other descriptors. -/
theorem cancelSection_active {s s' : IoScheduler} {log : List AsyncIoOperation} {extra : Nat}
    (hinv : s.Inv log extra) {fd : Int} {fuel : Nat} {isOpen found : Bool}
    (h : s.cancelSection fuel isOpen fd = some (.ok (s', found))) :
    s'.activeSegment = s.activeSegment.filter (fun a => decide (a.fd ≠ fd)) :=
  (cancelSection_spec hinv h).2.active

/-- `cancel` touches at most the registration of its descriptor. -/
theorem cancelSection_interest {s s' : IoScheduler} {log : List AsyncIoOperation} {extra : Nat}
    (hinv : s.Inv log extra) {fd : Int} {fuel : Nat} {isOpen found : Bool}
    (h : s.cancelSection fuel isOpen fd = some (.ok (s', found))) :
    (∀ fd', fd' ≠ fd → s'.interest fd' = s.interest fd') ∧
      (isOpen = true ∨ s.interest fd = none → s.activeOn fd ≠ [] → s'.interest fd = none) := by
  obtain ⟨lo, eq, hi, hsplit, ⟨rfl, rfl, -⟩ | ⟨heq, -, rfl, -⟩⟩ := cancelSection_ok hinv h
  · exact ⟨fun _ _ => rfl, fun _ hne => absurd hsplit.filter_on hne⟩
  · refine ⟨fun fd' hfd => ?_, fun hdrop _ => ?_⟩
    · unfold afterCancel epollDel
      cases isOpen <;> cases s.interest fd <;> simp [hfd]
    · unfold afterCancel epollDel
      rcases hdrop with rfl | hreg
      · cases hreg : s.interest fd <;> simp [hreg]
      · cases isOpen <;> simp [hreg]

/-- `cancel` registers nothing. -/
theorem cancelSection_unregisters {s s' : IoScheduler} {log : List AsyncIoOperation} {extra : Nat}
    (hinv : s.Inv log extra) {fd : Int} {fuel : Nat} {isOpen found : Bool}
    (h : s.cancelSection fuel isOpen fd = some (.ok (s', found))) {fd' : Int}
    (hreg : (s'.interest fd').isSome = true) : (s.interest fd').isSome = true := by
  obtain ⟨lo, eq, hi, -, ⟨-, rfl, -⟩ | ⟨-, -, rfl, -⟩⟩ := cancelSection_ok hinv h
  · exact hreg
  · by_cases hfd : fd' = fd
    · subst hfd
      unfold afterCancel epollDel at hreg
      cases isOpen <;> cases hold : s.interest fd' <;> simp [hold] at hreg ⊢
    · rw [(cancelSection_interest hinv h).1 fd' hfd] at hreg
      exact hreg

/-- A cancellation leaves the operations of other descriptors backed. -/
theorem cancelSection_backed {s s' : IoScheduler} {log : List AsyncIoOperation} {extra : Nat}
    (hinv : s.Inv log extra) {isOpen : Int → Bool} {fd : Int} {fuel : Nat} {found : Bool}
    (hb : s.Backed isOpen)
    (h : s.cancelSection fuel (isOpen fd) fd = some (.ok (s', found))) : s'.Backed isOpen := by
  intro a ha
  rw [cancelSection_active hinv h, List.mem_filter, decide_eq_true_eq] at ha
  rw [(cancelSection_interest hinv h).1 a.fd ha.2]
  exact hb a ha.1

section Notifications

variable {K : Type} {M : Kernel K} {tw : Nat} {ev : EpollEvent} {st st' : Notify K}
  {log : List AsyncIoOperation}

/-- An operation that survives an event on its descriptor was kept by the loop. -/
theorem EventSpec.mem_kept {fd : Int} {done kept : List AsyncIoOperation}
    (h : EventSpec M fd st st' done kept) {a : AsyncIoOperation}
    (ha : a ∈ st'.sched.activeSegment) (hfd : a.fd = fd) : a ∈ kept := by
  rw [h.completed.active, List.mem_filter, decide_eq_true_eq] at ha
  have hmem : a ∈ done ++ kept :=
    h.perm.mem_iff.mp (List.mem_filter.mpr ⟨ha.1, by simpa using hfd⟩)
  exact (List.mem_append.mp hmem).resolve_left ha.2

/-- An event leaves every operation backed: what it keeps pending is registered again. -/
theorem processEvent_backed (hM : M.NeverCloses) (hinv : st.sched.Inv log st.total)
    (hb : st.sched.Backed (M.isOpen st.kernel)) (h : processEvent M tw ev st = .ok st') :
    st'.sched.Backed (M.isOpen st'.kernel) := by
  rcases processEvent_ok hinv h with ⟨-, rfl⟩ | ⟨-, done, kept, hspec⟩
  · exact hb
  · intro a ha
    -- what is active afterwards was so before, on an open descriptor
    have hbefore : a ∈ st.sched.activeSegment := by
      have ha' := ha
      rw [hspec.completed.active] at ha'
      exact (List.mem_filter.mp ha').1
    refine ⟨hM.moves hspec.completed.performed.kernel (hb a hbefore).1, ?_⟩
    rw [hspec.interest]
    by_cases hfd : a.fd = ev.fd
    · -- it was kept on this descriptor, so the event registers it again
      have hne : kept ≠ [] := List.ne_nil_of_mem (hspec.mem_kept ha hfd)
      rw [hfd, Function.update_self, if_neg hne]
      rfl
    · rw [Function.update_of_ne hfd]
      exact (hb a hbefore).2

/-- The loop over a descriptor keeps an operation only if there was one, so the descriptor is
    registered when it is registered again. -/
theorem reregister_ok_of_open {reg : Registrations} {fd : Int} {allDone : Bool}
    (hreg : allDone = false → (reg fd).isSome = true) (events : Events) :
    ∃ reg', reregister true reg fd allDone events = .ok reg' := by
  have hcheck : allDone = true ∨ (reg fd).isSome = true := by
    cases allDone with
    | true => exact Or.inl rfl
    | false => exact Or.inr (hreg rfl)
  have hspec := reregister_toOption true allDone reg fd events
  rw [if_pos ⟨rfl, hcheck⟩] at hspec
  exact ⟨_, Transition.toOption_eq_some.mp hspec⟩

/-- **An event on an open descriptor passes its checks**, stale or not. -/
theorem processEvent_ok_of_open (hM : M.NeverCloses) (tw : Nat) (hinv : st.sched.Inv log st.total)
    (hbusy : st.sched.activeOn ev.fd ≠ [] → (st.sched.interest ev.fd).isSome = true)
    (hopen : ev.fd ≠ st.sched.wakeFd → M.isOpen st.kernel ev.fd = true) :
    ∃ st', processEvent M tw ev st = .ok st' := by
  by_cases hfd : ev.fd = st.sched.wakeFd
  · exact ⟨_, by rw [processEvent, if_pos hfd]⟩
  · obtain ⟨l, lo, eq, hi, done, kept, hsplit, hspec, hloop⟩ := eventLoop_spec M tw ev st hinv
    have hopen' : M.isOpen l.kernel ev.fd = true :=
      hM.moves hspec.performed.kernel (hopen hfd)
    -- a descriptor that had an operation is registered
    have hreg : decide (l.itemsForFd = l.itemsProcessed) = false →
        (l.sched.interest ev.fd).isSome = true := by
      intro hnot
      have hne : eq ≠ [] := by
        rintro rfl
        have hdone := hspec.done_sub.length_le
        rw [hspec.itemsForFd, hspec.itemsProcessed] at hnot
        simp at hnot hdone
        exact hnot (by rw [hdone]; rfl)
      rw [hspec.interest]
      exact hbusy (by rw [activeOn, hsplit.filter_on]; exact hne)
    obtain ⟨reg', hreg'⟩ := reregister_ok_of_open hreg l.reregister
    rw [processEvent_of_loop hfd hloop, hopen', hreg']
    exact ⟨_, rfl⟩

/-- An event that passed its checks was on a descriptor that was open by then. -/
theorem processEvent_isOpen (hinv : st.sched.Inv log st.total)
    (h : processEvent M tw ev st = .ok st') (hfd : ev.fd ≠ st.sched.wakeFd) :
    M.isOpen st'.kernel ev.fd = true := by
  obtain ⟨l, _, _, _, _, _, -, -, hloop⟩ := eventLoop_spec M tw ev st hinv
  obtain ⟨hopen, rfl⟩ := processEvent_passed hfd hloop h
  exact hopen

/-- **A batch of events on open descriptors passes its checks**, stale or not. -/
theorem processNotifications_ok_of_open (hM : M.NeverCloses) (tw : Nat) {events : List EpollEvent}
    (hinv : st.sched.Inv log st.total) (hb : st.sched.Backed (M.isOpen st.kernel))
    (hopen : ∀ ev ∈ events, ev.fd ≠ st.sched.wakeFd → M.isOpen st.kernel ev.fd = true) :
    ∃ st', processNotifications M tw events st = .ok st' := by
  induction events generalizing st with
  | nil => exact ⟨st, rfl⟩
  | cons ev events ih =>
    obtain ⟨st₁, hev⟩ := processEvent_ok_of_open hM tw hinv (fun hbusy => (hb.of_busy hbusy).2)
      (hopen ev (by simp))
    obtain ⟨done, hdone⟩ := processEvent_completed hinv hev
    -- system calls of the first event close none of the others
    have hrest : ∀ e ∈ events, e.fd ≠ st₁.sched.wakeFd → M.isOpen st₁.kernel e.fd = true := by
      intro e he hne
      rw [hdone.wakeFd] at hne
      exact hM.moves hdone.performed.kernel (hopen e (by simp [he]) hne)
    obtain ⟨st', hst'⟩ := ih (hdone.inv hinv) (processEvent_backed hM hinv hb hev) hrest
    exact ⟨st', by rw [processNotifications, hev]; exact hst'⟩

/-- A batch that passed its checks had each of its descriptors open by then. -/
theorem processNotifications_isOpen {events : List EpollEvent} (hinv : st.sched.Inv log st.total)
    (h : processNotifications M tw events st = .ok st') :
    ∀ ev ∈ events, ev.fd ≠ st.sched.wakeFd →
      ∃ k, Moves M st.kernel k ∧ M.isOpen k ev.fd = true := by
  induction events generalizing st with
  | nil => simp
  | cons ev events ih =>
    obtain ⟨st₁, hev, hrest⟩ := processNotifications_cons.mp h
    obtain ⟨done, hdone⟩ := processEvent_completed hinv hev
    intro e he hne
    rcases List.mem_cons.mp he with rfl | he
    · exact ⟨st₁.kernel, hdone.performed.kernel, processEvent_isOpen hinv hev hne⟩
    · obtain ⟨k, hk, hopen⟩ := ih (hdone.inv hinv) hrest e he (by rw [hdone.wakeFd]; exact hne)
      exact ⟨k, hdone.performed.kernel.trans hk, hopen⟩

end Notifications

/-! ### Registrations have a cause -/

/-- The mask is the union of the interests of some active operations on the descriptor. -/
def Justified (s : IoScheduler) (fd : Int) (mask : Events) : Prop :=
  ∃ ops, ops ≠ [] ∧ (∀ a ∈ ops, a ∈ s.activeOn fd) ∧
    mask = ops.foldl (fun m a => m ||| a.interest) 0

/-- Every registration besides that of the wake event is justified. -/
def AllJustified (s : IoScheduler) : Prop :=
  ∀ fd, fd ≠ s.wakeFd → ∀ mask, s.interest fd = some mask → s.Justified fd mask

/-- A registration is justified by more operations too. -/
theorem Justified.mono {s s' : IoScheduler} {fd : Int} {mask : Events} (h : s.Justified fd mask)
    (hsub : ∀ a ∈ s.activeOn fd, a ∈ s'.activeOn fd) : s'.Justified fd mask := by
  obtain ⟨ops, hne, hmem, hmask⟩ := h
  exact ⟨ops, hne, fun a ha => hsub a (hmem a ha), hmask⟩

/-- What a justified mask says about the active operations. -/
theorem Justified.spec {s : IoScheduler} {fd : Int} {mask : Events} (h : s.Justified fd mask) :
    mask ≠ 0 ∧ s.activeOn fd ≠ [] ∧
      (Events.Has mask EPOLLIN → ∃ a ∈ s.activeOn fd, a.isReadOperation = true) ∧
      (Events.Has mask EPOLLOUT → ∃ a ∈ s.activeOn fd, a.isReadOperation = false) := by
  obtain ⟨ops, hne, hmem, rfl⟩ := h
  obtain ⟨x, xs, rfl⟩ := List.exists_cons_of_ne_nil hne
  -- each direction of the mask comes from an operation
  have hdir : ∀ bit, bit = EPOLLIN ∨ bit = EPOLLOUT →
      Events.Has ((x :: xs).foldl (fun m a => m ||| a.interest) 0) bit →
      ∃ a ∈ s.activeOn fd, a.interest = bit := by
    intro bit hbit hhas
    rcases exists_interest_of_foldl hbit _ hhas with hzero | ⟨a, ha, hint⟩
    · exact absurd hzero (not_has_zero hbit)
    · exact ⟨a, hmem a ha, hint⟩
  refine ⟨?_, List.ne_nil_of_mem (hmem x (by simp)), ?_, ?_⟩
  · intro hzero
    have hhas := foldl_interest_mem (show x ∈ x :: xs by simp) 0
    rw [hzero] at hhas
    exact not_has_zero x.interest_eq hhas
  · intro hhas
    obtain ⟨a, ha, hint⟩ := hdir EPOLLIN (Or.inl rfl) hhas
    exact ⟨a, ha, AsyncIoOperation.interest_eq_in.mp hint⟩
  · intro hhas
    obtain ⟨a, ha, hint⟩ := hdir EPOLLOUT (Or.inr rfl) hhas
    exact ⟨a, ha, AsyncIoOperation.interest_eq_out.mp hint⟩

/-- Scheduling justifies the interest that it registers. -/
theorem schedule_justified {s s' : IoScheduler} {log : List AsyncIoOperation} {extra : Nat}
    (hinv : s.Inv log extra) {isOpen : Bool} {op : AsyncIoOperation} (hnew : op ∉ s.operations)
    (hj : s.AllJustified) (h : s.schedule isOpen op = .ok s') : s'.AllJustified := by
  have hmem := mem_schedule_active hinv hnew h
  have hwake : s'.wakeFd = s.wakeFd := by
    obtain ⟨_, _, _, -, hs'⟩ := schedule_ok hinv h
    rw [hs']
  have hop : op ∈ s'.activeSegment := (hmem op).mpr (Or.inl rfl)
  have hsub : ∀ fd, ∀ a ∈ s.activeOn fd, a ∈ s'.activeOn fd := by
    intro fd a ha
    obtain ⟨ha, hfd⟩ := List.mem_filter.mp ha
    exact List.mem_filter.mpr ⟨(hmem a).mpr (Or.inr ha), hfd⟩
  intro fd hfd mask hmask
  rw [schedule_interest hinv h] at hmask
  by_cases hsame : fd = op.fd
  · subst hsame
    rw [Function.update_self, Option.some.injEq] at hmask
    have hmem : op ∈ s'.activeOn op.fd := List.mem_filter.mpr ⟨hop, by simp⟩
    -- the mask starts from the new operation's interest
    have hstart : (0 : Events) ||| op.interest = op.interest := BitVec.zero_or
    by_cases hback : TakesBack s.activeSegment op.fd
    · refine ⟨[op], by simp, by simpa using hmem, ?_⟩
      rw [← hmask, scheduleMask, if_pos hback, List.foldl_cons, hstart]
      rfl
    · refine ⟨op :: s.activeOn op.fd, by simp, ?_, ?_⟩
      · intro a ha
        rcases List.mem_cons.mp ha with rfl | ha
        · exact hmem
        · exact hsub _ a ha
      · rw [← hmask, scheduleMask, if_neg hback, List.foldl_cons, hstart]
        rfl
  · rw [Function.update_of_ne hsame] at hmask
    exact (hj fd (by rw [← hwake]; exact hfd) mask hmask).mono (hsub fd)

/-- A cancellation removes the registration with the operations, unless `EPOLL_CTL_DEL` fails on a
    closed descriptor. -/
theorem cancelSection_justified {s s' : IoScheduler} {log : List AsyncIoOperation} {extra : Nat}
    (hinv : s.Inv log extra) {fd : Int} {fuel : Nat} {isOpen found : Bool}
    (hdrop : fd ≠ s.wakeFd → s.activeOn fd ≠ [] → isOpen = true ∨ s.interest fd = none)
    (hj : s.AllJustified)
    (h : s.cancelSection fuel isOpen fd = some (.ok (s', found))) : s'.AllJustified := by
  obtain ⟨hother, hsame⟩ := cancelSection_interest hinv h
  have hact := cancelSection_active hinv h
  have hwake : s'.wakeFd = s.wakeFd := by
    obtain ⟨lo, eq, hi, -, ⟨-, rfl, -⟩ | ⟨-, -, rfl, -⟩⟩ := cancelSection_ok hinv h <;> rfl
  intro fd' hfd' mask hmask
  rw [hwake] at hfd'
  by_cases hne : fd' = fd
  · subst hne
    by_cases hon : s.activeOn fd' = []
    · -- nothing to cancel, nothing changed
      obtain ⟨lo, eq, hi, hsplit, ⟨-, rfl, -⟩ | ⟨heq, -, -, -⟩⟩ := cancelSection_ok hinv h
      · exact hj fd' hfd' mask hmask
      · exact absurd (hsplit.filter_on.symm.trans hon) heq
    · -- the descriptor of the cancelled operations is de-registered, if it was registered
      rw [hsame (hdrop hfd' hon) hon] at hmask
      exact absurd hmask (by simp)
  · rw [hother fd' hne] at hmask
    refine (hj fd' hfd' mask hmask).mono (fun a ha => ?_)
    obtain ⟨ha, hfd⟩ := List.mem_filter.mp ha
    refine List.mem_filter.mpr ⟨?_, hfd⟩
    rw [hact, List.mem_filter, decide_eq_true_eq, of_decide_eq_true hfd]
    exact ⟨ha, hne⟩

/-- An event registers exactly what it leaves pending, or removes the registration. -/
theorem processEvent_justified {K : Type} {M : Kernel K} {tw : Nat} {ev : EpollEvent}
    {st st' : Notify K} {log : List AsyncIoOperation} (hinv : st.sched.Inv log st.total)
    (hj : st.sched.AllJustified) (h : processEvent M tw ev st = .ok st') :
    st'.sched.AllJustified := by
  rcases processEvent_ok hinv h with ⟨-, rfl⟩ | ⟨-, done, kept, hspec⟩
  · exact hj
  · have hnd : (done ++ kept).Nodup := hspec.perm.nodup_iff.mp (hinv.nodup_activeOn ev.fd)
    -- what is not completed stays active
    have hstay : ∀ fd, ∀ a ∈ st.sched.activeOn fd, a ∉ done → a ∈ st'.sched.activeOn fd := by
      intro fd a ha hnot
      obtain ⟨ha, hfd⟩ := List.mem_filter.mp ha
      refine List.mem_filter.mpr ⟨?_, hfd⟩
      rw [hspec.completed.active, List.mem_filter, decide_eq_true_eq]
      exact ⟨ha, hnot⟩
    intro fd hfd mask hmask
    rw [hspec.completed.wakeFd] at hfd
    rw [hspec.interest] at hmask
    by_cases hsame : fd = ev.fd
    · subst hsame
      rw [Function.update_self] at hmask
      by_cases hk : kept = []
      · rw [if_pos hk] at hmask
        exact absurd hmask (by simp)
      · rw [if_neg hk, Option.some.injEq] at hmask
        refine ⟨kept, hk, fun a ha => ?_, hmask.symm⟩
        refine hstay _ a (hspec.perm.mem_iff.mpr (List.mem_append_right _ ha)) (fun hd => ?_)
        exact List.disjoint_of_nodup_append hnd hd ha
    · rw [Function.update_of_ne hsame] at hmask
      refine (hj fd hfd mask hmask).mono (fun a ha => hstay fd a ha (fun hd => ?_))
      -- completed operations are on the event's descriptor
      have hmem := hspec.perm.mem_iff.mpr (List.mem_append_left kept hd)
      have hev := of_decide_eq_true (List.mem_filter.mp hmem).2
      exact hsame ((of_decide_eq_true (List.mem_filter.mp ha).2).symm.trans hev)

end IoScheduler

/-! ### Runs -/

namespace Sched

variable {K : Type} {M : Kernel K} {s s' : Sched K}

/-- Every active operation is on an open descriptor that is registered. -/
def Backed (M : Kernel K) (s : Sched K) : Prop := s.io.Backed (M.isOpen s.kernel)

/-- Scheduling keeps every active operation backed. -/
theorem schedule_backed (hinv : s.Inv) {op : AsyncIoOperation} (hnew : op ∉ s.scheduled)
    (hb : s.Backed M) (h : s.schedule M op = .ok s') : s'.Backed M := by
  have hopen := schedule_isOpen h
  obtain ⟨io, hio, rfl⟩ := schedule_cases h
  exact IoScheduler.schedule_backed hinv.rep (fun hm => hnew (hinv.mem_operations hm)) hopen hb hio

/-- So does a cancellation that returns. -/
theorem cancel_backed (hinv : s.Inv) {fuel : Nat} {fd : Int} {found : Bool} (hb : s.Backed M)
    (h : s.cancel M fuel fd = some (.ok (s', found))) : s'.Backed M := by
  obtain ⟨io, hio, rfl⟩ := cancel_cases h
  exact IoScheduler.cancelSection_backed hinv.rep hb hio

/-- So does the first section of `poll_once`, which touches no active operation. -/
theorem pollCancellations_backed (hinv : s.Inv) {tw : Nat} {p : IoScheduler.CancelPhase}
    (hb : s.Backed M) (h : s.pollCancellations tw = .ok (s', p)) : s'.Backed M := by
  obtain ⟨w, rfl⟩ := pollCancellations_cases hinv h
  intro a ha
  exact hb a (by simpa [IoScheduler.activeSegment] using ha)

/-- So does the second section, on a kernel that closes nothing. -/
theorem pollNotifications_backed (hM : M.NeverCloses) (hinv : s.Inv) {tw : Nat}
    {events : List EpollEvent} {n : IoScheduler.Notify K} (hb : s.Backed M)
    (h : s.pollNotifications M tw events = .ok (s', n)) : s'.Backed M := by
  obtain ⟨st, done, hst, -, rfl, rfl⟩ := pollNotifications_cases hinv h
  exact IoScheduler.processNotifications_induct (fun t => t.sched.Backed (M.isOpen t.kernel))
    (fun _ _ _ hi hp he => IoScheduler.processEvent_backed hM hi hp he) events
    (hinv.rep.start s.kernel) hb hst

/-- `schedule` on an open descriptor passes its check. -/
theorem schedule_ok_of_open {op : AsyncIoOperation} (hopen : M.isOpen s.kernel op.fd = true) :
    ∃ s', s.schedule M op = .ok s' := by
  have hreg : ∀ reg events, ∃ reg', IoScheduler.register true reg op.fd events = .ok reg' := by
    intro reg events
    unfold IoScheduler.register epollAdd epollMod
    cases hfd : reg op.fd <;> simp
  unfold schedule IoScheduler.schedule
  rw [hopen]
  dsimp only
  split
  · rename_i e herr
    obtain ⟨reg', hok⟩ := hreg s.io.interest _
    rw [hok] at herr
    exact absurd herr (by simp)
  · exact ⟨_, rfl⟩

/-- A notification phase on a batch whose descriptors are open passes its checks. -/
theorem pollNotifications_ok_of_open (hM : M.NeverCloses) (hinv : s.Inv) (hb : s.Backed M)
    (tw : Nat) (events : List EpollEvent)
    (hopen : ∀ ev ∈ events, ev.fd ≠ s.io.wakeFd → M.isOpen s.kernel ev.fd = true) :
    ∃ s' n, s.pollNotifications M tw events = .ok (s', n) := by
  have hstart : (IoScheduler.Notify.start s.io s.kernel).sched.Inv s.scheduled
      (IoScheduler.Notify.start s.io s.kernel).total := hinv.rep
  obtain ⟨st, hst⟩ := IoScheduler.processNotifications_ok_of_open hM tw hstart hb hopen
  obtain ⟨done, hdone⟩ := IoScheduler.processNotifications_ok hstart hst
  unfold pollNotifications IoScheduler.notificationPhase
  rw [show (⟨s.io, s.kernel, [], [], 0⟩ : IoScheduler.Notify K) = .start s.io s.kernel from rfl, hst]
  dsimp only
  rw [IoScheduler.decrementCount_of_inv (hdone.inv hstart)]
  exact ⟨_, _, rfl⟩

/-- The condition on the steps: descriptors that are used are open, and stay so. -/
def StaysOpen (M : Kernel K) (s : Sched K) : SchedAct K → Prop
  | .schedule op => M.isOpen s.kernel op.fd = true
  | .pollNotifications events _ =>
    ∀ ev ∈ events, ev.fd ≠ s.io.wakeFd → M.isOpen s.kernel ev.fd = true
  | .kernel k => ∀ fd, M.isOpen s.kernel fd = true → M.isOpen k fd = true
  | .forget _ => False
  | _ => True

/-- The condition that keeps operations backed: a descriptor is closed, and loses its
    registration, only when no active operation is on it. -/
def ClosesIdle (M : Kernel K) (s : Sched K) : SchedAct K → Prop
  | .kernel k => ∀ fd, M.isOpen s.kernel fd = true → M.isOpen k fd = false → s.io.activeOn fd = []
  | .forget fd => s.io.activeOn fd = []
  | _ => True

/-- Who closes no descriptor closes only idle ones. -/
theorem StaysOpen.closesIdle {a : SchedAct K} (h : StaysOpen M s a) : ClosesIdle M s a := by
  cases a with
  | kernel k => exact fun fd hopen hclosed => absurd (h fd hopen) (by simp [hclosed])
  | forget fd => exact absurd h id
  | _ => trivial

/-- **The step lemma** for backed operations. -/
theorem step_backed (hM : M.NeverCloses) {a : SchedAct K} (hinv : s.Inv)
    (hok : ClosesIdle M s a) (hb : s.Backed M) (h : step M s a = some s') : s'.Backed M := by
  -- the descriptor of an active operation is not idle
  have hbusy : ∀ x ∈ s.io.activeSegment, s.io.activeOn x.fd ≠ [] := by
    intro x hx
    exact List.ne_nil_of_mem (List.mem_filter.mpr ⟨hx, decide_eq_true rfl⟩)
  cases a with
  | schedule op =>
    obtain ⟨hnew, hs⟩ := step_schedule.mp h
    exact schedule_backed hinv hnew hb hs
  | cancel fd fuel =>
    obtain ⟨found, hs⟩ := step_cancel.mp h
    exact cancel_backed hinv hb hs
  | pollCancellations tw =>
    obtain ⟨p, hs⟩ := step_pollCancellations.mp h
    exact pollCancellations_backed hinv hb hs
  | pollNotifications events tw =>
    obtain ⟨n, hs⟩ := step_pollNotifications.mp h
    exact pollNotifications_backed hM hinv hb hs
  | wake tw =>
    rw [step, Option.some.injEq] at h
    exact h ▸ hb
  | kernel k =>
    rw [step, Option.some.injEq] at h
    subst h
    intro x hx
    refine ⟨?_, (hb x hx).2⟩
    by_contra hclosed
    exact hbusy x hx (hok x.fd (hb x hx).1 (by simpa using hclosed))
  | forget fd =>
    rw [step, Option.some.injEq] at h
    subst h
    intro x hx
    have hne : x.fd ≠ fd := fun heq => hbusy x hx (heq ▸ hok)
    refine ⟨(hb x hx).1, ?_⟩
    show (Function.update s.io.interest fd none x.fd).isSome = true
    rw [Function.update_of_ne hne]
    exact (hb x hx).2

/-- **The step lemma** for justified registrations. -/
theorem step_justified {a : SchedAct K} (hinv : s.Inv)
    (hdrop : ∀ fd, fd ≠ s.io.wakeFd → s.io.activeOn fd ≠ [] →
      M.isOpen s.kernel fd = true ∨ s.io.interest fd = none)
    (hj : s.io.AllJustified) (h : step M s a = some s') : s'.io.AllJustified := by
  cases a with
  | schedule op =>
    obtain ⟨hnew, hs⟩ := step_schedule.mp h
    obtain ⟨io, hio, rfl⟩ := schedule_cases hs
    exact IoScheduler.schedule_justified hinv.rep (fun hm => hnew (hinv.mem_operations hm)) hj hio
  | cancel fd fuel =>
    obtain ⟨found, hs⟩ := step_cancel.mp h
    obtain ⟨io, hio, rfl⟩ := cancel_cases hs
    exact IoScheduler.cancelSection_justified hinv.rep (hdrop fd) hj hio
  | pollCancellations tw =>
    obtain ⟨p, hp⟩ := step_pollCancellations.mp h
    obtain ⟨w, rfl⟩ := pollCancellations_cases hinv hp
    intro fd hfd mask hmask
    -- the cancelled operations justify nothing, so posting them is no loss
    refine (hj fd hfd mask hmask).mono (fun a ha => ?_)
    simpa [IoScheduler.activeOn, IoScheduler.activeSegment] using ha
  | pollNotifications events tw =>
    obtain ⟨n, hn⟩ := step_pollNotifications.mp h
    obtain ⟨st, done, hst, -, rfl, rfl⟩ := pollNotifications_cases hinv hn
    exact IoScheduler.processNotifications_induct (fun t => t.sched.AllJustified)
      (fun _ _ _ hi hp he => IoScheduler.processEvent_justified hi hp he) events
      (hinv.rep.start s.kernel) hj hst
  | wake tw =>
    rw [step, Option.some.injEq] at h
    exact h ▸ hj
  | kernel k =>
    rw [step, Option.some.injEq] at h
    exact h ▸ hj
  | forget fd =>
    rw [step, Option.some.injEq] at h
    subst h
    -- a closed descriptor has lost its registration, the others keep theirs
    intro fd' hfd' mask hmask
    by_cases hsame : fd' = fd
    · rw [hsame] at hmask
      exact absurd hmask (by simp)
    · refine (hj fd' hfd' mask ?_).mono (fun _ ha => ha)
      exact (Function.update_of_ne hsame _ _).symm.trans hmask

/-- The registrations agree with the list in every state of a run that keeps descriptors open. -/
theorem reach_registered (hM : M.NeverCloses) (h : Reach M (StaysOpen M) s) :
    s.Inv ∧ s.Backed M ∧ s.io.AllJustified := by
  refine Transition.Reach.invariant (fun t => t.Inv ∧ t.Backed M ∧ t.io.AllJustified) ?_ ?_ h
  · rintro t ht
    refine ⟨init_inv ht, ?_, ?_⟩ <;> obtain ⟨wakeFd, k, rfl⟩ := ht
    · intro a ha
      exact absurd ha (by simp [IoScheduler.init, IoScheduler.activeSegment])
    · intro fd hfd mask hmask
      have hfd' : fd ≠ wakeFd := hfd
      exact absurd hmask (by simp [IoScheduler.init, Function.update_of_ne hfd'])
  · rintro t a t' ⟨hinv, hb, hj⟩ hok hs
    have hdrop : ∀ fd, fd ≠ t.io.wakeFd → t.io.activeOn fd ≠ [] →
        M.isOpen t.kernel fd = true ∨ t.io.interest fd = none :=
      fun fd _ hbusy => Or.inl (IoScheduler.Backed.of_busy hb hbusy).1
    exact ⟨step_inv hinv hs, step_backed hM hinv hok.closesIdle hb hs,
      step_justified hinv hdrop hj hs⟩

/-- **No spurious interest, and no failing `epoll_ctl`.**  In every run that keeps its
    descriptors open, a descriptor other than the wake event's is registered exactly while an
    active operation is on it, for directions that its operations wait for; and `schedule` and
    the notification phase pass their checks, the latter on stale batches too. -/
theorem registrations_agree (hM : M.NeverCloses) (h : Reach M (StaysOpen M) s) :
    (∀ fd, fd ≠ s.io.wakeFd →
      ((s.io.interest fd).isSome = true ↔ s.io.activeOn fd ≠ []) ∧
      ∀ mask, s.io.interest fd = some mask → mask ≠ 0 ∧
        (Events.Has mask EPOLLIN → ∃ a ∈ s.io.activeOn fd, a.isReadOperation = true) ∧
        (Events.Has mask EPOLLOUT → ∃ a ∈ s.io.activeOn fd, a.isReadOperation = false)) ∧
    (∀ op, M.isOpen s.kernel op.fd = true → ∃ s', s.schedule M op = .ok s') ∧
    (∀ events tw, (∀ ev ∈ events, ev.fd ≠ s.io.wakeFd → M.isOpen s.kernel ev.fd = true) →
      ∃ s' n, s.pollNotifications M tw events = .ok (s', n)) := by
  obtain ⟨hinv, hb, hj⟩ := reach_registered hM h
  refine ⟨fun fd hfd => ⟨⟨?_, ?_⟩, ?_⟩, fun op hopen => schedule_ok_of_open hopen,
    fun events tw hopen => pollNotifications_ok_of_open hM hinv hb tw events hopen⟩
  · intro hsome
    obtain ⟨mask, hmask⟩ := Option.isSome_iff_exists.mp hsome
    exact (hj fd hfd mask hmask).spec.2.1
  · -- who waits is registered: the epoll set backs every active operation
    intro hon
    exact (IoScheduler.Backed.of_busy hb hon).2
  · intro mask hmask
    obtain ⟨hne, -, hin, hout⟩ := (hj fd hfd mask hmask).spec
    exact ⟨hne, hin, hout⟩

/-- Every descriptor of the quiet kernel is open, so every run without `forget` qualifies. -/
instance (s : Sched Unit) (a : SchedAct Unit) : Decidable (StaysOpen quietKernel s a) :=
  match a with
  | .forget _ => isFalse id
  | .schedule _ => isTrue rfl
  | .cancel _ _ => isTrue trivial
  | .pollCancellations _ => isTrue trivial
  | .pollNotifications _ _ => isTrue (fun _ _ _ => rfl)
  | .wake _ => isTrue trivial
  | .kernel _ => isTrue (fun _ h => h)

/-- A wait on 3 is cancelled, then a stale event for 3 arrives while 5 is waited on: the event
    is processed, and 5 stays registered for reading only. -/
theorem registrations_after_stale_event :
    ∃ s : Sched Unit, s.io.interest 3 = none ∧ s.io.activeOn 5 ≠ [] ∧
      (s.io.interest 5).isSome = true ∧
      ∃ s' n, s.pollNotifications quietKernel 0 [⟨3, EPOLLIN⟩] = .ok (s', n) := by
  have hrun : ∃ s, Reach quietKernel (StaysOpen quietKernel) s ∧
      decide (s.io.interest 3 = none ∧ s.io.activeOn 5 ≠ [] ∧ s.io.wakeFd = 0) = true :=
    Transition.exists_reach quietStart_init
      [.schedule ⟨1, 3, .ioRead⟩, .schedule ⟨2, 5, .ioRead⟩, .cancel 3 2,
        .pollNotifications [⟨3, EPOLLIN⟩] 0] _ (by decide)
  obtain ⟨s, hs, hend⟩ := hrun
  obtain ⟨h3, h5, hwake⟩ := of_decide_eq_true hend
  have hagree := registrations_agree (fun _ _ _ h => h) hs
  refine ⟨s, h3, h5, ((hagree.1 5 (by rw [hwake]; decide)).1).mpr h5, ?_⟩
  exact hagree.2.2 _ 0 (fun _ _ _ => rfl)

end Sched

end Exios
