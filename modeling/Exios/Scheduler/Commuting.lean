import Exios.Base.Component
import Exios.Scheduler.Attempts

namespace Exios

open Transition (component exec)

/-!
# Scheduler — the events of a batch commute

An event searches, erases from and registers against structures that the whole batch shares.
Here a state of `process_notifications` is cut into its *portions*, one for each descriptor: the
active operations on it, its registration, what was posted for it, and the part of the kernel
that answers for it.

* `Kernel.Locality` — the assumption on the kernel: the outcome of a call depends on the
  operation and on the earlier calls on the same descriptor;
* `Kernel.Locality.event` — an event as a step on the portion of its descriptor;
* `processEvent_portion` — `process_notifications` makes that step, and leaves the other
  portions alone;
* `batch_commutes` — so the order of a batch with distinct descriptors does not matter.
-/

/-! ### A kernel that keeps descriptors apart -/

/-- The kernel has a state `view k fd` for each descriptor, which decides the calls on it and is
    changed by these calls only. -/
structure Kernel.Locality {K : Type} (M : Kernel K) (V : Type) where
  view : K → Int → V
  outcome : AsyncIoOperation → V → SysOutcome
  next : AsyncIoOperation → V → V
  opened : Int → V → Bool
  outcome_eq : ∀ op k, (M.syscall op k).1 = outcome op (view k op.fd)
  view_eq : ∀ op k,
    view (M.syscall op k).2 = Function.update (view k) op.fd (next op (view k op.fd))
  isOpen_eq : ∀ k fd, M.isOpen k fd = opened fd (view k fd)

/-- What a state of `process_notifications` has for one descriptor. -/
structure Portion (V : Type) where
  /-- The active operations on the descriptor. -/
  pending : List AsyncIoOperation
  /-- Its registration. -/
  interest : Option Events
  /-- The operations on it that were posted, oldest first. -/
  posted : List AsyncIoOperation
  /-- Its part of the kernel. -/
  view : V

namespace Kernel.Locality

variable {K V : Type} {M : Kernel K}

/-- The selected operations are tried in turn: those that completed, and the state that the
    calls leave. -/
def tryAll (L : M.Locality V) (mask : Events) :
    List AsyncIoOperation → V → List AsyncIoOperation × V
  | [], v => ([], v)
  | item :: rest, v =>
    if IoScheduler.Selects mask item then
      let (done, v') := L.tryAll mask rest (L.next item v)
      match io item.kind (L.outcome item v) none with
      | .ok (true, _) => (item :: done, v')
      | _ => (done, v')
    else L.tryAll mask rest v

/-- An event on the portion of its descriptor; `none` when a check on `epoll_ctl` fails. -/
def event (L : M.Locality V) (wakeFd : Int) (ev : EpollEvent) (p : Portion V) :
    Option (Portion V) :=
  if ev.fd = wakeFd then some p
  else
    let done := (L.tryAll ev.events p.pending p.view).1
    let view := (L.tryAll ev.events p.pending p.view).2
    let kept := p.pending.filter (fun a => decide (a ∉ done))
    if L.opened ev.fd view = true ∧ (kept = [] ∨ p.interest.isSome = true) then
      some
        { pending := kept
          interest := if kept = [] then none
            else some (kept.foldl (fun m a => m ||| a.interest) 0)
          posted := p.posted ++ done
          view := view }
    else none

end Kernel.Locality

namespace IoScheduler

variable {K V : Type} {M : Kernel K} {tw : Nat}

/-! ### The loop of one event -/

/-- The rounds on the operations of a descriptor complete the operations that `tryAll` says, and
    change that descriptor's part of the kernel only. -/
theorem LoopRun.tryAll (L : M.Locality V) {mask : Events} {fd : Int}
    {items : List AsyncIoOperation} {st st' : Notify K} (hon : ∀ x ∈ items, x.fd = fd)
    (h : LoopRun M mask items st st') :
    st'.posted = st.posted ++ (L.tryAll mask items (L.view st.kernel fd)).1 ∧
      L.view st'.kernel = Function.update (L.view st.kernel) fd
        (L.tryAll mask items (L.view st.kernel fd)).2 := by
  induction h with
  | nil => simp [Kernel.Locality.tryAll]
  | @cons item rest st st₁ st' hfresh hmem hstep hrest ih =>
    obtain ⟨hposted, hview⟩ := ih (fun x hx => hon x (List.mem_cons_of_mem _ hx))
    have hfd : item.fd = fd := hon item List.mem_cons_self
    -- the call of the round, in terms of the descriptor's part of the kernel
    have hout := L.outcome_eq item st.kernel
    have hnext := L.view_eq item st.kernel
    rw [hfd] at hout hnext
    have hone : L.view (M.syscall item st.kernel).2 fd = L.next item (L.view st.kernel fd) := by
      rw [hnext, Function.update_self]
    have hall : ∀ v, Function.update (L.view (M.syscall item st.kernel).2) fd v
        = Function.update (L.view st.kernel) fd v := by
      intro v
      rw [hnext, Function.update_idem]
    unfold Kernel.Locality.tryAll
    cases hstep with
    | skipped hsel =>
      rw [if_neg hsel]
      exact ⟨hposted, hview⟩
    | pending hsel hio =>
      rw [hout] at hio
      simp only [Notify.attempted, hone, hall] at hposted hview
      rw [if_pos hsel, hio]
      exact ⟨hposted, hview⟩
    | stored hsel hio =>
      rw [hout] at hio
      simp only [Notify.completed, Notify.attempted, hone, hall] at hposted hview
      rw [if_pos hsel, hio]
      exact ⟨by rw [hposted, List.append_assoc]; rfl, hview⟩

/-! ### Portions -/

/-- The portion of a descriptor. -/
def Notify.portion (L : M.Locality V) (st : Notify K) (fd : Int) : Portion V where
  pending := st.sched.activeOn fd
  interest := st.sched.interest fd
  posted := st.posted.filter (fun a => decide (a.fd = fd))
  view := L.view st.kernel fd

/-- What completing operations on a descriptor does to the portions. -/
theorem Completed.portion (L : M.Locality V) {st st' : Notify K} {fd : Int} {v : V}
    {reg : Option Events} {done : List AsyncIoOperation} (h : Completed M st st' done)
    (hon : ∀ a ∈ done, a.fd = fd)
    (hreg : st'.sched.interest = Function.update st.sched.interest fd reg)
    (hview : L.view st'.kernel = Function.update (L.view st.kernel) fd v) :
    st'.portion L = Function.update (st.portion L) fd
      { pending := (st.sched.activeOn fd).filter (fun a => decide (a ∉ done))
        interest := reg
        posted := st.posted.filter (fun a => decide (a.fd = fd)) ++ done
        view := v } := by
  funext fd'
  have hactive : st'.sched.activeOn fd'
      = (st.sched.activeOn fd').filter (fun a => decide (a ∉ done)) := by
    rw [activeOn, h.active, List.filter_comm, activeOn]
  unfold Notify.portion
  rw [hactive, hreg, h.posted, hview, List.filter_append]
  by_cases hfd : fd' = fd
  · subst hfd
    -- the event's own descriptor: everything that was posted is on it
    have hown : done.filter (fun a => decide (a.fd = fd')) = done :=
      List.filter_eq_self.mpr (fun a ha => decide_eq_true (hon a ha))
    simp only [Function.update_self, hown]
  · -- any other descriptor: nothing that was posted is on it
    have hnone : done.filter (fun a => decide (a.fd = fd')) = [] := by
      rw [List.filter_eq_nil_iff]
      intro a ha
      rw [decide_eq_true_eq, hon a ha]
      exact Ne.symm hfd
    have hkeep : (st.sched.activeOn fd').filter (fun a => decide (a ∉ done))
        = st.sched.activeOn fd' := by
      rw [List.filter_eq_self]
      intro a ha
      refine decide_eq_true (fun hd => hfd ?_)
      rw [← hon a hd, of_decide_eq_true (List.mem_filter.mp ha).2]
    simp only [Function.update_of_ne hfd, hnone, hkeep, List.append_nil]

/-- The loop of an event completes what `tryAll` says on the portion of its descriptor. -/
theorem eventLoop_tryAll (L : M.Locality V) {ev : EpollEvent} {st : Notify K} {l : FdLoop K}
    {log : List AsyncIoOperation} (hinv : st.sched.Inv log st.total)
    (h : eventLoop M tw ev st = .ok l) :
    l.posted = st.posted
        ++ (L.tryAll ev.events (st.portion L ev.fd).pending (st.portion L ev.fd).view).1 ∧
      L.view l.kernel = Function.update (L.view st.kernel) ev.fd
        (L.tryAll ev.events (st.portion L ev.fd).pending (st.portion L ev.fd).view).2 := by
  apply (eventLoop_run hinv h).tryAll L
  intro x hx
  exact of_decide_eq_true (List.mem_filter.mp hx).2

/-- **An event is a step on the portion of its descriptor.** -/
theorem processEvent_portion (L : M.Locality V) {ev : EpollEvent} {st : Notify K}
    {log : List AsyncIoOperation} (hinv : st.sched.Inv log st.total) :
    (processEvent M tw ev st).toOption.map (Notify.portion L)
      = component (L.event st.sched.wakeFd) EpollEvent.fd (st.portion L) ev := by
  unfold component Kernel.Locality.event
  by_cases hfd : ev.fd = st.sched.wakeFd
  · rw [processEvent, if_pos hfd, if_pos hfd]
    exact congrArg some (Function.update_eq_self ev.fd (st.portion L)).symm
  · obtain ⟨l, lo, eq, hi, done, kept, hsplit, hspec, hloop⟩ := eventLoop_spec M tw ev st hinv
    have hon : ∀ a ∈ done, a.fd = ev.fd := fun a ha => hsplit.on a (hspec.done_sub.subset ha)
    obtain ⟨hposted, hview⟩ := eventLoop_tryAll L hinv hloop
    have hdone := List.append_cancel_left (hposted.symm.trans hspec.posted)
    have hkept : (st.portion L ev.fd).pending.filter (fun a => decide (a ∉ done)) = kept := by
      rw [show (st.portion L ev.fd).pending = eq from hsplit.filter_on]
      exact (hspec.kept_eq (hinv.nodup_on hsplit)).symm
    rw [processEvent_of_loop hfd hloop, if_neg hfd, Transition.toOption_map, reregister_toOption]
    simp only [hdone, hkept]
    -- the check is on the portion
    have hcheck : (M.isOpen l.kernel ev.fd = true ∧
        (decide (l.itemsForFd = l.itemsProcessed) = true ∨
          (l.sched.interest ev.fd).isSome = true)) ↔
        (L.opened ev.fd
            (L.tryAll ev.events (st.portion L ev.fd).pending (st.portion L ev.fd).view).2 = true ∧
          (kept = [] ∨ (st.portion L ev.fd).interest.isSome = true)) := by
      rw [L.isOpen_eq, hview, Function.update_self, decide_eq_true_eq, hspec.allDone_iff,
        hspec.interest]
      rfl
    simp only [hcheck]
    split
    · refine congrArg some (((hspec.completed hinv hsplit _).portion L hon (hspec.adjusted ev.fd)
        hview).trans ?_)
      rw [show (st.sched.activeOn ev.fd).filter (fun a => decide (a ∉ done)) = kept from hkept]
      rfl
    · rfl

/-! ### Batches -/

/-- A batch is a replay of its events. -/
theorem processNotifications_exec (events : List EpollEvent) (st : Notify K) :
    (processNotifications M tw events st).toOption
      = exec (fun st ev => (processEvent M tw ev st).toOption) st events := by
  induction events generalizing st with
  | nil => rfl
  | cons ev events ih =>
    rw [processNotifications, exec]
    cases hev : processEvent M tw ev st with
    | error e => rfl
    | ok st₁ => exact ih st₁

/-- **A batch is a replay of its events on the portions.** -/
theorem processNotifications_portion (L : M.Locality V) {events : List EpollEvent} {st : Notify K}
    {log : List AsyncIoOperation} (hinv : st.sched.Inv log st.total) :
    (processNotifications M tw events st).toOption.map (Notify.portion L)
      = exec (component (L.event st.sched.wakeFd) EpollEvent.fd) (st.portion L) events := by
  rw [processNotifications_exec]
  refine Transition.exec_map (Notify.portion L)
    (fun t => t.sched.Inv log t.total ∧ t.sched.wakeFd = st.sched.wakeFd) ?_ ?_ events ⟨hinv, rfl⟩
  · rintro t ev t' ⟨ht, hwake⟩ hev
    obtain ⟨done, hdone⟩ := processEvent_completed ht (Transition.toOption_eq_some.mp hev)
    exact ⟨hdone.inv ht, hdone.wakeFd.trans hwake⟩
  · rintro t ev ⟨ht, hwake⟩
    rw [processEvent_portion L ht, hwake]

/-- Lists with the same operations on every descriptor, in the same order, hold the same
    operations. -/
theorem perm_of_filter_fd {xs ys : List AsyncIoOperation}
    (h : ∀ fd, xs.filter (fun a => decide (a.fd = fd)) = ys.filter (fun a => decide (a.fd = fd))) :
    xs.Perm ys := by
  rw [List.perm_iff_count]
  intro a
  have hcount : ∀ l : List AsyncIoOperation,
      (l.filter (fun x => decide (x.fd = a.fd))).count a = l.count a :=
    fun l => List.count_filter (decide_eq_true rfl)
  rw [← hcount xs, ← hcount ys, h a.fd]

/-- Two ends of `process_notifications` that cannot be told apart: the same list and cursor, the
    same registrations, the same returned count, and the same operations posted, in the same
    order for each descriptor. -/
structure SameOutcome (st st' : Notify K) : Prop where
  operations : st'.sched.operations = st.sched.operations
  beginCancelled : st'.sched.beginCancelled = st.sched.beginCancelled
  interest : st'.sched.interest = st.sched.interest
  total : st'.total = st.total
  posted_perm : st'.posted.Perm st.posted
  posted : ∀ fd, st'.posted.filter (fun a => decide (a.fd = fd))
    = st.posted.filter (fun a => decide (a.fd = fd))

/-- Both calls return, to ends that cannot be told apart, or both fail a check. -/
def SameEnd : Except Contract (Notify K) → Except Contract (Notify K) → Prop
  | .ok st, .ok st' => SameOutcome st st'
  | .error _, .error _ => True
  | _, _ => False

/-- The portions determine the outcome. -/
theorem Completed.sameOutcome (L : M.Locality V) {s st st' : Notify K}
    {done done' : List AsyncIoOperation} (h : Completed M s st done) (h' : Completed M s st' done')
    (hportion : st'.portion L = st.portion L) : SameOutcome st st' := by
  have hposted : ∀ fd, st'.posted.filter (fun a => decide (a.fd = fd))
      = st.posted.filter (fun a => decide (a.fd = fd)) :=
    fun fd => congrArg Portion.posted (congrFun hportion fd)
  have hperm : st'.posted.Perm st.posted := perm_of_filter_fd hposted
  have hdone : done'.Perm done := by
    rw [h.posted, h'.posted] at hperm
    exact (List.perm_append_left_iff s.posted).mp hperm
  -- both runs took the same operations off the active segment
  have hactive : st'.sched.activeSegment = st.sched.activeSegment := by
    rw [h.active, h'.active]
    refine List.filter_congr (fun a _ => ?_)
    simp only [hdone.mem_iff]
  refine ⟨?_, ?_, ?_, ?_, hperm, hposted⟩
  · rw [← st'.sched.segments_append, ← st.sched.segments_append, hactive, h'.cancelled,
      h.cancelled]
  · rw [h'.beginCancelled, h.beginCancelled]
  · funext fd
    exact congrArg Portion.interest (congrFun hportion fd)
  · rw [h'.total, h.total, hdone.length_eq]

/-- **The events of a batch commute.**  From every state with the representation invariant, with
    a kernel that keeps descriptors apart, a batch with distinct descriptors and every permutation
    of it end alike. -/
theorem batch_commutes (L : M.Locality V) {s : IoScheduler} {log : List AsyncIoOperation}
    (hinv : s.Inv log 0) (k : K) (tw tw' : Nat) {events events' : List EpollEvent}
    (hdistinct : (events.map (·.fd)).Nodup) (hperm : events.Perm events') :
    SameEnd (processNotifications M tw events (Notify.start s k))
      (processNotifications M tw' events' (Notify.start s k)) := by
  have hstart : (Notify.start s k).sched.Inv log (Notify.start s k).total := hinv
  have hportion : (processNotifications M tw' events' (Notify.start s k)).toOption.map
        (Notify.portion L)
      = (processNotifications M tw events (Notify.start s k)).toOption.map (Notify.portion L) := by
    -- portion by portion a batch is a run of independent steps, whose order does not matter
    rw [processNotifications_portion L hstart, processNotifications_portion L hstart]
    exact (Transition.exec_component_perm hperm hdistinct _).symm
  cases hst : processNotifications M tw events (Notify.start s k) with
  | error e =>
    cases hst' : processNotifications M tw' events' (Notify.start s k) with
    -- both orders fail, each in a check of its own
    | error e' => exact trivial
    | ok st' => rw [hst, hst'] at hportion; exact absurd hportion (by simp [Except.toOption])
  | ok st =>
    cases hst' : processNotifications M tw' events' (Notify.start s k) with
    | error e' => rw [hst, hst'] at hportion; exact absurd hportion (by simp [Except.toOption])
    | ok st' =>
      rw [hst, hst'] at hportion
      obtain ⟨done, hdone⟩ := processNotifications_ok hstart hst
      obtain ⟨done', hdone'⟩ := processNotifications_ok hstart hst'
      exact hdone.sameOutcome L hdone' (Option.some.inj hportion)

/-- A kernel whose descriptors answer one call and then would block: it counts the calls. -/
def onceKernel : Kernel (Int → Nat) where
  syscall := fun op calls =>
    (if calls op.fd = 0 then ⟨.ok 1, 0⟩ else .wouldBlock,
      Function.update calls op.fd (calls op.fd + 1))
  isOpen := fun _ _ => true

/-- Its outcomes depend on the calls made on the descriptor. -/
def onceLocality : onceKernel.Locality Nat where
  view := id
  outcome := fun _ calls => if calls = 0 then ⟨.ok 1, 0⟩ else .wouldBlock
  next := fun _ calls => calls + 1
  opened := fun _ _ => true
  outcome_eq := fun _ _ => rfl
  view_eq := fun _ _ => rfl
  isOpen_eq := fun _ _ => rfl

/-- A read is pending on descriptor 3, and two on 5. -/
def threeReads : IoScheduler :=
  { init 0 with
    operations := [⟨1, 3, .ioRead⟩, ⟨2, 5, .ioRead⟩, ⟨3, 5, .ioRead⟩]
    pollQueueLength := 3
    interest := Function.update (Function.update (init 0).interest 3 (some EPOLLIN)) 5
      (some EPOLLIN) }

/-- The scheduler with three reads keeps the representation invariant. -/
theorem threeReads_inv : threeReads.Inv threeReads.operations 0 :=
  Inv.of_segments (List.append_nil _).symm (by decide) rfl (by decide) (fun _ _ => rfl) (by simp)
    (fun _ => List.filter_sublist) rfl

/-- Descriptors 3 and 5 are notified, in either order: each completes its first read. -/
theorem batch_commutes_two :
    ∃ st st', processNotifications onceKernel 0 [⟨3, EPOLLIN⟩, ⟨5, EPOLLIN⟩]
          (Notify.start threeReads (fun _ => 0)) = .ok st ∧
      processNotifications onceKernel 0 [⟨5, EPOLLIN⟩, ⟨3, EPOLLIN⟩]
          (Notify.start threeReads (fun _ => 0)) = .ok st' ∧
      st.posted = [⟨1, 3, .ioRead⟩, ⟨2, 5, .ioRead⟩] ∧
      st'.posted = [⟨2, 5, .ioRead⟩, ⟨1, 3, .ioRead⟩] ∧ SameOutcome st st' := by
  have hperm : ([⟨3, EPOLLIN⟩, ⟨5, EPOLLIN⟩] : List EpollEvent).Perm [⟨5, EPOLLIN⟩, ⟨3, EPOLLIN⟩] :=
    .swap _ _ _
  exact ⟨_, _, rfl, rfl, rfl, rfl,
    batch_commutes onceLocality threeReads_inv (fun _ => 0) 0 0 (by decide) hperm⟩

end IoScheduler

end Exios
