import Exios.Scheduler.Registrations
import Exios.Scheduler.Attempts

namespace Exios

/-!
# Scheduler — the order of completions

The operations on a descriptor are kept in schedule order, and a notification attempts them in
that order; but it goes on to the next one when an attempt would block.  So two operations of
one direction complete out of order when the descriptor becomes ready between their attempts.

* `InOrder` — of two operations of the same direction on the same descriptor, the one that was
  scheduled first was completed first;
* `Kernel.Steady` — a descriptor that would have blocked does not become ready for the next
  attempt in the same direction;
* `inOrder_iff_steady` — the runs without cancellation all complete in order exactly for the
  steady kernels.
-/

/-- The system call of the operation would block. -/
def Kernel.WouldBlock {K : Type} (M : Kernel K) (op : AsyncIoOperation) (k : K) : Prop :=
  io op.kind (M.syscall op k).1 none = .ok (false, none)

/-- Both operations are on one descriptor and wait for one direction. -/
def AsyncIoOperation.Alike (a b : AsyncIoOperation) : Prop :=
  a.fd = b.fd ∧ a.isReadOperation = b.isReadOperation

/-- The operation is on the descriptor and waits for the direction. -/
def AsyncIoOperation.isFor (fd : Int) (read : Bool) (a : AsyncIoOperation) : Bool :=
  decide (a.fd = fd) && decide (a.isReadOperation = read)

/-- Which operations stand in one line: those on the same descriptor and in the same direction. -/
theorem AsyncIoOperation.isFor_iff {fd : Int} {read : Bool} {a : AsyncIoOperation} :
    a.isFor fd read = true ↔ a.fd = fd ∧ a.isReadOperation = read := by
  rw [isFor, Bool.and_eq_true, decide_eq_true_eq, decide_eq_true_eq]

/-- An open descriptor that would have blocked an operation would block the next call for
    another one of the same direction. -/
def Kernel.Steady {K : Type} (M : Kernel K) : Prop :=
  ∀ k op op', op ≠ op' → op.Alike op' → M.isOpen k op.fd = true → M.WouldBlock op k →
    M.WouldBlock op' (M.syscall op k).2

/-- System calls close no descriptor, and a call on a closed one fails at once. -/
structure Kernel.Lawful {K : Type} (M : Kernel K) : Prop where
  neverCloses : M.NeverCloses
  closedFails : ∀ k op, M.isOpen k op.fd = false → ¬ M.WouldBlock op k

/-- A prefix of a duplicate-free sequence, and what is left of it. -/
theorem prefix_append_filter {α : Type*} [DecidableEq α] {p : α → Bool} {done xs : List α}
    (hnd : xs.Nodup) (hxs : ∀ x ∈ xs, p x = true) (hpre : done.filter p <+: xs) :
    done.filter p ++ xs.filter (fun x => decide (x ∉ done)) = xs := by
  obtain ⟨rest, rfl⟩ := hpre
  have hfront : (done.filter p).filter (fun x => decide (x ∉ done)) = [] :=
    List.filter_eq_nil_iff.mpr (fun x hx => by simpa using (List.mem_filter.mp hx).1)
  have hrest : rest.filter (fun x => decide (x ∉ done)) = rest := by
    refine List.filter_eq_self.mpr (fun x hx => ?_)
    have hnot : x ∉ done := fun hd => List.disjoint_of_nodup_append hnd
      (List.mem_filter.mpr ⟨hd, hxs x (List.mem_append_right _ hx)⟩) hx
    simpa using hnot
  rw [List.filter_append, hfront, hrest, List.nil_append]

namespace IoScheduler

variable {K : Type} {M : Kernel K} {mask : Events} {st st' : Notify K}
  {items : List AsyncIoOperation}

/-- Once the descriptor blocks, a steady kernel completes nothing more in the loop. -/
theorem LoopRun.posted_of_blocked (hM : M.Lawful) (hsteady : M.Steady)
    (hnd : items.Nodup) (halike : ∀ x ∈ items, ∀ y ∈ items, x.fd = y.fd)
    (hblocked : ∀ x ∈ items, Selects mask x → M.WouldBlock x st.kernel)
    (h : LoopRun M mask items st st') : st'.posted = st.posted := by
  induction h with
  | nil => rfl
  | @cons item rest st st₁ st' hfresh hmem hstep hrest ih =>
    rw [List.nodup_cons] at hnd
    have hafter : ∀ x ∈ rest, ∀ y ∈ rest, x.fd = y.fd := fun x hx y hy =>
      halike x (List.mem_cons_of_mem _ hx) y (List.mem_cons_of_mem _ hy)
    cases hstep with
    | skipped hsel =>
      exact ih hnd.2 hafter (fun x hx => hblocked x (List.mem_cons_of_mem _ hx))
    | pending hsel hio =>
      -- the call that would have blocked was on an open descriptor
      have hopen : M.isOpen st.kernel item.fd = true := by
        by_contra hclosed
        exact hM.closedFails _ item (by simpa using hclosed) hio
      refine ih hnd.2 hafter (fun x hx hselx => hsteady _ item x ?_ ⟨?_, ?_⟩ hopen hio)
      · exact fun he => hnd.1 (he ▸ hx)
      · exact halike item List.mem_cons_self x (List.mem_cons_of_mem _ hx)
      · exact hsel.symm.trans hselx
    | stored hsel hio =>
      have hio' := hblocked item List.mem_cons_self hsel
      rw [Kernel.WouldBlock, hio] at hio'
      exact absurd hio' (by simp)

/-- **A steady kernel completes a prefix** of the operations that the event is for. -/
theorem LoopRun.prefix_of_posted (hM : M.Lawful) (hsteady : M.Steady)
    (hnd : items.Nodup) (halike : ∀ x ∈ items, ∀ y ∈ items, x.fd = y.fd)
    (h : LoopRun M mask items st st') :
    ∃ done, st'.posted = st.posted ++ done ∧
      done <+: items.filter (fun x => decide (Selects mask x)) := by
  induction h with
  | nil => exact ⟨[], by simp, List.nil_prefix⟩
  | @cons item rest st st₁ st' hfresh hmem hstep hrest ih =>
    rw [List.nodup_cons] at hnd
    have hafter : ∀ x ∈ rest, ∀ y ∈ rest, x.fd = y.fd := fun x hx y hy =>
      halike x (List.mem_cons_of_mem _ hx) y (List.mem_cons_of_mem _ hy)
    cases hstep with
    | skipped hsel =>
      obtain ⟨done, hposted, hpre⟩ := ih hnd.2 hafter
      exact ⟨done, hposted, by rwa [List.filter_cons_of_neg (by simpa using hsel)]⟩
    | stored hsel hio =>
      obtain ⟨done, hposted, hpre⟩ := ih hnd.2 hafter
      refine ⟨item :: done, hposted.trans (List.append_assoc _ _ _), ?_⟩
      rw [List.filter_cons_of_pos (by simpa using hsel)]
      exact (List.prefix_cons_inj item).mpr hpre
    | pending hsel hio =>
      -- the descriptor blocks, so nothing behind this operation completes
      have hopen : M.isOpen st.kernel item.fd = true := by
        by_contra hclosed
        exact hM.closedFails _ item (by simpa using hclosed) hio
      have hnone := hrest.posted_of_blocked hM hsteady hnd.2 hafter
        (fun x hx hselx => hsteady _ item x (fun he => hnd.1 (he ▸ hx))
          ⟨halike item List.mem_cons_self x (List.mem_cons_of_mem _ hx), hsel.symm.trans hselx⟩
          hopen hio)
      exact ⟨[], by rw [hnone]; simp [Notify.attempted], List.nil_prefix⟩

/-- The active operations of one direction on one descriptor. -/
def waiting (s : IoScheduler) (fd : Int) (read : Bool) : List AsyncIoOperation :=
  s.activeSegment.filter (AsyncIoOperation.isFor fd read)

/-- The operations of an event's direction are those it selects. -/
theorem filter_selects (s : IoScheduler) (fd : Int) (mask : Events) :
    (s.activeOn fd).filter (fun x => decide (Selects mask x))
      = s.waiting fd (decide (mask &&& EPOLLIN ≠ 0)) := by
  rw [activeOn, waiting, List.filter_filter]
  refine List.filter_congr (fun a _ => ?_)
  rw [AsyncIoOperation.isFor, Bool.and_comm]
  exact congrArg _ (decide_eq_decide.mpr eq_comm)

/-- What a steady kernel completes of a descriptor and direction stood in front there. -/
theorem prefix_of_waiting {s : IoScheduler} {fd' : Int} {done : List AsyncIoOperation}
    (hpre : done <+: s.waiting fd' (decide (mask &&& EPOLLIN ≠ 0))) (fd : Int) (read : Bool) :
    done.filter (AsyncIoOperation.isFor fd read) <+: s.waiting fd read := by
  have hfor : ∀ x ∈ done, x.fd = fd' ∧ x.isReadOperation = decide (mask &&& EPOLLIN ≠ 0) :=
    fun x hx => AsyncIoOperation.isFor_iff.mp (List.mem_filter.mp (hpre.subset hx)).2
  by_cases hmatch : fd' = fd ∧ decide (mask &&& EPOLLIN ≠ 0) = read
  · obtain ⟨rfl, rfl⟩ := hmatch
    rw [List.filter_eq_self.mpr (fun x hx => AsyncIoOperation.isFor_iff.mpr (hfor x hx))]
    exact hpre
  · -- an event for something else completes nothing of this
    have hnone : done.filter (AsyncIoOperation.isFor fd read) = [] := by
      refine List.filter_eq_nil_iff.mpr (fun x hx hp => hmatch ?_)
      obtain ⟨hfd, hread⟩ := AsyncIoOperation.isFor_iff.mp hp
      exact ⟨(hfor x hx).1.symm.trans hfd, (hfor x hx).2.symm.trans hread⟩
    rw [hnone]
    exact List.nil_prefix

/-- An event of a steady kernel moves operations from the front of the waiting ones to the end
    of the posted ones. -/
theorem processEvent_waiting (hM : M.Lawful) (hsteady : M.Steady) {tw : Nat} {ev : EpollEvent}
    {log : List AsyncIoOperation} (hinv : st.sched.Inv log st.total)
    (h : processEvent M tw ev st = .ok st') (fd : Int) (read : Bool) :
    st'.posted.filter (AsyncIoOperation.isFor fd read) ++ st'.sched.waiting fd read
      = st.posted.filter (AsyncIoOperation.isFor fd read) ++ st.sched.waiting fd read := by
  by_cases hfd : ev.fd = st.sched.wakeFd
  · -- the wake event completes nothing
    rw [processEvent, if_pos hfd, Except.ok.injEq] at h
    exact h ▸ rfl
  · obtain ⟨done, hdone⟩ := processEvent_completed hinv h
    obtain ⟨st₁, reg, total, hrun, hst'⟩ := processEvent_loop hinv hfd h
    have hnd := hinv.nodup_active
    have hon : ∀ x ∈ st.sched.activeOn ev.fd, x.fd = ev.fd := fun x hx =>
      of_decide_eq_true (List.mem_filter.mp hx).2
    have hndon : (st.sched.activeOn ev.fd).Nodup := hnd.filter _
    -- what the event completes is a prefix of what it selects
    obtain ⟨done', hposted', hpre⟩ := hrun.prefix_of_posted hM hsteady hndon
      (fun x hx y hy => (hon x hx).trans (hon y hy).symm)
    have hsame : done' = done := by
      have hboth : st.posted ++ done' = st.posted ++ done := by
        rw [← hposted', ← hdone.posted, hst']
      exact List.append_cancel_left hboth
    subst hsame
    rw [filter_selects] at hpre
    -- so in each line too: the completed part, then what is left, is the line as it was
    have hsplit : done'.filter (AsyncIoOperation.isFor fd read)
        ++ (st.sched.waiting fd read).filter (fun x => decide (x ∉ done'))
        = st.sched.waiting fd read :=
      prefix_append_filter (hnd.filter _) (fun x hx => (List.mem_filter.mp hx).2)
        (prefix_of_waiting hpre fd read)
    have hact : st'.sched.waiting fd read
        = (st.sched.waiting fd read).filter (fun x => decide (x ∉ done')) := by
      rw [waiting, hdone.active, waiting, List.filter_comm]
    rw [hdone.posted, List.filter_append, List.append_assoc, hact, hsplit]

end IoScheduler

/-! ### Runs -/

namespace Sched

variable {K : Type} {M : Kernel K} {s s' : Sched K}

/-- Nothing is cancelled. -/
def NoCancel (_ : Sched K) : SchedAct K → Prop
  | .cancel _ _ => False
  | _ => True

instance (s : Sched K) (a : SchedAct K) : Decidable (NoCancel s a) :=
  match a with
  | .cancel _ _ => isFalse id
  | .schedule _ => isTrue trivial
  | .pollCancellations _ => isTrue trivial
  | .pollNotifications _ _ => isTrue trivial
  | .wake _ => isTrue trivial
  | .kernel _ => isTrue trivial
  | .forget _ => isTrue trivial

/-- Of two alike operations, the one that was scheduled first was completed first. -/
def InOrder (s : Sched K) : Prop :=
  ∀ a b, [a, b].Sublist s.scheduled → a.Alike b → b ∈ s.posted → [a, b].Sublist s.posted

/-- The invariant of a run without cancellation: of each descriptor and direction, the
    operations scheduled are those posted followed by those that wait. -/
structure OrderInv (s : Sched K) : Prop where
  inv : s.Inv
  nothing : s.io.cancelledSegment = []
  split : ∀ fd read, s.scheduled.filter (AsyncIoOperation.isFor fd read)
    = s.posted.filter (AsyncIoOperation.isFor fd read) ++ s.io.waiting fd read

/-- Completions in prefix order are completions in order. -/
theorem OrderInv.inOrder (h : s.OrderInv) : s.InOrder := by
  intro a b hab halike hb
  -- both are in the part of the schedule that is for their descriptor and direction
  have hfor : a.isFor b.fd b.isReadOperation = true := AsyncIoOperation.isFor_iff.mpr halike
  have hfor' : b.isFor b.fd b.isReadOperation = true := AsyncIoOperation.isFor_iff.mpr ⟨rfl, rfl⟩
  have hsub := hab.filter (AsyncIoOperation.isFor b.fd b.isReadOperation)
  rw [List.filter_cons_of_pos hfor, List.filter_cons_of_pos hfor', List.filter_nil,
    h.split] at hsub
  have hnd : (s.posted.filter (AsyncIoOperation.isFor b.fd b.isReadOperation)
      ++ s.io.waiting b.fd b.isReadOperation).Nodup := by
    rw [← h.split]
    exact h.inv.nodup.filter _
  have hmem : b ∈ s.posted.filter (AsyncIoOperation.isFor b.fd b.isReadOperation) :=
    List.mem_filter.mpr ⟨hb, hfor'⟩
  -- so `b`, which is posted, is found in front of those that wait
  rw [List.sublist_append_iff] at hsub
  obtain ⟨l₁, l₂, heq, h₁, h₂⟩ := hsub
  have hl₂ : l₂ = [] := by
    rcases List.eq_nil_or_concat l₂ with hnil | ⟨l, x, rfl⟩
    · exact hnil
    · have hx : x = b := by
        have hlast := congrArg List.getLast? heq
        simpa using hlast.symm
      subst hx
      exact absurd (h₂.subset (by simp)) (List.disjoint_of_nodup_append hnd hmem)
  rw [hl₂, List.append_nil] at heq
  rw [heq]
  exact h₁.trans List.filter_sublist

/-- Before anything is scheduled every line is in order. -/
theorem init_orderInv (h : Init s) : s.OrderInv := by
  have hinv := init_inv h
  obtain ⟨wakeFd, k, rfl⟩ := h
  exact ⟨hinv, rfl, fun _ _ => rfl⟩

/-- Scheduling puts the operation at the end of its own line and leaves the other lines as they
    are. -/
theorem waiting_schedule (hinv : s.Inv) {op : AsyncIoOperation} (hnew : op ∉ s.scheduled)
    (h : s.schedule M op = .ok s') (fd : Int) (read : Bool) :
    s'.io.waiting fd read
      = s.io.waiting fd read ++ [op].filter (AsyncIoOperation.isFor fd read) := by
  have hwait : ∀ io : IoScheduler, io.waiting fd read
      = (io.activeOn fd).filter (fun a => decide (a.isReadOperation = read)) := by
    intro io
    rw [IoScheduler.waiting, IoScheduler.activeOn, List.filter_filter]
    exact List.filter_congr (fun a _ => Bool.and_comm _ _)
  rw [hwait, hwait, schedule_activeOn hinv hnew h fd, List.filter_append, List.filter_filter]
  exact congrArg _ (List.filter_congr (fun a _ => Bool.and_comm _ _))

/-- **The step lemma** for the order of completion, as long as nothing is cancelled. -/
theorem step_orderInv (hM : M.Lawful) (hsteady : M.Steady) {a : SchedAct K} (hord : s.OrderInv)
    (hok : NoCancel s a) (h : step M s a = some s') : s'.OrderInv := by
  have hinv' := step_inv hord.inv h
  cases a with
  | schedule op =>
    obtain ⟨hnew, hs⟩ := step_schedule.mp h
    have hwait := waiting_schedule hord.inv hnew hs
    obtain ⟨hcan, -⟩ := schedule_cancelledSegment hord.inv hnew hs
    obtain ⟨io, -, rfl⟩ := schedule_cases hs
    refine ⟨hinv', hcan.trans hord.nothing, fun fd read => ?_⟩
    rw [List.filter_append, hord.split, hwait, List.append_assoc]
  | cancel fd fuel => exact absurd hok id
  | pollCancellations tw =>
    obtain ⟨p, hp⟩ := step_pollCancellations.mp h
    obtain ⟨w, rfl⟩ := pollCancellations_cases hord.inv hp
    refine ⟨hinv', by simp [IoScheduler.cancelledSegment], fun fd read => ?_⟩
    rw [hord.split, hord.nothing, List.append_nil]
    simp [IoScheduler.waiting, IoScheduler.activeSegment]
  | pollNotifications events tw =>
    obtain ⟨n, hn⟩ := step_pollNotifications.mp h
    obtain ⟨st, done, hst, hdone, rfl, rfl⟩ := pollNotifications_cases hord.inv hn
    refine ⟨hinv', hdone.cancelled.trans hord.nothing, fun fd read => ?_⟩
    -- every event moves operations from the waiting to the posted ones
    have hmoved := IoScheduler.processNotifications_induct
      (fun t => t.posted.filter (AsyncIoOperation.isFor fd read) ++ t.sched.waiting fd read
        = s.io.waiting fd read)
      (fun _ _ _ hi hp he =>
        (IoScheduler.processEvent_waiting hM hsteady hi he fd read).trans hp) events
      (hord.inv.rep.start s.kernel) rfl hst
    show s.scheduled.filter _ = (s.posted ++ st.posted).filter _ ++ st.sched.waiting fd read
    rw [hord.split, ← hmoved, List.filter_append, List.append_assoc]
  | wake tw =>
    rw [step, Option.some.injEq] at h
    subst h
    exact ⟨hinv', hord.nothing, hord.split⟩
  | kernel k =>
    rw [step, Option.some.injEq] at h
    subst h
    exact ⟨hinv', hord.nothing, hord.split⟩
  | forget fd =>
    rw [step, Option.some.injEq] at h
    subst h
    exact ⟨hinv', hord.nothing, hord.split⟩

/-- Runs of a steady kernel complete in order. -/
theorem inOrder_of_steady (hM : M.Lawful) (hsteady : M.Steady) (h : Reach M NoCancel s) :
    s.InOrder :=
  (Transition.Reach.invariant OrderInv (fun _ => init_orderInv)
    (fun _ _ _ hord hok hs => step_orderInv hM hsteady hord hok hs) h).inOrder

/-- Scheduling a new operation on an open descriptor continues a run. -/
theorem reach_schedule (hreach : Reach M NoCancel s) (hb : s.Backed M) (op : AsyncIoOperation)
    (hnew : op ∉ s.scheduled) (hopen : M.isOpen s.kernel op.fd = true) :
    ∃ s', Reach M NoCancel s' ∧ s'.Backed M ∧ s'.kernel = s.kernel ∧
      s'.scheduled = s.scheduled ++ [op] ∧ s'.posted = s.posted ∧ s'.io.wakeFd = s.io.wakeFd ∧
      ∀ fd, s'.io.activeOn fd = s.io.activeOn fd ++ [op].filter (fun a => decide (a.fd = fd)) := by
  obtain ⟨s', hs⟩ := schedule_ok_of_open (M := M) hopen
  have hinv := reach_inv hreach
  refine ⟨s', ?_, schedule_backed hinv hnew hb hs, ?_, ?_, ?_,
    (schedule_cancelledSegment hinv hnew hs).2, schedule_activeOn hinv hnew hs⟩
  · exact .next hreach (show NoCancel s (.schedule op) from trivial)
      (step_schedule.mpr ⟨hnew, hs⟩)
  all_goals
    obtain ⟨io, -, rfl⟩ := schedule_cases hs
    rfl

/-- Two alike operations, scheduled on a new scheduler. -/
theorem two_scheduled {k : K} {a b : AsyncIoOperation} (hne : a ≠ b) (halike : a.Alike b)
    (hopen : M.isOpen k a.fd = true) :
    ∃ s, Reach M NoCancel s ∧ s.Backed M ∧ s.kernel = k ∧ s.scheduled = [a, b] ∧ s.posted = [] ∧
      s.io.activeOn a.fd = [a, b] ∧ s.io.wakeFd ≠ a.fd := by
  have hinit : Init (⟨IoScheduler.init (a.fd + 1), k, [], [], [], []⟩ : Sched K) := ⟨_, k, rfl⟩
  obtain ⟨s₁, hreach₁, hb₁, hk₁, hsched₁, hposted₁, hwake₁, hon₁⟩ :=
    reach_schedule (.start hinit) (fun x hx => absurd hx List.not_mem_nil) a List.not_mem_nil hopen
  obtain ⟨s₂, hreach₂, hb₂, hk₂, hsched₂, hposted₂, hwake₂, hon₂⟩ :=
    reach_schedule hreach₁ hb₁ b (by rw [hsched₁]; simpa using hne.symm)
      (by rw [hk₁, ← halike.1]; exact hopen)
  refine ⟨s₂, hreach₂, hb₂, hk₂.trans hk₁, by rw [hsched₂, hsched₁]; rfl, hposted₂.trans hposted₁,
    ?_, ?_⟩
  · rw [hon₂, hon₁]
    simp [IoScheduler.activeOn, IoScheduler.activeSegment, IoScheduler.init, halike.1]
  · -- the wake event's descriptor was chosen to be another one
    rw [hwake₂, hwake₁]
    show a.fd + 1 ≠ a.fd
    omega

/-- An unsteady kernel has a run that completes out of order: the first of two alike operations
    would block, then the second does not. -/
theorem steady_of_inOrder (hM : M.Lawful) (hall : ∀ s, Reach M NoCancel s → s.InOrder) :
    M.Steady := by
  intro k a b hne halike hopen hblock
  obtain ⟨s, hreach, hb, hk, hsched, hposted, hon, hwake⟩ := two_scheduled hne halike hopen
  have hinv := reach_inv hreach
  -- both are attempted under one event for their direction
  obtain ⟨s', n, hs'⟩ := pollNotifications_ok_of_open hM.neverCloses hinv hb 0
    [⟨a.fd, a.interest⟩] (by simpa [hk] using fun _ => hopen)
  have hreach' : Reach M NoCancel s' :=
    .next hreach (show NoCancel s (.pollNotifications _ 0) from trivial)
      (step_pollNotifications.mpr ⟨n, hs'⟩)
  have hselects : ∀ x : AsyncIoOperation, x.isReadOperation = a.isReadOperation →
      IoScheduler.Selects a.interest x := by
    intro x hx
    unfold IoScheduler.Selects AsyncIoOperation.interest
    rw [hx]
    cases a.isReadOperation <;> decide
  obtain ⟨st, done, hst, -, rfl, rfl⟩ := pollNotifications_cases hinv hs'
  rw [IoScheduler.processNotifications] at hst
  split at hst
  · exact absurd hst (by simp)
  · rename_i st₀ hev
    rw [IoScheduler.processNotifications, Except.ok.injEq] at hst
    subst hst
    obtain ⟨st₁, reg, total, hrun, rfl⟩ := IoScheduler.processEvent_loop
      (hinv.rep.start s.kernel)
      (show a.fd ≠ s.io.wakeFd from fun he => hwake he.symm) hev
    have hrun' : IoScheduler.LoopRun M a.interest [a, b] (.start s.io s.kernel) st₁ := by
      rw [← hon]; exact hrun
    by_contra hready
    -- the rounds of the loop: `a` would block, `b` does not
    cases hrun' with
    | cons _ _ hstep hrest =>
      cases hstep with
      | skipped hsel => exact hsel (hselects a rfl)
      | stored _ hio =>
        rw [Kernel.WouldBlock, ← hk] at hblock
        exact absurd (hblock.symm.trans hio) (by simp)
      | pending _ hio =>
        cases hrest with
        | cons _ _ hstep₂ hrest₂ =>
          cases hrest₂
          cases hstep₂ with
          | skipped hsel => exact hsel (hselects b halike.2.symm)
          | pending _ hio₂ => exact hready (hk ▸ hio₂)
          | stored _ hio₂ =>
            have hbad := hall _ hreach' a b (by rw [hsched]) halike
              (by simp [IoScheduler.Notify.completed])
            simp only [hposted, IoScheduler.Notify.completed, IoScheduler.Notify.attempted,
              IoScheduler.Notify.start, List.nil_append] at hbad
            exact absurd hbad.length_le (by simp)

/-- **The order of completions.**  The runs without cancellation all complete alike operations
    in the order they were scheduled if and only if the kernel is steady: no descriptor becomes
    ready between two attempts of one notification. -/
theorem inOrder_iff_steady (hM : M.Lawful) :
    (∀ s, Reach M NoCancel s → s.InOrder) ↔ M.Steady :=
  ⟨steady_of_inOrder hM, fun hsteady _ h => inOrder_of_steady hM hsteady h⟩

/-- A kernel in which every descriptor is open and ready. -/
def readyKernel : Kernel Unit where
  syscall := fun _ k => (⟨.ok 1, 0⟩, k)
  isOpen := fun _ _ => true

/-- A descriptor that is always ready: two reads complete, in order. -/
theorem inOrder_ready :
    ∃ s : Sched Unit, s.posted = [⟨1, 5, .ioRead⟩, ⟨2, 5, .ioRead⟩] ∧ s.InOrder := by
  have hlawful : readyKernel.Lawful := ⟨fun _ _ _ h => h, fun _ _ h => by cases h⟩
  have hsteady : readyKernel.Steady := by
    intro k op op' hne halike hopen hblock
    -- no call of this kernel would block
    obtain ⟨v, hv⟩ := io_of_ok op.kind 1 0
    exact absurd (hblock.symm.trans hv) (by simp)
  have hrun : ∃ s, Reach readyKernel NoCancel s ∧
      decide (s.posted = [⟨1, 5, .ioRead⟩, ⟨2, 5, .ioRead⟩]) = true :=
    Transition.exists_reach quietStart_init
      [.schedule ⟨1, 5, .ioRead⟩, .schedule ⟨2, 5, .ioRead⟩,
        .pollNotifications [⟨5, EPOLLIN⟩] 0] _ (by decide)
  obtain ⟨s, hs, hend⟩ := hrun
  exact ⟨s, of_decide_eq_true hend, (inOrder_iff_steady hlawful).mpr hsteady s hs⟩

/-- A kernel whose descriptors become ready after the first call. -/
def burstKernel : Kernel Bool where
  syscall := fun _ ready => (if ready then ⟨.ok 1, 0⟩ else .wouldBlock, true)
  isOpen := fun _ _ => true

/-- Two reads on descriptor 5: the first would block, then data arrives and the second gets it. -/
theorem second_read_completes_first :
    ¬ ∀ s : Sched Bool, Reach burstKernel NoCancel s → s.InOrder := by
  intro hall
  have hrun : ∃ s, Reach burstKernel NoCancel s ∧
      decide (s.scheduled = [⟨1, 5, .ioRead⟩, ⟨2, 5, .ioRead⟩] ∧
        s.posted = [⟨2, 5, .ioRead⟩]) = true :=
    Transition.exists_reach (s := ⟨IoScheduler.init 0, false, [], [], [], []⟩) ⟨0, false, rfl⟩
      [.schedule ⟨1, 5, .ioRead⟩, .schedule ⟨2, 5, .ioRead⟩,
        .pollNotifications [⟨5, EPOLLIN⟩] 0] _ (by decide)
  obtain ⟨s, hs, hend⟩ := hrun
  obtain ⟨hsched, hposted⟩ := of_decide_eq_true hend
  have hbad := hall s hs ⟨1, 5, .ioRead⟩ ⟨2, 5, .ioRead⟩ (by rw [hsched]) ⟨rfl, rfl⟩
    (by rw [hposted]; simp)
  rw [hposted] at hbad
  exact absurd hbad.length_le (by decide)

end Sched

end Exios
